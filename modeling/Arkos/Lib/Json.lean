import Mathlib.Data.UInt
import Mathlib.Data.List.Basic
import Mathlib.Data.List.Nodup

/-!
# JSON values and derived structs

A struct whose fields are numbers and strings, written to and read from a JSON value the way the
derived implementations of `serde` do it. The struct is given by its fields, each with the name it
has on the wire and its type; a value of it is a `Record` of the fields.

An object is read entry by entry: an entry that names a field must have the field's type, any other
entry is skipped, and only then is a field without an entry reported. An array is read by position.

## Main definitions

* `Json`, `Json.Field`, `Json.Record`
* `Json.Record.toJson` — the value of a struct
* `Json.decode` — the struct of a value
* `Json.camelCase` — the renaming rule

## Main results

* `Json.decode_toJson` — a struct reads back what it wrote
* `Json.decode_toJson_of_missing` — the first field whose name the writer does not use
-/

/-- The number of a JSON value. -/
inductive Json.Number where
  | posInt (n : UInt64)
  | negInt (n : Int64)
  | float (bits : UInt64)
  deriving DecidableEq, Repr

/-- A JSON value. The entries of an object are in the order of their keys. -/
inductive Json where
  | null
  | bool (b : Bool)
  | number (n : Json.Number)
  | string (s : String)
  | array (elems : List Json)
  | object (entries : List (String × Json))

namespace Json

/-- Why a value is not read. -/
inductive DecodeError where
  | invalidType
  | invalidValue
  | invalidLength (length : ℕ)
  | missingField (name : String)
  deriving DecidableEq, Repr

/-- The type of a field. -/
inductive Kind where
  | u32
  | u64
  | text
  deriving DecidableEq, Repr

namespace Kind

/-- The values of a field. -/
def Value : Kind → Type
  | u32 => UInt32
  | u64 => UInt64
  | text => String

/-- The JSON value of a field's value. -/
def encode : (kind : Kind) → kind.Value → Json
  | u32, n => .number (.posInt (UInt32.toUInt64 n))
  | u64, n => .number (.posInt n)
  | text, s => .string s

/-- The field's value of a JSON value. A number of the wrong size is an invalid value, anything
that is no integer an invalid type. -/
def decode : (kind : Kind) → Json → Except DecodeError kind.Value
  | u32, .number (.posInt n) => if n.toNat < 2 ^ 32 then .ok n.toUInt32 else .error .invalidValue
  | u64, .number (.posInt n) => .ok n
  | u32, .number (.negInt _) => .error .invalidValue
  | u64, .number (.negInt _) => .error .invalidValue
  | text, .string s => .ok s
  | _, _ => .error .invalidType

@[simp]
theorem decode_encode : ∀ (kind : Kind) (x : kind.Value), kind.decode (kind.encode x) = .ok x
  | u32, (n : UInt32) => by
    have hlt : n.toUInt64.toNat < 2 ^ 32 := by
      rw [UInt32.toNat_toUInt64]
      exact UInt32.toNat_lt n
    show (if n.toUInt64.toNat < 2 ^ 32 then _ else _) = _
    rw [if_pos hlt, UInt32.toUInt32_toUInt64]
  | u64, _ => rfl
  | text, _ => rfl

/-- What is written as one type is read as the same type. -/
theorem exists_decode_encode {k k' : Kind} (h : k = k') (x : k.Value) :
    ∃ y, k'.decode (k.encode x) = .ok y := by
  subst h
  exact ⟨x, decode_encode k x⟩

end Kind

/-- A field: its name on the wire and its type. -/
structure Field where
  name : String
  kind : Kind
  deriving DecidableEq, Repr

/-- The values of the fields of a struct. -/
def Record : List Field → Type
  | [] => Unit
  | f :: fs => f.kind.Value × Record fs

/-! ### Writing a struct -/

/-- The entries of a struct, one for each field. -/
def Record.entries : {fs : List Field} → Record fs → List (String × Json)
  | [], _ => []
  | f :: _, (x, r) => (f.name, f.kind.encode x) :: Record.entries r

/-- The entries of an object, in the order of their keys. -/
def Record.sortedEntries {fs : List Field} (r : Record fs) : List (String × Json) :=
  r.entries.mergeSort fun a b => decide (a.1 ≤ b.1)

/-- The value of a struct. -/
def Record.toJson {fs : List Field} (r : Record fs) : Json :=
  .object r.sortedEntries

/-! ### Reading a struct -/

/-- What is wrong with an entry: nothing, unless it names a field and is not of its type. -/
def entryError (fs : List Field) (entry : String × Json) : Option DecodeError :=
  match fs.find? (·.name = entry.1) with
  | none => none
  | some f =>
    match f.kind.decode entry.2 with
    | .ok _ => none
    | .error e => some e

/-- The fields, each from the entry of its name. -/
def decodeFields : (fs : List Field) → List (String × Json) → Except DecodeError (Record fs)
  | [], _ => .ok ()
  | f :: fs, entries =>
    match entries.lookup f.name with
    | none => .error (.missingField f.name)
    | some v => do
      let x ← f.kind.decode v
      let r ← decodeFields fs entries
      return (x, r)

/-- The fields, each from the element at its place, the first of them at `i`. -/
def decodeElems (i : ℕ) : (fs : List Field) → List Json → Except DecodeError (Record fs)
  | [], _ => .ok ()
  | _ :: _, [] => .error (.invalidLength i)
  | f :: fs, v :: vs => do
    let x ← f.kind.decode v
    let r ← decodeElems (i + 1) fs vs
    return (x, r)

/-- The struct of a value. -/
def decode (fs : List Field) : Json → Except DecodeError (Record fs)
  | .object entries =>
    match entries.findSome? (entryError fs) with
    | some e => .error e
    | none => decodeFields fs entries
  | .array elems => do
    let r ← decodeElems 0 fs elems
    if elems.length ≤ fs.length then return r else .error (.invalidLength elems.length)
  | _ => .error .invalidType

/-! ### The renaming rule -/

/-- A field name in Pascal case: underscores go, and what follows one is in upper case. -/
def pascalCase : Bool → List Char → List Char
  | _, [] => []
  | capitalize, c :: cs =>
    if c = '_' then pascalCase true cs
    else if capitalize then c.toUpper :: pascalCase false cs
    else c :: pascalCase false cs

/-- `rename_all = "camelCase"` on a field name. -/
def camelCase (name : String) : String :=
  match pascalCase true name.toList with
  | [] => ""
  | c :: cs => String.ofList (c.toLower :: cs)

/-- The fields of a struct under `rename_all = "camelCase"`. -/
def renameCamelCase (fs : List Field) : List Field :=
  fs.map fun f => { f with name := camelCase f.name }

/-! ### What the entries of a struct are -/

variable {fs gs : List Field} {r : Record fs} {entries : List (String × Json)}

theorem Record.keys_entries : ∀ {fs : List Field} (r : Record fs),
    r.entries.map Prod.fst = fs.map Field.name
  | [], _ => rfl
  | f :: _, (_, r) => congrArg (f.name :: ·) (Record.keys_entries r)

theorem Record.exists_of_mem_entries : ∀ {fs : List Field} {r : Record fs} {entry : String × Json},
    entry ∈ r.entries → ∃ f ∈ fs, ∃ x : f.kind.Value, entry = (f.name, f.kind.encode x)
  | f :: fs, (x, r), entry, h => by
    rcases List.mem_cons.mp h with rfl | h
    · exact ⟨f, by simp, x, rfl⟩
    · obtain ⟨g, hg, y, rfl⟩ := Record.exists_of_mem_entries h
      exact ⟨g, List.mem_cons_of_mem _ hg, y, rfl⟩

theorem Record.perm_sortedEntries (r : Record fs) : r.sortedEntries.Perm r.entries :=
  List.mergeSort_perm _ _

theorem Record.mem_sortedEntries {entry : String × Json} :
    entry ∈ r.sortedEntries ↔ entry ∈ r.entries :=
  r.perm_sortedEntries.mem_iff

/-- A key has an entry when a field has its name. -/
theorem Record.lookup_sortedEntries_eq_none_iff {name : String} :
    r.sortedEntries.lookup name = none ↔ name ∉ fs.map Field.name := by
  rw [← r.keys_entries, List.lookup_eq_none_iff]
  constructor
  · intro h hmem
    obtain ⟨entry, hentry, rfl⟩ := List.mem_map.mp hmem
    simpa using h entry (Record.mem_sortedEntries.mpr hentry)
  · intro h entry hentry
    have hne : name ≠ entry.1 := by
      rintro rfl
      exact h (List.mem_map_of_mem (Record.mem_sortedEntries.mp hentry))
    simpa using hne

/-- What a lookup finds is the value of a field of that name. -/
theorem Record.exists_of_lookup_sortedEntries {name : String} {v : Json}
    (h : r.sortedEntries.lookup name = some v) :
    ∃ f ∈ fs, f.name = name ∧ ∃ x : f.kind.Value, v = f.kind.encode x := by
  obtain ⟨front, rest, heq, -⟩ := List.lookup_eq_some_iff.mp h
  have hmem : (name, v) ∈ r.sortedEntries := by simp [heq]
  obtain ⟨f, hf, x, hfx⟩ := Record.exists_of_mem_entries (Record.mem_sortedEntries.mp hmem)
  obtain ⟨rfl, rfl⟩ := Prod.mk.inj hfx
  exact ⟨f, hf, rfl, x, rfl⟩

/-- Where no name is used twice, a key is looked up to its only entry. -/
theorem lookup_eq_some_of_mem {key : String} {v : Json} (hnodup : (entries.map Prod.fst).Nodup)
    (h : (key, v) ∈ entries) : entries.lookup key = some v := by
  induction entries with
  | nil => simp at h
  | cons entry entries ih =>
    obtain ⟨key', v'⟩ := entry
    obtain ⟨hnotMem, hrest⟩ := List.nodup_cons.mp hnodup
    rcases List.mem_cons.mp h with heq | hmem
    · obtain ⟨rfl, rfl⟩ := Prod.mk.inj heq
      simp
    · have hne : key ≠ key' := by
        rintro rfl
        exact hnotMem (List.mem_map.mpr ⟨_, hmem, rfl⟩)
      rw [List.lookup_cons, beq_eq_false_iff_ne.mpr hne]
      exact ih hrest hmem

/-! ### Reading what another struct wrote -/

/-- Fields of one name are of one type. -/
def SameKinds (fs gs : List Field) : Prop :=
  ∀ f ∈ fs, ∀ g ∈ gs, f.name = g.name → f.kind = g.kind

instance (fs gs : List Field) : Decidable (SameKinds fs gs) :=
  inferInstanceAs (Decidable (∀ f ∈ fs, ∀ g ∈ gs, f.name = g.name → f.kind = g.kind))

/-- No entry is of the wrong type. -/
theorem entryError_eq_none (h : SameKinds fs gs) {entry : String × Json}
    (hentry : entry ∈ r.entries) : entryError gs entry = none := by
  obtain ⟨f, hf, x, rfl⟩ := Record.exists_of_mem_entries hentry
  rw [entryError]
  cases hg : gs.find? (·.name = f.name) with
  | none => rfl
  | some g =>
    have hname : g.name = f.name := by simpa using List.find?_some hg
    have hkind : f.kind = g.kind := h f hf g (List.mem_of_find?_eq_some hg) hname.symm
    obtain ⟨y, hy⟩ := Kind.exists_decode_encode hkind x
    simp [hy]

theorem decode_toJson_eq (h : SameKinds fs gs) :
    decode gs r.toJson = decodeFields gs r.sortedEntries := by
  have hnone : r.sortedEntries.findSome? (entryError gs) = none := by
    rw [List.findSome?_eq_none_iff]
    intro entry hentry
    exact entryError_eq_none h (Record.mem_sortedEntries.mp hentry)
  simp [decode, Record.toJson, hnone]

/-- A field the writer has no name for is reported, the first of them. -/
theorem decode_toJson_of_missing (h : SameKinds fs gs) {g : Field}
    (hg : gs.find? (fun g => decide (g.name ∉ fs.map Field.name)) = some g) :
    decode gs r.toJson = .error (.missingField g.name) := by
  rw [decode_toJson_eq h]
  induction gs with
  | nil => simp at hg
  | cons g' gs ih =>
    rw [decodeFields]
    by_cases hmem : g'.name ∈ fs.map Field.name
    · -- the field is read and the missing one is further on
      have hrest : decodeFields gs r.sortedEntries = .error (.missingField g.name) := by
        refine ih (fun f hf g hg => h f hf g (List.mem_cons_of_mem _ hg)) ?_
        rwa [List.find?_cons_of_neg (by simpa using hmem)] at hg
      cases hlook : r.sortedEntries.lookup g'.name with
      | none => exact absurd hmem (Record.lookup_sortedEntries_eq_none_iff.mp hlook)
      | some v =>
        obtain ⟨f, hf, hname, x, rfl⟩ := Record.exists_of_lookup_sortedEntries hlook
        obtain ⟨y, hy⟩ := Kind.exists_decode_encode (h f hf g' List.mem_cons_self hname) x
        simp only [hy, hrest]
        rfl
    · have hlook := (Record.lookup_sortedEntries_eq_none_iff (r := r)).mpr hmem
      rw [List.find?_cons_of_pos (by simpa using hmem)] at hg
      obtain rfl : g' = g := Option.some.inj hg
      simp only [hlook]

/-- The fields are read back one by one from entries that hold them all. -/
theorem decodeFields_eq_ok (hnodup : (entries.map Prod.fst).Nodup) :
    ∀ {fs : List Field} (r : Record fs), (∀ entry ∈ r.entries, entry ∈ entries) →
      decodeFields fs entries = .ok r
  | [], _, _ => rfl
  | f :: fs, (x, r), h => by
    have hlook : entries.lookup f.name = some (f.kind.encode x) :=
      lookup_eq_some_of_mem hnodup (h _ List.mem_cons_self)
    have hrest : decodeFields fs entries = .ok r :=
      decodeFields_eq_ok hnodup r fun entry hentry => h entry (List.mem_cons_of_mem _ hentry)
    simp only [decodeFields, hlook, hrest, Kind.decode_encode]
    rfl

/-- A struct reads back what it wrote. -/
theorem decode_toJson (hnodup : (fs.map Field.name).Nodup) (r : Record fs) :
    decode fs r.toJson = .ok r := by
  have hself : SameKinds fs fs := fun f hf g hg hname =>
    congrArg Field.kind (List.inj_on_of_nodup_map hnodup hf hg hname)
  have hsorted : (r.sortedEntries.map Prod.fst).Nodup := by
    rw [(r.perm_sortedEntries.map Prod.fst).nodup_iff, r.keys_entries]
    exact hnodup
  rw [decode_toJson_eq hself]
  exact decodeFields_eq_ok hsorted r fun entry hentry => Record.mem_sortedEntries.mpr hentry

end Json
