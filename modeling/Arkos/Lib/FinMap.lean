import Mathlib.Data.Finmap
import Mathlib.Algebra.BigOperators.Group.Multiset.Basic
import Mathlib.Data.Finset.Card
import Mathlib.Data.Multiset.Bind
import Mathlib.Algebra.Order.BigOperators.Group.Multiset
import Mathlib.Algebra.Order.Ring.Nat

/-!
# Finite maps: reading after an update, filtering, and adding up values

Mathlib's `Finmap` is the meaning of a hash table whose iteration order is never observed. What
it does not have, and every user of a table needs, is one equation for reading any key after an
update (Mathlib splits it in two), a filter, and the sum of a weight over the values.

`total` is stated with inequalities where an entry may be overwritten: an insertion at a key that
is already present loses the old value, so the sum grows by at most the new one.

## Main results

* `Finmap.lookup_insert_eq`, `Finmap.lookup_erase_eq`, `Finmap.lookup_retain`
* `Finmap.total_erase_add`, `Finmap.total_insert_le`
* `Finmap.Renamed.insertAll`, `Finmap.Renamed.eraseAll` — updates of a table under other names
* `Finmap.mem_members`, `Finmap.nodup_members` — tables of sets
* `Finmap.lookup_insertAll`, `Finmap.lookup_insertAll_empty`, `Finmap.lookup_eraseAll` — whole lists
  of updates
-/

namespace Finmap

variable {K V : Type*} [DecidableEq K]

/-! ### Reading after an update -/

theorem lookup_insert_eq (m : Finmap fun _ : K => V) (k k' : K) (v : V) :
    (m.insert k v).lookup k' = if k' = k then some v else m.lookup k' := by
  split
  · next h => rw [h, lookup_insert]
  · next h => rw [lookup_insert_of_ne _ h]

theorem lookup_erase_eq (m : Finmap fun _ : K => V) (k k' : K) :
    (m.erase k).lookup k' = if k' = k then none else m.lookup k' := by
  split
  · next h => rw [h, lookup_erase]
  · next h => rw [lookup_erase_ne h]

theorem insert_eq_self {m : Finmap fun _ : K => V} {k : K} {v : V} (h : m.lookup k = some v) :
    m.insert k v = m := by
  refine ext_lookup fun k' => ?_
  rw [lookup_insert_eq]
  split
  · next hk => rw [hk, h]
  · rfl

theorem insert_erase_self {m : Finmap fun _ : K => V} {k : K} {v : V} (h : m.lookup k = some v) :
    (m.erase k).insert k v = m := by
  refine ext_lookup fun k' => ?_
  rw [lookup_insert_eq, lookup_erase_eq]
  split
  · next hk => rw [hk, h]
  · rfl

theorem mem_of_lookup {m : Finmap fun _ : K => V} {k : K} {v : V} (h : m.lookup k = some v) :
    k ∈ m :=
  mem_iff.mpr ⟨v, h⟩

theorem keys_insert (m : Finmap fun _ : K => V) (k : K) (v : V) :
    (m.insert k v).keys = Insert.insert k m.keys := by
  ext k'
  rw [mem_keys, mem_insert, Finset.mem_insert, mem_keys]

/-! ### Filtering -/

/-- Keep the entries that satisfy `p`. -/
def retain (p : K → V → Bool) (m : Finmap fun _ : K => V) : Finmap fun _ : K => V :=
  keysLookupEquiv.symm
    ⟨(m.keys.filter fun k => (m.lookup k).any (p k), fun k => (m.lookup k).filter (p k)), by
      intro k
      simp only [Finset.mem_filter, mem_keys, ← lookup_isSome]
      cases m.lookup k with
      | none => simp
      | some v => simp⟩

theorem lookup_retain (p : K → V → Bool) (m : Finmap fun _ : K => V) (k : K) :
    (m.retain p).lookup k = (m.lookup k).filter (p k) := by
  simp [retain]

theorem lookup_retain_eq_some {p : K → V → Bool} {m : Finmap fun _ : K => V} {k : K} {v : V} :
    (m.retain p).lookup k = some v ↔ m.lookup k = some v ∧ p k v = true := by
  rw [lookup_retain, Option.filter_eq_some_iff]

theorem mem_retain {p : K → V → Bool} {m : Finmap fun _ : K => V} {k : K} :
    k ∈ m.retain p ↔ ∃ v, m.lookup k = some v ∧ p k v = true := by
  rw [mem_iff]
  exact exists_congr fun v => lookup_retain_eq_some

/-! ### Lists of updates -/

/-- Insert the entries of a list, in order. -/
def insertAll (m : Finmap fun _ : K => V) (es : List (K × V)) : Finmap fun _ : K => V :=
  es.foldl (fun m e => m.insert e.1 e.2) m

/-- Erase the keys of a list, in order. -/
def eraseAll (m : Finmap fun _ : K => V) (ks : List K) : Finmap fun _ : K => V :=
  ks.foldl (fun m k => m.erase k) m

@[simp] theorem insertAll_nil (m : Finmap fun _ : K => V) : m.insertAll [] = m := rfl

@[simp] theorem insertAll_cons (m : Finmap fun _ : K => V) (e : K × V) (es : List (K × V)) :
    m.insertAll (e :: es) = (m.insert e.1 e.2).insertAll es := rfl

@[simp] theorem eraseAll_nil (m : Finmap fun _ : K => V) : m.eraseAll [] = m := rfl

@[simp] theorem eraseAll_cons (m : Finmap fun _ : K => V) (k : K) (ks : List K) :
    m.eraseAll (k :: ks) = (m.erase k).eraseAll ks := rfl

theorem lookup_eraseAll (m : Finmap fun _ : K => V) (ks : List K) (k : K) :
    (m.eraseAll ks).lookup k = if k ∈ ks then none else m.lookup k := by
  induction ks generalizing m with
  | nil => simp
  | cons k' ks ih =>
    rw [eraseAll_cons, ih, lookup_erase_eq]
    by_cases hk : k ∈ ks <;> by_cases hk' : k = k' <;> simp [hk, hk']

/-- A key read after a list of insertions: the last entry for it, or the old value. -/
theorem lookup_insertAll (m : Finmap fun _ : K => V) (es : List (K × V)) (k : K) :
    (m.insertAll es).lookup k =
      (((es.reverse.find? fun e => e.1 = k).map Prod.snd).or (m.lookup k)) := by
  induction es generalizing m with
  | nil => simp
  | cons e es ih =>
    rw [insertAll_cons, ih, lookup_insert_eq, List.reverse_cons, List.find?_append]
    cases hf : es.reverse.find? fun e => e.1 = k with
    | some x => simp
    | none =>
      by_cases hk : k = e.1
      · simp [hk]
      · simp [hk, Ne.symm hk]

theorem lookup_insertAll_cases {m : Finmap fun _ : K => V} {es : List (K × V)} {k : K} {v : V}
    (h : (m.insertAll es).lookup k = some v) : (k, v) ∈ es ∨ m.lookup k = some v := by
  rw [lookup_insertAll] at h
  cases hf : es.reverse.find? fun e => e.1 = k with
  | none => exact Or.inr (by simpa [hf] using h)
  | some e =>
    obtain rfl : e.2 = v := by simpa [hf] using h
    have hmem : e ∈ es := by simpa using List.mem_of_find?_eq_some hf
    have hk : e.1 = k := by simpa using List.find?_some hf
    exact Or.inl (hk ▸ hmem)

theorem mem_insertAll {m : Finmap fun _ : K => V} {es : List (K × V)} {k : K} :
    k ∈ m.insertAll es ↔ k ∈ es.map Prod.fst ∨ k ∈ m := by
  induction es generalizing m with
  | nil => simp
  | cons e es ih =>
    rw [insertAll_cons, ih, mem_insert, List.map_cons, List.mem_cons]
    tauto

/-- A table built from entries with distinct keys holds exactly these entries. -/
theorem lookup_insertAll_empty {es : List (K × V)} (hes : (es.map Prod.fst).Nodup) {k : K} {v : V} :
    ((∅ : Finmap fun _ : K => V).insertAll es).lookup k = some v ↔ (k, v) ∈ es := by
  constructor
  · intro h
    rcases lookup_insertAll_cases h with hmem | hnone
    · exact hmem
    · rw [lookup_empty] at hnone
      cases hnone
  · intro h
    have hk : k ∈ (∅ : Finmap fun _ : K => V).insertAll es :=
      mem_insertAll.mpr (Or.inl (List.mem_map_of_mem h))
    obtain ⟨v', hv'⟩ := mem_iff.mp hk
    rcases lookup_insertAll_cases hv' with hmem | hnone
    · have heq := List.inj_on_of_nodup_map hes h hmem rfl
      rw [hv', (Prod.mk.inj heq).2]
    · rw [lookup_empty] at hnone
      cases hnone

/-! ### Tables of sets -/

section

omit [DecidableEq K]

variable {A : Type*}

/-- The members of all sets in a table, as often as they are there. -/
def members (m : Finmap fun _ : K => Finset A) : Multiset A := m.entries.bind fun e => e.2.val

theorem card_members (m : Finmap fun _ : K => Finset A) :
    m.members.card = (m.entries.map fun e => e.2.card).sum :=
  Multiset.card_bind ..

end

section

variable {A : Type*} {m : Finmap fun _ : K => Finset A} {a : A}

theorem mem_members : a ∈ m.members ↔ ∃ k s, m.lookup k = some s ∧ a ∈ s := by
  rw [members, Multiset.mem_bind]
  constructor
  · rintro ⟨⟨k, s⟩, hentry, ha⟩
    exact ⟨k, s, mem_lookup_iff.mpr hentry, ha⟩
  · rintro ⟨k, s, hlook, ha⟩
    exact ⟨⟨k, s⟩, mem_lookup_iff.mp hlook, ha⟩

/-- Where a member tells the key of its set, nothing is there twice. -/
theorem nodup_members (key : A → K) (h : ∀ k s, m.lookup k = some s → ∀ a ∈ s, key a = k) :
    m.members.Nodup := by
  refine Multiset.nodup_bind.mpr ⟨fun e _ => e.2.nodup, ?_⟩
  refine Multiset.Nodup.pairwise ?_ m.nodup_entries
  rintro ⟨k, s⟩ hs ⟨k', s'⟩ hs' hne
  refine Multiset.disjoint_left.mpr fun {a} ha ha' => hne ?_
  have hk := h k s (mem_lookup_iff.mpr hs) a ha
  have hk' := h k' s' (mem_lookup_iff.mpr hs') a ha'
  obtain rfl : k = k' := hk.symm.trans hk'
  have hsame : some s = some s' :=
    (mem_lookup_iff.mpr hs).symm.trans (mem_lookup_iff.mpr hs')
  rw [Option.some.inj hsame]

end

/-! ### Adding up values -/

/-- The sum of a weight over the values of a table. -/
def total (f : V → ℕ) (m : Finmap fun _ : K => V) : ℕ := (m.entries.map fun e => f e.2).sum

omit [DecidableEq K] in
@[simp] theorem total_empty (f : V → ℕ) : total f (∅ : Finmap fun _ : K => V) = 0 := rfl

theorem total_insert_of_notMem (f : V → ℕ) {m : Finmap fun _ : K => V} {k : K} (h : k ∉ m)
    (v : V) : total f (m.insert k v) = f v + total f m := by
  rw [total, total, entries_insert_of_notMem h, Multiset.map_cons, Multiset.sum_cons]

theorem total_erase_add (f : V → ℕ) {m : Finmap fun _ : K => V} {k : K} {v : V}
    (h : m.lookup k = some v) : total f (m.erase k) + f v = total f m := by
  have hins := total_insert_of_notMem f (m := m.erase k) notMem_erase_self v
  rw [insert_erase_self h] at hins
  omega

/-- One entry weighs at most the whole table. -/
theorem le_total_of_lookup (f : V → ℕ) {m : Finmap fun _ : K => V} {k : K} {v : V}
    (h : m.lookup k = some v) : f v ≤ total f m := by
  have := total_erase_add f h
  omega

theorem insert_erase (m : Finmap fun _ : K => V) (k : K) (v : V) :
    (m.erase k).insert k v = m.insert k v := by
  refine ext_lookup fun k' => ?_
  rw [lookup_insert_eq, lookup_insert_eq, lookup_erase_eq]
  split <;> rfl

theorem total_erase_le (f : V → ℕ) (m : Finmap fun _ : K => V) (k : K) :
    total f (m.erase k) ≤ total f m := by
  cases h : m.lookup k with
  | some v => have := total_erase_add f h; omega
  | none =>
    have herase : m.erase k = m := ext_lookup fun k' => by
      rw [lookup_erase_eq]
      split
      · next hk => rw [hk, h]
      · rfl
    rw [herase]

/-- An insertion adds at most the new value: it may replace an old one. -/
theorem total_insert_le (f : V → ℕ) (m : Finmap fun _ : K => V) (k : K) (v : V) :
    total f (m.insert k v) ≤ total f m + f v := by
  rw [← insert_erase, total_insert_of_notMem f notMem_erase_self]
  have := total_erase_le f m k
  omega

theorem total_insertAll_le (f : V → ℕ) (m : Finmap fun _ : K => V) (es : List (K × V)) :
    total f (m.insertAll es) ≤ total f m + (es.map fun e => f e.2).sum := by
  induction es generalizing m with
  | nil => simp
  | cons e es ih =>
    have h₁ := ih (m.insert e.1 e.2)
    have h₂ := total_insert_le f m e.1 e.2
    rw [insertAll_cons, List.map_cons, List.sum_cons]
    omega

/-- Erasing distinct present keys removes exactly what they held. -/
theorem total_eraseAll_add (f : V → ℕ) {m : Finmap fun _ : K => V} {ks : List K} (hks : ks.Nodup)
    (vs : K → V) (h : ∀ k ∈ ks, m.lookup k = some (vs k)) :
    total f (m.eraseAll ks) + (ks.map fun k => f (vs k)).sum = total f m := by
  induction ks generalizing m with
  | nil => simp
  | cons k ks ih =>
    obtain ⟨hk, hks⟩ := List.nodup_cons.mp hks
    have hrest := ih (m := m.erase k) hks fun k' hk' => by
      rw [lookup_erase_ne (ne_of_mem_of_not_mem hk' hk)]
      exact h k' (List.mem_cons_of_mem _ hk')
    have hfirst := total_erase_add f (h k List.mem_cons_self)
    rw [eraseAll_cons, List.map_cons, List.sum_cons]
    omega

omit [DecidableEq K] in
/-- A part of the table weighs at most the whole. -/
theorem total_filter_le (f : V → ℕ) (p : V → Prop) [DecidablePred p] (m : Finmap fun _ : K => V) :
    total (fun v => if p v then f v else 0) m ≤ total f m := by
  unfold total
  refine Multiset.sum_map_le_sum_map _ _ fun e _ => ?_
  dsimp only
  split
  · exact le_rfl
  · exact Nat.zero_le _

/-! ### Keys under another name -/

variable {K' : Type*} [DecidableEq K'] {f : K → K'} {m : Finmap fun _ : K => V}
  {m' : Finmap fun _ : K' => V}

/-- `m'` holds under `f k` what `m` holds under `k`. -/
def Renamed (f : K → K') (m : Finmap fun _ : K => V) (m' : Finmap fun _ : K' => V) : Prop :=
  ∀ k, m'.lookup (f k) = m.lookup k

theorem renamed_empty : Renamed f (∅ : Finmap fun _ : K => V) ∅ := fun _ => by simp

theorem Renamed.insert (h : Renamed f m m') (hf : Function.Injective f) (k : K) (v : V) :
    Renamed f (m.insert k v) (m'.insert (f k) v) := by
  intro j
  rw [lookup_insert_eq, lookup_insert_eq, h j]
  simp only [hf.eq_iff]

theorem Renamed.erase (h : Renamed f m m') (hf : Function.Injective f) (k : K) :
    Renamed f (m.erase k) (m'.erase (f k)) := by
  intro j
  rw [lookup_erase_eq, lookup_erase_eq, h j]
  simp only [hf.eq_iff]

theorem Renamed.insertAll (h : Renamed f m m') (hf : Function.Injective f) (es : List (K × V)) :
    Renamed f (m.insertAll es) (m'.insertAll (es.map fun e => (f e.1, e.2))) := by
  induction es generalizing m m' with
  | nil => exact h
  | cons e es ih => exact ih (h.insert hf e.1 e.2)

theorem Renamed.eraseAll (h : Renamed f m m') (hf : Function.Injective f) (ks : List K) :
    Renamed f (m.eraseAll ks) (m'.eraseAll (ks.map f)) := by
  induction ks generalizing m m' with
  | nil => exact h
  | cons k ks ih => exact ih (h.erase hf k)

end Finmap
