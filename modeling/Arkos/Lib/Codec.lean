import Arkos.Lib.Word
import Mathlib.Data.List.Basic
import Mathlib.Logic.Function.Basic
import Mathlib.Tactic.IntervalCases

/-!
# Byte encodings that can be taken apart again

An encoder is *self-delimiting* when the bytes it writes can be cut off the front of any longer
string in only one way. That is the property a format needs to be unambiguous once its fields are
written one after the other, and unlike plain injectivity it is closed under doing so.

Length prefixes are eight bytes wide, so a list of `2 ^ 64` elements would write the same prefix
as the empty one. `SelfDelimiting` therefore speaks of encodings shorter than `2 ^ 64` bytes only;
every longer one is out of reach of the programs that use this format, and the bound passes to the
parts of an encoding for free.

The second half is the text formats that end up in keys: UTF-8 bytes, lower-case hexadecimal and
decimal numerals, each with its injectivity.

## Main results

* `SelfDelimiting.pair`, `SelfDelimiting.comap`, `selfDelimiting_list`, `selfDelimiting_option`
* `hexEncode_injective`, `hexDecode_hexEncode`, `hexDecode_utf8_eq_some_iff`
* `decimal_injective`, `colon_notMem_decimal`, `colon_notMem_hexEncode`
* `mapM_eq_ok_iff`
-/

namespace Arkos

variable {α β : Type*}

/-- Encodings below `2 ^ 64` bytes can be read off the front of a string in one way only. -/
def SelfDelimiting (enc : α → List UInt8) : Prop :=
  ∀ ⦃x y : α⦄ ⦃r s : List UInt8⦄, (enc x).length < 2 ^ 64 → (enc y).length < 2 ^ 64 →
    enc x ++ r = enc y ++ s → x = y ∧ r = s

theorem SelfDelimiting.eq_of_eq {enc : α → List UInt8} (h : SelfDelimiting enc) {x y : α}
    (hx : (enc x).length < 2 ^ 64) (hxy : enc x = enc y) : x = y :=
  (h (r := []) (s := []) hx (hxy ▸ hx) (by rw [hxy])).1

/-- An injective encoder of fixed width is self-delimiting. -/
theorem selfDelimiting_of_length {enc : α → List UInt8} (k : ℕ) (hk : ∀ x, (enc x).length = k)
    (hinj : Function.Injective enc) : SelfDelimiting enc := by
  intro x y r s _ _ h
  obtain ⟨hxy, hrs⟩ := List.append_inj h (by rw [hk, hk])
  exact ⟨hinj hxy, hrs⟩

/-- Fields written one after the other. -/
theorem SelfDelimiting.pair {ea : α → List UInt8} {eb : β → List UInt8} (ha : SelfDelimiting ea)
    (hb : SelfDelimiting eb) : SelfDelimiting fun p : α × β => ea p.1 ++ eb p.2 := by
  rintro ⟨a, b⟩ ⟨a', b'⟩ r s hx hy h
  simp only [List.length_append, List.append_assoc] at hx hy h
  obtain ⟨rfl, h₁⟩ := ha (by omega) (by omega) h
  obtain ⟨rfl, h₂⟩ := hb (by omega) (by omega) h₁
  exact ⟨rfl, h₂⟩

/-- Encoding a record through an injective view of it. -/
theorem SelfDelimiting.comap {enc : β → List UInt8} (h : SelfDelimiting enc) {f : α → β}
    (hf : Function.Injective f) : SelfDelimiting fun x => enc (f x) := by
  intro x y r s hx hy hxy
  obtain ⟨hfx, hrs⟩ := h hx hy hxy
  exact ⟨hf hfx, hrs⟩

/-! ### Numbers -/

theorem selfDelimiting_u64 : SelfDelimiting fun x : UInt64 => leBytes 8 x.toNat := by
  refine selfDelimiting_of_length 8 (fun x => length_leBytes _ _) fun x y h => ?_
  exact UInt64.toNat_inj.mp (leBytes_inj x.toNat_lt y.toNat_lt h)

theorem selfDelimiting_u32 : SelfDelimiting fun x : UInt32 => leBytes 4 x.toNat := by
  refine selfDelimiting_of_length 4 (fun x => length_leBytes _ _) fun x y h => ?_
  exact UInt32.toNat_inj.mp (leBytes_inj x.toNat_lt y.toNat_lt h)

/-! ### Lists, byte strings and options -/

/-- A list: its length in eight bytes, then its elements. -/
def encList (enc : α → List UInt8) (xs : List α) : List UInt8 :=
  leBytes 8 xs.length ++ xs.flatMap enc

/-- A byte string: its length in eight bytes, then itself. -/
def encBytes (bs : List UInt8) : List UInt8 := leBytes 8 bs.length ++ bs

/-- An optional value: a tag byte, then the value if there is one. -/
def encOption (enc : α → List UInt8) : Option α → List UInt8
  | none => [0]
  | some x => 1 :: enc x

theorem length_encBytes (bs : List UInt8) : (encBytes bs).length = 8 + bs.length := by
  simp [encBytes]

theorem length_encList (enc : α → List UInt8) (xs : List α) :
    (encList enc xs).length = 8 + (xs.map fun x => (enc x).length).sum := by
  simp [encList, List.length_flatMap]

theorem length_le_sum_length {enc : α → List UInt8} (hpos : ∀ x, 0 < (enc x).length)
    (xs : List α) : xs.length ≤ (xs.map fun x => (enc x).length).sum := by
  induction xs with
  | nil => simp
  | cons x xs ih =>
    have := hpos x
    simp only [List.length_cons, List.map_cons, List.sum_cons]
    omega

/-- Two element runs of the same length, read in step. -/
theorem flatMap_append_inj {enc : α → List UInt8} (h : SelfDelimiting enc) :
    ∀ {xs ys : List α} {r s : List UInt8}, xs.length = ys.length →
      (xs.flatMap enc).length < 2 ^ 64 → (ys.flatMap enc).length < 2 ^ 64 →
      xs.flatMap enc ++ r = ys.flatMap enc ++ s → xs = ys ∧ r = s
  | [], [], _, _, _, _, _, h => ⟨rfl, by simpa using h⟩
  | x :: xs, y :: ys, r, s, hlen, hx, hy, he => by
    simp only [List.flatMap_cons, List.length_append, List.append_assoc] at hx hy he
    obtain ⟨rfl, h₁⟩ := h (by omega) (by omega) he
    obtain ⟨rfl, h₂⟩ := flatMap_append_inj h (by simpa using hlen) (by omega) (by omega) h₁
    exact ⟨rfl, h₂⟩

theorem eq_of_leBytes_append {m n : ℕ} {r s : List UInt8} (hm : m < 2 ^ 64) (hn : n < 2 ^ 64)
    (h : leBytes 8 m ++ r = leBytes 8 n ++ s) : m = n ∧ r = s := by
  obtain ⟨hlen, hrest⟩ := List.append_inj h (by simp)
  exact ⟨leBytes_inj (by simpa using hm) (by simpa using hn) hlen, hrest⟩

theorem selfDelimiting_list {enc : α → List UInt8} (h : SelfDelimiting enc)
    (hpos : ∀ x, 0 < (enc x).length) : SelfDelimiting (encList enc) := by
  intro xs ys r s hx hy he
  have hxl := length_le_sum_length hpos xs
  have hyl := length_le_sum_length hpos ys
  rw [length_encList] at hx hy
  simp only [encList, List.append_assoc] at he
  obtain ⟨hlen, he⟩ := eq_of_leBytes_append (by omega) (by omega) he
  exact flatMap_append_inj h hlen (by rw [List.length_flatMap]; omega)
    (by rw [List.length_flatMap]; omega) he

/-- A byte string whose length fits the prefix. -/
theorem encBytes_append_inj {xs ys r s : List UInt8} (hx : xs.length < 2 ^ 64)
    (hy : ys.length < 2 ^ 64) (h : encBytes xs ++ r = encBytes ys ++ s) : xs = ys ∧ r = s := by
  simp only [encBytes, List.append_assoc] at h
  obtain ⟨hlen, hrest⟩ := eq_of_leBytes_append hx hy h
  exact List.append_inj hrest hlen

theorem selfDelimiting_bytes : SelfDelimiting encBytes := by
  intro xs ys r s hx hy he
  rw [length_encBytes] at hx hy
  exact encBytes_append_inj (by omega) (by omega) he

theorem selfDelimiting_option {enc : α → List UInt8} (h : SelfDelimiting enc) :
    SelfDelimiting (encOption enc) := by
  rintro (_ | x) (_ | y) r s hx hy he
  · exact ⟨rfl, by simpa [encOption] using he⟩
  · simp [encOption] at he
  · simp [encOption] at he
  · simp only [encOption, List.length_cons, List.cons_append, List.cons.injEq, true_and] at hx hy he
    obtain ⟨rfl, h₁⟩ := h (by omega) (by omega) he
    exact ⟨rfl, h₁⟩

/-! ### Text as bytes -/

/-- The UTF-8 bytes of a string. -/
def utf8 (s : String) : List UInt8 := s.toByteArray.data.toList

theorem utf8_injective : Function.Injective utf8 := by
  intro s t h
  exact String.toByteArray_inj.mp (ByteArray.ext (Array.toList_inj.mp h))

theorem utf8_ofList (cs : List Char) :
    utf8 (String.ofList cs) = cs.flatMap String.utf8EncodeChar := by
  simp [utf8, List.utf8Encode]

theorem utf8_eq_flatMap (s : String) : utf8 s = s.toList.flatMap String.utf8EncodeChar := by
  rw [← utf8_ofList, String.ofList_toList]

theorem selfDelimiting_utf8 : SelfDelimiting fun s => encBytes (utf8 s) :=
  selfDelimiting_bytes.comap utf8_injective

/-! ### Hexadecimal -/

/-- The lower-case digit of a number below sixteen. -/
def hexDigit (n : ℕ) : Char := if n < 10 then Char.ofNat (48 + n) else Char.ofNat (87 + n)

/-- The two digits of a byte. -/
def hexChars (b : UInt8) : List Char := [hexDigit (b.toNat / 16), hexDigit (b.toNat % 16)]

/-- A byte string in lower-case hexadecimal. -/
def hexEncode (bs : List UInt8) : String := String.ofList (bs.flatMap hexChars)

/-- The value of an ASCII digit, in either case. -/
def hexValue (c : UInt8) : Option ℕ :=
  if 48 ≤ c.toNat ∧ c.toNat ≤ 57 then some (c.toNat - 48)
  else if 97 ≤ c.toNat ∧ c.toNat ≤ 102 then some (c.toNat - 87)
  else if 65 ≤ c.toNat ∧ c.toNat ≤ 70 then some (c.toNat - 55)
  else none

/-- Read a string of ASCII digits two at a time. -/
def hexDecode : List UInt8 → Option (List UInt8)
  | [] => some []
  | [_] => none
  | a :: b :: rest => do
    let hi ← hexValue a
    let lo ← hexValue b
    let bs ← hexDecode rest
    return UInt8.ofNat (hi * 16 + lo) :: bs

theorem utf8EncodeChar_hexDigit {n : ℕ} (h : n < 16) :
    ∃ c, String.utf8EncodeChar (hexDigit n) = [c] ∧ hexValue c = some n := by
  interval_cases n <;> exact ⟨_, rfl, rfl⟩

/-- An ASCII hexadecimal digit, in either case. -/
def IsHexChar (c : Char) : Prop :=
  48 ≤ c.toNat ∧ c.toNat ≤ 57 ∨ 65 ≤ c.toNat ∧ c.toNat ≤ 70 ∨ 97 ≤ c.toNat ∧ c.toNat ≤ 102

theorem utf8EncodeChar_hexChar {c : Char} (h : IsHexChar c) :
    ∃ b n, String.utf8EncodeChar c = [b] ∧ hexValue b = some n ∧ 48 ≤ b.toNat := by
  obtain ⟨n, hn, rfl⟩ : ∃ n, n = c.toNat ∧ c = Char.ofNat n := ⟨_, rfl, (Char.ofNat_toNat c).symm⟩
  rw [IsHexChar, ← hn] at h
  clear hn
  rcases h with ⟨h₁, h₂⟩ | ⟨h₁, h₂⟩ | ⟨h₁, h₂⟩ <;> interval_cases n <;>
    exact ⟨_, _, rfl, rfl, by decide⟩

/-- An even number of digits, in either case, spells half as many bytes. -/
theorem exists_hexDecode_of_hex : ∀ {k : ℕ} {cs : List Char}, cs.length = 2 * k →
    (∀ c ∈ cs, IsHexChar c) →
    ∃ bs, hexDecode (cs.flatMap String.utf8EncodeChar) = some bs ∧ bs.length = k
  | 0, [], _, _ => ⟨[], rfl, rfl⟩
  | k + 1, c :: d :: cs, hlen, h => by
    obtain ⟨hc, hd, hcs⟩ := List.forall_mem_cons.mp h |>.imp_right List.forall_mem_cons.mp
    obtain ⟨b, m, hb, hm, -⟩ := utf8EncodeChar_hexChar hc
    obtain ⟨b', n, hb', hn, -⟩ := utf8EncodeChar_hexChar hd
    have hrest : cs.length = 2 * k := by
      simp only [List.length_cons] at hlen
      omega
    obtain ⟨bs, hbs, hk⟩ := exists_hexDecode_of_hex hrest hcs
    refine ⟨UInt8.ofNat (m * 16 + n) :: bs, ?_, by rw [List.length_cons, hk]⟩
    simp only [List.flatMap_cons, hb, hb', List.cons_append, List.nil_append, hexDecode, hm, hn,
      hbs, Option.bind_eq_bind, Option.bind_some, Option.pure_def]

theorem hexDecode_hexEncode (bs : List UInt8) : hexDecode (utf8 (hexEncode bs)) = some bs := by
  rw [hexEncode, utf8_ofList]
  induction bs with
  | nil => rfl
  | cons b bs ih =>
    have hb := b.toNat_lt
    obtain ⟨c, hc, hcv⟩ := utf8EncodeChar_hexDigit (n := b.toNat / 16) (by omega)
    obtain ⟨d, hd, hdv⟩ := utf8EncodeChar_hexDigit (n := b.toNat % 16) (by omega)
    simp only [List.flatMap_cons, hexChars, hc, hd, List.cons_append, List.nil_append, hexDecode,
      hcv, hdv, ih, Option.bind_eq_bind, Option.bind_some, Option.pure_def, Option.some.injEq,
      List.cons.injEq, and_true]
    rw [Nat.div_add_mod', UInt8.ofNat_toNat]

theorem hexEncode_injective : Function.Injective hexEncode := by
  intro bs cs h
  have h' := congrArg (fun s => hexDecode (utf8 s)) h
  simpa only [hexDecode_hexEncode, Option.some.injEq] using h'

theorem length_utf8_hexEncode (bs : List UInt8) : (utf8 (hexEncode bs)).length = 2 * bs.length := by
  rw [hexEncode, utf8_ofList]
  induction bs with
  | nil => rfl
  | cons b bs ih =>
    have hb := b.toNat_lt
    obtain ⟨c, hc, -⟩ := utf8EncodeChar_hexDigit (n := b.toNat / 16) (by omega)
    obtain ⟨d, hd, -⟩ := utf8EncodeChar_hexDigit (n := b.toNat % 16) (by omega)
    simp only [List.flatMap_cons, hexChars, List.flatMap_append, List.flatMap_nil, hc, hd,
      List.length_append, ih, List.length_cons, List.length_nil]
    omega

/-- What is read as a digit is a character of its own. -/
theorem utf8EncodeChar_of_hexValue {c : Char} {b : UInt8} {bs : List UInt8} {n : ℕ}
    (h : String.utf8EncodeChar c = b :: bs) (hb : hexValue b = some n) :
    bs = [] ∧ b.toNat = c.toNat ∧ n < 16 := by
  have hdigit : b.toNat < 128 ∧ n < 16 := by
    unfold hexValue at hb
    grind
  have hval : c.val.toNat = c.toNat := rfl
  unfold String.utf8EncodeChar at h
  dsimp only at h
  split at h
  · next hle =>
    obtain ⟨rfl, rfl⟩ := List.cons.inj h
    rw [UInt8.toNat_ofNat'] at hdigit ⊢
    exact ⟨rfl, by omega, hdigit.2⟩
  · -- the first byte of a longer encoding is not ASCII
    exfalso
    repeat' split at h
    all_goals
      obtain ⟨rfl, -⟩ := List.cons.inj h
      rw [UInt8.toNat_ofNat'] at hdigit
      omega

theorem toNat_toLower (c : Char) :
    c.toLower.toNat = if 65 ≤ c.toNat ∧ c.toNat ≤ 90 then c.toNat + 32 else c.toNat := by
  unfold Char.toLower
  have h65 : 'A'.val.toNat = 65 := rfl
  have h90 : 'Z'.val.toNat = 90 := rfl
  have hval : c.val.toNat = c.toNat := rfl
  simp only [ge_iff_le, UInt32.le_iff_toNat_le, h65, h90, hval]
  split
  · next h =>
    have h32 : ('a'.val - 'A'.val).toNat = 32 := rfl
    rw [Char.toNat]
    show (c.val + ('a'.val - 'A'.val)).toNat = _
    rw [UInt32.toNat_add, h32, hval, Nat.mod_eq_of_lt (by omega)]
  · rfl

theorem toNat_hexDigit {n : ℕ} (hn : n < 16) :
    (hexDigit n).toNat = if n < 10 then 48 + n else 87 + n := by
  interval_cases n <;> rfl

/-- A character is read as `n` when its lower-case form is the digit of `n`. -/
theorem toLower_eq_hexDigit_iff {c : Char} {n : ℕ} (hn : n < 16) :
    c.toLower = hexDigit n ↔ ∃ b, String.utf8EncodeChar c = [b] ∧ hexValue b = some n := by
  rw [← Char.toNat_inj, toNat_toLower, toNat_hexDigit hn]
  constructor
  · intro h
    have hascii : c.val.toNat ≤ 0x7f := by
      show c.toNat ≤ 0x7f
      split at h <;> split at h <;> omega
    refine ⟨UInt8.ofNat c.val.toNat, ?_, ?_⟩
    · unfold String.utf8EncodeChar
      exact if_pos hascii
    · have hbyte : (UInt8.ofNat c.val.toNat).toNat = c.toNat := by
        rw [UInt8.toNat_ofNat']
        exact Nat.mod_eq_of_lt (by omega)
      unfold hexValue
      rw [hbyte]
      grind
  · rintro ⟨b, hb, hval⟩
    obtain ⟨-, hbc, -⟩ := utf8EncodeChar_of_hexValue hb hval
    unfold hexValue at hval
    rw [hbc] at hval
    grind

theorem hexDecode_eq_nil_iff {l : List UInt8} : hexDecode l = some [] ↔ l = [] := by
  rcases l with _ | ⟨x, _ | ⟨y, l⟩⟩
  · exact iff_of_true rfl rfl
  · exact iff_of_false (by simp [hexDecode]) (List.cons_ne_nil _ _)
  · exact iff_of_false (by simp [hexDecode, Option.bind_eq_some_iff]) (List.cons_ne_nil _ _)

theorem hexDecode_eq_cons_iff {l : List UInt8} {b : UInt8} {bs : List UInt8} :
    hexDecode l = some (b :: bs) ↔ ∃ x y rest hi lo, l = x :: y :: rest ∧ hexValue x = some hi ∧
      hexValue y = some lo ∧ hexDecode rest = some bs ∧ UInt8.ofNat (hi * 16 + lo) = b := by
  rcases l with _ | ⟨x, _ | ⟨y, l⟩⟩
  · simp [hexDecode]
  · simp [hexDecode]
  · simp only [hexDecode, Option.bind_eq_bind, Option.bind_eq_some_iff, Option.pure_def,
      Option.some.injEq, List.cons.injEq]
    constructor
    · rintro ⟨hi, hhi, lo, hlo, bs', hbs, hb, rfl⟩
      exact ⟨x, y, l, hi, lo, ⟨rfl, rfl, rfl⟩, hhi, hlo, hbs, hb⟩
    · rintro ⟨_, _, _, hi, lo, ⟨rfl, rfl, rfl⟩, hhi, hlo, hbs, hb⟩
      exact ⟨hi, hhi, lo, hlo, bs, hbs, hb, rfl⟩

/-- A digit at the front of a text is its first character. -/
theorem exists_char_of_hexValue {cs : List Char} {x : UInt8} {l : List UInt8} {n : ℕ}
    (h : cs.flatMap String.utf8EncodeChar = x :: l) (hx : hexValue x = some n) :
    ∃ c cs', cs = c :: cs' ∧ c.toLower = hexDigit n ∧ n < 16 ∧
      cs'.flatMap String.utf8EncodeChar = l := by
  cases cs with
  | nil => cases h
  | cons c cs =>
    rw [List.flatMap_cons] at h
    obtain ⟨b, bs, hc⟩ := List.exists_cons_of_ne_nil (String.utf8EncodeChar_ne_nil (c := c))
    rw [hc, List.cons_append] at h
    obtain ⟨rfl, hl⟩ := List.cons.inj h
    obtain ⟨rfl, -, hn⟩ := utf8EncodeChar_of_hexValue hc hx
    exact ⟨c, cs, rfl, (toLower_eq_hexDigit_iff hn).mpr ⟨b, hc, hx⟩, hn, hl⟩

/-- **Reading digits of either case** undoes writing them, but for their case. -/
theorem hexDecode_eq_some_iff {cs : List Char} {bs : List UInt8} :
    hexDecode (cs.flatMap String.utf8EncodeChar) = some bs ↔
      cs.map Char.toLower = bs.flatMap hexChars := by
  induction bs generalizing cs with
  | nil =>
    rw [hexDecode_eq_nil_iff, List.flatMap_nil, List.map_eq_nil_iff, List.flatMap_eq_nil_iff,
      List.eq_nil_iff_forall_not_mem]
    exact forall₂_congr fun c _ => iff_of_false String.utf8EncodeChar_ne_nil id
  | cons b bs ih =>
    rw [hexDecode_eq_cons_iff, List.flatMap_cons, hexChars]
    constructor
    · rintro ⟨x, y, rest, hi, lo, hbytes, hx, hy, hrest, rfl⟩
      obtain ⟨c, cs, rfl, hc, hhi, hbytes⟩ := exists_char_of_hexValue hbytes hx
      obtain ⟨d, cs, rfl, hd, hlo, rfl⟩ := exists_char_of_hexValue hbytes hy
      have hbyte : (UInt8.ofNat (hi * 16 + lo)).toNat = hi * 16 + lo := by
        rw [UInt8.toNat_ofNat']
        exact Nat.mod_eq_of_lt (by omega)
      have hdiv : (hi * 16 + lo) / 16 = hi := by omega
      have hmod : (hi * 16 + lo) % 16 = lo := by omega
      rw [hbyte, hdiv, hmod, List.map_cons, List.map_cons, hc, hd, ih.mp hrest]
      rfl
    · intro h
      have hb := b.toNat_lt
      obtain ⟨c, cs, rfl, hc, h⟩ := List.map_eq_cons_iff.mp h
      obtain ⟨d, cs, rfl, hd, hrest⟩ := List.map_eq_cons_iff.mp h
      obtain ⟨x, hx, hxv⟩ := (toLower_eq_hexDigit_iff (by omega)).mp hc
      obtain ⟨y, hy, hyv⟩ := (toLower_eq_hexDigit_iff (by omega)).mp hd
      refine ⟨x, y, cs.flatMap String.utf8EncodeChar, _, _, ?_, hxv, hyv, ih.mpr hrest, ?_⟩
      · rw [List.flatMap_cons, List.flatMap_cons, hx, hy]
        rfl
      · rw [Nat.div_add_mod', UInt8.ofNat_toNat]

/-- **A string decodes exactly when it is an encoding, but for its case.** -/
theorem hexDecode_utf8_eq_some_iff {s : String} {bs : List UInt8} :
    hexDecode (utf8 s) = some bs ↔ s.toLower = hexEncode bs := by
  have hlower : s.toLower.toList = s.toList.map Char.toLower := String.toList_map
  rw [utf8_eq_flatMap, hexDecode_eq_some_iff, ← String.toList_inj, hexEncode, String.toList_ofList,
    hlower]

/-- Encodings are in lower case. -/
theorem toLower_hexEncode (bs : List UInt8) : (hexEncode bs).toLower = hexEncode bs :=
  hexDecode_utf8_eq_some_iff.mp (hexDecode_hexEncode bs)

/-! ### Decimal -/

theorem decimal_injective : Function.Injective (toString : ℕ → String) := by
  intro m n h
  have h' : Nat.toDigits 10 m = Nat.toDigits 10 n := by
    have := congrArg String.toList h
    rwa [Nat.toString_eq_ofList_toDigits, Nat.toString_eq_ofList_toDigits, String.toList_ofList,
      String.toList_ofList] at this
  rw [← Nat.ofDigitChars_ten_toDigits (n := m), h', Nat.ofDigitChars_ten_toDigits]

theorem colon_notMem_decimal (n : ℕ) : ':' ∉ (toString n).toList := by
  rw [Nat.toString_eq_ofList_toDigits, String.toList_ofList]
  intro h
  exact absurd (Nat.isDigit_of_mem_toDigits (by decide) (by decide) h) (by decide)

theorem colon_notMem_hexEncode (bs : List UInt8) : ':' ∉ (hexEncode bs).toList := by
  rw [hexEncode, String.toList_ofList, List.mem_flatMap]
  rintro ⟨b, -, hb⟩
  have hdigit : ∀ n < 16, ':' ≠ hexDigit n := by decide
  have hlt := b.toNat_lt
  rw [hexChars, List.mem_cons, List.mem_singleton] at hb
  rcases hb with hb | hb
  · exact hdigit _ (by omega) hb
  · exact hdigit _ (by omega) hb

/-- Reading digits never makes a number smaller. -/
theorem le_ofDigitChars (cs : List Char) (acc : ℕ) : acc ≤ Nat.ofDigitChars 10 cs acc := by
  rw [Nat.ofDigitChars_eq_ofDigitChars_zero]
  have hpow : 0 < 10 ^ cs.length := Nat.pow_pos (by decide)
  exact (Nat.le_mul_of_pos_left acc hpow).trans (Nat.le_add_right _ _)

/-- A separator that the right-hand part cannot contain splits a list in one way. -/
theorem append_cons_inj_of_notMem {x : α} {as bs cs ds : List α} (hb : x ∉ bs) (hd : x ∉ ds)
    (h : as ++ x :: bs = cs ++ x :: ds) : as = cs ∧ bs = ds := by
  rcases List.append_eq_append_iff.mp h with ⟨e, hc, hx⟩ | ⟨e, ha, hx⟩
  · rcases e with _ | ⟨y, e⟩
    · simp only [List.append_nil, List.nil_append, List.cons.injEq, true_and] at hc hx
      exact ⟨hc.symm, hx⟩
    · simp only [List.cons_append, List.cons.injEq] at hx
      exact absurd (hx.2 ▸ List.mem_append_right _ List.mem_cons_self) hb
  · rcases e with _ | ⟨y, e⟩
    · simp only [List.append_nil, List.nil_append, List.cons.injEq, true_and] at ha hx
      exact ⟨ha, hx.symm⟩
    · simp only [List.cons_append, List.cons.injEq] at hx
      exact absurd (hx.2 ▸ List.mem_append_right _ List.mem_cons_self) hd

/-- A map that is injective between two lists tells them apart. -/
theorem eq_of_map_eq {f : α → β} : ∀ {l l' : List α},
    (∀ a ∈ l, ∀ a' ∈ l', f a = f a' → a = a') → l.map f = l'.map f → l = l'
  | [], [], _, _ => rfl
  | [], _ :: _, _, h => by simp at h
  | _ :: _, [], _, h => by simp at h
  | a :: l, a' :: l', hf, h => by
    rw [List.map_cons, List.map_cons, List.cons.injEq] at h
    have hhead := hf a List.mem_cons_self a' List.mem_cons_self h.1
    have htail := eq_of_map_eq (fun x hx y hy => hf x (List.mem_cons_of_mem _ hx) y
      (List.mem_cons_of_mem _ hy)) h.2
    rw [hhead, htail]

/-- A fallible map succeeds when it does on every entry. -/
theorem mapM_eq_ok_iff {ε : Type*} {f : α → Except ε β} {xs : List α} {ys : List β} :
    xs.mapM f = .ok ys ↔ List.Forall₂ (fun x y => f x = .ok y) xs ys := by
  induction xs generalizing ys with
  | nil =>
    rw [List.mapM_nil, List.forall₂_nil_left_iff]
    exact ⟨fun h => (Except.ok.inj h).symm, fun h => h ▸ rfl⟩
  | cons x xs ih =>
    rw [List.mapM_cons, List.forall₂_cons_left_iff]
    constructor
    · intro h
      cases hx : f x with
      | error e => rw [hx] at h; cases h
      | ok y =>
        cases hrest : xs.mapM f with
        | error e => rw [hx, hrest] at h; cases h
        | ok zs =>
          rw [hx, hrest] at h
          cases h
          exact ⟨y, zs, rfl, ih.mp hrest, rfl⟩
    · rintro ⟨y, zs, hx, hrest, rfl⟩
      rw [hx, ih.mpr hrest]
      rfl

end Arkos
