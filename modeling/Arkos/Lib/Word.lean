import Mathlib.Algebra.BigOperators.Group.List.Basic
import Mathlib.Algebra.Order.Group.Nat
import Mathlib.Tactic.Ring

/-!
# Fixed-width words, kept as natural numbers

Sums of machine words are computed in `ℕ`, with the width written where the program checks it.
`checkedAdd w` and `saturatingAdd w` are the two ways a `w`-bit sum can refuse to wrap, and
`checkedSum w` is the first of them iterated over a list from zero.

The second half is the byte layout of a number: `leBytes k n` is its `k` low bytes, least
significant first, and `beBytes k n` the same bytes the other way round. Both are total, so a
number too large for its field is cut, and the recovery lemmas say what survives the cut.

## Main results

* `checkedSum_eq_some_iff` — a checked sum that fits is the exact sum
* `ofLeBytes_leBytes`, `ofBeBytes_beBytes` — reading back what was laid out
* `leBytes_inj` — equal layouts of numbers that fit are layouts of equal numbers
-/

namespace Arkos

/-! ### Sums that do not wrap -/

/-- The sum of two words if it is below `2 ^ w`. -/
def checkedAdd (w a b : ℕ) : Option ℕ := if a + b < 2 ^ w then some (a + b) else none

/-- The sum of two words, held at the largest word when it does not fit. -/
def saturatingAdd (w a b : ℕ) : ℕ := min (a + b) (2 ^ w - 1)

/-- The sum of a list of words, given up as soon as one addition does not fit. -/
def checkedSum (w : ℕ) (xs : List ℕ) : Option ℕ := xs.foldlM (checkedAdd w) 0

theorem checkedAdd_eq_some_iff {w a b t : ℕ} :
    checkedAdd w a b = some t ↔ a + b = t ∧ t < 2 ^ w := by
  unfold checkedAdd
  split <;> simp <;> omega

theorem checkedAdd_of_lt {w a b : ℕ} (h : a + b < 2 ^ w) : checkedAdd w a b = some (a + b) :=
  if_pos h

theorem foldlM_checkedAdd_eq_some_iff {w : ℕ} (xs : List ℕ) {a t : ℕ} (ha : a < 2 ^ w) :
    xs.foldlM (checkedAdd w) a = some t ↔ a + xs.sum = t ∧ t < 2 ^ w := by
  induction xs generalizing a with
  | nil => simp; omega
  | cons x xs ih =>
    rw [List.foldlM_cons, Option.bind_eq_bind, Option.bind_eq_some_iff, List.sum_cons]
    constructor
    · rintro ⟨s, hs, ht⟩
      obtain ⟨rfl, hs⟩ := checkedAdd_eq_some_iff.mp hs
      obtain ⟨rfl, ht⟩ := (ih hs).mp ht
      omega
    · rintro ⟨rfl, ht⟩
      have hs : a + x < 2 ^ w := by omega
      exact ⟨a + x, checkedAdd_of_lt hs, (ih hs).mpr ⟨by omega, ht⟩⟩

/-- **A checked sum is the exact sum.** -/
theorem checkedSum_eq_some_iff {w : ℕ} {xs : List ℕ} {t : ℕ} :
    checkedSum w xs = some t ↔ xs.sum = t ∧ t < 2 ^ w := by
  rw [checkedSum, foldlM_checkedAdd_eq_some_iff xs (Nat.two_pow_pos w), Nat.zero_add]

theorem saturatingAdd_of_lt {w a b : ℕ} (h : a + b < 2 ^ w) : saturatingAdd w a b = a + b := by
  unfold saturatingAdd; omega

theorem saturatingAdd_le {w a b : ℕ} : saturatingAdd w a b ≤ a + b := by
  unfold saturatingAdd; omega

theorem saturatingAdd_lt {w a b : ℕ} : saturatingAdd w a b < 2 ^ w := by
  have := Nat.two_pow_pos w
  unfold saturatingAdd; omega

theorem le_saturatingAdd {w a b : ℕ} (h : a < 2 ^ w) : a ≤ saturatingAdd w a b := by
  unfold saturatingAdd; omega

/-- Saturating along the way and saturating once at the end are the same. -/
theorem foldl_saturatingAdd {w : ℕ} (xs : List ℕ) {a : ℕ} (h : a < 2 ^ w) :
    xs.foldl (saturatingAdd w) a = saturatingAdd w a xs.sum := by
  induction xs generalizing a with
  | nil => rw [List.foldl_nil, List.sum_nil, saturatingAdd_of_lt h, Nat.add_zero]
  | cons x xs ih =>
    rw [List.foldl_cons, ih saturatingAdd_lt, List.sum_cons]
    unfold saturatingAdd
    omega

/-! ### Byte layouts -/

/-- The `k` low bytes of `n`, least significant first. -/
def leBytes : ℕ → ℕ → List UInt8
  | 0, _ => []
  | k + 1, n => UInt8.ofNat n :: leBytes k (n / 256)

/-- The `k` low bytes of `n`, most significant first. -/
def beBytes (k n : ℕ) : List UInt8 := (leBytes k n).reverse

/-- The number a little-endian byte list spells. -/
def ofLeBytes : List UInt8 → ℕ
  | [] => 0
  | b :: bs => b.toNat + 256 * ofLeBytes bs

/-- The number a big-endian byte list spells. -/
def ofBeBytes (bs : List UInt8) : ℕ := ofLeBytes bs.reverse

@[simp] theorem length_leBytes (k n : ℕ) : (leBytes k n).length = k := by
  induction k generalizing n with
  | zero => rfl
  | succ k ih => simp [leBytes, ih]

@[simp] theorem length_beBytes (k n : ℕ) : (beBytes k n).length = k := by simp [beBytes]

theorem ofLeBytes_leBytes (k n : ℕ) : ofLeBytes (leBytes k n) = n % 256 ^ k := by
  induction k generalizing n with
  | zero => simp [leBytes, ofLeBytes, Nat.mod_one]
  | succ k ih =>
    rw [leBytes, ofLeBytes, ih, pow_succ, Nat.mul_comm (256 ^ k), Nat.mod_mul]
    simp

theorem ofBeBytes_beBytes (k n : ℕ) : ofBeBytes (beBytes k n) = n % 256 ^ k := by
  rw [ofBeBytes, beBytes, List.reverse_reverse, ofLeBytes_leBytes]

theorem ofLeBytes_lt (bs : List UInt8) : ofLeBytes bs < 256 ^ bs.length := by
  induction bs with
  | nil => simp [ofLeBytes]
  | cons b bs ih =>
    have hb : b.toNat < 256 := b.toNat_lt
    calc ofLeBytes (b :: bs) = b.toNat + 256 * ofLeBytes bs := rfl
      _ < 256 * (ofLeBytes bs + 1) := by omega
      _ ≤ 256 * 256 ^ bs.length := Nat.mul_le_mul_left _ ih
      _ = 256 ^ (b :: bs).length := by rw [List.length_cons]; ring

theorem ofBeBytes_lt (bs : List UInt8) : ofBeBytes bs < 256 ^ bs.length := by
  have hlt := ofLeBytes_lt bs.reverse
  rwa [List.length_reverse] at hlt

theorem leBytes_ofLeBytes (bs : List UInt8) : leBytes bs.length (ofLeBytes bs) = bs := by
  induction bs with
  | nil => rfl
  | cons b bs ih =>
    have hb := b.toNat_lt
    have hdiv : (b.toNat + 256 * ofLeBytes bs) / 256 = ofLeBytes bs := by omega
    have hbyte : UInt8.ofNat (b.toNat + 256 * ofLeBytes bs) = b := by
      rw [← UInt8.toNat_inj, UInt8.toNat_ofNat']
      omega
    rw [List.length_cons, ofLeBytes, leBytes, hdiv, hbyte, ih]

theorem beBytes_ofBeBytes (bs : List UInt8) : beBytes bs.length (ofBeBytes bs) = bs := by
  have hbytes := leBytes_ofLeBytes bs.reverse
  rw [List.length_reverse] at hbytes
  rw [beBytes, ofBeBytes, hbytes, List.reverse_reverse]

theorem ofLeBytes_append (bs cs : List UInt8) :
    ofLeBytes (bs ++ cs) = ofLeBytes bs + 256 ^ bs.length * ofLeBytes cs := by
  induction bs with
  | nil => simp [ofLeBytes]
  | cons b bs ih =>
    rw [List.cons_append, ofLeBytes, ofLeBytes, ih, List.length_cons]
    ring

theorem ofBeBytes_append (bs cs : List UInt8) :
    ofBeBytes (bs ++ cs) = ofBeBytes bs * 256 ^ cs.length + ofBeBytes cs := by
  rw [ofBeBytes, List.reverse_append, ofLeBytes_append, List.length_reverse]
  exact (Nat.add_comm _ _).trans (congrArg (· + _) (Nat.mul_comm _ _))

/-- The leading bytes spell a quotient. -/
theorem ofBeBytes_take (bs : List UInt8) (n : ℕ) :
    ofBeBytes (bs.take n) = ofBeBytes bs / 256 ^ (bs.length - n) := by
  have hrest := ofBeBytes_lt (bs.drop n)
  have happ := ofBeBytes_append (bs.take n) (bs.drop n)
  rw [List.length_drop] at hrest happ
  rw [List.take_append_drop] at happ
  rw [happ, Nat.add_comm, Nat.add_mul_div_right _ _ (Nat.pow_pos (by omega)),
    Nat.div_eq_of_lt hrest, Nat.zero_add]

@[simp] theorem ofBeBytes_replicate_zero (k : ℕ) : ofBeBytes (List.replicate k 0) = 0 := by
  rw [ofBeBytes, List.reverse_replicate]
  induction k with
  | zero => rfl
  | succ k ih => rw [List.replicate_succ, ofLeBytes, ih]; rfl

/-- Layouts of numbers that fit their field are equal only for equal numbers. -/
theorem leBytes_inj {k m n : ℕ} (hm : m < 256 ^ k) (hn : n < 256 ^ k)
    (h : leBytes k m = leBytes k n) : m = n := by
  have h' := congrArg ofLeBytes h
  rwa [ofLeBytes_leBytes, ofLeBytes_leBytes, Nat.mod_eq_of_lt hm, Nat.mod_eq_of_lt hn] at h'

end Arkos
