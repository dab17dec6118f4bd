import Mathlib.Algebra.BigOperators.Fin
import Mathlib.Algebra.Order.BigOperators.Group.List
import Mathlib.Tactic.NormNum

/-!
# Sums in a signed register, and layers that are computed with them

A dot product is added up in a register of `w` bits. Whether the register refuses to overflow, wraps
or saturates, and in which order the terms reach it, cannot be seen while the magnitudes of the
terms sum to less than `2 ^ (w - 1)`: every partial sum of every order then fits.

A quantised layer scales such sums down by a power of two and clamps them.

## Main definitions

* `checkedRegister`, `saturatingRegister`, `wrappingRegister` — three registers, term by term
* `ExactAdder` — a way of adding that is right while nothing can overflow
* `quantizedLayer`

## Main results

* `exactAdder_checked`, `exactAdder_saturating`, `exactAdder_wrapping`, `ExactAdder.reorder`,
  `ExactAdder.split`
-/

namespace Arkos

/-- `z` is the value of a signed register of `w` bits. -/
def FitsSigned (w : ℕ) (z : ℤ) : Prop := -2 ^ (w - 1) ≤ z ∧ z < 2 ^ (w - 1)

instance (w : ℕ) (z : ℤ) : Decidable (FitsSigned w z) :=
  inferInstanceAs (Decidable (_ ∧ _))

/-- The value, if the register holds it. -/
def checkSigned (w : ℕ) (z : ℤ) : Option ℤ := if FitsSigned w z then some z else none

/-- The value the register is held at. -/
def saturateSigned (w : ℕ) (z : ℤ) : ℤ := max (-2 ^ (w - 1)) (min z (2 ^ (w - 1) - 1))

/-- The value the register is left with. -/
def wrapSigned (w : ℕ) (z : ℤ) : ℤ := z.bmod (2 ^ w)

/-- The magnitudes of the terms. -/
def magnitude (zs : List ℤ) : ℕ := (zs.map Int.natAbs).sum

@[simp]
theorem magnitude_nil : magnitude [] = 0 := rfl

@[simp]
theorem magnitude_cons (z : ℤ) (zs : List ℤ) : magnitude (z :: zs) = z.natAbs + magnitude zs := by
  simp [magnitude]

@[simp]
theorem magnitude_append (zs zs' : List ℤ) :
    magnitude (zs ++ zs') = magnitude zs + magnitude zs' := by
  simp [magnitude]

theorem magnitude_eq_of_perm {zs zs' : List ℤ} (h : zs.Perm zs') : magnitude zs = magnitude zs' :=
  (h.map Int.natAbs).sum_eq

theorem natAbs_sum_le (zs : List ℤ) : zs.sum.natAbs ≤ magnitude zs := by
  induction zs with
  | nil => simp
  | cons z zs ih =>
    rw [List.sum_cons, magnitude_cons]
    exact (Int.natAbs_add_le z zs.sum).trans (by omega)

theorem magnitude_le {zs : List ℤ} {bound : ℕ} (h : ∀ z ∈ zs, z.natAbs ≤ bound) :
    magnitude zs ≤ zs.length * bound := by
  rw [magnitude, ← List.length_map Int.natAbs, ← smul_eq_mul]
  refine List.sum_le_card_nsmul _ _ fun n hn => ?_
  obtain ⟨z, hz, rfl⟩ := List.mem_map.mp hn
  exact h z hz

theorem fitsSigned_of_natAbs {w : ℕ} {z : ℤ} (h : z.natAbs < 2 ^ (w - 1)) : FitsSigned w z := by
  have hpow : ((2 ^ (w - 1) : ℕ) : ℤ) = 2 ^ (w - 1) := by norm_cast
  rw [FitsSigned, ← hpow]
  omega

theorem checkSigned_of_natAbs {w : ℕ} {z : ℤ} (h : z.natAbs < 2 ^ (w - 1)) :
    checkSigned w z = some z :=
  if_pos (fitsSigned_of_natAbs h)

theorem saturateSigned_of_natAbs {w : ℕ} {z : ℤ} (h : z.natAbs < 2 ^ (w - 1)) :
    saturateSigned w z = z := by
  obtain ⟨hle, hlt⟩ := fitsSigned_of_natAbs h
  rw [saturateSigned]
  omega

theorem wrapSigned_of_natAbs {w : ℕ} (hw : 0 < w) {z : ℤ} (h : z.natAbs < 2 ^ (w - 1)) :
    wrapSigned w z = z := by
  obtain ⟨v, rfl⟩ : ∃ v, w = v + 1 := ⟨w - 1, by omega⟩
  obtain ⟨hle, hlt⟩ := fitsSigned_of_natAbs h
  rw [Nat.add_sub_cancel] at hle hlt
  refine Int.bmod_eq_of_le_mul_two ?_ ?_
  · rw [Nat.cast_pow, Nat.cast_ofNat, pow_succ]
    omega
  · rw [Nat.cast_pow, Nat.cast_ofNat, pow_succ]
    omega

/-! ### Registers -/

/-- The terms are added one by one, as long as the register holds the sum. -/
def checkedRegister (w : ℕ) (zs : List ℤ) : Option ℤ :=
  zs.foldlM (fun acc z => checkSigned w (acc + z)) 0

/-- The terms are added one by one, and the register is held at its ends. -/
def saturatingRegister (w : ℕ) (zs : List ℤ) : Option ℤ :=
  some (zs.foldl (fun acc z => saturateSigned w (acc + z)) 0)

/-- The terms are added one by one, modulo the size of the register. -/
def wrappingRegister (w : ℕ) (zs : List ℤ) : Option ℤ :=
  some (zs.foldl (fun acc z => wrapSigned w (acc + z)) 0)

/-- **A way of adding that is right** while no partial sum leaves a register of `w` bits. -/
def ExactAdder (w : ℕ) (add : List ℤ → Option ℤ) : Prop :=
  ∀ zs, magnitude zs < 2 ^ (w - 1) → add zs = some zs.sum

theorem foldlM_checkSigned {w : ℕ} {acc : ℤ} {zs : List ℤ}
    (h : acc.natAbs + magnitude zs < 2 ^ (w - 1)) :
    zs.foldlM (fun acc z => checkSigned w (acc + z)) acc = some (acc + zs.sum) := by
  induction zs generalizing acc with
  | nil => simp
  | cons z zs ih =>
    rw [magnitude_cons] at h
    have hle := Int.natAbs_add_le acc z
    rw [List.foldlM_cons, checkSigned_of_natAbs (by omega), Option.bind_eq_bind, Option.bind_some,
      ih (by omega), List.sum_cons, add_assoc]

theorem exactAdder_checked (w : ℕ) : ExactAdder w (checkedRegister w) := fun zs h => by
  rw [checkedRegister, foldlM_checkSigned (by simpa using h), zero_add]

/-- A register that leaves small sums alone is right. -/
theorem foldl_eq_sum {w : ℕ} {settle : ℤ → ℤ} (hsettle : ∀ z, z.natAbs < 2 ^ (w - 1) → settle z = z)
    {acc : ℤ} {zs : List ℤ} (h : acc.natAbs + magnitude zs < 2 ^ (w - 1)) :
    zs.foldl (fun acc z => settle (acc + z)) acc = acc + zs.sum := by
  induction zs generalizing acc with
  | nil => simp
  | cons z zs ih =>
    rw [magnitude_cons] at h
    have hle := Int.natAbs_add_le acc z
    rw [List.foldl_cons, hsettle _ (by omega), ih (by omega), List.sum_cons, add_assoc]

theorem exactAdder_saturating (w : ℕ) : ExactAdder w (saturatingRegister w) := fun zs h => by
  rw [saturatingRegister, foldl_eq_sum (fun _ => saturateSigned_of_natAbs) (by simpa using h),
    zero_add]

theorem exactAdder_wrapping {w : ℕ} (hw : 0 < w) : ExactAdder w (wrappingRegister w) := by
  intro zs h
  rw [wrappingRegister, foldl_eq_sum (fun _ => wrapSigned_of_natAbs hw) (by simpa using h),
    zero_add]

section

variable {w v : ℕ} {add add' : List ℤ → Option ℤ}

/-- What a wide register adds up is right where a narrower one would do. -/
theorem ExactAdder.mono (h : ExactAdder v add) (hw : w ≤ v) : ExactAdder w add := fun zs hzs =>
  h zs (hzs.trans_le (Nat.pow_le_pow_right (by norm_num) (by omega)))

/-- The terms may come in any order. -/
theorem ExactAdder.reorder (h : ExactAdder w add) {order : List ℤ → List ℤ}
    (horder : ∀ zs, (order zs).Perm zs) : ExactAdder w fun zs => add (order zs) := fun zs hzs => by
  have hperm := horder zs
  show add (order zs) = _
  rw [h (order zs) (by rwa [magnitude_eq_of_perm hperm]), hperm.sum_eq]

/-- The terms may be split between two registers whose sums are added at the end. -/
theorem ExactAdder.split (h : ExactAdder w add) (h' : ExactAdder w add') (k : ℕ) :
    ExactAdder w (fun zs => do
      let x ← add (zs.take k)
      let y ← add' (zs.drop k)
      checkSigned w (x + y)) := by
  intro zs hzs
  have hparts : magnitude (zs.take k) + magnitude (zs.drop k) = magnitude zs := by
    rw [← magnitude_append, List.take_append_drop]
  show (add (zs.take k)).bind _ = _
  rw [h _ (by omega), Option.bind_some, h' _ (by omega)]
  show checkSigned w ((zs.take k).sum + (zs.drop k).sum) = _
  rw [← List.sum_append, List.take_append_drop]
  exact checkSigned_of_natAbs ((natAbs_sum_le zs).trans_lt hzs)

end

/-! ### Quantised layers -/

section

variable {m n : Type*} [Fintype n]

/-- Weights, biases, a division by a power of two, and a clamp. -/
def quantizedLayer (shift : ℕ) (bound : ℤ) (W : m → n → ℤ) (b : m → ℤ) (x : n → ℤ) (i : m) : ℤ :=
  max (-bound) (min ((b i + ∑ j, W i j * x j) / 2 ^ shift) bound)

end

end Arkos
