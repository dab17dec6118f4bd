import Arkos.Blockchain.Difficulty

/-!
# Proof of work as a comparison of numbers

`hash_le_target` compares 32 bytes from the front and stops at the first difference;
`bits_to_target` puts three bytes at a place that the exponent gives, and drops those that have no
place. What they decide together is whether a number is at most
`mantissa * 256 ^ exponent / 256 ^ 3`.

An array of the source panics when it is written out of range, a list here does not notice.
`bitsToTargetChecked` is the same function with a check at every write.

## Main definitions

* `writeByte`, `bitsToTargetChecked`

## Main results

* `hashLeTarget_iff` — comparing bytes is comparing numbers
* `bitsToTargetChecked_eq` — every write is in range
* `meets_target_iff`
-/

namespace Arkos

/-! ### Bytes and numbers -/

theorem ofBeBytes_cons (b : UInt8) (bs : Bytes) :
    ofBeBytes (b :: bs) = b.toNat * 256 ^ bs.length + ofBeBytes bs := by
  rw [← List.singleton_append, ofBeBytes_append]
  congr 1

/-- Only zeros spell zero. -/
theorem ofBeBytes_eq_zero_iff {bs : Bytes} :
    ofBeBytes bs = 0 ↔ bs = List.replicate bs.length 0 := by
  induction bs with
  | nil => exact iff_of_true rfl rfl
  | cons b bs ih =>
    have hpow : 256 ^ bs.length ≠ 0 := (Nat.pow_pos (by omega)).ne'
    rw [ofBeBytes_cons, Nat.add_eq_zero_iff, Nat.mul_eq_zero, or_iff_left hpow, ih,
      List.length_cons, List.replicate_succ, List.cons.injEq]
    refine and_congr_left fun _ => ?_
    rw [← UInt8.toNat_inj]
    rfl

/-- **Comparing bytes from the front is comparing the numbers they spell.** -/
theorem hashLeTarget_iff {hash target : Bytes} (hlen : hash.length = target.length) :
    hashLeTarget hash target = true ↔ ofBeBytes hash ≤ ofBeBytes target := by
  induction hash generalizing target with
  | nil => exact iff_of_true (by rw [hashLeTarget]; simp) (Nat.zero_le _)
  | cons h hs ih =>
    obtain _ | ⟨t, ts⟩ := target
    · cases hlen
    have hrest : hs.length = ts.length := Nat.succ.inj hlen
    have hh := ofBeBytes_lt hs
    have ht := ofBeBytes_lt ts
    rw [hashLeTarget, ofBeBytes_cons, ofBeBytes_cons, ← hrest]
    rw [← hrest] at ht
    split
    · -- the first byte decides, whatever follows
      next hlt =>
      have hstep : (h.toNat + 1) * 256 ^ hs.length ≤ t.toNat * 256 ^ hs.length :=
        Nat.mul_le_mul_right _ (UInt8.lt_iff_toNat_lt.mp hlt)
      rw [Nat.add_mul, Nat.one_mul] at hstep
      exact iff_of_true rfl (by omega)
    · split
      · next hgt =>
        have hstep : (t.toNat + 1) * 256 ^ hs.length ≤ h.toNat * 256 ^ hs.length :=
          Nat.mul_le_mul_right _ (UInt8.lt_iff_toNat_lt.mp hgt)
        rw [Nat.add_mul, Nat.one_mul] at hstep
        exact iff_of_false (by simp) (by omega)
      · next hge hle =>
        have heq : h.toNat = t.toNat := by
          rw [UInt8.lt_iff_toNat_lt] at hge hle
          omega
        rw [ih hrest, heq, Nat.add_le_add_iff_left]

/-! ### Writing a target -/

/-- A write to an array of bytes, which panics out of range. -/
def writeByte (i : ℕ) (b : UInt8) (target : Bytes) : Option Bytes :=
  if i < target.length then some (target.set i b) else none

/-- `bits_to_target` with the checks of its writes. -/
def bitsToTargetChecked (bits : UInt32) : Option Bytes :=
  let exp := bits.toNat / 2 ^ 24
  let mantissa := bits.toNat % 2 ^ 24
  let zeros : Bytes := List.replicate 32 0
  if 1 ≤ exp ∧ exp ≤ 32 then do
    let start := 32 - exp
    let target ← writeByte start (UInt8.ofNat (mantissa / 65536)) zeros
    let target ← if start + 1 < 32 then writeByte (start + 1) (UInt8.ofNat (mantissa / 256)) target
      else some target
    if start + 2 < 32 then writeByte (start + 2) (UInt8.ofNat mantissa) target else some target
  else some zeros

theorem writeByte_of_lt {i : ℕ} {b : UInt8} {target : Bytes} (h : i < target.length) :
    writeByte i b target = some (target.set i b) := if_pos h

/-- **Every write is in range.** -/
theorem bitsToTargetChecked_eq (bits : UInt32) :
    bitsToTargetChecked bits = some (bitsToTarget bits) := by
  rw [bitsToTargetChecked, bitsToTarget]
  dsimp only
  split
  · next hexp =>
    have hstart : 32 - bits.toNat / 2 ^ 24 < 32 := by omega
    rw [writeByte_of_lt (by rwa [List.length_replicate])]
    dsimp only [Option.bind_eq_bind, Option.bind_some]
    -- the two guards of the source are the range checks of the two writes
    by_cases h1 : 32 - bits.toNat / 2 ^ 24 + 1 < 32
    · rw [if_pos h1, if_pos h1, writeByte_of_lt (by simpa using h1), Option.bind_some]
      by_cases h2 : 32 - bits.toNat / 2 ^ 24 + 2 < 32
      · rw [if_pos h2, if_pos h2, writeByte_of_lt (by simpa using h2)]
      · rw [if_neg h2, if_neg h2]
    · have h2 : ¬ 32 - bits.toNat / 2 ^ 24 + 2 < 32 := by omega
      rw [if_neg h1, if_neg h1, if_neg h2, if_neg h2]
  · rfl

theorem length_bitsToTarget (bits : UInt32) : (bitsToTarget bits).length = 32 := by
  rw [bitsToTarget]
  dsimp only
  split_ifs <;> simp

/-- The number a target is, in one quotient. -/
theorem targetOf_eq_div {bits : UInt32} (hpos : 1 ≤ compactExp bits) (hle : compactExp bits ≤ 32) :
    targetOf bits = compactMantissa bits * 256 ^ compactExp bits / 256 ^ 3 := by
  rw [targetOf_eq hpos hle]
  by_cases h3 : 3 ≤ compactExp bits
  · obtain ⟨k, hk⟩ : ∃ k, compactExp bits = k + 3 := ⟨compactExp bits - 3, by omega⟩
    rw [hk, Nat.add_sub_cancel, show 3 - (k + 3) = 0 by omega, pow_zero, Nat.div_one, pow_add,
      ← Nat.mul_assoc, Nat.mul_div_cancel _ (by norm_num)]
  · obtain ⟨k, hk⟩ : ∃ k, 3 = k + compactExp bits := ⟨3 - compactExp bits, by omega⟩
    rw [hk, Nat.add_sub_cancel, show compactExp bits - (k + compactExp bits) = 0 by omega, pow_zero,
      Nat.mul_one, pow_add, Nat.mul_div_mul_right _ _ (Nat.pow_pos (by omega))]

/-- Exponents that are out of range give a target of zeros. -/
theorem bitsToTarget_of_exp {bits : UInt32} (h : compactExp bits = 0 ∨ 32 < compactExp bits) :
    bitsToTarget bits = List.replicate 32 0 := by
  rw [compactExp] at h
  rw [bitsToTarget]
  exact if_neg (by omega)

/-- **The proof-of-work test is a comparison of numbers.** With the exponent between 1 and 32, a
hash passes when the number it spells is at most `mantissa * 256 ^ exponent / 256 ^ 3`; with any
other exponent only the hash of zeros does. -/
theorem meets_target_iff (hash : Hash) (bits : UInt32) :
    (1 ≤ compactExp bits ∧ compactExp bits ≤ 32 →
      (hashLeTarget hash.toList (bitsToTarget bits) = true ↔
        ofBeBytes hash.toList ≤ compactMantissa bits * 256 ^ compactExp bits / 256 ^ 3)) ∧
    (compactExp bits = 0 ∨ 32 < compactExp bits →
      (hashLeTarget hash.toList (bitsToTarget bits) = true ↔
        hash.toList = List.replicate 32 0)) ∧
    bitsToTargetChecked bits = some (bitsToTarget bits) := by
  have hlen : hash.toList.length = (bitsToTarget bits).length := by
    rw [length_bitsToTarget, List.Vector.toList_length]
  refine ⟨fun hexp => ?_, fun hexp => ?_, bitsToTargetChecked_eq bits⟩
  · rw [hashLeTarget_iff hlen, ← targetOf_eq_div hexp.1 hexp.2, targetOf]
  · rw [hashLeTarget_iff hlen, bitsToTarget_of_exp hexp, ofBeBytes_replicate_zero, Nat.le_zero,
      ofBeBytes_eq_zero_iff, List.Vector.toList_length]

/-- With exponent 1 the two low bytes of the mantissa have no place: the largest hash is `0x12`. -/
theorem meets_target_iff_truncated :
    hashLeTarget (List.replicate 31 0 ++ [0x12]) (bitsToTarget 0x01123456) = true :=
  ((meets_target_iff ⟨List.replicate 31 0 ++ [0x12], rfl⟩ 0x01123456).1 (by decide)).mpr (by decide)

end Arkos
