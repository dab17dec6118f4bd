import Arkos.Blockchain.Consensus

/-!
# Retargeting

A compact difficulty is a number in base 256 cut to three significant bytes: an exponent and a
mantissa, of which exponents 1 and 2 keep only the upper bytes. `adjustDifficulty` multiplies the
mantissa by the clamped length of the period over the expected one, shifts by one byte when the
result has a fourth byte or lost two, and holds the exponent at `0x1d`.

Between exponent 3 and the cap the new target is the old one times that quotient, rounded down, so
the clamp on the time is a clamp on the target. The cap is where this ends: it lowers the exponent
and leaves the mantissa, which divides the target by 256 for each byte. That happens on the first
retarget of a chain whose genesis is easier than the cap, and at exponent `0x1d` whenever the
mantissa grows out of its three bytes, which is where slower blocks make mining harder.

## Main definitions

* `targetOf` — a target as a number
* `clampedTime`, `RetargetFits`

## Main results

* `targetOf_eq`, `targetOf_adjustDifficulty` — the numbers behind the bytes
* `retarget_bounded_iff`, `retarget_monotone_iff`
-/

namespace Arkos

/-! ### The number a target is -/

/-- The exponent byte of a compact difficulty. -/
def compactExp (bits : UInt32) : ℕ := bits.toNat / 2 ^ 24

/-- The three mantissa bytes of a compact difficulty. -/
def compactMantissa (bits : UInt32) : ℕ := bits.toNat % 2 ^ 24

/-- The target of a compact difficulty as a number. -/
def targetOf (bits : UInt32) : ℕ := ofBeBytes (bitsToTarget bits)

theorem compactMantissa_lt (bits : UInt32) : compactMantissa bits < 2 ^ 24 :=
  Nat.mod_lt _ (Nat.two_pow_pos 24)

/-- The bytes of a target: zeros, as much of the mantissa as there is room for, zeros. -/
theorem bitsToTarget_eq {bits : UInt32} (hpos : 1 ≤ compactExp bits) (hle : compactExp bits ≤ 32) :
    bitsToTarget bits = List.replicate (32 - compactExp bits) 0 ++
      (beBytes (min (compactExp bits) 3) (compactMantissa bits / 256 ^ (3 - compactExp bits)) ++
        List.replicate (compactExp bits - 3) 0) := by
  rw [bitsToTarget]
  rw [compactExp] at hpos hle ⊢
  rw [if_pos ⟨hpos, hle⟩, compactMantissa]
  generalize bits.toNat % 2 ^ 24 = m
  generalize bits.toNat / 2 ^ 24 = e at hpos hle ⊢
  by_cases h3 : 3 ≤ e
  · have hzeros : List.replicate 32 (0 : UInt8) =
        List.replicate (32 - e) 0 ++ 0 :: 0 :: 0 :: List.replicate (e - 3) 0 := by
      rw [← List.replicate_succ, ← List.replicate_succ, ← List.replicate_succ, ← List.replicate_add]
      congr 1
      omega
    rw [hzeros, if_pos (by omega), if_pos (by omega), Nat.min_eq_right h3, Nat.sub_eq_zero_of_le h3]
    simp [beBytes, leBytes, Nat.div_div_eq_div_mul]
  · obtain rfl | rfl : e = 1 ∨ e = 2 := by omega
    · simp [beBytes, leBytes, List.replicate, List.set]
    · simp [beBytes, leBytes, List.replicate, List.set, Nat.div_div_eq_div_mul]

theorem targetOf_eq {bits : UInt32} (hpos : 1 ≤ compactExp bits) (hle : compactExp bits ≤ 32) :
    targetOf bits =
      compactMantissa bits / 256 ^ (3 - compactExp bits) * 256 ^ (compactExp bits - 3) := by
  have hm := compactMantissa_lt bits
  -- what is left of the mantissa fits the bytes left for it
  have hfits : compactMantissa bits / 256 ^ (3 - compactExp bits) <
      256 ^ min (compactExp bits) 3 := by
    refine Nat.div_lt_of_lt_mul ?_
    rw [← pow_add, show 3 - compactExp bits + min (compactExp bits) 3 = 3 by omega]
    exact hm
  rw [targetOf, bitsToTarget_eq hpos hle, ofBeBytes_append, ofBeBytes_append,
    ofBeBytes_replicate_zero, ofBeBytes_replicate_zero, ofBeBytes_beBytes, Nat.mod_eq_of_lt hfits,
    List.length_replicate]
  omega

/-! ### The parts of a retarget -/

/-- The time a period should take. -/
def expectedTime : ℕ := targetBlockTime * difficultyAdjustmentInterval

/-- The measured length of a period, held between a quarter and four times the expected one. -/
def clampedTime (startTimestamps endTimestamps : List ℕ) : ℕ :=
  min (max (medianTimestamp endTimestamps - medianTimestamp startTimestamps) (expectedTime / 4))
    (expectedTime * 4)

/-- The exponent a scaled mantissa is stored with, before the cap. -/
def renormExp (exp scaled : ℕ) : ℕ :=
  if scaled > 0xffffff then exp + 1 else if scaled < 0x100 ∧ exp > 1 then exp - 1 else exp

/-- The mantissa that goes with it. -/
def renormMantissa (exp scaled : ℕ) : ℕ :=
  if scaled > 0xffffff then scaled / 256
  else if scaled < 0x100 ∧ exp > 1 then scaled * 256 else scaled

theorem expectedTime_eq : expectedTime = 391104 := rfl

theorem le_clampedTime (starts ends : List ℕ) : 97776 ≤ clampedTime starts ends := by
  rw [clampedTime, expectedTime_eq]
  omega

theorem clampedTime_le (starts ends : List ℕ) : clampedTime starts ends ≤ 1564416 := by
  rw [clampedTime, expectedTime_eq]
  omega

theorem adjustDifficulty_eq {bits : UInt32} (hm : compactMantissa bits ≠ 0)
    (starts ends : List ℕ) :
    adjustDifficulty bits starts ends =
      let scaled := compactMantissa bits * clampedTime starts ends / expectedTime
      UInt32.ofNat (min (renormExp (compactExp bits) scaled) 0x1d * 2 ^ 24 +
        min (max (renormMantissa (compactExp bits) scaled) 1) 0xffffff) := by
  rw [compactMantissa] at hm
  rw [adjustDifficulty, if_neg hm]
  dsimp only [renormExp, renormMantissa, clampedTime, expectedTime, compactExp, compactMantissa]
  split_ifs
  · dsimp only
  · dsimp only
  · dsimp only

section

variable {bits : UInt32} {starts ends : List ℕ} {scaled : ℕ} (hm : compactMantissa bits ≠ 0)
  (hs : compactMantissa bits * clampedTime starts ends / expectedTime = scaled)

include hm hs

theorem toNat_adjustDifficulty :
    (adjustDifficulty bits starts ends).toNat =
      min (renormExp (compactExp bits) scaled) 0x1d * 2 ^ 24 +
        min (max (renormMantissa (compactExp bits) scaled) 1) 0xffffff := by
  rw [adjustDifficulty_eq hm, hs, UInt32.toNat_ofNat']
  refine Nat.mod_eq_of_lt ?_
  omega

theorem compactExp_adjustDifficulty :
    compactExp (adjustDifficulty bits starts ends) =
      min (renormExp (compactExp bits) scaled) 0x1d := by
  rw [compactExp, toNat_adjustDifficulty hm hs]
  omega

theorem compactMantissa_adjustDifficulty :
    compactMantissa (adjustDifficulty bits starts ends) =
      min (max (renormMantissa (compactExp bits) scaled) 1) 0xffffff := by
  rw [compactMantissa, toNat_adjustDifficulty hm hs]
  omega

end

/-! ### The target after a retarget -/

/-- A scaled mantissa without the byte that a fourth one pushes out. -/
def threeBytes (scaled : ℕ) : ℕ := if scaled > 0xffffff then scaled / 256 * 256 else scaled

theorem threeBytes_mono {scaled scaled' : ℕ} (h : scaled ≤ scaled') :
    threeBytes scaled ≤ threeBytes scaled' := by
  rw [threeBytes, threeBytes]
  split_ifs <;> omega

section

variable {bits : UInt32} {starts ends : List ℕ} {scaled : ℕ}

/-- The scaled mantissa lies between a quarter and four times the old one, rounded down. -/
theorem scaled_bounds
    (hs : compactMantissa bits * clampedTime starts ends / expectedTime = scaled) :
    compactMantissa bits / 4 ≤ scaled ∧ scaled ≤ 4 * compactMantissa bits := by
  have hlow := Nat.mul_le_mul_left (compactMantissa bits) (le_clampedTime starts ends)
  have hhigh := Nat.mul_le_mul_left (compactMantissa bits) (clampedTime_le starts ends)
  rw [expectedTime_eq] at hs
  omega

/-- Three bytes hold the scaled mantissa, on the numbers the condition is stated in. -/
theorem scaled_le_iff
    (hs : compactMantissa bits * clampedTime starts ends / expectedTime = scaled) :
    compactMantissa bits * clampedTime starts ends < 2 ^ 24 * expectedTime ↔ scaled ≤ 0xffffff := by
  rw [expectedTime_eq] at hs ⊢
  omega

variable (hm : compactMantissa bits ≠ 0) (hpos : 1 ≤ compactExp bits)
  (hs : compactMantissa bits * clampedTime starts ends / expectedTime = scaled)

include hm hpos hs

/-- Where the cap does not bind, the new target is the old one with the scaled mantissa in place of
the mantissa, except for the byte that a fourth byte of the scaled mantissa pushes out. -/
theorem targetOf_adjustDifficulty (hzero : 3 ≤ compactExp bits → scaled ≠ 0)
    (hcap : compactExp bits ≤ 0x1d) (hfull : compactExp bits = 0x1d → scaled ≤ 0xffffff) :
    targetOf (adjustDifficulty bits starts ends) =
      if scaled > 0xffffff then
        scaled / 256 / 256 ^ (2 - compactExp bits) * 256 ^ (compactExp bits - 2)
      else scaled / 256 ^ (3 - compactExp bits) * 256 ^ (compactExp bits - 3) := by
  have hlt := compactMantissa_lt bits
  have hbounds := scaled_bounds hs
  have hexp := compactExp_adjustDifficulty hm hs
  have hmant := compactMantissa_adjustDifficulty hm hs
  rw [renormExp] at hexp
  rw [renormMantissa] at hmant
  split_ifs at hexp hmant with hover hunder
  · -- one byte more
    rw [if_pos hover, targetOf_eq (by omega) (by omega), hexp, hmant,
      show min (max (scaled / 256) 1) 0xffffff = scaled / 256 by omega,
      show min (compactExp bits + 1) 0x1d = compactExp bits + 1 by omega,
      show 3 - (compactExp bits + 1) = 2 - compactExp bits by omega,
      show compactExp bits + 1 - 3 = compactExp bits - 2 by omega]
  · -- one byte less; what comes in at the bottom is zero
    rw [if_neg hover, targetOf_eq (by omega) (by omega), hexp, hmant,
      show min (compactExp bits - 1) 0x1d = compactExp bits - 1 by omega]
    obtain h2 | h3 | h4 : compactExp bits = 2 ∨ compactExp bits = 3 ∨ 4 ≤ compactExp bits := by
      omega
    · rw [h2]
      norm_num
      omega
    · have hne := hzero h3.ge
      rw [h3]
      norm_num
      omega
    · have hne := hzero (by omega)
      rw [show 3 - (compactExp bits - 1) = 0 by omega, show 3 - compactExp bits = 0 by omega,
        show compactExp bits - 3 = (compactExp bits - 1 - 3) + 1 by omega, pow_zero, Nat.div_one,
        Nat.div_one, show min (max (scaled * 256) 1) 0xffffff = scaled * 256 by omega, pow_succ]
      ring
  · rw [if_neg hover, targetOf_eq (by omega) (by omega), hexp, hmant,
      show min (compactExp bits) 0x1d = compactExp bits by omega]
    by_cases h3 : 3 ≤ compactExp bits
    · rw [show min (max scaled 1) 0xffffff = scaled by have := hzero h3; omega]
    · obtain h1 | h2 : compactExp bits = 1 ∨ compactExp bits = 2 := by omega
      · rw [h1]
        norm_num
        omega
      · rw [h2]
        norm_num
        omega

/-- From exponent 3 on it is the scaled mantissa, cut to three significant bytes, at the old
exponent. -/
theorem targetOf_adjustDifficulty_of_three_le (h3 : 3 ≤ compactExp bits) (hne : scaled ≠ 0)
    (hcap : compactExp bits ≤ 0x1d) (hfull : compactExp bits = 0x1d → scaled ≤ 0xffffff) :
    targetOf (adjustDifficulty bits starts ends) =
      threeBytes scaled * 256 ^ (compactExp bits - 3) := by
  rw [targetOf_adjustDifficulty hm hpos hs (fun _ => hne) hcap hfull, threeBytes,
    show 3 - compactExp bits = 0 by omega, show 2 - compactExp bits = 0 by omega,
    show compactExp bits - 2 = compactExp bits - 3 + 1 by omega, pow_zero, Nat.div_one,
    Nat.div_one, pow_succ']
  split_ifs
  · rw [Nat.mul_assoc]
  · rfl

omit hpos in
/-- A mantissa scaled to nothing is replaced by one, a byte further down. -/
theorem targetOf_adjustDifficulty_le_of_zero (h3 : 3 ≤ compactExp bits) (hzero : scaled = 0) :
    targetOf (adjustDifficulty bits starts ends) ≤ 256 ^ (compactExp bits - 3) := by
  have hexp := compactExp_adjustDifficulty hm hs
  have hmant := compactMantissa_adjustDifficulty hm hs
  rw [hzero, renormExp, if_neg (by omega), if_pos (by omega)] at hexp
  rw [hzero, renormMantissa, if_neg (by omega), if_pos (by omega)] at hmant
  rw [targetOf_eq (by omega) (by omega), hmant]
  calc 1 / 256 ^ (3 - compactExp (adjustDifficulty bits starts ends)) *
        256 ^ (compactExp (adjustDifficulty bits starts ends) - 3)
      ≤ 1 * 256 ^ (compactExp (adjustDifficulty bits starts ends) - 3) :=
        Nat.mul_le_mul_right _ (Nat.div_le_self _ _)
    _ ≤ 256 ^ (compactExp bits - 3) := by
        rw [Nat.one_mul]
        exact Nat.pow_le_pow_right (by omega) (by omega)

/-- Where the cap binds, the exponent goes down and the mantissa does not make up for it. -/
theorem targetOf_adjustDifficulty_capped (hscaled : 0x100 ≤ scaled)
    (hcap : 0x1d < compactExp bits ∨ compactExp bits = 0x1d ∧ 0xffffff < scaled) :
    targetOf (adjustDifficulty bits starts ends) =
      (if scaled > 0xffffff then scaled / 256 else scaled) * 256 ^ 26 := by
  have hlt := compactMantissa_lt bits
  have hbounds := scaled_bounds hs
  have hexp := compactExp_adjustDifficulty hm hs
  have hmant := compactMantissa_adjustDifficulty hm hs
  rw [renormExp] at hexp
  rw [renormMantissa] at hmant
  split_ifs at hexp hmant with hover hunder
  · rw [if_pos hover, targetOf_eq (by omega) (by omega), hexp, hmant,
      show min (compactExp bits + 1) 0x1d = 0x1d by omega,
      show min (max (scaled / 256) 1) 0xffffff = scaled / 256 by omega]
    norm_num
  · omega
  · rw [if_neg hover, targetOf_eq (by omega) (by omega), hexp, hmant,
      show min (compactExp bits) 0x1d = 0x1d by omega,
      show min (max scaled 1) 0xffffff = scaled by omega]
    norm_num

end

/-! ### Bits a chain can carry -/

/-- What every difficulty satisfies that is reached from a genesis by retargets. -/
structure CompactOk (bits : UInt32) : Prop where
  exp_pos : 1 ≤ compactExp bits
  exp_le : compactExp bits ≤ 32
  mantissa_pos : 0 < compactMantissa bits
  /-- Two significant bytes, unless there is no byte below. -/
  wide : 2 ≤ compactExp bits → 0x100 ≤ compactMantissa bits
  /-- Only a genesis is above the cap. -/
  above : 0x1d < compactExp bits → 0x400 ≤ compactMantissa bits

theorem CompactOk.adjustDifficulty {bits : UInt32} (h : CompactOk bits) (starts ends : List ℕ) :
    CompactOk (adjustDifficulty bits starts ends) := by
  obtain ⟨hpos, hle, hmpos, hwide, -⟩ := h
  have hm : compactMantissa bits ≠ 0 := hmpos.ne'
  obtain ⟨scaled, hs⟩ : ∃ scaled,
    compactMantissa bits * clampedTime starts ends / expectedTime = scaled := ⟨_, rfl⟩
  have hexp := compactExp_adjustDifficulty hm hs
  have hmant := compactMantissa_adjustDifficulty hm hs
  have hbounds := scaled_bounds hs
  have hlt := compactMantissa_lt bits
  rw [renormExp] at hexp
  rw [renormMantissa] at hmant
  refine ⟨?_, by omega, by omega, fun h2 => ?_, by omega⟩
  · split_ifs at hexp <;> omega
  · split_ifs at hexp hmant <;> omega

/-- The three genesis difficulties. -/
def allGenesisBits : List UInt32 := [mainnetGenesisBits, testnetGenesisBits, regtestGenesisBits]

theorem compactOk_of_mem_allGenesisBits {bits : UInt32} (h : bits ∈ allGenesisBits) :
    CompactOk bits := by
  simp only [allGenesisBits, List.mem_cons, List.not_mem_nil, or_false] at h
  rcases h with rfl | rfl | rfl <;> exact ⟨by decide, by decide, by decide, by decide, by decide⟩

/-- The difficulty after a sequence of retargets. -/
def retargets (bits : UInt32) (windows : List (List ℕ × List ℕ)) : UInt32 :=
  windows.foldl (fun bits w => adjustDifficulty bits w.1 w.2) bits

theorem CompactOk.retargets {bits : UInt32} (h : CompactOk bits)
    (windows : List (List ℕ × List ℕ)) : CompactOk (retargets bits windows) := by
  induction windows generalizing bits with
  | nil => exact h
  | cons w windows ih => exact ih (h.adjustDifficulty w.1 w.2)

/-! ### The step is bounded -/

/-- The inputs on which the clamp on the time is a clamp on the target: the cap on the exponent does
not bind, and below exponent 3, where the low bytes of the mantissa fall off the target, the scaled
mantissa keeps a byte in it and grows by no more than the quotient of what is kept allows. -/
def RetargetFits (bits : UInt32) (clamped : ℕ) : Prop :=
  compactExp bits ≤ 0x1d ∧
    (compactExp bits = 0x1d → compactMantissa bits * clamped < 2 ^ 24 * expectedTime) ∧
    (compactExp bits < 3 →
      256 ^ (3 - compactExp bits) * expectedTime ≤ compactMantissa bits * clamped ∧
      compactMantissa bits * clamped <
        (4 * (compactMantissa bits / 256 ^ (3 - compactExp bits)) + 1) *
          256 ^ (3 - compactExp bits) * expectedTime)

/-- The new target is above an eighth of the old one, at most four times it, and not zero. -/
def RetargetBounded (T T' : ℕ) : Prop := T < 8 * T' ∧ T' ≤ 4 * T ∧ T' ≠ 0

theorem retargetBounded_mul {m t P : ℕ} (hP : 0 < P) (h : RetargetBounded m t) :
    RetargetBounded (m * P) (t * P) := by
  obtain ⟨hlow, hhigh, hne⟩ := h
  refine ⟨?_, ?_, Nat.mul_ne_zero hne hP.ne'⟩
  · rw [← Nat.mul_assoc]
    exact Nat.mul_lt_mul_of_pos_right hlow hP
  · rw [← Nat.mul_assoc]
    exact Nat.mul_le_mul_right P hhigh

theorem CompactOk.retargetBounded_iff {bits : UInt32} (h : CompactOk bits)
    (starts ends : List ℕ) :
    RetargetBounded (targetOf bits) (targetOf (Arkos.adjustDifficulty bits starts ends)) ↔
      RetargetFits bits (clampedTime starts ends) := by
  obtain ⟨hpos, hle, hmpos, hwide, habove⟩ := h
  have hm : compactMantissa bits ≠ 0 := hmpos.ne'
  obtain ⟨scaled, hs⟩ : ∃ scaled,
    compactMantissa bits * clampedTime starts ends / expectedTime = scaled := ⟨_, rfl⟩
  have hbounds := scaled_bounds hs
  have hlt := compactMantissa_lt bits
  have htarget := targetOf_eq hpos hle
  have hprod := hs
  rw [expectedTime_eq] at hprod
  rw [RetargetFits, expectedTime_eq]
  by_cases hcap : 0x1d < compactExp bits ∨ compactExp bits = 0x1d ∧ 0xffffff < scaled
  · -- the cap binds, and the target shrinks by more than the clamp
    have hnew := targetOf_adjustDifficulty_capped hm hpos hs (by omega) hcap
    rw [show 3 - compactExp bits = 0 by omega, pow_zero, Nat.div_one] at htarget
    refine iff_of_false ?_ ?_
    · rintro ⟨hlow, -, -⟩
      rcases hcap with habv | ⟨heq, hover⟩
      · have hpow := Nat.mul_le_mul_left (compactMantissa bits)
          (Nat.pow_le_pow_right (show 0 < 256 by omega) (show 27 ≤ compactExp bits - 3 by omega))
        split_ifs at hnew <;> omega
      · rw [heq] at htarget
        rw [if_pos hover] at hnew
        omega
    · rintro ⟨hexp, hfull, -⟩
      omega
  · have hnew := targetOf_adjustDifficulty hm hpos hs (by omega) (by omega) (by omega)
    by_cases h3 : 3 ≤ compactExp bits
    · have hP : 0 < 256 ^ (compactExp bits - 3) := Nat.pow_pos (by omega)
      refine iff_of_true ?_ ⟨by omega, fun heq => by omega, fun h => by omega⟩
      rw [htarget, targetOf_adjustDifficulty_of_three_le hm hpos hs h3 (by omega) (by omega)
        (by omega), show 3 - compactExp bits = 0 by omega, pow_zero, Nat.div_one, threeBytes]
      refine retargetBounded_mul hP ?_
      split_ifs <;> exact ⟨by omega, by omega, by omega⟩
    · -- both targets are what the division leaves
      generalize compactMantissa bits * clampedTime starts ends = x at hprod ⊢
      rw [RetargetBounded]
      obtain h1 | h2 : compactExp bits = 1 ∨ compactExp bits = 2 := by omega
      · rw [h1] at htarget hnew ⊢
        norm_num at htarget hnew ⊢
        split_ifs at hnew <;> omega
      · have hwide := hwide h2.ge
        rw [h2] at htarget hnew ⊢
        norm_num at htarget hnew ⊢
        omega

/-- **When a retarget changes the target by a factor between an eighth and four.** For every
difficulty reached from a genesis by any sequence of retargets, and every further pair of windows,
it does exactly when the inputs fit. -/
theorem retarget_bounded_iff (genesis : UInt32) (hg : genesis ∈ allGenesisBits)
    (windows : List (List ℕ × List ℕ)) (starts ends : List ℕ) :
    let bits := retargets genesis windows
    RetargetBounded (targetOf bits) (targetOf (adjustDifficulty bits starts ends)) ↔
      RetargetFits bits (clampedTime starts ends) :=
  ((compactOk_of_mem_allGenesisBits hg).retargets windows).retargetBounded_iff starts ends

/-- The first retarget of the main network, after a period of half the expected length. -/
theorem retarget_bounded_iff_mainnet :
    RetargetBounded (targetOf mainnetGenesisBits)
      (targetOf (adjustDifficulty mainnetGenesisBits [0] [195552])) :=
  (retarget_bounded_iff mainnetGenesisBits (by decide) [] [0] [195552]).mpr (by
    rw [RetargetFits]
    decide)

/-- Periods of four times the expected length. -/
def slowPeriods (n : ℕ) : List (List ℕ × List ℕ) := List.replicate n ([0], [1564416])

/-- Four periods of four times the expected length bring the main network to `0x1dffff00`, and the
fifth to `0x1d03fffc`: a target 64 times smaller. -/
theorem retargets_slowPeriods :
    retargets mainnetGenesisBits (slowPeriods 4) = 0x1dffff00 ∧
      retargets mainnetGenesisBits (slowPeriods 5) = 0x1d03fffc := by decide +kernel

/-- So the step is not bounded, on the main network already. -/
theorem not_retarget_bounded :
    ¬ ∀ genesis ∈ allGenesisBits, ∀ (windows : List (List ℕ × List ℕ)) (starts ends : List ℕ),
      RetargetBounded (targetOf (retargets genesis windows))
        (targetOf (adjustDifficulty (retargets genesis windows) starts ends)) := by
  intro h
  have hstep := h mainnetGenesisBits (by decide) (slowPeriods 4) [0] [1564416]
  rw [retargets_slowPeriods.1] at hstep
  have hlow := hstep.1
  revert hlow
  decide +kernel

/-! ### The step is monotone -/

/-- The longer of two periods has the longer clamped time. -/
theorem clampedTime_mono {starts ends starts' ends' : List ℕ}
    (h : medianTimestamp ends - medianTimestamp starts ≤
      medianTimestamp ends' - medianTimestamp starts') :
    clampedTime starts ends ≤ clampedTime starts' ends' :=
  min_le_min_right _ (max_le_max_right _ h)

/-- **When slower blocks do not make mining harder.** A longer period yields at least as large a
target unless the exponent is at its cap, and the mantissa outgrows its three bytes for the longer
period and not for the shorter one. -/
theorem retarget_monotone_iff (bits : UInt32) (hm : compactMantissa bits ≠ 0)
    (hlow : 3 ≤ compactExp bits) (hhigh : compactExp bits ≤ 0x1d)
    (starts ends starts' ends' : List ℕ)
    (htime : medianTimestamp ends - medianTimestamp starts ≤
      medianTimestamp ends' - medianTimestamp starts') :
    targetOf (adjustDifficulty bits starts ends) ≤ targetOf (adjustDifficulty bits starts' ends') ↔
      ¬ (compactExp bits = 0x1d ∧
        compactMantissa bits * clampedTime starts ends < 2 ^ 24 * expectedTime ∧
        2 ^ 24 * expectedTime ≤ compactMantissa bits * clampedTime starts' ends') := by
  have hpos : 1 ≤ compactExp bits := by omega
  have hlt := compactMantissa_lt bits
  have hle := Nat.div_le_div_right (c := expectedTime)
    (Nat.mul_le_mul_left (compactMantissa bits) (clampedTime_mono htime))
  obtain ⟨scaled, hs⟩ : ∃ scaled,
    compactMantissa bits * clampedTime starts ends / expectedTime = scaled := ⟨_, rfl⟩
  obtain ⟨scaled', hs'⟩ : ∃ scaled',
    compactMantissa bits * clampedTime starts' ends' / expectedTime = scaled' := ⟨_, rfl⟩
  have hbounds := scaled_bounds hs
  have hbounds' := scaled_bounds hs'
  rw [hs, hs'] at hle
  -- the two sides of the condition compare the scaled mantissas with the largest one
  have hover := not_congr (scaled_le_iff hs')
  rw [Nat.not_lt, Nat.not_le] at hover
  rw [scaled_le_iff hs, hover]
  by_cases hcap : compactExp bits = 0x1d ∧ 0xffffff < scaled'
  · have hnew' := targetOf_adjustDifficulty_capped hm hpos hs' (by omega) (Or.inr hcap)
    rw [if_pos hcap.2] at hnew'
    by_cases hboth : 0xffffff < scaled
    · -- both are cut in the same way
      have hnew := targetOf_adjustDifficulty_capped hm hpos hs (by omega) (Or.inr ⟨hcap.1, hboth⟩)
      rw [if_pos hboth] at hnew
      rw [hnew, hnew']
      have hdiv := Nat.div_le_div_right (c := 256) hle
      exact iff_of_true (Nat.mul_le_mul_right _ hdiv) (by omega)
    · have hnew := targetOf_adjustDifficulty_of_three_le hm hpos hs hlow (by omega) hhigh
        (fun _ => by omega)
      rw [threeBytes, if_neg hboth, hcap.1] at hnew
      refine iff_of_false ?_ (by omega)
      omega
  · refine iff_of_true ?_ (by omega)
    by_cases hzero' : scaled' = 0
    · -- nothing is left of either mantissa
      have hsame : adjustDifficulty bits starts ends = adjustDifficulty bits starts' ends' := by
        rw [adjustDifficulty_eq hm, adjustDifficulty_eq hm, hs, hs',
          show scaled = scaled' by omega]
      rw [hsame]
    have hnew' := targetOf_adjustDifficulty_of_three_le hm hpos hs' hlow hzero' hhigh
      (fun heq => by omega)
    rw [hnew']
    by_cases hzero : scaled = 0
    · refine (targetOf_adjustDifficulty_le_of_zero hm hs hlow hzero).trans ?_
      refine Nat.le_mul_of_pos_left _ ?_
      rw [threeBytes]
      split_ifs <;> omega
    · rw [targetOf_adjustDifficulty_of_three_le hm hpos hs hlow hzero hhigh (fun heq => by omega)]
      exact Nat.mul_le_mul_right _ (threeBytes_mono hle)

/-- Between the quarter and four times the expected length, at the main network's difficulty. -/
theorem retarget_monotone_iff_mainnet :
    targetOf (adjustDifficulty mainnetGenesisBits [0] [0]) ≤
      targetOf (adjustDifficulty mainnetGenesisBits [0] [2000000]) :=
  (retarget_monotone_iff mainnetGenesisBits (by decide) (by decide) (by decide) [0] [0] [0]
    [2000000] (by decide)).mpr (by decide)

/-- At `0x1dffff00` a period of the expected length keeps the target, and a slower one divides it
by 64. -/
theorem not_retarget_monotone :
    ¬ ∀ (bits : UInt32) (starts ends starts' ends' : List ℕ), compactMantissa bits ≠ 0 →
      3 ≤ compactExp bits → compactExp bits ≤ 0x1d →
      medianTimestamp ends - medianTimestamp starts ≤
        medianTimestamp ends' - medianTimestamp starts' →
      targetOf (adjustDifficulty bits starts ends) ≤
        targetOf (adjustDifficulty bits starts' ends') := by
  intro h
  have hle := h 0x1dffff00 [0] [391104] [0] [1564416] (by decide) (by decide)
    (by decide) (by decide)
  revert hle
  decide +kernel

end Arkos
