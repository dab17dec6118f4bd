import Arkos.Blockchain.Ancestry
import Arkos.Blockchain.MedianTime

/-!
# Windows of a chain

The median past time and the difficulty of the next block index into the chain by position, and at
a retarget one bound is a height. `medianPastTimeForBlocksChecked` and `nextBitsForBlocksChecked`
are the same functions with a check at every index and every slice. On a branch, where positions are
heights, no check fails, and the window at the start of a period has the blocks whose heights are
within five of the period's first.

The chains a node computes these on come from `chain_to_hash`. That they are branches, in every
state and for every block the walk succeeds from, is where the safety rests.

## Main definitions

* `sliceChecked`, `medianPastTimeForBlocksChecked`, `nextBitsForBlocksChecked`

## Main results

* `nextBitsForBlocksChecked_eq` — no check fails where the last height is the last position
* `Branch.startWindow_eq_filter`, `endWindow_eq_drop`
* `Blockchain.retarget_windows_in_range`
-/

namespace Arkos

/-- The blocks `lo ..= hi`, unless one of the two is out of range or the slice is empty. -/
def sliceChecked (blocks : List Block) (lo hi : ℕ) : Option (List Block) :=
  if lo ≤ hi ∧ hi < blocks.length then some (blockWindow blocks lo hi) else none

/-- `median_past_time_for_blocks` with the check of its index. -/
def medianPastTimeForBlocksChecked (blocks : List Block) : Option ℕ :=
  let ts := timestamps (blocks.reverse.take 11)
  (ts.insertionSort (· ≤ ·))[ts.length / 2]?

/-- `next_bits_for_blocks` with the checks of its slices. -/
def nextBitsForBlocksChecked (blocks : List Block) : Option UInt32 := do
  let tip ← blocks.getLast?
  let height := tip.height + 1
  if height % difficultyAdjustmentInterval ≠ 0 then some tip.header.bits
  else
    let intervalStart := height - difficultyAdjustmentInterval
    let startWindow ← sliceChecked blocks (intervalStart - 5)
      (min (intervalStart + 5) (blocks.length - 1))
    let tipIdx := blocks.length - 1
    let endWindow ← sliceChecked blocks (tipIdx - 10) tipIdx
    some (adjustDifficulty tip.header.bits (timestamps startWindow) (timestamps endWindow))

theorem sliceChecked_of_lt {blocks : List Block} {lo hi : ℕ} (hle : lo ≤ hi)
    (hlt : hi < blocks.length) : sliceChecked blocks lo hi = some (blockWindow blocks lo hi) :=
  if_pos ⟨hle, hlt⟩

/-- The index of the median is in range as soon as there is a block. -/
theorem medianPastTimeForBlocksChecked_eq {bs : List Block} (hne : bs ≠ []) :
    medianPastTimeForBlocksChecked bs = some (medianPastTimeForBlocks bs) := by
  have hpos := List.length_pos_iff.mpr hne
  have hlen : (timestamps (bs.reverse.take 11)).length = min 11 bs.length := by
    rw [length_timestamps, List.length_take, List.length_reverse]
  have hlt : (timestamps (bs.reverse.take 11)).length / 2 <
      ((timestamps (bs.reverse.take 11)).insertionSort (· ≤ ·)).length := by
    rw [List.length_insertionSort, hlen]
    omega
  rw [medianPastTimeForBlocksChecked, medianPastTimeForBlocks, sortedMiddle,
    List.getD_eq_getElem?_getD, List.getElem?_eq_getElem hlt, Option.getD_some]

/-- **No check fails** on a list whose last block has the height of its position. -/
theorem nextBitsForBlocksChecked_eq {bs : List Block} {tip : Block} (htip : bs.getLast? = some tip)
    (hheight : tip.height + 1 = bs.length) :
    nextBitsForBlocksChecked bs = some (nextBitsForBlocks bs) := by
  rw [nextBitsForBlocksChecked, nextBitsForBlocks, htip, Option.bind_eq_bind, Option.bind_some]
  dsimp only
  split
  · rfl
  · next hretarget =>
    rw [difficultyAdjustmentInterval] at hretarget ⊢
    rw [sliceChecked_of_lt (by omega) (by omega), sliceChecked_of_lt (by omega) (by omega)]
    rfl

/-- The window at the end of a period has the last eleven blocks. -/
theorem endWindow_eq_drop {bs : List Block} (hne : bs ≠ []) :
    endWindow bs = bs.drop (bs.length - 11) := by
  have hpos := List.length_pos_iff.mpr hne
  rw [endWindow, blockWindow, List.take_of_length_le (by rw [List.length_drop]; omega),
    Nat.sub_sub]

variable {C : Crypto} {g : Block} {hist bs : List Block}

/-- **The window at the start of a period is a window of heights**: within five of the height the
period began at, as far as the chain reaches. -/
theorem Branch.startWindow_eq_filter (h : Branch C g hist bs) (height : ℕ) :
    startWindow bs height = bs.filter fun b =>
      decide (height - difficultyAdjustmentInterval ≤ b.height + 5 ∧
        b.height ≤ height - difficultyAdjustmentInterval + 5) := by
  have hstretch := filter_eq_take_drop (f := Block.height) (l := bs) (n := 0)
    (fun i b hb => (h.height_eq i b hb).trans (Nat.zero_add i).symm)
    (height - difficultyAdjustmentInterval - 5)
    (min (height - difficultyAdjustmentInterval + 5) (bs.length - 1))
  rw [Nat.sub_zero, Nat.max_eq_left (Nat.zero_le _)] at hstretch
  rw [startWindow, blockWindow, ← hstretch]
  refine List.filter_congr fun b hb => ?_
  -- no block is higher than the last position
  obtain ⟨i, hi⟩ := List.getElem?_of_mem hb
  have hb' := h.height_eq i b hi
  have hlt := (List.getElem?_eq_some_iff.mp hi).1
  rw [decide_eq_decide]
  omega

namespace Blockchain

variable {s : Blockchain}

/-- **Retarget windows are in range.** In every state of a node, on the chain of every block the
walk succeeds from, the median past time and the next difficulty never index out of range and never
take an empty slice. The next difficulty is the parent's unless the next height is a multiple of the
interval; then it is adjusted between the blocks within five of the height the period began at, of
which there are eleven, or six when that is the genesis, and the last eleven. -/
theorem retarget_windows_in_range (h : Reached C g hist s) (hnc : NoCollision C hist)
    {hash : String} (hwalk : s.chainToHash hash = .ok bs) :
    medianPastTimeForBlocksChecked bs = some (medianPastTimeForBlocks bs) ∧
    nextBitsForBlocksChecked bs = some (nextBitsForBlocks bs) ∧
    ∃ parent, s.allBlocks.lookup hash = some parent ∧ bs.getLast? = some parent ∧
      parent.height + 1 = bs.length ∧
      ((parent.height + 1) % difficultyAdjustmentInterval ≠ 0 →
        nextBitsForBlocks bs = parent.header.bits) ∧
      ((parent.height + 1) % difficultyAdjustmentInterval = 0 →
        ∃ starts ends, nextBitsForBlocks bs =
            adjustDifficulty parent.header.bits (timestamps starts) (timestamps ends) ∧
          (starts = bs.filter fun b =>
            decide (parent.height + 1 - difficultyAdjustmentInterval ≤ b.height + 5 ∧
              b.height ≤ parent.height + 1 - difficultyAdjustmentInterval + 5)) ∧
          starts.length =
            (if parent.height + 1 = difficultyAdjustmentInterval then 6 else 11) ∧
          ends = bs.drop (bs.length - 11) ∧ ends.length = 11) := by
  obtain ⟨parent, hparent, hlast, hbranch⟩ := h.ancestry.branch_of_chainToHash hnc hwalk
  have hheight := hbranch.height_getLast? hlast
  have hne : bs ≠ [] := chainToHash_ne_nil hwalk
  refine ⟨medianPastTimeForBlocksChecked_eq hne, nextBitsForBlocksChecked_eq hlast hheight, parent,
    hparent, hlast, hheight, nextBitsForBlocks_of_getLast? hlast, fun hretarget => ?_⟩
  have hlong : 11 ≤ bs.length := by
    rw [difficultyAdjustmentInterval] at hretarget
    omega
  have hstarts := length_startWindow (List.length_pos_iff.mpr hne) (hheight ▸ hretarget)
  rw [← hheight] at hstarts
  exact ⟨_, _, nextBitsForBlocks_of_retarget hlast hretarget, hbranch.startWindow_eq_filter _,
    hstarts, endWindow_eq_drop hne, length_endWindow hlong⟩

/-- A chain of a hundred blocks, delivered to a new node. -/
theorem retarget_windows_in_range_idleChain :
    medianPastTimeForBlocksChecked (idleChain 98) = some (medianPastTimeForBlocks (idleChain 98)) ∧
      nextBitsForBlocksChecked (idleChain 98) = some (nextBitsForBlocks (idleChain 98)) := by
  obtain ⟨hist, s, hs, hnc, hinv, hblocks⟩ := exists_reached_of_sampleChain
    (sampleChain_idleChain (n := 98) (by norm_num)) (by norm_num)
    (noCollision_idleChain (by norm_num))
  have hwindows := retarget_windows_in_range hs hnc (hinv.chainToHash_tip rfl)
  rw [hblocks] at hwindows
  exact ⟨hwindows.1, hwindows.2.1⟩

end Blockchain

end Arkos
