import Arkos.Blockchain.IdleChain
import Arkos.Lib.OrderStatistic

/-!
# Medians of timestamps

Two places of the source take the middle of a sorted window of timestamps: the time a new block has
to beat is the median of the last eleven, and the length of a difficulty period is measured between
the medians of two windows around its ends. Both take the later middle entry of an even window.

By the counting rule of `Arkos.Lib.OrderStatistic` such a median is below `t` exactly when more than
half of the window is. A window that takes in a timestamp above its median, and perhaps lets go of
its oldest one, therefore has no smaller median: individual timestamps may go back, the median past
time does not. And a window in which few entries are forged has its median between two honest ones.

## Main definitions

* `MedianNeverFalls` — along the beginnings of a chain
* `startWindow`, `endWindow` — what a retarget looks at
* `Forged`, `WithinRange`

## Main results

* `ValidChain.medianNeverFalls`, `Blockchain.median_past_time_never_falls`
* `time_warp_resistance`
-/

namespace Arkos

/-! ### The middle of a window -/

theorem sortedMiddle_lt_iff {ts : List ℕ} (hne : ts ≠ []) {t : ℕ} :
    sortedMiddle ts < t ↔ ts.length / 2 < ts.countP (· < t) :=
  getD_insertionSort_lt_iff ts (Nat.div_lt_self (List.length_pos_iff.mpr hne) (by omega)) 0 t

theorem sortedMiddle_le_iff {ts : List ℕ} (hne : ts ≠ []) {t : ℕ} :
    sortedMiddle ts ≤ t ↔ ts.length / 2 < ts.countP (· ≤ t) :=
  getD_insertionSort_le_iff ts (Nat.div_lt_self (List.length_pos_iff.mpr hne) (by omega)) 0 t

/-- A window that takes in an entry above its middle, and gives up some others without getting
shorter, has no smaller middle. -/
theorem sortedMiddle_le_cons {ts ws : List ℕ} {t : ℕ} (hne : ts ≠ []) (hsub : ws.Sublist ts)
    (hlen : ts.length ≤ ws.length + 1) (ht : sortedMiddle ts < t) :
    sortedMiddle ts ≤ sortedMiddle (t :: ws) := by
  by_contra hlt
  have hnew := (sortedMiddle_lt_iff (List.cons_ne_nil t ws)).mp (Nat.not_le.mp hlt)
  have hold : ¬ sortedMiddle ts < sortedMiddle ts := lt_irrefl _
  rw [sortedMiddle_lt_iff hne] at hold
  -- the new entry is not below the old middle, and the others were there before
  rw [List.countP_cons_of_neg (by simpa using ht.le), List.length_cons] at hnew
  have hcount := hsub.countP_le (p := fun x => decide (x < sortedMiddle ts))
  omega

/-! ### The median past time of a chain -/

theorem medianPastTimeForBlocks_append_singleton (bs : List Block) (b : Block) :
    medianPastTimeForBlocks (bs ++ [b]) =
      sortedMiddle (b.header.timestamp.toNat :: timestamps (bs.reverse.take 10)) := by
  rw [medianPastTimeForBlocks, List.reverse_append, List.reverse_singleton, List.singleton_append,
    List.take_succ_cons]
  rfl

theorem medianPastTimeForBlocks_le_append {bs : List Block} {b : Block} (hne : bs ≠ [])
    (h : medianPastTimeForBlocks bs < b.header.timestamp.toNat) :
    medianPastTimeForBlocks bs ≤ medianPastTimeForBlocks (bs ++ [b]) := by
  have hpos := List.length_pos_iff.mpr hne
  rw [medianPastTimeForBlocks_append_singleton]
  refine sortedMiddle_le_cons (fun hnil => ?_) ?_ ?_ h
  · have hlen := congrArg List.length hnil
    simp only [timestamps, List.length_map, List.length_take, List.length_reverse,
      List.length_nil] at hlen
    omega
  · exact (List.take_sublist_take_left (by omega)).map _
  · simp only [timestamps, List.length_map, List.length_take, List.length_reverse]
    omega

/-- Along the beginnings of the chain, the median past time does not decrease. -/
def MedianNeverFalls (bs : List Block) : Prop :=
  ∀ n, 0 < n → n < bs.length →
    medianPastTimeForBlocks (bs.take n) ≤ medianPastTimeForBlocks (bs.take (n + 1))

theorem MedianNeverFalls.append_singleton {bs : List Block} {b : Block} (h : MedianNeverFalls bs)
    (hb : medianPastTimeForBlocks bs < b.header.timestamp.toNat) :
    MedianNeverFalls (bs ++ [b]) := by
  intro n hpos hn
  rw [List.length_append, List.length_singleton] at hn
  by_cases hlt : n < bs.length
  · rw [List.take_append_of_le_length hlt.le, List.take_append_of_le_length hlt]
    exact h n hpos hlt
  · obtain rfl : n = bs.length := by omega
    have hne : bs ≠ [] := List.length_pos_iff.mp hpos
    rw [List.take_left, List.take_of_length_le (by simp)]
    exact medianPastTimeForBlocks_le_append hne hb

variable {C : Crypto} {magic : UInt32} {T : Set ℕ} {g : Block}

theorem ValidChain.medianNeverFalls {bs : List Block} (h : ValidChain C magic T g bs) :
    MedianNeverFalls bs := by
  induction h with
  | genesis =>
    intro n hpos hn
    rw [List.length_singleton] at hn
    omega
  | snoc _ _ _ hext ih =>
    obtain ⟨u, m, -, hctx⟩ := hext.context
    exact ih.append_singleton hctx.median_lt

/-- The clock bounds every timestamp but that of the genesis. -/
theorem ValidChain.timestamp_lt {t : ℕ} (hg : g.header.timestamp.toNat < t)
    (hT : ∀ now ∈ T, now + 7200 < t) {bs : List Block} (h : ValidChain C magic T g bs) :
    ∀ b ∈ bs, b.header.timestamp.toNat < t := by
  induction h with
  | genesis => simpa using hg
  | @snoc bs b now _ hnow _ hext ih =>
    obtain ⟨u, m, -, hctx⟩ := hext.context
    intro x hx
    rcases List.mem_append.mp hx with hx | hx
    · exact ih x hx
    · rw [List.mem_singleton.mp hx]
      exact hctx.timestamp_le.trans_lt (hT now hnow)

namespace Blockchain

/-- **The median past time never goes back.** On the active chain of every state a run reaches, and
on the chain of every block the run records, it does not decrease from one block to the next; and
the timestamp proposed for the next block is later than that of the tip. The proposal is computed in
64 bits, in which it fits as long as the clock is not within two hours of the last word. -/
theorem median_past_time_never_falls (hg : g.height = 0) (store : Option BlockStore)
    (magic : UInt32) (evs : List Event)
    (hnc : NoCollision C (g :: recorded C (fromGenesisWithMagic C g store magic) evs)) :
    let s := run C (fromGenesisWithMagic C g store magic) evs
    let hist := g :: recorded C (fromGenesisWithMagic C g store magic) evs
    MedianNeverFalls s.blocks ∧
      (∀ b ∈ hist, ∃ bs, ValidChain C magic Set.univ g bs ∧ bs.getLast? = some b ∧
        (∀ x ∈ bs, x ∈ hist) ∧ MedianNeverFalls bs) ∧
      (∀ now, s.medianPastTime < s.nextBlockTimestamp now) ∧
      ((∀ now b, .addBlock now b ∈ evs → now + 7200 < 2 ^ 64 - 1) →
        g.header.timestamp.toNat < 2 ^ 64 - 1 → ∀ now < 2 ^ 64,
          (UInt64.ofNat (s.nextBlockTimestamp now)).toNat = s.nextBlockTimestamp now) := by
  intro s hist
  have hinv : Inv C magic Set.univ g hist s := inv_run hg store magic evs hnc
  refine ⟨hinv.active.medianNeverFalls, fun b hb => ?_, fun now => ?_,
    fun hclock hgt now hnow => ?_⟩
  · obtain ⟨bs, hbs, hlast, hsub⟩ := hinv.history b hb
    exact ⟨bs, hbs, hlast, hsub, hbs.medianNeverFalls⟩
  · rw [nextBlockTimestamp]
    omega
  · -- the same run, with the clock readings bounded
    have hbounded : Inv C magic {t | t + 7200 < 2 ^ 64 - 1} g hist s :=
      (inv_fromGenesisWithMagic store).run hg hclock fun _ hsub hh =>
        separated_of_noCollision hh (hnc.mono hsub)
    have hmed : s.medianPastTime < 2 ^ 64 - 1 :=
      medianPastTimeForBlocks_lt
        (hbounded.active.timestamp_lt hgt fun _ ht => ht) (by norm_num)
    rw [UInt64.toNat_ofNat', Nat.mod_eq_of_lt, nextBlockTimestamp]
    rw [nextBlockTimestamp]
    omega

/-- A run of two blocks. -/
theorem median_past_time_never_falls_idleChain :
    MedianNeverFalls (run Crypto.sample
      (fromGenesisWithMagic Crypto.sample sampleGenesis none regtestMagic)
      (deliver (fun _ => sampleNow) 0 (idleChain 1).tail)).blocks :=
  (median_past_time_never_falls rfl none regtestMagic _
    ((sampleChain_idleChain (by norm_num)).noCollision_recorded
      (noCollision_idleChain (by norm_num)))).1

end Blockchain

/-! ### Forged timestamps -/

/-- `ts'` is `ts` with other entries at the positions `S`. -/
structure Forged (ts ts' : List ℕ) (S : Finset ℕ) : Prop where
  length_eq : ts'.length = ts.length
  agree : ∀ i ∉ S, ts'[i]? = ts[i]?

/-- Between the least and the greatest of the entries `us`. -/
def WithinRange (us : List ℕ) (t : ℕ) : Prop :=
  ∃ lo hi, us.min? = some lo ∧ us.max? = some hi ∧ lo ≤ t ∧ t ≤ hi

/-- The blocks around the start of the period that ends below `height`. -/
def startWindow (blocks : List Block) (height : ℕ) : List Block :=
  let intervalStart := height - difficultyAdjustmentInterval
  blockWindow blocks (intervalStart - 5) (min (intervalStart + 5) (blocks.length - 1))

/-- The last eleven blocks. -/
def endWindow (blocks : List Block) : List Block :=
  blockWindow blocks (blocks.length - 1 - 10) (blocks.length - 1)

theorem nextBitsForBlocks_of_retarget {bs : List Block} {p : Block} (hp : bs.getLast? = some p)
    (hheight : (p.height + 1) % difficultyAdjustmentInterval = 0) :
    nextBitsForBlocks bs = adjustDifficulty p.header.bits
      (timestamps (startWindow bs (p.height + 1))) (timestamps (endWindow bs)) := by
  rw [nextBitsForBlocks, hp]
  exact if_neg (not_not.mpr hheight)

theorem length_blockWindow {bs : List Block} {lo hi : ℕ} (hhi : hi < bs.length) :
    (blockWindow bs lo hi).length = hi + 1 - lo := by
  rw [blockWindow, List.length_take, List.length_drop]
  omega

theorem medianTimestamp_of_ne_nil {ts : List ℕ} (hne : ts ≠ []) :
    medianTimestamp ts = sortedMiddle ts := if_neg hne

/-- **A minority of forged entries leaves the median between honest ones.** The bound is the number
of entries from the middle on. -/
theorem Forged.withinRange {ts ts' : List ℕ} {S : Finset ℕ} (h : Forged ts ts' S)
    (hS : S.card < ts.length - ts.length / 2) :
    WithinRange (untouched ts S) (medianTimestamp ts') := by
  have hlen := h.length_eq
  have hne : ts' ≠ [] := by
    rintro rfl
    rw [List.length_nil] at hlen
    omega
  have hmem : ∀ {x}, x ∈ untouched ts' S ↔ x ∈ untouched ts S := untouched_congr h.agree
  -- more than half of the entries are honest, so there is one
  have hsome : untouched ts S ≠ [] := by
    intro hnil
    have := countP_le_card_of_untouched (l := ts') (S := S) (p := fun _ => true) fun x hx => by
      rw [hmem, hnil] at hx
      cases hx
    rw [List.countP_true] at this
    omega
  obtain ⟨lo, hlo⟩ := Option.isSome_iff_exists.mp (List.isSome_min?_of_ne_nil hsome)
  obtain ⟨hi, hhi⟩ := Option.isSome_iff_exists.mp (List.isSome_max?_of_ne_nil hsome)
  refine ⟨lo, hi, hlo, hhi, ?_, ?_⟩
  · by_contra hlt
    rw [medianTimestamp_of_ne_nil hne, Nat.not_le, sortedMiddle_lt_iff hne] at hlt
    have hcount := countP_le_card_of_untouched (l := ts') (S := S)
      (p := fun x => decide (x < lo)) fun x hx => by
        have := (List.min?_eq_some_iff.mp hlo).2 x (hmem.mp hx)
        simpa using this
    omega
  · rw [medianTimestamp_of_ne_nil hne, sortedMiddle_le_iff hne]
    have hcount := length_le_countP_add_card (l := ts') (S := S)
      (p := fun x => decide (x ≤ hi)) fun x hx => by
        have := (List.max?_eq_some_iff.mp hhi).2 x (hmem.mp hx)
        simpa using this
    omega

/-- At a retarget the end of the period is measured on eleven blocks. -/
theorem length_endWindow {bs : List Block} (h : 11 ≤ bs.length) : (endWindow bs).length = 11 := by
  rw [endWindow, length_blockWindow (by omega)]
  omega

/-- So is its start, except that the first period has no blocks before it. -/
theorem length_startWindow {bs : List Block} (hpos : 0 < bs.length)
    (h : bs.length % difficultyAdjustmentInterval = 0) :
    (startWindow bs bs.length).length =
      if bs.length = difficultyAdjustmentInterval then 6 else 11 := by
  rw [difficultyAdjustmentInterval] at h ⊢
  rw [startWindow, length_blockWindow (by omega), difficultyAdjustmentInterval]
  split <;> omega

theorem length_timestamps (bs : List Block) : (timestamps bs).length = bs.length :=
  List.length_map _

/-- **Time-warp resistance.** Fewer forged timestamps than there are from the middle of a window on
leave its median between the least and the greatest of the others. A retarget measures its period
between the medians of two windows of eleven blocks, so five forged timestamps in each move neither
end out of the honest range; in the first period, which starts with a window of six, two do not. -/
theorem time_warp_resistance :
    (∀ (ts ts' : List ℕ) (S : Finset ℕ) (k : ℕ), ts ≠ [] → Forged ts ts' S → S.card ≤ k →
      k < ts.length - ts.length / 2 → WithinRange (untouched ts S) (medianTimestamp ts')) ∧
    ∀ (bs : List Block) (tip : Block), bs.getLast? = some tip → tip.height + 1 = bs.length →
      bs.length % difficultyAdjustmentInterval = 0 →
      nextBitsForBlocks bs = adjustDifficulty tip.header.bits
        (timestamps (startWindow bs bs.length)) (timestamps (endWindow bs)) ∧
      (endWindow bs).length = 11 ∧
      (startWindow bs bs.length).length =
        (if bs.length = difficultyAdjustmentInterval then 6 else 11) ∧
      (∀ honest S, Forged honest (timestamps (endWindow bs)) S → S.card ≤ 5 →
        WithinRange (untouched honest S) (medianTimestamp (timestamps (endWindow bs)))) ∧
      ∀ honest S, Forged honest (timestamps (startWindow bs bs.length)) S →
        S.card ≤ (if bs.length = difficultyAdjustmentInterval then 2 else 5) →
        WithinRange (untouched honest S)
          (medianTimestamp (timestamps (startWindow bs bs.length))) := by
  refine ⟨fun ts ts' S k _ hforged hS hk => hforged.withinRange (hS.trans_lt hk),
    fun bs tip htip hheight hretarget => ?_⟩
  have hpos : 0 < bs.length := by omega
  have hlong : 11 ≤ bs.length := by
    rw [difficultyAdjustmentInterval] at hretarget
    omega
  have hend := length_endWindow hlong
  have hstart := length_startWindow hpos hretarget
  refine ⟨?_, hend, hstart, fun honest S hforged hS => ?_, fun honest S hforged hS => ?_⟩
  · rw [nextBitsForBlocks_of_retarget htip (hheight ▸ hretarget), hheight]
  · refine hforged.withinRange ?_
    rw [← hforged.length_eq, length_timestamps, hend]
    omega
  · refine hforged.withinRange ?_
    rw [← hforged.length_eq, length_timestamps, hstart]
    split at hS
    · next hfirst =>
      rw [if_pos hfirst]
      omega
    · next hlater =>
      rw [if_neg hlater]
      omega

/-- A window of six with its two last entries forged, and the windows of a first period of blocks
that are all alike. -/
theorem time_warp_resistance_twoForged :
    WithinRange [10, 20, 30, 40] (medianTimestamp [10, 20, 30, 40, 0, 900]) ∧
      nextBitsForBlocks (List.replicate 2016 { sampleGenesis with height := 2015 }) =
        adjustDifficulty regtestGenesisBits
          (timestamps (startWindow
            (List.replicate 2016 { sampleGenesis with height := 2015 }) 2016))
          (timestamps (endWindow (List.replicate 2016 { sampleGenesis with height := 2015 }))) := by
  refine ⟨?_, ?_⟩
  · exact time_warp_resistance.1 [10, 20, 30, 40, 50, 60] [10, 20, 30, 40, 0, 900] {4, 5} 2
      (by simp) ⟨rfl, fun i hi => by
        rcases Nat.lt_or_ge i 6 with h | h
        · interval_cases i <;> simp_all
        · rw [List.getElem?_eq_none (by simpa using h), List.getElem?_eq_none (by simpa using h)]⟩
      (by decide) (by decide)
  · have hlen : (List.replicate 2016 { sampleGenesis with height := 2015 }).length = 2016 :=
      List.length_replicate
    have h := (time_warp_resistance.2 (List.replicate 2016 { sampleGenesis with height := 2015 })
      { sampleGenesis with height := 2015 } (List.getLast?_replicate.trans (by simp)) (by rw [hlen])
      (by rw [hlen]; rfl)).1
    rw [hlen] at h
    exact h

end Arkos
