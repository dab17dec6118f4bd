import Mathlib.Algebra.BigOperators.Intervals
import Mathlib.Algebra.Order.BigOperators.Group.Finset
import Arkos.Blockchain.Branch

/-!
# What a chain issues

A coinbase pays two things into one sum: new coins, and the fees its block collects. The validator
takes the two apart, and what is left after the fees is bounded by the reward of the height. Rewards
halve every 488004 blocks and are cut to whole arkes each time, so their total over all heights is a
finite sum of 64 terms; it falls short of the cap by 10160620 arkes.

The running total does not take them apart. `total_minted` adds the whole coinbase value, so every
fee that is claimed counts as issued once more, and the supply that remains for later rewards
shrinks by it.

## Main definitions

* `blockFees` — the validator's fee total of a block on top of a chain
* `issued` — what the coinbases of a chain pay beyond the fees
* `scheduled` — the rewards of the first heights
* `CountsIssuance` — the counter holds what was issued

## Main results

* `scheduled_lt`, `ValidChain.issued_le`
* `Blockchain.emission_bounded` — no branch issues more than the schedule
* `Blockchain.counts_issuance_iff` — the counter holds what was issued exactly if no fee was paid
-/

namespace Arkos

variable {C : Crypto} {magic : UInt32} {T : Set ℕ} {g : Block} {bs : List Block}

/-! ### The schedule -/

/-- The rewards of the heights below `n`. -/
def scheduled (n : ℕ) : ℕ := ∑ h ∈ Finset.range n, Block.blockReward h

theorem scheduled_mono {n n' : ℕ} (h : n ≤ n') : scheduled n ≤ scheduled n' :=
  Finset.sum_le_sum_of_subset (Finset.range_subset_range.mpr h)

/-- Over whole eras, a quantity that is constant in each era. -/
theorem sum_range_mul_div {era : ℕ} (hera : 0 < era) (f : ℕ → ℕ) (k : ℕ) :
    ∑ h ∈ Finset.range (era * k), f (h / era) = era * ∑ e ∈ Finset.range k, f e := by
  induction k with
  | zero => rfl
  | succ k ih =>
    have hlast : ∑ x ∈ Finset.range era, f ((era * k + x) / era) = era * f k := by
      rw [Finset.sum_const_nat fun x hx => by
        rw [Nat.mul_add_div hera, Nat.div_eq_of_lt (Finset.mem_range.mp hx), Nat.add_zero],
        Finset.card_range]
    rw [Nat.mul_succ, Finset.sum_range_add, ih, hlast, Finset.sum_range_succ, Nat.mul_add]

/-- The reward of an era. -/
def eraReward (halvings : ℕ) : ℕ := if 64 ≤ halvings then 0 else blockRewardInitial / 2 ^ halvings

theorem scheduled_eras (k : ℕ) :
    scheduled (halvingInterval * k) = halvingInterval * ∑ e ∈ Finset.range k, eraReward e :=
  sum_range_mul_div (by decide) eraReward k

/-- **The schedule stays below the cap.** The first 64 eras are added up, and the others pay
nothing. -/
theorem scheduled_lt (n : ℕ) : scheduled n < maxSupplyArkes := by
  have htotal : ∑ e ∈ Finset.range 64, eraReward e = 64376369845 := by decide +kernel
  have hrest : ∑ e ∈ Finset.range n, eraReward (64 + e) = 0 :=
    Finset.sum_eq_zero fun e _ => if_pos (Nat.le_add_right 64 e)
  have hle : n ≤ halvingInterval * (64 + n) := by
    rw [halvingInterval]
    omega
  calc scheduled n ≤ scheduled (halvingInterval * (64 + n)) := scheduled_mono hle
    _ = halvingInterval * (64376369845 + 0) := by
      rw [scheduled_eras, Finset.sum_range_add, htotal, hrest]
    _ < maxSupplyArkes := by decide

/-! ### What a chain issues -/

/-- The fees of `b` on top of `bs`, as the validator adds them up: against what the replay of `bs`
left, and zero where it refuses the block. -/
def blockFees (C : Crypto) (magic : UInt32) (bs : List Block) (b : Block) : ℕ :=
  match replay C bs with
  | .error _ => 0
  | .ok (u, _) =>
    match totalFees C u magic b.height b.transactions.tail with
    | .error _ => 0
    | .ok fees => fees

/-- What the coinbases of a chain pay beyond the fees of their blocks. -/
def issued (C : Crypto) (magic : UInt32) (bs : List Block) : ℕ :=
  sumAlong (fun pre b => coinbaseValue b - blockFees C magic pre b) [] bs

theorem issued_append_singleton (bs : List Block) (b : Block) :
    issued C magic (bs ++ [b]) =
      issued C magic bs + (coinbaseValue b - blockFees C magic bs b) :=
  sumAlong_append_singleton _ [] bs b

theorem blockFees_of_feesOf {u : UtxoSet} {m : ℕ} (hrep : replay C bs = .ok (u, m)) {b : Block}
    {fees : List ℕ} (hfees : FeesOf C u magic b.height b.transactions.tail fees)
    (hlt : fees.sum < 2 ^ 64) : blockFees C magic bs b = fees.sum := by
  have htotal := totalFees_eq_ok_iff.mpr ⟨fees, hfees, rfl, hlt⟩
  rw [blockFees, hrep]
  dsimp only
  rw [htotal]

/-- A block of a coinbase alone collects nothing. -/
theorem blockFees_of_tail_nil {b : Block} (h : b.transactions.tail = []) :
    blockFees C magic bs b = 0 := by
  rw [blockFees, h]
  split
  · rfl
  · rfl

/-- **One block** issues at most the reward of its height. -/
theorem Extends.issue_le {now : ℕ} {b : Block} (h : Extends C magic now bs b) :
    coinbaseValue b - blockFees C magic bs b ≤ Block.blockReward b.height := by
  obtain ⟨u, m, hrep, hctx⟩ := h.context
  obtain ⟨fees, hfees, hlt, hle⟩ := hctx.subsidy_ok
  have hsat := saturatingAdd_le (w := 64) (a := cappedReward b.height m) (b := fees.sum)
  have hcapped : cappedReward b.height m ≤ Block.blockReward b.height := Nat.min_le_left _ _
  rw [blockFees_of_feesOf hrep hfees hlt]
  omega

theorem coinbaseValue_genesis (hgtxs : g.transactions = [genesisCoinbase]) :
    coinbaseValue g = Block.blockReward 0 := by
  rw [coinbaseValue, hgtxs]
  decide

/-- **A valid chain issues at most the rewards of its heights.** -/
theorem ValidChain.issued_le (hg : g.height = 0) (hgtxs : g.transactions = [genesisCoinbase])
    (h : ValidChain C magic T g bs) : issued C magic bs ≤ scheduled bs.length := by
  induction h with
  | genesis =>
    have hissued : issued C magic [g] = coinbaseValue g - blockFees C magic [] g := rfl
    have hone : scheduled [g].length = Block.blockReward 0 := Finset.sum_range_one _
    rw [hissued, hone, coinbaseValue_genesis hgtxs]
    exact Nat.sub_le _ _
  | @snoc bs b now hbs _ _ hext ih =>
    obtain ⟨p, hp, -, hheight⟩ := hext.parent
    have hlen := hbs.height_getLast? hg hp
    have hissue := hext.issue_le
    have hnext : scheduled (bs.length + 1) = scheduled bs.length + Block.blockReward bs.length :=
      Finset.sum_range_succ _ _
    rw [hheight, hlen] at hissue
    rw [issued_append_singleton, List.length_append, List.length_singleton, hnext]
    exact Nat.add_le_add ih hissue

namespace Blockchain

/-- **The emission schedule respects the cap.** Every branch of recorded blocks, of any length,
issues at most the rewards of its heights, and these stay below the cap for ever. -/
theorem emission_bounded (C : Crypto) (fuel : ℕ) (bits : UInt32) (g : Block)
    (hgen : genesisBlockWithBits C fuel bits = some g) (store : Option BlockStore) (magic : UInt32)
    (evs : List Event)
    (hnc : NoCollision C (g :: recorded C (fromGenesisWithMagic C g store magic) evs)) :
    (∀ bs, Branch C g (g :: recorded C (fromGenesisWithMagic C g store magic) evs) bs →
      issued C magic bs ≤ ∑ h ∈ Finset.range bs.length, Block.blockReward h) ∧
    ∀ n, ∑ h ∈ Finset.range n, Block.blockReward h < maxSupplyArkes := by
  obtain ⟨hg, hgtxs⟩ := genesisBlockWithBits_spec hgen
  have hinv := inv_run hg store magic evs hnc
  exact ⟨fun bs hbs => (hbs.validChain hg hinv.history hinv.separated).issued_le hg hgtxs,
    scheduled_lt⟩

/-- A payment with a fee: the coinbase claims the fee and no reward, and nothing is issued. -/
theorem emission_bounded_feeChain :
    issued Crypto.sample regtestMagic feeChain ≤ ∑ h ∈ Finset.range 102, Block.blockReward h := by
  obtain ⟨s, -, hrun, -, hblocks, -⟩ := sampleChain_feeChain.run_deliver (by decide)
  have hnc := sampleChain_feeChain.noCollision_recorded noCollision_feeChain
  have hinv := inv_run rfl none regtestMagic _ hnc
  rw [hrun] at hinv
  have hbranch := sampleChain_feeChain.valid.branch rfl fun x hx => hinv.mem_hist (hblocks ▸ hx)
  have hissued := (emission_bounded Crypto.sample 1 regtestGenesisBits sampleGenesis
    genesisBlockWithBits_sample none regtestMagic _ hnc).1 feeChain hbranch
  rwa [sampleChain_feeChain.length_eq] at hissued

/-! ### What the counter holds -/

/-- The counter holds what the active chain issued, and the supply that remains and the rewards that
are still paid are computed from it. -/
structure CountsIssuance (C : Crypto) (s : Blockchain) : Prop where
  totalMinted_eq : s.totalMinted = issued C s.networkMagic s.blocks
  remainingSupply_eq : s.remainingSupply = maxSupplyArkes - issued C s.networkMagic s.blocks
  cappedBlockReward_eq : ∀ height, s.cappedBlockReward height =
    min (Block.blockReward height) (maxSupplyArkes - issued C s.networkMagic s.blocks)

/-- Every coinbase of the chain claims at least the fees of its block. -/
def ClaimsFees (C : Crypto) (magic : UInt32) (bs : List Block) : Prop :=
  ∀ pre b, pre ++ [b] <+: bs → blockFees C magic pre b ≤ coinbaseValue b

/-- The counter holds the sum of the coinbase values. -/
theorem replay_minted {u : UtxoSet} {m : ℕ} (h : replay C bs = .ok (u, m)) :
    m = sumAlong (fun _ b => coinbaseValue b) [] bs := by
  induction bs using List.reverseRecOn generalizing u m with
  | nil =>
    cases h
    rfl
  | append_singleton bs b ih =>
    rw [replay, List.foldlM_append] at h
    cases hrep : replay C bs with
    | error e =>
      rw [replay] at hrep
      rw [hrep] at h
      cases h
    | ok r =>
      rw [sumAlong_append_singleton, ← ih hrep]
      exact (replay_append_singleton_eq_ok (by rwa [replay, List.foldlM_append]) hrep).2

/-- **The counter holds the issuance and the fees.** -/
theorem minted_eq_issued_add {u : UtxoSet} {m : ℕ} (hrep : replay C bs = .ok (u, m))
    (hclaims : ClaimsFees C magic bs) :
    m = issued C magic bs + sumAlong (blockFees C magic) [] bs := by
  rw [replay_minted hrep, issued]
  refine (sumAlong_add_of_isPrefix fun pre b hpre => ?_).symm
  exact Nat.sub_add_cancel (hclaims pre b hpre)

/-- **When the counter holds what was issued.** In every state a run reaches whose coinbases claim
their fees: exactly if no block of the active chain pays a fee. -/
theorem counts_issuance_iff (C : Crypto) (fuel : ℕ) (bits : UInt32) (g : Block)
    (hgen : genesisBlockWithBits C fuel bits = some g) (store : Option BlockStore) (magic : UInt32)
    (evs : List Event)
    (hnc : NoCollision C (g :: recorded C (fromGenesisWithMagic C g store magic) evs)) :
    let s := run C (fromGenesisWithMagic C g store magic) evs
    ClaimsFees C s.networkMagic s.blocks → (CountsIssuance C s ↔
      ∀ pre b, pre ++ [b] <+: s.blocks → blockFees C s.networkMagic pre b = 0) := by
  intro s hclaims
  obtain ⟨hg, -⟩ := genesisBlockWithBits_spec hgen
  have hminted : s.totalMinted = issued C s.networkMagic s.blocks +
      sumAlong (blockFees C s.networkMagic) [] s.blocks :=
    minted_eq_issued_add (inv_run hg store magic evs hnc).replay_eq hclaims
  rw [← sumAlong_eq_zero_iff]
  constructor
  · intro hcounts
    have := hcounts.totalMinted_eq
    omega
  · intro hzero
    have htotal : s.totalMinted = issued C s.networkMagic s.blocks := by
      rw [hzero] at hminted
      exact hminted
    exact ⟨htotal, congrArg (maxSupplyArkes - ·) htotal, fun height =>
      congrArg (fun m => min (Block.blockReward height) (maxSupplyArkes - m)) htotal⟩

/-- Blocks of the idle chain collect nothing. -/
theorem blockFees_idleChain {n : ℕ} {b : Block} (hb : b ∈ idleChain n) (pre : List Block) :
    blockFees Crypto.sample regtestMagic pre b = 0 := by
  obtain ⟨cb, -, htxs⟩ := transactions_of_mem_idleChain hb
  exact blockFees_of_tail_nil (by rw [htxs, List.tail_cons])

/-- Without fees the counter is right. -/
theorem counts_issuance_iff_idleChain :
    CountsIssuance Crypto.sample (run Crypto.sample
      (fromGenesisWithMagic Crypto.sample sampleGenesis none regtestMagic)
      (deliver (fun _ => sampleNow) 0 (idleChain 1).tail)) := by
  have hchain := sampleChain_idleChain (n := 1) (by decide)
  obtain ⟨s, -, hrun, hinv, hblocks, -⟩ := hchain.run_deliver (by decide)
  have hnc := hchain.noCollision_recorded (noCollision_idleChain (by decide))
  have hcounts := counts_issuance_iff Crypto.sample 1 regtestGenesisBits sampleGenesis
    genesisBlockWithBits_sample none regtestMagic _ hnc
  dsimp only at hcounts
  rw [hrun] at hcounts ⊢
  rw [hblocks, hinv.magic_eq] at hcounts
  have hnone : ∀ pre b, pre ++ [b] <+: idleChain 1 →
      blockFees Crypto.sample regtestMagic pre b = 0 := fun pre b hpre =>
    blockFees_idleChain (hpre.subset (by simp)) pre
  exact (hcounts fun pre b hpre => (hnone pre b hpre).le.trans (Nat.zero_le _)).mpr hnone

/-- **A fee counts as issued.** After a payment with a fee of 4932 arkes, which the coinbase of its
block claims, the supply that remains is smaller by the fee than what was not issued. -/
theorem fee_counts_as_issued :
    let s := run Crypto.sample (fromGenesisWithMagic Crypto.sample sampleGenesis none regtestMagic)
      (deliver (fun _ => sampleNow) 0 feeChain.tail)
    NoCollision Crypto.sample (sampleGenesis :: recorded Crypto.sample
      (fromGenesisWithMagic Crypto.sample sampleGenesis none regtestMagic)
      (deliver (fun _ => sampleNow) 0 feeChain.tail)) ∧
    ClaimsFees Crypto.sample s.networkMagic s.blocks ∧ ¬ CountsIssuance Crypto.sample s ∧
    s.totalMinted = issued Crypto.sample s.networkMagic s.blocks + 4932 ∧
    s.remainingSupply + 4932 = maxSupplyArkes - issued Crypto.sample s.networkMagic s.blocks := by
  obtain ⟨s, -, hrun, hinv, hblocks, -, hminted⟩ := sampleChain_feeChain.run_deliver (by decide)
  have hpaid : FeesOf Crypto.sample (idleUtxo 99) regtestMagic 101 [feePayment] [4932] :=
    .cons txOk_feePayment .nil
  have hlt : [4932].sum < 2 ^ 64 := by decide
  have hfees : blockFees Crypto.sample regtestMagic (idleChain 99) feeBlock = 4932 :=
    blockFees_of_feesOf (replay_idleChain 99) hpaid hlt
  have hclaims : ClaimsFees Crypto.sample regtestMagic feeChain := by
    intro pre b hpre
    rcases List.prefix_concat_iff.mp hpre with heq | hpre
    · obtain ⟨rfl, hb⟩ := List.append_inj' heq rfl
      rw [List.singleton_injective hb, hfees]
      decide
    · rw [blockFees_idleChain (hpre.subset (by simp))]
      exact Nat.zero_le _
  have hsum : sumAlong (blockFees Crypto.sample regtestMagic) [] feeChain = 4932 := by
    rw [feeChain, sumAlong_append_singleton, List.nil_append, hfees,
      sumAlong_eq_zero_iff.mpr fun pre b hpre => blockFees_idleChain (hpre.subset (by simp)) pre]
  have htotal : s.totalMinted = issued Crypto.sample regtestMagic feeChain + 4932 := by
    rw [← hsum, hminted]
    exact minted_eq_issued_add sampleChain_feeChain.replay_eq hclaims
  have hcap : idleMinted + 4932 ≤ maxSupplyArkes := by decide
  dsimp only
  rw [hrun, hinv.magic_eq, hblocks]
  refine ⟨sampleChain_feeChain.noCollision_recorded noCollision_feeChain, hclaims,
    fun hcounts => ?_, htotal, ?_⟩
  · have hcount := hcounts.totalMinted_eq
    rw [hinv.magic_eq, hblocks] at hcount
    omega
  · rw [remainingSupply]
    omega

end Blockchain

end Arkos
