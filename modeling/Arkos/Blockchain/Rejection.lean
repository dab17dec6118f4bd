import Arkos.Blockchain.Supply

/-!
# What a refused block leaves behind

`add_block` writes before it knows that it will succeed: the block is in both tables by the time its
chain is activated. Of the two steps of an activation the walk cannot fail, since the block was
checked on a chain that is all there. The replay can. It adds up what the coinbases pay in 64 bits,
and no check before it does; a block whose coinbase brings the sum over the word is refused after it
was stored.

## Main definitions

* `Untouched` — the parts of a state that a refused block must leave alone
* `Overflows` — the block outweighs the tip, and its chain pays more than a word holds

## Main results

* `Blockchain.no_trace_iff` — a refused block leaves no trace exactly if it does not overflow
-/

namespace Arkos

namespace Blockchain

variable {C : Crypto} {magic : UInt32} {T : Set ℕ} {g : Block} {hist : List Block} {s : Blockchain}

/-- The chain, its index, both tables, the outputs, the minted total and the
mempool are the same. -/
structure Untouched (s s' : Blockchain) : Prop where
  blocks_eq : s'.blocks = s.blocks
  blockIndex_eq : s'.blockIndex = s.blockIndex
  allBlocks_eq : s'.allBlocks = s.allBlocks
  chainWork_eq : s'.chainWork = s.chainWork
  utxoSet_eq : s'.utxoSet = s.utxoSet
  totalMinted_eq : s'.totalMinted = s.totalMinted
  mempool_eq : s'.mempool = s.mempool

/-- The block passes every check and outweighs the tip, and what the coinbases of its parent's chain
pay and what its own pays do not fit a word together. -/
def Overflows (C : Crypto) (now : ℕ) (s : Blockchain) (b : Block) : Prop :=
  ∃ w current bs u m, s.checkBlock C now b = .ok (some w) ∧
    s.chainWork.lookup (s.tip.hashHex C) = some current ∧ current < w ∧
    s.parentContext C b.header.prevHash = .ok (bs, u, m) ∧ 2 ^ 64 ≤ m + coinbaseValue b

/-- When replaying one more block fails. -/
theorem replay_append_eq_error_iff {bs : List Block} {u : UtxoSet} {m : ℕ}
    (h : replay C bs = .ok (u, m)) {b : Block} :
    replay C (bs ++ [b]) = .error .totalMintedOverflow ↔ 2 ^ 64 ≤ m + coinbaseValue b := by
  rw [replay_append_singleton h]
  by_cases hlt : m + coinbaseValue b < 2 ^ 64
  · rw [replayBlock_of_lt hlt]
    exact iff_of_false (fun heq => nomatch heq) (Nat.not_le.mpr hlt)
  · have hnone : checkedAdd 64 m (coinbaseValue b) = none := if_neg hlt
    rw [replayBlock, hnone]
    exact iff_of_true rfl (Nat.not_lt.mp hlt)

/-- What an overflowing block is, in terms of the chain it stands on. -/
theorem Inv.overflows_iff (hg : g.height = 0) (hi : Inv C magic T g hist s) {now : ℕ} {b : Block}
    {bs : List Block} {w : ℕ} (hgrows : Grows C magic T g now s b bs w) :
    Overflows C now s b ↔
      workOf s.blocks < w ∧ replay C (bs ++ [b]) = .error .totalMintedOverflow := by
  have hcheck := checkBlock_eq_ok_some_iff.mpr hgrows.checked
  obtain ⟨u, m, hrep, -⟩ := hgrows.step.context
  have hctx := hi.parentContext_of_grows hg hgrows hrep
  rw [replay_append_eq_error_iff hrep]
  constructor
  · rintro ⟨w', current, bs', u', m', hcheck', hcurrent, hlt, hctx', hle⟩
    obtain rfl := Option.some.inj (Except.ok.inj (hcheck'.symm.trans hcheck))
    obtain rfl := Option.some.inj (hcurrent.symm.trans hi.lookup_tip)
    cases hctx.symm.trans hctx'
    exact ⟨hlt, hle⟩
  · rintro ⟨hlt, hle⟩
    exact ⟨w, _, bs, u, m, hcheck, hi.lookup_tip, hlt, hctx, hle⟩

/-- A block that does not overflow is refused, if at all, before anything is written. -/
theorem Inv.addBlock_of_not_overflows (hg : g.height = 0) (hi : Inv C magic T g hist s) {now : ℕ}
    (hnow : now ∈ T) {b : Block} (hsep : Separated C (hist ++ s.recordedBy C (.addBlock now b)))
    (hover : ¬ Overflows C now s b) {e : ChainError} (herr : (s.addBlock C now b).1 = .error e) :
    (s.addBlock C now b).2 = s := by
  have hout := hi.outcome hg hnow hsep
  rw [herr] at hout
  generalize (s.addBlock C now b).2 = s' at hout ⊢
  cases hout with
  | rejected _ _ => rfl
  | overflow hgrows hlt hrep => exact absurd ((hi.overflows_iff hg hgrows).mpr ⟨hlt, hrep⟩) hover

/-- A block that overflows is refused and stored. -/
theorem Inv.addBlock_of_overflows (hg : g.height = 0) (hi : Inv C magic T g hist s) {now : ℕ}
    (hnow : now ∈ T) {b : Block} (hsep : Separated C (hist ++ s.recordedBy C (.addBlock now b)))
    (hover : Overflows C now s b) :
    (s.addBlock C now b).1 = .error .totalMintedOverflow ∧ b.hashHex C ∉ s.allBlocks ∧
      b.hashHex C ∈ (s.addBlock C now b).2.allBlocks := by
  obtain ⟨w, _, _, _, _, hcheck, _⟩ := id hover
  have hchecked := checkBlock_eq_ok_some_iff.mp hcheck
  have hout := hi.outcome hg hnow hsep
  generalize (s.addBlock C now b).1 = r at hout ⊢
  generalize (s.addBlock C now b).2 = s' at hout ⊢
  cases hout with
  | rejected hnone _ => exact absurd hchecked (hnone w)
  | known hmem => exact absurd hmem hchecked.fresh
  | side hgrows hle =>
    have := ((hi.overflows_iff hg hgrows).mp hover).1
    omega
  | overflow _ _ _ => exact ⟨rfl, hchecked.fresh, Finmap.mem_insert.mpr (Or.inl rfl)⟩
  | activated _ hgrows _ hrep =>
    exact nomatch hrep.symm.trans ((hi.overflows_iff hg hgrows).mp hover).2

/-- **One call.** -/
theorem Inv.untouched_iff (hg : g.height = 0) (hi : Inv C magic T g hist s) {now : ℕ}
    (hnow : now ∈ T) {b : Block} (hsep : Separated C (hist ++ s.recordedBy C (.addBlock now b))) :
    (∀ e, (s.addBlock C now b).1 = .error e → Untouched s (s.addBlock C now b).2) ↔
      ¬ Overflows C now s b := by
  constructor
  · intro huntouched hover
    obtain ⟨herr, hfresh, hmem⟩ := hi.addBlock_of_overflows hg hnow hsep hover
    exact hfresh ((huntouched _ herr).allBlocks_eq ▸ hmem)
  · intro hover e herr
    rw [hi.addBlock_of_not_overflows hg hnow hsep hover herr]
    exact ⟨rfl, rfl, rfl, rfl, rfl, rfl, rfl⟩

/-- **When a refused block leaves no trace.** In every state a run without a store reaches, and for
every block: a call that fails changes nothing exactly if the block does not overflow the minted
total of the chain it would activate. -/
theorem no_trace_iff (C : Crypto) (g : Block) (hg : g.height = 0) (magic : UInt32)
    (evs : List Event) (now : ℕ) (b : Block)
    (hnc : NoCollision C (g :: recorded C (fromGenesisWithMagic C g none magic)
      (evs ++ [.addBlock now b]))) :
    let s := run C (fromGenesisWithMagic C g none magic) evs
    (∀ e, (s.addBlock C now b).1 = .error e → Untouched s (s.addBlock C now b).2) ↔
      ¬ Overflows C now s b := by
  have hi := inv_run hg none magic evs (noCollision_of_isPrefix (List.prefix_append _ _) hnc)
  have hafter := inv_run hg none magic _ hnc
  rw [recorded_append_singleton, ← List.cons_append] at hafter
  exact hi.untouched_iff hg trivial hafter.separated

/-- A block whose parent is not known is refused and leaves no trace. -/
theorem no_trace_iff_idleBlock :
    let s := fromGenesisWithMagic Crypto.sample sampleGenesis none regtestMagic
    (s.addBlock Crypto.sample sampleNow (idleBlock 1)).1 =
        .error (.unknownParent ((idleBlock 0).hashHex Crypto.sample)) ∧
      Untouched s (s.addBlock Crypto.sample sampleNow (idleBlock 1)).2 := by
  have hcheck : (fromGenesisWithMagic Crypto.sample sampleGenesis none regtestMagic).checkBlock
      Crypto.sample sampleNow (idleBlock 1) =
        .error (.unknownParent ((idleBlock 0).hashHex Crypto.sample)) := by decide +kernel
  have hfails : ((fromGenesisWithMagic Crypto.sample sampleGenesis none regtestMagic).addBlock
      Crypto.sample sampleNow (idleBlock 1)).1 =
        .error (.unknownParent ((idleBlock 0).hashHex Crypto.sample)) := by
    rw [addBlock, hcheck]
  have hnc : NoCollision Crypto.sample (sampleGenesis :: recorded Crypto.sample
      (fromGenesisWithMagic Crypto.sample sampleGenesis none regtestMagic)
      ([] ++ [.addBlock sampleNow (idleBlock 1)])) := by
    have hnone : ∀ w, ¬ Checked Crypto.sample sampleNow
        (fromGenesisWithMagic Crypto.sample sampleGenesis none regtestMagic) (idleBlock 1) w := by
      intro w hw
      have heq := hcheck.symm.trans (checkBlock_eq_ok_some_iff.mpr hw)
      cases heq
    rw [List.nil_append, recorded, recorded, List.append_nil, recordedBy_of_not_checked hnone,
      NoCollision]
    decide +kernel
  refine ⟨hfails, (no_trace_iff Crypto.sample sampleGenesis rfl regtestMagic [] sampleNow
    (idleBlock 1) hnc).mpr ?_ _ hfails⟩
  rintro ⟨w, _, _, _, _, hcheck', _⟩
  have heq := hcheck.symm.trans hcheck'
  cases heq

/-! ### A coinbase that overflows the minted total

The third payment of a spree names the output before it 497 times and pays half a word. It is named
twice in the next block, for a fee of nearly a whole word. -/

/-- The payments up to half a word. -/
def halfWord : List Mention :=
  [⟨497, 9223372036854775807⟩, ⟨759, 18567432596174880⟩, ⟨760, 24463020548320⟩]

theorem affordable_halfWord : Affordable halfWord := by
  simp only [halfWord, Affordable, spreeValue, and_true]
  decide

/-- The payment that leaves nearly a word to the miner. -/
def feeTx : Transaction := spreeTx (⟨2, 546⟩ :: halfWord)

/-- The coinbase that claims it. -/
def claimCoinbase : Transaction := Transaction.coinbase "" 18446744073709551068 104

/-- The block that claims it. -/
def claimBlock : Block :=
  childBlock Crypto.sample (spreeBlock halfWord) [claimCoinbase, feeTx] (sampleTime 104)

theorem sampleChain_halfWord :
    SampleChain 103 (spreeChain halfWord) (spreeUtxo halfWord) idleMinted :=
  sampleChain_spreeChain affordable_halfWord (by decide)

theorem affordable_feeTx : Affordable (⟨2, 546⟩ :: halfWord) :=
  ⟨by decide, by decide, by decide, by decide, affordable_halfWord⟩

theorem txOk_feeTx :
    TxOk Crypto.sample feeTx (spreeUtxo halfWord) regtestMagic 104 18446744073709551068 :=
  txOk_spreeTx affordable_feeTx

/-- The block extends the chain, and its coinbase pays the fee. -/
theorem extends_claimBlock :
    Extends Crypto.sample regtestMagic sampleNow (spreeChain halfWord) claimBlock ∧
      coinbaseValue claimBlock = 18446744073709551068 := by
  have hsize : claimCoinbase.serializedSize = 189 := by decide +kernel
  have hpayment : feeTx.serializedSize = 11101 := serializedSize_spreeTx
  have hops : feeTx.inputs.length + feeTx.outputs.length = 3 := rfl
  have hcb : claimCoinbase.inputs.length + claimCoinbase.outputs.length = 2 := rfl
  have hvalue : checkedSum 64 (claimCoinbase.outputs.map fun o => o.value.toNat) =
      some 18446744073709551068 := by decide
  refine sampleChain_halfWord.extends_snoc (by decide) getLast?_spreeChain rfl (by decide) ?_ ?_
    (by decide) (.cons txOk_feeTx .nil) (by decide) (.cons txOk_feeTx .nil) hvalue (by decide)
  · rw [List.map_cons, List.map_cons, List.map_nil, List.sum_cons, List.sum_cons, List.sum_nil,
      maxBlockBytes]
    omega
  · rw [List.map_cons, List.map_cons, List.map_nil, List.sum_cons, List.sum_cons, List.sum_nil,
      maxBlockUtxoOps]
    omega

theorem separated_claimBlock : Separated Crypto.sample (spreeChain halfWord ++ [claimBlock]) := by
  obtain ⟨hvalid, hstamped⟩ := sampleChain_halfWord.validChain_snoc (by decide)
    getLast?_spreeChain extends_claimBlock.1
  exact hvalid.separated_of_sampleTime hstamped

theorem noCollision_claimBlock :
    NoCollision Crypto.sample (spreeChain halfWord ++ [claimBlock]) := by
  have hclaim : claimCoinbase.encode.length = 189 := by decide +kernel
  have hlengths : (claimCoinbase.encode :: spreeStrings (⟨2, 546⟩ :: halfWord)).map List.length =
      189 :: spreeLengths (⟨2, 546⟩ :: halfWord) := by
    rw [List.map_cons, hclaim, length_spreeStrings]
  have hlock := (@lockTime_spreeNodes (⟨2, 546⟩ :: halfWord) (by decide)).2
  rw [spreeNodes, List.map_cons] at hlock
  have hstrings : SampleStrings (spreeChain halfWord ++ [claimBlock])
      (claimCoinbase.encode :: spreeStrings (⟨2, 546⟩ :: halfWord))
      ((claimCoinbase.txid Crypto.sample, feeTx) :: spreeNodes halfWord) :=
    ⟨separated_claimBlock, hlengths ▸ by decide, hlengths ▸ by decide, by rwa [List.map_cons]⟩
  have hcovers : ∀ x ∈ (spreeChain halfWord ++ [claimBlock]).flatMap
      (Block.hashedStrings Crypto.sample),
      SampleStrings.Covers (spreeChain halfWord ++ [claimBlock])
        (claimCoinbase.encode :: spreeStrings (⟨2, 546⟩ :: halfWord))
        ((claimCoinbase.txid Crypto.sample, feeTx) :: spreeNodes halfWord) x := by
    intro x hx
    rw [List.flatMap_append, List.flatMap_singleton, List.mem_append] at hx
    rcases hx with hx | hx
    · rcases covers_spreeChain (mem_allStrings hx) with ⟨c, hc, rfl⟩ | hplain | ⟨q, hq, rfl⟩
      · exact Or.inl ⟨c, List.mem_append_left _ hc, rfl⟩
      · exact Or.inr (Or.inl (List.mem_cons_of_mem _ (List.mem_cons_of_mem _
          (List.mem_cons_of_mem _ hplain))))
      · exact Or.inr (Or.inr ⟨q, List.mem_cons_of_mem _ hq, rfl⟩)
    · have htxs : claimBlock.transactions = [claimCoinbase, feeTx] := rfl
      rw [hashedStrings_of_pair htxs] at hx
      simp only [List.mem_cons, List.not_mem_nil, or_false] at hx
      rcases hx with rfl | rfl | rfl | rfl
      · exact Or.inl ⟨_, List.mem_append_right _ List.mem_cons_self, rfl⟩
      · exact Or.inr (Or.inl List.mem_cons_self)
      · exact Or.inr (Or.inl (List.mem_cons_of_mem _ List.mem_cons_self))
      · exact Or.inr (Or.inr ⟨_, List.mem_cons_self, rfl⟩)
  exact fun x hx y hy heq => hstrings.inj (hcovers x hx) (hcovers y hy) heq

/-- **A refused block is stored all the same.** The coinbase of `claimBlock` claims no more than the
validator allows, and the call fails with the block in the table. -/
theorem trace_of_claimBlock :
    let s := run Crypto.sample (fromGenesisWithMagic Crypto.sample sampleGenesis none regtestMagic)
      (deliver (fun _ => sampleNow) 0 (spreeChain halfWord).tail)
    NoCollision Crypto.sample (sampleGenesis :: recorded Crypto.sample
      (fromGenesisWithMagic Crypto.sample sampleGenesis none regtestMagic)
      (deliver (fun _ => sampleNow) 0 (spreeChain halfWord).tail ++
        [.addBlock sampleNow claimBlock])) ∧
    (s.addBlock Crypto.sample sampleNow claimBlock).1 = .error .totalMintedOverflow ∧
    claimBlock.hashHex Crypto.sample ∉ s.allBlocks ∧
    claimBlock.hashHex Crypto.sample ∈ (s.addBlock Crypto.sample sampleNow claimBlock).2.allBlocks ∧
    ¬ Untouched s (s.addBlock Crypto.sample sampleNow claimBlock).2 := by
  obtain ⟨s, -, hrun, hi, hblocks, hutxo, hminted⟩ := sampleChain_halfWord.run_deliver (by decide)
  obtain ⟨hext, hvalue⟩ := extends_claimBlock
  have hsep : Separated Crypto.sample (spreeChain halfWord ++ [claimBlock]) := separated_claimBlock
  have hfresh : claimBlock.hashHex Crypto.sample ∉ s.allBlocks := by
    intro hmem
    obtain ⟨x, hx⟩ := Finmap.mem_iff.mp hmem
    obtain ⟨hhash, hxmem⟩ := hi.own _ x hx
    have htime := congrArg UInt64.toNat (timestamp_eq_of_hashHex hhash)
    have hle := sampleChain_halfWord.timestamp_le (by decide) hxmem
    have hstamp : claimBlock.header.timestamp.toNat = 1700000104 := toNat_sampleTime (by decide)
    omega
  have hchecked := hi.checked_of_extends rfl hi.active hi.stored (hblocks ▸ hext) hfresh
  have hover : Overflows Crypto.sample sampleNow s claimBlock := by
    refine (hi.overflows_iff rfl ⟨hchecked, hi.active, hi.stored, hblocks ▸ hext, rfl⟩).mpr ⟨?_, ?_⟩
    · rw [workOf_append_singleton]
      exact Nat.lt_add_of_pos_right (blockWork_pos _)
    · rw [replay_append_eq_error_iff hi.replay_eq, hminted, hvalue]
      decide
  have hrec : s.recordedBy Crypto.sample (.addBlock sampleNow claimBlock) = [claimBlock] :=
    recordedBy_of_checked hchecked
  obtain ⟨herr, -, hmem⟩ := hi.addBlock_of_overflows rfl trivial (hrec ▸ hsep) hover
  dsimp only
  rw [hrun, recorded_append_singleton, hrun, hrec]
  refine ⟨noCollision_claimBlock.mono fun x hx => ?_, herr, hfresh, hmem, fun huntouched => ?_⟩
  · rw [← List.cons_append] at hx
    exact (List.mem_append.mp hx).elim
      (fun hx => List.mem_append_left _ (sampleChain_halfWord.mem_of_mem_cons_recorded hx))
      (List.mem_append_right _)
  · exact hfresh (huntouched.allBlocks_eq ▸ hmem)

end Blockchain

end Arkos
