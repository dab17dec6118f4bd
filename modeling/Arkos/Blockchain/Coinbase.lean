import Arkos.Blockchain.Branch

/-!
# What a coinbase may say

A coinbase is written by its miner. The validator bounds how much it pays and how many outputs it
has, and looks at nothing else: the height it states is not compared with the block's, and nothing
makes it differ from an older one. Two rules of the chain rest on these all the same.

*Maturity.* The hundred blocks an output has to wait are counted from the stated height. They are a
hundred blocks for a coinbase that does not state too low a height, and there is no other.

*Outputs are not overwritten.* An output is found under the txid of its creator, so a transaction
that is applied twice writes the same keys twice. One that spends something cannot be applied twice
unless what it spent was created twice, and by induction that leads back to a coinbase. If coinbases
that pay are not repeated along a chain, no key is ever created twice on it.

## Main definitions

* `Block.StatesHeight`, `Matured` — the stated height, and the rule that rests on it
* `createdKeys`, `Fresh`, `NoOverwrite`, `CoinbasesApart` — the keys a chain writes
* `CreatedOnce` — every key was written once, and what was spent is gone
* `NewCoinbase`, `Blockchain.RepeatsCoinbase` — a block whose coinbase lies behind it already

## Main results

* `ValidChain.matured`, `Blockchain.coinbase_matures`
* `CreatedOnce.snoc`, `ValidChain.createdOnce`, `Blockchain.no_output_overwritten`
-/

namespace Arkos

variable {C : Crypto} {magic : UInt32} {T : Set ℕ} {g : Block} {bs : List Block}

/-- The block at a position extends the blocks before it. -/
theorem ValidChain.extends_of_getElem? (h : ValidChain C magic T g bs) {i : ℕ} {b : Block}
    (hb : bs[i + 1]? = some b) : ∃ now ∈ T, Extends C magic now (bs.take (i + 1)) b := by
  have hlt := (List.getElem?_eq_some_iff.mp hb).1
  have htake := h.take hlt
  rw [List.take_add_one, hb, Option.toList_some] at htake
  have hne : bs.take (i + 1) ≠ [] := by
    rw [Ne, List.take_eq_nil_iff, not_or]
    exact ⟨Nat.succ_ne_zero i, h.ne_nil⟩
  exact (htake.extends_of_append hne).2

/-- The first transaction of a block of a valid chain is a coinbase. -/
theorem ValidChain.isCoinbase_head? (hg : g.transactions = [genesisCoinbase])
    (h : ValidChain C magic T g bs) {b : Block} (hb : b ∈ bs) {cb : Transaction}
    (hcb : b.transactions.head? = some cb) : cb.isCoinbase = true := by
  obtain ⟨i, hi⟩ := List.mem_iff_getElem?.mp hb
  cases i with
  | zero =>
    rw [← List.head?_eq_getElem?, h.head?_eq] at hi
    obtain rfl := Option.some.inj hi
    rw [hg] at hcb
    obtain rfl := Option.some.inj hcb
    rfl
  | succ i =>
    obtain ⟨now, -, hext⟩ := h.extends_of_getElem? hi
    obtain ⟨p, -, hwf, -⟩ := hext.parent
    obtain ⟨cb', rest, htxs, hcb'⟩ := hwf.coinbase
    rw [htxs] at hcb
    obtain rfl := Option.some.inj hcb
    exact hcb'

/-! ### Maturity -/

/-- A coinbase that pays states at least the height of its block. -/
def Block.StatesHeight (b : Block) : Prop :=
  ∀ cb ∈ b.transactions.head?, cb.outputs ≠ [] → b.height ≤ cb.coinbaseHeight

/-- Whatever spends an output of a coinbase is a hundred blocks higher. -/
def Matured (C : Crypto) (bs : List Block) : Prop :=
  ∀ a ∈ bs, ∀ b ∈ bs, ∀ cb ∈ a.transactions.head?, ∀ tx ∈ b.transactions, tx.isCoinbase = false →
    ∀ i ∈ tx.inputs, i.prevTxHash = cb.txidHex C → i.prevIndex.toNat < cb.outputs.length →
      a.height + coinbaseMaturity ≤ b.height

/-- What an input of a block refers to: the outputs the chain `bs` behind the block left, which
contain what the input names. -/
theorem Extends.inputOk {now : ℕ} {b : Block} (h : Extends C magic now bs b) {tx : Transaction}
    (htx : tx ∈ b.transactions) (hord : tx.isCoinbase = false) {i : TxInput} (hi : i ∈ tx.inputs) :
    ∃ u m out, replay C bs = .ok (u, m) ∧ InputOk C u (tx.sigHash C magic) b.height i out := by
  obtain ⟨p, -, hwf, -⟩ := h.parent
  obtain ⟨u, m, hrep, hctx⟩ := h.context
  obtain ⟨fees, hfees, -⟩ := hctx.subsidy_ok
  obtain ⟨cb, rest, htxs, hcb⟩ := hwf.coinbase
  have htail : tx ∈ b.transactions.tail := by
    rw [htxs, List.mem_cons] at htx
    rw [htxs]
    exact htx.resolve_left fun heq => by rw [heq, hcb] at hord; cases hord
  obtain ⟨fee, hok⟩ := hfees.exists_txOk tx htail
  obtain ⟨out, hin⟩ := hok.inputs_ok i hi
  exact ⟨u, m, out, hrep, hin⟩

/-- **A block waits for the coinbases it spends from**, counted from the heights they state. -/
theorem Extends.mature (hinj : TxidInj C (chainTxs bs)) {now : ℕ} {b : Block}
    (h : Extends C magic now bs b) {tx : Transaction} (htx : tx ∈ b.transactions)
    (hord : tx.isCoinbase = false) {i : TxInput} (hi : i ∈ tx.inputs) :
    ∃ t ∈ chainTxs bs, t.txidHex C = i.prevTxHash ∧
      (t.isCoinbase = true → t.coinbaseHeight + coinbaseMaturity ≤ b.height) := by
  obtain ⟨u, m, out, hrep, hin⟩ := h.inputOk htx hord hi
  obtain ⟨t, ht, hcreated⟩ := originates_replay hrep _ _ hin.lookup_eq
  obtain ⟨j, -, hkey⟩ := UtxoSet.mem_createdEntries.mp hcreated
  have hid := (UtxoSet.key_inj hkey).1
  refine ⟨t, ht, hid.symm, fun hcb => ?_⟩
  have hheight : u.coinbaseHeights.lookup i.prevTxHash = some t.coinbaseHeight := by
    rw [replay_utxoSet hrep]
    exact (lookup_coinbaseHeights_foldl hinj (fun _ h => h) _ _).mpr ⟨t, ht, hcb, hid.symm, rfl⟩
  have hmature := hin.mature
  rw [UtxoSet.isImmatureCoinbase, hheight] at hmature
  have hwait : ¬ b.height - t.coinbaseHeight < coinbaseMaturity := by simpa using hmature
  rw [coinbaseMaturity] at hwait ⊢
  omega

/-- **Maturity along a valid chain** whose coinbases state their heights. -/
theorem ValidChain.matured (hgtxs : g.transactions = [genesisCoinbase])
    (h : ValidChain C magic T g bs) (hinj : TxidInj C (chainTxs bs))
    (hstates : ∀ b ∈ bs, b.StatesHeight) : Matured C bs := by
  intro a ha b hb cb hcb tx htx hord i hi hid hidx
  obtain ⟨j, hj⟩ := List.mem_iff_getElem?.mp hb
  cases j with
  | zero =>
    -- the genesis has no other transaction than its coinbase
    rw [← List.head?_eq_getElem?, h.head?_eq] at hj
    obtain rfl := Option.some.inj hj
    rw [hgtxs, List.mem_singleton] at htx
    rw [htx] at hord
    cases hord
  | succ j =>
    obtain ⟨now, -, hext⟩ := h.extends_of_getElem? hj
    have hsub : ∀ t ∈ chainTxs (bs.take (j + 1)), t ∈ chainTxs bs := fun t ht =>
      mem_chainTxs_of_subset (fun x hx => List.mem_of_mem_take hx) ht
    obtain ⟨t, ht, htid, hwait⟩ := hext.mature
      (fun t ht t' ht' => hinj t (hsub t ht) t' (hsub t' ht')) htx hord hi
    -- the transaction the input names is the coinbase
    have hcbmem : cb ∈ chainTxs bs := mem_chainTxs.mpr ⟨a, ha, List.mem_of_mem_head? hcb⟩
    obtain rfl := hinj t (hsub t ht) cb hcbmem (htid.trans hid)
    have hheight := hwait (h.isCoinbase_head? hgtxs ha hcb)
    have hle := hstates a ha t hcb fun hnil => by rw [hnil] at hidx; cases hidx
    omega

namespace Blockchain

/-- **Coinbase outputs wait a hundred blocks.** In every state a run from a network's genesis
reaches, if no recorded block carries a coinbase that pays and states less than its height. -/
theorem coinbase_matures (C : Crypto) (fuel : ℕ) (bits : UInt32) (g : Block)
    (hgen : genesisBlockWithBits C fuel bits = some g) (store : Option BlockStore) (magic : UInt32)
    (evs : List Event)
    (hnc : NoCollision C (g :: recorded C (fromGenesisWithMagic C g store magic) evs))
    (hstates : ∀ b ∈ recorded C (fromGenesisWithMagic C g store magic) evs, b.StatesHeight) :
    Matured C (run C (fromGenesisWithMagic C g store magic) evs).blocks := by
  obtain ⟨hg, hgtxs⟩ := genesisBlockWithBits_spec hgen
  have hinv := inv_run hg store magic evs hnc
  have hinj := hinv.history.txid_inj hgtxs hnc
  have hsub : ∀ tx ∈ chainTxs (run C (fromGenesisWithMagic C g store magic) evs).blocks,
      tx ∈ chainTxs (g :: recorded C (fromGenesisWithMagic C g store magic) evs) := fun tx htx =>
    mem_chainTxs_of_subset (fun x hx => hinv.mem_hist hx) htx
  refine hinv.active.matured hgtxs (fun t ht t' ht' => hinj t (hsub t ht) t' (hsub t' ht')) ?_
  intro b hb
  rcases List.mem_cons.mp (hinv.mem_hist hb) with rfl | hb
  · exact fun _ _ _ => hg ▸ Nat.zero_le _
  · exact hstates b hb

/-- The reward of block 1 is spent at height 101, and not too early. -/
theorem coinbase_matures_feeChain :
    feePayment ∈ feeBlock.transactions ∧
      (idleBlock 0).height + coinbaseMaturity ≤ feeBlock.height := by
  obtain ⟨s, -, hrun, -, hblocks, -⟩ := sampleChain_feeChain.run_deliver (by decide)
  have hstates : ∀ b ∈ feeChain, b.StatesHeight := by
    intro b hb cb hcb hpays
    rcases List.mem_append.mp hb with hb | hb
    · rcases List.mem_cons.mp hb with rfl | hb
      · exact Nat.zero_le _
      · obtain ⟨i, -, rfl⟩ := List.mem_map.mp hb
        cases i with
        | zero =>
          obtain rfl := Option.some.inj hcb
          decide
        | succ i =>
          obtain rfl := Option.some.inj hcb
          exact absurd rfl hpays
    · rw [List.mem_singleton.mp hb] at hcb ⊢
      obtain rfl := Option.some.inj hcb
      have hheight : feeBlock.height = 101 := congrArg (· + 1) (height_idleBlock 99)
      rw [hheight]
      decide
  have hmatured := coinbase_matures Crypto.sample 1 regtestGenesisBits sampleGenesis
    genesisBlockWithBits_sample none regtestMagic (deliver (fun _ => sampleNow) 0 feeChain.tail)
    (sampleChain_feeChain.noCollision_recorded noCollision_feeChain)
    (fun b hb => hstates b
      (sampleChain_feeChain.mem_of_mem_cons_recorded (List.mem_cons_of_mem _ hb)))
  rw [hrun, hblocks] at hmatured
  have hspends : feePayment ∈ feeBlock.transactions := List.mem_cons_of_mem _ List.mem_cons_self
  have hfirst : idleBlock 0 ∈ feeChain :=
    List.mem_append_left _
      (List.mem_cons_of_mem _ (List.mem_map_of_mem (List.mem_range.mpr (by decide))))
  exact ⟨hspends, hmatured _ hfirst feeBlock
    (List.mem_append_right _ List.mem_cons_self) payCoinbase
    rfl feePayment hspends (isCoinbase_spendTx _ _ _ _) _ List.mem_cons_self rfl (by decide)⟩

/-! ### A coinbase that states no height

Its outputs count as mined at height 0 and are spent in the next block. -/

/-- The coinbase of the idle chain's first block, without a height. -/
def earlyCoinbase : Transaction :=
  { payCoinbase with inputs := payCoinbase.inputs.map fun i => { i with coinbaseExtra := [] } }

/-- The block with it, at height 101. -/
def earlyBlock : Block :=
  childBlock Crypto.sample (idleBlock 99) [earlyCoinbase] (sampleTime 101)

/-- The payment that spends it. -/
def earlyPayment : Transaction := spendTx earlyCoinbase 1 32188180000 1

/-- The block with that, at height 102. -/
def earlyChild : Block :=
  childBlock Crypto.sample earlyBlock [idleCoinbase, earlyPayment] (sampleTime 102)

/-- The idle chain up to height 100 and the two. -/
def earlyChain : List Block := idleChain 99 ++ [earlyBlock] ++ [earlyChild]

/-- What is unspent between the two. -/
def earlyUtxo : UtxoSet := (idleUtxo 99).applyTransaction Crypto.sample earlyCoinbase

theorem sampleChain_earlyBlock :
    SampleChain 101 (idleChain 99 ++ [earlyBlock]) earlyUtxo (idleMinted + 32188184932) := by
  have hvalue : checkedSum 64 (earlyCoinbase.outputs.map fun o => o.value.toNat) =
      some 32188184932 := by decide
  exact (sampleChain_idleChain (by decide)).snoc (by decide) (getLast?_idleChain 99) rfl (by decide)
    (by decide +kernel) (by decide) (by decide) .nil (by decide) .nil hvalue (by decide +kernel)
    (by decide)

theorem sampleChain_earlyChain :
    SampleChain 102 earlyChain ((earlyUtxo.applyTransaction Crypto.sample
      idleCoinbase).applyTransaction Crypto.sample earlyPayment) (idleMinted + 32188184932) := by
  have hlook : earlyUtxo.utxos.lookup (UtxoSet.key (earlyCoinbase.txidHex Crypto.sample) 0) =
      some ⟨32188184932, none, sampleAddress⟩ := by decide +kernel
  have hmature :
      earlyUtxo.isImmatureCoinbase (earlyCoinbase.txidHex Crypto.sample) 102 = false := by
    decide +kernel
  have hvalue : (32188184932 : UInt64).toNat = 32188184932 := rfl
  have hpaid : (32188180000 : UInt64).toNat = 32188180000 := rfl
  have hok := txOk_spendTx 1 hlook rfl hmature
    (show 1 * (32188184932 : UInt64).toNat < _ by rw [hvalue]; decide)
    (show dustLimitArkes ≤ (32188180000 : UInt64).toNat by decide) (by rw [hvalue, hpaid]; decide)
  rw [hvalue, hpaid] at hok
  exact sampleChain_earlyBlock.spend_idle (by decide) (ValidChain.getLast?_append_singleton _ _) hok
    (by decide) (by rw [earlyPayment, serializedSize_spendTx]; decide) (by decide) (by decide)

theorem noCollision_earlyChain : NoCollision Crypto.sample earlyChain := by
  have hlengths : ([genesisCoinbase, payCoinbase, idleCoinbase, earlyCoinbase, earlyPayment].map
      Transaction.encode).map List.length = [269, 217, 160, 209, 5619] := by
    have hcoinbases : ([genesisCoinbase, payCoinbase, idleCoinbase, earlyCoinbase].map
        Transaction.encode).map List.length = [269, 217, 160, 209] := by decide +kernel
    have hpayment : earlyPayment.encode.length = 5619 := serializedSize_spendTx _ _ _ _
    simp only [List.map_cons, List.map_nil, List.cons.injEq, and_true] at hcoinbases
    simp only [List.map_cons, List.map_nil, hcoinbases, hpayment]
  have hstrings : SampleStrings earlyChain ([genesisCoinbase, payCoinbase, idleCoinbase,
      earlyCoinbase, earlyPayment].map Transaction.encode)
      [(idleCoinbase.txid Crypto.sample, earlyPayment)] :=
    ⟨sampleChain_earlyChain.separated (by decide), hlengths ▸ by decide, hlengths ▸ by decide,
      List.nodup_singleton _⟩
  refine hstrings.noCollision fun b hb => ?_
  simp only [earlyChain, List.mem_append, List.mem_singleton] at hb
  rcases hb with (hb | rfl) | rfl
  · exact Or.inl (transactions_of_mem_idleChain_append hb [earlyCoinbase, earlyPayment])
  · exact Or.inl ⟨earlyCoinbase, by simp, rfl⟩
  · exact Or.inr ⟨idleCoinbase, by simp, earlyPayment, by simp, rfl, List.mem_cons_self⟩

/-- **A coinbase output is spent one block later.** -/
theorem not_matured_earlyChain :
    NoCollision Crypto.sample (sampleGenesis :: recorded Crypto.sample
      (fromGenesisWithMagic Crypto.sample sampleGenesis none regtestMagic)
      (deliver (fun _ => sampleNow) 0 earlyChain.tail)) ∧
    ¬ Matured Crypto.sample (run Crypto.sample
      (fromGenesisWithMagic Crypto.sample sampleGenesis none regtestMagic)
      (deliver (fun _ => sampleNow) 0 earlyChain.tail)).blocks := by
  obtain ⟨s, -, hrun, -, hblocks, -⟩ := sampleChain_earlyChain.run_deliver (by decide)
  refine ⟨sampleChain_earlyChain.noCollision_recorded noCollision_earlyChain, fun hmatured => ?_⟩
  rw [hrun, hblocks] at hmatured
  have hle := hmatured earlyBlock (by simp [earlyChain]) earlyChild (by simp [earlyChain])
    earlyCoinbase rfl earlyPayment (List.mem_cons_of_mem _ List.mem_cons_self)
    (isCoinbase_spendTx _ _ _ _) _ List.mem_cons_self rfl (by decide)
  have hheight : earlyChild.height = earlyBlock.height + 1 := rfl
  rw [hheight, coinbaseMaturity] at hle
  omega

end Blockchain

/-! ### Keys are created once -/

/-- The keys a list of transactions writes, in order and with repetition. -/
def createdKeys (C : Crypto) (txs : List Transaction) : List String :=
  txs.flatMap fun tx => (tx.createdEntries C).map Prod.fst

/-- The application writes no key twice, and none that is there when the inputs are gone. -/
def Fresh (C : Crypto) (u : UtxoSet) (tx : Transaction) : Prop :=
  ((tx.createdEntries C).map Prod.fst).Nodup ∧
    ∀ k ∈ (tx.createdEntries C).map Prod.fst, k ∉ u.utxos.eraseAll tx.spentKeys

/-- Replaying the chain overwrites no unspent output. -/
def NoOverwrite (C : Crypto) (bs : List Block) : Prop :=
  ∀ pre tx post, chainTxs bs = pre ++ tx :: post →
    Fresh C (pre.foldl (UtxoSet.applyTransaction C) UtxoSet.empty) tx

/-- When a block of the chain carries a coinbase with the txid of an earlier one, nothing of the
earlier one is unspent. -/
def CoinbasesApart (C : Crypto) (bs : List Block) : Prop :=
  ∀ i j a b cb cb', i < j → bs[i]? = some a → bs[j]? = some b → a.transactions.head? = some cb →
    b.transactions.head? = some cb' → cb.txidHex C = cb'.txidHex C →
      ∀ k ∈ (cb.createdEntries C).map Prod.fst,
        k ∉ ((chainTxs (bs.take j)).foldl (UtxoSet.applyTransaction C) UtxoSet.empty).utxos

theorem mem_createdKeys_iff {txs : List Transaction} {k : String} :
    k ∈ createdKeys C txs ↔ ∃ tx ∈ txs, k ∈ (tx.createdEntries C).map Prod.fst := List.mem_flatMap

theorem createdKeys_append (txs txs' : List Transaction) :
    createdKeys C (txs ++ txs') = createdKeys C txs ++ createdKeys C txs' := List.flatMap_append

/-- What is unspent after a list of transactions was created by them, or was there before and was
not spent. -/
theorem mem_foldl_applyTransaction {txs : List Transaction} {u : UtxoSet} {k : String}
    (h : k ∈ (txs.foldl (UtxoSet.applyTransaction C) u).utxos) :
    k ∈ createdKeys C txs ∨ k ∈ u.utxos ∧ ∀ tx ∈ txs, k ∉ tx.spentKeys := by
  induction txs generalizing u with
  | nil => exact Or.inr ⟨h, fun _ htx => nomatch htx⟩
  | cons tx txs ih =>
    rw [createdKeys, List.flatMap_cons, List.mem_append]
    rcases ih h with hlater | ⟨hmem, hkept⟩
    · exact Or.inl (Or.inr hlater)
    · rcases UtxoSet.mem_applyTransaction.mp hmem with hnow | ⟨hbefore, hns⟩
      · exact Or.inl (Or.inl hnow)
      · exact Or.inr ⟨hbefore, List.forall_mem_cons.mpr ⟨hns, hkept⟩⟩

/-- **Keys created once are never overwritten.** -/
theorem noOverwrite_of_nodup (h : (createdKeys C (chainTxs bs)).Nodup) : NoOverwrite C bs := by
  intro pre tx post hsplit
  rw [hsplit, createdKeys_append, createdKeys, createdKeys, List.flatMap_cons,
    List.nodup_append'] at h
  obtain ⟨-, htx, hdisj⟩ := h
  refine ⟨(List.nodup_append'.mp htx).1, fun k hk hmem => ?_⟩
  have hold : k ∈ (pre.foldl (UtxoSet.applyTransaction C) UtxoSet.empty).utxos := by
    obtain ⟨o, ho⟩ := Finmap.mem_iff.mp hmem
    rw [Finmap.lookup_eraseAll] at ho
    split at ho
    · cases ho
    · exact Finmap.mem_of_lookup ho
  rcases mem_foldl_applyTransaction hold with hpre | ⟨hempty, -⟩
  · exact hdisj hpre (List.mem_append_left _ hk)
  · exact Finmap.notMem_empty hempty

/-- One transaction writes different keys, unless its outputs outnumber a 32-bit word. -/
theorem createdKeys_nodup_of_le {tx : Transaction} (h : tx.outputs.length ≤ maxBlockUtxoOps) :
    ((tx.createdEntries C).map Prod.fst).Nodup := by
  have hkeys : (tx.createdEntries C).map Prod.fst =
      (List.range tx.outputs.length).map fun i => UtxoSet.key (tx.txidHex C) (UInt32.ofNat i) := by
    rw [Transaction.createdEntries, List.map_map, List.range_eq_range', ← List.zipIdx_map_snd 0,
      List.map_map]
    rfl
  rw [hkeys]
  refine List.nodup_range.map_on fun i hi j hj heq => ?_
  have hidx := congrArg UInt32.toNat (UtxoSet.key_inj heq).2
  rwa [toNat_ofNat_of_le (List.mem_range.mp hi) h,
    toNat_ofNat_of_le (List.mem_range.mp hj) h] at hidx

/-- A key names its creator. -/
theorem TxidInj.eq_of_mem_created {E : List Transaction} (hinj : TxidInj C E) {tx tx' : Transaction}
    (htx : tx ∈ E) (htx' : tx' ∈ E) {k : String} (hk : k ∈ (tx.createdEntries C).map Prod.fst)
    (hk' : k ∈ (tx'.createdEntries C).map Prod.fst) : tx = tx' := by
  obtain ⟨i, -, rfl⟩ := UtxoSet.mem_createdKeys.mp hk
  obtain ⟨j, -, heq⟩ := UtxoSet.mem_createdKeys.mp hk'
  exact hinj tx htx tx' htx' (UtxoSet.key_inj heq).1

/-- A valid transaction that pays spends something. -/
theorem TxOk.exists_input {tx : Transaction} {u : UtxoSet} {h fee : ℕ}
    (hok : TxOk C tx u magic h fee) (hpays : tx.outputs ≠ []) : ∃ i, i ∈ tx.inputs := by
  refine List.exists_mem_of_ne_nil _ fun hnil => ?_
  obtain ⟨o, ho⟩ := List.exists_mem_of_ne_nil _ hpays
  have hvalue : o.value.toNat ≤ tx.outputSum :=
    List.single_le_sum (fun _ _ => Nat.zero_le _) _ (List.mem_map_of_mem ho)
  have hdust := hok.dust o ho
  have hfee := hok.fee_eq
  have hsum : tx.inputSum u = 0 := by rw [Transaction.inputSum, hnil]; rfl
  rw [dustLimitArkes] at hdust
  omega

/-- What the transactions of a block spend was there before the block or is created in it. -/
theorem TxsOk.mem_or_created {h : ℕ} {P P' : UtxoSet} {txs : List Transaction}
    (hok : TxsOk C magic h P txs P') {tx : Transaction} (htx : tx ∈ txs) {i : TxInput}
    (hi : i ∈ tx.inputs) : i.outpoint ∈ P.utxos ∨ i.outpoint ∈ createdKeys C txs := by
  induction hok with
  | nil => cases htx
  | @cons P t txs P' fee ht hrest ih =>
    rw [createdKeys, List.flatMap_cons, List.mem_append]
    rcases List.mem_cons.mp htx with rfl | htx
    · exact Or.inl (ht.mem hi)
    · rcases ih htx with hmem | hlater
      · rcases UtxoSet.mem_applyTransaction.mp hmem with hnow | ⟨hbefore, -⟩
        · exact Or.inr (Or.inl hnow)
        · exact Or.inl hbefore
      · exact Or.inr (Or.inr hlater)

/-- Hence no two of them spend the same, if they create nothing that they spend. -/
theorem TxsOk.pairwise_disjoint {h : ℕ} {P P' : UtxoSet} {txs : List Transaction}
    (hok : TxsOk C magic h P txs P') (hord : ∀ tx ∈ txs, tx.isCoinbase = false)
    (hnew : ∀ tx ∈ txs, ∀ i ∈ tx.inputs, i.outpoint ∉ createdKeys C txs) :
    txs.Pairwise fun tx tx' => ∀ i ∈ tx.inputs, ∀ i' ∈ tx'.inputs, i.outpoint ≠ i'.outpoint := by
  induction hok with
  | nil => exact .nil
  | @cons P t txs P' fee ht hrest ih =>
    have hlater : ∀ k, k ∈ createdKeys C txs → k ∈ createdKeys C (t :: txs) := fun k hk =>
      List.mem_append_right _ hk
    refine .cons (fun t' ht' i hi i' hi' heq => ?_) (ih (fun tx htx => hord tx
      (List.mem_cons_of_mem _ htx)) fun tx htx i hi hmem =>
        hnew tx (List.mem_cons_of_mem _ htx) i hi (hlater _ hmem))
    -- the first one has erased the key, and nobody writes it again
    have hnone := hnew t List.mem_cons_self i hi
    rcases hrest.mem_or_created ht' hi' with hmem | hmem
    · rcases UtxoSet.mem_applyTransaction.mp hmem with hnow | ⟨-, hns⟩
      · exact hnone (heq ▸ List.mem_append_left _ hnow)
      · rw [UtxoSet.spentKeys_of_not_isCoinbase (hord t List.mem_cons_self), ← heq] at hns
        exact hns (List.mem_map_of_mem hi)
    · exact hnone (heq ▸ hlater _ hmem)

theorem outputs_ne_nil_of_mem_created {tx : Transaction} {k : String}
    (hk : k ∈ (tx.createdEntries C).map Prod.fst) : tx.outputs ≠ [] := by
  intro hnil
  obtain ⟨i, hi, -⟩ := UtxoSet.mem_createdKeys.mp hk
  rw [hnil] at hi
  cases hi

theorem mem_chainTxs_left {b : Block} {tx : Transaction} (htx : tx ∈ chainTxs bs) :
    tx ∈ chainTxs (bs ++ [b]) :=
  mem_chainTxs_of_subset (fun _ hx => List.mem_append_left _ hx) htx

theorem mem_chainTxs_right {b : Block} {tx : Transaction} (htx : tx ∈ b.transactions) :
    tx ∈ chainTxs (bs ++ [b]) :=
  mem_chainTxs.mpr ⟨b, List.mem_append_right _ List.mem_cons_self, htx⟩

/-- The parts of a block on top of a chain: a coinbase, and transactions that are valid both against
what the chain left and one after the other. -/
theorem Extends.exists_parts (hledger : Ledger C (chainTxs bs)) {now : ℕ} {b : Block}
    (hext : Extends C magic now bs b) {u : UtxoSet} {m : ℕ} (hrep : replay C bs = .ok (u, m)) :
    ∃ cb rest, b.transactions = cb :: rest ∧ cb.isCoinbase = true ∧
      (∀ tx ∈ rest, tx.isCoinbase = false) ∧
      (∀ tx ∈ rest, ∃ fee, TxOk C tx u magic b.height fee) ∧
      ∃ u', TxsOk C magic b.height u rest u' := by
  obtain ⟨cb, rest, hb, hcb, hord⟩ := (hext.authorised hledger).coinbase
  obtain ⟨u₀, m₀, hrep₀, hctx⟩ := hext.context
  cases hrep.symm.trans hrep₀
  obtain ⟨fees, hfees, -⟩ := hctx.subsidy_ok
  have htxs := hctx.txs_ok
  rw [hb, List.tail_cons] at hfees htxs
  exact ⟨cb, rest, hb, hcb, hord, hfees.exists_txOk, htxs⟩

/-- The invariant of a chain with the outputs `u` it leaves: every key was created once, and what
was spent was created and is gone. -/
structure CreatedOnce (C : Crypto) (bs : List Block) (u : UtxoSet) : Prop where
  nodup : (createdKeys C (chainTxs bs)).Nodup
  spent : ∀ tx ∈ chainTxs bs, ∀ k ∈ tx.spentKeys, k ∈ createdKeys C (chainTxs bs) ∧ k ∉ u.utxos

namespace CreatedOnce

variable {u : UtxoSet} {m now : ℕ} {b : Block} (h : CreatedOnce C bs u)
  (hrep : replay C bs = .ok (u, m))

include hrep in
/-- What is unspent was created. -/
theorem mem_createdKeys_of_mem {k : String} (hk : k ∈ u.utxos) :
    k ∈ createdKeys C (chainTxs bs) := by
  rw [replay_utxoSet hrep] at hk
  exact (mem_foldl_applyTransaction hk).resolve_right fun hempty => Finmap.notMem_empty hempty.1

include h in
/-- A transaction that was applied is not valid again, unless it pays nothing. -/
theorem notMem_of_txOk {tx : Transaction} {height fee : ℕ} (hok : TxOk C tx u magic height fee)
    (hord : tx.isCoinbase = false) (hpays : tx.outputs ≠ []) : tx ∉ chainTxs bs := by
  intro hmem
  obtain ⟨i, hi⟩ := hok.exists_input hpays
  have hspent : i.outpoint ∈ tx.spentKeys := by
    rw [UtxoSet.spentKeys_of_not_isCoinbase hord]
    exact List.mem_map_of_mem hi
  exact (h.spent tx hmem _ hspent).2 (hok.mem hi)

section

variable (hledger : Ledger C (chainTxs (bs ++ [b]))) (hinj : TxidInj C (chainTxs (bs ++ [b])))
  {cb : Transaction} {rest : List Transaction} (hb : b.transactions = cb :: rest)
  (hcb : cb.isCoinbase = true) (hord : ∀ tx ∈ rest, tx.isCoinbase = false)
  (hok : ∀ tx ∈ rest, ∃ fee, TxOk C tx u magic b.height fee)
  (hcoinbase : ∀ cb ∈ b.transactions.head?, cb.outputs ≠ [] → cb ∉ chainTxs bs)

include h hinj hb hord hok hcoinbase in
/-- The block writes no key that was written before: its writer would be applied again. -/
theorem notMem_createdKeys {k : String} (hk : k ∈ createdKeys C b.transactions) :
    k ∉ createdKeys C (chainTxs bs) := by
  intro hk₀
  obtain ⟨tx, htx, hkey⟩ := mem_createdKeys_iff.mp hk
  obtain ⟨t, ht, hkey₀⟩ := mem_createdKeys_iff.mp hk₀
  obtain rfl := hinj.eq_of_mem_created (mem_chainTxs_right htx) (mem_chainTxs_left ht) hkey hkey₀
  rw [hb, List.mem_cons] at htx
  rcases htx with rfl | htx
  · exact hcoinbase tx (hb ▸ rfl) (outputs_ne_nil_of_mem_created hkey) ht
  · obtain ⟨fee, htxok⟩ := hok tx htx
    exact h.notMem_of_txOk htxok (hord tx htx) (outputs_ne_nil_of_mem_created hkey) ht

include hrep hok in
/-- What the block spends was created behind it. -/
theorem outpoint_mem_createdKeys {tx : Transaction} (htx : tx ∈ rest) {i : TxInput}
    (hi : i ∈ tx.inputs) : i.outpoint ∈ createdKeys C (chainTxs bs) := by
  obtain ⟨fee, htxok⟩ := hok tx htx
  exact mem_createdKeys_of_mem hrep (htxok.mem hi)

include h hrep hledger hinj hb hcb hord hok hcoinbase in
/-- The block writes no key twice. -/
theorem nodup_createdKeys_block {u' : UtxoSet} (htxs : TxsOk C magic b.height u rest u') :
    (createdKeys C b.transactions).Nodup := by
  have hmem : ∀ tx ∈ rest, tx ∈ chainTxs (bs ++ [b]) := fun tx htx =>
    mem_chainTxs_right (hb ▸ List.mem_cons_of_mem _ htx)
  have hapart := htxs.pairwise_disjoint hord fun tx htx i hi hmem =>
    h.notMem_createdKeys hinj hb hord hok hcoinbase (hb ▸ List.mem_append_right _ hmem)
      (outpoint_mem_createdKeys hrep hok htx hi)
  refine List.nodup_flatMap.mpr ⟨fun tx htx => createdKeys_nodup_of_le
    (hledger.bounded tx (mem_chainTxs_right htx)), ?_⟩
  rw [hb]
  refine .cons (fun tx htx k hk hk' => ?_) (hapart.imp_of_mem fun htx htx' hdisj k hk hk' => ?_)
  · have heq := hinj.eq_of_mem_created (mem_chainTxs_right (hb ▸ List.mem_cons_self)) (hmem tx htx)
      hk hk'
    rw [heq, hord tx htx] at hcb
    cases hcb
  · -- one transaction twice would spend its first input twice
    obtain rfl := hinj.eq_of_mem_created (hmem _ htx) (hmem _ htx') hk hk'
    obtain ⟨fee, htxok⟩ := hok _ htx
    obtain ⟨i, hi⟩ := htxok.exists_input (outputs_ne_nil_of_mem_created hk)
    exact hdisj i hi i hi rfl

include h hrep hledger hinj hcoinbase in
/-- **One more block**, whose coinbase is a new one if it pays. -/
theorem snoc (hext : Extends C magic now bs b) :
    CreatedOnce C (bs ++ [b]) (applyBlock C u b) := by
  obtain ⟨cb, rest, hb, hcb, hord, hok, u', htxs⟩ :=
    hext.exists_parts (hledger.mono fun _ htx => mem_chainTxs_left htx) hrep
  have hnew := fun {k} => h.notMem_createdKeys (k := k) hinj hb hord hok hcoinbase
  refine ⟨?_, fun tx htx k hk => ?_⟩
  · rw [chainTxs_append_singleton, createdKeys_append]
    exact h.nodup.append (h.nodup_createdKeys_block hrep hledger hinj hb hcb hord hok hcoinbase
      htxs) fun k hk hk' => hnew hk' hk
  · -- an old key is not written again, so it is gone if it was gone or is spent now
    have hgone : k ∈ createdKeys C (chainTxs bs) → (k ∈ u.utxos → ∃ tx ∈ b.transactions,
        k ∈ tx.spentKeys) → k ∉ (applyBlock C u b).utxos := by
      intro hcreated hspent hmem
      rcases mem_foldl_applyTransaction hmem with hmem | ⟨hmem, hkept⟩
      · exact hnew hmem hcreated
      · obtain ⟨t, ht, hkt⟩ := hspent hmem
        exact hkept t ht hkt
    rw [chainTxs_append_singleton, createdKeys_append, List.mem_append]
    rw [chainTxs_append_singleton, List.mem_append] at htx
    rcases htx with htx | htx
    · obtain ⟨hcreated, hnone⟩ := h.spent tx htx k hk
      exact ⟨Or.inl hcreated, hgone hcreated fun hmem => absurd hmem hnone⟩
    · have hkey : k ∈ createdKeys C (chainTxs bs) := by
        rw [hb, List.mem_cons] at htx
        rcases htx with rfl | htx
        · rw [UtxoSet.spentKeys_of_isCoinbase hcb] at hk
          cases hk
        · rw [UtxoSet.spentKeys_of_not_isCoinbase (hord tx htx)] at hk
          obtain ⟨i, hi, rfl⟩ := List.mem_map.mp hk
          exact outpoint_mem_createdKeys hrep hok htx hi
      exact ⟨Or.inl hkey, hgone hkey fun _ => ⟨tx, htx, hk⟩⟩

end

end CreatedOnce

/-- The coinbase of `b`, if it pays, is none of the coinbases of `bs`. -/
def NewCoinbase (bs : List Block) (b : Block) : Prop :=
  ∀ cb ∈ b.transactions.head?, cb.outputs ≠ [] → ∀ a ∈ bs, a.transactions.head? ≠ some cb

namespace ValidChain

variable (hgtxs : g.transactions = [genesisCoinbase]) (h : ValidChain C magic T g bs)
  (hnew : ∀ ds b, ds ≠ [] → ds ++ [b] <+: bs → NewCoinbase ds b)

include hgtxs h in
/-- A coinbase on a valid chain is the coinbase of a block. -/
theorem head?_of_isCoinbase (hledger : Ledger C (chainTxs bs)) {tx : Transaction}
    (htx : tx ∈ chainTxs bs) (hcb : tx.isCoinbase = true) :
    ∃ a ∈ bs, a.transactions.head? = some tx := by
  obtain ⟨a, ha, htxa⟩ := mem_chainTxs.mp htx
  refine ⟨a, ha, ?_⟩
  obtain ⟨i, hi⟩ := List.mem_iff_getElem?.mp ha
  cases i with
  | zero =>
    rw [← List.head?_eq_getElem?, h.head?_eq] at hi
    obtain rfl := Option.some.inj hi
    rw [hgtxs, List.mem_singleton] at htxa
    rw [hgtxs, htxa]
    rfl
  | succ i =>
    obtain ⟨now, -, hext⟩ := h.extends_of_getElem? hi
    obtain ⟨cb, rest, hb, -, hord⟩ := (hext.authorised (hledger.mono fun t ht =>
      mem_chainTxs_of_subset (fun x hx => List.mem_of_mem_take hx) ht)).coinbase
    rw [hb, List.mem_cons] at htxa
    rcases htxa with rfl | htxa
    · rw [hb]
      rfl
    · rw [hord tx htxa] at hcb
      cases hcb

include hgtxs h hnew in
/-- **On a chain whose paying coinbases are new, every key is created once.** -/
theorem createdOnce (hledger : Ledger C (chainTxs bs)) (hinj : TxidInj C (chainTxs bs)) :
    CreatedOnce C bs ((chainTxs bs).foldl (UtxoSet.applyTransaction C) UtxoSet.empty) := by
  induction h with
  | genesis =>
    have htxs : chainTxs [g] = [genesisCoinbase] := by simp [chainTxs, hgtxs]
    refine ⟨?_, fun tx htx k hk => ?_⟩
    · rw [htxs, createdKeys, List.flatMap_singleton]
      exact createdKeys_nodup_of_le (by decide)
    · rw [htxs, List.mem_singleton] at htx
      rw [htx] at hk
      cases hk
  | @snoc bs b now hbs hnow hne hext ih =>
    obtain ⟨u₀, m₀, hrep₀, -⟩ := hext.context
    have hledger₀ := hledger.mono fun tx htx => mem_chainTxs_left (b := b) htx
    have hbefore := ih (fun ds b' hds hpre => hnew ds b' hds (hpre.trans (List.prefix_append _ _)))
      hledger₀ (fun t ht t' ht' => hinj t (mem_chainTxs_left ht) t'
        (mem_chainTxs_left ht'))
    rw [← replay_utxoSet hrep₀] at hbefore
    rw [chainTxs_append_singleton, List.foldl_append, ← replay_utxoSet hrep₀]
    refine hbefore.snoc hrep₀ hledger hinj (fun cb hcb hpays hmem => ?_) hext
    have hcoinbase : cb.isCoinbase = true := (ValidChain.snoc hbs hnow hne hext).isCoinbase_head?
      hgtxs (List.mem_append_right _ List.mem_cons_self) hcb
    obtain ⟨a, ha, hacb⟩ := hbs.head?_of_isCoinbase hgtxs hledger₀ hmem hcoinbase
    exact hnew bs b hbs.ne_nil List.prefix_rfl cb hcb hpays a ha hacb

end ValidChain

/-- Two coinbases with one txid are one coinbase, and it pays nothing. -/
theorem coinbasesApart_of_newCoinbase (hinj : TxidInj C (chainTxs bs))
    (hnew : ∀ ds b, ds ≠ [] → ds ++ [b] <+: bs → NewCoinbase ds b) : CoinbasesApart C bs := by
  intro i j a b cb cb' hij ha hb hcb hcb' hid k hk _
  obtain rfl : cb = cb' := hinj cb
    (mem_chainTxs.mpr ⟨a, List.mem_of_getElem? ha, List.mem_of_mem_head? hcb⟩) cb'
    (mem_chainTxs.mpr ⟨b, List.mem_of_getElem? hb, List.mem_of_mem_head? hcb'⟩) hid
  have hmem : a ∈ bs.take j := List.mem_of_getElem? (i := i) (by
    rw [List.getElem?_take, if_pos hij, ha])
  have hbegins : bs.take j ++ [b] <+: bs := by
    have htake := List.take_prefix (j + 1) bs
    rwa [List.take_add_one, hb, Option.toList_some] at htake
  exact hnew _ b (List.ne_nil_of_mem hmem) hbegins cb hcb'
    (outputs_ne_nil_of_mem_created hk) a hmem hcb

namespace Blockchain

/-- The block carries the coinbase of a block on the chain behind it, and it pays. -/
def RepeatsCoinbase (s : Blockchain) (b : Block) : Prop :=
  ∃ bs, s.chainToHash b.header.prevHash = .ok bs ∧ ¬ NewCoinbase bs b

/-- **No unspent output is overwritten.** On every branch of recorded blocks, and so on the active
chain, if no block was recorded on top of a chain that carries its coinbase already. -/
theorem no_output_overwritten (C : Crypto) (fuel : ℕ) (bits : UInt32) (g : Block)
    (hgen : genesisBlockWithBits C fuel bits = some g) (store : Option BlockStore) (magic : UInt32)
    (evs : List Event)
    (hnc : NoCollision C (g :: recorded C (fromGenesisWithMagic C g store magic) evs))
    (hnew : ∀ pre now b w, pre ++ [.addBlock now b] <+: evs →
      (run C (fromGenesisWithMagic C g store magic) pre).checkBlock C now b = .ok (some w) →
      ¬ (run C (fromGenesisWithMagic C g store magic) pre).RepeatsCoinbase b) :
    Branch C g (g :: recorded C (fromGenesisWithMagic C g store magic) evs)
        (run C (fromGenesisWithMagic C g store magic) evs).blocks ∧
      ∀ bs, Branch C g (g :: recorded C (fromGenesisWithMagic C g store magic) evs) bs →
        NoOverwrite C bs ∧ CoinbasesApart C bs := by
  obtain ⟨hg, hgtxs⟩ := genesisBlockWithBits_spec hgen
  have hinv := inv_run hg store magic evs hnc
  -- every block was recorded with a new coinbase
  have hsteps := run_steps hg store magic evs hnc fun pre now b hpre bs w hgrows =>
    not_not.mp fun hrepeats => by
      have hi := inv_run hg store magic pre
        (noCollision_of_isPrefix ((List.prefix_append _ _).trans hpre) hnc)
      exact hnew pre now b w hpre (checkBlock_eq_ok_some_iff.mpr hgrows.checked)
        ⟨bs, hi.chainToHash_of_grows hg hgrows, hrepeats⟩
  refine ⟨hinv.active.branch hg fun x hx => hinv.mem_hist hx, fun bs hbs => ?_⟩
  have hvalid := hbs.validChain hg hinv.history hinv.separated
  have hsub : ∀ tx ∈ chainTxs bs, tx ∈ chainTxs (g :: recorded C
      (fromGenesisWithMagic C g store magic) evs) := fun tx htx =>
        mem_chainTxs_of_subset hbs.mem htx
  have hinj : TxidInj C (chainTxs bs) := fun t ht t' ht' =>
    hinv.history.txid_inj hgtxs hnc t (hsub t ht) t' (hsub t' ht')
  have hchain : ∀ ds b, ds ≠ [] → ds ++ [b] <+: bs → NewCoinbase ds b := by
    intro ds b hds hpre
    have hlt : ds.length < bs.length := by
      have hle := hpre.length_le
      rwa [List.length_append, List.length_singleton] at hle
    have htake := List.prefix_iff_eq_take.mp hpre
    rw [List.length_append, List.length_singleton] at htake
    exact hsteps ds b hds (htake ▸ hvalid.take hlt) fun x hx => hbs.mem x (hpre.subset hx)
  exact ⟨noOverwrite_of_nodup (hvalid.createdOnce hgtxs hchain
    ((hinv.history.ledger hgtxs hnc).mono hsub) hinj).nodup,
    coinbasesApart_of_newCoinbase hinj hchain⟩

/-- The first blocks of the idle chain, of which one pays. -/
theorem no_output_overwritten_idleChain :
    NoOverwrite Crypto.sample (idleChain 1) ∧ CoinbasesApart Crypto.sample (idleChain 1) := by
  obtain ⟨s, -, hrun, -, hblocks, -⟩ := (sampleChain_idleChain (n := 1) (by decide)).run_deliver
    (by decide)
  have hevs : deliver (fun _ => sampleNow) 0 (idleChain 1).tail =
      [.addBlock sampleNow (idleBlock 0), .addBlock sampleNow (idleBlock 1)] := rfl
  have hwrites := no_output_overwritten Crypto.sample 1 regtestGenesisBits sampleGenesis
    genesisBlockWithBits_sample none regtestMagic
    (deliver (fun _ => sampleNow) 0 (idleChain 1).tail)
    ((sampleChain_idleChain (by decide)).noCollision_recorded (noCollision_idleChain (by decide)))
      (by
      rintro pre now b w ⟨post, hpre⟩ - ⟨bs, hwalk, hrepeats⟩
      refine hrepeats fun cb hcb hpays a ha => ?_
      rw [hevs] at hpre
      rcases pre with _ | ⟨e, _ | ⟨e', pre⟩⟩
      · -- the block that pays stands on the genesis
        obtain ⟨rfl, rfl⟩ := Event.addBlock.inj (List.cons.inj hpre).1
        have hgenesis :
            (fromGenesisWithMagic Crypto.sample sampleGenesis none regtestMagic).chainToHash
              (idleBlock 0).header.prevHash = .ok [sampleGenesis] := by decide +kernel
        obtain rfl := Except.ok.inj (hwalk.symm.trans hgenesis)
        obtain rfl := Option.some.inj hcb
        rw [List.mem_singleton.mp ha]
        decide +kernel
      · obtain ⟨rfl, rfl⟩ := Event.addBlock.inj (List.cons.inj (List.cons.inj hpre).2).1
        obtain rfl := Option.some.inj hcb
        exact absurd rfl hpays
      · have hlen := congrArg List.length hpre
        simp at hlen)
  rw [hrun, hblocks] at hwrites
  exact hwrites.2 _ hwrites.1

/-- The block at height 2 with the coinbase of the one at height 1. -/
def repeatBlock : Block := childBlock Crypto.sample (idleBlock 0) [payCoinbase] (sampleTime 2)

/-- The chain up to it. -/
def repeatChain : List Block := idleChain 0 ++ [repeatBlock]

theorem sampleChain_repeatChain :
    SampleChain 2 repeatChain ((idleUtxo 0).applyTransaction Crypto.sample payCoinbase)
      (idleMinted + 32188184932) := by
  have hvalue : checkedSum 64 (payCoinbase.outputs.map fun o => o.value.toNat) =
      some 32188184932 := by decide
  exact (sampleChain_idleChain (by decide)).snoc (by decide) (getLast?_idleChain 0) rfl (by decide)
    (by decide +kernel) (by decide) (by decide) .nil (by decide) .nil hvalue (by decide +kernel)
    (by decide)

/-- **One coinbase, mined twice, leaves one output.** -/
theorem output_overwritten_repeatChain :
    let s := run Crypto.sample (fromGenesisWithMagic Crypto.sample sampleGenesis none regtestMagic)
      (deliver (fun _ => sampleNow) 0 repeatChain.tail)
    NoCollision Crypto.sample (sampleGenesis :: recorded Crypto.sample
      (fromGenesisWithMagic Crypto.sample sampleGenesis none regtestMagic)
      (deliver (fun _ => sampleNow) 0 repeatChain.tail)) ∧
    ¬ NoOverwrite Crypto.sample s.blocks ∧ ¬ CoinbasesApart Crypto.sample s.blocks := by
  obtain ⟨s, -, hrun, -, hblocks, -⟩ := sampleChain_repeatChain.run_deliver (by decide)
  have hnc : NoCollision Crypto.sample repeatChain := by
    rw [NoCollision]
    decide +kernel
  have hkey : UtxoSet.key (payCoinbase.txidHex Crypto.sample) 0 ∈
      (payCoinbase.createdEntries Crypto.sample).map Prod.fst := List.mem_cons_self
  dsimp only
  rw [hrun, hblocks]
  refine ⟨sampleChain_repeatChain.noCollision_recorded hnc, fun hno => ?_, fun hapart => ?_⟩
  · have hfresh := (hno [genesisCoinbase, payCoinbase] payCoinbase [] rfl).2 _ hkey
    exact hfresh (by decide +kernel)
  · have hgone := hapart 1 2 (idleBlock 0) repeatBlock payCoinbase payCoinbase
      (by decide) rfl rfl rfl rfl rfl _ hkey
    exact hgone (by decide +kernel)

end Blockchain

end Arkos
