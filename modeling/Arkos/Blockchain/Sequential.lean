import Arkos.Blockchain.Branch
import Arkos.Blockchain.NextBlock

/-!
# A block as a sequence of transactions

The second loop of `validate_block_against_parent` validates every transaction against what the ones
before it left and applies it. One would expect a block to be valid when this goes through and the
coinbase claims no more than the fees found on the way allow: that is `SequentialOk`. But the fees
are not taken from that loop. They are found by a loop before it, which validates the same
transactions against the unspent outputs of the parent and does not apply them. So a transaction
that spends an output of its own block is refused by the loop that is there to add up fees, although
the second loop would accept it.

Whatever passes both loops is valid as a sequence, with the same fees. The converse fails for two
kinds of blocks: those with a spend inside the block, and those whose fees do not fit a word.

## Main definitions

* `sequentialStep`, `sequentialFees`, `SequentialOk` — what a block should satisfy
* `SpendsParent`, `parentFees` — the outpoints named, and the fees, in terms of the parent
* `OtherChecks` — the rest of the validation

## Main results

* `Blockchain.validateBlockAgainstParent_iff_sequentialOk`
* `Blockchain.sequential_semantics_iff`, and the spend inside a block
  `Blockchain.not_sequential_semantics`
-/

namespace Arkos

/-! ### Sequential semantics -/

section

variable (C : Crypto)

/-- One step of the fold: validate against what is there, add the fee and apply. -/
def sequentialStep (magic : UInt32) (h : ℕ) (acc : UtxoSet × ℕ) (tx : Transaction) :
    Except TxError (UtxoSet × ℕ) :=
  match validateTxWithUtxo C tx acc.1 magic h with
  | .error e => .error e
  | .ok fee => .ok (acc.1.applyTransaction C tx, acc.2 + fee)

/-- The fold over the transactions: what it leaves unspent, and the sum of the fees. -/
def sequentialFees (magic : UInt32) (h : ℕ) (u : UtxoSet) (txs : List Transaction) :
    Except TxError (UtxoSet × ℕ) :=
  txs.foldlM (sequentialStep C magic h) (u, 0)

/-- Each transaction is valid against what the earlier ones left, and the coinbase claims at most
the subsidy and the fees. -/
def SequentialOk (magic : UInt32) (b : Block) (totalMinted : ℕ) (u : UtxoSet) : Prop :=
  ∃ u' fees, sequentialFees C magic b.height u b.transactions.tail = .ok (u', fees) ∧
    coinbaseValue b ≤ cappedReward b.height totalMinted + fees

end

/-- No transaction spends an output of its own block: what they name is unspent in the parent. -/
def SpendsParent (u : UtxoSet) (b : Block) : Prop :=
  ∀ tx ∈ b.transactions.tail, ∀ i ∈ tx.inputs, i.outpoint ∈ u.utxos

/-- The fees of a block, in terms of the outputs of the parent. -/
def parentFees (u : UtxoSet) (b : Block) : ℕ :=
  (b.transactions.tail.map fun tx => tx.inputSum u - tx.outputSum).sum

variable {C : Crypto} {magic : UInt32} {h : ℕ} {E : List Transaction}

/-- The fold stripped to what it asks. -/
inductive SequentialTxs (C : Crypto) (magic : UInt32) (h : ℕ) :
    UtxoSet → List Transaction → List ℕ → UtxoSet → Prop
  | nil {u} : SequentialTxs C magic h u [] [] u
  | cons {u tx txs fee fees u'} : TxOk C tx u magic h fee →
      SequentialTxs C magic h (u.applyTransaction C tx) txs fees u' →
      SequentialTxs C magic h u (tx :: txs) (fee :: fees) u'

theorem sequentialStep_eq_ok_iff {acc acc' : UtxoSet × ℕ} {tx : Transaction} :
    sequentialStep C magic h acc tx = .ok acc' ↔
      ∃ fee, TxOk C tx acc.1 magic h fee ∧ acc' = (acc.1.applyTransaction C tx, acc.2 + fee) := by
  rw [sequentialStep]
  constructor
  · intro hok
    split at hok
    · cases hok
    · next fee hfee => exact ⟨fee, validateTxWithUtxo_eq_ok_iff.mp hfee, (Except.ok.inj hok).symm⟩
  · rintro ⟨fee, htx, rfl⟩
    rw [validateTxWithUtxo_eq_ok_iff.mpr htx]

theorem foldlM_sequentialStep_eq_ok_iff (txs : List Transaction) {u u' : UtxoSet} {acc t : ℕ} :
    txs.foldlM (sequentialStep C magic h) (u, acc) = .ok (u', t) ↔
      ∃ fees, SequentialTxs C magic h u txs fees u' ∧ acc + fees.sum = t := by
  induction txs generalizing u acc with
  | nil =>
    constructor
    · intro hok
      cases hok
      exact ⟨[], .nil, rfl⟩
    · rintro ⟨_, ⟨⟩, rfl⟩
      rfl
  | cons tx txs ih =>
    rw [List.foldlM_cons]
    constructor
    · intro hok
      cases hs : sequentialStep C magic h (u, acc) tx with
      | error e =>
        rw [hs] at hok
        cases hok
      | ok st =>
        rw [hs] at hok
        obtain ⟨fee, htx, rfl⟩ := sequentialStep_eq_ok_iff.mp hs
        obtain ⟨fees, hrest, rfl⟩ := ih.mp hok
        exact ⟨fee :: fees, .cons htx hrest, by rw [List.sum_cons]; omega⟩
    · rintro ⟨_, hseq, rfl⟩
      cases hseq with
      | @cons _ _ _ fee fees _ htx hrest =>
        rw [sequentialStep_eq_ok_iff.mpr ⟨fee, htx, rfl⟩]
        refine ih.mpr ⟨fees, hrest, ?_⟩
        rw [List.sum_cons]
        omega

theorem sequentialOk_iff {b : Block} {m : ℕ} {u : UtxoSet} :
    SequentialOk C magic b m u ↔ ∃ fees u',
      SequentialTxs C magic b.height u b.transactions.tail fees u' ∧
        coinbaseValue b ≤ cappedReward b.height m + fees.sum := by
  constructor
  · rintro ⟨u', t, hfold, hle⟩
    obtain ⟨fees, hseq, hsum⟩ := (foldlM_sequentialStep_eq_ok_iff _).mp hfold
    exact ⟨fees, u', hseq, by omega⟩
  · rintro ⟨fees, u', hseq, hle⟩
    exact ⟨u', fees.sum, (foldlM_sequentialStep_eq_ok_iff _).mpr ⟨fees, hseq, Nat.zero_add _⟩, hle⟩

/-! ### The two loops and the fold -/

theorem SequentialTxs.txsOk {u u' : UtxoSet} {txs : List Transaction} {fees : List ℕ}
    (hseq : SequentialTxs C magic h u txs fees u') : TxsOk C magic h u txs u' := by
  induction hseq with
  | nil => exact .nil
  | cons htx _ ih => exact .cons htx ih

theorem FeesOf.mem {u : UtxoSet} {txs : List Transaction} {fees : List ℕ}
    (hf : FeesOf C u magic h txs fees) :
    ∀ tx ∈ txs, ∀ i ∈ tx.inputs, i.outpoint ∈ u.utxos := by
  intro tx htx i hi
  obtain ⟨fee, hok⟩ := hf.exists_txOk tx htx
  exact hok.mem hi

theorem FeesOf.sum_eq {u : UtxoSet} {txs : List Transaction} {fees : List ℕ}
    (hf : FeesOf C u magic h txs fees) :
    fees.sum = (txs.map fun tx => tx.inputSum u - tx.outputSum).sum := by
  induction hf with
  | nil => rfl
  | cons htx _ ih =>
    have hfee := htx.fee_eq
    rw [List.sum_cons, List.map_cons, List.sum_cons, ih]
    omega

/-- **What passes both loops is valid as a sequence, with the fees of the first loop**: an outpoint
that is there twice holds the same output twice. -/
theorem TxsOk.sequentialTxs (hE : Ledger C E) {u v v' : UtxoSet} {txs : List Transaction}
    {fees : List ℕ} (hu : Originates C E u) (hv : Originates C E v) (htxs : ∀ tx ∈ txs, tx ∈ E)
    (hfees : FeesOf C u magic h txs fees) (hok : TxsOk C magic h v txs v') :
    SequentialTxs C magic h v txs fees v' := by
  induction hok generalizing fees with
  | nil =>
    cases hfees
    exact .nil
  | @cons v tx txs v' fee' htx _ ih =>
    cases hfees with
    | @cons _ _ fee fees hfee hfees =>
      obtain ⟨htxE, hsub⟩ := List.forall_mem_cons.mp htxs
      obtain rfl := hfee.fee_unique hE hu hv htx
      exact .cons htx (ih (Ledger.originates_applyTransaction hv htxE) hsub hfees)

/-- Where everything named is unspent, a set that grew out of `u` is read like `u`. -/
theorem Ledger.sameReads (hE : Ledger C E) {u v : UtxoSet} (hu : Originates C E u)
    (hv : Originates C E v) (hheights : v.coinbaseHeights = u.coinbaseHeights) {tx : Transaction}
    (hmem : ∀ i ∈ tx.inputs, i.outpoint ∈ u.utxos) (hmem' : ∀ i ∈ tx.inputs, i.outpoint ∈ v.utxos) :
    SameReads v u tx := by
  refine ⟨fun i hi => ?_, fun i _ => by rw [hheights]⟩
  obtain ⟨o, ho⟩ := Finmap.mem_iff.mp (hmem i hi)
  obtain ⟨o', ho'⟩ := Finmap.mem_iff.mp (hmem' i hi)
  obtain ⟨t, ht, hc⟩ := hu _ o ho
  obtain ⟨t', ht', hc'⟩ := hv _ o' ho'
  rw [ho, ho', hE.consistent t ht t' ht' _ _ _ hc hc']

/-- **A sequence that spends nothing of its own passes the first loop, with its fees.** -/
theorem SequentialTxs.feesOf (hE : Ledger C E) {u v v' : UtxoSet} {txs : List Transaction}
    {fees : List ℕ} (hu : Originates C E u) (hv : Originates C E v) (htxs : ∀ tx ∈ txs, tx ∈ E)
    (hheights : v.coinbaseHeights = u.coinbaseHeights)
    (hmem : ∀ tx ∈ txs, ∀ i ∈ tx.inputs, i.outpoint ∈ u.utxos)
    (hseq : SequentialTxs C magic h v txs fees v') : FeesOf C u magic h txs fees := by
  induction hseq with
  | nil => exact .nil
  | @cons v tx txs fee fees v' htx _ ih =>
    obtain ⟨htxE, hsub⟩ := List.forall_mem_cons.mp htxs
    obtain ⟨hhead, htail⟩ := List.forall_mem_cons.mp hmem
    have hsame := hE.sameReads hu hv hheights hhead fun _ hi => htx.mem hi
    -- a valid transaction is not a coinbase, so no height is recorded
    have hcb := hE.not_isCoinbase hv htx
    refine .cons (htx.of_sameReads hsame)
      (ih (Ledger.originates_applyTransaction hv htxE) hsub ?_ htail)
    rw [UtxoSet.coinbaseHeights_applyTransaction_of_not_isCoinbase v hcb, hheights]

/-- A value below the word size is not affected by saturation. -/
theorem le_saturatingAdd_iff {v a b : ℕ} (hv : v < 2 ^ 64) :
    v ≤ saturatingAdd 64 a b ↔ v ≤ a + b := by
  rw [saturatingAdd]
  omega

/-- **One block**: the checks on its transactions are the sequential semantics and two more. -/
theorem transactionsOk_iff (hE : Ledger C E) {b : Block} {u : UtxoSet} {m : ℕ}
    (hu : Originates C E u) (hb : ∀ tx ∈ b.transactions.tail, tx ∈ E) :
    ((∃ fees, FeesOf C u magic b.height b.transactions.tail fees ∧ fees.sum < 2 ^ 64 ∧
        coinbaseValue b ≤ saturatingAdd 64 (cappedReward b.height m) fees.sum) ∧
      ∃ u', TxsOk C magic b.height u b.transactions.tail u') ↔
      SequentialOk C magic b m u ∧ SpendsParent u b ∧ parentFees u b < 2 ^ 64 := by
  rw [sequentialOk_iff]
  constructor
  · rintro ⟨⟨fees, hfees, hlt, hle⟩, u', htxs⟩
    have hseq := htxs.sequentialTxs hE hu hu hb hfees
    refine ⟨⟨fees, u', hseq, (le_saturatingAdd_iff (coinbaseValue_lt b)).mp hle⟩, hfees.mem, ?_⟩
    rw [parentFees, ← hfees.sum_eq]
    exact hlt
  · rintro ⟨⟨fees, u', hseq, hle⟩, hmem, hlt⟩
    have hfees := hseq.feesOf hE hu hu hb rfl hmem
    rw [parentFees, ← hfees.sum_eq] at hlt
    exact ⟨⟨fees, hfees, hlt, (le_saturatingAdd_iff (coinbaseValue_lt b)).mpr hle⟩, u', hseq.txsOk⟩

/-! ### In a chain state -/

/-- Without collisions among them, transactions have different txids. -/
theorem txidInj_of_noTxCollision (hnc : NoTxCollision C E)
    (hsize : ∀ tx ∈ E, tx.serializedSize < 2 ^ 64) : TxidInj C E :=
  fun tx htx tx' htx' heq =>
    Transaction.encode_inj (hsize tx htx) (hnc tx htx tx' htx' (hashToHex_injective heq))

namespace Blockchain

variable {T : Set ℕ} {g : Block} {hist : List Block} {s : Blockchain}

/-- What a block has to pass besides the checks on its transactions, on top of a stored parent whose
chain is `bs` and leaves `u` unspent and `m` minted: `Block::validate`, the height, the difficulty,
the timestamp and the number of outputs of the coinbase. -/
structure OtherChecks (C : Crypto) (now : ℕ) (s : Blockchain) (b parent : Block) (bs : List Block)
    (u : UtxoSet) (m : ℕ) : Prop where
  stored : s.allBlocks.lookup b.header.prevHash = some parent
  valid : b.validate C (parent.hashHex C) = .ok ()
  height_eq : b.height = parent.height + 1
  context_eq : s.parentContext C b.header.prevHash = .ok (bs, u, m)
  bits_eq : b.header.bits = nextBitsForBlocks bs
  timestamp_ok : validateTimestamp b.header.timestamp.toNat (medianPastTimeForBlocks bs) now = true
  coinbaseOutputs_le : (b.transactions.head?.map fun tx => tx.outputs.length).getD 0 ≤
    maxCoinbaseOutputs

theorem OtherChecks.validateBlockAgainstParent_iff {now : ℕ} {b parent : Block} {bs : List Block}
    {u : UtxoSet} {m : ℕ} (hother : OtherChecks C now s b parent bs u m) :
    s.validateBlockAgainstParent C now b parent = .ok () ↔
      (∃ fees, FeesOf C u s.networkMagic b.height b.transactions.tail fees ∧ fees.sum < 2 ^ 64 ∧
        coinbaseValue b ≤ saturatingAdd 64 (cappedReward b.height m) fees.sum) ∧
      ∃ u', TxsOk C s.networkMagic b.height u b.transactions.tail u' := by
  rw [validateBlockAgainstParent_eq_ok_iff]
  constructor
  · rintro ⟨-, bs', u', m', hctx, hok⟩
    cases hother.context_eq.symm.trans hctx
    exact ⟨hok.subsidy_ok, hok.txs_ok⟩
  · rintro ⟨hsubsidy, htxs⟩
    obtain ⟨hmedian, hnow⟩ := validateTimestamp_iff.mp hother.timestamp_ok
    exact ⟨hother.height_eq, bs, u, m, hother.context_eq, hother.bits_eq, hmedian, hnow,
      hother.coinbaseOutputs_le, hsubsidy, htxs⟩

/-- A history and a block that passes `Block::validate` form a ledger. -/
theorem ledger_append (hh : History C magic T g hist) (hg : g.transactions = [genesisCoinbase])
    {b : Block} {prevHash : String} (hwf : b.WellFormed C prevHash)
    (hnc : NoTxCollision C (chainTxs hist ++ b.transactions)) :
    Ledger C (chainTxs hist ++ b.transactions) := by
  refine ledger_of_txid_inj (fun tx htx => ?_) (txidInj_of_noTxCollision hnc fun tx htx => ?_)
  · rcases List.mem_append.mp htx with htx | htx
    · exact hh.outputs_le hg htx
    · exact (outputs_length_le_utxoOps htx).trans hwf.ops_le
  · rcases List.mem_append.mp htx with htx | htx
    · exact hh.serializedSize_lt hg htx
    · exact hwf.serializedSize_tx_lt tx htx

/-- **What the validator asks of the transactions.** -/
theorem validateBlockAgainstParent_iff_sequentialOk (hg : g.height = 0)
    (hgtxs : g.transactions = [genesisCoinbase]) (hi : Inv C magic T g hist s) {now : ℕ}
    {b parent : Block} {bs : List Block} {u : UtxoSet} {m : ℕ}
    (hnc : NoTxCollision C (chainTxs hist ++ b.transactions))
    (hother : OtherChecks C now s b parent bs u m) :
    s.validateBlockAgainstParent C now b parent = .ok () ↔
      SequentialOk C magic b m u ∧ SpendsParent u b ∧ parentFees u b < 2 ^ 64 := by
  have hwf := Block.validate_eq_ok_iff.mp hother.valid
  have hE := ledger_append hi.history hgtxs hwf hnc
  -- the parent set is the replay of recorded blocks
  obtain ⟨-, hparent⟩ := hi.own _ _ hother.stored
  have hctx := hother.context_eq
  rw [hwf.prevHash_eq] at hctx
  obtain ⟨-, -, hstored, hrep⟩ := hi.parentContext_spec hg hparent hctx
  have hu : Originates C (chainTxs hist ++ b.transactions) u := by
    intro k o ho
    obtain ⟨tx, htx, hc⟩ := originates_replay hrep k o ho
    have hmem := mem_chainTxs_of_subset (fun x hx => (hi.own _ x (hstored x hx)).2) htx
    exact ⟨tx, List.mem_append_left _ hmem, hc⟩
  rw [hother.validateBlockAgainstParent_iff, hi.magic_eq]
  exact transactionsOk_iff hE hu fun tx htx => List.mem_append_right _ (List.mem_of_mem_tail htx)

/-- **When block validation follows sequential semantics.** In every state a run reaches, for every
block that passes the other checks on a stored parent: the validator accepts exactly the blocks that
are valid as a sequence if and only if such a block names only outputs that are unspent in the
parent, and its fees fit a word. -/
theorem sequential_semantics_iff (C : Crypto) (fuel : ℕ) (bits : UInt32) (g : Block)
    (hgen : genesisBlockWithBits C fuel bits = some g) (store : Option BlockStore) (magic : UInt32)
    (evs : List Event) (now : ℕ) (b parent : Block) (bs : List Block) (u : UtxoSet) (m : ℕ)
    (hnc : NoCollision C (g :: recorded C (fromGenesisWithMagic C g store magic) evs))
    (htxs : NoTxCollision C
      (chainTxs (g :: recorded C (fromGenesisWithMagic C g store magic) evs) ++ b.transactions))
    (hother : OtherChecks C now (run C (fromGenesisWithMagic C g store magic) evs) b
      parent bs u m) :
    ((run C (fromGenesisWithMagic C g store magic) evs).validateBlockAgainstParent C now b parent =
        .ok () ↔ SequentialOk C magic b m u) ↔
      (SequentialOk C magic b m u → SpendsParent u b ∧ parentFees u b < 2 ^ 64) := by
  obtain ⟨hg, hgtxs⟩ := genesisBlockWithBits_spec hgen
  have hinv := inv_run hg store magic evs hnc
  rw [validateBlockAgainstParent_iff_sequentialOk hg hgtxs hinv htxs hother]
  exact and_iff_left_iff_imp

/-! ### A spend inside a block

At height 101 the reward of block 1 is paid on, and paid on once more in the same block. -/

/-- The calls that deliver a hundred blocks. -/
def hundredRun : List Event := deliver (fun _ => sampleNow) 0 (idleChain 99).tail

/-- The payment of what the first payment paid. -/
def chainedPayment : Transaction := spendTx feePayment 1 32188170000 2

/-- The block with both. -/
def chainedBlock : Block :=
  childBlock Crypto.sample (idleBlock 99) [idleCoinbase, feePayment, chainedPayment]
    (sampleTime 101)

/-- A block of the right size on top of a sample chain passes the other checks. -/
theorem otherChecks_of_sampleChain {n m : ℕ} {u : UtxoSet} {bs : List Block}
    (h : SampleChain n bs u m) (hn : n + 1 < 2016) {p : Block} (hp : bs.getLast? = some p)
    {cb : Transaction} {rest : List Transaction} (hcb : cb.isCoinbase = true)
    (hcount : rest.length < maxBlockTransactions)
    (hsize : 184 + ((cb :: rest).map Transaction.serializedSize).sum ≤ maxBlockBytes)
    (hops : ((cb :: rest).map fun tx => tx.inputs.length + tx.outputs.length).sum ≤ maxBlockUtxoOps)
    (hout : cb.outputs.length ≤ maxCoinbaseOutputs) :
    OtherChecks Crypto.sample sampleNow
      (run Crypto.sample (fromGenesisWithMagic Crypto.sample sampleGenesis none regtestMagic)
        (deliver (fun _ => sampleNow) 0 bs.tail))
      (childBlock Crypto.sample p (cb :: rest) (sampleTime (n + 1))) p bs u m := by
  obtain ⟨s, -, hrun, hinv, hblocks, hutxo, hminted⟩ := h.run_deliver (by omega)
  have htip : s.tip = p := Option.some.inj (s.getLast?_blocks.symm.trans (hblocks ▸ hp))
  -- the header is that of an idle block, up to its Merkle root
  have hidle : idleCoinbase.serializedSize = 160 := by decide +kernel
  have hext : Extends Crypto.sample regtestMagic sampleNow bs
      (childBlock Crypto.sample p [idleCoinbase] (sampleTime (n + 1))) :=
    (h.extends_snoc hn hp rfl (by decide)
      (by rw [List.map_singleton, List.sum_singleton, hidle]; decide) (by decide) (by decide) .nil
      (by decide) .nil (v := 0) rfl (Nat.zero_le _)).1
  obtain ⟨_, _, -, hctx⟩ := hext.context
  rw [hrun]
  refine ⟨?_, ?_, rfl, ?_, hctx.bits_eq, ?_, hout⟩
  · exact htip ▸ hinv.stored s.tip s.tip_mem
  · refine Block.validate_eq_ok_iff.mpr
      ⟨rfl, meetsTarget_sample rfl, hcount, ?_, hops, ⟨cb, rest, rfl, hcb⟩, rfl⟩
    rw [serializedSize_childBlock _ (List.cons_ne_nil _ _)]
    exact hsize
  · rw [parentContext, if_pos (by rw [htip]; rfl), hblocks, hutxo, hminted]
  · exact validateTimestamp_iff.mpr ⟨hctx.median_lt, hctx.timestamp_le⟩

/-- One on top of the hundred blocks does. -/
theorem otherChecks_childBlock {cb : Transaction} {rest : List Transaction}
    (hcb : cb.isCoinbase = true) (hcount : rest.length < maxBlockTransactions)
    (hsize : 184 + ((cb :: rest).map Transaction.serializedSize).sum ≤ maxBlockBytes)
    (hops : ((cb :: rest).map fun tx => tx.inputs.length + tx.outputs.length).sum ≤ maxBlockUtxoOps)
    (hout : cb.outputs.length ≤ maxCoinbaseOutputs) :
    OtherChecks Crypto.sample sampleNow
      (run Crypto.sample
        (fromGenesisWithMagic Crypto.sample sampleGenesis none regtestMagic) hundredRun)
      (childBlock Crypto.sample (idleBlock 99) (cb :: rest) (sampleTime 101)) (idleBlock 99)
      (idleChain 99) (idleUtxo 99) idleMinted :=
  otherChecks_of_sampleChain (sampleChain_idleChain (by decide)) (by decide) (getLast?_idleChain 99)
    hcb hcount hsize hops hout

theorem txOk_chainedPayment :
    TxOk Crypto.sample chainedPayment ((idleUtxo 99).applyTransaction Crypto.sample feePayment)
      regtestMagic 101 10000 := by
  have hsize : feePayment.serializedSize = 5619 := serializedSize_spendTx _ _ _ _
  have hcb : feePayment.isCoinbase = false := isCoinbase_spendTx _ _ _ _
  have hlook : ((idleUtxo 99).applyTransaction Crypto.sample feePayment).utxos.lookup
      (UtxoSet.key (feePayment.txidHex Crypto.sample) 0) =
        some (TxOutput.p2pkh sampleAddress 32188180000) :=
    lookup_applyTransaction_spendTx payCoinbase 1 32188180000 1 (idleUtxo 99)
  have hmature : ((idleUtxo 99).applyTransaction Crypto.sample feePayment).isImmatureCoinbase
      (feePayment.txidHex Crypto.sample) 101 = false := by
    have hnone : (idleUtxo 99).coinbaseHeights.lookup (feePayment.txidHex Crypto.sample) = none :=
      lookup_coinbaseHeights_large (by omega) (by omega)
    rw [UtxoSet.isImmatureCoinbase,
      UtxoSet.coinbaseHeights_applyTransaction_of_not_isCoinbase _ hcb, hnone]
  have hvalue : (TxOutput.p2pkh sampleAddress 32188180000).value.toNat = 32188180000 := rfl
  have hpaid : (32188170000 : UInt64).toNat = 32188170000 := rfl
  have hok := txOk_spendTx 2 hlook rfl hmature (show 1 * _ < _ by rw [hvalue]; decide)
    (show dustLimitArkes ≤ (32188170000 : UInt64).toNat by decide) (by rw [hvalue, hpaid]; decide)
  rwa [hvalue, hpaid] at hok

theorem serializedSize_idleCoinbases : genesisCoinbase.serializedSize = 269 ∧
    payCoinbase.serializedSize = 217 ∧ idleCoinbase.serializedSize = 160 := by
  decide +kernel

theorem otherChecks_chainedBlock : OtherChecks Crypto.sample sampleNow
    (run Crypto.sample (fromGenesisWithMagic Crypto.sample sampleGenesis none regtestMagic)
    hundredRun) chainedBlock (idleBlock 99) (idleChain 99) (idleUtxo 99) idleMinted := by
  have hfirst : feePayment.serializedSize = 5619 := serializedSize_spendTx _ _ _ _
  have hsecond : chainedPayment.serializedSize = 5619 := serializedSize_spendTx _ _ _ _
  refine otherChecks_childBlock rfl (by decide) ?_ (by decide) (by decide)
  simp only [List.map_cons, List.map_nil, serializedSize_idleCoinbases, hfirst, hsecond]
  decide

theorem otherChecks_feeBlock : OtherChecks Crypto.sample sampleNow
    (run Crypto.sample (fromGenesisWithMagic Crypto.sample sampleGenesis none regtestMagic)
    hundredRun) feeBlock (idleBlock 99) (idleChain 99) (idleUtxo 99) idleMinted := by
  have hcb : feeCoinbase.serializedSize = 189 := by decide +kernel
  have hpayment : feePayment.serializedSize = 5619 := serializedSize_spendTx _ _ _ _
  refine otherChecks_childBlock rfl (by decide) ?_ (by decide) (by decide)
  simp only [List.map_cons, List.map_nil, hcb, hpayment]
  decide

/-- The two payments are valid one after the other. -/
theorem sequentialOk_chainedBlock :
    SequentialOk Crypto.sample regtestMagic chainedBlock idleMinted (idleUtxo 99) :=
  sequentialOk_iff.mpr ⟨[4932, 10000], _, .cons txOk_feePayment (.cons txOk_chainedPayment .nil),
    Nat.zero_le _⟩

/-- What the second payment spends is not in the parent. -/
theorem not_spendsParent_chainedBlock : ¬ SpendsParent (idleUtxo 99) chainedBlock := by
  intro hspends
  have hsize : feePayment.serializedSize = 5619 := serializedSize_spendTx _ _ _ _
  have hsizes : ∀ cb ∈ [genesisCoinbase, payCoinbase, idleCoinbase], cb.serializedSize < 300 := by
    simp [serializedSize_idleCoinbases]
  have hnames : UtxoSet.key (feePayment.txidHex Crypto.sample) 0 ∈
      chainedPayment.inputs.map TxInput.outpoint := by
    rw [chainedPayment, outpoints_spendTx]
    exact List.mem_cons_self
  obtain ⟨i, hi, heq⟩ := List.mem_map.mp hnames
  have hmem := hspends chainedPayment (List.mem_cons_of_mem _ List.mem_cons_self) i hi
  rw [heq] at hmem
  obtain ⟨o, ho⟩ := Finmap.mem_iff.mp hmem
  have horig :
      Originates Crypto.sample [genesisCoinbase, payCoinbase, idleCoinbase] (idleUtxo 99) :=
    Ledger.originates_foldl (originates_empty _) fun _ htx => htx
  obtain ⟨cb, hcb, hcreated⟩ := horig _ o ho
  obtain ⟨i, -, hkey⟩ := UtxoSet.mem_createdEntries.mp hcreated
  have hlt := hsizes cb hcb
  exact txidHex_sample_ne (by omega) (by omega) (by omega) (UtxoSet.key_inj hkey).1

/-- Nothing collides if the new transactions differ from the coinbases and from each other in
size or lock time. -/
theorem noTxCollision_hundredRun {b : Block} {l : List Transaction}
    (hl : ∀ cb ∈ [genesisCoinbase, payCoinbase, idleCoinbase], cb ∈ l)
    (hb : ∀ tx ∈ b.transactions, tx ∈ l) (hsize : ∀ tx ∈ l, tx.serializedSize < 2 ^ 64)
    (hnodup : (l.map fun tx => (tx.serializedSize, tx.lockTime)).Nodup) :
    NoTxCollision Crypto.sample (chainTxs (sampleGenesis :: recorded Crypto.sample
      (fromGenesisWithMagic Crypto.sample sampleGenesis none regtestMagic) hundredRun) ++
        b.transactions) := by
  refine noTxCollision_sample (fun tx htx => ?_) hsize hnodup
  rcases List.mem_append.mp htx with htx | htx
  · obtain ⟨x, hx, htxx⟩ := mem_chainTxs.mp htx
    obtain ⟨cb, hcb, hxtxs⟩ := transactions_of_mem_idleChain
      ((sampleChain_idleChain (n := 99) (by decide)).mem_of_mem_cons_recorded hx)
    rw [hxtxs, List.mem_singleton] at htxx
    exact htxx ▸ hl cb hcb
  · exact hb tx htx

theorem noTxCollision_chainedBlock : NoTxCollision Crypto.sample
    (chainTxs (sampleGenesis :: recorded Crypto.sample
      (fromGenesisWithMagic Crypto.sample sampleGenesis none regtestMagic) hundredRun) ++
        chainedBlock.transactions) := by
  have hfirst : feePayment.serializedSize = 5619 := serializedSize_spendTx _ _ _ _
  have hsecond : chainedPayment.serializedSize = 5619 := serializedSize_spendTx _ _ _ _
  refine noTxCollision_hundredRun (l := [genesisCoinbase, payCoinbase, idleCoinbase, feePayment,
    chainedPayment]) (by simp) (by simp [chainedBlock, childBlock])
    (by simp [serializedSize_idleCoinbases, hfirst, hsecond]) ?_
  simp only [List.map_cons, List.map_nil, serializedSize_idleCoinbases, hfirst, hsecond]
  decide

theorem noTxCollision_feeBlock : NoTxCollision Crypto.sample
    (chainTxs (sampleGenesis :: recorded Crypto.sample
      (fromGenesisWithMagic Crypto.sample sampleGenesis none regtestMagic) hundredRun) ++
        feeBlock.transactions) := by
  have hcb : feeCoinbase.serializedSize = 189 := by decide +kernel
  have hpayment : feePayment.serializedSize = 5619 := serializedSize_spendTx _ _ _ _
  refine noTxCollision_hundredRun (l := [genesisCoinbase, payCoinbase, idleCoinbase, feeCoinbase,
    feePayment]) (by simp) (by simp [feeBlock, childBlock])
    (by simp [serializedSize_idleCoinbases, hcb, hpayment]) ?_
  simp only [List.map_cons, List.map_nil, serializedSize_idleCoinbases, hcb, hpayment]
  decide

theorem noCollision_hundredRun : NoCollision Crypto.sample (sampleGenesis :: recorded Crypto.sample
    (fromGenesisWithMagic Crypto.sample sampleGenesis none regtestMagic) hundredRun) :=
  (sampleChain_idleChain (n := 99) (by decide)).noCollision_recorded
    (noCollision_idleChain (by decide))

/-- A block whose second payment spends the first one is valid as a sequence and refused. -/
theorem not_sequential_semantics :
    ¬ ∀ (C : Crypto) (fuel : ℕ) (bits : UInt32) (g : Block)
      (_ : genesisBlockWithBits C fuel bits = some g) (store : Option BlockStore) (magic : UInt32)
      (evs : List Event) (now : ℕ) (b parent : Block) (bs : List Block) (u : UtxoSet) (m : ℕ),
      NoCollision C (g :: recorded C (fromGenesisWithMagic C g store magic) evs) →
      NoTxCollision C
        (chainTxs (g :: recorded C (fromGenesisWithMagic C g store magic) evs) ++ b.transactions) →
      OtherChecks C now (run C (fromGenesisWithMagic C g store magic) evs) b parent bs u m →
      ((run C (fromGenesisWithMagic C g store magic) evs).validateBlockAgainstParent C now b parent
        = .ok () ↔ SequentialOk C magic b m u) := by
  intro hclaim
  have hinv := inv_run rfl none regtestMagic hundredRun noCollision_hundredRun
  have hok := (hclaim Crypto.sample 1 regtestGenesisBits sampleGenesis genesisBlockWithBits_sample
    none regtestMagic hundredRun sampleNow chainedBlock (idleBlock 99) (idleChain 99) (idleUtxo 99)
    idleMinted noCollision_hundredRun noTxCollision_chainedBlock otherChecks_chainedBlock).mpr
    sequentialOk_chainedBlock
  have hiff := validateBlockAgainstParent_iff_sequentialOk rfl rfl hinv noTxCollision_chainedBlock
    otherChecks_chainedBlock
  exact not_spendsParent_chainedBlock (hiff.mp hok).2.1

/-- The block whose coinbase claims the fee of its only payment is judged as a sequence. -/
theorem sequential_semantics_iff_feeBlock :
    (run Crypto.sample (fromGenesisWithMagic Crypto.sample sampleGenesis none regtestMagic)
        hundredRun).validateBlockAgainstParent Crypto.sample sampleNow feeBlock (idleBlock 99) =
        .ok () ↔ SequentialOk Crypto.sample regtestMagic feeBlock idleMinted (idleUtxo 99) := by
  refine (sequential_semantics_iff Crypto.sample 1 regtestGenesisBits sampleGenesis
    genesisBlockWithBits_sample none regtestMagic hundredRun sampleNow feeBlock (idleBlock 99)
    (idleChain 99) (idleUtxo 99) idleMinted noCollision_hundredRun noTxCollision_feeBlock
    otherChecks_feeBlock).mpr fun _ => ⟨fun tx htx i hi => ?_, ?_⟩
  · obtain rfl := List.mem_singleton.mp htx
    exact txOk_feePayment.mem hi
  · have hfee := txOk_feePayment.fee_eq
    show [feePayment.inputSum (idleUtxo 99) - feePayment.outputSum].sum < 2 ^ 64
    rw [List.sum_singleton]
    omega

end Blockchain

end Arkos
