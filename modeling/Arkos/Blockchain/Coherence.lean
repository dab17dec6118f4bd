import Arkos.Blockchain.Coinbase
import Arkos.Blockchain.Mining

/-!
# Does the mempool agree with the chain?

A pending transaction was valid when it was submitted. Two things can change that, and nothing in
the node reacts to either. Another submission may spend the same output: admission compares a
transaction with the chain and not with the pool. And a block may move the tip: it may spend what a
pending transaction spends, and a block of another branch may never have created it.

What does not change is everything a txid commits to. An outpoint that is unspent before and after a
step holds the same output, worth the same and mined at the same height. So a pending transaction
stays valid, with the fee that was recorded, if the outpoints it names stay unspent and it is not
too early for it at the new height. `Agrees` is the condition this puts on a call.

## Main definitions

* `Blockchain.Coherent` — every pending transaction is valid, and no two spend one output
* `Blockchain.Agrees` — a call does not take an output from a pending transaction

## Main results

* `TxOk.of_replay` — validity carries over from one chain to another
* `Blockchain.mempool_coherent` — the mempool agrees with the chain while the calls agree with it
-/

namespace Arkos

variable {C : Crypto} {magic : UInt32} {T : Set ℕ} {g : Block} {E P : List Transaction}

/-! ### From one chain to another -/

/-- A transaction that two chains have in common has one entry among the recorded heights. -/
theorem lookup_coinbaseHeights_eq (hinj : TxidInj C E) {txs txs' : List Transaction}
    (hsub : ∀ tx ∈ txs, tx ∈ E) (hsub' : ∀ tx ∈ txs', tx ∈ E) {t : Transaction} (ht : t ∈ txs)
    (ht' : t ∈ txs') :
    (txs.foldl (UtxoSet.applyTransaction C) UtxoSet.empty).coinbaseHeights.lookup (t.txidHex C) =
      (txs'.foldl (UtxoSet.applyTransaction C) UtxoSet.empty).coinbaseHeights.lookup
        (t.txidHex C) := by
  have hone : ∀ l : List Transaction, (∀ tx ∈ l, tx ∈ E) → t ∈ l → ∀ height,
      (l.foldl (UtxoSet.applyTransaction C) UtxoSet.empty).coinbaseHeights.lookup (t.txidHex C) =
        some height ↔ t.isCoinbase = true ∧ t.coinbaseHeight = height := by
    intro l hl htl height
    rw [lookup_coinbaseHeights_foldl hinj hl]
    constructor
    · rintro ⟨cb, hcb, hiscb, hid, hheight⟩
      obtain rfl := hinj cb (hl cb hcb) t (hl t htl) hid
      exact ⟨hiscb, hheight⟩
    · rintro ⟨hiscb, hheight⟩
      exact ⟨t, htl, hiscb, rfl, hheight⟩
  refine Option.ext fun height => ?_
  rw [hone txs hsub ht, hone txs' hsub' ht']

/-- **Validity carries over** to every chain that leaves the named outpoints unspent. -/
theorem TxOk.of_replay (hledger : Ledger C E) (hinj : TxidInj C E) {as bs : List Block}
    (has : ∀ tx ∈ chainTxs as, tx ∈ E) (hbs : ∀ tx ∈ chainTxs bs, tx ∈ E) {u u' : UtxoSet}
    {m m' : ℕ} (hrep : replay C as = .ok (u, m)) (hrep' : replay C bs = .ok (u', m'))
    {tx : Transaction} {h fee : ℕ} (hok : TxOk C tx u magic h fee)
    (hmem : ∀ i ∈ tx.inputs, i.outpoint ∈ u'.utxos) : TxOk C tx u' magic h fee := by
  have horig := originates_replay hrep
  have horig' := originates_replay hrep'
  have hu : Originates C E u := fun k o ho =>
    (horig k o ho).imp fun t ht => ⟨has t ht.1, ht.2⟩
  have hu' : Originates C E u' := fun k o ho =>
    (horig' k o ho).imp fun t ht => ⟨hbs t ht.1, ht.2⟩
  refine ⟨fun i hi => ?_, ?_, hok.dust, ?_⟩
  · obtain ⟨out, hin⟩ := hok.inputs_ok i hi
    obtain ⟨out', hlook'⟩ := Finmap.mem_iff.mp (hmem i hi)
    obtain ⟨t, ht, hcreated⟩ := horig _ _ hin.lookup_eq
    obtain ⟨t', ht', hcreated'⟩ := horig' _ _ hlook'
    -- the txid in the outpoint names the transaction on both chains
    obtain ⟨j, -, hkey⟩ := UtxoSet.mem_createdEntries.mp hcreated
    have hid := (UtxoSet.key_inj hkey).1
    have hwrites : i.outpoint ∈ (t.createdEntries C).map Prod.fst := List.mem_map_of_mem hcreated
    have hwrites' : i.outpoint ∈ (t'.createdEntries C).map Prod.fst := List.mem_map_of_mem hcreated'
    obtain rfl := hinj.eq_of_mem_created (has t ht) (hbs t' ht') hwrites hwrites'
    obtain rfl := hledger.consistent t (has t ht) t (has t ht) _ _ _ hcreated hcreated'
    refine ⟨out, ?_, hlook', hin.script_ok⟩
    have hmature := hin.mature
    rw [UtxoSet.isImmatureCoinbase, hid, replay_utxoSet hrep,
      lookup_coinbaseHeights_eq hinj has hbs ht ht', ← replay_utxoSet hrep', ← hid] at hmature
    exact hmature
  · rw [← hledger.inputSum_eq hu hu' (fun _ hi => hok.mem hi) hmem]
    exact hok.inputSum_lt
  · rw [← hledger.inputSum_eq hu hu' (fun _ hi => hok.mem hi) hmem]
    exact hok.fee_eq

/-- A key that is there or created, and not spent, is there afterwards. -/
theorem mem_foldl_of_not_spent {txs : List Transaction} {u : UtxoSet} {k : String}
    (h : k ∈ u.utxos ∨ k ∈ createdKeys C txs) (hns : ∀ tx ∈ txs, k ∉ tx.spentKeys) :
    k ∈ (txs.foldl (UtxoSet.applyTransaction C) u).utxos := by
  induction txs generalizing u with
  | nil => exact h.resolve_right List.not_mem_nil
  | cons tx txs ih =>
    refine ih ?_ fun t ht => hns t (List.mem_cons_of_mem _ ht)
    rw [UtxoSet.mem_applyTransaction]
    rw [createdKeys, List.flatMap_cons, List.mem_append] at h
    rcases h with hmem | hnow | hlater
    · exact Or.inl (Or.inr ⟨hmem, hns tx List.mem_cons_self⟩)
    · exact Or.inl (Or.inl hnow)
    · exact Or.inr hlater

/-! ### What the pool keeps -/

namespace Blockchain

/-- Confirming a chain removes its transactions one by one. -/
theorem removeConfirmed_eq_foldl (m : Mempool) (bs : List Block) :
    removeConfirmed C m bs = (chainTxs bs).foldl (fun m tx => m.remove (tx.txidHex C)) m := by
  rw [removeConfirmed, chainTxs, List.foldl_flatMap]

/-- What is still pending was pending before and was not confirmed. -/
theorem lookup_removeConfirmed {m : Mempool} {bs : List Block} {txid : String} {tx : Transaction}
    (h : (removeConfirmed C m bs).txs.lookup txid = some tx) :
    m.txs.lookup txid = some tx ∧ ∀ t ∈ chainTxs bs, t.txidHex C ≠ txid := by
  rw [removeConfirmed_eq_foldl] at h
  generalize chainTxs bs = txs at h ⊢
  induction txs generalizing m with
  | nil => exact ⟨h, fun _ ht => nomatch ht⟩
  | cons t txs ih =>
    obtain ⟨hlook, hnot⟩ := ih h
    rw [Mempool.remove_txs, Finmap.lookup_erase_eq] at hlook
    split at hlook
    · cases hlook
    next hne => exact ⟨hlook, List.forall_mem_cons.mpr ⟨fun heq => hne heq.symm, hnot⟩⟩

/-- Every pending transaction is valid on top of the tip and pays the recorded fee, and no two of
them spend one output. -/
structure Coherent (C : Crypto) (s : Blockchain) : Prop where
  valid : ∀ txid tx, s.mempool.txs.lookup txid = some tx →
    validateTxWithUtxo C tx s.utxoSet s.networkMagic s.height = .ok (s.mempool.feeFor txid)
  apart : ∀ txid tx txid' tx', s.mempool.txs.lookup txid = some tx →
    s.mempool.txs.lookup txid' = some tx' → tx ≠ tx' →
      ∀ i ∈ tx.inputs, ∀ i' ∈ tx'.inputs, i.outpoint ≠ i'.outpoint

/-- A block that becomes the tip takes nothing from the pending transaction: the transaction is
valid at the height of the block, and every output it spends is unspent on the chain of the block's
parent or created by the block, and not spent by the block. `u` is what is unspent on that chain. -/
structure Spares (C : Crypto) (s : Blockchain) (u : UtxoSet) (b : Block) (tx : Transaction) :
    Prop where
  valid : ∃ fee, validateTxWithUtxo C tx s.utxoSet s.networkMagic b.height = .ok fee
  unspent : ∀ i ∈ tx.inputs, i.outpoint ∈ u.utxos ∨ i.outpoint ∈ createdKeys C b.transactions
  not_spent : ∀ i ∈ tx.inputs, ∀ t ∈ b.transactions, i.outpoint ∉ t.spentKeys

/-- **The call takes no output from a pending transaction.** A submission that is admitted spends
nothing that another pending transaction spends. A block that is going to be the tip spares the
pending transactions that its chain does not confirm. -/
def Agrees (C : Crypto) (s : Blockchain) : Event → Prop
  | .submitTransaction tx => ∀ fee, s.validateTx C tx = .ok fee → minFeeArkes ≤ fee →
      s.mempool.totalBytes + tx.serializedSize ≤ maxMempoolBytes →
        ∀ txid tx', s.mempool.txs.lookup txid = some tx' → tx ≠ tx' →
          ∀ i ∈ tx.inputs, ∀ i' ∈ tx'.inputs, i.outpoint ≠ i'.outpoint
  | .addBlock now b => ∀ w current bs u m, s.checkBlock C now b = .ok (some w) →
      s.chainWork.lookup (s.tip.hashHex C) = some current → current < w →
      s.parentContext C b.header.prevHash = .ok (bs, u, m) → m + coinbaseValue b < 2 ^ 64 →
        ∀ txid tx, s.mempool.txs.lookup txid = some tx →
          (∀ t ∈ chainTxs (bs ++ [b]), t.txidHex C ≠ txid) → Spares C s u b tx

variable {s : Blockchain} {hist : List Block}

theorem lookup_of_mempool_new (h : s.mempool = Mempool.new) (txid : String) (tx : Transaction) :
    s.mempool.txs.lookup txid ≠ some tx := by
  rw [h, Mempool.lookup_new]
  exact (Option.some_ne_none tx).symm

/-- With nothing pending there is nothing to agree with. -/
theorem agrees_of_mempool_new (h : s.mempool = Mempool.new) (e : Event) : Agrees C s e := by
  have hnone := lookup_of_mempool_new h
  cases e with
  | submitTransaction tx => exact fun _ _ _ _ txid tx' hlook => absurd hlook (hnone txid tx')
  | addBlock now b => exact fun _ _ _ _ _ _ _ _ _ _ txid tx hlook => absurd hlook (hnone txid tx)

/-- It is enough that the pending transactions are valid: what they pay was found on admission. -/
theorem coherent_of_txOk (hledger : Ledger C E) (hpool : PoolInv C s.networkMagic E P s.mempool)
    (hu : Originates C E s.utxoSet)
    (hvalid : ∀ txid tx, s.mempool.txs.lookup txid = some tx →
      ∃ fee, TxOk C tx s.utxoSet s.networkMagic s.height fee)
    (hapart : ∀ txid tx txid' tx', s.mempool.txs.lookup txid = some tx →
      s.mempool.txs.lookup txid' = some tx' → tx ≠ tx' →
        ∀ i ∈ tx.inputs, ∀ i' ∈ tx'.inputs, i.outpoint ≠ i'.outpoint) : Coherent C s := by
  refine ⟨fun txid tx hlook => ?_, hapart⟩
  obtain ⟨fee, hok⟩ := hvalid txid tx hlook
  have hfee := hpool.feeFor_eq hledger hlook hu hok
  rw [(hpool txid tx hlook).txid_eq] at hfee
  rw [hfee]
  exact validateTxWithUtxo_eq_ok_iff.mpr hok

namespace Coherent

variable (h : Coherent C s) (hledger : Ledger C E) (hpool : PoolInv C s.networkMagic E P s.mempool)

include h in
theorem txOk {txid : String} {tx : Transaction} (hlook : s.mempool.txs.lookup txid = some tx) :
    ∃ fee, TxOk C tx s.utxoSet s.networkMagic s.height fee :=
  ⟨_, validateTxWithUtxo_eq_ok_iff.mp (h.valid txid tx hlook)⟩

include h hledger hpool in
/-- **One submission.** -/
theorem submitTransaction (hP : NoTxCollision C P) (hu : Originates C E s.utxoSet)
    {tx : Transaction} (htx : tx ∈ P) (hagrees : Agrees C s (.submitTransaction tx)) :
    Coherent C (s.submitTransaction C tx).2 := by
  have hpool' := hpool.submitTransaction hP hu htx
  revert hpool'
  rw [Blockchain.submitTransaction]
  split
  · exact fun _ => h
  next fee hfee =>
    split
    · next e m' hadd =>
      rw [Mempool.addWithFee_error hadd]
      exact fun _ => h
    next txid m' hadd =>
      obtain ⟨hmin, hroom, -, rfl⟩ := Mempool.addWithFee_ok hadd
      intro hpool'
      have hapart := hagrees fee hfee hmin hroom
      refine coherent_of_txOk hledger hpool' hu (fun k t hlook => ?_)
        fun k t k' t' hlook hlook' hne => ?_
      · dsimp only at hlook
        rw [Mempool.insertTx_txs, Finmap.lookup_insert_eq] at hlook
        split at hlook
        · obtain rfl := Option.some.inj hlook
          exact ⟨fee, validateTxWithUtxo_eq_ok_iff.mp hfee⟩
        · exact h.txOk hlook
      · dsimp only at hlook hlook'
        rw [Mempool.insertTx_txs, Finmap.lookup_insert_eq] at hlook hlook'
        split at hlook
        · obtain rfl := Option.some.inj hlook
          split at hlook'
          · exact absurd (Option.some.inj hlook') hne
          · exact hapart k' t' hlook' hne
        · split at hlook'
          · obtain rfl := Option.some.inj hlook'
            exact fun i hi i' hi' heq => hapart k t hlook hne.symm i' hi' i hi heq.symm
          · exact h.apart k t k' t' hlook hlook' hne

include h hledger hpool in
/-- A step that only removes entries keeps the others apart, and it is left to show that they are
valid. -/
theorem of_removeConfirmed {s' : Blockchain} {done : List Block}
    (hmempool : s'.mempool = removeConfirmed C s.mempool done)
    (hmagic : s'.networkMagic = s.networkMagic) (hu : Originates C E s'.utxoSet)
    (hvalid : ∀ txid tx, s.mempool.txs.lookup txid = some tx →
      (∀ t ∈ chainTxs done, t.txidHex C ≠ txid) →
        ∃ fee, TxOk C tx s'.utxoSet s'.networkMagic s'.height fee) : Coherent C s' := by
  have hpool' : PoolInv C s'.networkMagic E P s'.mempool := by
    rw [hmempool, hmagic]
    exact hpool.removeConfirmed done
  have hold : ∀ txid tx, s'.mempool.txs.lookup txid = some tx → _ := fun txid tx hlook =>
    lookup_removeConfirmed (hmempool ▸ hlook)
  refine coherent_of_txOk hledger hpool' hu (fun txid tx hlook => ?_)
    fun txid tx txid' tx' hlook hlook' => ?_
  · exact hvalid txid tx (hold txid tx hlook).1 (hold txid tx hlook).2
  · exact h.apart txid tx txid' tx' (hold txid tx hlook).1 (hold txid' tx' hlook').1

include h hledger hpool in
/-- **One block.** -/
theorem addBlock (hinj : TxidInj C E) (hg : g.height = 0) (hi : Inv C magic T g hist s) {now : ℕ}
    (hnow : now ∈ T) {b : Block} (hsep : Separated C (hist ++ s.recordedBy C (.addBlock now b)))
    (hE : ∀ tx ∈ chainTxs (hist ++ s.recordedBy C (.addBlock now b)), tx ∈ E)
    (hagrees : Agrees C s (.addBlock now b)) : Coherent C (s.addBlock C now b).2 := by
  have hout := hi.outcome hg hnow hsep
  have hu : Originates C E s.utxoSet := hi.originates fun tx htx =>
    hE tx (mem_chainTxs_of_subset (fun x hx => List.mem_append_left _ hx) htx)
  generalize (s.addBlock C now b).1 = r at hout
  generalize (s.addBlock C now b).2 = s' at hout ⊢
  cases hout with
  | rejected _ _ => exact h
  | known _ => exact h
  | @side bs w _ _ =>
    have hkept : ((s.recordBlock C b w).pruneStaleOrphans C).mempool =
        removeConfirmed C s.mempool [] := pruneStaleOrphans_mempool _
    refine h.of_removeConfirmed hledger hpool hkept (pruneStaleOrphans_networkMagic _) ?_
      fun txid tx hlook _ => ?_
    · rw [pruneStaleOrphans_utxoSet]
      exact hu
    · rw [pruneStaleOrphans_utxoSet, pruneStaleOrphans_networkMagic, height, pruneStaleOrphans_tip]
      exact h.txOk hlook
  | overflow _ _ _ =>
    exact h.of_removeConfirmed hledger hpool rfl rfl hu fun txid tx hlook _ => h.txOk hlook
  | @activated bs w u' m' hne hgrows hlt hrep =>
    rw [recordedBy_of_checked hgrows.checked] at hE
    have hsub : ∀ tx ∈ chainTxs (bs ++ [b]), tx ∈ E := fun tx htx =>
      hE tx (mem_chainTxs_of_subset (hi.mem_append_of_grows hgrows) htx)
    obtain ⟨u, m, hrep₀, -⟩ := hgrows.step.context
    obtain ⟨rfl, rfl⟩ := replay_append_singleton_eq_ok hrep hrep₀
    have hspares := hagrees w _ bs u m (checkBlock_eq_ok_some_iff.mpr hgrows.checked) hi.lookup_tip
      hlt (hi.parentContext_of_grows hg hgrows hrep₀) (replay_minted_lt hrep)
    have hold : ∀ tx ∈ chainTxs s.blocks, tx ∈ E := fun tx htx =>
      hE tx (mem_chainTxs_of_subset (fun x hx => List.mem_append_left _ (hi.mem_hist hx)) htx)
    have hu' : Originates C E (applyBlock C u b) := fun k o ho =>
      (originates_replay hrep k o ho).imp fun t ht => ⟨hsub t ht.1, ht.2⟩
    refine h.of_removeConfirmed hledger hpool (pruneStaleOrphans_mempool _)
      (pruneStaleOrphans_networkMagic _) ?_ fun txid tx hlook hnot => ?_
    · rw [pruneStaleOrphans_utxoSet]
      exact hu'
    · obtain ⟨⟨fee, hfee⟩, hunspent, hnotspent⟩ := hspares txid tx hlook hnot
      have hok := validateTxWithUtxo_eq_ok_iff.mp hfee
      have hheight : ((((s.recordBlock C b w).withActive C (bs ++ [b]) hne (applyBlock C u b)
          (m + coinbaseValue b)).persistActive C).pruneStaleOrphans C).height = b.height := by
        rw [height, pruneStaleOrphans_tip]
        exact congrArg Block.height (List.getLast_append_singleton bs)
      rw [hheight, pruneStaleOrphans_utxoSet, pruneStaleOrphans_networkMagic]
      exact ⟨fee, hok.of_replay hledger hinj hold hsub hi.replay_eq hrep fun i hi =>
        mem_foldl_of_not_spent (hunspent i hi) (hnotspent i hi)⟩

end Coherent

/-! ### Whole runs -/

theorem coherent_of_mempool_new (h : s.mempool = Mempool.new) : Coherent C s := by
  have hnone := lookup_of_mempool_new h
  exact ⟨fun txid tx hlook => absurd hlook (hnone txid tx),
    fun txid tx _ _ hlook => absurd hlook (hnone txid tx)⟩

/-- **The mempool agrees with the chain.** In every state a run reaches whose calls take no output
from a pending transaction, whatever the order of submissions, blocks and reorganisations. -/
theorem mempool_coherent (C : Crypto) (fuel : ℕ) (bits : UInt32) (g : Block)
    (hgen : genesisBlockWithBits C fuel bits = some g) (store : Option BlockStore) (magic : UInt32)
    (evs : List Event)
    (hnc : NoCollision C (g :: recorded C (fromGenesisWithMagic C g store magic) evs))
    (hP : NoTxCollision C (submitted evs))
    (hagrees : ∀ pre e, pre ++ [e] <+: evs →
      Agrees C (run C (fromGenesisWithMagic C g store magic) pre) e) :
    Coherent C (run C (fromGenesisWithMagic C g store magic) evs) := by
  obtain ⟨hg, hgtxs⟩ := genesisBlockWithBits_spec hgen
  have hhistory := (inv_run hg store magic evs hnc).history
  obtain ⟨E, hE⟩ : ∃ E, E = chainTxs (g :: recorded C (fromGenesisWithMagic C g store magic) evs) :=
    ⟨_, rfl⟩
  have hledger : Ledger C E := hE ▸ hhistory.ledger hgtxs hnc
  have hinj : TxidInj C E := hE ▸ hhistory.txid_inj hgtxs hnc
  have hrec : ∀ pre, pre <+: evs →
      ∀ tx ∈ chainTxs (g :: recorded C (fromGenesisWithMagic C g store magic) pre), tx ∈ E := by
    intro pre hpre tx htx
    rw [hE]
    refine mem_chainTxs_of_subset (fun x hx => ?_) htx
    exact (List.mem_cons.mp hx).elim (fun hx => hx ▸ List.mem_cons_self) fun hx =>
      List.mem_cons_of_mem _ (mem_recorded_of_isPrefix hpre hx)
  -- what is pending at any time was admitted on chains of recorded blocks
  have hpool : ∀ pre, pre <+: evs → PoolInv C magic E (submitted evs)
      (run C (fromGenesisWithMagic C g store magic) pre).mempool := fun pre hpre =>
    poolInv_run hg store magic (noCollision_of_isPrefix hpre hnc) hP (hrec pre hpre) fun _ htx =>
      mem_submitted.mpr (hpre.subset (mem_submitted.mp htx))
  refine run_induction hg store magic evs hnc (coherent_of_mempool_new rfl) ?_
    (P := fun pre => Coherent C (run C (fromGenesisWithMagic C g store magic) pre))
  intro pre e hpre s hs hist hhist hi hafter hcoherent
  have hbegins : pre <+: evs := (List.prefix_append pre [e]).trans hpre
  have hpool' := hpool pre hbegins
  have hagrees' := hagrees pre e hpre
  have hsub : ∀ tx ∈ chainTxs (hist ++ s.recordedBy C e), tx ∈ E := by
    have hsub := hrec (pre ++ [e]) hpre
    rwa [recorded_append_singleton, ← List.cons_append, ← hs, ← hhist] at hsub
  rw [run_append, ← hs]
  rw [← hs] at hcoherent hpool' hagrees'
  rw [← hi.magic_eq] at hpool'
  cases e with
  | submitTransaction tx =>
    exact hcoherent.submitTransaction hledger hpool' hP
      (hi.originates fun t ht => hsub t (mem_chainTxs_of_subset (fun x hx =>
        List.mem_append_left _ hx) ht))
      (mem_submitted.mpr (hpre.subset (by simp))) hagrees'
  | addBlock now b =>
    exact hcoherent.addBlock hledger hpool' hinj hg hi trivial hafter.separated hsub hagrees'

/-- A payment that has matured is pending, valid, and pays what was recorded. -/
theorem mempool_coherent_pendingRun :
    let s := run Crypto.sample (fromGenesisWithMagic Crypto.sample sampleGenesis none regtestMagic)
      pendingRun
    s.mempool.txs.lookup (payFirst.txidHex Crypto.sample) = some payFirst ∧
      validateTxWithUtxo Crypto.sample payFirst s.utxoSet s.networkMagic s.height =
        .ok (s.mempool.feeFor (payFirst.txidHex Crypto.sample)) := by
  obtain ⟨s, hrun, -, -, -, -, hmempool⟩ := run_pendingRun
  have hlook : s.mempool.txs.lookup (payFirst.txidHex Crypto.sample) = some payFirst := by
    rw [hmempool, Mempool.insertTx_txs]
    exact Finmap.lookup_insert _
  have hnc : NoCollision Crypto.sample (sampleGenesis :: recorded Crypto.sample
      (fromGenesisWithMagic Crypto.sample sampleGenesis none regtestMagic) pendingRun) :=
    (noCollision_idleChain (by decide)).mono fun _ => mem_idleChain_of_pendingRun
  have hcoherent := mempool_coherent Crypto.sample 1 regtestGenesisBits sampleGenesis
    genesisBlockWithBits_sample none regtestMagic pendingRun hnc
    noTxCollision_pendingRun (by
      -- before the submission nothing is pending
      intro pre e hpre
      refine agrees_of_mempool_new (mempool_run_new (fun tx htx => ?_) rfl) e
      have hbegins : pre <+: deliver (fun _ => sampleNow) 0 (idleChain 100).tail := by
        rcases List.prefix_concat_iff.mp hpre with heq | hpre
        · exact (List.append_inj' heq rfl).1 ▸ List.prefix_rfl
        · exact (List.prefix_append _ _).trans hpre
      exact submitTransaction_notMem_deliver _ _ _ tx (hbegins.subset htx))
  rw [hrun] at hcoherent
  dsimp only
  rw [hrun]
  exact ⟨hlook, hcoherent.valid _ payFirst hlook⟩

/-- **Two pending transactions spend one output.** -/
theorem not_coherent_conflictRun :
    let s₀ := fromGenesisWithMagic Crypto.sample sampleGenesis none regtestMagic
    NoCollision Crypto.sample (s₀.blocks ++ recorded Crypto.sample s₀ conflictRun) ∧
      NoTxCollision Crypto.sample (submitted conflictRun) ∧
      ¬ Coherent Crypto.sample (run Crypto.sample s₀ conflictRun) := by
  obtain ⟨s, hrun, -, -, htxs⟩ := run_conflictRun
  refine ⟨(noCollision_idleChain (by decide)).mono fun _ =>
    mem_idleChain_of_history [payFirst, paySecond], noTxCollision_conflictRun, fun hcoherent => ?_⟩
  rw [hrun] at hcoherent
  have horder := (iterOrder_conflictOrder htxs).2
  have hne : payFirst ≠ paySecond := fun heq =>
    absurd (congrArg Transaction.lockTime heq) (by decide)
  have hfirst : ∃ i ∈ payFirst.inputs,
      i.outpoint = UtxoSet.key (payCoinbase.txidHex Crypto.sample) 0 := ⟨_, List.mem_cons_self, rfl⟩
  have hsecond : ∃ i ∈ paySecond.inputs,
      i.outpoint = UtxoSet.key (payCoinbase.txidHex Crypto.sample) 0 := ⟨_, List.mem_cons_self, rfl⟩
  obtain ⟨i, hi, hkey⟩ := hfirst
  obtain ⟨i', hi', hkey'⟩ := hsecond
  exact hcoherent.apart _ payFirst _ paySecond ((horder _ _).mp List.mem_cons_self)
    ((horder _ _).mp (List.mem_cons_of_mem _ List.mem_cons_self)) hne i hi i' hi'
    (hkey.trans hkey'.symm)

end Blockchain

end Arkos
