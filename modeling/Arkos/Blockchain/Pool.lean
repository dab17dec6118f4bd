import Arkos.Blockchain.Ledger

/-!
# What the mempool remembers

A transaction is validated once, when it is submitted, and the fee found then is kept for as long as
the transaction is. Blocks come and go in the meantime, on one branch and on another, and the only
thing they do to the mempool is to remove what they confirm.

So whether an entry is still valid cannot be said, but what it pays can: every set of outputs a node
ever validates against originates from the blocks it has recorded, and among these an outpoint has
one value. An entry that is valid somewhere pays there what it paid on admission
(`PoolInv.feeFor_eq`).

## Main definitions

* `Admitted` — a transaction was valid once and paid the fee
* `PoolEntry`, `PoolInv`

## Main results

* `TxOk.fee_unique` — a transaction has one fee
* `PoolInv.submitTransaction`, `PoolInv.removeConfirmed`, `Blockchain.Inv.poolInv_run`
* `PoolInv.map_feeFor` — the fees a block assembler reads off are the fees a validator computes
-/

namespace Arkos

variable {C : Crypto} {magic : UInt32} {E P : List Transaction} {m : Mempool}

/-! ### A transaction has one fee -/

/-- The values behind the inputs do not depend on where they are looked up. -/
theorem Ledger.inputSum_eq (hE : Ledger C E) {u u' : UtxoSet} (hu : Originates C E u)
    (hu' : Originates C E u') {tx : Transaction} (hmem : ∀ i ∈ tx.inputs, i.outpoint ∈ u.utxos)
    (hmem' : ∀ i ∈ tx.inputs, i.outpoint ∈ u'.utxos) : tx.inputSum u = tx.inputSum u' := by
  rw [Transaction.inputSum, Transaction.inputSum]
  congr 1
  exact List.map_congr_left fun i hi => hE.valueAt_eq hu hu' (hmem i hi) (hmem' i hi)

theorem TxOk.fee_unique (hE : Ledger C E) {u u' : UtxoSet} (hu : Originates C E u)
    (hu' : Originates C E u') {tx : Transaction} {magic' : UInt32} {h h' fee fee' : ℕ}
    (hok : TxOk C tx u magic h fee) (hok' : TxOk C tx u' magic' h' fee') : fee = fee' := by
  have hsum := hE.inputSum_eq hu hu' (fun _ hi => hok.mem hi) fun _ hi => hok'.mem hi
  have hfee := hok.fee_eq
  have hfee' := hok'.fee_eq
  omega

/-! ### Entries -/

/-- `tx` was valid once, against outputs that come from `E`, and paid `fee`. -/
def Admitted (C : Crypto) (E : List Transaction) (magic : UInt32) (tx : Transaction) (fee : ℕ) :
    Prop :=
  ∃ u h, Originates C E u ∧ TxOk C tx u magic h fee

/-- What the mempool knows about the transaction it holds under `txid`. -/
structure PoolEntry (C : Crypto) (magic : UInt32) (E P : List Transaction) (m : Mempool)
    (txid : String) (tx : Transaction) : Prop where
  txid_eq : tx.txidHex C = txid
  submitted : tx ∈ P
  size_le : tx.serializedSize ≤ maxMempoolBytes
  fee : ∃ fee, m.fees.lookup txid = some fee ∧ Admitted C E magic tx fee

/-- A mempool whose entries were admitted out of the transactions `P`, on chains with the
transactions `E`. -/
def PoolInv (C : Crypto) (magic : UInt32) (E P : List Transaction) (m : Mempool) : Prop :=
  ∀ txid tx, m.txs.lookup txid = some tx → PoolEntry C magic E P m txid tx

/-- `hash256` does not collide on the encodings of the transactions. -/
def NoTxCollision (C : Crypto) (P : List Transaction) : Prop :=
  ∀ tx ∈ P, ∀ tx' ∈ P, C.hash256 tx.encode = C.hash256 tx'.encode → tx.encode = tx'.encode

namespace PoolInv

theorem new : PoolInv C magic E P Mempool.new := by
  intro txid tx h
  rw [Mempool.lookup_new] at h
  cases h

theorem remove (hm : PoolInv C magic E P m) (txid : String) :
    PoolInv C magic E P (m.remove txid) := by
  intro k tx h
  rw [Mempool.remove_txs, Finmap.lookup_erase_eq] at h
  split at h
  · cases h
  next hk =>
    obtain ⟨heq, hmem, hsize, fee, hfee, hadm⟩ := hm k tx h
    refine ⟨heq, hmem, hsize, fee, ?_, hadm⟩
    rw [Mempool.remove]
    split
    · rw [Finmap.lookup_erase_eq, if_neg hk, hfee]
    · exact hfee

theorem removeConfirmed (hm : PoolInv C magic E P m) (done : List Block) :
    PoolInv C magic E P (Blockchain.removeConfirmed C m done) := by
  have hblock : ∀ (txs : List Transaction) (m : Mempool), PoolInv C magic E P m →
      PoolInv C magic E P (txs.foldl (fun m tx => m.remove (tx.txidHex C)) m) := by
    intro txs
    induction txs with
    | nil => exact fun m hm => hm
    | cons tx txs ih => exact fun m hm => ih _ (hm.remove _)
  rw [Blockchain.removeConfirmed]
  induction done generalizing m with
  | nil => exact hm
  | cons b done ih => exact ih (hblock b.transactions m hm)

/-- Inserting what is there already changes nothing: the txid says that it is the same
transaction. -/
theorem insertTx (hP : NoTxCollision C P) (hm : PoolInv C magic E P m) {tx : Transaction}
    (htx : tx ∈ P) (hsize : tx.serializedSize ≤ maxMempoolBytes) {fee : ℕ}
    (hadm : Admitted C E magic tx fee) : PoolInv C magic E P (m.insertTx C tx fee) := by
  rw [Mempool.insertTx]
  split
  · next hmem =>
    obtain ⟨tx₀, htx₀⟩ := Finmap.mem_iff.mp hmem
    obtain ⟨heq, hsub, hle, -⟩ := hm _ tx₀ htx₀
    have hlt : tx₀.serializedSize < 2 ^ 64 := hle.trans_lt (by decide)
    obtain rfl := Transaction.encode_inj hlt (hP tx₀ hsub tx htx (hashToHex_injective heq))
    rw [Finmap.insert_eq_self htx₀]
    exact hm
  · intro k t h
    rw [Finmap.lookup_insert_eq] at h
    split at h
    · next hk =>
      obtain rfl := Option.some.inj h
      exact ⟨hk.symm, htx, hsize, fee, by rw [hk, Finmap.lookup_insert], hadm⟩
    · next hk =>
      obtain ⟨heq, hsub, hle, fee', hfee, hadm'⟩ := hm k t h
      exact ⟨heq, hsub, hle, fee', by rw [Finmap.lookup_insert_eq, if_neg hk, hfee], hadm'⟩

/-! ### Calls -/

theorem submitTransaction (hP : NoTxCollision C P) {s : Blockchain}
    (hm : PoolInv C s.networkMagic E P s.mempool) (hu : Originates C E s.utxoSet) {tx : Transaction}
    (htx : tx ∈ P) : PoolInv C s.networkMagic E P (s.submitTransaction C tx).2.mempool := by
  rw [Blockchain.submitTransaction]
  split
  · exact hm
  next fee hfee =>
    split
    · next e m' hadd =>
      rw [Mempool.addWithFee_error hadd]
      exact hm
    next txid m' hadd =>
      obtain ⟨-, hsize, -, rfl⟩ := Mempool.addWithFee_ok hadd
      exact hm.insertTx hP htx (Nat.le_of_add_left_le hsize)
        ⟨s.utxoSet, s.height, hu, validateTxWithUtxo_eq_ok_iff.mp hfee⟩

end PoolInv

/-- The transactions a run submits. -/
def submitted (evs : List Event) : List Transaction :=
  evs.filterMap fun
    | .submitTransaction tx => some tx
    | .addBlock _ _ => none

theorem mem_submitted {evs : List Event} {tx : Transaction} :
    tx ∈ submitted evs ↔ .submitTransaction tx ∈ evs := by
  rw [submitted, List.mem_filterMap]
  constructor
  · rintro ⟨e, he, heq⟩
    cases e with
    | submitTransaction t => exact Option.some.inj heq ▸ he
    | addBlock _ _ => cases heq
  · exact fun h => ⟨_, h, rfl⟩

namespace Blockchain

variable {T : Set ℕ} {g : Block} {hist : List Block} {s : Blockchain}

/-- `add_block` only removes from the mempool, and does so in one way. -/
theorem addBlock_mempool (now : ℕ) (s : Blockchain) (b : Block) :
    ∃ done, (s.addBlock C now b).2.mempool = removeConfirmed C s.mempool done := by
  have hadd := addBlock_cases (C := C) now s b
  generalize (s.addBlock C now b).1 = r at hadd
  generalize (s.addBlock C now b).2 = s' at hadd ⊢
  cases hadd with
  | rejected _ => exact ⟨[], rfl⟩
  | known _ => exact ⟨[], rfl⟩
  | tipWorkMissing _ _ => exact ⟨[], rfl⟩
  | side _ _ _ => exact ⟨[], pruneStaleOrphans_mempool _⟩
  | walkFailed _ _ _ _ => exact ⟨[], rfl⟩
  | @replayFailed _ _ _ _ done _ _ _ _ _ => exact ⟨done, rfl⟩
  | @activated _ _ bs _ _ _ _ _ _ _ _ => exact ⟨bs, pruneStaleOrphans_mempool _⟩

/-- An empty mempool stays empty. -/
theorem removeConfirmed_new (done : List Block) :
    removeConfirmed C Mempool.new done = Mempool.new := by
  have hblock : ∀ txs : List Transaction,
      txs.foldl (fun m tx => m.remove (tx.txidHex C)) Mempool.new = Mempool.new := by
    intro txs
    induction txs with
    | nil => rfl
    | cons tx txs ih => exact ih
  rw [removeConfirmed]
  induction done with
  | nil => rfl
  | cons b done ih => rw [List.foldl_cons, hblock, ih]

/-- Without submissions the mempool stays empty. -/
theorem mempool_run_new {evs : List Event} (hevs : ∀ tx, .submitTransaction tx ∉ evs)
    (hs : s.mempool = Mempool.new) : (Blockchain.run C s evs).mempool = Mempool.new := by
  induction evs generalizing s with
  | nil => exact hs
  | cons e evs ih =>
    refine ih (fun tx htx => hevs tx (List.mem_cons_of_mem _ htx)) ?_
    cases e with
    | submitTransaction tx => exact absurd List.mem_cons_self (hevs tx)
    | addBlock now b =>
      obtain ⟨done, hdone⟩ := addBlock_mempool (C := C) now s b
      rw [step, hdone, hs, removeConfirmed_new]

theorem submitTransaction_notMem_deliver (clock : ℕ → ℕ) (i : ℕ) (bs : List Block)
    (tx : Transaction) : .submitTransaction tx ∉ deliver clock i bs := by
  intro h
  obtain ⟨_, -, heq⟩ := List.mem_map.mp h
  cases heq

/-- A valid transaction that pays enough enters a mempool with room. -/
theorem submitTransaction_of_txOk {tx : Transaction} {fee : ℕ}
    (hok : TxOk C tx s.utxoSet s.networkMagic s.height fee) (hfee : minFeeArkes ≤ fee)
    (hroom : s.mempool.totalBytes + tx.serializedSize ≤ maxMempoolBytes) :
    (s.submitTransaction C tx).2 = { s with mempool := s.mempool.insertTx C tx fee } := by
  rw [submitTransaction, validateTx, validateTxWithUtxo_eq_ok_iff.mpr hok]
  dsimp only
  rw [Mempool.addWithFee, if_neg (Nat.not_lt.mpr hfee), if_neg (Nat.not_lt.mpr hroom)]

/-- The unspent outputs of a node come from the blocks it has recorded. -/
theorem Inv.originates (hi : Inv C magic T g hist s) (hE : ∀ tx ∈ chainTxs hist, tx ∈ E) :
    Originates C E s.utxoSet := by
  rw [replay_utxoSet hi.replay_eq]
  refine Ledger.originates_foldl (originates_empty E) fun tx htx => hE tx ?_
  obtain ⟨b, hb, htxb⟩ := mem_chainTxs.mp htx
  exact mem_chainTxs.mpr ⟨b, hi.mem_hist hb, htxb⟩

/-- **A whole run.** `E` holds the transactions of everything recorded and `P` everything
submitted. -/
theorem Inv.poolInv_run (hg : g.height = 0) (hP : NoTxCollision C P) {evs : List Event}
    (hi : Inv C magic T g hist s) (hm : PoolInv C magic E P s.mempool)
    (hT : ∀ now b, .addBlock now b ∈ evs → now ∈ T)
    (hsep : ∀ hist', (∀ x ∈ hist', x ∈ hist ++ recorded C s evs) → History C magic T g hist' →
      Separated C hist')
    (hE : ∀ tx ∈ chainTxs (hist ++ recorded C s evs), tx ∈ E)
    (hsub : ∀ tx, .submitTransaction tx ∈ evs → tx ∈ P) :
    PoolInv C magic E P (Blockchain.run C s evs).mempool := by
  induction evs generalizing hist s with
  | nil => exact hm
  | cons e evs ih =>
    have hpart : ∀ x ∈ hist ++ s.recordedBy C e, x ∈ hist ++ recorded C s (e :: evs) := by
      intro x hx
      rw [recorded, ← List.append_assoc]
      exact List.mem_append_left _ hx
    have hrest : hist ++ recorded C s (e :: evs) =
        hist ++ s.recordedBy C e ++ recorded C (s.step C e) evs := by
      rw [recorded, List.append_assoc]
    have hnext : Inv C magic T g (hist ++ s.recordedBy C e) (s.step C e) ∧
        PoolInv C magic E P (s.step C e).mempool := by
      cases e with
      | addBlock now b =>
        obtain ⟨done, hdone⟩ := addBlock_mempool (C := C) now s b
        refine ⟨hi.addBlock hg (hT now b List.mem_cons_self) (hsep _ hpart), ?_⟩
        rw [step, hdone]
        exact hm.removeConfirmed done
      | submitTransaction tx =>
        rw [recordedBy, List.append_nil]
        have hu : Originates C E s.utxoSet := hi.originates fun t ht => hE t (by
          obtain ⟨b, hb, htb⟩ := mem_chainTxs.mp ht
          exact mem_chainTxs.mpr ⟨b, List.mem_append_left _ hb, htb⟩)
        have hmagic := hi.magic_eq
        subst hmagic
        exact ⟨hi.submitTransaction tx, hm.submitTransaction hP hu (hsub tx List.mem_cons_self)⟩
    rw [hrest] at hsep hE
    exact ih hnext.1 hnext.2 (fun now b hb => hT now b (List.mem_cons_of_mem _ hb)) hsep hE
      fun tx htx => hsub tx (List.mem_cons_of_mem _ htx)

/-- The same from the genesis block, provided `hash256` does not collide on the strings hashed for
what the run records and submits. -/
theorem poolInv_run (hg : g.height = 0) (store : Option BlockStore) (magic : UInt32)
    {evs : List Event}
    (hnc : NoCollision C (g :: recorded C (fromGenesisWithMagic C g store magic) evs))
    (hP : NoTxCollision C P)
    (hE : ∀ tx ∈ chainTxs (g :: recorded C (fromGenesisWithMagic C g store magic) evs), tx ∈ E)
    (hsub : ∀ tx ∈ submitted evs, tx ∈ P) :
    PoolInv C magic E P (run C (fromGenesisWithMagic C g store magic) evs).mempool :=
  (inv_fromGenesisWithMagic store).poolInv_run hg hP .new (fun _ _ _ => trivial)
    (fun _ hpart hh => separated_of_noCollision hh (hnc.mono hpart)) hE
    fun tx htx => hsub tx (mem_submitted.mpr htx)

end Blockchain

/-! ### The recorded fee is the fee -/

namespace PoolInv

/-- **An entry that is valid pays what it paid on admission.** -/
theorem feeFor_eq (hE : Ledger C E) (hm : PoolInv C magic E P m) {txid : String} {tx : Transaction}
    (h : m.txs.lookup txid = some tx) {u : UtxoSet} (hu : Originates C E u) {height fee : ℕ}
    (hok : TxOk C tx u magic height fee) : m.feeFor (tx.txidHex C) = fee := by
  obtain ⟨rfl, -, -, fee₀, hfee₀, u₀, h₀, hu₀, hok₀⟩ := hm txid tx h
  rw [Mempool.feeFor, hfee₀]
  exact hok₀.fee_unique hE hu₀ hu hok

/-- The fees of a selection, as they were recorded and as they are computed again. -/
theorem map_feeFor (hE : Ledger C E) (hm : PoolInv C magic E P m) {u : UtxoSet}
    (hu : Originates C E u) {height : ℕ} {txs : List Transaction}
    (htxs : ∀ tx ∈ txs, ∃ txid, m.txs.lookup txid = some tx) {fees : List ℕ}
    (hfees : FeesOf C u magic height txs fees) :
    (txs.map fun tx => m.feeFor (tx.txidHex C)) = fees := by
  induction hfees with
  | nil => rfl
  | @cons tx txs fee fees hok _ ih =>
    obtain ⟨txid, hlook⟩ := htxs tx List.mem_cons_self
    rw [List.map_cons, hm.feeFor_eq hE hlook hu hok,
      ih fun t ht => htxs t (List.mem_cons_of_mem _ ht)]

end PoolInv

end Arkos
