import Arkos.Transaction.Mempool

/-!
# The mempool over a sequence of calls

Three fields of a mempool say the same thing three times: which transactions are held, which fees
are known, and how many bytes there are. Every call writes them together, or none of them, so they
agree after any sequence of calls. The one call that could break this is an insertion under a txid
that is taken, which replaces the transaction and counts nothing: as long as a txid has one
transaction, it replaces it by itself.

## Main definitions

* `Mempool.Op`, `Mempool.apply`, `Mempool.runOps`
* `Mempool.Keyed`, `Mempool.Accounted`, `Mempool.Admitted` — what sequences of calls keep

## Main results

* `Mempool.apply_cases`, `Mempool.runOps_rule` — one call, and the rule for many
* `Mempool.mempool_accounting`
-/

namespace Arkos

namespace Mempool

/-- A call that changes the mempool. -/
inductive Op where
  | addWithFee (tx : Transaction) (fee : UInt64)
  | add (tx : Transaction)
  | remove (txid : String)

/-- The transaction a call brings. -/
def Op.tx? : Op → Option Transaction
  | .addWithFee tx _ => some tx
  | .add tx => some tx
  | .remove _ => none

/-- Does the call go around the admission check? -/
def Op.isAdd : Op → Bool
  | .add _ => true
  | _ => false

section

variable (C : Crypto)

/-- The mempool after one call, whatever it returned. -/
def apply (m : Mempool) : Op → Mempool
  | .addWithFee tx fee => (m.addWithFee C tx fee.toNat).2
  | .add tx => (m.add C tx).2
  | .remove txid => m.remove txid

/-- The mempool after a sequence of calls. -/
def runOps (m : Mempool) (ops : List Op) : Mempool := ops.foldl (apply C) m

end

variable {C : Crypto}

/-- **What one call does**: nothing, an insertion, or a removal. -/
theorem apply_cases (m : Mempool) (op : Op) :
    m.apply C op = m ∨
      (∃ tx fee, op.tx? = some tx ∧ m.apply C op = m.insertTx C tx fee ∧ fee < 2 ^ 64 ∧
        (op.isAdd = false →
          minFeeArkes ≤ fee ∧ m.totalBytes + tx.serializedSize ≤ maxMempoolBytes)) ∨
      ∃ txid, m.apply C op = m.remove txid := by
  cases op with
  | addWithFee tx fee =>
    rw [apply]
    generalize h : m.addWithFee C tx fee.toNat = r
    obtain ⟨r, m'⟩ := r
    cases r with
    | error e => exact Or.inl (addWithFee_error h)
    | ok txid =>
      obtain ⟨hfee, hbytes, -, hm⟩ := addWithFee_ok h
      exact Or.inr (Or.inl ⟨tx, fee.toNat, rfl, hm, fee.toNat_lt, fun _ => ⟨hfee, hbytes⟩⟩)
  | add tx =>
    exact Or.inr (Or.inl ⟨tx, 0, rfl, rfl, Nat.two_pow_pos 64,
      fun h => absurd h (by simp [Op.isAdd])⟩)
  | remove txid => exact Or.inr (Or.inr ⟨txid, rfl⟩)

/-- The rule for sequences of calls: what every single call keeps holds in the end. -/
theorem runOps_rule {P : Mempool → Prop} {m : Mempool} {ops : List Op} (h : P m)
    (hstep : ∀ m, ∀ op ∈ ops, P m → P (m.apply C op)) : P (m.runOps C ops) := by
  induction ops generalizing m with
  | nil => exact h
  | cons op ops ih =>
    obtain ⟨hop, hops⟩ := List.forall_mem_cons.mp (fun op hop m => hstep m op hop)
    exact ih (hop m h) fun m op hop => hops op hop m

/-! ### Insertion and removal, field by field -/

theorem insertTx_of_notMem {m : Mempool} {tx : Transaction} (h : tx.txidHex C ∉ m.txs) (fee : ℕ) :
    m.insertTx C tx fee =
      ⟨m.txs.insert (tx.txidHex C) tx, m.fees.insert (tx.txidHex C) fee,
        m.totalBytes + tx.serializedSize⟩ :=
  if_neg h

/-- Inserting what is already there changes nothing. -/
theorem insertTx_of_lookup {m : Mempool} {tx : Transaction}
    (h : m.txs.lookup (tx.txidHex C) = some tx) (fee : ℕ) : m.insertTx C tx fee = m := by
  rw [insertTx, if_pos (Finmap.mem_of_lookup h), Finmap.insert_eq_self h]

theorem remove_of_lookup {m : Mempool} {txid : String} {tx : Transaction}
    (h : m.txs.lookup txid = some tx) :
    m.remove txid =
      ⟨m.txs.erase txid, m.fees.erase txid, m.totalBytes - tx.serializedSize⟩ := by
  rw [remove, h]

theorem remove_of_notMem {m : Mempool} {txid : String} (h : m.txs.lookup txid = none) :
    m.remove txid = m := by
  rw [remove, h]

/-! ### Every transaction is under its txid -/

/-- Every key is the txid of its transaction. -/
def Keyed (C : Crypto) (m : Mempool) : Prop :=
  ∀ txid tx, m.txs.lookup txid = some tx → tx.txidHex C = txid

theorem keyed_new : Keyed C new := by
  intro txid tx h
  rw [lookup_new] at h
  cases h

theorem Keyed.apply {m : Mempool} (h : Keyed C m) (op : Op) : Keyed C (m.apply C op) := by
  intro txid tx hlook
  rcases apply_cases (C := C) m op with heq | ⟨tx', fee, -, heq, -⟩ | ⟨txid', heq⟩
  · rw [heq] at hlook
    exact h txid tx hlook
  · rw [heq, insertTx_txs, Finmap.lookup_insert_eq] at hlook
    split at hlook
    · next hk =>
      cases hlook
      exact hk.symm
    · exact h txid tx hlook
  · rw [heq, remove_txs, Finmap.lookup_erase_eq] at hlook
    split at hlook
    · cases hlook
    · exact h txid tx hlook

theorem keyed_runOps (ops : List Op) : Keyed C (new.runOps C ops) :=
  runOps_rule keyed_new fun _ op _ h => h.apply op

/-! ### The fields agree -/

/-- The transactions a sequence of calls brings. -/
def broughtBy (ops : List Op) : List Transaction := ops.filterMap Op.tx?

/-- The three fields of a mempool agree, and it holds only transactions of `pool`. -/
structure Accounted (C : Crypto) (pool : List Transaction) (m : Mempool) : Prop where
  keyed : Keyed C m
  keys : ∀ txid, txid ∈ m.txs ↔ txid ∈ m.fees
  bytes : m.totalBytes = m.txs.total Transaction.serializedSize
  held : ∀ txid tx, m.txs.lookup txid = some tx → tx ∈ pool

theorem accounted_new (pool : List Transaction) : Accounted C pool new := by
  refine ⟨keyed_new, fun txid => ?_, ?_, fun txid tx h => ?_⟩
  · simp only [new, Finmap.notMem_empty]
  · simp [new]
  · rw [lookup_new] at h
    cases h

namespace Accounted

variable {pool : List Transaction} {m : Mempool}

/-- An insertion adds one transaction with its fee and its bytes, or the transaction was there. -/
theorem insertTx (h : Accounted C pool m) (hinj : TxidInj C pool) {tx : Transaction}
    (htx : tx ∈ pool) (fee : ℕ) (hkeyed : Keyed C (m.insertTx C tx fee)) :
    Accounted C pool (m.insertTx C tx fee) := by
  cases hlook : m.txs.lookup (tx.txidHex C) with
  | some tx' =>
    obtain rfl : tx' = tx := hinj tx' (h.held _ _ hlook) tx htx (h.keyed _ _ hlook)
    rw [insertTx_of_lookup hlook]
    exact h
  | none =>
    have hmem : tx.txidHex C ∉ m.txs := Finmap.lookup_eq_none.mp hlook
    rw [insertTx_of_notMem hmem] at hkeyed ⊢
    refine ⟨hkeyed, fun txid => ?_, ?_, fun txid tx' h' => ?_⟩
    · rw [Finmap.mem_insert, Finmap.mem_insert, h.keys]
    · show m.totalBytes + tx.serializedSize = (m.txs.insert (tx.txidHex C) tx).total _
      rw [Finmap.total_insert_of_notMem _ hmem, h.bytes, Nat.add_comm]
    · rw [Finmap.lookup_insert_eq] at h'
      split at h'
      · cases h'
        exact htx
      · exact h.held _ _ h'

theorem remove (h : Accounted C pool m) {txid : String} (hkeyed : Keyed C (m.remove txid)) :
    Accounted C pool (m.remove txid) := by
  cases hlook : m.txs.lookup txid with
  | none =>
    rw [remove_of_notMem hlook]
    exact h
  | some tx =>
    rw [remove_of_lookup hlook] at hkeyed ⊢
    refine ⟨hkeyed, fun txid' => ?_, ?_, fun txid' tx' h' => ?_⟩
    · rw [Finmap.mem_erase, Finmap.mem_erase, h.keys]
    · show m.totalBytes - tx.serializedSize = (m.txs.erase txid).total _
      have hsum := Finmap.total_erase_add Transaction.serializedSize hlook
      rw [h.bytes]
      omega
    · rw [Finmap.lookup_erase_eq] at h'
      split at h'
      · cases h'
      · exact h.held _ _ h'

theorem apply (h : Accounted C pool m) (hinj : TxidInj C pool) {op : Op}
    (hop : ∀ tx, op.tx? = some tx → tx ∈ pool) : Accounted C pool (m.apply C op) := by
  have hkeyed := h.keyed.apply op
  rcases apply_cases (C := C) m op with heq | ⟨tx, fee, htx, heq, -⟩ | ⟨txid, heq⟩
  · rw [heq]
    exact h
  · rw [heq] at hkeyed ⊢
    exact h.insertTx hinj (hop tx htx) fee hkeyed
  · rw [heq] at hkeyed ⊢
    exact h.remove hkeyed

end Accounted

/-- Along a whole sequence of calls. -/
theorem accounted_runOps {ops : List Op} (hinj : TxidInj C (broughtBy ops)) :
    Accounted C (broughtBy ops) (new.runOps C ops) :=
  runOps_rule (accounted_new _) fun _ op hop h =>
    h.apply hinj fun _ htx => List.mem_filterMap.mpr ⟨op, hop, htx⟩

/-! ### Admission keeps the bounds -/

/-- What the admission check is for: the bytes are capped and every fee is above the minimum. -/
structure Admitted (m : Mempool) : Prop where
  bytes_le : m.totalBytes ≤ maxMempoolBytes
  fee_le : ∀ txid fee, m.fees.lookup txid = some fee → minFeeArkes ≤ fee

theorem admitted_new : Admitted new := by
  refine ⟨Nat.zero_le _, fun txid fee h => ?_⟩
  simp [new] at h

namespace Admitted

variable {m : Mempool}

theorem insertTx (h : Admitted m) {tx : Transaction} {fee : ℕ} (hfee : minFeeArkes ≤ fee)
    (hbytes : m.totalBytes + tx.serializedSize ≤ maxMempoolBytes) :
    Admitted (m.insertTx C tx fee) := by
  refine ⟨(insertTx_totalBytes_le m tx fee).trans hbytes, fun txid fee' h' => ?_⟩
  by_cases hmem : tx.txidHex C ∈ m.txs
  · rw [Mempool.insertTx, if_pos hmem] at h'
    exact h.fee_le txid fee' h'
  · rw [insertTx_of_notMem hmem, Finmap.lookup_insert_eq] at h'
    split at h'
    · cases h'
      exact hfee
    · exact h.fee_le txid fee' h'

theorem remove (h : Admitted m) (txid : String) : Admitted (m.remove txid) := by
  cases hlook : m.txs.lookup txid with
  | none =>
    rw [remove_of_notMem hlook]
    exact h
  | some tx =>
    rw [remove_of_lookup hlook]
    refine ⟨(Nat.sub_le _ _).trans h.bytes_le, fun txid' fee h' => ?_⟩
    rw [Finmap.lookup_erase_eq] at h'
    split at h'
    · cases h'
    · exact h.fee_le txid' fee h'

theorem apply (h : Admitted m) {op : Op} (hop : op.isAdd = false) : Admitted (m.apply C op) := by
  rcases apply_cases (C := C) m op with heq | ⟨tx, fee, -, heq, -, hadm⟩ | ⟨txid, heq⟩
  · rw [heq]
    exact h
  · rw [heq]
    exact h.insertTx (hadm hop).1 (hadm hop).2
  · rw [heq]
    exact h.remove txid

end Admitted

/-- **Mempool accounting.** After any sequence of calls on a new mempool, on transactions with txids
of their own: the held transactions and the fees have the same keys, each key is the txid of its
transaction, and the byte count is the sum of the sizes, so no removal takes away more than there
is. Without `add` the bytes are capped and every fee is above the minimum. A refused call changes
nothing. -/
theorem mempool_accounting (C : Crypto) (ops : List Op) (hinj : TxidInj C (broughtBy ops)) :
    let m := new.runOps C ops
    (∀ txid, txid ∈ m.txs ↔ txid ∈ m.fees) ∧
      (∀ txid tx, m.txs.lookup txid = some tx → tx.txidHex C = txid) ∧
      m.totalBytes = m.txs.total Transaction.serializedSize ∧
      (∀ txid tx, m.txs.lookup txid = some tx → tx.serializedSize ≤ m.totalBytes) ∧
      ((∀ op ∈ ops, op.isAdd = false) → m.totalBytes ≤ maxMempoolBytes ∧
        ∀ txid fee, m.fees.lookup txid = some fee → minFeeArkes ≤ fee) ∧
      ∀ tx (fee : UInt64) e, (m.addWithFee C tx fee.toNat).1 = .error e →
        (m.addWithFee C tx fee.toNat).2 = m := by
  intro m
  have hacc : Accounted C (broughtBy ops) m := accounted_runOps hinj
  refine ⟨hacc.keys, hacc.keyed, hacc.bytes, fun txid tx h => ?_, fun hops => ?_,
    fun tx fee e h => ?_⟩
  · rw [hacc.bytes]
    exact Finmap.le_total_of_lookup _ h
  · have hadm : Admitted m := runOps_rule admitted_new fun _ op hop h => h.apply (hops op hop)
    exact ⟨hadm.bytes_le, hadm.fee_le⟩
  · exact addWithFee_error (Prod.ext h rfl)

/-- A transaction of nothing but a lock time. -/
def bareTx (lockTime : UInt64) : Transaction := ⟨[], [], 1, lockTime⟩

theorem serializedSize_bareTx (lockTime : UInt64) : (bareTx lockTime).serializedSize = 28 := by
  simp [Transaction.serializedSize, Transaction.encode, bareTx, encList]

/-- Two transactions, the second taken out and put back. -/
theorem mempool_accounting_bareTx :
    (new.runOps Crypto.sample [.addWithFee (bareTx 1) 1000, .addWithFee (bareTx 2) 2000,
      .remove ((bareTx 2).txidHex Crypto.sample), .addWithFee (bareTx 2) 3000]).totalBytes ≤
        maxMempoolBytes :=
  ((mempool_accounting Crypto.sample _ (by
    rw [TxidInj]
    decide +kernel)).2.2.2.2.1 (by decide)).1

end Mempool

end Arkos
