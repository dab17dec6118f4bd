import Arkos.Transaction.Utxo

/-!
# The mempool

Pending transactions under their txid, the fee each was admitted with, and a running byte count.
Admission looks at the fee and at the byte count only; whether the transaction is valid is decided
by the caller, and never looked at again.

A hash table yields its entries in an order of its own. `Mempool.take` therefore receives that
order as an argument: `order` is the list the iterator produces, and `IterOrder` says that it is
one of the lists it may produce.

## Main definitions

* `Mempool`, `Mempool.addWithFee`, `Mempool.remove`, `Mempool.feeFor`
* `Mempool.take`, `Mempool.IterOrder`

## Main results

* `Mempool.addWithFee_error`, `Mempool.addWithFee_ok` — admission, split by its outcome
* `Mempool.mem_take`, `Mempool.length_take_le`
-/

namespace Arkos

/-- `MAX_MEMPOOL_BYTES`. -/
def maxMempoolBytes : ℕ := 32 * 1024 * 1024

/-- `MIN_FEE_ARKES`. -/
def minFeeArkes : ℕ := 1000

/-- `DUST_LIMIT_ARKES`. -/
def dustLimitArkes : ℕ := 546

/-- `Mempool`. -/
structure Mempool where
  txs : Table Transaction
  fees : Table ℕ
  totalBytes : ℕ

/-- Why a transaction is not admitted. -/
inductive MempoolError where
  | feeBelowMinimum (fee : ℕ)
  | mempoolFull (totalBytes : ℕ)
  deriving DecidableEq, Repr

/-- The text of an admission error. -/
def MempoolError.message : MempoolError → String
  | .feeBelowMinimum fee =>
    "transaction fee " ++ toString fee ++ " arkes is below minimum " ++ toString minFeeArkes ++
      " arkes"
  | .mempoolFull totalBytes =>
    "mempool is full (" ++ toString totalBytes ++ "/" ++ toString maxMempoolBytes ++
      " bytes); try again later"

namespace Mempool

/-- `Mempool::new`. -/
def new : Mempool := ⟨∅, ∅, 0⟩

variable (C : Crypto)

/-- The tail of `add_with_fee` and `add`: an entry that is already there keeps its fee. -/
def insertTx (m : Mempool) (tx : Transaction) (fee : ℕ) : Mempool :=
  let txid := tx.txidHex C
  if txid ∈ m.txs then { m with txs := m.txs.insert txid tx }
  else
    { txs := m.txs.insert txid tx
      fees := m.fees.insert txid fee
      totalBytes := m.totalBytes + tx.serializedSize }

/-- `Mempool::add_with_fee`, with the mempool it leaves behind. -/
def addWithFee (m : Mempool) (tx : Transaction) (fee : ℕ) : Except MempoolError String × Mempool :=
  if fee < minFeeArkes then (.error (.feeBelowMinimum fee), m)
  else if m.totalBytes + tx.serializedSize > maxMempoolBytes then
    (.error (.mempoolFull m.totalBytes), m)
  else (.ok (tx.txidHex C), m.insertTx C tx fee)

/-- `Mempool::add`. -/
def add (m : Mempool) (tx : Transaction) : String × Mempool :=
  (tx.txidHex C, m.insertTx C tx 0)

/-- `Mempool::remove`. -/
def remove (m : Mempool) (txid : String) : Mempool :=
  match m.txs.lookup txid with
  | some tx =>
    { txs := m.txs.erase txid
      fees := m.fees.erase txid
      totalBytes := m.totalBytes - tx.serializedSize }
  | none => m

/-- `Mempool::get`. -/
def get (m : Mempool) (txid : String) : Option Transaction := m.txs.lookup txid

/-- `Mempool::fee_for`. -/
def feeFor (m : Mempool) (txid : String) : ℕ := (m.fees.lookup txid).getD 0

/-- The comparison `Mempool::take` sorts by: fee rate descending, cross-multiplied in saturating
64-bit arithmetic, then txid ascending. `true` when the first entry does not come after the
second. -/
def takeLe (m : Mempool) (a b : String × Transaction) : Bool :=
  let sizeA := max a.2.serializedSize 1
  let sizeB := max b.2.serializedSize 1
  let lhs := min (m.feeFor a.1 * sizeB) (2 ^ 64 - 1)
  let rhs := min (m.feeFor b.1 * sizeA) (2 ^ 64 - 1)
  if rhs < lhs then true else if lhs < rhs then false else decide (a.1 ≤ b.1)

/-- `order` lists the entries of the table, each once. -/
def IterOrder (m : Mempool) (order : List (String × Transaction)) : Prop :=
  (order.map Prod.fst).Nodup ∧ ∀ txid tx, (txid, tx) ∈ order ↔ m.txs.lookup txid = some tx

/-- `Mempool::take`, for the given iteration order of the table. -/
def take (m : Mempool) (order : List (String × Transaction)) (limit : ℕ) : List Transaction :=
  ((order.mergeSort m.takeLe).take limit).map Prod.snd

/-- `Mempool::peek`. -/
def peek (m : Mempool) (order : List (String × Transaction)) (limit : ℕ) : List Transaction :=
  m.take order limit

variable {C}

theorem lookup_new (txid : String) : new.txs.lookup txid = none := Finmap.lookup_empty txid

/-! ### Admission -/

/-- A refusal changes nothing. -/
theorem addWithFee_error {m m' : Mempool} {tx : Transaction} {fee : ℕ} {e : MempoolError}
    (h : m.addWithFee C tx fee = (.error e, m')) : m' = m := by
  unfold addWithFee at h
  split at h
  · exact (congrArg Prod.snd h).symm
  · split at h
    · exact (congrArg Prod.snd h).symm
    · cases h

theorem addWithFee_ok {m m' : Mempool} {tx : Transaction} {fee : ℕ} {txid : String}
    (h : m.addWithFee C tx fee = (.ok txid, m')) :
    minFeeArkes ≤ fee ∧ m.totalBytes + tx.serializedSize ≤ maxMempoolBytes ∧
      txid = tx.txidHex C ∧ m' = m.insertTx C tx fee := by
  unfold addWithFee at h
  split at h
  · cases h
  · split at h
    · cases h
    · next hf hb =>
      simp only [Prod.mk.injEq, Except.ok.injEq] at h
      exact ⟨Nat.not_lt.mp hf, Nat.not_lt.mp hb, h.1.symm, h.2.symm⟩

theorem insertTx_txs (m : Mempool) (tx : Transaction) (fee : ℕ) :
    (m.insertTx C tx fee).txs = m.txs.insert (tx.txidHex C) tx := by
  unfold insertTx
  dsimp only
  split <;> rfl

theorem insertTx_totalBytes_le (m : Mempool) (tx : Transaction) (fee : ℕ) :
    (m.insertTx C tx fee).totalBytes ≤ m.totalBytes + tx.serializedSize := by
  unfold insertTx
  dsimp only
  split
  · exact Nat.le_add_right _ _
  · exact le_rfl

theorem remove_txs (m : Mempool) (txid : String) : (m.remove txid).txs = m.txs.erase txid := by
  unfold remove
  split
  · rfl
  · next h =>
    refine (Finmap.ext_lookup fun k => ?_).symm
    rw [Finmap.lookup_erase_eq]
    split
    · next hk => rw [hk, h]
    · rfl

/-! ### Selection -/

theorem mem_take {m : Mempool} {order : List (String × Transaction)} (ho : m.IterOrder order)
    {limit : ℕ} {tx : Transaction} (h : tx ∈ m.take order limit) :
    ∃ txid, m.txs.lookup txid = some tx := by
  obtain ⟨⟨txid, tx'⟩, hmem, rfl⟩ := List.mem_map.mp h
  have hord : (txid, tx') ∈ order :=
    (List.mergeSort_perm order m.takeLe).mem_iff.mp (List.mem_of_mem_take hmem)
  exact ⟨txid, (ho.2 txid tx').mp hord⟩

theorem length_take_le (m : Mempool) (order : List (String × Transaction)) (limit : ℕ) :
    (m.take order limit).length ≤ limit := by
  simp [take]

end Mempool

end Arkos
