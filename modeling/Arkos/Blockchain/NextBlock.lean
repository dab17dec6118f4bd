import Arkos.Blockchain.Mining

/-!
# Valid now, valid in the next block

A node validates a submitted transaction at the height of its tip, and the block that will carry it
is validated one higher. The height enters in two places: an output of a coinbase has to be a
hundred blocks old, and a time lock is compared with ten minutes per block. Both only open as the
height grows, as long as the product with 600 fits a word, and nothing else depends on it.

What else a validation depends on is `SameReads`: the outputs under the outpoints that the inputs
name, and the recorded heights of the coinbases among them.

## Main definitions

* `SameReads` — two sets of unspent outputs that look alike to a transaction

## Main results

* `evaluateScript_mono`, `TxOk.mono` — validity is monotone in the height
* `TxOk.of_sameReads`
* `Blockchain.valid_in_next_block`
-/

namespace Arkos

variable {C : Crypto} {u u' : UtxoSet} {magic : UInt32} {h h' fee : ℕ} {tx : Transaction}

/-! ### The height -/

theorem approxBlockTime_of_lt (hlt : h * 600 < 2 ^ 64) : approxBlockTime h = h * 600 :=
  Nat.mod_eq_of_lt hlt

theorem approxBlockTime_mono (hle : h ≤ h') (hlt : h' * 600 < 2 ^ 64) :
    approxBlockTime h ≤ approxBlockTime h' := by
  have htime : h * 600 ≤ h' * 600 := Nat.mul_le_mul_right 600 hle
  rwa [approxBlockTime_of_lt hlt, approxBlockTime_of_lt (htime.trans_lt hlt)]

/-- A coinbase that has matured stays mature. -/
theorem UtxoSet.isImmatureCoinbase_mono (hle : h ≤ h') {txHash : String}
    (hmature : u.isImmatureCoinbase txHash h = false) : u.isImmatureCoinbase txHash h' = false := by
  rw [UtxoSet.isImmatureCoinbase] at hmature ⊢
  split at hmature
  · next minedAt hlook =>
    simp only [decide_eq_false_iff_not] at hmature ⊢
    omega
  · rfl

/-- A script that accepts goes on accepting as time passes. -/
theorem evaluateScript_mono {script : Script} {input : TxInput} {sigHash : Hash} {t t' : ℕ}
    (hle : t ≤ t') (hok : evaluateScript C script input sigHash t = .ok ()) :
    evaluateScript C script input sigHash t' = .ok () := by
  induction script with
  | p2pkh address => exact hok
  | p2ms m pubkeys => exact hok
  | timeLocked lockUntil inner ih =>
    rw [evaluateScript] at hok ⊢
    split at hok
    · cases hok
    · next hopen =>
      rw [if_neg (by omega)]
      exact ih hok

/-- **Validity is monotone in the height**, and the fee stays the same. -/
theorem TxOk.mono (hok : TxOk C tx u magic h fee) (hle : h ≤ h') (hlt : h' * 600 < 2 ^ 64) :
    TxOk C tx u magic h' fee := by
  refine ⟨fun i hi => ?_, hok.inputSum_lt, hok.dust, hok.fee_eq⟩
  obtain ⟨out, hin⟩ := hok.inputs_ok i hi
  exact ⟨out, UtxoSet.isImmatureCoinbase_mono hle hin.mature, hin.lookup_eq,
    evaluateScript_mono (approxBlockTime_mono hle hlt) hin.script_ok⟩

/-! ### What a validation reads -/

/-- The two sets hold the same under the outpoints that the inputs of the transaction name, and know
the same coinbases among them. -/
structure SameReads (u u' : UtxoSet) (tx : Transaction) : Prop where
  lookup_eq : ∀ i ∈ tx.inputs, u'.utxos.lookup i.outpoint = u.utxos.lookup i.outpoint
  coinbaseHeights_eq : ∀ i ∈ tx.inputs,
    u'.coinbaseHeights.lookup i.prevTxHash = u.coinbaseHeights.lookup i.prevTxHash

theorem SameReads.refl (u : UtxoSet) (tx : Transaction) : SameReads u u tx :=
  ⟨fun _ _ => rfl, fun _ _ => rfl⟩

/-- A transaction is valid where it reads the same. -/
theorem TxOk.of_sameReads (hok : TxOk C tx u magic h fee) (hsame : SameReads u u' tx) :
    TxOk C tx u' magic h fee := by
  have hsum : tx.inputSum u' = tx.inputSum u := by
    rw [Transaction.inputSum, Transaction.inputSum]
    congr 1
    refine List.map_congr_left fun i hi => ?_
    rw [UtxoSet.valueAt, UtxoSet.valueAt, hsame.lookup_eq i hi]
  refine ⟨fun i hi => ?_, hsum ▸ hok.inputSum_lt, hok.dust, hsum ▸ hok.fee_eq⟩
  obtain ⟨out, hin⟩ := hok.inputs_ok i hi
  refine ⟨out, ?_, (hsame.lookup_eq i hi).trans hin.lookup_eq, hin.script_ok⟩
  have hmature := hin.mature
  rwa [UtxoSet.isImmatureCoinbase, ← hsame.coinbaseHeights_eq i hi] at hmature

/-- The fee of a valid transaction is a word. -/
theorem TxOk.fee_lt (hok : TxOk C tx u magic h fee) : fee < 2 ^ 64 := by
  have hlt := hok.inputSum_lt
  have heq := hok.fee_eq
  omega

namespace Blockchain

/-- What an admitted transaction has passed. -/
theorem txOk_of_submitTransaction {s : Blockchain} {txid : String}
    (hsubmit : (s.submitTransaction C tx).1 = .ok txid) :
    ∃ fee, s.validateTx C tx = .ok fee ∧ TxOk C tx s.utxoSet s.networkMagic s.height fee := by
  rw [submitTransaction] at hsubmit
  split at hsubmit
  · cases hsubmit
  · next fee hfee => exact ⟨fee, hfee, validateTxWithUtxo_eq_ok_iff.mp hfee⟩

/-- **A valid transaction stays valid as the chain grows.** At every later height whose time fits a
word, validation returns the same fee. So a transaction that was admitted at the height of the tip
is valid one higher, against every set in which its inputs are unspent as they were, and both loops
over the transactions of the next block accept it. -/
theorem valid_in_next_block (C : Crypto) :
    (∀ (tx : Transaction) (u : UtxoSet) (magic : UInt32) (h h' fee : ℕ), h ≤ h' →
      h' * 600 < 2 ^ 64 → validateTxWithUtxo C tx u magic h = .ok fee →
      validateTxWithUtxo C tx u magic h' = .ok fee) ∧
    ∀ (s : Blockchain) (tx : Transaction) (txid : String),
      (s.submitTransaction C tx).1 = .ok txid → (s.height + 1) * 600 < 2 ^ 64 →
      ∃ fee, s.validateTx C tx = .ok fee ∧
        (∀ u', SameReads s.utxoSet u' tx →
          validateTxWithUtxo C tx u' s.networkMagic (s.height + 1) = .ok fee) ∧
        totalFees C s.utxoSet s.networkMagic (s.height + 1) [tx] = .ok fee ∧
        validateTransactions C s.networkMagic (s.height + 1) s.utxoSet [tx] =
          .ok (s.utxoSet.applyTransaction C tx) := by
  refine ⟨fun tx u magic h h' fee hle hlt hok => ?_, fun s tx txid hsubmit hlt => ?_⟩
  · exact validateTxWithUtxo_eq_ok_iff.mpr ((validateTxWithUtxo_eq_ok_iff.mp hok).mono hle hlt)
  · obtain ⟨fee, hfee, hok⟩ := txOk_of_submitTransaction hsubmit
    have hnext := hok.mono (Nat.le_succ s.height) hlt
    refine ⟨fee, hfee, fun u' hsame => ?_, ?_, ?_⟩
    · exact validateTxWithUtxo_eq_ok_iff.mpr (hnext.of_sameReads hsame)
    · exact totalFees_eq_ok_iff.mpr ⟨[fee], .cons hnext .nil, List.sum_singleton, hnext.fee_lt⟩
    · exact validateTransactions_eq_ok_iff.mpr (.cons hnext .nil)

/-- The payment that is admitted at height 101 is valid at height 102. -/
theorem valid_in_next_block_payFirst : ∃ s : Blockchain, s.utxoSet = idleUtxo 100 ∧
    s.height = 101 ∧ ∃ fee, validateTxWithUtxo Crypto.sample payFirst (idleUtxo 100)
      s.networkMagic 102 = .ok fee := by
  obtain ⟨s, -, hinv, -, hutxo, hheight, hmempool⟩ := run_idleChain
  have hok : TxOk Crypto.sample payFirst (idleUtxo 99) regtestMagic 101 4932 := txOk_feePayment
  have hvalid : s.validateTx Crypto.sample payFirst = .ok 4932 := by
    rw [validateTx, hutxo, hinv.magic_eq, hheight]
    exact validateTxWithUtxo_eq_ok_iff.mpr hok
  have hroom : s.mempool.totalBytes + payFirst.serializedSize ≤ maxMempoolBytes := by
    rw [hmempool, payFirst, serializedSize_spendTx]
    decide
  have hsubmit : (s.submitTransaction Crypto.sample payFirst).1 =
      .ok (payFirst.txidHex Crypto.sample) := by
    rw [submitTransaction, hvalid]
    dsimp only
    rw [Mempool.addWithFee, if_neg (by decide), if_neg (Nat.not_lt.mpr hroom)]
  obtain ⟨fee, -, hnext, -⟩ := (valid_in_next_block Crypto.sample).2 s payFirst _ hsubmit
    (by rw [hheight]; decide)
  have hlater := hnext (idleUtxo 100) (hutxo ▸ SameReads.refl _ _)
  rw [hheight] at hlater
  exact ⟨s, hutxo, hheight, fee, hlater⟩

end Blockchain

end Arkos
