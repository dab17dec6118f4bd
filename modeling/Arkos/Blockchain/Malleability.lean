import Arkos.Blockchain.IdleChain
import Arkos.Transaction.Preimage

/-!
# What a third party can change in a signed transaction

The txid is the hash of all fields of a transaction, and `sig_hash` is the hash of some of them. Its
comment names what it leaves out, the signatures and the witnesses, but it leaves out more: the lock
time, the extra data of the inputs, and of an output the address it is indexed under and whether its
script was written out. Whoever relays a payment can change these and the signatures still verify,
so the payment confirms under another txid.

`txid_determined_iff` says that nothing else can be changed, as long as one of the spent outputs
wants a signature at all. A lock that wants none is an `m`-of-`n` lock with `m` zero, under any
number of time locks.

## Main definitions

* `Script.wantsSignature`
* `TxInput.spend` — an input without its extra data
* `Transaction.SameUnsigned`, `Transaction.SameSigned`, `Pinned`

## Main results

* `verify_of_evaluateScript` — a lock that wants a signature has checked the one of the primary slot
* `txid_determined_iff`, `not_txid_determined`
-/

namespace Arkos

/-! ### Locks that want a signature -/

/-- Does the lock want a signature? -/
def Script.wantsSignature : Script → Bool
  | .p2pkh _ => true
  | .p2ms m _ => decide (0 < m.toNat)
  | .timeLocked _ inner => inner.wantsSignature

section

variable {C : Crypto}

/-- **A satisfied lock that wants a signature has checked the one in the primary slot.** -/
theorem verify_of_evaluateScript {script : Script} {input : TxInput} {sigHash : Hash}
    {blockTime : ℕ} (hwants : script.wantsSignature = true)
    (hok : evaluateScript C script input sigHash blockTime = .ok ()) :
    C.verify input.signature sigHash.toList input.pubkey = .ok () := by
  induction script with
  | p2pkh address =>
    rw [evaluateScript] at hok
    split at hok
    · cases hok
    · split at hok
      · cases hok
      · next hverify => exact hverify
  | p2ms m pubkeys =>
    obtain ⟨-, hall⟩ := evaluateScript_p2ms_iff.mp hok
    have hm : 0 < m.toNat := of_decide_eq_true hwants
    -- the primary slot is the first pair, so `m` of them include it
    have hfirst : (input.signature, input.pubkey) ∈ input.signers.take m.toNat := by
      obtain ⟨k, hk⟩ := Nat.exists_eq_succ_of_ne_zero hm.ne'
      rw [hk, TxInput.signers, List.take_succ_cons]
      exact List.mem_cons_self
    exact (signerCounts_iff.mp (hall _ hfirst)).2
  | timeLocked lockUntil inner ih =>
    rw [evaluateScript] at hok
    split at hok
    · cases hok
    · exact ih hwants hok

end

/-! ### The fields, by what covers them -/

/-- An input without its extra data: the outpoint, the key, the signature and the witnesses. -/
def TxInput.spend (i : TxInput) :
    String × UInt32 × HybridPublicKey × HybridSignature ×
      List (HybridSignature × HybridPublicKey) :=
  (i.prevTxHash, i.prevIndex, i.pubkey, i.signature, i.witnesses)

namespace Transaction

/-- The two agree on what is part of the txid but not of what is signed. -/
structure SameUnsigned (tx tx' : Transaction) : Prop where
  lockTime : tx.lockTime = tx'.lockTime
  coinbaseExtra : tx.inputs.map TxInput.coinbaseExtra = tx'.inputs.map TxInput.coinbaseExtra
  outputs : tx.outputs.map (fun o => (o.script.isSome, o.address)) =
    tx'.outputs.map (fun o => (o.script.isSome, o.address))

/-- The two agree on what is signed beside the spends themselves. -/
structure SameSigned (tx tx' : Transaction) : Prop where
  version : tx.version = tx'.version
  outputs : tx.outputs.map TxOutput.signedPart = tx'.outputs.map TxOutput.signedPart

/-- Some output the transaction spends wants a signature. -/
def WantsSignature (tx : Transaction) (u : UtxoSet) : Prop :=
  ∃ i ∈ tx.inputs, ∃ o, u.utxos.lookup i.outpoint = some o ∧ o.effectiveScript.wantsSignature = true

/-- When signatures and the fields they leave out determine the transaction. -/
structure Pinned (tx tx' : Transaction) (u : UtxoSet) : Prop where
  unsigned : tx.SameUnsigned tx'
  signed : tx.WantsSignature u ∨ tx.SameSigned tx'

end Transaction

/-- Two lists that agree in two projections agree in whatever these determine. -/
theorem map_inj_of_pair {α β γ : Type*} {f : α → β} {g : α → γ}
    (hinj : Function.Injective fun a => (f a, g a)) {l l' : List α} (hf : l.map f = l'.map f)
    (hg : l.map g = l'.map g) : l = l' := by
  refine List.map_injective_iff.mpr hinj ?_
  rw [← List.zip_map', ← List.zip_map', hf, hg]

theorem injective_spend : Function.Injective fun i : TxInput => (i.spend, i.coinbaseExtra) := by
  rintro ⟨⟩ ⟨⟩ h
  simp only [TxInput.spend, Prod.mk.injEq] at h
  obtain ⟨⟨rfl, rfl, rfl, rfl, rfl⟩, rfl⟩ := h
  rfl

theorem injective_signedPart :
    Function.Injective fun o : TxOutput => (o.signedPart, o.script.isSome, o.address) := by
  rintro ⟨v, s, a⟩ ⟨v', s', a'⟩ h
  simp only [TxOutput.signedPart, TxOutput.effectiveScript, Prod.mk.injEq] at h
  obtain ⟨⟨rfl, hscript⟩, hsome, rfl⟩ := h
  rcases s with _ | s <;> rcases s' with _ | s'
  · rfl
  · simp at hsome
  · simp at hsome
  · rw [show s = s' from hscript]

/-- The three groups are all of a transaction. -/
theorem Transaction.eq_of_same {tx tx' : Transaction}
    (hspends : tx.inputs.map TxInput.spend = tx'.inputs.map TxInput.spend)
    (hunsigned : tx.SameUnsigned tx') (hsigned : tx.SameSigned tx') : tx = tx' := by
  have hin : tx.inputs = tx'.inputs :=
    map_inj_of_pair injective_spend hspends hunsigned.coinbaseExtra
  have hout : tx.outputs = tx'.outputs :=
    map_inj_of_pair injective_signedPart hsigned.outputs hunsigned.outputs
  have hversion := hsigned.version
  have hlock := hunsigned.lockTime
  cases tx
  cases tx'
  subst hin hout hversion hlock
  rfl

/-- With equal spends, equal strings mean equal versions and outputs. Nothing is assumed about the
format of the fields. -/
theorem sameSigned_of_sigPreimage {tx tx' : Transaction} {magic : UInt32}
    (hspends : tx.inputs.map TxInput.spend = tx'.inputs.map TxInput.spend)
    (heq : tx.sigPreimage magic = tx'.sigPreimage magic) : tx.SameSigned tx' := by
  have hins : tx.inputs.map TxInput.signedPart = tx'.inputs.map TxInput.signedPart := by
    have h := congrArg (List.map fun s => (s.1, s.2.1, s.2.2.1)) hspends
    rw [List.map_map, List.map_map] at h
    exact h
  rw [sigPreimage_eq, sigPreimage_eq, hins] at heq
  obtain ⟨hversion, h₁⟩ := List.append_inj (List.append_cancel_left heq) (by simp)
  exact ⟨UInt32.toNat_inj.mp (leBytes_inj tx.version.toNat_lt tx'.version.toNat_lt hversion),
    prefixCode_outputPart.flatMap_inj outputPart_ne_nil (List.append_cancel_left h₁)⟩

/-! ### What signatures pin down -/

section

variable {C : Crypto} {u : UtxoSet} {magic : UInt32} {h fee fee' : ℕ} {tx tx' : Transaction}

/-- Two accepted transactions with the same spends, one of which wants a signature, were signed for
the same hash: the one message that the signature is valid for. -/
theorem sigHash_eq_of_wantsSignature (hok : TxOk C tx u magic h fee)
    (hok' : TxOk C tx' u magic h fee')
    (hspends : tx.inputs.map TxInput.spend = tx'.inputs.map TxInput.spend)
    (hone : ∀ sig key msg msg', C.verify sig msg key = .ok () → C.verify sig msg' key = .ok () →
      msg = msg')
    (hwants : tx.WantsSignature u) : tx.sigHash C magic = tx'.sigHash C magic := by
  obtain ⟨i, hi, o, hlook, hscript⟩ := hwants
  obtain ⟨i', hi', hspend⟩ : ∃ i' ∈ tx'.inputs, i'.spend = i.spend := by
    have hmem := List.mem_map_of_mem (f := TxInput.spend) hi
    rw [hspends] at hmem
    exact List.mem_map.mp hmem
  simp only [TxInput.spend, Prod.mk.injEq] at hspend
  obtain ⟨hhash, hindex, hkey, hsig, -⟩ := hspend
  have houtpoint : i'.outpoint = i.outpoint := by rw [TxInput.outpoint, hhash, hindex]; rfl
  obtain ⟨o₁, hin⟩ := hok.inputs_ok i hi
  obtain ⟨o₂, hin'⟩ := hok'.inputs_ok i' hi'
  obtain rfl : o₁ = o := Option.some.inj (hin.lookup_eq.symm.trans hlook)
  obtain rfl : o₂ = o₁ := Option.some.inj (hin'.lookup_eq.symm.trans (houtpoint ▸ hlook))
  have hv := verify_of_evaluateScript hscript hin.script_ok
  have hv' := verify_of_evaluateScript hscript hin'.script_ok
  rw [hsig, hkey] at hv'
  exact List.Vector.eq _ _ (hone _ _ _ _ hv hv')

/-- **When no third party can change the txid.** Of two accepted transactions with the same
outpoints, keys, signatures and witnesses, the txids are equal if the fields agree that are hashed
but not signed, and one of the spent outputs wants a signature or the signed fields agree as well.
If the two serialisations do not collide either, they are equal only then. -/
theorem txid_determined_iff (hok : validateTxWithUtxo C tx u magic h = .ok fee)
    (hok' : validateTxWithUtxo C tx' u magic h = .ok fee')
    (hspends : tx.inputs.map TxInput.spend = tx'.inputs.map TxInput.spend)
    (hone : ∀ sig key msg msg', C.verify sig msg key = .ok () → C.verify sig msg' key = .ok () →
      msg = msg')
    (hcoll : C.hash256 (tx.sigPreimage magic) = C.hash256 (tx'.sigPreimage magic) →
      tx.sigPreimage magic = tx'.sigPreimage magic) :
    (tx.Pinned tx' u → tx.txid C = tx'.txid C) ∧
      ((C.hash256 tx.encode = C.hash256 tx'.encode → tx.encode = tx'.encode) →
        tx.serializedSize < 2 ^ 64 → (tx.txid C = tx'.txid C ↔ tx.Pinned tx' u)) := by
  have htx := validateTxWithUtxo_eq_ok_iff.mp hok
  have htx' := validateTxWithUtxo_eq_ok_iff.mp hok'
  have hif : tx.Pinned tx' u → tx.txid C = tx'.txid C := by
    rintro ⟨hunsigned, hsigned⟩
    have hsame : tx.SameSigned tx' := by
      rcases hsigned with hwants | hsame
      · exact sameSigned_of_sigPreimage hspends
          (hcoll (sigHash_eq_of_wantsSignature htx htx' hspends hone hwants))
      · exact hsame
    rw [Transaction.eq_of_same hspends hunsigned hsame]
  refine ⟨hif, fun henc hsize => ⟨fun hid => ?_, hif⟩⟩
  obtain rfl := Transaction.encode_inj hsize (henc hid)
  exact ⟨⟨rfl, rfl, rfl⟩, Or.inr ⟨rfl, rfl⟩⟩

end

/-! ### Another lock time -/

/-- In the sample instance a signature is valid for one message. -/
theorem verify_sample_inj (sig : HybridSignature) (key : HybridPublicKey) (msg msg' : Bytes)
    (h : Crypto.sample.verify sig msg key = .ok ())
    (h' : Crypto.sample.verify sig msg' key = .ok ()) : msg = msg' := by
  obtain ⟨-, -, hsig⟩ := verify_sample_eq_ok_iff.mp h
  obtain ⟨-, -, hsig'⟩ := verify_sample_eq_ok_iff.mp h'
  exact samplePad_injective (congrArg HybridSignature.dilithiumSig (hsig.symm.trans hsig'))

/-- A payment of the first reward, with any lock time. -/
def relayedPayment (lockTime : UInt64) : Transaction := spendTx payCoinbase 1 32188180000 lockTime

theorem validate_relayedPayment (lockTime : UInt64) :
    validateTxWithUtxo Crypto.sample (relayedPayment lockTime) (idleUtxo 99) regtestMagic 101 =
      .ok 4932 :=
  validateTxWithUtxo_eq_ok_iff.mpr
    (txOk_spendTx_payCoinbase lockTime (by decide) (by decide) (by decide))

theorem txid_relayedPayment_ne :
    (relayedPayment 0).txid Crypto.sample ≠ (relayedPayment 1).txid Crypto.sample := by
  intro heq
  exact absurd (Transaction.lockTime_eq_of_txid heq) (by decide)

/-- The lock time is in the txid and not in the signature, so a relay that sets it to 1 gives a
payment another txid. -/
theorem not_txid_determined :
    ¬ ∀ (C : Crypto) (u : UtxoSet) (magic : UInt32) (h fee fee' : ℕ) (tx tx' : Transaction),
      tx.inputs ≠ [] → validateTxWithUtxo C tx u magic h = .ok fee →
      validateTxWithUtxo C tx' u magic h = .ok fee' →
      tx.inputs.map TxInput.spend = tx'.inputs.map TxInput.spend →
      (∀ sig key msg msg', C.verify sig msg key = .ok () → C.verify sig msg' key = .ok () →
        msg = msg') →
      (C.hash256 (tx.sigPreimage magic) = C.hash256 (tx'.sigPreimage magic) →
        tx.sigPreimage magic = tx'.sigPreimage magic) → tx.txid C = tx'.txid C := by
  intro hclaim
  refine txid_relayedPayment_ne (hclaim Crypto.sample (idleUtxo 99) regtestMagic 101 4932 4932
    (relayedPayment 0) (relayedPayment 1) (List.cons_ne_nil _ _) (validate_relayedPayment 0)
    (validate_relayedPayment 1) rfl verify_sample_inj fun _ => rfl)

/-- These two payments are accepted with the same signature. They would have the same txid if the
lock times were the same, and they do not. -/
theorem txid_determined_iff_relayedPayment :
    ¬ (relayedPayment 0).Pinned (relayedPayment 1) (idleUtxo 99) := by
  have hiff := txid_determined_iff (validate_relayedPayment 0) (validate_relayedPayment 1) rfl
    verify_sample_inj fun _ => rfl
  have hsize : (relayedPayment 0).serializedSize < 2 ^ 64 := by
    rw [relayedPayment, serializedSize_spendTx]
    norm_num
  exact (hiff.2 (fun heq => absurd heq txid_relayedPayment_ne) hsize).not.mp txid_relayedPayment_ne

end Arkos
