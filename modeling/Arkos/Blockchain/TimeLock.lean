import Arkos.Blockchain.Sequential

/-!
# What a time lock is compared with

The clock of the locks is the height: an input is evaluated at ten minutes for each block of the
chain, counted from zero and kept in 64 bits. So the latest lock around a script decides, and it is
compared with the height. A block carries a Unix time as well, and the two never meet. The one
comparison is the other only for locks that are before both times or after both.

The first block is stamped with a time that the height takes half a century to reach. Until then
every lock between the two times is open by the timestamp and closed to the node.

## Main definitions

* `Script.lockTimes`, `Script.lastLock`, `Script.innermost`
* `SpendsIn` — an input of a block and what it spends

## Main results

* `evaluateScript_eq_ok_iff_lastLock`
* `Blockchain.timeLock_unix_iff`, and a lock that has long expired `Blockchain.not_timeLock_unix`
-/

namespace Arkos

namespace Script

/-- The times of the locks around a script, from the outside. -/
def lockTimes : Script → List UInt64
  | .timeLocked lockUntil inner => lockUntil :: inner.lockTimes
  | _ => []

/-- What is inside all the locks. -/
def innermost : Script → Script
  | .timeLocked _ inner => inner.innermost
  | script => script

/-- The latest of the times, or zero. -/
def lastLock : Script → ℕ
  | .timeLocked lockUntil inner => max lockUntil.toNat inner.lastLock
  | _ => 0

/-- Every script is a nesting of its locks around what is inside. -/
theorem foldr_lockTimes (script : Script) :
    script.lockTimes.foldr .timeLocked script.innermost = script := by
  induction script with
  | p2pkh address => rfl
  | p2ms m pubkeys => rfl
  | timeLocked lockUntil inner ih => exact congrArg (Script.timeLocked lockUntil) ih

theorem forall_lockTimes_iff {script : Script} {t : ℕ} :
    (∀ l ∈ script.lockTimes, l.toNat ≤ t) ↔ script.lastLock ≤ t := by
  induction script with
  | p2pkh address => exact iff_of_true (fun _ hl => nomatch hl) (Nat.zero_le t)
  | p2ms m pubkeys => exact iff_of_true (fun _ hl => nomatch hl) (Nat.zero_le t)
  | timeLocked lockUntil inner ih => rw [lockTimes, lastLock, List.forall_mem_cons, ih, max_le_iff]

end Script

variable {C : Crypto}

/-- What is inside the locks is satisfied at one time if it is at another. -/
theorem evaluateScript_innermost {script : Script} {input : TxInput} {sigHash : Hash}
    (t t' : ℕ) : evaluateScript C script.innermost input sigHash t =
      evaluateScript C script.innermost input sigHash t' := by
  induction script with
  | p2pkh address => rfl
  | p2ms m pubkeys => rfl
  | timeLocked lockUntil inner ih => exact ih

/-- **The latest lock decides.** -/
theorem evaluateScript_eq_ok_iff_lastLock {script : Script} {input : TxInput} {sigHash : Hash}
    {t : ℕ} : evaluateScript C script input sigHash t = .ok () ↔
      script.lastLock ≤ t ∧ evaluateScript C script.innermost input sigHash t = .ok () := by
  conv_lhs => rw [← script.foldr_lockTimes]
  rw [evaluateScript_locks_iff, Script.forall_lockTimes_iff]

/-- The input `i` of the transaction `tx` of a block spends `o`: it is what the outpoint names among
the outputs `u` that the parent left, where the fees are added up, or among what the transactions
before `tx` made of them, where the transactions are applied. -/
structure SpendsIn (C : Crypto) (u : UtxoSet) (b : Block) (tx : Transaction) (i : TxInput)
    (o : TxOutput) : Prop where
  mem : i ∈ tx.inputs
  found : ∃ before after, b.transactions.tail = before ++ tx :: after ∧
    (u.utxos.lookup i.outpoint = some o ∨
      (before.foldl (UtxoSet.applyTransaction C) u).utxos.lookup i.outpoint = some o)

namespace Blockchain

variable {magic : UInt32} {T : Set ℕ} {g : Block} {hist : List Block} {s : Blockchain}

/-- A block that passes the other checks is as high as it has ancestors. -/
theorem OtherChecks.height_eq_length (hg : g.height = 0) (hi : Inv C magic T g hist s) {now : ℕ}
    {b parent : Block} {bs : List Block} {u : UtxoSet} {m : ℕ}
    (hother : OtherChecks C now s b parent bs u m) : b.height = bs.length := by
  have hwf := Block.validate_eq_ok_iff.mp hother.valid
  obtain ⟨-, hparent⟩ := hi.own _ _ hother.stored
  have hctx := hother.context_eq
  rw [hwf.prevHash_eq] at hctx
  obtain ⟨hvalid, hlast, -, -⟩ := hi.parentContext_spec hg hparent hctx
  rw [hother.height_eq, hvalid.height_getLast? hg hlast]

/-- **What a time lock follows.** In every state a run reaches, for every block that passes the
other checks on a stored parent, and every input of it that satisfies what is inside the locks: the
block is as high as it has ancestors, and the input is accepted exactly when all locks are at most
ten minutes for each of them. This is the same as having expired by the timestamp of the block if
and only if the latest lock is not between the two times. -/
theorem timeLock_unix_iff (C : Crypto) (fuel : ℕ) (bits : UInt32) (g : Block)
    (hgen : genesisBlockWithBits C fuel bits = some g) (store : Option BlockStore) (magic : UInt32)
    (evs : List Event) (s : Blockchain) (hs : s = run C (fromGenesisWithMagic C g store magic) evs)
    (hsep : Separated C (g :: recorded C (fromGenesisWithMagic C g store magic) evs)) (now : ℕ)
    (b parent : Block) (bs : List Block) (u : UtxoSet) (m : ℕ)
    (hother : OtherChecks C now s b parent bs u m) :
    b.height = bs.length ∧ ∀ tx i o, SpendsIn C u b tx i o →
      (∃ t, evaluateScript C o.effectiveScript.innermost i (tx.sigHash C s.networkMagic) t =
        .ok ()) →
      (evaluateScript C o.effectiveScript i (tx.sigHash C s.networkMagic)
          (approxBlockTime b.height) = .ok () ↔
        ∀ l ∈ o.effectiveScript.lockTimes, l.toNat ≤ b.height * 600 % 2 ^ 64) ∧
      ((evaluateScript C o.effectiveScript i (tx.sigHash C s.networkMagic)
            (approxBlockTime b.height) = .ok () ↔
          ∀ l ∈ o.effectiveScript.lockTimes, l.toNat ≤ b.header.timestamp.toNat) ↔
        o.effectiveScript.lastLock ≤ min (bs.length * 600 % 2 ^ 64) b.header.timestamp.toNat ∨
          max (bs.length * 600 % 2 ^ 64) b.header.timestamp.toNat <
            o.effectiveScript.lastLock) := by
  obtain ⟨hg, -⟩ := genesisBlockWithBits_spec hgen
  have hinv : Inv C magic Set.univ g _ s := hs ▸ inv_run_of_separated hg store magic evs hsep
  have hheight := hother.height_eq_length hg hinv
  refine ⟨hheight, ?_⟩
  rintro tx i o - ⟨t, hinner⟩
  rw [evaluateScript_innermost t (approxBlockTime b.height)] at hinner
  have hopen := (evaluateScript_eq_ok_iff_lastLock (C := C)).trans (and_iff_left hinner)
  rw [hopen, Script.forall_lockTimes_iff, Script.forall_lockTimes_iff, approxBlockTime, hheight]
  exact ⟨Iff.rfl, by omega⟩

/-! ### A lock between the two times

Block 101 pays the reward of block 1 into a lock, and block 102 spends it. -/

/-- The payment into a lock, before it is signed. -/
def unsignedLock (lockUntil : UInt64) : Transaction :=
  { spendWith payCoinbase 1 32188180000 1 ⟨[], []⟩ with
    outputs := [.timeLocked Crypto.sample lockUntil (.p2pkh sampleAddress) 32188180000] }

/-- The payment. -/
def lockPayment (lockUntil : UInt64) : Transaction :=
  { unsignedLock lockUntil with
    inputs := [spendInput payCoinbase (sampleSign sampleKey
      ((unsignedLock lockUntil).sigHash Crypto.sample regtestMagic).toList)] }

/-- Its block. -/
def lockBlock (lockUntil : UInt64) : Block :=
  childBlock Crypto.sample (idleBlock 99) [idleCoinbase, lockPayment lockUntil] (sampleTime 101)

/-- The chain up to there. -/
def lockChain (lockUntil : UInt64) : List Block := idleChain 99 ++ [lockBlock lockUntil]

/-- The calls that deliver it. -/
def lockRun (lockUntil : UInt64) : List Event :=
  deliver (fun _ => sampleNow) 0 (lockChain lockUntil).tail

/-- What it leaves unspent. -/
def lockUtxo (lockUntil : UInt64) : UtxoSet :=
  ((idleUtxo 99).applyTransaction Crypto.sample idleCoinbase).applyTransaction Crypto.sample
    (lockPayment lockUntil)

/-- The payment out of the lock. -/
def unlockPayment (lockUntil : UInt64) : Transaction :=
  spendTx (lockPayment lockUntil) 1 32188170000 2

/-- Its input. -/
def unlockInput (lockUntil : UInt64) : TxInput :=
  spendInput (lockPayment lockUntil) (sampleSign sampleKey
    ((unlockPayment lockUntil).sigHash Crypto.sample regtestMagic).toList)

/-- Its block. -/
def unlockBlock (lockUntil : UInt64) : Block :=
  childBlock Crypto.sample (lockBlock lockUntil) [idleCoinbase, unlockPayment lockUntil]
    (sampleTime 102)

section

variable (lockUntil : UInt64)

theorem sigHash_lockPayment : (lockPayment lockUntil).sigHash Crypto.sample regtestMagic =
    (unsignedLock lockUntil).sigHash Crypto.sample regtestMagic := by
  have hpreimage : (lockPayment lockUntil).sigPreimage regtestMagic =
      (unsignedLock lockUntil).sigPreimage regtestMagic := by
    simp [Transaction.sigPreimage, lockPayment, unsignedLock, spendWith, spendInput]
  exact congrArg Crypto.sample.hash256 hpreimage

theorem serializedSize_lockPayment : (lockPayment lockUntil).serializedSize = 5631 := by
  have haddress : (Script.timeLocked lockUntil (.p2pkh sampleAddress)).address Crypto.sample =
      sampleAddress := rfl
  have houtput : (TxOutput.timeLocked Crypto.sample lockUntil (.p2pkh sampleAddress)
      32188180000).encode.length = 121 := by
    simp only [TxOutput.encode, TxOutput.timeLocked, haddress, encOption, Script.encode,
      List.length_append, List.length_cons, length_encBytes, length_leBytes,
      length_utf8_sampleAddress]
  simp only [Transaction.serializedSize, Transaction.encode, lockPayment, unsignedLock, spendWith,
    length_encList, List.length_append, length_leBytes, length_encode_spendInput, houtput,
    List.map_cons, List.map_nil, List.sum_cons, List.sum_nil]
  omega

theorem txOk_lockPayment :
    TxOk Crypto.sample (lockPayment lockUntil) (idleUtxo 99) regtestMagic 101 4932 := by
  have hsum : (lockPayment lockUntil).inputSum (idleUtxo 99) = 32188184932 := by
    show [(idleUtxo 99).valueAt _].sum = _
    rw [List.sum_singleton]
    exact UtxoSet.valueAt_of_lookup (lookup_payCoinbase 98)
  refine ⟨fun i hi => ⟨⟨32188184932, none, sampleAddress⟩, ?_⟩, by rw [hsum]; decide, ?_, ?_⟩
  · obtain rfl := List.mem_singleton.mp hi
    refine ⟨mature_payCoinbase 98, lookup_payCoinbase 98, ?_⟩
    rw [sigHash_lockPayment]
    exact evaluateScript_spendInput _ _ _
  · intro o ho
    obtain rfl := List.mem_singleton.mp ho
    exact (by decide : dustLimitArkes ≤ (32188180000 : UInt64).toNat)
  · have hout : (lockPayment lockUntil).outputSum = 32188180000 := by
      show [(32188180000 : UInt64).toNat].sum = _
      rw [List.sum_singleton]
      decide
    rw [hsum, hout]

theorem sampleChain_lockChain :
    SampleChain 101 (lockChain lockUntil) (lockUtxo lockUntil) idleMinted := by
  have hsize := serializedSize_lockPayment lockUntil
  exact (sampleChain_idleChain (by decide)).spend_idle (by decide) (getLast?_idleChain 99)
    (txOk_lockPayment lockUntil) (by decide) (by omega) (show 1 + 1 ≤ 30000 by decide) (by decide)

theorem separated_lockRun : Separated Crypto.sample (sampleGenesis :: recorded Crypto.sample
    (fromGenesisWithMagic Crypto.sample sampleGenesis none regtestMagic) (lockRun lockUntil)) :=
  ((sampleChain_lockChain lockUntil).separated (by decide)).mono fun _ =>
    (sampleChain_lockChain lockUntil).mem_of_mem_cons_recorded

theorem otherChecks_unlockBlock : OtherChecks Crypto.sample sampleNow
    (run Crypto.sample (fromGenesisWithMagic Crypto.sample sampleGenesis none regtestMagic)
      (lockRun lockUntil)) (unlockBlock lockUntil) (lockBlock lockUntil) (lockChain lockUntil)
    (lockUtxo lockUntil) idleMinted := by
  have hidle : idleCoinbase.serializedSize = 160 := by decide +kernel
  have hsize : (unlockPayment lockUntil).serializedSize = 5619 := serializedSize_spendTx _ _ _ _
  refine otherChecks_of_sampleChain (sampleChain_lockChain lockUntil) (by decide)
    (ValidChain.getLast?_append_singleton _ _) rfl (show 1 < maxBlockTransactions by decide) ?_
    (show 1 + (2 + 0) ≤ maxBlockUtxoOps by decide) (by decide)
  simp only [List.map_cons, List.map_nil, hidle, hsize]
  decide

theorem lookup_lockUtxo : (lockUtxo lockUntil).utxos.lookup (unlockInput lockUntil).outpoint =
    some (.timeLocked Crypto.sample lockUntil (.p2pkh sampleAddress) 32188180000) := by
  show (lockUtxo lockUntil).utxos.lookup
    (UtxoSet.key ((lockPayment lockUntil).txidHex Crypto.sample) 0) = _
  have hcreated : (lockPayment lockUntil).createdEntries Crypto.sample =
      [(UtxoSet.key ((lockPayment lockUntil).txidHex Crypto.sample) 0,
        .timeLocked Crypto.sample lockUntil (.p2pkh sampleAddress) 32188180000)] := rfl
  rw [lockUtxo, UtxoSet.applyTransaction, hcreated, Finmap.insertAll_cons, Finmap.insertAll_nil]
  dsimp only
  exact Finmap.lookup_insert _

theorem get_lockUtxo : (lockUtxo lockUntil).get (unlockInput lockUntil).prevTxHash
    (unlockInput lockUntil).prevIndex =
      some (.timeLocked Crypto.sample lockUntil (.p2pkh sampleAddress) 32188180000) :=
  lookup_lockUtxo lockUntil

theorem inputs_unlockPayment : (unlockPayment lockUntil).inputs = [unlockInput lockUntil] := by
  rw [unlockInput, unlockPayment, sigHash_spendTx]
  rfl

theorem spendsIn_unlockBlock : SpendsIn Crypto.sample (lockUtxo lockUntil) (unlockBlock lockUntil)
    (unlockPayment lockUntil) (unlockInput lockUntil)
    (.timeLocked Crypto.sample lockUntil (.p2pkh sampleAddress) 32188180000) where
  mem := inputs_unlockPayment lockUntil ▸ List.mem_singleton_self _
  found := ⟨[], [], rfl, Or.inl (lookup_lockUtxo lockUntil)⟩

/-- The output in the lock is not that of a coinbase. -/
theorem mature_lockUtxo (height : ℕ) : (lockUtxo lockUntil).isImmatureCoinbase
    ((lockPayment lockUntil).txidHex Crypto.sample) height = false := by
  have hsize := serializedSize_lockPayment lockUntil
  have hcb : (lockPayment lockUntil).isCoinbase = false := by
    simp [Transaction.isCoinbase, lockPayment, spendInput]
  have hnone : (idleUtxo 100).coinbaseHeights.lookup
      ((lockPayment lockUntil).txidHex Crypto.sample) = none :=
    lookup_coinbaseHeights_large (by omega) (by omega)
  rw [UtxoSet.isImmatureCoinbase, lockUtxo, applyTransaction_idleCoinbase,
    UtxoSet.coinbaseHeights_applyTransaction_of_not_isCoinbase _ hcb, hnone]

end

/-- **A lock that is behind the timestamp and ahead of the height.** Block 102 is stamped in
November 2023. Its payment spends an output that was locked until September 2020, and everything but
the lock is in order, but the node takes the time to be the seventeenth hour of 1970. -/
theorem not_timeLock_unix : ∃ s₀ s, newForNetwork Crypto.sample 1 "regtest" = some s₀ ∧
    s = run Crypto.sample s₀ (lockRun 1600000000) ∧
    Separated Crypto.sample (s₀.blocks ++ recorded Crypto.sample s₀ (lockRun 1600000000)) ∧
    OtherChecks Crypto.sample sampleNow s (unlockBlock 1600000000) (lockBlock 1600000000)
      (lockChain 1600000000) (lockUtxo 1600000000) idleMinted ∧
    SpendsIn Crypto.sample (lockUtxo 1600000000) (unlockBlock 1600000000) (unlockPayment 1600000000)
      (unlockInput 1600000000)
      (.timeLocked Crypto.sample 1600000000 (.p2pkh sampleAddress) 32188180000) ∧
    (∀ t, evaluateScript Crypto.sample (.p2pkh sampleAddress) (unlockInput 1600000000)
      ((unlockPayment 1600000000).sigHash Crypto.sample s.networkMagic) t = .ok ()) ∧
    (1600000000 : UInt64).toNat ≤ (unlockBlock 1600000000).header.timestamp.toNat ∧
    validateTxWithUtxo Crypto.sample (unlockPayment 1600000000) (lockUtxo 1600000000)
      s.networkMagic (unlockBlock 1600000000).height =
        .error (.scriptFailed ((lockPayment 1600000000).txidHex Crypto.sample) 0
          (.cltvLocked 1600000000 61200)) := by
  obtain ⟨s, -, hrun, hinv, -, -, -⟩ := (sampleChain_lockChain 1600000000).run_deliver (by decide)
  have hrun' : s = run Crypto.sample
      (fromGenesisWithMagic Crypto.sample sampleGenesis none regtestMagic) (lockRun 1600000000) :=
    hrun.symm
  have hlocked : evaluateScript Crypto.sample (TxOutput.timeLocked Crypto.sample 1600000000
      (.p2pkh sampleAddress) 32188180000).effectiveScript (unlockInput 1600000000)
      ((unlockPayment 1600000000).sigHash Crypto.sample regtestMagic) (approxBlockTime 102) =
        .error (.cltvLocked 1600000000 61200) := if_pos (by decide)
  have hget := get_lockUtxo 1600000000
  have hvalue : checkedAdd 64 0 (TxOutput.timeLocked Crypto.sample 1600000000
      (.p2pkh sampleAddress) 32188180000).value.toNat = some 32188180000 := rfl
  refine ⟨_, s, newForNetwork_sample, hrun', ?_, hrun' ▸ otherChecks_unlockBlock 1600000000,
    spendsIn_unlockBlock 1600000000, fun t => ?_, by decide, ?_⟩
  · exact ((sampleChain_lockChain 1600000000).separated (by decide)).mono fun _ =>
      (sampleChain_lockChain 1600000000).mem_of_mem_recorded
  · rw [hinv.magic_eq]
    exact evaluateScript_spendInput _ _ _
  · have hheight : (unlockBlock 1600000000).height = 102 := rfl
    have hmature : (lockUtxo 1600000000).isImmatureCoinbase
        (unlockInput 1600000000).prevTxHash 102 = false := mature_lockUtxo 1600000000 102
    rw [hinv.magic_eq, hheight, validateTxWithUtxo, inputs_unlockPayment, List.foldlM_cons,
      validateInput, hmature, if_neg Bool.false_ne_true, hget]
    dsimp only
    rw [hvalue]
    dsimp only
    rw [hlocked]
    rfl

/-- A lock of a thousand seconds is open by both times. -/
theorem timeLock_unix_iff_thousand : ∃ s, s = run Crypto.sample
      (fromGenesisWithMagic Crypto.sample sampleGenesis none regtestMagic) (lockRun 1000) ∧
    evaluateScript Crypto.sample (.timeLocked 1000 (.p2pkh sampleAddress)) (unlockInput 1000)
      ((unlockPayment 1000).sigHash Crypto.sample s.networkMagic)
      (approxBlockTime (unlockBlock 1000).height) = .ok () := by
  obtain ⟨s, -, hrun, hinv, -, -, -⟩ := (sampleChain_lockChain 1000).run_deliver (by decide)
  have hrun' : s = run Crypto.sample
      (fromGenesisWithMagic Crypto.sample sampleGenesis none regtestMagic) (lockRun 1000) :=
    hrun.symm
  have hlength : (lockChain 1000).length = 102 := (sampleChain_lockChain 1000).length_eq
  refine ⟨s, hrun', (((timeLock_unix_iff Crypto.sample 1 regtestGenesisBits sampleGenesis
    genesisBlockWithBits_sample none regtestMagic (lockRun 1000) s hrun' (separated_lockRun 1000)
    sampleNow (unlockBlock 1000) (lockBlock 1000) (lockChain 1000) (lockUtxo 1000) idleMinted
    (hrun' ▸ otherChecks_unlockBlock 1000)).2 (unlockPayment 1000) (unlockInput 1000) _
    (spendsIn_unlockBlock 1000) ⟨0, ?_⟩).2.mpr (Or.inl ?_)).mpr ?_⟩
  · rw [hinv.magic_eq]
    exact evaluateScript_spendInput _ _ _
  · rw [hlength]
    decide
  · intro l hl
    obtain rfl := List.mem_singleton.mp hl
    decide

end Blockchain

end Arkos
