import Arkos.Blockchain.Mining
import Arkos.Wallet.Recovery
import Arkos.Wallet.Send

/-!
# Does the node admit what the wallet sends?

The wallet looks at the values of its outputs and at nothing else. The node also asks that a
coinbase has matured, that the one signature the wallet makes opens every script it spends, and that
no output is dust. The change is an output, and the wallet makes one out of any remainder.

The two agree exactly when the outputs the wallet selects, which are the first ones that reach the
amount and the fee, are mature and open, and the remainder is nothing or not dust.

## Main definitions

* `Blockchain.AcceptsWithFee`
* `Wallet.reaching` — the first outputs that reach a target
* `Wallet.Opens` — a script that one signature of the wallet satisfies
* `Wallet.Admissible`

## Main results

* `Wallet.evaluateScript_input_iff`, `Wallet.txOk_payment_iff`
* `Wallet.send_admitted_iff`, and a change of one arke, `Wallet.not_acceptsWithFee_dustPayment`
-/

namespace Arkos

/-- The transaction is accepted and its recorded fee is the given one. -/
def Blockchain.AcceptsWithFee (C : Crypto) (s : Blockchain) (tx : Transaction) (fee : ℕ) : Prop :=
  ∃ txid, (s.submitTransaction C tx).1 = .ok txid ∧
    (s.submitTransaction C tx).2.mempool.feeFor txid = fee

namespace Wallet

/-- The outputs from the front whose exact values reach the target, or all of them. -/
def reaching : ℕ → List Utxo → List Utxo
  | _, [] => []
  | target, x :: utxos =>
    if target = 0 then [] else x :: reaching (target - x.output.value.toNat) utxos

/-- One signature by the keys of the wallet satisfies the script at the block time. -/
def Opens (W : WalletCrypto) (w : Wallet) (blockTime : ℕ) : Script → Prop
  | .p2pkh address => address = w.address W
  | .p2ms m pubkeys => m = 0 ∨ m = 1 ∧ w.keypair.publicKey ∈ pubkeys
  | .timeLocked lockUntil inner => lockUntil.toNat ≤ blockTime ∧ Opens W w blockTime inner

/-- The outputs the wallet selects are mature and open, and the remainder is nothing or not dust. -/
structure Admissible (W : WalletCrypto) (w : Wallet) (s : Blockchain) (target : ℕ)
    (utxos : List Utxo) : Prop where
  total_lt : (values (reaching target utxos)).sum < 2 ^ 64
  change : (values (reaching target utxos)).sum = target ∨
    target + dustLimitArkes ≤ (values (reaching target utxos)).sum
  mature : ∀ x ∈ reaching target utxos, s.utxoSet.isImmatureCoinbase x.txHash s.height = false
  opens : ∀ x ∈ reaching target utxos,
    w.Opens W (approxBlockTime s.height) x.output.effectiveScript

/-! ### The first outputs that are enough -/

theorem reaching_eq_take {target m : ℕ} {utxos : List Utxo} (hm : m ≤ utxos.length)
    (hbefore : ∀ k < m, runningTotal (values utxos) k < target)
    (hreach : target ≤ runningTotal (values utxos) m) : reaching target utxos = utxos.take m := by
  induction utxos generalizing target m with
  | nil => rw [reaching, List.take_nil]
  | cons x utxos ih =>
    have htotal : ∀ k, runningTotal (values (x :: utxos)) (k + 1) =
        x.output.value.toNat + runningTotal (values utxos) k := fun k =>
      runningTotal_cons_succ _ (values utxos) k
    cases m with
    | zero =>
      rw [runningTotal_zero] at hreach
      rw [reaching, if_pos (Nat.le_zero.mp hreach), List.take_zero]
    | succ m =>
      have hpos := hbefore 0 (Nat.succ_pos m)
      rw [runningTotal_zero] at hpos
      rw [htotal] at hreach
      rw [reaching, if_neg hpos.ne', List.take_succ_cons, ih (by simpa using hm) (fun k hk => ?_)
        (by omega)]
      have hlt := hbefore (k + 1) (by omega)
      rw [htotal] at hlt
      omega

theorem exists_reaching_eq_take (target : ℕ) (utxos : List Utxo) :
    ∃ m ≤ utxos.length, reaching target utxos = utxos.take m ∧
      ∀ k < m, runningTotal (values utxos) k < target := by
  induction utxos generalizing target with
  | nil => exact ⟨0, le_rfl, rfl, fun k hk => absurd hk (Nat.not_lt_zero k)⟩
  | cons x utxos ih =>
    by_cases hzero : target = 0
    · exact ⟨0, Nat.zero_le _, if_pos hzero, fun k hk => absurd hk (Nat.not_lt_zero k)⟩
    · obtain ⟨m, hm, htake, hbefore⟩ := ih (target - x.output.value.toNat)
      refine ⟨m + 1, by simpa using hm, ?_, fun k hk => ?_⟩
      · rw [reaching, if_neg hzero, htake, List.take_succ_cons]
      · cases k with
        | zero => exact Nat.pos_of_ne_zero hzero
        | succ k =>
          have htotal : runningTotal (values (x :: utxos)) (k + 1) =
              x.output.value.toNat + runningTotal (values utxos) k := runningTotal_cons_succ _ _ k
          have hlt := hbefore k (by omega)
          omega

/-! ### One signature -/

section

variable {W : WalletCrypto} {sign : HybridKeyPair → Bytes → HybridSignature} {w : Wallet}
  {recipient : String} {amount change : UInt64} {selected : List Utxo} {magic : UInt32}

/-- What is signed does not depend on the signatures. -/
theorem sigHash_payment (outputs : List TxOutput) :
    (w.payment W sign magic selected outputs).sigHash W.toCrypto magic =
      (Transaction.new (selected.map (w.input ⟨[], []⟩)) outputs).sigHash W.toCrypto magic := by
  have hpreimage : (w.payment W sign magic selected outputs).sigPreimage magic =
      (Transaction.new (selected.map (w.input ⟨[], []⟩)) outputs).sigPreimage magic := by
    simp only [Transaction.sigPreimage, inputs_payment, outputs_payment, Transaction.new,
      List.flatMap_map]
    rfl
  rw [Transaction.sigHash, Transaction.sigHash, hpreimage]

/-- **What a script asks of an input of the wallet.** -/
theorem evaluateScript_input_iff
    (hkey : W.publicKeyFromSlice w.keypair.ecdsaPublic = some w.keypair.ecdsaPublic)
    {signature : HybridSignature} {sigHash : Hash}
    (hverify : W.verify signature sigHash.toList w.keypair.publicKey = .ok ()) (x : Utxo)
    (script : Script) (blockTime : ℕ) :
    evaluateScript W.toCrypto script (w.input signature x) sigHash blockTime = .ok () ↔
      w.Opens W blockTime script := by
  induction script with
  | p2pkh address =>
    have hkey' : W.publicKeyFromSlice (w.input signature x).pubkey.ecdsaPubkey =
        some w.keypair.ecdsaPublic := hkey
    have hverify' : W.verify (w.input signature x).signature sigHash.toList
        (w.input signature x).pubkey = .ok () := hverify
    rw [evaluateScript, hkey']
    dsimp only
    rw [hverify']
    dsimp only
    rw [Opens]
    split
    · next hne => exact iff_of_false (fun h => by cases h) fun heq => hne heq.symm
    · next heq => exact iff_of_true rfl (not_not.mp heq).symm
  | p2ms m pubkeys =>
    have hsigners : (w.input signature x).signers = [(signature, w.keypair.publicKey)] := rfl
    have hcounts : signerCounts W.toCrypto pubkeys sigHash (signature, w.keypair.publicKey) = true ↔
        w.keypair.publicKey ∈ pubkeys :=
      signerCounts_iff.trans (and_iff_left hverify)
    rw [evaluateScript_p2ms_iff, hsigners, List.length_singleton, Opens, ← UInt8.toNat_inj,
      ← UInt8.toNat_inj]
    have hzero : (0 : UInt8).toNat = 0 := rfl
    have hone : (1 : UInt8).toNat = 1 := rfl
    rw [hzero, hone]
    constructor
    · rintro ⟨hle, hall⟩
      rcases Nat.le_one_iff_eq_zero_or_eq_one.mp hle with h | h
      · exact Or.inl h
      · rw [h] at hall
        exact Or.inr ⟨h, hcounts.mp (hall _ (by simp))⟩
    · rintro (h | ⟨h, hmem⟩)
      · rw [h]
        exact ⟨Nat.zero_le _, by simp⟩
      · rw [h]
        refine ⟨le_rfl, fun s hs => ?_⟩
        rw [List.take_succ_cons, List.take_zero, List.mem_singleton] at hs
        exact hs ▸ hcounts.mpr hmem
  | timeLocked lockUntil inner ih =>
    rw [evaluateScript, Opens, ← ih]
    split
    · next hlt => exact iff_of_false (fun h => by cases h) fun h => absurd h.1 (Nat.not_le.mpr hlt)
    · next hle => exact (and_iff_right (Nat.not_lt.mp hle)).symm

/-- **When a payment is valid.** -/
theorem txOk_payment_iff
    (hkey : W.publicKeyFromSlice w.keypair.ecdsaPublic = some w.keypair.ecdsaPublic)
    (hsign : ∀ message, W.verify (sign w.keypair message) message w.keypair.publicKey = .ok ())
    {u : UtxoSet} (hlook : ∀ x ∈ selected, u.utxos.lookup (UtxoSet.keyOf x) = some x.output)
    (hamount : dustLimitArkes ≤ amount.toNat) (height fee : ℕ) :
    TxOk W.toCrypto (w.payment W sign magic selected (w.sendOutputs W recipient amount change)) u
        magic height fee ↔
      (∀ x ∈ selected, u.isImmatureCoinbase x.txHash height = false ∧
        w.Opens W (approxBlockTime height) x.output.effectiveScript) ∧
      (values selected).sum < 2 ^ 64 ∧
      (change.toNat = 0 ∨ dustLimitArkes ≤ change.toNat) ∧
      fee + (amount.toNat + change.toNat) = (values selected).sum := by
  have hverify : W.verify
      (w.sendSignature W sign magic selected (w.sendOutputs W recipient amount change))
      ((w.payment W sign magic selected (w.sendOutputs W recipient amount change)).sigHash
        W.toCrypto magic).toList w.keypair.publicKey = .ok () := by
    rw [sigHash_payment]
    exact hsign _
  have hdust : (∀ o ∈ (w.payment W sign magic selected
      (w.sendOutputs W recipient amount change)).outputs, dustLimitArkes ≤ o.value.toNat) ↔
        change.toNat = 0 ∨ dustLimitArkes ≤ change.toNat := by
    have hpos : 0 < change ↔ 0 < change.toNat := UInt64.lt_iff_toNat_lt
    rw [outputs_payment, sendOutputs, List.forall_mem_cons, and_iff_right hamount]
    split
    · next h =>
      rw [hpos] at h
      simp only [List.mem_singleton, forall_eq]
      omega
    · next h =>
      rw [hpos] at h
      simp only [List.not_mem_nil, false_implies, implies_true, true_iff]
      omega
  have hsum : (w.payment W sign magic selected (w.sendOutputs W recipient amount change)).inputSum u
      = (values selected).sum := inputSum_payment hlook
  constructor
  · intro hok
    refine ⟨fun x hx => ?_, hsum ▸ hok.inputSum_lt, hdust.mp hok.dust, ?_⟩
    · obtain ⟨o, hin⟩ := hok.inputs_ok _ (List.mem_map_of_mem hx)
      obtain rfl : x.output = o := Option.some.inj ((hlook x hx).symm.trans hin.lookup_eq)
      exact ⟨hin.mature, (evaluateScript_input_iff hkey hverify x _ _).mp hin.script_ok⟩
    · rw [← hsum, ← hok.fee_eq, outputSum_payment]
  · rintro ⟨hall, hlt, hchange, hfee⟩
    refine ⟨fun i hi => ?_, hsum.symm ▸ hlt, hdust.mpr hchange, ?_⟩
    · obtain ⟨x, hx, rfl⟩ := List.mem_map.mp hi
      obtain ⟨hmature, hopens⟩ := hall x hx
      exact ⟨x.output, hmature, hlook x hx,
        (evaluateScript_input_iff hkey hverify x _ _).mpr hopens⟩
    · rw [hsum, outputSum_payment, hfee]

/-! ### The node's answer -/

/-- A node with room accepts what is valid and pays enough. -/
theorem submitTransaction_eq_ok_iff {C : Crypto} {s : Blockchain} {tx : Transaction}
    (hroom : s.mempool.totalBytes + tx.serializedSize ≤ maxMempoolBytes) :
    (∃ txid, (s.submitTransaction C tx).1 = .ok txid) ↔
      ∃ fee, TxOk C tx s.utxoSet s.networkMagic s.height fee ∧ minFeeArkes ≤ fee := by
  rw [Blockchain.submitTransaction, Blockchain.validateTx]
  constructor
  · rintro ⟨txid, h⟩
    split at h
    · cases h
    · next fee hfee =>
      refine ⟨fee, validateTxWithUtxo_eq_ok_iff.mp hfee, ?_⟩
      split at h
      · cases h
      · next hadd => exact (Mempool.addWithFee_ok hadd).1
  · rintro ⟨fee, hok, hfee⟩
    rw [validateTxWithUtxo_eq_ok_iff.mpr hok]
    dsimp only
    rw [Mempool.addWithFee, if_neg (Nat.not_lt.mpr hfee), if_neg (Nat.not_lt.mpr hroom)]
    exact ⟨_, rfl⟩

/-- The fee recorded for a transaction that is accepted is the one it pays, also when it is pending
already. -/
theorem feeFor_submitTransaction {C : Crypto} {E P : List Transaction} {s : Blockchain}
    {tx : Transaction} {fee : ℕ} (hE : Ledger C E) (hP : NoTxCollision C P) (htx : tx ∈ P)
    (hpool : PoolInv C s.networkMagic E P s.mempool) (hu : Originates C E s.utxoSet)
    (hroom : s.mempool.totalBytes + tx.serializedSize ≤ maxMempoolBytes)
    (hok : TxOk C tx s.utxoSet s.networkMagic s.height fee) (hfee : minFeeArkes ≤ fee) :
    (s.submitTransaction C tx).2.mempool.feeFor (tx.txidHex C) = fee := by
  have hafter := hpool.submitTransaction hP hu htx
  rw [Blockchain.submitTransaction_of_txOk hok hfee hroom] at hafter ⊢
  have hpending : (s.mempool.insertTx C tx fee).txs.lookup (tx.txidHex C) = some tx := by
    rw [Mempool.insertTx_txs]
    exact Finmap.lookup_insert _
  exact hafter.feeFor_eq hE hpending hu hok

/-- The answer is the txid. -/
theorem submitTransaction_txid {C : Crypto} {s : Blockchain} {tx : Transaction} {txid : String}
    (h : (s.submitTransaction C tx).1 = .ok txid) : txid = tx.txidHex C := by
  rw [Blockchain.submitTransaction] at h
  split at h
  · cases h
  · split at h
    · cases h
    · next hadd =>
      obtain rfl := Except.ok.inj h
      exact (Mempool.addWithFee_ok hadd).2.2.1

/-- What the wallet lists and sends on a chain whose outputs are `Keyed`. -/
theorem txOk_send_iff {s : Blockchain} (hkeyed : s.utxoSet.Keyed)
    (hkey : W.publicKeyFromSlice w.keypair.ecdsaPublic = some w.keypair.ecdsaPublic)
    (hsign : ∀ message, W.verify (sign w.keypair message) message w.keypair.publicKey = .ok ())
    {fee : UInt64} (hamount : dustLimitArkes ≤ amount.toNat)
    (hneeded : amount.toNat + fee.toNat < 2 ^ 64) {utxos : List Utxo}
    (horder : (utxos : Multiset Utxo) = s.utxoSet.utxosFor (w.address W)) {tx : Transaction}
    (hsend : w.send W sign recipient amount fee utxos s.networkMagic = .ok tx) :
    TxOk W.toCrypto tx s.utxoSet s.networkMagic s.height fee.toNat ↔
      w.Admissible W s (amount.toNat + fee.toNat) utxos := by
  have hlook : ∀ x ∈ utxos, s.utxoSet.utxos.lookup (UtxoSet.keyOf x) = some x.output := by
    intro x hx
    have hx' : x ∈ s.utxoSet.utxosFor (w.address W) := horder ▸ hx
    exact ((UtxoSet.mem_utxosFor hkeyed).mp hx').1
  obtain ⟨m, change, hstops, hchange, hspec⟩ :=
    send_spec W sign w recipient amount fee utxos s.networkMagic
  obtain ⟨hreach, rfl⟩ := (hspec tx).mp hsend
  have hchange := hchange hreach
  have hpos : 0 < amount.toNat + fee.toNat :=
    Nat.add_pos_left (Nat.lt_of_lt_of_le (by decide) hamount) _
  have hlength : (values utxos).length = utxos.length := List.length_map ..
  have hm : m ≤ utxos.length := hlength ▸ hstops.le
  rw [Nat.mod_eq_of_lt hneeded] at hreach hchange
  rw [txOk_payment_iff hkey hsign (fun x hx => hlook x (List.mem_of_mem_take hx)) hamount,
    sum_values_take]
  constructor
  · rintro ⟨hall, htotal, hdust, hfee⟩
    rw [Nat.mod_eq_of_lt htotal] at hreach
    have htake := reaching_eq_take hm
      (fun k hk => hstops.lt_of_total_lt hneeded htotal hpos hk) hreach
    refine ⟨?_, ?_, fun x hx => ?_, fun x hx => ?_⟩
    · rwa [htake, sum_values_take]
    · rw [htake, sum_values_take]
      omega
    · exact (hall x (htake ▸ hx)).1
    · exact (hall x (htake ▸ hx)).2
  · rintro ⟨htotal, hdust, hmature, hopens⟩
    obtain ⟨j, hj, htake, hbefore⟩ := exists_reaching_eq_take (amount.toNat + fee.toNat) utxos
    rw [htake, sum_values_take] at htotal hdust
    rw [htake] at hmature hopens
    obtain rfl : m = j := hstops.eq_of_first hneeded hpos (hlength ▸ hj) hbefore
      (by omega) htotal
    rw [Nat.mod_eq_of_lt htotal] at hreach hchange
    exact ⟨fun x hx => ⟨hmature x hx, hopens x hx⟩, htotal, by omega, by omega⟩

/-- **When the node admits what the wallet sends.** In every state that a run from a genesis
reaches, for every wallet the program makes, every order in which the outputs are read and a mempool
with room: the transaction is accepted, with the fee that was asked for, if and only if the selected
outputs are mature and open and the remainder is nothing or not dust. The public key of a secret can
be read back, what the wallet signs verifies, and `hash256` does not collide on what is hashed for
the recorded blocks and the submitted transactions. -/
theorem send_admitted_iff (W : WalletCrypto)
    (hlaw : ∀ k, W.publicKeyFromSlice (W.publicKey k) = some (W.publicKey k))
    (sign : HybridKeyPair → Bytes → HybridSignature) (fuel : ℕ) (bits : UInt32) (g : Block)
    (hgenesis : genesisBlockWithBits W.toCrypto fuel bits = some g) (store : Option BlockStore)
    (magic : UInt32) (evs : List Event) (s : Blockchain)
    (hs : s = Blockchain.run W.toCrypto (.fromGenesisWithMagic W.toCrypto g store magic) evs)
    (hnc : NoCollision W.toCrypto
      (g :: Blockchain.recorded W.toCrypto (.fromGenesisWithMagic W.toCrypto g store magic) evs))
    (w : Wallet) (hw : Creatable W w)
    (hsign : ∀ message, W.verify (sign w.keypair message) message w.keypair.publicKey = .ok ())
    (recipient : String) (amount fee : UInt64) (hamount : dustLimitArkes ≤ amount.toNat)
    (hfee : minFeeArkes ≤ fee.toNat) (hneeded : amount.toNat + fee.toNat < 2 ^ 64)
    (utxos : List Utxo) (horder : (utxos : Multiset Utxo) = s.utxoSet.utxosFor (w.address W))
    (tx : Transaction)
    (hsend : w.send W sign recipient amount fee utxos s.networkMagic = .ok tx)
    (hroom : s.mempool.totalBytes + tx.serializedSize ≤ maxMempoolBytes)
    (hcollision : NoTxCollision W.toCrypto (tx :: submitted evs)) :
    s.AcceptsWithFee W.toCrypto tx fee.toNat ↔
      w.Admissible W s (amount.toNat + fee.toNat) utxos := by
  obtain ⟨hg, hgtxs⟩ := genesisBlockWithBits_spec hgenesis
  obtain ⟨hist, hhist⟩ : ∃ hist, hist = g :: Blockchain.recorded W.toCrypto
    (.fromGenesisWithMagic W.toCrypto g store magic) evs := ⟨_, rfl⟩
  rw [← hhist] at hnc
  have hinv : Blockchain.Inv W.toCrypto magic Set.univ g hist s := by
    subst hs hhist
    exact Blockchain.inv_run hg store magic evs hnc
  have hledger := hinv.history.ledger hgtxs hnc
  have hpool : PoolInv W.toCrypto s.networkMagic (chainTxs hist) (tx :: submitted evs)
      s.mempool := by
    rw [hinv.magic_eq]
    subst hs hhist
    exact Blockchain.poolInv_run hg store magic hnc hcollision (fun _ htx => htx)
      fun _ htx => List.mem_cons_of_mem _ htx
  have hu : Originates W.toCrypto (chainTxs hist) s.utxoSet := hinv.originates fun _ htx => htx
  have hkeyed : s.utxoSet.Keyed := by
    rw [replay_utxoSet hinv.replay_eq]
    exact UtxoSet.keyed_foldl UtxoSet.keyed_empty _
  have hkey : W.publicKeyFromSlice w.keypair.ecdsaPublic = some w.keypair.ecdsaPublic := by
    have hpublic : w.keypair.ecdsaPublic = W.publicKey w.keypair.ecdsaSecret :=
      congrArg HybridKeyPair.ecdsaPublic hw.matched
    rw [hpublic]
    exact hlaw _
  have hrecorded : ∀ paid, TxOk W.toCrypto tx s.utxoSet s.networkMagic s.height paid →
      minFeeArkes ≤ paid →
        (s.submitTransaction W.toCrypto tx).2.mempool.feeFor (tx.txidHex W.toCrypto) = paid :=
    fun _ hok hpaid => feeFor_submitTransaction hledger hcollision List.mem_cons_self hpool hu hroom
      hok hpaid
  rw [← txOk_send_iff hkeyed hkey hsign hamount hneeded horder hsend]
  constructor
  · rintro ⟨txid, hok, hfor⟩
    obtain ⟨paid, hpaid, hmin⟩ := (submitTransaction_eq_ok_iff hroom).mp ⟨txid, hok⟩
    rw [submitTransaction_txid hok, hrecorded paid hpaid hmin] at hfor
    exact hfor ▸ hpaid
  · intro hok
    obtain ⟨txid, htxid⟩ := (submitTransaction_eq_ok_iff hroom).mpr ⟨_, hok, hfee⟩
    refine ⟨txid, htxid, ?_⟩
    rw [submitTransaction_txid htxid]
    exact hrecorded _ hok hfee

end

/-! ### What is left over -/

/-- The sample, where every secret has the keys that the first block pays. -/
def payeeCrypto : WalletCrypto :=
  { WalletCrypto.sample with
    publicKey := fun _ => sampleKey.ecdsaPubkey
    verifyingKey := fun _ => sampleKey.dilithiumPubkey }

/-- The wallet that the first block pays. -/
def payeeWallet : Wallet := .new payeeCrypto sampleSecret (List.Vector.replicate 32 0)

/-- The one output that is listed for it. -/
def rewardUtxo : Utxo := ⟨payCoinbase.txidHex Crypto.sample, 0, ⟨32188184932, none, sampleAddress⟩⟩

/-- The blocks that a node is given first. -/
def idleRun : List Event := Blockchain.deliver (fun _ => sampleNow) 0 (idleChain 100).tail

/-- What it sends to pay an amount at a fee of 1000. -/
def payeePayment (amount : UInt64) : Transaction :=
  payeeWallet.payment payeeCrypto sampleSigner regtestMagic [rewardUtxo]
    (payeeWallet.sendOutputs payeeCrypto "another" amount (32188184932 - (amount + 1000)))

theorem verify_payeeWallet (message : Bytes) :
    payeeCrypto.verify (sampleSigner payeeWallet.keypair message) message
      payeeWallet.keypair.publicKey = .ok () :=
  verify_sample_eq_ok_iff.mpr ⟨List.length_replicate, List.length_replicate, rfl⟩

theorem send_payeeWallet {amount : UInt64} (hle : amount + 1000 ≤ 32188184932) :
    payeeWallet.send payeeCrypto sampleSigner "another" amount 1000 [rewardUtxo] regtestMagic =
      .ok (payeePayment amount) := by
  have hzero : (0 : UInt64) + rewardUtxo.output.value = 32188184932 := rfl
  have hgather : gather (amount + 1000) 0 [rewardUtxo] = ([rewardUtxo], 32188184932) := by
    rw [gather, hzero, if_pos hle]
  rw [send, hgather]
  exact if_neg (UInt64.not_lt.mpr hle)

theorem utxosFor_payeeWallet : ([rewardUtxo] : Multiset Utxo) =
    (idleUtxo 100).utxosFor (payeeWallet.address payeeCrypto) := by
  decide +kernel

/-- After the idle chain nothing was submitted but the payment. -/
theorem noTxCollision_payeePayment (amount : UInt64) : NoTxCollision Crypto.sample
    (payeePayment amount :: submitted idleRun) := by
  have hone : ∀ tx ∈ payeePayment amount :: submitted idleRun, tx = payeePayment amount := by
    intro tx htx
    refine (List.mem_cons.mp htx).resolve_right fun hev => ?_
    exact Blockchain.submitTransaction_notMem_deliver _ _ _ _ (mem_submitted.mp hev)
  intro tx htx tx' htx' _
  rw [hone tx htx, hone tx' htx']

/-- A payment with a large change is admitted. -/
theorem send_admitted_iff_largeChange : ∃ s, s = Blockchain.run Crypto.sample
      (.fromGenesisWithMagic Crypto.sample sampleGenesis none regtestMagic)
      idleRun ∧
    s.AcceptsWithFee Crypto.sample (payeePayment 1000000000) 1000 := by
  obtain ⟨s, hrun, hinv, hblocks, hutxo, hheight, hmempool⟩ := Blockchain.run_idleChain
  have hnc : NoCollision Crypto.sample (sampleGenesis :: Blockchain.recorded Crypto.sample
      (.fromGenesisWithMagic Crypto.sample sampleGenesis none regtestMagic)
      idleRun) :=
    (noCollision_idleChain (by decide)).mono fun _ => Blockchain.mem_of_mem_cons_recorded
  refine ⟨s, hrun.symm, (send_admitted_iff payeeCrypto (fun _ => rfl) sampleSigner 1
    regtestGenesisBits sampleGenesis genesisBlockWithBits_sample none regtestMagic _ s hrun.symm hnc
    payeeWallet (.new _ _) verify_payeeWallet "another" 1000000000 1000 (by decide) (by decide)
    (by decide) [rewardUtxo] ?_ (payeePayment 1000000000) ?_ ?_
    (noTxCollision_payeePayment _)).mpr ⟨?_, ?_, fun x hx => ?_, fun x hx => ?_⟩⟩
  · rw [hutxo]
    exact utxosFor_payeeWallet
  · rw [hinv.magic_eq]
    exact send_payeeWallet (by decide)
  · rw [hmempool]
    decide +kernel
  · decide +kernel
  · decide +kernel
  · obtain rfl := List.mem_singleton.mp hx
    rw [hutxo, hheight]
    decide +kernel
  · obtain rfl := List.mem_singleton.mp hx
    exact rfl

/-- **A change of one arke is dust.** The wallet makes it and the node refuses the transaction. The
output that is spent is mature and pays the key of the wallet, the mempool is empty, and there is no
collision among what is hashed. -/
theorem not_acceptsWithFee_dustPayment : ∃ s₀ s,
    Blockchain.newForNetwork Crypto.sample 1 "regtest" = some s₀ ∧
    s = Blockchain.run Crypto.sample s₀ idleRun ∧
    NoCollision Crypto.sample (s₀.blocks ++ Blockchain.recorded Crypto.sample s₀
      idleRun) ∧
    Creatable payeeCrypto payeeWallet ∧
    (∀ message, payeeCrypto.verify (sampleSigner payeeWallet.keypair message) message
      payeeWallet.keypair.publicKey = .ok ()) ∧
    dustLimitArkes ≤ (32188183931 : UInt64).toNat ∧ minFeeArkes ≤ (1000 : UInt64).toNat ∧
    ([rewardUtxo] : Multiset Utxo) = s.utxoSet.utxosFor (payeeWallet.address payeeCrypto) ∧
    payeeWallet.send payeeCrypto sampleSigner "another" 32188183931 1000 [rewardUtxo]
      s.networkMagic = .ok (payeePayment 32188183931) ∧
    s.mempool.totalBytes + (payeePayment 32188183931).serializedSize ≤ maxMempoolBytes ∧
    NoTxCollision Crypto.sample (payeePayment 32188183931 ::
      submitted idleRun) ∧
    ¬ s.AcceptsWithFee Crypto.sample (payeePayment 32188183931) 1000 := by
  obtain ⟨s, hrun, hinv, hblocks, hutxo, hheight, hmempool⟩ := Blockchain.run_idleChain
  refine ⟨_, s, newForNetwork_sample, hrun.symm, ?_, .new _ _, verify_payeeWallet, by decide,
    by decide, ?_, ?_, ?_, noTxCollision_payeePayment _, ?_⟩
  · exact (noCollision_idleChain (by decide)).mono fun _ => Blockchain.mem_of_mem_recorded_deliver
  · rw [hutxo]
    exact utxosFor_payeeWallet
  · rw [hinv.magic_eq]
    exact send_payeeWallet (by decide)
  · rw [hmempool]
    decide +kernel
  · rintro ⟨txid, hok, -⟩
    have hroom : s.mempool.totalBytes + (payeePayment 32188183931).serializedSize ≤
        maxMempoolBytes := by
      rw [hmempool]
      decide +kernel
    obtain ⟨fee, htx, -⟩ := (submitTransaction_eq_ok_iff hroom).mp ⟨txid, hok⟩
    have hdust := htx.dust ⟨1, none, payeeWallet.address payeeCrypto⟩ (by decide +kernel)
    exact absurd hdust (by decide)

end Wallet

end Arkos
