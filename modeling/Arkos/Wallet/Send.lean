import Arkos.Blockchain.Validate
import Arkos.Lib.WrappedTotal
import Arkos.Network.Protocol
import Arkos.Wallet.Wallet

/-!
# Coin selection

`Wallet::send` takes the outputs of its address one after the other, in whatever order the table is
read, until their values reach the amount and the fee. What is left over goes back to it.

Amount and fee are added in 64 bits, and so are the values. An amount close to the largest word
makes what is needed small, and the wallet signs a payment it has not nearly the money for. On exact
numbers the selection is right for exactly the running totals that are `Resolved`.

## Main definitions

* `Wallet.gather`, `Wallet.send`
* `Wallet.SendExact` — the selection is right on exact numbers

## Main results

* `Wallet.gather_stopsAt` — where the loop ends
* `Wallet.send_exact_iff`, and a payment of almost `2 ^ 64`, `Wallet.not_sendExact`
-/

namespace Arkos

/-- Why `send` fails. -/
inductive SendError where
  | insufficientFunds (collected needed : ℕ)
  deriving DecidableEq, Repr

/-- The text of the error. -/
def SendError.message : SendError → String
  | .insufficientFunds collected needed =>
    "insufficient funds: have " ++ toString collected ++ ", need " ++ toString needed

namespace Wallet

/-- The loop of `send`: the outputs that are selected, and what they add up to. -/
def gather (needed : UInt64) : UInt64 → List Utxo → List Utxo × UInt64
  | collected, [] => ([], collected)
  | collected, utxo :: utxos =>
    let collected := collected + utxo.output.value
    if needed ≤ collected then ([utxo], collected)
    else (utxo :: (gather needed collected utxos).1, (gather needed collected utxos).2)

/-- The input that spends an output of the wallet. -/
def input (w : Wallet) (signature : HybridSignature) (u : Utxo) : TxInput where
  prevTxHash := u.txHash
  prevIndex := u.index
  signature
  pubkey := w.keypair.publicKey
  coinbaseExtra := []
  witnesses := []

section

variable (W : WalletCrypto) (sign : HybridKeyPair → Bytes → HybridSignature)

/-- The outputs of a payment: to the recipient, and the change if there is any. -/
def sendOutputs (w : Wallet) (recipient : String) (amount change : UInt64) : List TxOutput :=
  ⟨amount, none, recipient⟩ :: if 0 < change then [⟨change, none, w.address W⟩] else []

/-- The signature over a payment, which is computed with empty signatures in place. -/
def sendSignature (w : Wallet) (networkMagic : UInt32) (selected : List Utxo)
    (outputs : List TxOutput) : HybridSignature :=
  let unsigned := Transaction.new (selected.map (w.input ⟨[], []⟩)) outputs
  sign w.keypair (unsigned.sigHash W.toCrypto networkMagic).toList

/-- The signed payment that spends the selected outputs. -/
def payment (w : Wallet) (networkMagic : UInt32) (selected : List Utxo) (outputs : List TxOutput) :
    Transaction :=
  Transaction.new (selected.map (w.input (w.sendSignature W sign networkMagic selected outputs)))
    outputs

/-- `Wallet::send`. `utxos` is what `utxos_for` returns for the address of the wallet. -/
def send (w : Wallet) (recipient : String) (amount fee : UInt64) (utxos : List Utxo)
    (networkMagic : UInt32) : Except SendError Transaction :=
  let needed := amount + fee
  let (selected, collected) := gather needed 0 utxos
  if collected < needed then .error (.insufficientFunds collected.toNat needed.toNat)
  else
    .ok (w.payment W sign networkMagic selected
      (w.sendOutputs W recipient amount (collected - needed)))

/-- The selection is right on exact numbers: it succeeds if and only if the outputs listed for the
wallet are worth the amount and the fee, and then it spends distinct ones of them, pays the amount
to the recipient and loses nothing. -/
structure SendExact (w : Wallet) (recipient : String) (amount fee : UInt64) (u : UtxoSet)
    (utxos : List Utxo) (networkMagic : UInt32) : Prop where
  ok_iff : (∃ tx, w.send W sign recipient amount fee utxos networkMagic = .ok tx) ↔
    amount.toNat + fee.toNat ≤ u.balanceSum (w.address W)
  distinct : ∀ tx, w.send W sign recipient amount fee utxos networkMagic = .ok tx →
    (tx.inputs.map TxInput.outpoint).Nodup
  own : ∀ tx, w.send W sign recipient amount fee utxos networkMagic = .ok tx → ∀ i ∈ tx.inputs,
    ∃ o, u.get i.prevTxHash i.prevIndex = some o ∧ o.address = w.address W
  pays : ∀ tx, w.send W sign recipient amount fee utxos networkMagic = .ok tx →
    tx.outputs.head? = some ⟨amount, none, recipient⟩
  balanced : ∀ tx, w.send W sign recipient amount fee utxos networkMagic = .ok tx →
    tx.inputSum u = tx.outputSum + fee.toNat

end

/-! ### The loop -/

/-- The values of listed outputs. -/
def values (utxos : List Utxo) : List ℕ := utxos.map fun x => x.output.value.toNat

theorem values_lt {utxos : List Utxo} {v : ℕ} (hv : v ∈ values utxos) : v < 2 ^ 64 := by
  obtain ⟨x, -, rfl⟩ := List.mem_map.mp hv
  exact x.output.value.toNat_lt

/-- What the loop takes is a beginning of the list, and it adds its values up in 64 bits. -/
theorem gather_spec (needed collected : UInt64) (utxos : List Utxo) :
    ∃ m ≤ utxos.length, (gather needed collected utxos).1 = utxos.take m ∧
      (gather needed collected utxos).2.toNat =
        (collected.toNat + runningTotal (values utxos) m) % 2 ^ 64 ∧
      (utxos ≠ [] → 0 < m) ∧
      (∀ k, 0 < k → k < m →
        (collected.toNat + runningTotal (values utxos) k) % 2 ^ 64 < needed.toNat) ∧
      (m = utxos.length ∨
        needed.toNat ≤ (collected.toNat + runningTotal (values utxos) m) % 2 ^ 64) := by
  induction utxos generalizing collected with
  | nil =>
    refine ⟨0, le_rfl, rfl, ?_, fun h => absurd rfl h, fun k _ hk => absurd hk (Nat.not_lt_zero k),
      Or.inl rfl⟩
    exact (Nat.mod_eq_of_lt collected.toNat_lt).symm
  | cons x utxos ih =>
    have hadd : (collected + x.output.value).toNat =
        (collected.toNat + x.output.value.toNat) % 2 ^ 64 := UInt64.toNat_add ..
    have htotal : ∀ k, runningTotal (values (x :: utxos)) (k + 1) =
        x.output.value.toNat + runningTotal (values utxos) k := fun k =>
      runningTotal_cons_succ _ (values utxos) k
    by_cases hreach : needed ≤ collected + x.output.value
    · have hgather : gather needed collected (x :: utxos) =
          ([x], collected + x.output.value) := if_pos hreach
      have hone : runningTotal (values (x :: utxos)) 1 = x.output.value.toNat :=
        (htotal 0).trans (Nat.add_zero _)
      rw [UInt64.le_iff_toNat_le, hadd] at hreach
      rw [hgather]
      refine ⟨1, by simp, rfl, ?_, fun _ => Nat.one_pos, fun k hpos hk => by omega, Or.inr ?_⟩
      · rw [hone, hadd]
      · rw [hone]
        exact hreach
    · have hgather : gather needed collected (x :: utxos) =
          (x :: (gather needed (collected + x.output.value) utxos).1,
            (gather needed (collected + x.output.value) utxos).2) := if_neg hreach
      obtain ⟨m, hm, hselected, hcollected, hpos, hshort, hstop⟩ := ih (collected + x.output.value)
      have hshift : ∀ k, ((collected + x.output.value).toNat + runningTotal (values utxos) k) %
          2 ^ 64 = (collected.toNat + runningTotal (values (x :: utxos)) (k + 1)) % 2 ^ 64 := by
        intro k
        rw [htotal, hadd]
        omega
      rw [UInt64.le_iff_toNat_le, Nat.not_le] at hreach
      rw [hgather]
      refine ⟨m + 1, by simpa using hm, ?_, ?_, fun _ => Nat.succ_pos m, fun k hk hkm => ?_, ?_⟩
      · rw [List.take_succ_cons, hselected]
      · rw [hcollected, hshift]
      · obtain ⟨k, rfl⟩ : ∃ j, k = j + 1 := ⟨k - 1, by omega⟩
        rcases Nat.eq_zero_or_pos k with rfl | hk
        · rw [htotal, runningTotal_zero, Nat.add_zero, ← hadd]
          exact hreach
        · rw [← hshift]
          exact hshort k hk (by omega)
      · rw [← hshift, List.length_cons]
        exact hstop.imp (congrArg (· + 1)) id

/-- **Where the loop of `send` ends.** -/
theorem gather_stopsAt {amount fee needed : UInt64} (hneeded : needed = amount + fee)
    (utxos : List Utxo) :
    ∃ m, StopsAt (amount.toNat + fee.toNat) (values utxos) m ∧
      (gather needed 0 utxos).1 = utxos.take m ∧
      (gather needed 0 utxos).2.toNat = runningTotal (values utxos) m % 2 ^ 64 := by
  obtain ⟨m, hm, hselected, hcollected, hpos, hshort, hstop⟩ := gather_spec needed 0 utxos
  have hmod : needed.toNat = (amount.toNat + fee.toNat) % 2 ^ 64 := by
    rw [hneeded, UInt64.toNat_add]
  have hzero : (0 : UInt64).toNat = 0 := rfl
  simp only [hzero, Nat.zero_add, hmod] at hcollected hshort hstop
  have hlength : (values utxos).length = utxos.length := List.length_map ..
  refine ⟨m, ⟨hlength ▸ hm, fun hne => hpos ?_, hshort, hlength ▸ hstop⟩, hselected, hcollected⟩
  rintro rfl
  exact hne rfl

/-! ### The payment -/

section

variable {W : WalletCrypto} {sign : HybridKeyPair → Bytes → HybridSignature} {w : Wallet}
  {recipient : String} {amount fee : UInt64} {utxos : List Utxo} {networkMagic : UInt32}

/-- **What `send` does.** It takes `m` outputs and succeeds when the remainder of their total
reaches the remainder of what is needed. -/
theorem send_spec (W : WalletCrypto) (sign : HybridKeyPair → Bytes → HybridSignature) (w : Wallet)
    (recipient : String) (amount fee : UInt64) (utxos : List Utxo) (networkMagic : UInt32) :
    ∃ (m : ℕ) (change : UInt64), StopsAt (amount.toNat + fee.toNat) (values utxos) m ∧
      ((amount.toNat + fee.toNat) % 2 ^ 64 ≤ runningTotal (values utxos) m % 2 ^ 64 →
        change.toNat =
          runningTotal (values utxos) m % 2 ^ 64 - (amount.toNat + fee.toNat) % 2 ^ 64) ∧
      ∀ tx, w.send W sign recipient amount fee utxos networkMagic = .ok tx ↔
        (amount.toNat + fee.toNat) % 2 ^ 64 ≤ runningTotal (values utxos) m % 2 ^ 64 ∧
          tx = w.payment W sign networkMagic (utxos.take m)
            (w.sendOutputs W recipient amount change) := by
  obtain ⟨m, hstops, hselected, hcollected⟩ :=
    gather_stopsAt (rfl : amount + fee = amount + fee) utxos
  have hneeded : (amount + fee).toNat = (amount.toNat + fee.toNat) % 2 ^ 64 := UInt64.toNat_add ..
  refine ⟨m, (gather (amount + fee) 0 utxos).2 - (amount + fee), hstops, fun hreach => ?_,
    fun tx => ?_⟩
  · have hle : amount + fee ≤ (gather (amount + fee) 0 utxos).2 := by
      rw [UInt64.le_iff_toNat_le, hneeded, hcollected]
      exact hreach
    rw [UInt64.toNat_sub_of_le _ _ hle, hcollected, hneeded]
  · rw [send, ← hselected, ← hcollected, ← hneeded, ← UInt64.le_iff_toNat_le]
    dsimp only
    split
    · next hlt =>
      refine iff_of_false (fun h => nomatch h) fun h => absurd h.1 ?_
      rwa [UInt64.not_le]
    · next hle =>
      rw [UInt64.not_lt] at hle
      rw [Except.ok.injEq, eq_comm]
      exact ⟨fun h => ⟨hle, h⟩, And.right⟩

@[simp] theorem inputs_payment {selected : List Utxo} {outputs : List TxOutput} :
    (w.payment W sign networkMagic selected outputs).inputs =
      selected.map (w.input (w.sendSignature W sign networkMagic selected outputs)) := rfl

@[simp] theorem outputs_payment {selected : List Utxo} {outputs : List TxOutput} :
    (w.payment W sign networkMagic selected outputs).outputs = outputs := rfl

theorem outpoints_payment {selected : List Utxo} {outputs : List TxOutput} :
    (w.payment W sign networkMagic selected outputs).inputs.map TxInput.outpoint =
      selected.map UtxoSet.keyOf := by
  rw [inputs_payment, List.map_map]
  rfl

/-- The change is added up also where it is left out. -/
theorem outputSum_payment {selected : List Utxo} {change : UInt64} :
    (w.payment W sign networkMagic selected
      (w.sendOutputs W recipient amount change)).outputSum = amount.toNat + change.toNat := by
  rw [Transaction.outputSum, outputs_payment, sendOutputs]
  split
  · simp
  · next hzero =>
    rw [UInt64.not_lt, UInt64.le_iff_toNat_le] at hzero
    have hnone : change.toNat = 0 := Nat.le_zero.mp hzero
    simp [hnone]

/-- The inputs bring what the selected outputs are worth. -/
theorem inputSum_payment {u : UtxoSet} {selected : List Utxo} {outputs : List TxOutput}
    (hlook : ∀ x ∈ selected, u.utxos.lookup (UtxoSet.keyOf x) = some x.output) :
    (w.payment W sign networkMagic selected outputs).inputSum u = (values selected).sum := by
  rw [Transaction.inputSum, inputs_payment, List.map_map, values]
  congr 1
  exact List.map_congr_left fun x hx => UtxoSet.valueAt_of_lookup (hlook x hx)

theorem sum_values_take (utxos : List Utxo) (m : ℕ) :
    (values (utxos.take m)).sum = runningTotal (values utxos) m := by
  rw [runningTotal, values, values, List.map_take]

/-- **When coin selection is right.** The outputs are those of any transactions applied one after
the other, in any order the table is read. -/
theorem send_exact_iff (W : WalletCrypto) (sign : HybridKeyPair → Bytes → HybridSignature)
    (w : Wallet) (recipient : String) (amount fee : UInt64) (networkMagic : UInt32)
    (txs : List Transaction) (utxos : List Utxo)
    (horder : (utxos : Multiset Utxo) =
      (txs.foldl (UtxoSet.applyTransaction W.toCrypto) UtxoSet.empty).utxosFor (w.address W)) :
    w.SendExact W sign recipient amount fee
        (txs.foldl (UtxoSet.applyTransaction W.toCrypto) UtxoSet.empty) utxos networkMagic ↔
      Resolved (amount.toNat + fee.toNat) (values utxos) := by
  have hkeyed := UtxoSet.keyed_foldl (C := W.toCrypto) UtxoSet.keyed_empty txs
  generalize txs.foldl (UtxoSet.applyTransaction W.toCrypto) UtxoSet.empty = u at horder hkeyed ⊢
  obtain ⟨m, change, hstops, hchange, hsend⟩ :=
    send_spec W sign w recipient amount fee utxos networkMagic
  have hbalance : u.balanceSum (w.address W) = (values utxos).sum := by
    rw [← UtxoSet.sum_utxosFor, ← horder]
    rfl
  have hlisted : ∀ x ∈ utxos, u.utxos.lookup (UtxoSet.keyOf x) = some x.output ∧
      x.output.address = w.address W := fun x hx => by
    have hx' : x ∈ u.utxosFor (w.address W) := horder ▸ hx
    exact ((UtxoSet.mem_utxosFor hkeyed).mp hx').imp_right And.left
  have hnodup : (utxos.map UtxoSet.keyOf).Nodup := by
    have h := UtxoSet.nodup_utxosFor hkeyed (w.address W)
    rwa [← horder] at h
  have hinputs : ∀ outputs, (w.payment W sign networkMagic (utxos.take m) outputs).inputSum u =
      runningTotal (values utxos) m := fun outputs => by
    rw [inputSum_payment fun x hx => (hlisted x (List.mem_of_mem_take hx)).1, sum_values_take]
  have htarget : amount.toNat + fee.toNat < 2 ^ 65 := by
    have := amount.toNat_lt
    have := fee.toNat_lt
    omega
  rw [← hstops.exact_iff_resolved (fun v hv => values_lt hv) htarget]
  constructor
  · intro hexact
    have hok := hexact.ok_iff
    rw [hbalance] at hok
    refine ⟨⟨fun hreach => hok.mp ⟨_, (hsend _).mpr ⟨hreach, rfl⟩⟩, fun hle => ?_⟩,
      fun hreach => ?_⟩
    · obtain ⟨tx, htx⟩ := hok.mpr hle
      exact ((hsend tx).mp htx).1
    · have hbalanced := hexact.balanced _ ((hsend _).mpr ⟨hreach, rfl⟩)
      rw [hinputs, outputSum_payment] at hbalanced
      have hrest := hchange hreach
      omega
  · rintro ⟨hok, htotal⟩
    refine ⟨?_, fun tx htx => ?_, fun tx htx i hi => ?_, fun tx htx => ?_, fun tx htx => ?_⟩
    · rw [hbalance, ← hok]
      exact ⟨fun ⟨tx, htx⟩ => ((hsend tx).mp htx).1, fun hreach => ⟨_, (hsend _).mpr ⟨hreach, rfl⟩⟩⟩
    · obtain ⟨-, rfl⟩ := (hsend tx).mp htx
      rw [outpoints_payment]
      exact hnodup.sublist ((List.take_sublist m utxos).map _)
    · obtain ⟨-, rfl⟩ := (hsend tx).mp htx
      obtain ⟨x, hx, rfl⟩ := List.mem_map.mp hi
      exact ⟨x.output, hlisted x (List.mem_of_mem_take hx)⟩
    · obtain ⟨-, rfl⟩ := (hsend tx).mp htx
      rfl
    · obtain ⟨hreach, rfl⟩ := (hsend tx).mp htx
      have htotal := htotal hreach
      have hrest := hchange hreach
      rw [hinputs, outputSum_payment]
      omega

end

theorem one_lt_curveOrder : 1 < curveOrder := by decide

/-- A secret for concrete payments. -/
def sampleSecret : SecretKey := ⟨1, Nat.one_pos, one_lt_curveOrder⟩

/-- Its wallet. -/
def sampleWallet : Wallet :=
  .new WalletCrypto.sample sampleSecret (List.Vector.replicate 32 0)

/-- What signs for it. -/
def sampleSigner (k : HybridKeyPair) (message : Bytes) : HybridSignature :=
  sampleSign k.publicKey message

/-- A coinbase that pays it. -/
def fundingCoinbase : Transaction :=
  .coinbase (sampleWallet.address WalletCrypto.sample) 100000 1

/-- What is listed for it then. -/
def fundingUtxo : Utxo :=
  ⟨fundingCoinbase.txidHex Crypto.sample, 0,
    .p2pkh (sampleWallet.address WalletCrypto.sample) 100000⟩

/-- A payment out of one output. -/
theorem send_exact_iff_fundingUtxo :
    sampleWallet.SendExact WalletCrypto.sample sampleSigner "another" 60000 1000
      ([fundingCoinbase].foldl (UtxoSet.applyTransaction Crypto.sample) UtxoSet.empty) [fundingUtxo]
      regtestMagic := by
  refine (send_exact_iff WalletCrypto.sample sampleSigner sampleWallet "another" 60000 1000
    regtestMagic [fundingCoinbase] [fundingUtxo] (by decide +kernel)).mpr ⟨nofun, ?_⟩
  decide +kernel

/-- **A payment of almost `2 ^ 64`.** With the fee it is worth zero in 64 bits, and one output is
enough. -/
theorem not_sendExact :
    ([fundingUtxo] : Multiset Utxo) =
        ([fundingCoinbase].foldl (UtxoSet.applyTransaction Crypto.sample) UtxoSet.empty).utxosFor
          (sampleWallet.address WalletCrypto.sample) ∧
      ¬ sampleWallet.SendExact WalletCrypto.sample sampleSigner "another" (2 ^ 64 - 1000) 1000
        ([fundingCoinbase].foldl (UtxoSet.applyTransaction Crypto.sample) UtxoSet.empty)
        [fundingUtxo] regtestMagic := by
  have hbalance : ([fundingCoinbase].foldl (UtxoSet.applyTransaction Crypto.sample)
      UtxoSet.empty).balanceSum (sampleWallet.address WalletCrypto.sample) = 100000 := by
    decide +kernel
  have hsent : (sampleWallet.send WalletCrypto.sample sampleSigner "another" (2 ^ 64 - 1000) 1000
      [fundingUtxo] regtestMagic).isOk = true := by
    decide +kernel
  refine ⟨by decide +kernel, fun hexact => ?_⟩
  have hle := hexact.ok_iff.mp (by
    cases hsend : sampleWallet.send WalletCrypto.sample sampleSigner "another" (2 ^ 64 - 1000) 1000
        [fundingUtxo] regtestMagic with
    | error e =>
      rw [hsend] at hsent
      cases hsent
    | ok tx => exact ⟨tx, rfl⟩)
  rw [hbalance] at hle
  exact absurd hle (by decide +kernel)

end Wallet

end Arkos
