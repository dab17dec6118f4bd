import Arkos.Transaction.Utxo

/-!
# Outpoints and their text

The table of unspent outputs is keyed by text. Here is the same table with keys that are pairs of a
transaction hash and an index, and no text at all: `unspentOutputs`. Since `UtxoSet.key` tells all
pairs apart, whatever stands in the hash, the two tables hold the same under every outpoint, after
any transactions (`get_foldl_eq`). What `utxos_for` reads out of the text of a key is therefore the
pair it was made of.

## Main definitions

* `unspentOutputs`

## Main results

* `UtxoSet.get_foldl_eq`
* `UtxoSet.outpoint_key_codec`
-/

namespace Arkos

/-- The outpoints a transaction spends: none for a coinbase. -/
def Transaction.spentOutpoints (tx : Transaction) : List (String × UInt32) :=
  if tx.isCoinbase then [] else tx.inputs.map fun i => (i.prevTxHash, i.prevIndex)

/-- The outputs a transaction creates. The position is cut to 32 bits. -/
def Transaction.createdOutputs (C : Crypto) (tx : Transaction) :
    List ((String × UInt32) × TxOutput) :=
  tx.outputs.zipIdx.map fun oi => ((tx.txidHex C, UInt32.ofNat oi.2), oi.1)

/-- What is unspent after some transactions, under outpoints. -/
def unspentOutputs (C : Crypto) (txs : List Transaction) :
    Finmap fun _ : String × UInt32 => TxOutput :=
  txs.foldl (fun m tx => (m.eraseAll tx.spentOutpoints).insertAll (tx.createdOutputs C)) ∅

namespace UtxoSet

variable {C : Crypto}

/-- The text of an outpoint. -/
def keyText (outpoint : String × UInt32) : String := key outpoint.1 outpoint.2

theorem keyText_injective : Function.Injective keyText := fun _ _ h =>
  Prod.ext_iff.mpr (key_inj h)

theorem map_keyText_spentOutpoints (tx : Transaction) :
    tx.spentOutpoints.map keyText = tx.spentKeys := by
  rw [Transaction.spentOutpoints, Transaction.spentKeys]
  split
  · rfl
  · rw [List.map_map]
    rfl

theorem map_keyText_createdOutputs (tx : Transaction) :
    (tx.createdOutputs C).map (fun e => (keyText e.1, e.2)) = tx.createdEntries C := by
  rw [Transaction.createdOutputs, Transaction.createdEntries, List.map_map]
  rfl

/-- One transaction does the same to both tables. -/
theorem renamed_applyTransaction {u : UtxoSet} {m : Finmap fun _ : String × UInt32 => TxOutput}
    (h : Finmap.Renamed keyText m u.utxos) (tx : Transaction) :
    Finmap.Renamed keyText ((m.eraseAll tx.spentOutpoints).insertAll (tx.createdOutputs C))
      (u.applyTransaction C tx).utxos := by
  rw [applyTransaction, ← map_keyText_spentOutpoints, ← map_keyText_createdOutputs]
  exact (h.eraseAll keyText_injective _).insertAll keyText_injective _

theorem renamed_foldl {u : UtxoSet} {m : Finmap fun _ : String × UInt32 => TxOutput}
    (h : Finmap.Renamed keyText m u.utxos) (txs : List Transaction) :
    Finmap.Renamed keyText
      (txs.foldl (fun m tx => (m.eraseAll tx.spentOutpoints).insertAll (tx.createdOutputs C)) m)
      (txs.foldl (applyTransaction C) u).utxos := by
  induction txs generalizing u m with
  | nil => exact h
  | cons tx txs ih => exact ih (renamed_applyTransaction h tx)

/-- **The text of the keys does not matter**: what is found under an outpoint is what is unspent
there. -/
theorem get_foldl_eq (txs : List Transaction) (txHash : String) (index : UInt32) :
    (txs.foldl (applyTransaction C) empty).get txHash index =
      (unspentOutputs C txs).lookup (txHash, index) :=
  renamed_foldl Finmap.renamed_empty txs (txHash, index)

/-- An outpoint that is found has a txid for its hash, whatever the transactions named. -/
theorem Keyed.exists_txid {u : UtxoSet} (hu : u.Keyed) {txHash : String} {index : UInt32}
    {output : TxOutput} (h : u.get txHash index = some output) :
    ∃ txid : Hash, txHash = hashToHex txid := by
  obtain ⟨txid, index', hkey⟩ := hu _ (Finmap.mem_of_lookup h)
  exact ⟨txid, (key_inj hkey).1⟩

/-- **The text key is a codec of outpoints.** Over the sets that any transactions build: for an
address, each of its unspent outpoints is listed exactly once and nothing else is, with the output
that `get` finds there; the listed values add up to the balance, when it fits into its word; and no
two outpoints have one key. -/
theorem outpoint_key_codec (C : Crypto) (txs : List Transaction) (address : String) :
    let u := txs.foldl (applyTransaction C) empty
    (∀ txHash index output, (unspentOutputs C txs).lookup (txHash, index) = some output →
      output.address = address → (u.utxosFor address).count ⟨txHash, index, output⟩ = 1) ∧
    (∀ x ∈ u.utxosFor address, (unspentOutputs C txs).lookup (x.txHash, x.index) = some x.output ∧
      x.output.address = address ∧ u.get x.txHash x.index = some x.output) ∧
    ((u.utxosFor address).map fun x => (x.txHash, x.index)).Nodup ∧
    (((u.utxosFor address).map fun x => x.output.value.toNat).sum < 2 ^ 64 →
      ((u.utxosFor address).map fun x => x.output.value.toNat).sum = u.balanceOf address) ∧
    ∀ txHash txHash' index index', key txHash index = key txHash' index' →
      txHash = txHash' ∧ index = index' := by
  intro u
  have hu : u.Keyed := keyed_foldl keyed_empty txs
  have hpairs : ((u.utxosFor address).map fun x => (x.txHash, x.index)).Nodup := by
    have hkeys := nodup_utxosFor hu address
    have hmap : (u.utxosFor address).map keyOf =
        ((u.utxosFor address).map fun x => (x.txHash, x.index)).map keyText := by
      rw [Multiset.map_map]
      rfl
    rw [hmap] at hkeys
    exact hkeys.of_map _
  refine ⟨fun txHash index output hlook haddress => ?_, fun x hx => ?_, hpairs, fun hlt => ?_,
    fun _ _ _ _ h => key_inj h⟩
  · rw [← get_foldl_eq] at hlook
    refine Multiset.count_eq_one_of_mem (hpairs.of_map _) ((mem_utxosFor hu).mpr ?_)
    exact ⟨hlook, haddress, hu.exists_txid hlook⟩
  · obtain ⟨hlook, haddress, -⟩ := (mem_utxosFor hu).mp hx
    have hget : u.get x.txHash x.index = some x.output := hlook
    rw [← get_foldl_eq]
    exact ⟨hget, haddress, hget⟩
  · rw [sum_utxosFor] at hlt ⊢
    exact (Nat.mod_eq_of_lt hlt).symm

end UtxoSet

end Arkos
