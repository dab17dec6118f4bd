import Arkos.Lib.FinMap
import Arkos.Transaction.Tx

/-!
# The set of unspent outputs

`UtxoSet` is two tables: the unspent outputs under their text key `txid:index`, and the height
each coinbase claims to have been mined at. `applyTransaction` is unguarded: it erases whatever
keys the inputs name and writes whatever the outputs say, in that order, and it is the validator's
business that this makes sense.

The text key is injective, because the part after the last colon is a numeral. Everything else in
this module says what one application does to a key: it is created, or it was there and is not
spent.

## Main definitions

* `UtxoSet`, `UtxoSet.key`, `UtxoSet.applyTransaction`
* `Transaction.spentKeys`, `Transaction.createdEntries` — the two halves of an application
* `UtxoSet.isImmatureCoinbase`, `UtxoSet.balanceOf`, `UtxoSet.utxosFor`, `UtxoSet.totalValue`

## Main results

* `UtxoSet.key_inj`
* `UtxoSet.mem_utxosFor`, `UtxoSet.nodup_utxosFor`, `UtxoSet.sum_utxosFor`
* `UtxoSet.mem_applyTransaction`, `UtxoSet.lookup_applyTransaction_cases`
* `UtxoSet.totalValue_applyTransaction_le` — what an application can do to the sum of all values
-/

namespace Arkos

/-- A hash table with text keys. -/
abbrev Table (V : Type) := Finmap fun _ : String => V

/-- `COINBASE_MATURITY`. -/
def coinbaseMaturity : ℕ := 100

/-- `Utxo`: an unspent output with the outpoint it is found under. -/
structure Utxo where
  txHash : String
  index : UInt32
  output : TxOutput
  deriving DecidableEq, Repr

/-- `str::parse::<u32>`: decimal digits, with or without a plus sign, of a number below `2 ^ 32`. -/
def parseU32 (text : List Char) : Option UInt32 :=
  let digits := match text with
    | '+' :: rest => rest
    | _ => text
  if digits = [] then none
  else
    (digits.foldlM (fun acc c =>
      let n := 10 * acc + (c.toNat - '0'.toNat)
      if c.isDigit ∧ n < 2 ^ 32 then some n else none) 0).map UInt32.ofNat

/-- Digits of a number below `2 ^ 32` are read as that number. -/
theorem foldlM_readDigit {cs : List Char} (hcs : ∀ c ∈ cs, c.isDigit = true) {acc : ℕ}
    (h : Nat.ofDigitChars 10 cs acc < 2 ^ 32) :
    cs.foldlM (fun acc c =>
      let n := 10 * acc + (c.toNat - '0'.toNat)
      if c.isDigit ∧ n < 2 ^ 32 then some n else none) acc = some (Nat.ofDigitChars 10 cs acc) := by
  induction cs generalizing acc with
  | nil => rfl
  | cons c cs ih =>
    rw [Nat.ofDigitChars_cons] at h ⊢
    rw [List.forall_mem_cons] at hcs
    have hlt := (le_ofDigitChars cs (10 * acc + (c.toNat - '0'.toNat))).trans_lt h
    rw [List.foldlM_cons]
    dsimp only
    rw [if_pos ⟨hcs.1, hlt⟩]
    exact ih hcs.2 h

/-- An index is read back. -/
theorem parseU32_toString (i : UInt32) : parseU32 (toString i.toNat).toList = some i := by
  have hdigits : ∀ c ∈ Nat.toDigits 10 i.toNat, c.isDigit = true := fun c hc =>
    Nat.isDigit_of_mem_toDigits (by decide) (by decide) hc
  have hvalue : Nat.ofDigitChars 10 (Nat.toDigits 10 i.toNat) 0 = i.toNat :=
    Nat.ofDigitChars_ten_toDigits
  have hlt : Nat.ofDigitChars 10 (Nat.toDigits 10 i.toNat) 0 < 2 ^ 32 :=
    hvalue.trans_lt i.toNat_lt
  have hread := foldlM_readDigit hdigits hlt
  rw [hvalue] at hread
  rw [Nat.toString_eq_ofList_toDigits, String.toList_ofList, parseU32]
  · rw [if_neg Nat.toDigits_ne_nil, hread, Option.map_some, UInt32.ofNat_toNat]
  · -- a numeral does not start with a plus sign
    intro rest hplus
    exact absurd (hdigits '+' (hplus ▸ List.mem_cons_self)) (by decide)

/-- `UtxoSet`. -/
structure UtxoSet where
  /-- Unspent outputs under `txid:index`. -/
  utxos : Table TxOutput
  /-- Coinbase txid to the height written in that coinbase. -/
  coinbaseHeights : Table ℕ
  deriving DecidableEq

namespace UtxoSet

/-- `UtxoSet::default`. -/
def empty : UtxoSet := ⟨∅, ∅⟩

/-- `UtxoSet::key`. -/
def key (txHash : String) (index : UInt32) : String := txHash ++ ":" ++ toString index.toNat

theorem key_inj {h h' : String} {i i' : UInt32} (e : key h i = key h' i') : h = h' ∧ i = i' := by
  have hl := congrArg String.toList e
  simp only [key, String.toList_append] at hl
  rw [List.append_assoc, List.append_assoc] at hl
  obtain ⟨hh, hi⟩ := append_cons_inj_of_notMem (colon_notMem_decimal _) (colon_notMem_decimal _) hl
  exact ⟨String.toList_inj.mp hh,
    UInt32.toNat_inj.mp (decimal_injective (String.toList_inj.mp hi))⟩

end UtxoSet

/-- The outpoint key an input names. -/
def TxInput.outpoint (i : TxInput) : String := UtxoSet.key i.prevTxHash i.prevIndex

/-- The keys an application erases: nothing for a coinbase. -/
def Transaction.spentKeys (tx : Transaction) : List String :=
  if tx.isCoinbase then [] else tx.inputs.map TxInput.outpoint

/-- The entries an application writes. The position is cut to 32 bits, as in the source. -/
def Transaction.createdEntries (C : Crypto) (tx : Transaction) : List (String × TxOutput) :=
  tx.outputs.zipIdx.map fun oi => (UtxoSet.key (tx.txidHex C) (UInt32.ofNat oi.2), oi.1)

/-- The height a coinbase claims: the first eight bytes of its free field, or zero. -/
def Transaction.coinbaseHeight (tx : Transaction) : ℕ :=
  match tx.inputs with
  | i :: _ => if 8 ≤ i.coinbaseExtra.length then ofLeBytes (i.coinbaseExtra.take 8) else 0
  | [] => 0

namespace UtxoSet

/-- `UtxoSet::apply_transaction`. -/
def applyTransaction (C : Crypto) (u : UtxoSet) (tx : Transaction) : UtxoSet where
  utxos := (u.utxos.eraseAll tx.spentKeys).insertAll (tx.createdEntries C)
  coinbaseHeights :=
    if tx.isCoinbase then u.coinbaseHeights.insert (tx.txidHex C) tx.coinbaseHeight
    else u.coinbaseHeights

/-- `UtxoSet::is_immature_coinbase`. -/
def isImmatureCoinbase (u : UtxoSet) (txHash : String) (currentHeight : ℕ) : Bool :=
  match u.coinbaseHeights.lookup txHash with
  | some minedAt => currentHeight - minedAt < coinbaseMaturity
  | none => false

/-- `UtxoSet::get`. -/
def get (u : UtxoSet) (txHash : String) (index : UInt32) : Option TxOutput :=
  u.utxos.lookup (key txHash index)

/-- The exact sum of the values held under an address. -/
def balanceSum (u : UtxoSet) (address : String) : ℕ :=
  u.utxos.total fun o => if o.address = address then o.value.toNat else 0

/-- `UtxoSet::balance_of`: the same sum in 64 bits. -/
def balanceOf (u : UtxoSet) (address : String) : ℕ := u.balanceSum address % 2 ^ 64

/-- `UtxoSet::utxos_for`, up to the order in which the table is read. The key is split at its first
colon; what is behind it is read as a number, or as zero. -/
def utxosFor (u : UtxoSet) (address : String) : Multiset Utxo :=
  (u.utxos.entries.filter fun e => e.2.address = address).map fun e =>
    let key := e.1.toList
    { txHash := String.ofList (key.takeWhile (· ≠ ':'))
      index := (parseU32 ((key.dropWhile (· ≠ ':')).drop 1)).getD 0
      output := e.2 }

/-- The exact sum of all unspent values. -/
def totalValue (u : UtxoSet) : ℕ := u.utxos.total fun o => o.value.toNat

variable {C : Crypto}

/-! ### What one application does to a key -/

theorem mem_createdEntries {tx : Transaction} {k : String} {o : TxOutput} :
    (k, o) ∈ tx.createdEntries C ↔
      ∃ i, tx.outputs[i]? = some o ∧ k = key (tx.txidHex C) (UInt32.ofNat i) := by
  simp only [Transaction.createdEntries, List.mem_map, Prod.mk.injEq, Prod.exists,
    List.mem_zipIdx_iff_getElem?]
  constructor
  · rintro ⟨o', i, hi, rfl, rfl⟩
    exact ⟨i, hi, rfl⟩
  · rintro ⟨i, hi, rfl⟩
    exact ⟨o, i, hi, rfl, rfl⟩

theorem mem_createdKeys {tx : Transaction} {k : String} :
    k ∈ (tx.createdEntries C).map Prod.fst ↔
      ∃ i < tx.outputs.length, k = key (tx.txidHex C) (UInt32.ofNat i) := by
  simp only [List.mem_map, Prod.exists, exists_and_right, exists_eq_right, mem_createdEntries]
  constructor
  · rintro ⟨o, i, hi, rfl⟩
    exact ⟨i, (List.getElem?_eq_some_iff.mp hi).1, rfl⟩
  · rintro ⟨i, hi, rfl⟩
    exact ⟨tx.outputs[i], i, List.getElem?_eq_getElem hi, rfl⟩

theorem mem_applyTransaction {u : UtxoSet} {tx : Transaction} {k : String} :
    k ∈ (u.applyTransaction C tx).utxos ↔
      k ∈ (tx.createdEntries C).map Prod.fst ∨ k ∈ u.utxos ∧ k ∉ tx.spentKeys := by
  rw [applyTransaction, Finmap.mem_insertAll]
  refine or_congr_right ?_
  rw [← Finmap.lookup_isSome, ← Finmap.lookup_isSome, Finmap.lookup_eraseAll]
  split <;> simp_all

theorem lookup_applyTransaction_cases {u : UtxoSet} {tx : Transaction} {k : String} {o : TxOutput}
    (h : (u.applyTransaction C tx).utxos.lookup k = some o) :
    (k, o) ∈ tx.createdEntries C ∨ u.utxos.lookup k = some o ∧ k ∉ tx.spentKeys := by
  rcases Finmap.lookup_insertAll_cases h with hc | hu
  · exact Or.inl hc
  · rw [Finmap.lookup_eraseAll] at hu
    split at hu
    · cases hu
    · next hk => exact Or.inr ⟨hu, hk⟩

/-! ### What one application does to the sum of all values -/

theorem sum_createdEntries (tx : Transaction) :
    ((tx.createdEntries C).map fun e => e.2.value.toNat).sum =
      (tx.outputs.map fun o => o.value.toNat).sum := by
  rw [Transaction.createdEntries, List.map_map]
  congr 1
  conv_rhs => rw [← List.zipIdx_map_fst 0 tx.outputs]
  rw [List.map_map]
  rfl

theorem spentKeys_of_isCoinbase {tx : Transaction} (h : tx.isCoinbase = true) :
    tx.spentKeys = [] := if_pos h

theorem spentKeys_of_not_isCoinbase {tx : Transaction} (h : tx.isCoinbase = false) :
    tx.spentKeys = tx.inputs.map TxInput.outpoint := by
  simp [Transaction.spentKeys, h]

theorem coinbaseHeights_applyTransaction_of_not_isCoinbase (u : UtxoSet) {tx : Transaction}
    (h : tx.isCoinbase = false) :
    (u.applyTransaction C tx).coinbaseHeights = u.coinbaseHeights := by
  rw [applyTransaction]
  exact if_neg (by simp [h])

/-- A coinbase that pays nothing is only noted. -/
theorem applyTransaction_of_isCoinbase_of_outputs_nil (u : UtxoSet) {tx : Transaction}
    (hcb : tx.isCoinbase = true) (hout : tx.outputs = []) :
    u.applyTransaction C tx =
      ⟨u.utxos, u.coinbaseHeights.insert (tx.txidHex C) tx.coinbaseHeight⟩ := by
  rw [applyTransaction, spentKeys_of_isCoinbase hcb, Transaction.createdEntries, hout, if_pos hcb]
  rfl

/-- **An application adds at most the outputs and, where the spent keys are present and distinct,
removes exactly what they held.** -/
theorem totalValue_applyTransaction_le {u : UtxoSet} {tx : Transaction}
    (hnodup : tx.spentKeys.Nodup) (vs : String → TxOutput)
    (h : ∀ k ∈ tx.spentKeys, u.utxos.lookup k = some (vs k)) :
    (u.applyTransaction C tx).totalValue + (tx.spentKeys.map fun k => (vs k).value.toNat).sum ≤
      u.totalValue + (tx.outputs.map fun o => o.value.toNat).sum := by
  have herase := Finmap.total_eraseAll_add (fun o : TxOutput => o.value.toNat) hnodup vs h
  have hins := Finmap.total_insertAll_le (fun o : TxOutput => o.value.toNat)
    (u.utxos.eraseAll tx.spentKeys) (tx.createdEntries C)
  rw [sum_createdEntries] at hins
  simp only [totalValue, applyTransaction]
  omega

/-! ### Outputs by address -/

/-- Every key is an outpoint with a txid in hexadecimal. -/
def Keyed (u : UtxoSet) : Prop := ∀ k ∈ u.utxos, ∃ (txid : Hash) (index : UInt32),
  k = key (hashToHex txid) index

theorem keyed_foldl {u : UtxoSet} (hu : u.Keyed) (txs : List Transaction) :
    (txs.foldl (applyTransaction C) u).Keyed := by
  induction txs generalizing u with
  | nil => exact hu
  | cons tx txs ih =>
    refine ih fun k hk => ?_
    rcases mem_applyTransaction.mp hk with hnew | ⟨hold, -⟩
    · obtain ⟨i, -, rfl⟩ := mem_createdKeys.mp hnew
      exact ⟨tx.txid C, _, rfl⟩
    · exact hu k hold

theorem keyed_empty : empty.Keyed := by
  intro k hk
  exact absurd hk Finmap.notMem_empty

/-- The key an unspent output is found under. -/
def keyOf (x : Utxo) : String := key x.txHash x.index

/-- A key is read back as what it was made of. -/
theorem keyOf_read (txid : Hash) (index : UInt32) (output : TxOutput) :
    let k := (key (hashToHex txid) index).toList
    (⟨String.ofList (k.takeWhile (· ≠ ':')),
      (parseU32 ((k.dropWhile (· ≠ ':')).drop 1)).getD 0, output⟩ : Utxo) =
        ⟨hashToHex txid, index, output⟩ := by
  have hkey : (key (hashToHex txid) index).toList =
      (hashToHex txid).toList ++ ':' :: (toString index.toNat).toList := by
    simp [key]
  have hplain : ∀ c ∈ (hashToHex txid).toList, (decide (c ≠ ':')) = true := fun c hc =>
    decide_eq_true fun heq => colon_notMem_hexEncode _ (heq ▸ hc)
  dsimp only
  rw [hkey, List.takeWhile_append_of_pos hplain, List.dropWhile_append_of_pos hplain,
    List.takeWhile_cons_of_neg (by simp), List.dropWhile_cons_of_neg (by simp), List.append_nil,
    String.ofList_toList, List.drop_one, List.tail_cons, parseU32_toString, Option.getD_some]

/-- What is listed for an address is there, under the key it is listed with. -/
theorem mem_utxosFor {u : UtxoSet} (hu : u.Keyed) {address : String} {x : Utxo} :
    x ∈ u.utxosFor address ↔
      u.utxos.lookup (keyOf x) = some x.output ∧ x.output.address = address ∧
        ∃ txid : Hash, x.txHash = hashToHex txid := by
  rw [utxosFor, Multiset.mem_map]
  constructor
  · rintro ⟨⟨k, o⟩, he, rfl⟩
    obtain ⟨hmem, haddress⟩ := Multiset.mem_filter.mp he
    have hlook := Finmap.lookup_eq_some_iff.mpr hmem
    obtain ⟨txid, index, rfl⟩ := hu k (Finmap.mem_of_lookup hlook)
    rw [keyOf_read]
    exact ⟨hlook, haddress, txid, rfl⟩
  · rintro ⟨hlook, haddress, txid, htxid⟩
    obtain ⟨txHash, index, output⟩ := x
    subst htxid
    exact ⟨⟨key (hashToHex txid) index, output⟩,
      Multiset.mem_filter.mpr ⟨Finmap.lookup_eq_some_iff.mp hlook, haddress⟩, keyOf_read ..⟩

/-- Nothing is listed twice. -/
theorem nodup_utxosFor {u : UtxoSet} (hu : u.Keyed) (address : String) :
    ((u.utxosFor address).map keyOf).Nodup := by
  have hkeys : (u.utxosFor address).map keyOf =
      (u.utxos.entries.filter fun e => e.2.address = address).map Sigma.fst := by
    rw [utxosFor, Multiset.map_map]
    refine Multiset.map_congr rfl ?_
    rintro ⟨k, o⟩ he
    have hlook := Finmap.lookup_eq_some_iff.mpr (Multiset.mem_filter.mp he).1
    obtain ⟨txid, index, rfl⟩ := hu k (Finmap.mem_of_lookup hlook)
    rw [Function.comp_apply, keyOf_read]
    rfl
  rw [hkeys]
  exact Multiset.nodup_of_le (Multiset.map_le_map (Multiset.filter_le _ _))
    (Multiset.nodup_keys.mpr u.utxos.nodupKeys)

/-- What is listed for an address adds up to its balance. -/
theorem sum_utxosFor (u : UtxoSet) (address : String) :
    ((u.utxosFor address).map fun x => x.output.value.toNat).sum = u.balanceSum address := by
  rw [utxosFor, balanceSum, Finmap.total, Multiset.map_map]
  induction u.utxos.entries using Multiset.induction with
  | empty => rfl
  | cons e es ih =>
    let mine : (_ : String) × TxOutput → Prop := fun e => e.2.address = address
    rw [Multiset.map_cons, Multiset.sum_cons, ← ih]
    by_cases he : mine e
    · rw [Multiset.filter_cons_of_pos es he, Multiset.map_cons, Multiset.sum_cons, if_pos he]
      rfl
    · rw [Multiset.filter_cons_of_neg es he, if_neg he, Nat.zero_add]

theorem balanceSum_le_totalValue (u : UtxoSet) (address : String) :
    u.balanceSum address ≤ u.totalValue :=
  Finmap.total_filter_le (fun o : TxOutput => o.value.toNat) (fun o => o.address = address) u.utxos

end UtxoSet

end Arkos
