import Arkos.Blockchain.Ancestry
import Arkos.Network.Message
import Arkos.Transaction.ScriptJson
import Mathlib.Algebra.BigOperators.Ring.List

/-!
# The text of a message

Peers exchange compact JSON. Keys and signatures are written as arrays of numbers, one for each
byte, so the text of a transaction is several times as long as the transaction; headers have a text
of hardly more than two hundred bytes.

The library that reads a message refuses text that is nested too deep. Only scripts can be.

## Main definitions

* `Message.toVec`
* `Script.depth`, `Message.scripts`
* `BlockHeader.Spelled` — both hashes of a header are spelled out

## Main results

* `length_toVec_headers` — how long a batch of headers is
* `le_length_toVec_blockMsg` — keys and signatures take two bytes for every byte
-/

namespace Arkos

/-! ### The JSON of the types -/

/-- The JSON of a byte string: an array of numbers. -/
def jsonBytes (bs : Bytes) : Bytes := jsonArray (bs.map fun b => jsonNat b.toNat)

/-- The JSON of a signature. -/
def HybridSignature.toJson (s : HybridSignature) : Bytes :=
  jsonObject [("ecdsa_sig", jsonBytes s.ecdsaSig), ("dilithium_sig", jsonBytes s.dilithiumSig)]

/-- The JSON of an input. -/
def TxInput.toJson (i : TxInput) : Bytes :=
  jsonObject [("prev_tx_hash", jsonString i.prevTxHash), ("prev_index", jsonNat i.prevIndex.toNat),
    ("signature", i.signature.toJson), ("pubkey", i.pubkey.toJson),
    ("coinbase_extra", jsonBytes i.coinbaseExtra),
    ("witnesses", jsonArray (i.witnesses.map fun w => jsonArray [w.1.toJson, w.2.toJson]))]

/-- The JSON of an output. -/
def TxOutput.toJson (o : TxOutput) : Bytes :=
  jsonObject [("value", jsonNat o.value.toNat),
    ("script", (o.script.map Script.toBytes).getD (utf8 "null")), ("address", jsonString o.address)]

/-- The JSON of a transaction. -/
def Transaction.toJson (tx : Transaction) : Bytes :=
  jsonObject [("inputs", jsonArray (tx.inputs.map TxInput.toJson)),
    ("outputs", jsonArray (tx.outputs.map TxOutput.toJson)), ("version", jsonNat tx.version.toNat),
    ("lock_time", jsonNat tx.lockTime.toNat)]

/-- The JSON of a header. -/
def BlockHeader.toJson (h : BlockHeader) : Bytes :=
  jsonObject [("version", jsonNat h.version.toNat), ("prev_hash", jsonString h.prevHash),
    ("merkle_root", jsonString h.merkleRoot), ("timestamp", jsonNat h.timestamp.toNat),
    ("bits", jsonNat h.bits.toNat), ("nonce", jsonNat h.nonce.toNat)]

/-- The JSON of a block. -/
def Block.toJson (b : Block) : Bytes :=
  jsonObject [("header", b.header.toJson),
    ("transactions", jsonArray (b.transactions.map Transaction.toJson)),
    ("height", jsonNat b.height)]

/-- The JSON of an inventory item. -/
def InvItem.toJson (item : InvItem) : Bytes :=
  let kind := match item.kind with
    | .block => "Block"
    | .transaction => "Transaction"
  jsonObject [("kind", jsonString kind), ("hash", jsonString item.hash)]

/-- `serde_json::to_vec` of a message. -/
def Message.toVec : Message → Bytes
  | .version number networkMagic bestHeight userAgent =>
    jsonObject [("Version", jsonObject [("version", jsonNat number.toNat),
      ("network_magic", jsonNat networkMagic.toNat), ("best_height", jsonNat bestHeight),
      ("user_agent", jsonString userAgent)])]
  | .verack => jsonString "Verack"
  | .getHeaders locatorHashes =>
    jsonObject [("GetHeaders", jsonObject
      [("locator_hashes", jsonArray (locatorHashes.map jsonString))])]
  | .headers batch =>
    jsonObject [("Headers", jsonObject [("headers", jsonArray (batch.map BlockHeader.toJson))])]
  | .getBlocks locatorHashes =>
    jsonObject [("GetBlocks", jsonObject
      [("locator_hashes", jsonArray (locatorHashes.map jsonString))])]
  | .inv items => jsonObject [("Inv", jsonObject [("items", jsonArray (items.map InvItem.toJson))])]
  | .getData items =>
    jsonObject [("GetData", jsonObject [("items", jsonArray (items.map InvItem.toJson))])]
  | .blockMsg block => jsonObject [("BlockMsg", block.toJson)]
  | .txMsg tx => jsonObject [("TxMsg", tx.toJson)]
  | .addr addrs => jsonObject [("Addr", jsonObject [("addrs", jsonArray (addrs.map jsonString))])]
  | .ping nonce => jsonObject [("Ping", jsonNat nonce.toNat)]
  | .pong nonce => jsonObject [("Pong", jsonNat nonce.toNat)]

/-! ### Nesting -/

/-- How deep the text of a script is nested. -/
def Script.depth : Script → ℕ
  | .p2pkh _ => 2
  | .p2ms _ _ => 5
  | .timeLocked _ inner => inner.depth + 2

/-- The scripts in a message. -/
def Message.scripts : Message → List Script
  | .blockMsg block => block.transactions.flatMap fun tx => tx.outputs.filterMap TxOutput.script
  | .txMsg tx => tx.outputs.filterMap TxOutput.script
  | _ => []

/-! ### Lengths -/

theorem length_jsonArray (vs : List Bytes) :
    (jsonArray vs).length = 2 + (vs.map List.length).sum + (vs.length - 1) := by
  have hclose : ∀ vs : List Bytes, ((utf8 ",").intercalate vs).length =
      (vs.map List.length).sum + (vs.length - 1) := by
    intro vs
    induction vs with
    | nil => rfl
    | cons v vs ih =>
      cases vs with
      | nil => simp [List.intercalate]
      | cons v' vs =>
        rw [List.intercalate_cons_cons]
        simp only [List.length_append, List.map_cons, List.sum_cons, List.length_cons] at ih ⊢
        rw [ih]
        have : (utf8 ",").length = 1 := rfl
        omega
  rw [jsonArray, List.length_append, List.length_append, hclose]
  have hopen : (utf8 "[").length = 1 := rfl
  have hclose : (utf8 "]").length = 1 := rfl
  omega

/-- Members behind a brace: each with its name, a colon and what separates it from the next. -/
theorem length_jsonObject (members : List (String × Bytes)) :
    (jsonObject members).length = 2 +
      (members.map fun m => (jsonString m.1).length + 1 + m.2.length).sum +
        (members.length - 1) := by
  have harray := length_jsonArray (members.map fun m => jsonString m.1 ++ utf8 ":" ++ m.2)
  have hcolon : (utf8 ":").length = 1 := rfl
  simp only [jsonArray, List.length_append, List.length_map, List.map_map] at harray
  rw [jsonObject, List.length_append, List.length_append]
  have hopen : (utf8 "\x7b").length = (utf8 "[").length := rfl
  have hclose : (utf8 "\x7d").length = (utf8 "]").length := rfl
  rw [hopen, hclose, harray]
  congr 3
  refine List.map_congr_left fun m _ => ?_
  simp only [Function.comp_apply, List.length_append, hcolon]

theorem one_le_length_jsonNat (n : ℕ) : 1 ≤ (jsonNat n).length := by
  obtain ⟨b, t, h, -⟩ := exists_jsonNat n
  rw [h, List.length_cons]
  omega

theorem length_jsonNat_le {n k : ℕ} (hk : 0 < k) (h : n < 10 ^ k) : (jsonNat n).length ≤ k := by
  have hlen : ∀ cs : List Char, (∀ c ∈ cs, c.isDigit = true) →
      (cs.flatMap String.utf8EncodeChar).length = cs.length := by
    intro cs hcs
    induction cs with
    | nil => rfl
    | cons c cs ih =>
      obtain ⟨b, hb, -⟩ := utf8EncodeChar_digit (hcs c List.mem_cons_self)
      rw [List.flatMap_cons, hb, List.singleton_append, List.length_cons, List.length_cons,
        ih fun c hc => hcs c (List.mem_cons_of_mem _ hc)]
  rw [jsonNat, Nat.toString_eq_ofList_toDigits, utf8_ofList,
    hlen _ fun c hc => Nat.isDigit_of_mem_toDigits (by decide) (by decide) hc]
  exact (Nat.length_toDigits_le_iff (by decide) hk).mpr h

/-- A hexadecimal digit is written as it is. -/
theorem jsonEscape_of_hexValue {b : UInt8} {n : ℕ} (h : hexValue b = some n) :
    jsonEscape b = [b] := by
  have hall : ∀ n < 256, hexValue (UInt8.ofNat n) ≠ none →
      jsonEscape (UInt8.ofNat n) = [UInt8.ofNat n] := by decide +kernel
  have hb := hall b.toNat b.toNat_lt
  rw [UInt8.ofNat_toNat] at hb
  exact hb (by rw [h]; exact Option.some_ne_none n)

theorem length_jsonString_hashToHex (h : Hash) : (jsonString (hashToHex h)).length = 66 := by
  have hescape : ∀ bs : Bytes, (utf8 (hexEncode bs)).flatMap jsonEscape = utf8 (hexEncode bs) := by
    intro bs
    induction bs with
    | nil => rfl
    | cons b bs ih =>
      have hb := b.toNat_lt
      obtain ⟨c, hc, hcv⟩ := utf8EncodeChar_hexDigit (n := b.toNat / 16) (by omega)
      obtain ⟨d, hd, hdv⟩ := utf8EncodeChar_hexDigit (n := b.toNat % 16) (by omega)
      rw [hexEncode, utf8_ofList] at ih ⊢
      simp only [List.flatMap_cons, hexChars, List.flatMap_append, List.flatMap_nil, hc, hd,
        jsonEscape_of_hexValue hcv, jsonEscape_of_hexValue hdv, ih]
      rfl
  have hquote : (utf8 "\"").length = 1 := rfl
  rw [jsonString, List.length_append, List.length_append, hashToHex, hescape, hquote,
    ← hashToHex, length_utf8_hashToHex]

/-! ### Headers -/

/-- Both hashes of a header are hashes, spelled out. -/
def BlockHeader.Spelled (h : BlockHeader) : Prop :=
  (∃ x, h.prevHash = hashToHex x) ∧ ∃ x, h.merkleRoot = hashToHex x

/-- The text of a header. -/
theorem BlockHeader.Spelled.length_toJson {h : BlockHeader} (hs : h.Spelled) :
    206 ≤ h.toJson.length ∧ h.toJson.length ≤ 262 := by
  obtain ⟨⟨x, hprev⟩, y, hroot⟩ := hs
  have hversion := length_jsonNat_le (k := 10) (by norm_num)
    (h.version.toNat_lt.trans (by norm_num))
  have htime := length_jsonNat_le (k := 20) (by norm_num) (h.timestamp.toNat_lt.trans (by norm_num))
  have hbits := length_jsonNat_le (k := 10) (by norm_num) (h.bits.toNat_lt.trans (by norm_num))
  have hnonce := length_jsonNat_le (k := 20) (by norm_num) (h.nonce.toNat_lt.trans (by norm_num))
  have hversion' := one_le_length_jsonNat h.version.toNat
  have htime' := one_le_length_jsonNat h.timestamp.toNat
  have hbits' := one_le_length_jsonNat h.bits.toNat
  have hnonce' := one_le_length_jsonNat h.nonce.toNat
  have hnames : (jsonString "version").length = 9 ∧ (jsonString "prev_hash").length = 11 ∧
      (jsonString "merkle_root").length = 13 ∧ (jsonString "timestamp").length = 11 ∧
      (jsonString "bits").length = 6 ∧ (jsonString "nonce").length = 7 := by
    decide +kernel
  simp only [BlockHeader.toJson, length_jsonObject, hprev, hroot, length_jsonString_hashToHex,
    List.map_cons, List.map_nil, List.sum_cons, List.sum_nil, List.length_cons, List.length_nil,
    hnames]
  omega

/-- **The text of a batch of headers.** -/
theorem length_toVec_headers {headers : List BlockHeader} (hne : headers ≠ [])
    (hs : ∀ h ∈ headers, h.Spelled) :
    207 * headers.length + 25 ≤ (Message.headers headers).toVec.length ∧
      (Message.headers headers).toVec.length ≤ 263 * headers.length + 25 := by
  have hnames : (jsonString "Headers").length = 9 ∧ (jsonString "headers").length = 9 := by
    decide +kernel
  have hsum : 206 * headers.length ≤ ((headers.map BlockHeader.toJson).map List.length).sum ∧
      ((headers.map BlockHeader.toJson).map List.length).sum ≤ 262 * headers.length := by
    clear hne
    induction headers with
    | nil => exact ⟨le_rfl, le_rfl⟩
    | cons h hs' ih =>
      obtain ⟨hlow, hhigh⟩ := (hs h List.mem_cons_self).length_toJson
      obtain ⟨hlow', hhigh'⟩ := ih fun x hx => hs x (List.mem_cons_of_mem _ hx)
      simp only [List.map_cons, List.sum_cons, List.length_cons]
      omega
  have hpos := List.length_pos_iff.mpr hne
  simp only [Message.toVec, length_jsonObject, length_jsonArray, List.map_cons, List.map_nil,
    List.sum_cons, List.sum_nil, List.length_cons, List.length_nil, List.length_map, hnames]
  omega

/-! ### Keys and signatures -/

/-- The bytes of keys and signatures in an input, without those of further witnesses. -/
def TxInput.signedBytes (i : TxInput) : ℕ :=
  i.signature.ecdsaSig.length + i.signature.dilithiumSig.length +
    (i.pubkey.ecdsaPubkey.length + i.pubkey.dilithiumPubkey.length)

/-- The bytes of keys and signatures in a block. -/
def Block.signedBytes (b : Block) : ℕ :=
  (b.transactions.map fun tx => (tx.inputs.map TxInput.signedBytes).sum).sum

/-- A byte takes a digit and a comma or bracket. -/
theorem le_length_jsonBytes (bs : Bytes) : 2 * bs.length ≤ (jsonBytes bs).length := by
  have hsum : bs.length ≤ ((bs.map fun b => jsonNat b.toNat).map List.length).sum := by
    induction bs with
    | nil => exact le_rfl
    | cons b bs ih =>
      have hb := one_le_length_jsonNat b.toNat
      simp only [List.map_cons, List.sum_cons, List.length_cons]
      omega
  rw [jsonBytes, length_jsonArray, List.length_map]
  omega

/-- An array is as long as its elements together. -/
theorem le_length_jsonArray {α : Type*} {enc : α → Bytes} {size : α → ℕ} {xs : List α}
    (h : ∀ x ∈ xs, size x ≤ (enc x).length) :
    (xs.map size).sum ≤ (jsonArray (xs.map enc)).length := by
  have hsum : (xs.map size).sum ≤ ((xs.map enc).map List.length).sum := by
    rw [List.map_map]
    exact List.sum_le_sum h
  rw [length_jsonArray]
  omega

theorem le_length_inputToJson (i : TxInput) : 2 * i.signedBytes ≤ i.toJson.length := by
  have hecdsa := le_length_jsonBytes i.signature.ecdsaSig
  have hdilithium := le_length_jsonBytes i.signature.dilithiumSig
  have hecdsaKey := le_length_jsonBytes i.pubkey.ecdsaPubkey
  have hdilithiumKey := le_length_jsonBytes i.pubkey.dilithiumPubkey
  rw [jsonBytes] at hecdsaKey hdilithiumKey
  simp only [TxInput.toJson, HybridSignature.toJson, HybridPublicKey.toJson, length_jsonObject,
    List.map_cons, List.map_nil, List.sum_cons, List.sum_nil, TxInput.signedBytes]
  omega

/-- **Keys and signatures take two bytes for every byte**, at least. -/
theorem le_length_toVec_blockMsg (b : Block) :
    2 * b.signedBytes ≤ (Message.blockMsg b).toVec.length := by
  have htx : ∀ tx ∈ b.transactions,
      2 * (tx.inputs.map TxInput.signedBytes).sum ≤ tx.toJson.length := by
    intro tx _
    have hinputs : (tx.inputs.map fun i => 2 * i.signedBytes).sum ≤
        (jsonArray (tx.inputs.map TxInput.toJson)).length :=
      le_length_jsonArray fun i _ => le_length_inputToJson i
    rw [List.sum_map_mul_left] at hinputs
    simp only [Transaction.toJson, length_jsonObject, List.map_cons, List.sum_cons]
    omega
  have hblock := le_length_jsonArray htx
  rw [List.sum_map_mul_left] at hblock
  simp only [Message.toVec, Block.toJson, length_jsonObject, List.map_cons, List.map_nil,
    List.sum_cons, List.sum_nil]
  rw [Block.signedBytes]
  omega

end Arkos
