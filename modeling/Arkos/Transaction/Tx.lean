import Arkos.Crypto

/-!
# Transactions

The transaction types with their three byte forms. `Transaction.encode` is the `bincode` layout
(fixed-width little-endian numbers, eight-byte lengths, four-byte enum tags) and is what a txid
hashes; `Script.toBytes` is the compact JSON of a script; `Transaction.sigPreimage` is what a
signature covers, and leaves the signatures out.

The one result of this module is that the `bincode` layout is self-delimiting, so that two
transactions with the same bytes are the same transaction. It is stated for encodings below
`2 ^ 64` bytes, see `Arkos.Lib.Codec`.

## Main definitions

* `Script`, `TxInput`, `TxOutput`, `Transaction`
* `Transaction.coinbase`, `Transaction.isCoinbase`, `TxOutput.effectiveScript`
* `Transaction.encode`, `Transaction.txid`, `Transaction.sigHash`

## Main results

* `Transaction.selfDelimiting_encode`, `Transaction.encode_inj`
-/

namespace Arkos

/-- `Script`: the lock of an output. -/
inductive Script where
  | p2pkh (address : String)
  | p2ms (m : UInt8) (pubkeys : List HybridPublicKey)
  | timeLocked (lockUntil : UInt64) (inner : Script)
  deriving DecidableEq, Repr

/-- `TxInput`. -/
structure TxInput where
  prevTxHash : String
  prevIndex : UInt32
  signature : HybridSignature
  pubkey : HybridPublicKey
  /-- Free bytes of a coinbase input; the miner puts the block height here. -/
  coinbaseExtra : Bytes
  witnesses : List (HybridSignature × HybridPublicKey)
  deriving DecidableEq, Repr

/-- `TxOutput`. Without a script the output is locked to `address`. -/
structure TxOutput where
  value : UInt64
  script : Option Script
  address : String
  deriving DecidableEq, Repr

/-- `Transaction`. -/
structure Transaction where
  inputs : List TxInput
  outputs : List TxOutput
  version : UInt32
  lockTime : UInt64
  deriving DecidableEq, Repr

/-- The all-zero hash in hexadecimal, which marks a coinbase input. -/
def zeroHashHex : String := "0000000000000000000000000000000000000000000000000000000000000000"

/-! ### Scripts and outputs -/

/-- `Script::address`. -/
def Script.address (C : Crypto) : Script → String
  | .p2pkh address => address
  | .p2ms m pubkeys =>
    let data := utf8 "p2ms" ++ [m] ++ [UInt8.ofNat pubkeys.length] ++
      pubkeys.flatMap fun pk => pk.ecdsaPubkey ++ pk.dilithiumPubkey
    hexEncode ((C.hash256 data).toList.take 20)
  | .timeLocked _ inner => inner.address C

/-- `TxOutput::p2pkh`. -/
def TxOutput.p2pkh (address : String) (value : UInt64) : TxOutput :=
  ⟨value, some (.p2pkh address), address⟩

/-- `TxOutput::p2ms`. -/
def TxOutput.p2ms (C : Crypto) (m : UInt8) (pubkeys : List HybridPublicKey) (value : UInt64) :
    TxOutput :=
  ⟨value, some (.p2ms m pubkeys), (Script.p2ms m pubkeys).address C⟩

/-- `TxOutput::time_locked`. -/
def TxOutput.timeLocked (C : Crypto) (lockUntil : UInt64) (inner : Script) (value : UInt64) :
    TxOutput :=
  ⟨value, some (.timeLocked lockUntil inner), (Script.timeLocked lockUntil inner).address C⟩

/-- `TxOutput::effective_script`. -/
def TxOutput.effectiveScript (o : TxOutput) : Script :=
  match o.script with
  | some s => s
  | none => .p2pkh o.address

/-! ### The JSON of a script -/

/-- One byte inside a JSON string: quotes, backslashes and control characters are escaped. -/
def jsonEscape (b : UInt8) : Bytes :=
  if b = 34 then utf8 "\\\""
  else if b = 92 then utf8 "\\\\"
  else if b = 8 then utf8 "\\b"
  else if b = 9 then utf8 "\\t"
  else if b = 10 then utf8 "\\n"
  else if b = 12 then utf8 "\\f"
  else if b = 13 then utf8 "\\r"
  else if b < 32 then utf8 "\\u00" ++ utf8 (hexEncode [b])
  else [b]

/-- A JSON string. -/
def jsonString (s : String) : Bytes := utf8 "\"" ++ (utf8 s).flatMap jsonEscape ++ utf8 "\""

/-- A JSON number. -/
def jsonNat (n : ℕ) : Bytes := utf8 (toString n)

/-- A JSON array of values that are already JSON. -/
def jsonArray (vs : List Bytes) : Bytes := utf8 "[" ++ (utf8 ",").intercalate vs ++ utf8 "]"

/-- A JSON object, its members in order. -/
def jsonObject (members : List (String × Bytes)) : Bytes :=
  utf8 "\x7b" ++ (utf8 ",").intercalate (members.map fun m => jsonString m.1 ++ utf8 ":" ++ m.2) ++
    utf8 "\x7d"

/-- The JSON of a public key: its two byte strings as arrays of numbers. -/
def HybridPublicKey.toJson (pk : HybridPublicKey) : Bytes :=
  jsonObject [("ecdsa_pubkey", jsonArray (pk.ecdsaPubkey.map fun b => jsonNat b.toNat)),
    ("dilithium_pubkey", jsonArray (pk.dilithiumPubkey.map fun b => jsonNat b.toNat))]

/-- `Script::to_bytes`. -/
def Script.toBytes : Script → Bytes
  | .p2pkh address => jsonObject [("P2PKH", jsonObject [("address", jsonString address)])]
  | .p2ms m pubkeys =>
    jsonObject [("P2MS", jsonObject
      [("m", jsonNat m.toNat), ("pubkeys", jsonArray (pubkeys.map HybridPublicKey.toJson))])]
  | .timeLocked lockUntil inner =>
    jsonObject [("TimeLocked", jsonObject
      [("lock_until", jsonNat lockUntil.toNat), ("inner", inner.toBytes)])]

/-! ### The `bincode` layout -/

/-- The layout of a signature. -/
def HybridSignature.encode (s : HybridSignature) : Bytes :=
  encBytes s.ecdsaSig ++ encBytes s.dilithiumSig

/-- The layout of a public key. -/
def HybridPublicKey.encode (k : HybridPublicKey) : Bytes :=
  encBytes k.ecdsaPubkey ++ encBytes k.dilithiumPubkey

/-- The layout of a script: a four-byte tag, then the fields of the variant. -/
def Script.encode : Script → Bytes
  | .p2pkh address => leBytes 4 0 ++ encBytes (utf8 address)
  | .p2ms m pubkeys => leBytes 4 1 ++ ([m] ++ encList HybridPublicKey.encode pubkeys)
  | .timeLocked lockUntil inner => leBytes 4 2 ++ (leBytes 8 lockUntil.toNat ++ inner.encode)

/-- The layout of an input. -/
def TxInput.encode (i : TxInput) : Bytes :=
  encBytes (utf8 i.prevTxHash) ++ (leBytes 4 i.prevIndex.toNat ++ (i.signature.encode ++
    (i.pubkey.encode ++ (encBytes i.coinbaseExtra ++
      encList (fun w : HybridSignature × HybridPublicKey => w.1.encode ++ w.2.encode)
        i.witnesses))))

/-- The layout of an output. -/
def TxOutput.encode (o : TxOutput) : Bytes :=
  leBytes 8 o.value.toNat ++ (encOption Script.encode o.script ++ encBytes (utf8 o.address))

/-- `bincode::serialize` of a transaction. -/
def Transaction.encode (tx : Transaction) : Bytes :=
  encList TxInput.encode tx.inputs ++ (encList TxOutput.encode tx.outputs ++
    (leBytes 4 tx.version.toNat ++ leBytes 8 tx.lockTime.toNat))

/-- `bincode::serialized_size` of a transaction. -/
def Transaction.serializedSize (tx : Transaction) : ℕ := tx.encode.length

theorem HybridSignature.selfDelimiting_encode : SelfDelimiting HybridSignature.encode :=
  (selfDelimiting_bytes.pair selfDelimiting_bytes).comap (f := fun s : HybridSignature =>
    (s.ecdsaSig, s.dilithiumSig)) (by rintro ⟨⟩ ⟨⟩ h; simpa using h)

theorem HybridPublicKey.selfDelimiting_encode : SelfDelimiting HybridPublicKey.encode :=
  (selfDelimiting_bytes.pair selfDelimiting_bytes).comap (f := fun k : HybridPublicKey =>
    (k.ecdsaPubkey, k.dilithiumPubkey)) (by rintro ⟨⟩ ⟨⟩ h; simpa using h)

/-- The length prefix alone makes every list and byte string cost at least eight bytes. -/
theorem HybridPublicKey.length_encode_pos (k : HybridPublicKey) : 0 < k.encode.length := by
  simp [HybridPublicKey.encode, length_encBytes]

theorem Script.selfDelimiting_encode : SelfDelimiting Script.encode := by
  intro x
  induction x with
  | p2pkh a =>
    rintro (b | ⟨m, ks⟩ | ⟨t, i⟩) r s hx hy h
    · simp only [Script.encode, List.length_append, List.append_assoc, length_leBytes] at hx hy h
      obtain ⟨hab, h'⟩ := selfDelimiting_bytes (by omega) (by omega) (List.append_cancel_left h)
      exact ⟨by rw [utf8_injective hab], h'⟩
    · simp [Script.encode, leBytes] at h
    · simp [Script.encode, leBytes] at h
  | p2ms m ks =>
    rintro (b | ⟨m', ks'⟩ | ⟨t, i⟩) r s hx hy h
    · simp [Script.encode, leBytes] at h
    · have hlist := selfDelimiting_list HybridPublicKey.selfDelimiting_encode
        HybridPublicKey.length_encode_pos
      simp only [Script.encode, List.length_append, List.append_assoc, length_leBytes] at hx hy h
      obtain ⟨hm, hks⟩ := List.append_inj (List.append_cancel_left h) rfl
      obtain ⟨rfl, h'⟩ := hlist (by omega) (by omega) hks
      exact ⟨by rw [List.singleton_inj.mp hm], h'⟩
    · simp [Script.encode, leBytes] at h
  | timeLocked t i ih =>
    rintro (b | ⟨m', ks'⟩ | ⟨t', i'⟩) r s hx hy h
    · simp [Script.encode, leBytes] at h
    · simp [Script.encode, leBytes] at h
    · simp only [Script.encode, List.length_append, List.append_assoc, length_leBytes] at hx hy h
      obtain ⟨rfl, h'⟩ := selfDelimiting_u64 (by simp) (by simp) (List.append_cancel_left h)
      obtain ⟨rfl, h''⟩ := ih (by omega) (by omega) h'
      exact ⟨rfl, h''⟩

theorem TxInput.selfDelimiting_encode : SelfDelimiting TxInput.encode := by
  have hw : SelfDelimiting
      (encList fun w : HybridSignature × HybridPublicKey => w.1.encode ++ w.2.encode) := by
    refine selfDelimiting_list
      (HybridSignature.selfDelimiting_encode.pair HybridPublicKey.selfDelimiting_encode) fun w => ?_
    have := w.2.length_encode_pos
    simp only [List.length_append]
    omega
  refine (selfDelimiting_utf8.pair (selfDelimiting_u32.pair
    (HybridSignature.selfDelimiting_encode.pair (HybridPublicKey.selfDelimiting_encode.pair
      (selfDelimiting_bytes.pair hw))))).comap (f := fun i : TxInput =>
        (i.prevTxHash, i.prevIndex, i.signature, i.pubkey, i.coinbaseExtra, i.witnesses)) ?_
  rintro ⟨⟩ ⟨⟩ h
  simpa using h

theorem TxOutput.selfDelimiting_encode : SelfDelimiting TxOutput.encode := by
  refine (selfDelimiting_u64.pair ((selfDelimiting_option Script.selfDelimiting_encode).pair
    selfDelimiting_utf8)).comap (f := fun o : TxOutput => (o.value, o.script, o.address)) ?_
  rintro ⟨⟩ ⟨⟩ h
  simpa using h

theorem Transaction.selfDelimiting_encode : SelfDelimiting Transaction.encode := by
  have hi : SelfDelimiting (encList TxInput.encode) :=
    selfDelimiting_list TxInput.selfDelimiting_encode fun i => by
      simp [TxInput.encode]
  have ho : SelfDelimiting (encList TxOutput.encode) :=
    selfDelimiting_list TxOutput.selfDelimiting_encode fun o => by
      simp [TxOutput.encode]
  refine (hi.pair (ho.pair (selfDelimiting_u32.pair selfDelimiting_u64))).comap
    (f := fun t : Transaction => (t.inputs, t.outputs, t.version, t.lockTime)) ?_
  rintro ⟨⟩ ⟨⟩ h
  simpa using h

/-- **Equal bytes, equal transactions.** -/
theorem Transaction.encode_inj {a b : Transaction} (ha : a.serializedSize < 2 ^ 64)
    (h : a.encode = b.encode) : a = b :=
  Transaction.selfDelimiting_encode.eq_of_eq ha h

/-! ### Transactions -/

/-- `Transaction::new`. -/
def Transaction.new (inputs : List TxInput) (outputs : List TxOutput) : Transaction :=
  ⟨inputs, outputs, 1, 0⟩

/-- `Transaction::coinbase`. -/
def Transaction.coinbase (minerAddress : String) (reward : UInt64) (blockHeight : ℕ) :
    Transaction where
  inputs := [{
    prevTxHash := zeroHashHex
    prevIndex := 4294967295
    signature := ⟨[], []⟩
    pubkey := ⟨[], []⟩
    coinbaseExtra := leBytes 8 blockHeight
    witnesses := [] }]
  outputs := [⟨reward, some (.p2pkh minerAddress), minerAddress⟩]
  version := 1
  lockTime := 0

/-- `Transaction::is_coinbase`. -/
def Transaction.isCoinbase (tx : Transaction) : Bool :=
  match tx.inputs with
  | [i] => i.prevTxHash == zeroHashHex && i.prevIndex == 4294967295
  | _ => false

/-- The bytes `Transaction::sig_hash` hashes. -/
def Transaction.sigPreimage (tx : Transaction) (networkMagic : UInt32) : Bytes :=
  leBytes 4 networkMagic.toNat ++ leBytes 4 tx.version.toNat ++
    tx.inputs.flatMap (fun i => utf8 i.prevTxHash ++ leBytes 4 i.prevIndex.toNat ++
      i.pubkey.ecdsaPubkey ++ i.pubkey.dilithiumPubkey) ++
    tx.outputs.flatMap fun o =>
      let scriptBytes := o.effectiveScript.toBytes
      leBytes 8 o.value.toNat ++ leBytes 4 scriptBytes.length ++ scriptBytes

section

variable (C : Crypto)

/-- `Transaction::sig_hash`. -/
def Transaction.sigHash (tx : Transaction) (networkMagic : UInt32) : Hash :=
  C.hash256 (tx.sigPreimage networkMagic)

/-- `Transaction::txid`. -/
def Transaction.txid (tx : Transaction) : Hash := C.hash256 tx.encode

/-- `Transaction::txid_hex`. -/
def Transaction.txidHex (tx : Transaction) : String := hashToHex (tx.txid C)

end

/-- A txid names one of the transactions. -/
def TxidInj (C : Crypto) (E : List Transaction) : Prop :=
  ∀ tx ∈ E, ∀ tx' ∈ E, tx.txidHex C = tx'.txidHex C → tx = tx'

@[simp] theorem Transaction.isCoinbase_coinbase (a : String) (r : UInt64) (h : ℕ) :
    (Transaction.coinbase a r h).isCoinbase = true := by
  simp [Transaction.isCoinbase, Transaction.coinbase]

theorem Transaction.serializedSize_coinbase (a : String) (r : UInt64) (h : ℕ) :
    (Transaction.coinbase a r h).serializedSize = 189 + 2 * (utf8 a).length := by
  have hzero : (utf8 zeroHashHex).length = 64 := by decide +kernel
  simp only [Transaction.serializedSize, Transaction.encode, Transaction.coinbase, TxInput.encode,
    HybridSignature.encode, HybridPublicKey.encode, TxOutput.encode, encOption, Script.encode,
    length_encList, length_encBytes, length_leBytes, List.length_append, List.length_cons,
    List.length_nil, List.map_cons, List.map_nil, List.sum_cons, List.sum_nil, hzero]
  omega

end Arkos
