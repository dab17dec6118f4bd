import Arkos.Lib.Json
import Arkos.Rpc.Methods

/-!
# The RPC wire

The server reads the parameters of a request into its own structs and writes its responses from
them; `soak_miner` is a separate program with structs of its own for the same messages. The structs
are given by their fields, `wire` is the record a struct is written as and `ofWire` the struct a
record is read as.

The server's structs carry no renaming attribute and so use the Rust names on the wire; those of
`soak_miner` are renamed to camel case. Each side reads back what it writes itself, but every
message has a name of more than one word, and there the two sides never meet.

`RpcResult` is untagged: the value of a result is that of the response in it. The text of a reader's
error is left to the library, which displays its `DecodeError`.

## Main definitions

* `parseRequest`
* `SoakMiner.Template`, `SoakMiner.SubmitParams`, `SoakMiner.templateParams`
* `TemplateRequestAgrees`, `SubmissionAgrees`, `ResponseAgrees`

## Main results

* `parseRequest_toJson` — the server reads a submission under its own names
* `wire_never_agrees` — no message between `soak_miner` and the server is read
-/

namespace Arkos

namespace Rpc

open Json

/-! ### The server -/

/-- `GetBlockTemplateParams`. -/
structure GetBlockTemplateParams where
  walletAddress : String
  deriving DecidableEq, Repr

/-- `GetBalanceParams`. -/
structure GetBalanceParams where
  address : String
  deriving DecidableEq, Repr

/-- `RpcRequest`. -/
inductive RpcRequest where
  | getBlockTemplate (params : GetBlockTemplateParams)
  | submitBlock (params : SubmitBlockParams)
  | getBalance (params : GetBalanceParams)
  | getBlockCount
  | getMiningInfo
  deriving DecidableEq, Repr

namespace GetBlockTemplateParams

/-- The fields of the struct. -/
def fields : List Field :=
  [⟨"wallet_address", .text⟩]

/-- The struct of a record. -/
def ofWire : Json.Record fields → GetBlockTemplateParams
  | (walletAddress, ()) => ⟨walletAddress⟩

end GetBlockTemplateParams

namespace GetBalanceParams

/-- The fields of the struct. -/
def fields : List Field :=
  [⟨"address", .text⟩]

/-- The struct of a record. -/
def ofWire : Json.Record fields → GetBalanceParams
  | (address, ()) => ⟨address⟩

end GetBalanceParams

namespace SubmitBlockParams

/-- The fields of the struct. -/
def fields : List Field :=
  [⟨"version", .u32⟩, ⟨"prev_hash", .text⟩, ⟨"merkle_root", .text⟩, ⟨"timestamp", .u64⟩,
    ⟨"bits", .u32⟩, ⟨"nonce", .u64⟩, ⟨"wallet_address", .text⟩, ⟨"height", .u64⟩]

/-- The struct of a record. -/
def ofWire : Json.Record fields → SubmitBlockParams
  | (version, prevHash, merkleRoot, timestamp, bits, nonce, walletAddress, height, ()) =>
    ⟨version, prevHash, merkleRoot, timestamp, bits, nonce, walletAddress, UInt64.toNat height⟩

/-- The record of a submission. -/
def wire (p : SubmitBlockParams) : Json.Record fields :=
  (p.version, p.prevHash, p.merkleRoot, p.timestamp, p.bits, p.nonce, p.walletAddress,
    UInt64.ofNat p.height, ())

end SubmitBlockParams

namespace BlockTemplateResponse

/-- The fields of the struct. -/
def fields : List Field :=
  [⟨"version", .u32⟩, ⟨"prev_hash", .text⟩, ⟨"merkle_root", .text⟩, ⟨"timestamp", .u64⟩,
    ⟨"bits", .u32⟩, ⟨"target_hex", .text⟩, ⟨"height", .u64⟩, ⟨"reward_arkes", .u64⟩,
    ⟨"tx_count", .u64⟩]

/-- The record of a response. -/
def wire (t : BlockTemplateResponse) : Json.Record fields :=
  (t.version, t.prevHash, t.merkleRoot, t.timestamp, t.bits, t.targetHex, UInt64.ofNat t.height,
    t.rewardArkes, UInt64.ofNat t.txCount, ())

/-- `serde_json::to_value` of a response. -/
def toJson (t : BlockTemplateResponse) : Json :=
  t.wire.toJson

end BlockTemplateResponse

/-- The errors of `parse_request`. -/
inductive ParseError where
  /-- `bad params for {method}: {error}`. -/
  | badParams (method : String) (error : DecodeError)
  /-- `unknown method '{method}'`. -/
  | unknownMethod (method : String)
  deriving DecidableEq, Repr

/-- `serde_json::from_value` of the parameters of a method. -/
def readParams {α : Type} {fs : List Field} (method : String) (ofWire : Json.Record fs → α)
    (params : Json) : Except ParseError α :=
  match Json.decode fs params with
  | .ok r => .ok (ofWire r)
  | .error e => .error (.badParams method e)

/-- `parse_request`. -/
def parseRequest (method : String) (params : Option Json) : Except ParseError RpcRequest :=
  let params := params.getD .null
  match method with
  | "getBlockTemplate" =>
    (readParams "getBlockTemplate" GetBlockTemplateParams.ofWire params).map .getBlockTemplate
  | "submitBlock" => (readParams "submitBlock" SubmitBlockParams.ofWire params).map .submitBlock
  | "getBalance" => (readParams "getBalance" GetBalanceParams.ofWire params).map .getBalance
  | "getBlockCount" => .ok .getBlockCount
  | "getMiningInfo" => .ok .getMiningInfo
  | other => .error (.unknownMethod other)

/-! ### The miner -/

namespace SoakMiner

/-- `Template`. -/
structure Template where
  version : UInt32
  prevHash : String
  merkleRoot : String
  timestamp : UInt64
  bits : UInt32
  height : UInt64
  deriving DecidableEq, Repr

/-- `SubmitParams`. -/
structure SubmitParams where
  version : UInt32
  prevHash : String
  merkleRoot : String
  timestamp : UInt64
  bits : UInt32
  nonce : UInt64
  walletAddress : String
  height : UInt64
  deriving DecidableEq, Repr

namespace Template

/-- The fields of the struct. -/
def fields : List Field :=
  renameCamelCase [⟨"version", .u32⟩, ⟨"prev_hash", .text⟩, ⟨"merkle_root", .text⟩,
    ⟨"timestamp", .u64⟩, ⟨"bits", .u32⟩, ⟨"height", .u64⟩]

/-- The struct of a record. -/
def ofWire : Json.Record fields → Template
  | (version, prevHash, merkleRoot, timestamp, bits, height, ()) =>
    ⟨version, prevHash, merkleRoot, timestamp, bits, height⟩

/-- `serde_json::from_value::<Template>`. -/
def fromValue (value : Json) : Except DecodeError Template :=
  (Json.decode fields value).map ofWire

end Template

namespace SubmitParams

/-- The fields of the struct. -/
def fields : List Field :=
  renameCamelCase [⟨"version", .u32⟩, ⟨"prev_hash", .text⟩, ⟨"merkle_root", .text⟩,
    ⟨"timestamp", .u64⟩, ⟨"bits", .u32⟩, ⟨"nonce", .u64⟩, ⟨"wallet_address", .text⟩,
    ⟨"height", .u64⟩]

/-- The record of a submission. -/
def wire (p : SubmitParams) : Json.Record fields :=
  (p.version, p.prevHash, p.merkleRoot, p.timestamp, p.bits, p.nonce, p.walletAddress, p.height, ())

/-- `serde_json::to_value` of a submission. -/
def toJson (p : SubmitParams) : Json :=
  p.wire.toJson

end SubmitParams

/-- `json!({ "walletAddress": wallet_address })`. -/
def templateParams (walletAddress : String) : Json :=
  .object [("walletAddress", .string walletAddress)]

end SoakMiner

open SoakMiner

/-! ### What agreement would be -/

/-- The server reads the address a template is asked for. -/
def TemplateRequestAgrees (walletAddress : String) : Prop :=
  parseRequest "getBlockTemplate" (some (templateParams walletAddress)) =
    .ok (.getBlockTemplate ⟨walletAddress⟩)

/-- The server reads the values of a submission. -/
def SubmissionAgrees (p : SubmitParams) : Prop :=
  parseRequest "submitBlock" (some p.toJson) =
    .ok (.submitBlock ⟨p.version, p.prevHash, p.merkleRoot, p.timestamp, p.bits, p.nonce,
      p.walletAddress, p.height.toNat⟩)

/-- The miner reads the values of a template, less those it has no field for. -/
def ResponseAgrees (t : BlockTemplateResponse) : Prop :=
  Template.fromValue t.toJson =
    .ok ⟨t.version, t.prevHash, t.merkleRoot, t.timestamp, t.bits, UInt64.ofNat t.height⟩

/-! ### What the two sides read -/

/-- The server reads a submission written under its own names. -/
theorem parseRequest_toJson {p : SubmitBlockParams} (hheight : p.height < 2 ^ 64) :
    parseRequest "submitBlock" (some p.wire.toJson) = .ok (.submitBlock p) := by
  have hread : Json.decode SubmitBlockParams.fields p.wire.toJson = .ok p.wire :=
    Json.decode_toJson (by decide) p.wire
  have hwire : SubmitBlockParams.ofWire p.wire = p := by
    obtain ⟨version, prevHash, merkleRoot, timestamp, bits, nonce, walletAddress, height⟩ := p
    simpa [SubmitBlockParams.wire, SubmitBlockParams.ofWire] using hheight
  simp [parseRequest, readParams, hread, hwire, Except.map]

/-- The request for a template is refused for the address it carries. -/
theorem parseRequest_templateParams (walletAddress : String) :
    parseRequest "getBlockTemplate" (some (templateParams walletAddress)) =
      .error (.badParams "getBlockTemplate" (.missingField "wallet_address")) := by
  -- the same object as the one of a struct with the single field `walletAddress`
  let r : Json.Record [⟨"walletAddress", .text⟩] := (walletAddress, ())
  have hobject : templateParams walletAddress = r.toJson := by
    simp [templateParams, Json.Record.toJson, Json.Record.sortedEntries, Json.Record.entries,
      Kind.encode, r]
  have hread : Json.decode GetBlockTemplateParams.fields r.toJson =
      .error (.missingField "wallet_address") :=
    Json.decode_toJson_of_missing (g := ⟨"wallet_address", .text⟩) (by decide) (by decide)
  simp [parseRequest, readParams, hobject, hread, Except.map]

/-- A submission is refused for the hash of its parent. -/
theorem parseRequest_submitParams (p : SubmitParams) :
    parseRequest "submitBlock" (some p.toJson) =
      .error (.badParams "submitBlock" (.missingField "prev_hash")) := by
  have hread : Json.decode SubmitBlockParams.fields p.toJson = .error (.missingField "prev_hash") :=
    Json.decode_toJson_of_missing (g := ⟨"prev_hash", .text⟩) (by decide) (by decide)
  simp [parseRequest, readParams, hread, Except.map]

/-- A template is refused for the hash of its parent, under the miner's name for it. -/
theorem fromValue_toJson (t : BlockTemplateResponse) :
    Template.fromValue t.toJson = .error (.missingField "prevHash") := by
  have hread : Json.decode Template.fields t.toJson = .error (.missingField "prevHash") :=
    Json.decode_toJson_of_missing (g := ⟨"prevHash", .text⟩) (by decide) (by decide)
  simp [Template.fromValue, hread, Except.map]

/-- Whatever the values, the server reads neither of the miner's requests and the miner does not
read the server's template. -/
theorem wire_never_agrees (walletAddress : String) (p : SubmitParams)
    (t : BlockTemplateResponse) :
    ¬ TemplateRequestAgrees walletAddress ∧ ¬ SubmissionAgrees p ∧ ¬ ResponseAgrees t := by
  refine ⟨?_, ?_, ?_⟩
  · simp [TemplateRequestAgrees, parseRequest_templateParams]
  · simp [SubmissionAgrees, parseRequest_submitParams]
  · simp [ResponseAgrees, fromValue_toJson]

/-- The request of the documentation's example is refused. -/
theorem not_templateRequestAgrees_abc : ¬ TemplateRequestAgrees "abc..." := by
  rw [TemplateRequestAgrees, parseRequest_templateParams]
  simp

end Rpc

end Arkos
