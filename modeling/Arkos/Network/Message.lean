import Arkos.Blockchain.Block

/-!
# The messages peers exchange

The vocabulary of the protocol and the bounds that go with it. A `Message` is what a frame of the
transport carries once it is decoded.

## Main definitions

* `InvKind`, `InvItem`, `Message`
* `protocolVersion`, `maxHeadersPerResponse`, `maxGetdataInflight`
-/

namespace Arkos

/-- `PROTOCOL_VERSION`. -/
def protocolVersion : UInt32 := 1

/-- `MAX_HEADERS_PER_RESPONSE`. -/
def maxHeadersPerResponse : ℕ := 2000

/-- `MAX_GETDATA_INFLIGHT`. -/
def maxGetdataInflight : ℕ := 50

/-- `InvKind`. -/
inductive InvKind where
  | block
  | transaction
  deriving DecidableEq, Repr

/-- `InvItem`. -/
structure InvItem where
  kind : InvKind
  hash : String
  deriving DecidableEq, Repr

/-- `Message`. -/
inductive Message where
  | version (version networkMagic : UInt32) (bestHeight : ℕ) (userAgent : String)
  | verack
  | getHeaders (locatorHashes : List String)
  | headers (headers : List BlockHeader)
  | getBlocks (locatorHashes : List String)
  | inv (items : List InvItem)
  | getData (items : List InvItem)
  | blockMsg (block : Block)
  | txMsg (tx : Transaction)
  | addr (addrs : List String)
  | ping (nonce : UInt64)
  | pong (nonce : UInt64)
  deriving DecidableEq, Repr

/-- `RelayMessage`: a message for every peer but the one it came from. -/
structure RelayMessage where
  source : String
  message : Message
  deriving DecidableEq, Repr

end Arkos
