import Arkos.Blockchain.Chain
import Arkos.Network.Message
import Arkos.Network.Peers
import Arkos.Security.RateLimit

/-!
# A node and the messages it handles

`handle_peer` runs once for every connection, takes one message after the other and works on what
all connections share: the chain, the peer store and the rate limiters. `handleMessage` is one turn
of its loop. It returns the shared state it leaves, what it sent to the peer and to the relay, and
whether the connection goes on.

A turn of the loop locks what it needs and is one step here. It reads the monotonic clock twice,
once for the message and once for its kind, and the wall clock when it adds a block. A message that
cannot be sent ends the connection and changes nothing else, because every arm writes before it
sends.

## Main definitions

* `Node`, `Node.handleMessage`
* `Node.Event`, `Node.step`, `Node.run` — what the tasks of a node do to the shared state

## Main results

* `Node.node_handleMessage` — everything a turn writes
-/

namespace Arkos

/-- `MAX_ADDR_PER_MESSAGE`. -/
def maxAddrPerMessage : ℕ := 1000

/-- `MAX_KNOWN_PEERS`. -/
def maxKnownPeers : ℕ := 4096

/-- `MAX_USER_AGENT_LEN`. -/
def maxUserAgentLen : ℕ := 256

/-- `MAX_BLOCKS_PER_GETBLOCKS`. -/
def maxBlocksPerGetblocks : ℕ := 500

/-- `MAX_LOCATOR_HASHES`. -/
def maxLocatorHashes : ℕ := 32

/-- `Node`, less what no handler reads. -/
structure Node where
  chain : Blockchain
  networkMagic : UInt32
  peerStore : PeerStore
  rateLimiters : NodeRateLimiter

/-- `Node::new`. -/
def Node.new (chain : Blockchain) (networkMagic : UInt32) : Node where
  chain
  networkMagic
  peerStore := .new
  rateLimiters := .new

@[simp] theorem Node.chain_new (chain : Blockchain) (networkMagic : UInt32) :
    (Node.new chain networkMagic).chain = chain := rfl

/-- Why a connection is ended. -/
inductive PeerError where
  | messageRate
  | userAgentTooLong (bytes : ℕ)
  | wrongMagic (magic : UInt32)
  | unsupportedVersion (version : UInt32)
  | getBlocksRate
  | blockRate
  | transactionRate
  | tooManyAddrs (count : ℕ)
  deriving DecidableEq, Repr

/-- The text of the error, for the peer at `addr`. -/
def PeerError.message (addr : String) : PeerError → String
  | .messageRate => "peer " ++ addr ++ " exceeded message rate limit"
  | .userAgentTooLong bytes =>
    "peer " ++ addr ++ " sent user_agent of " ++ toString bytes ++ " bytes (max " ++
      toString maxUserAgentLen ++ ")"
  | .wrongMagic magic => "peer " ++ addr ++ " is on wrong network magic " ++ bitsHex magic
  | .unsupportedVersion version =>
    "peer " ++ addr ++ " uses unsupported protocol version " ++ toString version.toNat
  | .getBlocksRate => "peer " ++ addr ++ " exceeded GetBlocks rate limit"
  | .blockRate => "peer " ++ addr ++ " exceeded block rate limit"
  | .transactionRate => "peer " ++ addr ++ " exceeded transaction rate limit"
  | .tooManyAddrs count =>
    "peer " ++ addr ++ " sent Addr with " ++ toString count ++ " entries (max " ++
      toString maxAddrPerMessage ++ ")"

/-- What the clocks show during one turn of the loop. -/
structure Clock where
  /-- The monotonic clock when the message is counted. -/
  received : ℕ
  /-- The monotonic clock when its kind is counted. -/
  handled : ℕ
  /-- The wall clock, in seconds. -/
  unix : ℕ

/-- What one turn of the loop leaves and sends. -/
structure Handled where
  result : Except PeerError Unit
  node : Node
  sent : List Message
  relayed : List RelayMessage

namespace Node

/-- A turn that goes on, changes nothing and sends the given messages. -/
def reply (n : Node) (sent : List Message) : Handled := ⟨.ok (), n, sent, []⟩

/-- A turn that ends the connection. -/
def bail (n : Node) (e : PeerError) : Handled := ⟨.error e, n, [], []⟩

/-- `slice::chunks`. -/
def chunks {α : Type} (size : ℕ) (l : List α) : List (List α) :=
  (List.range ((l.length + size - 1) / size)).map fun i => (l.drop (i * size)).take size

/-- `is_valid_peer_addr`. -/
def isValidPeerAddr (addr : String) : Bool := (SocketAddr.parse addr).isSome

/-! ### Counting

Every check of a limiter counts the event it lets through: the answer, and the node it leaves. -/

/-- May the peer send one more message? -/
def mayMessage (clock : Clock) (addr : String) (n : Node) : Bool :=
  (n.rateLimiters.messages.check clock.received addr).1

/-- The node after it asked. -/
def countMessage (clock : Clock) (addr : String) (n : Node) : Node :=
  { n with rateLimiters.messages := (n.rateLimiters.messages.check clock.received addr).2 }

/-- May the peer send one more block? -/
def mayBlock (clock : Clock) (addr : String) (n : Node) : Bool :=
  (n.rateLimiters.blocks.check clock.handled addr).1

/-- The node after it asked. -/
def countBlock (clock : Clock) (addr : String) (n : Node) : Node :=
  { n with rateLimiters.blocks := (n.rateLimiters.blocks.check clock.handled addr).2 }

/-- May the peer send one more transaction? -/
def mayTx (clock : Clock) (addr : String) (n : Node) : Bool :=
  (n.rateLimiters.transactions.check clock.handled addr).1

/-- The node after it asked. -/
def countTx (clock : Clock) (addr : String) (n : Node) : Node :=
  { n with rateLimiters.transactions := (n.rateLimiters.transactions.check clock.handled addr).2 }

/-- May the peer ask for one more inventory? -/
def mayGetBlocks (clock : Clock) (addr : String) (n : Node) : Bool :=
  (n.rateLimiters.getblocks.check clock.handled addr).1

/-- The node after it asked. -/
def countGetBlocks (clock : Clock) (addr : String) (n : Node) : Node :=
  { n with rateLimiters.getblocks := (n.rateLimiters.getblocks.check clock.handled addr).2 }

section

variable (C : Crypto)

/-! ### Locators -/

/-- The loop of `block_locator`: `height + 1` turns are enough, because `step` is never zero. -/
def locatorLoop (blocks : List Block) : ℕ → ℕ → ℕ → List String → List String
  | 0, _, _, locator => locator
  | fuel + 1, height, step, locator =>
    let locator := match blocks[height]? with
      | some block => locator ++ [block.hashHex C]
      | none => locator
    if height = 0 ∨ maxLocatorHashes ≤ locator.length then locator
    else
      locatorLoop blocks fuel (height - step)
        (if 10 < locator.length then min (step * 2) (2 ^ 64 - 1) else step) locator

/-- `block_locator`. -/
def blockLocator (s : Blockchain) : List String :=
  let locator := locatorLoop C s.blocks (s.height + 1) s.height 1 []
  let genesis := (s.blocks.head s.blocks_ne_nil).hashHex C
  if locator.getLast? = some genesis then locator else locator ++ [genesis]

/-- Where an answer to a locator starts. -/
def locatorStart (s : Blockchain) (locatorHashes : List String) : ℕ :=
  ((locatorHashes.findSome? fun h => s.blockIndex.lookup h).map (· + 1)).getD 0

/-! ### The arms -/

/-- The `Version` arm. -/
def handleVersion (n : Node) (version networkMagic : UInt32) (bestHeight : ℕ) (userAgent : String) :
    Handled :=
  if maxUserAgentLen < (utf8 userAgent).length then
    n.bail (.userAgentTooLong (utf8 userAgent).length)
  else if networkMagic ≠ n.networkMagic then n.bail (.wrongMagic networkMagic)
  else if version ≠ protocolVersion then n.bail (.unsupportedVersion version)
  else if n.chain.height < bestHeight then
    n.reply [.verack, .getHeaders (blockLocator C n.chain)]
  else n.reply [.verack]

/-- The `GetHeaders` arm. -/
def handleGetHeaders (n : Node) (locatorHashes : List String) : Handled :=
  let headers := ((n.chain.blocks.drop (locatorStart n.chain locatorHashes)).take
    maxHeadersPerResponse).map Block.header
  if headers = [] then n.reply [] else n.reply [.headers headers]

/-- The loop of the `Headers` arm: what to fetch. It stops at the first header that does not follow
the one before it, or for the first of them a known block, or does not meet its own target. -/
def toFetch (s : Blockchain) : Option String → List BlockHeader → List InvItem
  | _, [] => []
  | prev, header :: headers =>
    let parentKnown := decide (header.prevHash ∈ s.allBlocks)
    let prevMatches := (prev.map fun prevHash =>
      decide (header.prevHash = prevHash)).getD parentKnown
    let expectedParent := prev.getD header.prevHash
    if prevMatches = true ∧ header.validateHeaderOnly C expectedParent none = .ok () then
      let hash := header.hashHex C
      let rest := toFetch s (some hash) headers
      if hash ∈ s.allBlocks then rest else ⟨.block, hash⟩ :: rest
    else []

/-- The `Headers` arm. -/
def handleHeaders (n : Node) (headers : List BlockHeader) : Handled :=
  n.reply ((chunks maxGetdataInflight (toFetch C n.chain none headers)).map .getData)

/-- The `GetBlocks` arm. -/
def handleGetBlocks (clock : Clock) (addr : String) (n : Node) (locatorHashes : List String) :
    Handled :=
  let counted := n.countGetBlocks clock addr
  if n.mayGetBlocks clock addr = false then counted.bail .getBlocksRate
  else
    let items : List InvItem := ((n.chain.blocks.drop (locatorStart n.chain locatorHashes)).take
      maxBlocksPerGetblocks).map fun b => ⟨.block, b.hashHex C⟩
    if items = [] then counted.reply [] else counted.reply [.inv items]

/-- Is the announced item missing here? -/
def isNeeded (s : Blockchain) (item : InvItem) : Bool :=
  match item.kind with
  | .block => decide (item.hash ∉ s.allBlocks)
  | .transaction => decide (item.hash ∉ s.mempool.txs)

/-- The `Inv` arm. -/
def handleInv (n : Node) (items : List InvItem) : Handled :=
  let needed := items.filter (isNeeded n.chain)
  if needed = [] then n.reply [] else n.reply [.getData needed]

/-- The answer to one requested item. -/
def answer (s : Blockchain) (item : InvItem) : Option Message :=
  match item.kind with
  | .block => (s.allBlocks.lookup item.hash).map .blockMsg
  | .transaction => (s.mempool.get item.hash).map .txMsg

theorem answer_block (s : Blockchain) (hash : String) :
    answer s ⟨.block, hash⟩ = (s.allBlocks.lookup hash).map .blockMsg := rfl

/-- The `GetData` arm. -/
def handleGetData (n : Node) (items : List InvItem) : Handled :=
  n.reply (items.filterMap (answer n.chain))

/-- The `BlockMsg` arm. -/
def handleBlock (clock : Clock) (addr : String) (n : Node) (block : Block) : Handled :=
  let counted := n.countBlock clock addr
  if n.mayBlock clock addr = false then counted.bail .blockRate
  else
    let added := n.chain.addBlock C clock.unix block
    { result := .ok ()
      node := { counted with chain := added.2 }
      sent := []
      relayed := match added.1 with
        | .ok () => [⟨addr, .inv [⟨.block, block.hashHex C⟩]⟩]
        | .error _ => [] }

/-- The `TxMsg` arm. -/
def handleTx (clock : Clock) (addr : String) (n : Node) (tx : Transaction) : Handled :=
  let counted := n.countTx clock addr
  if n.mayTx clock addr = false then counted.bail .transactionRate
  else
    let submitted := n.chain.submitTransaction C tx
    { result := .ok ()
      node := { counted with chain := submitted.2 }
      sent := []
      relayed := match submitted.1 with
        | .ok _ => [⟨addr, .inv [⟨.transaction, tx.txidHex C⟩]⟩]
        | .error _ => [] }

/-- The loop of the `Addr` arm. -/
def addAddrs : PeerStore → List String → PeerStore
  | store, [] => store
  | store, candidate :: addrs =>
    if isValidPeerAddr candidate = false then addAddrs store addrs
    else if maxKnownPeers ≤ store.knownCount then store
    else addAddrs (store.addKnown candidate).2 addrs

/-- The `Addr` arm. -/
def handleAddr (n : Node) (addrs : List String) : Handled :=
  if maxAddrPerMessage < addrs.length then n.bail (.tooManyAddrs addrs.length)
  else { n with peerStore := addAddrs n.peerStore addrs }.reply []

/-- The match of `handle_peer`. -/
def dispatch (clock : Clock) (addr : String) (n : Node) : Message → Handled
  | .version version networkMagic bestHeight userAgent =>
    n.handleVersion C version networkMagic bestHeight userAgent
  | .verack => n.reply []
  | .getHeaders locatorHashes => n.handleGetHeaders locatorHashes
  | .headers headers => n.handleHeaders C headers
  | .getBlocks locatorHashes => n.handleGetBlocks C clock addr locatorHashes
  | .inv items => n.handleInv items
  | .getData items => n.handleGetData items
  | .blockMsg block => n.handleBlock C clock addr block
  | .txMsg tx => n.handleTx C clock addr tx
  | .ping nonce => n.reply [.pong nonce]
  | .pong _ => n.reply []
  | .addr addrs => n.handleAddr addrs

/-- **One turn of the loop of `handle_peer`** for a message of the peer at `addr`. -/
def handleMessage (clock : Clock) (addr : String) (n : Node) (msg : Message) : Handled :=
  let counted := n.countMessage clock addr
  if n.mayMessage clock addr = false then counted.bail .messageRate
  else counted.dispatch C clock addr msg

end

/-! ### What a turn writes -/

variable {C : Crypto} {clock : Clock} {addr : String}

/-- The chain a message leaves, when it comes through the limiters. -/
def chainAfter (C : Crypto) (clock : Clock) (addr : String) (n : Node) : Message → Blockchain
  | .blockMsg block =>
    if n.mayBlock clock addr then (n.chain.addBlock C clock.unix block).2 else n.chain
  | .txMsg tx => if n.mayTx clock addr then (n.chain.submitTransaction C tx).2 else n.chain
  | _ => n.chain

/-- The peer store a message leaves, when it comes through the limiters. -/
def peerStoreAfter (n : Node) : Message → PeerStore
  | .addr addrs =>
    if maxAddrPerMessage < addrs.length then n.peerStore else addAddrs n.peerStore addrs
  | _ => n.peerStore

/-- The node a message leaves, when it comes through the limiter for messages. -/
def nodeAfter (C : Crypto) (clock : Clock) (addr : String) (n : Node) (msg : Message) : Node where
  chain := n.chainAfter C clock addr msg
  networkMagic := n.networkMagic
  peerStore := n.peerStoreAfter msg
  rateLimiters := match msg with
    | .blockMsg _ => (n.countBlock clock addr).rateLimiters
    | .txMsg _ => (n.countTx clock addr).rateLimiters
    | .getBlocks _ => (n.countGetBlocks clock addr).rateLimiters
    | _ => n.rateLimiters

/-- **What an arm writes.** -/
theorem node_dispatch (n : Node) (msg : Message) :
    (n.dispatch C clock addr msg).node = n.nodeAfter C clock addr msg := by
  cases msg with
  | version version networkMagic bestHeight userAgent =>
    simp only [dispatch, handleVersion]
    repeat' split
    all_goals rfl
  | getHeaders locatorHashes =>
    simp only [dispatch, handleGetHeaders]
    split <;> rfl
  | getBlocks locatorHashes =>
    simp only [dispatch, handleGetBlocks]
    repeat' split
    all_goals rfl
  | inv items =>
    simp only [dispatch, handleInv]
    split <;> rfl
  | blockMsg block =>
    simp only [dispatch, handleBlock, nodeAfter, chainAfter]
    cases hmay : n.mayBlock clock addr <;> rfl
  | txMsg tx =>
    simp only [dispatch, handleTx, nodeAfter, chainAfter]
    cases hmay : n.mayTx clock addr <;> rfl
  | addr addrs =>
    simp only [dispatch, handleAddr, nodeAfter, peerStoreAfter]
    split <;> rfl
  | _ => rfl

/-- **What a turn writes.** -/
theorem node_handleMessage (n : Node) (msg : Message) :
    (n.handleMessage C clock addr msg).node =
      if n.mayMessage clock addr then (n.countMessage clock addr).nodeAfter C clock addr msg
      else n.countMessage clock addr := by
  unfold handleMessage
  cases hmay : n.mayMessage clock addr with
  | false => rfl
  | true => exact node_dispatch _ msg

/-- The chain after a turn. -/
theorem chain_handleMessage (n : Node) (msg : Message) :
    (n.handleMessage C clock addr msg).node.chain =
      if n.mayMessage clock addr then n.chainAfter C clock addr msg else n.chain := by
  rw [node_handleMessage]
  split <;> rfl

/-- The peer store after a turn. -/
theorem peerStore_handleMessage (n : Node) (msg : Message) :
    (n.handleMessage C clock addr msg).node.peerStore =
      if n.mayMessage clock addr then n.peerStoreAfter msg else n.peerStore := by
  rw [node_handleMessage]
  split <;> rfl

/-! ### Runs -/

/-- What a task of the node does to the shared state. -/
inductive Event where
  /-- A connection from `addr` is accepted by the listener. -/
  | accept (now : ℕ) (addr : String) (handshakeOk versionSent : Bool)
  /-- `connect_to_peer`. -/
  | connect (addr : String) (connected versionSent : Bool)
  /-- The outbound-maintenance task opened a connection to `addr`. -/
  | maintain (addr : String)
  /-- The feeler task could not reach `addr`. -/
  | evict (addr : String)
  /-- A turn of `handle_peer`. -/
  | message (clock : Clock) (addr : String) (msg : Message)
  /-- `handle_peer` returned for a connection from `addr`. -/
  | dropInbound (addr : String)
  /-- `handle_peer` returned for a connection to `addr`. -/
  | dropOutbound (addr : String)
  /-- `mine_block_and_relay`, with a bound on the search. -/
  | mine (fuel now now' : ℕ) (order : List (String × Transaction)) (minerAddress : String)

/-- May one more connection come from the address? -/
def mayConnect (now : ℕ) (addr : String) (n : Node) : Bool :=
  (n.rateLimiters.connections.check now addr).1

/-- The node after it asked. -/
def countConnection (now : ℕ) (addr : String) (n : Node) : Node :=
  { n with rateLimiters.connections := (n.rateLimiters.connections.check now addr).2 }

/-- The body of the accept loop. -/
def accept (now : ℕ) (addr : String) (handshakeOk versionSent : Bool) (n : Node) : Node :=
  let counted := n.countConnection now addr
  if n.mayConnect now addr = true ∧ handshakeOk = true ∧ versionSent = true then
    { counted with peerStore := (n.peerStore.addKnown addr).2.markInbound addr }
  else counted

/-- `Node::connect_to_peer`, up to the spawn of `handle_peer`. -/
def connectToPeer (addr : String) (connected versionSent : Bool) (n : Node) : Node :=
  if connected = true ∧ versionSent = true then
    { n with peerStore := (n.peerStore.addKnown addr).2.markOutbound addr }
  else n

/-- `Node::mine_block_and_relay`. -/
def mineBlockAndRelay (C : Crypto) (fuel now now' : ℕ) (order : List (String × Transaction))
    (minerAddress : String) (n : Node) : Node :=
  match n.chain.mineBlock C fuel now order minerAddress with
  | none => n
  | some block => { n with chain := (n.chain.addBlock C now' block).2 }

/-- The shared state after an event. -/
def step (C : Crypto) (n : Node) : Event → Node
  | .accept now addr handshakeOk versionSent => n.accept now addr handshakeOk versionSent
  | .connect addr connected versionSent => n.connectToPeer addr connected versionSent
  | .maintain addr => { n with peerStore := n.peerStore.markOutbound addr }
  | .evict addr => { n with peerStore := n.peerStore.removeKnown addr }
  | .message clock addr msg => (n.handleMessage C clock addr msg).node
  | .dropInbound addr => { n with peerStore := n.peerStore.unmarkInbound addr }
  | .dropOutbound addr => { n with peerStore := n.peerStore.unmarkOutbound addr }
  | .mine fuel now now' order minerAddress =>
    n.mineBlockAndRelay C fuel now now' order minerAddress

/-- The shared state after a sequence of events. -/
def run (C : Crypto) (n : Node) (evs : List Event) : Node := evs.foldl (step C) n

theorem run_append (n : Node) (evs evs' : List Event) :
    run C n (evs ++ evs') = run C (run C n evs) evs' := List.foldl_append

theorem run_append_singleton (n : Node) (evs : List Event) (e : Event) :
    run C n (evs ++ [e]) = (run C n evs).step C e := run_append n evs [e]

end Node

end Arkos
