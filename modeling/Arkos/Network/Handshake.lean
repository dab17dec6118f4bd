import Arkos.Network.Node
import Arkos.Blockchain.IdleChain

/-!
# What a peer can do before its handshake

A peer that is on another network, or speaks another version of the protocol, is sent away by the
`Version` arm of `handle_peer`. Nothing makes it send a `Version`: the loop keeps no state of the
connection, and the arms that write (`BlockMsg`, `TxMsg` and `Addr`) do not ask for one. A peer that
never introduces itself is served like any other.

What protects the shared state until then is only what protects it from every peer: the limiters,
the checks of `add_block` and of the mempool, and the bounds on addresses. A message all of these
turn away is `Inert`, and a connection on which every message before the handshake is inert has no
effect before the handshake.

## Main definitions

* `ConnEvent`, `connRun` — one connection, between the steps of everybody else
* `HandshakeFirst` — no effect before a handshake
* `Node.Inert` — the messages the handler turns away

## Main results

* `handshake_first_of_inert`
* `not_handshakeFirst_firstBlock` — a block sent as the first message is added to the chain
-/

namespace Arkos

/-! ### One connection -/

/-- What happens on a connection: a message of the peer, or anything the other tasks of the node do
to what the connections share. -/
inductive ConnEvent where
  | receive (clock : Clock) (msg : Message)
  | others (chain : Blockchain) (peerStore : PeerStore) (rateLimiters : NodeRateLimiter)

section

variable (C : Crypto) (addr : String)

/-- The shared state after an event, as long as `handle_peer` has not returned. -/
def connStep : Option Node → ConnEvent → Option Node
  | none, _ => none
  | some n, .receive clock msg =>
    match (n.handleMessage C clock addr msg).result with
    | .ok () => some (n.handleMessage C clock addr msg).node
    | .error _ => none
  | some n, .others chain peerStore rateLimiters => some { n with chain, peerStore, rateLimiters }

/-- The shared state after the events of a connection to the peer at `addr`. -/
def connRun (n : Node) (evs : List ConnEvent) : Option Node :=
  evs.foldl (connStep C addr) (some n)

end

/-- A `Version` of the network with the given magic, of the supported version and with a user agent
that is not too long. -/
def IsHandshake (magic : UInt32) : Message → Prop
  | .version version networkMagic _ userAgent =>
    networkMagic = magic ∧ version = protocolVersion ∧ (utf8 userAgent).length ≤ maxUserAgentLen
  | _ => False

/-- The peer has introduced itself. -/
def Shaken (magic : UInt32) (evs : List ConnEvent) : Prop :=
  ∃ clock msg, .receive clock msg ∈ evs ∧ IsHandshake magic msg

/-- A `BlockMsg`, a `TxMsg` or an `Addr`. -/
def Message.IsPayload : Message → Prop
  | .blockMsg _ | .txMsg _ | .addr _ => True
  | _ => False

/-- **No effect before a handshake**: a payload that arrives before one leaves the chain, with its
mempool, and the peer store as they are. -/
def HandshakeFirst (C : Crypto) (addr : String) (n : Node) (evs : List ConnEvent) : Prop :=
  ∀ pre clock msg, pre ++ [.receive clock msg] <+: evs → ¬ Shaken n.networkMagic pre →
    ∀ m, connRun C addr n pre = some m → msg.IsPayload →
      (m.handleMessage C clock addr msg).node.chain = m.chain ∧
        (m.handleMessage C clock addr msg).node.peerStore = m.peerStore

/-! ### Messages the handler turns away -/

namespace Node

/-- The block is known, or does not pass the checks of `add_block`. -/
def BlockRefused (C : Crypto) (now : ℕ) (s : Blockchain) (block : Block) : Prop :=
  ∀ w, s.checkBlock C now block ≠ .ok (some w)

/-- The transaction is not valid, or does not get into the mempool, or is there already. -/
def TxRefused (C : Crypto) (s : Blockchain) (tx : Transaction) : Prop :=
  ∀ fee, s.validateTx C tx = .ok fee →
    fee < minFeeArkes ∨ maxMempoolBytes < s.mempool.totalBytes + tx.serializedSize ∨
      s.mempool.get (tx.txidHex C) = some tx

/-- There are too many addresses, or the store is full or takes none of those that parse. -/
def AddrsRefused (store : PeerStore) (addrs : List String) : Prop :=
  maxAddrPerMessage < addrs.length ∨ maxKnownPeers ≤ store.knownCount ∨
    ∀ candidate ∈ addrs, isValidPeerAddr candidate = true → ¬ store.Takes candidate

/-- The message is over a limit, or what it carries is refused. -/
def Inert (C : Crypto) (clock : Clock) (addr : String) (n : Node) (msg : Message) : Prop :=
  n.mayMessage clock addr = false ∨
    match msg with
    | .blockMsg block => n.mayBlock clock addr = false ∨ BlockRefused C clock.unix n.chain block
    | .txMsg tx => n.mayTx clock addr = false ∨ TxRefused C n.chain tx
    | .addr addrs => AddrsRefused n.peerStore addrs
    | _ => True

variable {C : Crypto} {clock : Clock} {addr : String} {n : Node}

/-- A refused block leaves the chain as it is. -/
theorem addBlock_of_blockRefused {now : ℕ} {s : Blockchain} {block : Block}
    (h : BlockRefused C now s block) : (s.addBlock C now block).2 = s := by
  rw [Blockchain.addBlock]
  split
  · rfl
  · rfl
  · next w hw => exact absurd hw (h w)

/-- A refused transaction leaves the chain as it is. -/
theorem submitTransaction_of_txRefused {s : Blockchain} {tx : Transaction}
    (h : TxRefused C s tx) : (s.submitTransaction C tx).2 = s := by
  rw [Blockchain.submitTransaction]
  split
  · rfl
  · next fee hfee =>
    split
    · next e mempool hadd => rw [Mempool.addWithFee_error hadd]
    · next txid mempool hadd =>
      -- admitted, so it was there already
      obtain ⟨hmin, hbytes, -, rfl⟩ := Mempool.addWithFee_ok hadd
      rcases h fee hfee with hlow | hfull | hthere
      · omega
      · omega
      · have hmem : tx.txidHex C ∈ s.mempool.txs := Finmap.mem_of_lookup hthere
        have hsame : s.mempool.insertTx C tx fee = s.mempool := by
          rw [Mempool.insertTx, if_pos hmem, Finmap.insert_eq_self hthere]
        rw [hsame]

/-- Refused addresses leave the store as it is. -/
theorem addAddrs_of_not_takes {store : PeerStore} {addrs : List String}
    (h : maxKnownPeers ≤ store.knownCount ∨
      ∀ candidate ∈ addrs, isValidPeerAddr candidate = true → ¬ store.Takes candidate) :
    addAddrs store addrs = store := by
  induction addrs with
  | nil => rfl
  | cons candidate addrs ih =>
    have hrest := ih (h.imp_right fun hnone q hq => hnone q (List.mem_cons_of_mem _ hq))
    rw [addAddrs]
    split
    · exact hrest
    · next hvalid =>
      split
      · rfl
      · next hroom =>
        have hnot : ¬ store.Takes candidate :=
          h.resolve_left hroom candidate List.mem_cons_self (by simpa using hvalid)
        rw [PeerStore.addKnown_of_not_takes hnot]
        exact hrest

/-- **An inert message leaves the chain and the peer store as they are.** -/
theorem Inert.unchanged {msg : Message} (h : n.Inert C clock addr msg) :
    (n.handleMessage C clock addr msg).node.chain = n.chain ∧
      (n.handleMessage C clock addr msg).node.peerStore = n.peerStore := by
  rw [chain_handleMessage, peerStore_handleMessage]
  cases hmay : n.mayMessage clock addr with
  | false => exact ⟨rfl, rfl⟩
  | true =>
    have hinert := h.resolve_left (by simp [hmay])
    rw [if_pos rfl, if_pos rfl]
    cases msg with
    | blockMsg block =>
      refine ⟨?_, rfl⟩
      rw [chainAfter]
      split
      · next hblock => exact addBlock_of_blockRefused (hinert.resolve_left (by simp [hblock]))
      · rfl
    | txMsg tx =>
      refine ⟨?_, rfl⟩
      rw [chainAfter]
      split
      · next htx => exact submitTransaction_of_txRefused (hinert.resolve_left (by simp [htx]))
      · rfl
    | addr addrs =>
      refine ⟨rfl, ?_⟩
      rw [peerStoreAfter]
      split
      · rfl
      · next hcount => exact addAddrs_of_not_takes (hinert.resolve_left hcount)
    | _ => exact ⟨rfl, rfl⟩

end Node

/-! ### Runs -/

/-- **A connection has no effect before its handshake as long as what the peer sends until then is
inert.** -/
theorem handshake_first_of_inert (C : Crypto) (addr : String) (n : Node) (evs : List ConnEvent)
    (hinert : ∀ pre clock msg, pre ++ [.receive clock msg] <+: evs → ¬ Shaken n.networkMagic pre →
      ∀ m, connRun C addr n pre = some m → m.Inert C clock addr msg) :
    HandshakeFirst C addr n evs := by
  intro pre clock msg hpre hshaken m hm _
  exact (hinert pre clock msg hpre hshaken m hm).unchanged

/-- A node of the regression-test network that has just been started. -/
def sampleNode : Node :=
  .new (.fromGenesisWithMagic Crypto.sample sampleGenesis none regtestMagic) regtestMagic

/-- The clocks at one moment. -/
def sampleClock : Clock := ⟨0, 0, sampleNow⟩

/-- A peer that sends the second block of a chain, then introduces itself, then sends the first. -/
def politePeer : List ConnEvent :=
  [.receive sampleClock (.blockMsg (idleBlock 1)),
    .receive sampleClock (.version protocolVersion regtestMagic 2 "arkos/0.1"),
    .receive sampleClock (.blockMsg (idleBlock 0))]

/-- Its second block is refused, because its parent is not known, and after the handshake it may
send what it likes. -/
theorem handshake_first_of_inert_politePeer :
    HandshakeFirst Crypto.sample "203.0.113.7:8333" sampleNode politePeer := by
  refine handshake_first_of_inert Crypto.sample "203.0.113.7:8333" sampleNode politePeer ?_
  have hrefused : Node.BlockRefused Crypto.sample sampleNow sampleNode.chain (idleBlock 1) := by
    have hcheck : sampleNode.chain.checkBlock Crypto.sample sampleNow (idleBlock 1) =
        .error (.unknownParent (idleBlock 1).header.prevHash) := by decide +kernel
    intro w hw
    cases hcheck.symm.trans hw
  intro pre clock msg hpre hshaken m hm
  rcases pre with _ | ⟨e₁, pre⟩
  · -- the refused block
    obtain ⟨hclock, hmsg⟩ := ConnEvent.receive.inj (List.cons_prefix_cons.mp hpre).1
    obtain rfl := Option.some.inj hm
    rw [hclock, hmsg]
    exact Or.inr (Or.inr hrefused)
  · have hrest := (List.cons_prefix_cons.mp hpre).2
    rcases pre with _ | ⟨e₂, pre⟩
    · -- the handshake itself
      obtain ⟨-, hmsg⟩ := ConnEvent.receive.inj (List.cons_prefix_cons.mp hrest).1
      rw [hmsg]
      exact Or.inr trivial
    · -- after it
      obtain rfl := (List.cons_prefix_cons.mp hrest).1
      refine absurd ⟨sampleClock, _, List.mem_cons_of_mem _ List.mem_cons_self, ?_⟩ hshaken
      exact ⟨rfl, rfl, by decide⟩

/-- **A peer that never introduces itself extends the chain**: the block is its first message. -/
theorem not_handshakeFirst_firstBlock :
    ¬ HandshakeFirst Crypto.sample "203.0.113.7:8333" sampleNode
      [.receive sampleClock (.blockMsg (idleBlock 0))] := by
  intro h
  have hshaken : ¬ Shaken sampleNode.networkMagic [] := by
    rintro ⟨clock, msg, hmem, -⟩
    cases hmem
  have hsame := (h [] sampleClock (.blockMsg (idleBlock 0)) List.prefix_rfl hshaken sampleNode rfl
    trivial).1
  have hgrown : (sampleNode.handleMessage Crypto.sample sampleClock "203.0.113.7:8333"
      (.blockMsg (idleBlock 0))).node.chain.blocks = [sampleGenesis, idleBlock 0] := by
    decide +kernel
  rw [hsame] at hgrown
  exact absurd (congrArg List.length hgrown) (by decide)

end Arkos
