import Arkos.Network.Sync

/-!
# A network of nodes

Nodes are linked by connections. At each end of a connection runs a `handle_peer`, which takes
messages in the order in which the other end sent them, and relays in the order in which the tasks
of its own node published them. The relays of a node go through a broadcast channel that keeps the
last 256 for each receiver: a `handle_peer` that falls behind loses the oldest, and does not notice.

A run of the network is a sequence of events in any order. Peers that are no part of the network may
send any message at any time.

Both ends of a new connection subscribe to the relays of their node in one event, and a message that
is sent on a connection whose other end has returned stays unread. Blocks submitted over RPC are not
relayed and no event here.

## Main definitions

* `Conn`, `Net`, `Net.Event`, `Net.step`, `Net.run`
* `Net.call` — the call of `add_block` an event makes
* `Net.recorded` — the blocks the nodes record

## Main results

* `Node.turn_cases` — what a turn does to the chain and gives to the relay
* `Net.chain_step` — what an event does to the chain of a node
-/

namespace Arkos

/-- The capacity of the channel behind `relay_tx`. -/
def relayCapacity : ℕ := 256

/-- One end of a connection. -/
structure Conn where
  /-- `handle_peer` has not returned. -/
  up : Bool
  /-- What the other end has sent and this end has not read. -/
  inbox : List Message
  /-- What `relay_rx` holds. -/
  relays : List RelayMessage
  /-- How many relays `relay_rx` has lost. -/
  missed : ℕ

namespace Conn

/-- No connection. -/
def closed : Conn := ⟨false, [], [], 0⟩

/-- A new connection, with the `Version` of the other end. -/
def opened (version : Message) : Conn := ⟨true, [version], [], 0⟩

/-- A relay is published. If the channel is full the oldest one makes room. -/
def push (c : Conn) (relay : RelayMessage) : Conn :=
  if c.relays.length < relayCapacity then { c with relays := c.relays ++ [relay] }
  else { c with relays := c.relays.tail ++ [relay], missed := c.missed + 1 }

/-- Relays are published, unless `handle_peer` has returned. -/
def publish (c : Conn) (relayed : List RelayMessage) : Conn :=
  if c.up then relayed.foldl push c else c

theorem up_push (c : Conn) (relay : RelayMessage) : (c.push relay).up = c.up := by
  rw [push]
  split <;> rfl

theorem inbox_push (c : Conn) (relay : RelayMessage) : (c.push relay).inbox = c.inbox := by
  rw [push]
  split <;> rfl

/-- Publishing leaves the rest of the connection alone. -/
theorem publish_frame (c : Conn) (relayed : List RelayMessage) :
    (c.publish relayed).up = c.up ∧ (c.publish relayed).inbox = c.inbox := by
  rw [publish]
  split
  · induction relayed generalizing c with
    | nil => exact ⟨rfl, rfl⟩
    | cons relay relayed ih =>
      obtain ⟨hup, hinbox⟩ := ih (c.push relay) (by rwa [up_push])
      exact ⟨hup.trans (c.up_push relay), hinbox.trans (c.inbox_push relay)⟩
  · exact ⟨rfl, rfl⟩

@[simp] theorem up_publish (c : Conn) (relayed : List RelayMessage) :
    (c.publish relayed).up = c.up := (c.publish_frame relayed).1

@[simp] theorem inbox_publish (c : Conn) (relayed : List RelayMessage) :
    (c.publish relayed).inbox = c.inbox := (c.publish_frame relayed).2

@[simp] theorem publish_nil (c : Conn) : c.publish [] = c := by
  rw [publish]
  split <;> rfl

/-- What waits after relays were published: they come last, and if none is lost nothing else
changes. -/
theorem publish_spec {c : Conn} (hup : c.up = true) (relayed : List RelayMessage) :
    (∀ r ∈ (c.publish relayed).relays, r ∈ c.relays ∨ r ∈ relayed) ∧
      c.missed ≤ (c.publish relayed).missed ∧
      ((c.publish relayed).missed = 0 → (c.publish relayed).relays = c.relays ++ relayed) := by
  rw [publish, if_pos hup]
  induction relayed generalizing c with
  | nil => exact ⟨fun r hr => Or.inl hr, le_rfl, fun _ => (List.append_nil _).symm⟩
  | cons relay relayed ih =>
    obtain ⟨hmem, hle, heq⟩ := ih (c := c.push relay) (by rwa [up_push])
    have hpush : (∀ r ∈ (c.push relay).relays, r ∈ c.relays ∨ r = relay) ∧
        c.missed ≤ (c.push relay).missed ∧
        ((c.push relay).missed = 0 → (c.push relay).relays = c.relays ++ [relay]) := by
      rw [push]
      split
      · refine ⟨fun r hr => ?_, le_rfl, fun _ => rfl⟩
        exact (List.mem_append.mp hr).imp_right List.mem_singleton.mp
      · refine ⟨fun r hr => ?_, Nat.le_succ _, fun h => absurd h (Nat.succ_ne_zero _)⟩
        exact (List.mem_append.mp hr).imp List.mem_of_mem_tail List.mem_singleton.mp
    obtain ⟨hmem', hle', heq'⟩ := hpush
    refine ⟨fun r hr => ?_, hle'.trans hle, fun hnone => ?_⟩
    · rcases hmem r hr with hr | hr
      · rcases hmem' r hr with hr | rfl
        · exact Or.inl hr
        · exact Or.inr List.mem_cons_self
      · exact Or.inr (List.mem_cons_of_mem _ hr)
    · rw [List.foldl_cons, heq hnone, heq' (Nat.le_zero.mp (hle.trans hnone.le)), List.append_assoc,
        List.singleton_append]

end Conn

/-! ### One turn -/

namespace Node

variable {C : Crypto} {clock : Clock} {addr : String}

/-- What is relayed after a call of `add_block`: the block, to everyone but the peer at `source`. -/
def announcement (source hash : String) : Except ChainError Unit → List RelayMessage
  | .ok () => [⟨source, .inv [⟨.block, hash⟩]⟩]
  | .error _ => []

/-- The block that a message makes the node call `add_block` with. -/
def call (clock : Clock) (addr : String) (n : Node) : Message → Option Block
  | .blockMsg block =>
    if n.mayMessage clock addr = true ∧ n.mayBlock clock addr = true then some block else none
  | _ => none

theorem call_eq_some_iff {n : Node} {msg : Message} {block : Block} :
    n.call clock addr msg = some block ↔ msg = .blockMsg block ∧
      n.mayMessage clock addr = true ∧ n.mayBlock clock addr = true := by
  cases msg with
  | blockMsg b =>
    rw [call]
    split
    · next h => simp [h]
    · next h => simp [h]
  | _ => simp [call]

/-- The relays of a turn are inventories of transactions, unless it adds a block. -/
def TxRelays (relayed : List RelayMessage) : Prop :=
  ∀ r ∈ relayed, ∃ txid, r.message = .inv [⟨.transaction, txid⟩]

/-- **What a turn does to the chain and gives to the relay.** It calls `add_block` and announces
what was accepted, or it leaves the blocks alone and announces none. -/
theorem turn_cases (C : Crypto) (clock : Clock) (addr : String) (n : Node) (msg : Message) :
    let turn := n.handleMessage C clock addr msg
    (∃ block, n.call clock addr msg = some block ∧ turn.result = .ok () ∧ turn.sent = [] ∧
      turn.node.chain = (n.chain.addBlock C clock.unix block).2 ∧
      turn.relayed = announcement addr (block.hashHex C) (n.chain.addBlock C clock.unix block).1) ∨
    (n.call clock addr msg = none ∧ TxRelays turn.relayed ∧
      (turn.node.chain = n.chain ∨
        ∃ tx, turn.node.chain = (n.chain.submitTransaction C tx).2)) := by
  have hchain : (n.handleMessage C clock addr msg).node.chain =
      if n.mayMessage clock addr then n.chainAfter C clock addr msg else n.chain :=
    chain_handleMessage n msg
  intro turn
  cases hmay : n.mayMessage clock addr with
  | false =>
    have hturn : turn = (n.countMessage clock addr).bail .messageRate := by
      show n.handleMessage C clock addr msg = _
      rw [handleMessage, hmay]
      rfl
    refine Or.inr ⟨?_, ?_, Or.inl ?_⟩
    · rw [Option.eq_none_iff_forall_ne_some]
      intro block hcall
      cases hmay.symm.trans (call_eq_some_iff.mp hcall).2.1
    · rw [hturn]
      exact fun r hr => absurd hr List.not_mem_nil
    · rw [hturn]
      rfl
  | true =>
    have hturn : turn = (n.countMessage clock addr).dispatch C clock addr msg :=
      handleMessage_of_may hmay msg
    rw [hmay, if_pos rfl] at hchain
    cases msg with
    | blockMsg block =>
      have hsame : (n.countMessage clock addr).mayBlock clock addr = n.mayBlock clock addr := rfl
      cases hblock : n.mayBlock clock addr with
      | false =>
        rw [dispatch, handleBlock, hsame, hblock, if_pos rfl] at hturn
        refine Or.inr ⟨by simp [call, hblock], ?_, Or.inl ?_⟩
        · rw [hturn]
          exact fun r hr => absurd hr List.not_mem_nil
        · rw [hturn]
          rfl
      | true =>
        rw [dispatch, handleBlock, hsame, hblock, if_neg (by simp)] at hturn
        refine Or.inl ⟨block, by simp [call, hmay, hblock], ?_, ?_, ?_, ?_⟩
        · rw [hturn]
        · rw [hturn]
        · rw [hturn]
          rfl
        · rw [hturn]
          show (match (n.chain.addBlock C clock.unix block).1 with
            | .ok () => _
            | .error _ => _) = _
          cases (n.chain.addBlock C clock.unix block).1 <;> rfl
    | txMsg tx =>
      refine Or.inr ⟨rfl, ?_, ?_⟩
      · rw [hturn, dispatch, handleTx]
        intro r hr
        split at hr
        · exact absurd hr List.not_mem_nil
        · dsimp only at hr
          split at hr
          · obtain rfl := List.mem_singleton.mp hr
            exact ⟨_, rfl⟩
          · exact absurd hr List.not_mem_nil
      · rw [show turn.node.chain = _ from hchain, chainAfter]
        split
        · exact Or.inr ⟨tx, rfl⟩
        · exact Or.inl rfl
    | _ =>
      refine Or.inr ⟨rfl, ?_, Or.inl hchain⟩
      rw [hturn]
      intro r hr
      simp only [dispatch, handleVersion, handleGetHeaders, handleHeaders, handleGetBlocks,
        handleInv, handleGetData, handleAddr] at hr
      repeat' split at hr
      all_goals exact absurd hr List.not_mem_nil

/-- `Node::mine_block_and_relay`: what it relays. -/
def minedRelays (C : Crypto) (fuel now now' : ℕ) (order : List (String × Transaction))
    (minerAddress : String) (n : Node) : List RelayMessage :=
  match n.chain.mineBlock C fuel now order minerAddress with
  | none => []
  | some block => announcement "" (block.hashHex C) (n.chain.addBlock C now' block).1

end Node

/-! ### The network -/

/-- The nodes, and their ends of the connections between them. -/
structure Net (ι : Type) where
  node : ι → Node
  /-- `conn i j` is the end that `i` holds of its connection with `j`. -/
  conn : ι → ι → Conn

namespace Net

variable {ι : Type} [DecidableEq ι]

/-- What may happen next. -/
inductive Event (ι : Type) where
  /-- A connection is opened; each end has sent its `Version` with the height it read before. -/
  | link (i j : ι) (heightI heightJ : ℕ)
  /-- `handle_peer` of `i` for `j` returns, or is cut off. -/
  | hangUp (i j : ι)
  /-- A turn of `handle_peer` of `i` for `j`: it reads a message. -/
  | read (i j : ι) (clock : Clock)
  /-- A turn of `handle_peer` of `i` for `j`: it takes a relay. -/
  | forward (i j : ι)
  /-- A turn of a `handle_peer` of `i` for a peer outside the network. -/
  | outside (i : ι) (clock : Clock) (addr : String) (msg : Message)
  /-- `mine_block_and_relay`. -/
  | mine (i : ι) (fuel now now' : ℕ) (order : List (String × Transaction)) (minerAddress : String)
  /-- Another task of `i` works on its peer store and limiters. -/
  | task (i : ι) (e : Node.Event)

/-- A network in which every node has just been created, and none is connected. -/
def start (node : ι → Node) : Net ι := ⟨node, fun _ _ => .closed⟩

/-- The two ends of a connection are replaced, the one `i` holds and the one `j` holds. -/
def setEnds (conn : ι → ι → Conn) (i j : ι) (c c' : Conn) : ι → ι → Conn :=
  fun a b => if a = i ∧ b = j then c else if a = j ∧ b = i then c' else conn a b

/-- The relays of `i` are published at all its connections. -/
def publish (conn : ι → ι → Conn) (i : ι) (relayed : List RelayMessage) : ι → ι → Conn :=
  fun a b => if a = i then (conn a b).publish relayed else conn a b

/-- The `Version` a node sends when it read the given height. -/
def version (n : Node) (height : ℕ) : Message :=
  .version protocolVersion n.networkMagic height "arkos/0.1"

section

variable (C : Crypto) (addr : ι → ι → String)

/-- The network after `i` has read the message `msg` of `j`, with `rest` still to read. -/
def afterRead (net : Net ι) (i j : ι) (clock : Clock) (msg : Message) (rest : List Message) :
    Net ι :=
  let turn := (net.node i).handleMessage C clock (addr i j) msg
  { node := Function.update net.node i turn.node
    conn := publish (setEnds net.conn i j
      { net.conn i j with up := turn.result.isOk, inbox := rest }
      { net.conn j i with inbox := (net.conn j i).inbox ++ turn.sent }) i turn.relayed }

/-- The network after `i` has taken the relay `relay`, with `rest` still to take. -/
def afterForward (net : Net ι) (i j : ι) (relay : RelayMessage)
    (rest : List RelayMessage) : Net ι :=
  { net with
    conn := setEnds net.conn i j { net.conn i j with relays := rest }
      { net.conn j i with
        inbox := (net.conn j i).inbox ++
          if relay.source = addr i j then [] else [relay.message] } }

/-- The network after an event. The address `addr i j` is the one `i` sees `j` at. -/
def step (net : Net ι) : Event ι → Net ι
  | .link i j heightI heightJ =>
    if i ≠ j ∧ (net.conn i j).up = false ∧ (net.conn j i).up = false then
      { net with
        conn := setEnds net.conn i j (.opened (version (net.node j) heightJ))
          (.opened (version (net.node i) heightI)) }
    else net
  | .hangUp i j =>
    { net with conn := setEnds net.conn i j { net.conn i j with up := false } (net.conn j i) }
  | .read i j clock =>
    match (net.conn i j).up, (net.conn i j).inbox with
    | true, msg :: rest => net.afterRead C addr i j clock msg rest
    | _, _ => net
  | .forward i j =>
    match (net.conn i j).up, (net.conn i j).relays with
    | true, relay :: rest => net.afterForward addr i j relay rest
    | _, _ => net
  | .outside i clock source msg =>
    let turn := (net.node i).handleMessage C clock source msg
    { node := Function.update net.node i turn.node
      conn := publish net.conn i turn.relayed }
  | .mine i fuel now now' order minerAddress =>
    { node := Function.update net.node i
        ((net.node i).mineBlockAndRelay C fuel now now' order minerAddress)
      conn := publish net.conn i ((net.node i).minedRelays C fuel now now' order minerAddress) }
  | .task i e =>
    match e with
    | .message _ _ _ => net
    | .mine _ _ _ _ _ => net
    | e => { net with node := Function.update net.node i ((net.node i).step C e) }

/-- The network after a sequence of events. -/
def run (net : Net ι) (evs : List (Event ι)) : Net ι := evs.foldl (step C addr) net

/-- The call of `add_block` an event makes: the node, the time and the block. -/
def call (net : Net ι) : Event ι → Option (ι × ℕ × Block)
  | .read i j clock =>
    match (net.conn i j).up, (net.conn i j).inbox with
    | true, msg :: _ =>
      ((net.node i).call clock (addr i j) msg).map fun block => (i, clock.unix, block)
    | _, _ => none
  | .outside i clock source msg =>
    ((net.node i).call clock source msg).map fun block => (i, clock.unix, block)
  | .mine i fuel now now' order minerAddress =>
    ((net.node i).chain.mineBlock C fuel now order minerAddress).map fun block => (i, now', block)
  | _ => none

/-- The blocks an event makes a node record. -/
def recordedBy (net : Net ι) (e : Event ι) : List Block :=
  match net.call C addr e with
  | none => []
  | some (i, now, block) => (net.node i).chain.recordedBy C (.addBlock now block)

/-- The blocks a run makes the nodes record. -/
def recorded : Net ι → List (Event ι) → List Block
  | _, [] => []
  | net, e :: evs => net.recordedBy C addr e ++ recorded (net.step C addr e) evs

end

variable {C : Crypto} {addr : ι → ι → String} {net : Net ι}

omit [DecidableEq ι] in
theorem recordedBy_of_call {e : Event ι} {i : ι} {now : ℕ} {b : Block}
    (hcall : net.call C addr e = some (i, now, b)) :
    net.recordedBy C addr e = (net.node i).chain.recordedBy C (.addBlock now b) := by
  rw [recordedBy, hcall]

/-! ### What an event does to the chains -/

/-- The blocks of a chain are left alone. -/
def SameBlocks (C : Crypto) (s s' : Blockchain) : Prop :=
  s' = s ∨ ∃ tx, s' = (s.submitTransaction C tx).2

/-- **What an event does to the chain of a node**: it is the chain after the call the event makes,
if it makes one on this node, and otherwise no block comes or goes. -/
theorem chain_step (C : Crypto) (addr : ι → ι → String) (net : Net ι) (e : Event ι) (a : ι) :
    (∃ now b, net.call C addr e = some (a, now, b) ∧
      ((net.step C addr e).node a).chain = ((net.node a).chain.addBlock C now b).2) ∨
    ((∀ now b, net.call C addr e ≠ some (a, now, b)) ∧
      SameBlocks C (net.node a).chain ((net.step C addr e).node a).chain) := by
  -- a turn of `i` for a message
  have hturn : ∀ (i : ι) (clock : Clock) (source : String) (msg : Message),
      let n := Function.update net.node i ((net.node i).handleMessage C clock source msg).node
      let call := ((net.node i).call clock source msg).map fun block => (i, clock.unix, block)
      (∃ now b, call = some (a, now, b) ∧ (n a).chain = ((net.node a).chain.addBlock C now b).2) ∨
      ((∀ now b, call ≠ some (a, now, b)) ∧ SameBlocks C (net.node a).chain (n a).chain) := by
    intro i clock source msg n call
    by_cases ha : a = i
    · subst ha
      have hn : n a = ((net.node a).handleMessage C clock source msg).node :=
        Function.update_self ..
      rw [hn]
      rcases Node.turn_cases C clock source (net.node a) msg with
        ⟨block, hcall, -, -, hchain, -⟩ | ⟨hnone, -, hsame⟩
      · exact Or.inl ⟨clock.unix, block, by simp [call, hcall], hchain⟩
      · exact Or.inr ⟨by simp [call, hnone], hsame⟩
    · have hn : n a = net.node a := Function.update_of_ne ha ..
      rw [hn]
      refine Or.inr ⟨fun now b hcall => ?_, Or.inl rfl⟩
      obtain ⟨block, -, heq⟩ := Option.map_eq_some_iff.mp hcall
      exact ha (congrArg Prod.fst heq).symm
  cases e with
  | link i j heightI heightJ =>
    refine Or.inr ⟨fun _ _ hcall => (by cases hcall), Or.inl ?_⟩
    rw [step]
    split <;> rfl
  | hangUp i j => exact Or.inr ⟨fun _ _ hcall => (by cases hcall), Or.inl rfl⟩
  | read i j clock =>
    rw [step, call]
    cases (net.conn i j).up with
    | false => exact Or.inr ⟨fun _ _ hcall => (by cases hcall), Or.inl rfl⟩
    | true =>
      cases (net.conn i j).inbox with
      | nil => exact Or.inr ⟨fun _ _ hcall => (by cases hcall), Or.inl rfl⟩
      | cons msg rest => exact hturn i clock (addr i j) msg
  | forward i j =>
    refine Or.inr ⟨fun _ _ hcall => (by cases hcall), Or.inl ?_⟩
    rw [step]
    split <;> rfl
  | outside i clock source msg => exact hturn i clock source msg
  | mine i fuel now now' order minerAddress =>
    rw [step, call]
    dsimp only
    by_cases ha : a = i
    · subst ha
      rw [Function.update_self, Node.mineBlockAndRelay]
      cases (net.node a).chain.mineBlock C fuel now order minerAddress with
      | none => exact Or.inr ⟨fun _ _ hcall => (by cases hcall), Or.inl rfl⟩
      | some block => exact Or.inl ⟨now', block, rfl, rfl⟩
    · rw [Function.update_of_ne ha]
      refine Or.inr ⟨fun now b hcall => ?_, Or.inl rfl⟩
      obtain ⟨block, -, heq⟩ := Option.map_eq_some_iff.mp hcall
      exact ha (congrArg Prod.fst heq).symm
  | task i e =>
    refine Or.inr ⟨fun _ _ hcall => (by cases hcall), Or.inl ?_⟩
    cases e with
    | message _ _ _ => rfl
    | mine _ _ _ _ _ => rfl
    | _ =>
      by_cases ha : a = i
      · subst ha
        simp only [step, Function.update_self, Node.step, Node.accept, Node.connectToPeer]
        repeat' split
        all_goals rfl
      · simp only [step, Function.update_of_ne ha]

end Net

end Arkos
