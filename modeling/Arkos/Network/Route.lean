import Arkos.Lib.Causal
import Arkos.Blockchain.Handover
import Arkos.Network.Gossip

/-!
# How blocks travel over a connection

A block goes from one node to the next in three stages: it is announced in an inventory, requested,
and sent. On its way it is therefore in one of four places: among the relays of the node that has
it, in an inventory the other end has not read, in a request this end has not read, or in a block
message the other end has not read. `route` lists the hashes on their way in the order in which they
arrive. A turn of either end moves hashes from one stage to the next, and neither reorders nor drops
any that the other end lacks.

## Main definitions

* `route` — the hashes on their way
* `Honest` — what a node sends about the blocks it has
* `needs` — a block needs its parent

## Main results

* `feed_read` — the receiving end takes a turn
* `feed_answer` — the sending end takes a turn
* `feed_publish` — the sending end announces
-/

namespace Arkos

/-! ### Stages -/

/-- The hashes of the blocks among the items. -/
def blockHashes (items : List InvItem) : List String :=
  (items.filter fun item => decide (item.kind = .block)).map InvItem.hash

namespace Message

/-- The hashes of the blocks a message brings. -/
def delivers (C : Crypto) : Message → List String
  | .blockMsg block => [block.hashHex C]
  | _ => []

/-- The hashes of the blocks a message asks for. -/
def requests : Message → List String
  | .getData items => blockHashes items
  | _ => []

/-- The hashes of the blocks a message announces. -/
def announces : Message → List String
  | .inv items => blockHashes items
  | _ => []

end Message

/-- The hashes of the blocks that a relay will announce to the peer at `addr`. -/
def RelayMessage.announcesTo (addr : String) (relay : RelayMessage) : List String :=
  if relay.source = addr then [] else relay.message.announces

/-- **The hashes on their way**, the next to arrive first: what the receiver has not read, what the
sender has not read, and what the sender has not passed on to the peer it sees at `addr`. -/
def route (C : Crypto) (addr : String) (toReceiver toSender : List Message)
    (relays : List RelayMessage) : List String :=
  toReceiver.flatMap (Message.delivers C) ++ (toSender.flatMap Message.requests ++
    (toReceiver.flatMap Message.announces ++ relays.flatMap (RelayMessage.announcesTo addr)))

/-- The hashes of the blocks a node has stored. -/
def Blockchain.known (s : Blockchain) : Set String := {h | h ∈ s.allBlocks}

/-- A block needs its parent. -/
def needs (C : Crypto) (all : List Block) (h : String) : Set String :=
  {p | ∃ b ∈ all, b.hashHex C = h ∧ b.header.prevHash = p}

/-- What a node sends about blocks it has. -/
def Honest (C : Crypto) (s : Blockchain) : Message → Prop
  | .blockMsg block => s.allBlocks.lookup (block.hashHex C) = some block
  | .headers headers => ∀ h ∈ headers, ∃ b : Block, s.allBlocks.lookup (h.hashHex C) = some b ∧
      b.header = h
  | .getBlocks _ => False
  | _ => True

theorem blockHashes_append (items items' : List InvItem) :
    blockHashes (items ++ items') = blockHashes items ++ blockHashes items' := by
  rw [blockHashes, List.filter_append, List.map_append]
  rfl

variable {C : Crypto} {g : Block} {magic : UInt32} {all : List Block} {latest : ℕ}

theorem Honest.mono {s s' : Blockchain}
    (hkept : ∀ h x, s.allBlocks.lookup h = some x → s'.allBlocks.lookup h = some x) {msg : Message}
    (h : Honest C s msg) : Honest C s' msg := by
  cases msg with
  | blockMsg block => exact hkept _ _ h
  | headers headers =>
    intro x hx
    obtain ⟨b, hb, heq⟩ := h x hx
    exact ⟨b, hkept _ _ hb, heq⟩
  | _ => exact h

/-! ### What a turn sends -/

namespace Node

variable {clock : Clock} {addr : String} {n : Node} {msg : Message}

/-- The chunks of a list, one after the other, are the list. -/
theorem flatten_chunks {α : Type} {size : ℕ} (hsize : 0 < size) (l : List α) :
    (chunks size l).flatten = l := by
  have htake : ∀ m, ((List.range m).map fun i => (l.drop (i * size)).take size).flatten =
      l.take (m * size) := by
    intro m
    induction m with
    | zero => simp
    | succ m ih =>
      rw [List.range_succ, List.map_append, List.flatten_append, ih, List.map_singleton,
        List.flatten_singleton, Nat.succ_mul, List.take_add]
  rw [chunks, htake, List.take_of_length_le]
  have hdiv := Nat.div_add_mod (l.length + size - 1) size
  have hmod := Nat.mod_lt (l.length + size - 1) hsize
  rw [Nat.mul_comm] at hdiv
  omega

/-- A turn that goes on has come through the limiter for messages. -/
theorem handleMessage_of_ok (hok : (n.handleMessage C clock addr msg).result = .ok ()) :
    n.handleMessage C clock addr msg = (n.countMessage clock addr).dispatch C clock addr msg ∧
      ∀ block, msg = .blockMsg block → n.call clock addr msg = some block := by
  cases hmay : n.mayMessage clock addr with
  | false =>
    rw [handleMessage, hmay] at hok
    cases hok
  | true =>
    have hturn := handleMessage_of_may (C := C) hmay msg
    refine ⟨hturn, ?_⟩
    rintro block rfl
    have hsame : (n.countMessage clock addr).mayBlock clock addr = n.mayBlock clock addr := rfl
    cases hblock : n.mayBlock clock addr with
    | false =>
      rw [hturn, dispatch, handleBlock, hsame, hblock, if_pos rfl] at hok
      cases hok
    | true => exact call_eq_some_iff.mpr ⟨rfl, hmay, hblock⟩

/-- Messages that may be met with silence. -/
def Idle : Message → Prop
  | .headers _ | .inv _ | .getData _ => False
  | _ => True

/-- **What a turn that goes on sends**, for each message. -/
inductive Replies (C : Crypto) (s : Blockchain) : Message → List Message → Prop
  | silent {m : Message} : Idle m → Replies C s m []
  | current {version networkMagic : UInt32} {height : ℕ} {agent : String} :
      Replies C s (.version version networkMagic height agent) [.verack]
  | behind {version networkMagic : UInt32} {height : ℕ} {agent : String} (locator : List String) :
      Replies C s (.version version networkMagic height agent) [.verack, .getHeaders locator]
  | batch {locator headers} : (∀ h ∈ headers, ∃ b ∈ s.blocks, b.header = h) →
      Replies C s (.getHeaders locator) [.headers headers]
  | inventory {locator} (items : List InvItem) : Replies C s (.getBlocks locator) [.inv items]
  | fetch (headers : List BlockHeader) : Replies C s (.headers headers)
      ((chunks maxGetdataInflight (toFetch C s none headers)).map .getData)
  | nothing {items} : items.filter (isNeeded s) = [] → Replies C s (.inv items) []
  | request (items : List InvItem) : Replies C s (.inv items) [.getData (items.filter (isNeeded s))]
  | answers (items : List InvItem) : Replies C s (.getData items) (items.filterMap (answer s))
  | pong (nonce : UInt64) : Replies C s (.ping nonce) [.pong nonce]

theorem replies_of_ok (hok : (n.handleMessage C clock addr msg).result = .ok ()) :
    Replies C n.chain msg (n.handleMessage C clock addr msg).sent := by
  obtain ⟨hturn, -⟩ := handleMessage_of_ok hok
  rw [hturn] at hok ⊢
  cases msg with
  | version version networkMagic bestHeight userAgent =>
    rw [dispatch, handleVersion] at hok ⊢
    split_ifs at hok ⊢
    · cases hok
    · cases hok
    · cases hok
    · exact .behind _
    · exact .current
  | verack => exact .silent trivial
  | getHeaders locatorHashes =>
    rw [dispatch, handleGetHeaders]
    split_ifs
    · exact .silent trivial
    · refine .batch fun h hh => ?_
      obtain ⟨b, hb, rfl⟩ := List.mem_map.mp hh
      exact ⟨b, List.mem_of_mem_drop (List.mem_of_mem_take hb), rfl⟩
  | headers headers => exact .fetch headers
  | getBlocks locatorHashes =>
    rw [dispatch, handleGetBlocks] at hok ⊢
    dsimp only at hok ⊢
    split_ifs at hok ⊢
    · cases hok
    · exact .silent trivial
    · exact .inventory _
  | inv items =>
    rw [dispatch, handleInv]
    split_ifs with hnone
    · exact .nothing hnone
    · exact .request items
  | getData items => exact .answers items
  | blockMsg block =>
    rw [dispatch, handleBlock]
    dsimp only
    split_ifs <;> exact .silent trivial
  | txMsg tx =>
    rw [dispatch, handleTx]
    dsimp only
    split_ifs <;> exact .silent trivial
  | addr addrs =>
    rw [dispatch, handleAddr]
    split_ifs <;> exact .silent trivial
  | ping nonce => exact .pong nonce
  | pong nonce => exact .silent trivial

section

variable {s : Blockchain} {sent : List Message}

/-- An honest node replies honestly. -/
theorem honest_of_replies (hkeyed : s.KeyedByHash C)
    (hstored : ∀ b ∈ s.blocks, s.allBlocks.lookup (b.hashHex C) = some b)
    (h : Replies C s msg sent) : ∀ m ∈ sent, Honest C s m := by
  intro m hm
  cases h with
  | silent _ => cases hm
  | batch hactive =>
    obtain rfl := List.mem_singleton.mp hm
    intro x hx
    obtain ⟨b, hb, rfl⟩ := hactive x hx
    exact ⟨b, hstored b hb, rfl⟩
  | fetch headers =>
    obtain ⟨items, -, rfl⟩ := List.mem_map.mp hm
    trivial
  | nothing _ => cases hm
  | answers items =>
    obtain ⟨⟨kind, hash⟩, -, hanswer⟩ := List.mem_filterMap.mp hm
    cases kind with
    | block =>
      obtain ⟨b, hb, rfl⟩ := Option.map_eq_some_iff.mp hanswer
      show s.allBlocks.lookup (b.hashHex C) = some b
      rwa [hkeyed hash b hb]
    | transaction =>
      obtain ⟨tx, -, rfl⟩ := Option.map_eq_some_iff.mp hanswer
      trivial
  | behind locator =>
    rcases List.mem_pair.mp hm with rfl | rfl
    · trivial
    · trivial
  | _ =>
    obtain rfl := List.mem_singleton.mp hm
    trivial

/-- Blocks are sent as answers. -/
theorem delivers_of_replies (h : Replies C s msg sent) :
    sent.flatMap (Message.delivers C) =
      match msg with
      | .getData items => (items.filterMap (answer s)).flatMap (Message.delivers C)
      | _ => [] := by
  cases h with
  | silent hidle => cases msg <;> first | rfl | exact hidle.elim
  | fetch headers =>
    rw [List.flatMap_map, List.flatMap_eq_nil_iff]
    exact fun _ _ => rfl
  | _ => rfl

/-- Blocks are announced as inventories, and only when they are asked for. -/
theorem announces_of_replies (h : Replies C s msg sent)
    (hmsg : ∀ locator, msg ≠ .getBlocks locator) : sent.flatMap Message.announces = [] := by
  cases h with
  | fetch headers =>
    rw [List.flatMap_map, List.flatMap_eq_nil_iff]
    exact fun _ _ => rfl
  | answers items =>
    rw [List.flatMap_eq_nil_iff]
    intro x hx
    obtain ⟨⟨kind, hash⟩, -, hanswer⟩ := List.mem_filterMap.mp hx
    cases kind with
    | block =>
      obtain ⟨b, -, rfl⟩ := Option.map_eq_some_iff.mp hanswer
      rfl
    | transaction =>
      obtain ⟨tx, -, rfl⟩ := Option.map_eq_some_iff.mp hanswer
      rfl
  | inventory items => exact absurd rfl (hmsg _)
  | _ => rfl

/-- Blocks are requested when headers or an inventory name them. -/
theorem requests_of_replies (h : Replies C s msg sent) :
    sent.flatMap Message.requests =
      match msg with
      | .headers headers => blockHashes (toFetch C s none headers)
      | .inv items => blockHashes (items.filter (isNeeded s))
      | _ => [] := by
  cases h with
  | silent hidle => cases msg <;> first | rfl | exact hidle.elim
  | fetch headers =>
    have hflatten : ∀ ls : List (List InvItem), (ls.map Message.getData).flatMap Message.requests =
        blockHashes ls.flatten := by
      intro ls
      induction ls with
      | nil => rfl
      | cons l ls ih =>
        rw [List.map_cons, List.flatMap_cons, ih, List.flatten_cons, blockHashes_append]
        rfl
    rw [hflatten, flatten_chunks (by decide)]
  | nothing hnone =>
    show _ = blockHashes _
    rw [hnone]
    rfl
  | request items => exact List.append_nil _
  | answers items =>
    rw [List.flatMap_eq_nil_iff]
    intro x hx
    obtain ⟨⟨kind, hash⟩, -, hanswer⟩ := List.mem_filterMap.mp hx
    cases kind with
    | block =>
      obtain ⟨b, -, rfl⟩ := Option.map_eq_some_iff.mp hanswer
      rfl
    | transaction =>
      obtain ⟨tx, -, rfl⟩ := Option.map_eq_some_iff.mp hanswer
      rfl
  | _ => rfl

/-- What is asked for and there is sent, in the order of the request. -/
theorem delivers_answers (hkeyed : s.KeyedByHash C) {items : List InvItem}
    (hknown : ∀ h ∈ blockHashes items, h ∈ s.allBlocks) :
    (items.filterMap (answer s)).flatMap (Message.delivers C) = blockHashes items := by
  induction items with
  | nil => rfl
  | cons item items ih =>
    obtain ⟨kind, hash⟩ := item
    cases kind with
    | block =>
      have hitems := ih fun h hh => hknown h (List.mem_cons_of_mem _ hh)
      obtain ⟨b, hb⟩ := Finmap.mem_iff.mp (hknown hash List.mem_cons_self)
      rw [List.filterMap_cons_some (by rw [answer_block, hb]; rfl), List.flatMap_cons, hitems]
      show [b.hashHex C] ++ _ = hash :: blockHashes items
      rw [hkeyed hash b hb]
      rfl
    | transaction =>
      have hitems := ih hknown
      cases htx : answer s ⟨.transaction, hash⟩ with
      | none =>
        rw [List.filterMap_cons_none htx, hitems]
        rfl
      | some m =>
        obtain ⟨tx, -, rfl⟩ := Option.map_eq_some_iff.mp htx
        rw [List.filterMap_cons_some htx, List.flatMap_cons, hitems]
        rfl

/-- The items that are needed are those that are not known. -/
theorem blockHashes_needed (s : Blockchain) (items : List InvItem) :
    blockHashes (items.filter (isNeeded s)) =
      (blockHashes items).filter fun h => decide (h ∉ s.allBlocks) := by
  induction items with
  | nil => rfl
  | cons item items ih =>
    obtain ⟨kind, hash⟩ := item
    cases kind with
    | block =>
      rw [List.filter_cons]
      show blockHashes (if decide (hash ∉ s.allBlocks) = true then _ else _) =
        (hash :: blockHashes items).filter _
      rw [List.filter_cons]
      split
      · exact congrArg (hash :: ·) ih
      · exact ih
    | transaction =>
      rw [List.filter_cons]
      split
      · exact ih
      · exact ih

end

end Node

/-! ### What a turn does to a route -/

variable {addr : String} {S R : Set String} {toReceiver toSender rest sent : List Message}
  {relays : List RelayMessage} {msg : Message} {s s' : Blockchain}

/-- Headers of blocks the sender has are requested in an order in which the blocks can be used. -/
theorem ordered_toFetch {src : Blockchain} (hsep : Separated C all)
    (hown : ∀ h b, src.allBlocks.lookup h = some b → b.hashHex C = h ∧ b ∈ all)
    {headers : List BlockHeader} (hhonest : Honest C src (.headers headers)) (hknown : s.known ⊆ R)
    {prev : Option String} (hprev : ∀ p, prev = some p → p ∈ R) :
    Causal.Ordered (needs C all) R (blockHashes (Node.toFetch C s prev headers)) := by
  classical
  induction headers generalizing prev R with
  | nil => trivial
  | cons x headers ih =>
    rw [Node.toFetch_cons]
    split
    · next hok =>
      have hhash : x.hashHex C ∈ R ∨ needs C all (x.hashHex C) ⊆ R := by
        refine Or.inr ?_
        rintro p ⟨b, hb, hbhash, rfl⟩
        obtain ⟨b', hb', rfl⟩ := hhonest x List.mem_cons_self
        obtain rfl := hsep b hb b' (hown _ b' hb').2 hbhash
        cases prev with
        | none => exact hknown hok.1
        | some p =>
          rw [show b.header.prevHash = p from hok.1]
          exact hprev p rfl
      have hrest : ∀ {R' : Set String}, s.known ⊆ R' → x.hashHex C ∈ R' →
          Causal.Ordered (needs C all) R'
            (blockHashes (Node.toFetch C s (some (x.hashHex C)) headers)) :=
        fun hsub hx => ih (fun h hh => hhonest h (List.mem_cons_of_mem _ hh)) hsub
          fun p hp => Option.some.inj hp ▸ hx
      rw [blockHashes_append]
      split
      · next hmem => exact hrest hknown (hknown hmem)
      · exact ⟨hhash, hrest (hknown.trans (Set.subset_insert _ _)) (Set.mem_insert _ _)⟩
    · trivial

/-- What is requested when headers arrive are hashes of these headers. -/
theorem mem_blockHashes_toFetch {prev : Option String} {headers : List BlockHeader} {h : String}
    (hmem : h ∈ blockHashes (Node.toFetch C s prev headers)) : ∃ x ∈ headers, x.hashHex C = h := by
  obtain ⟨item, hitem, rfl⟩ := List.mem_map.mp hmem
  obtain ⟨pre, x, hpre, -, -, rfl⟩ := Node.mem_toFetch.mp (List.mem_filter.mp hitem).1
  exact ⟨x, hpre.subset (List.mem_append_right _ List.mem_cons_self), rfl⟩

/-- **The receiving end takes a turn.** What it reads leaves the route, an inventory it answers with
a request moves on, and headers put new requests on it. -/
theorem feed_read {src : Blockchain} (hsep : Separated C all)
    (hown : ∀ h b, src.allBlocks.lookup h = some b → b.hashHex C = h ∧ b ∈ all)
    (hhonest : Honest C src msg) (hreplies : Node.Replies C s msg sent)
    (hsub : s.known ⊆ s'.known) (hblock : ∀ h ∈ msg.delivers C, h ∈ s'.known)
    (hfeed : Causal.Feed (needs C all) src.known s.known
      (route C addr (msg :: rest) toSender relays)) :
    Causal.Feed (needs C all) src.known s'.known
      (route C addr rest (toSender ++ sent) relays) := by
  rw [route, List.flatMap_append, Node.requests_of_replies hreplies]
  cases msg with
  | blockMsg block =>
    rw [List.append_nil]
    exact hfeed.deliver hsub (hblock _ List.mem_cons_self)
  | inv items =>
    have hroute : route C addr (.inv items :: rest) toSender relays =
        rest.flatMap (Message.delivers C) ++ toSender.flatMap Message.requests ++
          (blockHashes items ++ (rest.flatMap Message.announces ++
            relays.flatMap (RelayMessage.announcesTo addr))) := by
      simp [route, Message.delivers, Message.announces]
    rw [hroute] at hfeed
    have hskip := hfeed.skip (p := fun h => decide (h ∉ s.allBlocks)) fun h _ hp => ?_
    · rw [← Node.blockHashes_needed] at hskip
      simpa only [List.append_assoc] using hskip.receive hsub
    · show h ∈ s.allBlocks
      simpa using hp
  | headers headers =>
    have hroute : route C addr (.headers headers :: rest) toSender relays =
        rest.flatMap (Message.delivers C) ++ toSender.flatMap Message.requests ++
          (rest.flatMap Message.announces ++ relays.flatMap (RelayMessage.announcesTo addr)) := by
      simp [route, Message.delivers, Message.announces]
    rw [hroute] at hfeed
    have hinsert := hfeed.insertion (m := blockHashes (Node.toFetch C s none headers))
      (fun h hh => ?_)
      (ordered_toFetch hsep hown hhonest Set.subset_union_left fun p hp => by cases hp)
    · simpa only [List.append_assoc] using hinsert.receive hsub
    · obtain ⟨x, hx, rfl⟩ := mem_blockHashes_toFetch hh
      obtain ⟨b, hb, -⟩ := hhonest x hx
      exact Finmap.mem_of_lookup hb
  | _ =>
    rw [List.append_nil]
    exact hfeed.receive hsub

/-- **The sending end takes a turn.** What it is asked for it sends. -/
theorem feed_answer (hkeyed : s.KeyedByHash C) (hmsg : ∀ locator, msg ≠ .getBlocks locator)
    (hreplies : Node.Replies C s msg sent) (hsub : S ⊆ s.known)
    (hfeed : Causal.Feed (needs C all) S R (route C addr toReceiver (msg :: rest) relays)) :
    Causal.Feed (needs C all) S R (route C addr (toReceiver ++ sent) rest relays) := by
  have hdelivers : sent.flatMap (Message.delivers C) = msg.requests := by
    rw [Node.delivers_of_replies hreplies]
    cases msg with
    | getData items =>
      refine Node.delivers_answers hkeyed fun h hh => hsub (hfeed.sound h ?_)
      exact List.mem_append_right _ (List.mem_append_left _ (List.mem_append_left _ hh))
    | _ => rfl
  have hroute : route C addr (toReceiver ++ sent) rest relays =
      route C addr toReceiver (msg :: rest) relays := by
    rw [route, List.flatMap_append, List.flatMap_append, hdelivers,
      Node.announces_of_replies hreplies hmsg, route, List.flatMap_cons]
    simp only [List.append_assoc, List.nil_append]
  rwa [hroute]

/-- What a node that lost nothing takes in and relays: transactions, or one block. -/
inductive TakesIn (C : Crypto) (all : List Block) (source : String) (s s' : Blockchain) :
    List RelayMessage → Prop
  | nothing {relayed} : Node.TxRelays relayed → s'.known = s.known →
    TakesIn C all source s s' relayed
  | block (hash : String) : s.known ⊆ s'.known → hash ∈ s'.known →
      (∀ h ∈ s'.known, h ∈ s.known ∨ h = hash) → (hash ∈ s.known ∨ needs C all hash ⊆ s.known) →
      TakesIn C all source s s' [⟨source, .inv [⟨.block, hash⟩]⟩]

/-- What is announced are inventories. -/
theorem TakesIn.invs {source : String} {relayed : List RelayMessage}
    (h : TakesIn C all source s s' relayed) : ∀ r ∈ relayed, ∃ items, r.message = .inv items := by
  intro r hr
  cases h with
  | nothing htx _ =>
    obtain ⟨txid, hmsg⟩ := htx r hr
    exact ⟨_, hmsg⟩
  | block _ _ _ _ _ =>
    obtain rfl := List.mem_singleton.mp hr
    exact ⟨_, rfl⟩

/-- What a call of `add_block` takes in. -/
theorem takesIn_addBlock {now : ℕ} (hg : g.height = 0) (hsep : Separated C all)
    (hs : s.Grown C magic g all latest) {b : Block} (source : String)
    (hrecorded : ∀ x ∈ s.recordedBy C (.addBlock now b), x ∈ all)
    (hkeep : s.Lossless C now b) :
    TakesIn C all source s (s.addBlock C now b).2
      (Node.announcement source (b.hashHex C) (s.addBlock C now b).1) := by
  have hsub : s.known ⊆ (s.addBlock C now b).2.known := fun h hh => by
    obtain ⟨x, hx⟩ := Finmap.mem_iff.mp hh
    exact Finmap.mem_of_lookup (hkeep.kept h x hx)
  have hnew : ∀ h ∈ (s.addBlock C now b).2.known, h ∉ s.known → _ := fun h =>
    hs.of_mem_addBlock hg hsep hrecorded hkeep
  cases hresult : (s.addBlock C now b).1 with
  | error e =>
    refine .nothing (fun r hr => absurd hr List.not_mem_nil) ?_
    refine Set.Subset.antisymm (fun h hh => by_contra fun hnot => ?_) hsub
    cases hresult.symm.trans (hnew h hh hnot).2.2.2
  | ok u =>
    refine .block _ hsub (hkeep.stored hresult) (fun h hh => ?_) ?_
    · by_cases hold : h ∈ s.known
      · exact Or.inl hold
      · exact Or.inr (hnew h hh hold).1
    · by_cases hold : b.hashHex C ∈ s.known
      · exact Or.inl hold
      · obtain ⟨-, hb, hparent, -⟩ := hnew _ (hkeep.stored hresult) hold
        refine Or.inr ?_
        rintro p ⟨x, hx, hxhash, rfl⟩
        rwa [hsep x hx b hb hxhash]

/-- **The sending end announces** what it took in, except to the peer it has it from. -/
theorem feed_publish {source : String} {c : Conn} {relayed : List RelayMessage} (hup : c.up = true)
    (hmissed : (c.publish relayed).missed = 0) (htakes : TakesIn C all source s s' relayed)
    (hsource : source = addr → ∀ h ∈ s'.known, h ∈ s.known ∨ h ∈ R)
    (hfeed : Causal.Feed (needs C all) s.known R (route C addr toReceiver toSender c.relays)) :
    Causal.Feed (needs C all) s'.known R
      (route C addr toReceiver toSender (c.publish relayed).relays) := by
  rw [(Conn.publish_spec hup relayed).2.2 hmissed, route, List.flatMap_append]
  cases htakes with
  | nothing htx hsame =>
    have hnil : relayed.flatMap (RelayMessage.announcesTo addr) = [] := by
      rw [List.flatMap_eq_nil_iff]
      intro r hr
      obtain ⟨txid, hmsg⟩ := htx r hr
      rw [RelayMessage.announcesTo, hmsg]
      split <;> rfl
    rw [hnil, List.append_nil, hsame]
    exact hfeed
  | block hash hsub hmem hnew huse =>
    have hone : [(⟨source, .inv [⟨.block, hash⟩]⟩ : RelayMessage)].flatMap
        (RelayMessage.announcesTo addr) = if source = addr then [] else [hash] := by
      rw [List.flatMap_singleton, RelayMessage.announcesTo]
      rfl
    rw [hone]
    split
    · next heq =>
      rw [List.append_nil]
      exact hfeed.learn hsub (hsource heq)
    · have hpublish := hfeed.publish hsub hnew hmem huse
      simpa only [route, List.append_assoc] using hpublish

end Arkos
