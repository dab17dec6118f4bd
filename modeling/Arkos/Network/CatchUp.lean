import Arkos.Network.Route
import Arkos.Network.Sync
import Arkos.Network.Locator

/-!
# What one session brings

A node that is greeted by one with a longer chain asks it for headers, once: `GetHeaders` is sent
only as an answer to a `Version`, and a `Version` only when a connection is opened. So a session
brings what one batch of headers names, `maxHeadersPerResponse` blocks at most, and a node that is
further behind has to be connected again.

The messages are read in the order in which they were sent. A session goes through four stages: the
greeting of the node that is ahead is unread, then the request for headers, then the batch, and from
then on the blocks that are missing are on their way, in an order in which they can be used
(`Causal.Feed`). What the readings of the clock and the calls of `add_block` have to be is collected
in `Steady`. Messages arrive whole here; how long a batch may be before the transport cuts it is
`batch_heard` of `Arkos.Network.Transport`.

## Main definitions

* `Blockchain.batch` — the blocks whose headers are sent
* `Exchange.Steady` — the runs
* `Exchange.Stage`, `Exchange.Session` — the invariant

## Main results

* `Blockchain.linked_batch` — a batch continues a block of the node that asked
* `Exchange.session_brings_batch`
-/

namespace Arkos

variable {C : Crypto} {g : Block} {magic : UInt32} {all : List Block} {latest : ℕ}

namespace Blockchain

variable {a b : Blockchain}

/-- The blocks whose headers `b` answers a locator of `a` with. -/
def batch (C : Crypto) (a b : Blockchain) : List Block :=
  (b.blocks.drop (Node.locatorStart b (Node.blockLocator C a))).take maxHeadersPerResponse

theorem mem_of_mem_batch {x : Block} (h : x ∈ batch C a b) : x ∈ b.blocks :=
  List.mem_of_mem_drop (List.mem_of_mem_take h)

/-- The hashes of a batch. -/
def brought (C : Crypto) (a b : Blockchain) : Set String := {h | ∃ x ∈ batch C a b, x.hashHex C = h}

end Blockchain

namespace ValidChain

/-- Every block of a valid chain but the first meets its target. -/
theorem meetsTarget {T : Set ℕ} {bs : List Block} (h : ValidChain C magic T g bs) {i : ℕ}
    {x : Block} (hx : bs[i + 1]? = some x) : x.header.meetsTarget C = true := by
  obtain ⟨hlt, -⟩ := List.getElem?_eq_some_iff.mp hx
  have htake := h.take hlt
  have hlast : (bs.take (i + 1 + 1)).getLast? = some x := by
    rw [List.getLast?_eq_getElem?, List.length_take, Nat.min_eq_left hlt,
      List.getElem?_take_of_lt (by omega)]
    exact hx
  have hlen : (bs.take (i + 1 + 1)).length = i + 2 := by
    rw [List.length_take, Nat.min_eq_left hlt]
  generalize bs.take (i + 1 + 1) = cs at htake hlast hlen
  cases htake with
  | genesis => simp at hlen
  | @snoc ds d _ _ _ _ hext =>
    obtain rfl : d = x := by simpa using hlast
    obtain ⟨p, -, hwf, -⟩ := hext.parent
    exact hwf.meetsTarget

/-- The headers above a block of a valid chain continue it. -/
theorem linked {T : Set ℕ} {bs : List Block} (h : ValidChain C magic T g bs) (n : ℕ) {i : ℕ}
    {y : Block} (hy : bs[i]? = some y) (s : Blockchain) :
    Node.Linked C s (some (y.hashHex C)) (((bs.drop (i + 1)).take n).map Block.header) := by
  induction n generalizing i y with
  | zero =>
    rw [List.take_zero]
    trivial
  | succ n ih =>
    cases hx : bs[i + 1]? with
    | none =>
      rw [List.drop_eq_nil_of_le (List.getElem?_eq_none_iff.mp hx), List.take_nil]
      trivial
    | some x =>
      obtain ⟨hlt, rfl⟩ := List.getElem?_eq_some_iff.mp hx
      rw [List.drop_eq_getElem_cons hlt, List.take_succ_cons, List.map_cons]
      exact ⟨h.prevHash_eq hy hx, h.meetsTarget hx, ih hx⟩

end ValidChain

namespace Blockchain

variable {a b : Blockchain}

/-- **A batch continues a block of the node that asked**, so its loop walks it to the end. -/
theorem linked_batch (hg : g.height = 0) (hsep : Separated C all)
    (ha : Grown C magic g all latest a) (hb : Grown C magic g all latest b) :
    Node.Linked C a none ((batch C a b).map Block.header) := by
  obtain ⟨histA, hsubA, hinvA, -⟩ := ha.exists_inv
  obtain ⟨histB, hsubB, hinvB, -⟩ := hb.exists_inv
  have hsep' : Separated C (histA ++ histB) := hsep.mono fun x hx =>
    (List.mem_append.mp hx).elim (hsubA x) (hsubB x)
  -- the search ends at a block that both have, at genesis if nowhere else
  obtain ⟨y, hyA, hyB, hstart⟩ : ∃ y : Block,
      y.hashHex C ∈ a.allBlocks ∧ b.blocks[y.height]? = some y ∧
        Node.locatorStart b (Node.blockLocator C a) = y.height + 1 := by
    rw [Node.locatorStart, hinvA.blockLocator_eq hg, List.findSome?_map]
    cases hfind : a.locatorBlocks.findSome? fun x => b.blockIndex.lookup (x.hashHex C) with
    | none =>
      have hgenesis := List.mem_of_getLast? (hinvA.getLast?_locatorBlocks hg)
      have hnone := List.findSome?_eq_none_iff.mp hfind g hgenesis
      rw [lookup_blockIndex_of_mem hg hinvA hinvB hsep' hinvA.genesis_mem,
        if_pos hinvB.genesis_mem] at hnone
      cases hnone
    | some i =>
      obtain ⟨x, hx, hlookup⟩ := List.exists_of_findSome?_eq_some hfind
      have hxA := mem_blocks_of_mem_locatorBlocks hx
      rw [lookup_blockIndex_of_mem hg hinvA hinvB hsep' hxA] at hlookup
      split at hlookup
      · next hxB =>
        obtain rfl := Option.some.inj hlookup
        exact ⟨x, Finmap.mem_of_lookup (hinvA.stored x hxA), hinvB.getElem?_height hg hxB,
          congrArg (fun o => (Option.map (· + 1) o).getD 0) hfind⟩
      · cases hlookup
  have hlinked := hinvB.active.linked maxHeadersPerResponse hyB a
  rw [batch, hstart]
  generalize (b.blocks.drop (y.height + 1)).take maxHeadersPerResponse = bs at hlinked
  cases bs with
  | nil => trivial
  | cons x bs =>
    obtain ⟨hprev, hrest⟩ := hlinked
    refine ⟨?_, hrest⟩
    show x.header.prevHash ∈ a.allBlocks
    rwa [show x.header.prevHash = y.hashHex C from hprev]

/-- A node that stores the tip of another is on a chain that weighs as much. -/
theorem Grown.work_le (hsep : Separated C all) {s s' : Blockchain}
    (hs : Grown C magic g all latest s) (hs' : Grown C magic g all latest s')
    (hmem : s.tip.hashHex C ∈ s'.allBlocks) : workOf s.blocks ≤ workOf s'.blocks := by
  obtain ⟨hist, hsub, hi, -⟩ := hs.exists_inv
  obtain ⟨hist', -, hi', hmax'⟩ := hs'.exists_inv
  have htip := hi.stored s.tip s.tip_mem
  have htip' := hs'.lookup_of_mem hsep (hs.own htip).2 hmem
  -- the chain stored there behind the tip is the one here
  obtain ⟨bs, hbs, hlast, hstored⟩ := hs'.rooted _ s.tip htip'
  have hvalid := hbs.mono (Set.subset_univ _)
  obtain rfl : bs = s.blocks :=
    hvalid.eq_of_getLast? hi.active (fun x hx => (hs'.own (hstored x hx)).2)
      (fun x hx => hsub x (hi.mem_hist hx)) hsep hlast s.getLast?_blocks
  have hhist : ∀ x ∈ s.blocks, x ∈ hist' := fun x hx => (hi'.own _ x (hstored x hx)).2
  have hwork := hi'.work_eq _ s.tip htip' s.blocks hvalid hlast hhist
  exact (hmax' _ s.tip _ htip' hwork).resolve_right (hi.not_unpayable hhist hi'.separated)

end Blockchain

namespace Node

variable {clock : Clock} {addr : String} {n m : Node} {msg : Message} {s : Blockchain}

/-! ### Turns -/

/-- Blocks and transactions alone change the chain. -/
theorem chain_handleMessage_of_ne (hblock : ∀ b, msg ≠ .blockMsg b) (htx : ∀ tx, msg ≠ .txMsg tx) :
    (n.handleMessage C clock addr msg).node.chain = n.chain := by
  rw [chain_handleMessage]
  split
  · cases msg with
    | blockMsg b => exact absurd rfl (hblock b)
    | txMsg tx => exact absurd rfl (htx tx)
    | _ => rfl
  · rfl

/-- The greeting of another node is answered with a request for headers when that node is ahead. -/
theorem sent_greeting (hok : (n.handleMessage C clock addr m.greeting).result = .ok ()) :
    (n.handleMessage C clock addr m.greeting).sent =
      if n.chain.height < m.chain.height then [.verack, .getHeaders (blockLocator C n.chain)]
      else [.verack] := by
  have hturn := (handleMessage_of_ok hok).1
  have hchain : (n.countMessage clock addr).chain = n.chain := rfl
  rw [hturn, greeting, dispatch, handleVersion, hchain] at hok ⊢
  split_ifs at hok ⊢
  all_goals first | rfl | cases hok

theorem sent_verack (hok : (n.handleMessage C clock addr .verack).result = .ok ()) :
    (n.handleMessage C clock addr .verack).sent = [] := by
  rw [(handleMessage_of_ok hok).1]
  rfl

/-- A request for headers is answered with a batch, if there is one. -/
theorem sent_getHeaders {a : Blockchain}
    (hok : (n.handleMessage C clock addr (.getHeaders (blockLocator C a))).result = .ok ()) :
    (n.handleMessage C clock addr (.getHeaders (blockLocator C a))).sent =
      if (a.batch C n.chain).map Block.header = [] then []
      else [.headers ((a.batch C n.chain).map Block.header)] := by
  rw [(handleMessage_of_ok hok).1, dispatch, handleGetHeaders]
  show (if (a.batch C n.chain).map Block.header = [] then _ else _ : Handled).sent = _
  split <;> rfl

theorem sent_headers {headers : List BlockHeader}
    (hok : (n.handleMessage C clock addr (.headers headers)).result = .ok ()) :
    (n.handleMessage C clock addr (.headers headers)).sent =
      (chunks maxGetdataInflight (toFetch C n.chain none headers)).map .getData := by
  rw [(handleMessage_of_ok hok).1]
  rfl

theorem sent_getData {items : List InvItem}
    (hok : (n.handleMessage C clock addr (.getData items)).result = .ok ()) :
    (n.handleMessage C clock addr (.getData items)).sent = items.filterMap (answer n.chain) := by
  rw [(handleMessage_of_ok hok).1]
  rfl

/-- All headers of a linked batch are known or fetched. -/
theorem mem_blockHashes_of_linked {prev : Option String} {bs : List Block}
    (h : Linked C s prev (bs.map Block.header)) {x : Block} (hx : x ∈ bs) :
    x.hashHex C ∈ s.allBlocks ∨
      x.hashHex C ∈ blockHashes (toFetch C s prev (bs.map Block.header)) := by
  classical
  induction bs generalizing prev with
  | nil => cases hx
  | cons y bs ih =>
    obtain ⟨hfollows, hmeets, hrest⟩ := h
    rw [List.map_cons, toFetch_cons, if_pos ⟨hfollows, hmeets⟩, blockHashes_append, List.mem_append]
    rcases List.mem_cons.mp hx with rfl | hx
    · by_cases hknown : x.hashHex C ∈ s.allBlocks
      · exact Or.inl hknown
      · refine Or.inr (Or.inl ?_)
        rw [if_neg (show x.header.hashHex C ∉ s.allBlocks from hknown)]
        exact List.mem_cons_self
    · exact (ih hrest hx).imp_right Or.inr

end Node

namespace Exchange

variable {addrA addrB : String} {a b : Node} {x : Exchange}

/-! ### The stages of a session -/

/-- **A steady run**: the messages are read in order, the wall clock of A does not go back, and the
calls of A lose nothing. -/
def Steady (C : Crypto) (addrA addrB : String) : ℕ → Exchange → List Delivery → Prop
  | _, _, [] => True
  | latest, x, .atA i clock :: ds =>
    i = 0 ∧ latest ≤ clock.unix ∧
      (∀ block, x.readByA 0 = some (.blockMsg block) →
        x.a.call clock addrB (.blockMsg block) = some block →
          x.a.chain.Lossless C clock.unix block) ∧
      Steady C addrA addrB clock.unix (x.step C addrA addrB (.atA i clock)) ds
  | latest, x, .atB i clock :: ds =>
    i = 0 ∧ Steady C addrA addrB latest (x.step C addrA addrB (.atB i clock)) ds

/-- What A has to say before it asks for blocks, and B does not act on. -/
def Chat (a : Node) (msg : Message) : Prop := msg = a.greeting ∨ msg = .verack

/-- **How far a session has come.** -/
inductive Stage (C : Crypto) (addrB : String) (all : List Block) (a b : Node) (x : Exchange) : Prop
  /-- A has not read the greeting of B. -/
  | greeting (rest : List Message) : x.a.chain = a.chain → x.toA = b.greeting :: rest →
      (∀ msg ∈ rest, msg = .verack) → (∀ msg ∈ x.toB, Chat a msg) → Stage C addrB all a b x
  /-- B has not read the request for headers. -/
  | asked (before : List Message) : x.a.chain = a.chain → (∀ msg ∈ x.toA, msg = .verack) →
      x.toB = before ++ [.getHeaders (Node.blockLocator C a.chain)] →
      (∀ msg ∈ before, Chat a msg) → Stage C addrB all a b x
  /-- A has not read the headers. -/
  | offered (before : List Message) : x.a.chain = a.chain →
      x.toA = before ++ [.headers ((a.chain.batch C b.chain).map Block.header)] →
      (∀ msg ∈ before, msg = .verack) → x.toB = [] → Stage C addrB all a b x
  /-- The missing blocks are on their way. -/
  | fetching : (∀ msg ∈ x.toA, msg = .verack ∨ ∃ block, msg = .blockMsg block ∧
        b.chain.allBlocks.lookup (block.hashHex C) = some block) →
      (∀ msg ∈ x.toB, ∃ items, msg = .getData items ∧ ∀ item ∈ items, item.kind = .block) →
      a.chain.known ⊆ x.a.chain.known →
      x.a.chain.known ⊆ a.chain.known ∪ a.chain.brought C b.chain →
      Causal.Feed (needs C all) (a.chain.brought C b.chain) x.a.chain.known
        (route C addrB x.toA x.toB []) → Stage C addrB all a b x

/-- **The invariant of a session** whose ends are up. -/
structure Session (C : Crypto) (addrB : String) (magic : UInt32) (g : Block) (all : List Block)
    (latest : ℕ) (a b : Node) (x : Exchange) : Prop where
  grownA : x.a.chain.Grown C magic g all latest
  grownB : b.chain.Grown C magic g all latest
  chain_eq : x.b.chain = b.chain
  stage : Stage C addrB all a b x

theorem brought_subset (hb : b.chain.Grown C magic g all latest) :
    a.chain.brought C b.chain ⊆ b.chain.known := by
  rintro h ⟨y, hy, rfl⟩
  exact Finmap.mem_of_lookup (hb.stored_active y (Blockchain.mem_of_mem_batch hy))

/-- B answers what A says before it asks with nothing new. -/
theorem sent_chat {n : Node} {clock : Clock} (hheight : ¬ n.chain.height < a.chain.height)
    {msg : Message} (hmsg : Chat a msg)
    (hok : (n.handleMessage C clock addrA msg).result = .ok ()) :
    (∀ m ∈ (n.handleMessage C clock addrA msg).sent, m = .verack) ∧
      (n.handleMessage C clock addrA msg).node.chain = n.chain := by
  rcases hmsg with rfl | rfl
  · refine ⟨fun m hm => ?_, Node.chain_handleMessage_of_ne (fun _ h => by cases h)
      fun _ h => by cases h⟩
    rw [Node.sent_greeting hok, if_neg hheight] at hm
    exact List.mem_singleton.mp hm
  · refine ⟨fun m hm => ?_, Node.chain_handleMessage_of_ne (fun _ h => by cases h)
      fun _ h => by cases h⟩
    rw [Node.sent_verack hok] at hm
    cases hm

/-- The headers are read: what is missing is requested, in an order in which it can be used. -/
theorem feed_offered (hg : g.height = 0) (hsep : Separated C all) {s : Blockchain}
    (hs : a.chain.Grown C magic g all latest) (hb : b.chain.Grown C magic g all latest)
    (hsame : s = a.chain) :
    Causal.Feed (needs C all) (a.chain.brought C b.chain) s.known
      (blockHashes (Node.toFetch C s none ((a.chain.batch C b.chain).map Block.header))) := by
  subst hsame
  refine ⟨fun h hh => ?_, ?_, fun h hh => ?_⟩
  · obtain ⟨header, hheader, rfl⟩ := mem_blockHashes_toFetch hh
    obtain ⟨y, hy, rfl⟩ := List.mem_map.mp hheader
    exact ⟨y, hy, rfl⟩
  · refine ordered_toFetch hsep (fun h y hy => hb.own hy) ?_ subset_rfl fun p hp => by cases hp
    intro header hheader
    obtain ⟨y, hy, rfl⟩ := List.mem_map.mp hheader
    exact ⟨y, hb.stored_active y (Blockchain.mem_of_mem_batch hy), rfl⟩
  · obtain ⟨y, hy, rfl⟩ := hh
    exact Node.mem_blockHashes_of_linked (Blockchain.linked_batch hg hsep hs hb) hy

section

variable {clock : Clock} {msg : Message} {rest : List Message}

/-- **A reads a message.** -/
theorem Session.readA (hg : g.height = 0) (hsep : Separated C all)
    (hheight : a.chain.height < b.chain.height) (hs : Session C addrB magic g all latest a b x)
    (hle : latest ≤ clock.unix) (htoA : x.toA = msg :: rest)
    (hlossless : ∀ block, msg = .blockMsg block → x.a.call clock addrB msg = some block →
      x.a.chain.Lossless C clock.unix block)
    (hok : (x.a.handleMessage C clock addrB msg).result = .ok ()) :
    Session C addrB magic g all clock.unix a b (x.readA C addrB 0 clock msg) := by
  have hrest : (x.readA C addrB 0 clock msg).toA = rest := by
    show x.toA.eraseIdx 0 = rest
    rw [htoA]
    rfl
  have hmem : msg ∈ x.toA := by rw [htoA]; exact List.mem_cons_self
  have hmem' : ∀ m ∈ rest, m ∈ x.toA := fun m hm => by rw [htoA]; exact List.mem_cons_of_mem _ hm
  -- a message that is no block leaves the chain as it is
  have hquiet : (∀ y, msg ≠ .blockMsg y) → (∀ tx, msg ≠ .txMsg tx) →
      (x.readA C addrB 0 clock msg).a.chain = x.a.chain := Node.chain_handleMessage_of_ne
  have hkeep : (x.readA C addrB 0 clock msg).a.chain = x.a.chain →
      Stage C addrB all a b (x.readA C addrB 0 clock msg) →
      Session C addrB magic g all clock.unix a b (x.readA C addrB 0 clock msg) :=
    fun hsame hstage => ⟨hsame ▸ hs.grownA.mono hle, hs.grownB.mono hle, hs.chain_eq, hstage⟩
  cases hs.stage with
  | greeting rest' hsame htoA' hveracks hchat =>
    obtain ⟨rfl, rfl⟩ := List.cons.inj (htoA.symm.trans htoA')
    have hchain := hquiet (fun _ h => by cases h) fun _ h => by cases h
    refine hkeep hchain (.asked (x.toB ++ [.verack]) (hchain.trans hsame) (hrest ▸ hveracks) ?_ ?_)
    · show x.toB ++ (x.a.handleMessage C clock addrB b.greeting).sent = _
      rw [Node.sent_greeting hok, hsame, if_pos hheight, List.append_assoc]
      rfl
    · intro m hm
      rcases List.mem_append.mp hm with hm | hm
      · exact hchat m hm
      · exact Or.inr (List.mem_singleton.mp hm)
  | asked before hsame hveracks htoB hchat =>
    obtain rfl := hveracks msg hmem
    have hchain := hquiet (fun _ h => by cases h) fun _ h => by cases h
    refine hkeep hchain (.asked before (hchain.trans hsame) (fun m hm => ?_) ?_ hchat)
    · exact hveracks m (hmem' m (hrest ▸ hm))
    · show x.toB ++ (x.a.handleMessage C clock addrB .verack).sent = _
      rw [Node.sent_verack hok, List.append_nil, htoB]
  | offered before hsame htoA' hveracks htoB =>
    rcases before with _ | ⟨m, before⟩
    · -- the headers are next
      obtain ⟨rfl, rfl⟩ := List.cons.inj (htoA.symm.trans htoA')
      have hchain := hquiet (fun _ h => by cases h) fun _ h => by cases h
      have hsent : (x.readA C addrB 0 clock
          (.headers ((a.chain.batch C b.chain).map Block.header))).toB =
          (Node.chunks maxGetdataInflight (Node.toFetch C x.a.chain none
            ((a.chain.batch C b.chain).map Block.header))).map .getData := by
        show x.toB ++ Handled.sent _ = _
        rw [htoB, List.nil_append, Node.sent_headers hok]
      refine hkeep hchain (.fetching (hrest ▸ fun m hm => by cases hm) ?_ ?_ ?_ ?_)
      · rw [hsent]
        intro m hm
        obtain ⟨items, hitems, rfl⟩ := List.mem_map.mp hm
        refine ⟨items, rfl, fun item hitem => ?_⟩
        obtain ⟨-, -, -, -, -, rfl⟩ := Node.mem_toFetch.mp
          ((Node.mem_chunks (show 0 < maxGetdataInflight by decide)).mp ⟨items, hitems, hitem⟩)
        rfl
      · rw [hchain, hsame]
      · rw [hchain, hsame]
        exact Set.subset_union_left
      · have hfeed := feed_offered hg hsep (hsame ▸ hs.grownA) hs.grownB hsame
        have hflatten := Node.requests_of_replies (C := C) (s := x.a.chain)
          (.fetch ((a.chain.batch C b.chain).map Block.header))
        rw [hrest, hsent, hchain, route, hflatten]
        simpa using hfeed
    · obtain ⟨rfl, rfl⟩ := List.cons.inj (htoA.symm.trans htoA')
      obtain rfl := hveracks msg List.mem_cons_self
      have hchain := hquiet (fun _ h => by cases h) fun _ h => by cases h
      refine hkeep hchain (.offered before (hchain.trans hsame) hrest
        (fun m hm => hveracks m (List.mem_cons_of_mem _ hm)) ?_)
      show x.toB ++ (x.a.handleMessage C clock addrB .verack).sent = _
      rw [Node.sent_verack hok, List.append_nil, htoB]
  | fetching hblocks hitems hlower hupper hfeed =>
    have htoA'' : ∀ m ∈ (x.readA C addrB 0 clock msg).toA, m ∈ x.toA := fun m hm =>
      hmem' m (hrest ▸ hm)
    rcases hblocks msg hmem with rfl | ⟨block, rfl, hstored⟩
    · have hchain := hquiet (fun _ h => by cases h) fun _ h => by cases h
      have htoB : (x.readA C addrB 0 clock .verack).toB = x.toB := by
        show x.toB ++ (x.a.handleMessage C clock addrB .verack).sent = _
        rw [Node.sent_verack hok, List.append_nil]
      refine hkeep hchain (.fetching (fun m hm => hblocks m (htoA'' m hm)) (htoB ▸ hitems)
        (hchain ▸ hlower) (hchain ▸ hupper) ?_)
      rw [hrest, htoB, hchain]
      rw [htoA] at hfeed
      exact hfeed
    · -- the next block on its way, which is accepted
      rw [htoA] at hfeed
      have hall := (hs.grownB.own hstored).2
      have hcall := (Node.handleMessage_of_ok hok).2 block rfl
      have hlossless := hlossless block rfl hcall
      have hrecorded : ∀ y ∈ x.a.chain.recordedBy C (.addBlock clock.unix block), y ∈ all := by
        intro y hy
        rw [Blockchain.recordedBy] at hy
        split at hy
        · exact List.mem_singleton.mp hy ▸ hall
        · cases hy
      have haccepted := hs.grownB.accepts hg hsep hstored hs.grownA hle
        (hfeed.head.imp_right fun hneeds => hneeds ⟨block, hall, rfl, rfl⟩) hrecorded hlossless
      obtain ⟨block', hcall', -, hsent, hchain, -⟩ | ⟨hnone, -, -⟩ :=
        Node.turn_cases C clock addrB x.a (.blockMsg block)
      swap
      · cases hnone.symm.trans hcall
      obtain rfl := Option.some.inj (hcall.symm.trans hcall')
      have hchain : (x.readA C addrB 0 clock (.blockMsg block)).a.chain =
          (x.a.chain.addBlock C clock.unix block).2 := hchain
      have htoB : (x.readA C addrB 0 clock (.blockMsg block)).toB = x.toB := by
        show x.toB ++ Handled.sent _ = _
        rw [hsent, List.append_nil]
      have hknown : x.a.chain.known ⊆ (x.a.chain.addBlock C clock.unix block).2.known := by
        intro h hh
        obtain ⟨y, hy⟩ := Finmap.mem_iff.mp hh
        exact Finmap.mem_of_lookup (hlossless.kept h y hy)
      refine ⟨?_, hs.grownB.mono hle, hs.chain_eq, .fetching (fun m hm => hblocks m (htoA'' m hm))
        (htoB ▸ hitems) ?_ ?_ ?_⟩
      · rw [hchain]
        exact hs.grownA.addBlock hg hsep hle hrecorded hlossless
      · rw [hchain]
        exact hlower.trans hknown
      · rw [hchain]
        intro h hh
        by_cases hold : h ∈ x.a.chain.known
        · exact hupper hold
        · obtain ⟨rfl, -⟩ := hs.grownA.of_mem_addBlock hg hsep hrecorded hlossless hh hold
          exact Or.inr (hfeed.sound _ List.mem_cons_self)
      · rw [hrest, htoB, hchain]
        exact hfeed.deliver hknown (hlossless.stored haccepted)

/-- **B reads a message.** -/
theorem Session.readB (hheight : a.chain.height < b.chain.height)
    (hs : Session C addrB magic g all latest a b x) (htoB : x.toB = msg :: rest)
    (hok : (x.b.handleMessage C clock addrA msg).result = .ok ()) :
    Session C addrB magic g all latest a b (x.readB C addrA 0 clock msg) := by
  have hrest : (x.readB C addrA 0 clock msg).toB = rest := by
    show x.toB.eraseIdx 0 = rest
    rw [htoB]
    rfl
  have hmem : msg ∈ x.toB := by rw [htoB]; exact List.mem_cons_self
  have hmem' : ∀ m ∈ rest, m ∈ x.toB := fun m hm => by rw [htoB]; exact List.mem_cons_of_mem _ hm
  have htoA : (x.readB C addrA 0 clock msg).toA =
      x.toA ++ (x.b.handleMessage C clock addrA msg).sent := rfl
  have hahead : ¬ x.b.chain.height < a.chain.height := by
    rw [hs.chain_eq]
    omega
  have hkeep : (x.b.handleMessage C clock addrA msg).node.chain = x.b.chain →
      Stage C addrB all a b (x.readB C addrA 0 clock msg) →
      Session C addrB magic g all latest a b (x.readB C addrA 0 clock msg) := fun hsame hstage =>
    ⟨hs.grownA, hs.grownB, hsame.trans hs.chain_eq, hstage⟩
  have hverack : ∀ (l l' : List Message), (∀ m ∈ l, m = Message.verack) →
      (∀ m ∈ l', m = Message.verack) → ∀ m ∈ l ++ l', m = Message.verack := fun l l' h h' m hm =>
    (List.mem_append.mp hm).elim (h m) (h' m)
  cases hs.stage with
  | greeting rest' hsame htoA' hveracks hchat =>
    obtain ⟨hsent, hchain⟩ := sent_chat hahead (hchat msg hmem) hok
    refine hkeep hchain (.greeting (rest' ++ (x.b.handleMessage C clock addrA msg).sent) hsame ?_
      (hverack _ _ hveracks hsent) fun m hm => hchat m (hmem' m (hrest ▸ hm)))
    rw [htoA, htoA']
    rfl
  | asked before hsame hveracks htoB' hchat =>
    rcases before with _ | ⟨m, before⟩
    · -- the request for headers is next
      obtain ⟨rfl, rfl⟩ := List.cons.inj (htoB.symm.trans htoB')
      have hchain : (x.b.handleMessage C clock addrA
          (.getHeaders (Node.blockLocator C a.chain))).node.chain = x.b.chain :=
        Node.chain_handleMessage_of_ne (fun _ h => by cases h) fun _ h => by cases h
      have hsent := Node.sent_getHeaders hok
      rw [hs.chain_eq] at hsent
      refine hkeep hchain ?_
      split at hsent
      · next hnil =>
        -- an empty batch is not sent, and nothing has to be brought
        have hnone : a.chain.brought C b.chain = ∅ := by
          rw [Blockchain.brought, List.map_eq_nil_iff.mp hnil]
          simp
        have hsilent : ∀ f : Message → List String, f .verack = [] → x.toA.flatMap f = [] :=
          fun f hf => List.flatMap_eq_nil_iff.mpr fun m hm => by rw [hveracks m hm, hf]
        have hroute : route C addrB x.toA [] [] = [] := by
          rw [route, hsilent (Message.delivers C) rfl, hsilent Message.announces rfl]
          rfl
        rw [hsent, List.append_nil] at htoA
        refine .fetching (fun m hm => Or.inl (hveracks m (htoA ▸ hm)))
          (hrest ▸ fun m hm => by cases hm) ?_ ?_ ?_
        · show a.chain.known ⊆ x.a.chain.known
          rw [hsame]
        · show x.a.chain.known ⊆ _
          rw [hsame]
          exact Set.subset_union_left
        · rw [htoA, hrest, hroute, hnone]
          exact ⟨by simp, trivial, by simp⟩
      · exact .offered x.toA hsame (by rw [htoA, hsent]) hveracks hrest
    · obtain ⟨rfl, rfl⟩ := List.cons.inj (htoB.symm.trans htoB')
      obtain ⟨hsent, hchain⟩ := sent_chat hahead (hchat msg List.mem_cons_self) hok
      refine hkeep hchain (.asked before hsame ?_ hrest fun m hm =>
        hchat m (List.mem_cons_of_mem _ hm))
      rw [htoA]
      exact hverack _ _ hveracks hsent
  | offered before hsame htoA' hveracks htoB' =>
    cases htoB.symm.trans htoB'
  | fetching hblocks hitems hlower hupper hfeed =>
    obtain ⟨items, rfl, hkind⟩ := hitems msg hmem
    have hchain : (x.b.handleMessage C clock addrA (.getData items)).node.chain = x.b.chain :=
      Node.chain_handleMessage_of_ne (fun _ h => by cases h) fun _ h => by cases h
    have hkeyed : b.chain.KeyedByHash C := fun _ _ hy => (hs.grownB.own hy).1
    have hsent := Node.sent_getData hok
    rw [hs.chain_eq] at hsent
    refine hkeep hchain (.fetching ?_ (fun m hm => hitems m (hmem' m (hrest ▸ hm)))
      hlower hupper ?_)
    · rw [htoA, hsent]
      intro m hm
      rcases List.mem_append.mp hm with hm | hm
      · exact hblocks m hm
      · obtain ⟨⟨kind, hash⟩, hitem, hanswer⟩ := List.mem_filterMap.mp hm
        obtain rfl : kind = .block := hkind _ hitem
        obtain ⟨y, hy, rfl⟩ := Option.map_eq_some_iff.mp hanswer
        exact Or.inr ⟨y, rfl, by rwa [hkeyed hash y hy]⟩
    · rw [htoA, hsent, hrest]
      rw [htoB] at hfeed
      exact feed_answer hkeyed (fun _ h => by cases h) (.answers items)
        (brought_subset hs.grownB) hfeed

end

/-- **A steady run.** As long as the ends are up the invariant is kept. -/
theorem Session.run (hg : g.height = 0) (hsep : Separated C all)
    (hheight : a.chain.height < b.chain.height) {ds : List Delivery}
    (hs : x.aUp = true → x.bUp = true → Session C addrB magic g all latest a b x)
    (hsteady : Steady C addrA addrB latest x ds)
    (hup : (x.run C addrA addrB ds).aUp = true) (hup' : (x.run C addrA addrB ds).bUp = true) :
    ∃ latest', Session C addrB magic g all latest' a b (x.run C addrA addrB ds) := by
  induction ds generalizing x latest with
  | nil => exact ⟨latest, hs hup hup'⟩
  | cons d ds ih =>
    have hup_of_isOk : ∀ {r : Except PeerError Unit}, r.isOk = true → r = .ok () := by
      rintro (e | ⟨⟩) h
      · cases h
      · rfl
    cases d with
    | atA i clock =>
      obtain ⟨rfl, hle, hlossless, hrest⟩ := hsteady
      refine ih (x := x.step C addrA addrB (.atA 0 clock)) (fun ha hb => ?_) hrest hup hup'
      rw [Exchange.step] at ha hb ⊢
      cases hread : x.readByA 0 with
      | none =>
        rw [hread] at ha hb
        have hs := hs ha hb
        exact ⟨hs.grownA.mono hle, hs.grownB.mono hle, hs.chain_eq, hs.stage⟩
      | some msg =>
        rw [hread] at ha hb
        rw [readByA] at hread
        split at hread
        · next hupA =>
          obtain ⟨rest, htoA⟩ : ∃ rest, x.toA = msg :: rest := by
            rcases htoA : x.toA with _ | ⟨m, rest⟩
            · rw [htoA] at hread
              cases hread
            · rw [htoA] at hread
              exact ⟨rest, congrArg (· :: rest) (Option.some.inj hread)⟩
          refine (hs hupA hb).readA hg hsep hheight hle htoA (fun block heq hcall => ?_)
            (hup_of_isOk ha)
          subst heq
          exact hlossless block (by rw [readByA, if_pos hupA, hread]) hcall
        · cases hread
    | atB i clock =>
      obtain ⟨rfl, hrest⟩ := hsteady
      refine ih (x := x.step C addrA addrB (.atB 0 clock)) (fun ha hb => ?_) hrest hup hup'
      rw [Exchange.step] at ha hb ⊢
      cases hread : x.readByB 0 with
      | none =>
        rw [hread] at ha hb
        exact hs ha hb
      | some msg =>
        rw [hread] at ha hb
        rw [readByB] at hread
        split at hread
        · next hupB =>
          obtain ⟨rest, htoB⟩ : ∃ rest, x.toB = msg :: rest := by
            rcases htoB : x.toB with _ | ⟨m, rest⟩
            · rw [htoB] at hread
              cases hread
            · rw [htoB] at hread
              exact ⟨rest, congrArg (· :: rest) (Option.some.inj hread)⟩
          exact (hs ha hupB).readB hheight htoB (hup_of_isOk hb)
        · cases hread

/-- At the start the greetings are unread. -/
theorem session_start (ha : a.chain.Grown C magic g all latest)
    (hb : b.chain.Grown C magic g all latest) :
    Session C addrB magic g all latest a b (start a b) where
  grownA := ha
  grownB := hb
  chain_eq := rfl
  stage := .greeting [] rfl rfl (fun _ h => by cases h) fun _ h => Or.inl (List.mem_singleton.mp h)

/-- **One session brings one batch.** Two nodes that have run from one genesis open a connection,
and the chain of B is longer. When all messages of a steady run have been read and both ends are up,
A knows what it knew and the blocks of one batch, and no others. If the batch reaches the tip of B,
the chain of A weighs at least as much as that of B. -/
theorem session_brings_batch (C : Crypto) (g : Block) (hg : g.height = 0) (magic : UInt32)
    (storeA storeB : Option BlockStore) (evsA evsB : List Event) (addrA addrB : String) (a b : Node)
    (ha : a.chain = (Blockchain.fromGenesisWithMagic C g storeA magic).run C evsA)
    (hb : b.chain = (Blockchain.fromGenesisWithMagic C g storeB magic).run C evsB)
    (hrunA : (Blockchain.fromGenesisWithMagic C g storeA magic).LosslessRun C 0 evsA)
    (hrunB : (Blockchain.fromGenesisWithMagic C g storeB magic).LosslessRun C 0 evsB)
    (hsep : Separated C (g :: ((Blockchain.fromGenesisWithMagic C g storeA magic).recorded C evsA ++
      (Blockchain.fromGenesisWithMagic C g storeB magic).recorded C evsB)))
    (hheight : a.chain.height < b.chain.height) (ds : List Delivery)
    (hsteady : Steady C addrA addrB
      (max (Blockchain.clockAfter 0 evsA) (Blockchain.clockAfter 0 evsB)) (start a b) ds)
    (hup : ((start a b).run C addrA addrB ds).aUp = true)
    (hup' : ((start a b).run C addrA addrB ds).bUp = true)
    (hread : ((start a b).run C addrA addrB ds).toA = [])
    (hread' : ((start a b).run C addrA addrB ds).toB = []) :
    ((start a b).run C addrA addrB ds).a.chain.known =
        a.chain.known ∪ a.chain.brought C b.chain ∧
      (b.chain.tip ∈ a.chain.batch C b.chain →
        workOf b.chain.blocks ≤ workOf ((start a b).run C addrA addrB ds).a.chain.blocks) := by
  have hgrownA := (Blockchain.grown_fromGenesisWithMagic storeA List.mem_cons_self).run hg hsep
    hrunA fun x hx => List.mem_cons_of_mem _ (List.mem_append_left _ hx)
  have hgrownB := (Blockchain.grown_fromGenesisWithMagic storeB List.mem_cons_self).run hg hsep
    hrunB fun x hx => List.mem_cons_of_mem _ (List.mem_append_right _ hx)
  rw [← ha] at hgrownA
  rw [← hb] at hgrownB
  obtain ⟨latest, hs⟩ := Session.run hg hsep hheight (fun _ _ => session_start
    (hgrownA.mono (le_max_left _ _)) (hgrownB.mono (le_max_right _ _))) hsteady hup hup'
  generalize (start a b).run C addrA addrB ds = x at hs hread hread'
  cases hs.stage with
  | greeting rest _ htoA _ _ => cases hread.symm.trans htoA
  | asked before _ _ htoB _ => exact absurd (hread'.symm.trans htoB).symm (by simp)
  | offered before _ htoA _ _ => exact absurd (hread.symm.trans htoA).symm (by simp)
  | fetching _ _ hlower hupper hfeed =>
    rw [hread, hread'] at hfeed
    refine ⟨Set.Subset.antisymm hupper (Set.union_subset hlower hfeed.subset), fun htip => ?_⟩
    exact hs.grownB.work_le hsep hs.grownA (hfeed.subset ⟨_, htip, rfl⟩)

/-! ### One block behind -/

/-- A check for steady runs that stay below the finality depth. -/
def steadyBelow (C : Crypto) (addrA addrB : String) : ℕ → Exchange → List Delivery → Bool
  | _, _, [] => true
  | latest, x, .atA i clock :: ds =>
    let call := match x.readByA 0 with
      | some (.blockMsg block) =>
        decide ((x.a.chain.addBlock C clock.unix block).2.height < finalityDepth) &&
          !overflows (x.a.chain.addBlock C clock.unix block).1
      | _ => true
    decide (i = 0) && decide (latest ≤ clock.unix) && call &&
      steadyBelow C addrA addrB clock.unix (x.step C addrA addrB (.atA i clock)) ds
  | latest, x, .atB i clock :: ds =>
    decide (i = 0) && steadyBelow C addrA addrB latest (x.step C addrA addrB (.atB i clock)) ds

theorem steady_of_steadyBelow {ds : List Delivery}
    (h : steadyBelow C addrA addrB latest x ds = true) : Steady C addrA addrB latest x ds := by
  induction ds generalizing x latest with
  | nil => trivial
  | cons d ds ih =>
    cases d with
    | atA i clock =>
      simp only [steadyBelow, Bool.and_eq_true, decide_eq_true_eq] at h
      obtain ⟨⟨⟨hi, hle⟩, hcall⟩, hrest⟩ := h
      refine ⟨hi, hle, fun block hread _ => ?_, ih hrest⟩
      rw [hread, Bool.and_eq_true, decide_eq_true_eq, Bool.not_eq_true'] at hcall
      exact Blockchain.lossless_of_height_lt hcall.1 hcall.2
    | atB i clock =>
      simp only [steadyBelow, Bool.and_eq_true, decide_eq_true_eq] at h
      exact ⟨h.1, ih h.2⟩

/-- A node one block ahead of `sampleNode`. -/
def nextNode : Node :=
  .new ((Blockchain.fromGenesisWithMagic Crypto.sample sampleGenesis none regtestMagic).run
    Crypto.sample [.addBlock sampleNow (idleBlock 0)]) regtestMagic

/-- The messages of a session over one block. -/
def oneBlock : List Delivery :=
  [.atA 0 sampleClock, .atB 0 sampleClock, .atB 0 sampleClock, .atB 0 sampleClock,
    .atA 0 sampleClock, .atA 0 sampleClock, .atB 0 sampleClock, .atA 0 sampleClock]

/-- The block crosses in eight messages. -/
theorem session_brings_batch_idleBlock :
    let x := (start sampleNode nextNode).run Crypto.sample sampleAddrA sampleAddrB oneBlock
    x.a.chain.known = sampleNode.chain.known ∪ {(idleBlock 0).hashHex Crypto.sample} ∧
      workOf nextNode.chain.blocks ≤ workOf x.a.chain.blocks := by
  have hrun :
      let x := (start sampleNode nextNode).run Crypto.sample sampleAddrA sampleAddrB oneBlock
      steadyBelow Crypto.sample sampleAddrA sampleAddrB (max (Blockchain.clockAfter 0 [])
          (Blockchain.clockAfter 0 [.addBlock sampleNow (idleBlock 0)])) (start sampleNode nextNode)
        oneBlock = true ∧ x.aUp = true ∧ x.bUp = true ∧ x.toA = [] ∧ x.toB = [] := by
    decide +kernel
  obtain ⟨hsteady, hup, hup', hread, hread'⟩ := hrun
  have hbatch : sampleNode.chain.batch Crypto.sample nextNode.chain = [idleBlock 0] := by
    decide +kernel
  have hmain := session_brings_batch Crypto.sample sampleGenesis rfl regtestMagic none none []
    [.addBlock sampleNow (idleBlock 0)] sampleAddrA sampleAddrB sampleNode nextNode rfl
    (Node.chain_new _ _) trivial
    ⟨Nat.zero_le _, Blockchain.lossless_of_height_lt (by decide +kernel)
      (by decide +kernel), trivial⟩
    (by rw [Separated]; decide +kernel) (by decide +kernel) oneBlock (steady_of_steadyBelow hsteady)
    hup hup' hread hread'
  rw [Blockchain.brought, hbatch] at hmain
  refine ⟨hmain.1.trans ?_, hmain.2 (by decide +kernel)⟩
  simp

end Exchange

end Arkos
