import Arkos.Network.HeadersFirst
import Arkos.Network.Handshake
import Arkos.Blockchain.Replay
import Arkos.Blockchain.Ancestry

/-!
# Two nodes catching up

Node A is behind node B. They greet each other, A asks for headers, fetches the blocks of those it
does not have, and B answers; both run `handle_peer`. What is sent and not yet read is in flight,
and an exchange is a sequence of deliveries, to either side and in any order.

Every block that reaches A was requested by A: B sends blocks only as an answer, and answers with
the block it stores under the hash it was asked for. A counts these blocks like those of a stranger,
ten in a minute, and a single request asks for up to fifty. So A cuts the connection that feeds it
exactly when more than ten of the blocks it asked for arrive within a minute.

## Main definitions

* `Exchange`, `Exchange.step`, `Exchange.run`
* `Exchange.NeverLimited` — no requested block is met with the block-rate error
* `Exchange.arrivals` — when the blocks reach A

## Main results

* `Exchange.never_limited_iff`
* `Exchange.not_neverLimited_elevenBlocks` — eleven missing blocks, fetched at once
-/

namespace Arkos

/-! ### States a node reaches -/

namespace Blockchain

/-- A chain state of a running node: started from a genesis block or from what was stored, and
changed by calls. -/
inductive Reachable (C : Crypto) : Blockchain → Prop
  | genesis (g : Block) (store : Option BlockStore) (magic : UInt32) :
      Reachable C (fromGenesisWithMagic C g store magic)
  | step {s : Blockchain} (e : Event) : Reachable C s → Reachable C (s.step C e)
  | magic {s : Blockchain} (networkMagic : UInt32) : Reachable C s →
      Reachable C { s with networkMagic }

/-- Every block is stored under its own hash. -/
def KeyedByHash (C : Crypto) (s : Blockchain) : Prop :=
  ∀ h b, s.allBlocks.lookup h = some b → b.hashHex C = h

variable {C : Crypto} {s : Blockchain}

theorem Reachable.run (h : Reachable C s) (evs : List Event) : Reachable C (s.run C evs) := by
  induction evs generalizing s with
  | nil => exact h
  | cons e evs ih => exact ih (h.step e)

theorem KeyedByHash.recordBlock (h : KeyedByHash C s) (b : Block) (w : ℕ) :
    KeyedByHash C (s.recordBlock C b w) := by
  intro hash x hx
  rw [Blockchain.recordBlock, Finmap.lookup_insert_eq] at hx
  split at hx
  · next heq => rw [heq, ← Option.some.inj hx]
  · exact h hash x hx

theorem KeyedByHash.pruneStaleOrphans (h : KeyedByHash C s) :
    KeyedByHash C (s.pruneStaleOrphans C) := by
  unfold Blockchain.pruneStaleOrphans
  split
  · exact h
  · intro hash x hx
    exact h hash x (Finmap.lookup_retain_eq_some.mp hx).1

/-- **No call breaks it.** -/
theorem KeyedByHash.step (h : KeyedByHash C s) (e : Event) : KeyedByHash C (s.step C e) := by
  cases e with
  | addBlock now b =>
    -- only recording and pruning change the table
    refine addBlock_preserves (P := KeyedByHash C) h (fun w _ => h.recordBlock b w) ?_ ?_
      fun _ => KeyedByHash.pruneStaleOrphans
    · exact fun _ _ h' => h'
    · exact fun _ _ _ _ _ _ _ _ h' => h'
  | submitTransaction tx =>
    show KeyedByHash C (s.submitTransaction C tx).2
    rw [submitTransaction]
    repeat' split
    all_goals exact h

/-- These are the states of a node, without what it has recorded. -/
theorem Reachable.exists_reached (h : Reachable C s) : ∃ g hist, Reached C g hist s := by
  induction h with
  | genesis g store magic => exact ⟨g, [g], .start store magic⟩
  | step e _ ih =>
    obtain ⟨g, hist, hs⟩ := ih
    exact ⟨g, _, hs.call e⟩
  | magic networkMagic _ ih =>
    obtain ⟨g, hist, hs⟩ := ih
    exact ⟨g, hist, hs.remagic networkMagic⟩

theorem Reachable.keyedByHash (h : Reachable C s) : KeyedByHash C s := by
  obtain ⟨g, hist, hs⟩ := h.exists_reached
  exact fun hash b hb => (hs.ancestry.own hash b hb).1

end Blockchain

namespace Node

variable {C : Crypto} {clock : Clock} {addr : String} {n : Node}

/-- A turn changes the chain by calls only. -/
theorem keyedByHash_handleMessage (h : n.chain.KeyedByHash C) (msg : Message) :
    (n.handleMessage C clock addr msg).node.chain.KeyedByHash C := by
  rw [chain_handleMessage]
  split
  · cases msg with
    | blockMsg block =>
      rw [chainAfter]
      split
      · exact h.step (.addBlock clock.unix block)
      · exact h
    | txMsg tx =>
      rw [chainAfter]
      split
      · exact h.step (.submitTransaction tx)
      · exact h
    | _ => exact h
  · exact h

/-- A block is sent only as an answer, and then it is the one that was asked for. -/
theorem blockMsg_mem_sent {msg : Message} {block : Block} (hkeyed : n.chain.KeyedByHash C)
    (h : .blockMsg block ∈ (n.handleMessage C clock addr msg).sent) :
    ∃ items, msg = .getData items ∧ ⟨.block, block.hashHex C⟩ ∈ items := by
  unfold handleMessage at h
  cases hmay : n.mayMessage clock addr with
  | false => simp [hmay, bail] at h
  | true =>
    rw [hmay, if_neg (by simp)] at h
    cases msg with
    | getData items =>
      refine ⟨items, rfl, ?_⟩
      obtain ⟨⟨kind, hash⟩, hitem, hanswer⟩ := List.mem_filterMap.mp h
      cases kind with
      | block =>
        obtain ⟨b, hb, heq⟩ := Option.map_eq_some_iff.mp hanswer
        obtain rfl := Message.blockMsg.inj heq
        rw [hkeyed hash b hb]
        exact hitem
      | transaction =>
        obtain ⟨tx, -, heq⟩ := Option.map_eq_some_iff.mp hanswer
        cases heq
    | version version networkMagic bestHeight userAgent =>
      simp only [dispatch, handleVersion] at h
      repeat' split at h
      all_goals simp [bail, reply] at h
    | getHeaders locatorHashes =>
      simp only [dispatch, handleGetHeaders] at h
      split at h
      all_goals simp [reply] at h
    | getBlocks locatorHashes =>
      simp only [dispatch, handleGetBlocks] at h
      repeat' split at h
      all_goals simp [bail, reply] at h
    | inv items =>
      simp only [dispatch, handleInv] at h
      split at h
      all_goals simp [reply] at h
    | blockMsg block =>
      simp only [dispatch, handleBlock] at h
      split at h
      all_goals simp [bail] at h
    | txMsg tx =>
      simp only [dispatch, handleTx] at h
      split at h
      all_goals simp [bail] at h
    | addr addrs =>
      simp only [dispatch, handleAddr] at h
      split at h
      all_goals simp [bail, reply] at h
    | headers headers => simp [dispatch, handleHeaders, reply] at h
    | _ => simp [dispatch, reply] at h

/-- The block limiter is asked by the `BlockMsg` arm alone. -/
theorem blocks_handleMessage (C : Crypto) (clock : Clock) (addr : String) (n : Node)
    (msg : Message) :
    (n.handleMessage C clock addr msg).node.rateLimiters.blocks =
      match msg with
      | .blockMsg _ =>
        if n.mayMessage clock addr then (n.rateLimiters.blocks.check clock.handled addr).2
        else n.rateLimiters.blocks
      | _ => n.rateLimiters.blocks := by
  rw [node_handleMessage]
  cases msg <;> split <;> rfl

/-- A turn for a message that is let through. -/
theorem handleMessage_of_may (h : n.mayMessage clock addr = true) (msg : Message) :
    n.handleMessage C clock addr msg = (n.countMessage clock addr).dispatch C clock addr msg := by
  rw [handleMessage, h]
  rfl

/-- A block is met with the block-rate error exactly when the message is let through and the block
is not. -/
theorem result_blockMsg_eq_blockRate_iff {block : Block} :
    (n.handleMessage C clock addr (.blockMsg block)).result = .error .blockRate ↔
      n.mayMessage clock addr = true ∧ n.mayBlock clock addr = false := by
  have hsame : (n.countMessage clock addr).mayBlock clock addr = n.mayBlock clock addr := rfl
  unfold handleMessage
  cases hmay : n.mayMessage clock addr with
  | false => simp [bail]
  | true =>
    simp only [dispatch, handleBlock, hsame]
    cases hblock : n.mayBlock clock addr <;> simp [bail]

end Node

/-! ### The exchange -/

/-- Two nodes and what is in flight between them. -/
structure Exchange where
  a : Node
  b : Node
  toA : List Message
  toB : List Message
  /-- The hashes A asked for. -/
  requested : List String
  /-- `handle_peer` of A has not returned. -/
  aUp : Bool
  /-- `handle_peer` of B has not returned. -/
  bUp : Bool

/-- A delivery: the message at the given place in flight is read by A or by B. -/
inductive Delivery where
  | atA (i : ℕ) (clock : Clock)
  | atB (i : ℕ) (clock : Clock)

/-- The hashes a message asks for. -/
def Message.asksFor : Message → List String
  | .getData items => items.map InvItem.hash
  | _ => []

/-- The `Version` a node sends when a connection is opened. -/
def Node.greeting (n : Node) : Message :=
  .version protocolVersion n.networkMagic n.chain.height "arkos/0.1"

namespace Exchange

/-- Both nodes have sent their greeting. -/
def start (a b : Node) : Exchange where
  a
  b
  toA := [b.greeting]
  toB := [a.greeting]
  requested := []
  aUp := true
  bUp := true

section

variable (C : Crypto) (addrA addrB : String)

/-- A reads a message of B. -/
def readA (x : Exchange) (i : ℕ) (clock : Clock) (msg : Message) : Exchange :=
  let turn := x.a.handleMessage C clock addrB msg
  { x with
    a := turn.node
    toA := x.toA.eraseIdx i
    toB := x.toB ++ turn.sent
    requested := x.requested ++ turn.sent.flatMap Message.asksFor
    aUp := turn.result.isOk }

/-- B reads a message of A. -/
def readB (x : Exchange) (i : ℕ) (clock : Clock) (msg : Message) : Exchange :=
  let turn := x.b.handleMessage C clock addrA msg
  { x with
    b := turn.node
    toB := x.toB.eraseIdx i
    toA := x.toA ++ turn.sent
    bUp := turn.result.isOk }

/-- What A reads in a delivery. -/
def readByA (x : Exchange) (i : ℕ) : Option Message := if x.aUp then x.toA[i]? else none

/-- What B reads in a delivery. -/
def readByB (x : Exchange) (i : ℕ) : Option Message := if x.bUp then x.toB[i]? else none

/-- The exchange after a delivery. -/
def step (x : Exchange) : Delivery → Exchange
  | .atA i clock => ((x.readByA i).map (x.readA C addrB i clock)).getD x
  | .atB i clock => ((x.readByB i).map (x.readB C addrA i clock)).getD x

/-- The exchange after a sequence of deliveries. -/
def run (x : Exchange) (ds : List Delivery) : Exchange := ds.foldl (step C addrA addrB) x

/-- The delivery is a block that A asked for, and A ends the connection over it. -/
def LimitedAt (x : Exchange) : Delivery → Prop
  | .atA i clock => ∃ block, x.readByA i = some (.blockMsg block) ∧
      block.hashHex C ∈ x.requested ∧
      (x.a.handleMessage C clock addrB (.blockMsg block)).result = .error .blockRate
  | .atB _ _ => False

/-- **No requested block is met with the block-rate error**, at any moment of the exchange. -/
def NeverLimited (x : Exchange) (ds : List Delivery) : Prop :=
  ∀ pre d, pre ++ [d] <+: ds → ¬ LimitedAt C addrB (x.run C addrA addrB pre) d

/-- The time a delivery brings a block to A, if it does and the message is let through. -/
def arrival (x : Exchange) : Delivery → List ℕ
  | .atA i clock =>
    match x.readByA i with
    | some (.blockMsg _) => if x.a.mayMessage clock addrB then [clock.handled] else []
    | _ => []
  | .atB _ _ => []

/-- The times at which blocks reach A. -/
def arrivals : Exchange → List Delivery → List ℕ
  | _, [] => []
  | x, d :: ds => x.arrival addrB d ++ arrivals (x.step C addrA addrB d) ds

end

/-- The times A reads from its clock when it counts a block. -/
def clockOf : Delivery → Option ℕ
  | .atA _ clock => some clock.handled
  | .atB _ _ => none

/-- The monotonic clock of A does not run backwards. -/
def ClockOk (ds : List Delivery) : Prop := (ds.filterMap clockOf).Pairwise (· ≤ ·)

variable {C : Crypto} {addrA addrB : String} {x : Exchange}

/-! ### Every block was asked for -/

/-- Every block and every request in flight goes back to a request of A. -/
structure Solicited (C : Crypto) (x : Exchange) : Prop where
  keyed : x.b.chain.KeyedByHash C
  blocks : ∀ block, .blockMsg block ∈ x.toA → block.hashHex C ∈ x.requested
  requests : ∀ items, .getData items ∈ x.toB → ∀ item ∈ items, item.hash ∈ x.requested

theorem solicited_start {a b : Node} (hb : b.chain.KeyedByHash C) : Solicited C (start a b) where
  keyed := hb
  blocks := by simp [start, Node.greeting]
  requests := by simp [start, Node.greeting]

theorem Solicited.readA (h : Solicited C x) (i : ℕ) (clock : Clock) (msg : Message) :
    Solicited C (x.readA C addrB i clock msg) where
  keyed := h.keyed
  blocks block hblock := List.mem_append_left _ (h.blocks block (List.mem_of_mem_eraseIdx hblock))
  requests items hitems item hitem := by
    rcases List.mem_append.mp hitems with hold | hnew
    · exact List.mem_append_left _ (h.requests items hold item hitem)
    · exact List.mem_append_right _
        (List.mem_flatMap.mpr ⟨_, hnew, List.mem_map_of_mem hitem⟩)

theorem Solicited.readB (h : Solicited C x) {i : ℕ} (clock : Clock) {msg : Message}
    (hmsg : x.toB[i]? = some msg) : Solicited C (x.readB C addrA i clock msg) where
  keyed := Node.keyedByHash_handleMessage h.keyed msg
  blocks block hblock := by
    rcases List.mem_append.mp hblock with hold | hnew
    · exact h.blocks block hold
    · obtain ⟨items, rfl, hitem⟩ := Node.blockMsg_mem_sent h.keyed hnew
      exact h.requests items (List.mem_of_getElem? hmsg) _ hitem
  requests items hitems := h.requests items (List.mem_of_mem_eraseIdx hitems)

/-- A delivery keeps it. -/
theorem Solicited.step (h : Solicited C x) (d : Delivery) :
    Solicited C (x.step C addrA addrB d) := by
  cases d with
  | atA i clock =>
    rw [Exchange.step]
    cases hread : x.readByA i with
    | none => exact h
    | some msg => exact h.readA i clock msg
  | atB i clock =>
    rw [Exchange.step]
    cases hread : x.readByB i with
    | none => exact h
    | some msg =>
      rw [readByB] at hread
      split at hread
      · exact h.readB clock hread
      · cases hread

/-! ### When A is over its limit -/

open SlidingWindow

theorem run_nil : x.run C addrA addrB [] = x := rfl

theorem run_cons (d : Delivery) (ds : List Delivery) :
    x.run C addrA addrB (d :: ds) = (x.step C addrA addrB d).run C addrA addrB ds := rfl

theorem run_append (ds ds' : List Delivery) :
    x.run C addrA addrB (ds ++ ds') = (x.run C addrA addrB ds).run C addrA addrB ds' :=
  List.foldl_append

theorem neverLimited_cons {d : Delivery} {ds : List Delivery} :
    NeverLimited C addrA addrB x (d :: ds) ↔
      ¬ LimitedAt C addrB x d ∧ NeverLimited C addrA addrB (x.step C addrA addrB d) ds := by
  constructor
  · intro h
    refine ⟨h [] d (by simp), fun pre e hpre => ?_⟩
    exact h (d :: pre) e (List.cons_prefix_cons.mpr ⟨rfl, hpre⟩)
  · rintro ⟨hfirst, hrest⟩ pre e hpre
    rcases pre with _ | ⟨d', pre⟩
    · obtain rfl := (List.cons_prefix_cons.mp hpre).1
      exact hfirst
    · obtain ⟨rfl, hpre'⟩ := List.cons_prefix_cons.mp hpre
      exact hrest pre e hpre'

theorem mem_of_readByA {i : ℕ} {msg : Message} (h : x.readByA i = some msg) : msg ∈ x.toA := by
  rw [readByA] at h
  split at h
  · exact List.mem_of_getElem? h
  · cases h

/-- A block arrives at A and is counted. -/
structure Arrives (addrB : String) (x : Exchange) (d : Delivery) (i : ℕ) (clock : Clock)
    (block : Block) : Prop where
  delivery_eq : d = .atA i clock
  read : x.readByA i = some (.blockMsg block)
  may : x.a.mayMessage clock addrB = true

/-- A delivery brings a block to A, or it does not and leaves the limiter for blocks alone. -/
theorem arrival_cases (C : Crypto) (addrA addrB : String) (x : Exchange) (d : Delivery) :
    (∃ i clock block, Arrives addrB x d i clock block ∧ x.arrival addrB d = [clock.handled]) ∨
      (x.arrival addrB d = [] ∧ ¬ LimitedAt C addrB x d ∧
        (x.step C addrA addrB d).a.rateLimiters.blocks = x.a.rateLimiters.blocks) := by
  cases d with
  | atB i clock =>
    refine Or.inr ⟨rfl, not_false, ?_⟩
    rw [step]
    cases hread : x.readByB i with
    | none => rfl
    | some msg => rfl
  | atA i clock =>
    rw [arrival, step]
    cases hread : x.readByA i with
    | none =>
      refine Or.inr ⟨rfl, ?_, rfl⟩
      rintro ⟨block, hblock, -⟩
      cases hread.symm.trans hblock
    | some msg =>
      have hblocks := Node.blocks_handleMessage C clock addrB x.a msg
      by_cases hmsg : ∃ block, msg = .blockMsg block
      · obtain ⟨block, rfl⟩ := hmsg
        cases hmay : x.a.mayMessage clock addrB with
        | true => exact Or.inl ⟨i, clock, block, ⟨rfl, hread, hmay⟩, rfl⟩
        | false =>
          refine Or.inr ⟨rfl, ?_, ?_⟩
          · rintro ⟨b, -, -, hlimited⟩
            have := (Node.result_blockMsg_eq_blockRate_iff.mp hlimited).1
            exact nomatch hmay.symm.trans this
          · rw [hmay] at hblocks
            exact hblocks
      · refine Or.inr ⟨?_, ?_, ?_⟩
        · cases msg with
          | blockMsg block => exact absurd ⟨block, rfl⟩ hmsg
          | _ => rfl
        · rintro ⟨block, hblock, -⟩
          exact hmsg ⟨block, Option.some.inj (hread.symm.trans hblock)⟩
        · cases msg with
          | blockMsg block => exact absurd ⟨block, rfl⟩ hmsg
          | _ => exact hblocks

/-- A requested block is over the limit exactly when it makes eleven in a minute. -/
theorem limitedAt_iff {ts : List ℕ} {d : Delivery} {i : ℕ} {clock : Clock} {block : Block}
    (h : Arrives addrB x d i clock block) (hsol : Solicited C x)
    (htracks : Tracks (60 * 10 ^ 9) ts (x.a.rateLimiters.blocks.entries addrB))
    (hsorted : ts.Pairwise (· ≤ ·)) (hspaced : Spaced 10 (60 * 10 ^ 9) ts)
    (hnow : ∀ t ∈ ts, t ≤ clock.handled) :
    LimitedAt C addrB x d ↔ ¬ Spaced 10 (60 * 10 ^ 9) (ts ++ [clock.handled]) := by
  obtain ⟨rfl, hread, hmay⟩ := h
  have hblock : x.a.mayBlock clock addrB = false ↔
      ¬ (live (60 * 10 ^ 9) clock.handled ts).length < 10 := by
    rw [Node.mayBlock, RateLimiter.check_fst, ← htracks clock.handled hnow]
    exact decide_eq_false_iff_not
  rw [spaced_append_singleton (by decide) hsorted hnow, and_iff_right hspaced, ← hblock]
  constructor
  · rintro ⟨b, -, -, hlimited⟩
    exact (Node.result_blockMsg_eq_blockRate_iff.mp hlimited).2
  · intro hfalse
    exact ⟨block, hread, hsol.blocks block (mem_of_readByA hread),
      Node.result_blockMsg_eq_blockRate_iff.mpr ⟨hmay, hfalse⟩⟩

/-- What a block that is let through leaves in the window. -/
theorem tracks_step {ts : List ℕ} {d : Delivery} {i : ℕ} {clock : Clock} {block : Block}
    (h : Arrives addrB x d i clock block)
    (htracks : Tracks (60 * 10 ^ 9) ts (x.a.rateLimiters.blocks.entries addrB))
    (hsol : Solicited C x) (hfine : ¬ LimitedAt C addrB x d) :
    Tracks (60 * 10 ^ 9) (ts ++ [clock.handled])
      ((x.step C addrA addrB d).a.rateLimiters.blocks.entries addrB) := by
  obtain ⟨rfl, hread, hmay⟩ := h
  have hblock : (x.a.rateLimiters.blocks.check clock.handled addrB).1 = true := by
    by_contra hfalse
    refine hfine ⟨block, hread, hsol.blocks block (mem_of_readByA hread), ?_⟩
    exact Node.result_blockMsg_eq_blockRate_iff.mpr ⟨hmay, by simpa [Node.mayBlock] using hfalse⟩
  have hblocks := Node.blocks_handleMessage C clock addrB x.a
    (.blockMsg block)
  rw [hmay] at hblocks
  have hentries := RateLimiter.entries_check_self clock.handled x.a.rateLimiters.blocks addrB
  rw [hblock] at hentries
  rw [step, hread]
  show Tracks _ _ ((x.a.handleMessage C clock addrB
    (.blockMsg block)).node.rateLimiters.blocks.entries addrB)
  rw [hblocks, if_pos rfl, hentries]
  exact htracks.push

/-- From any moment on: the blocks that have arrived so far are `ts`. -/
theorem neverLimited_iff_spaced {ts : List ℕ} {ds : List Delivery} (hsol : Solicited C x)
    (htracks : Tracks (60 * 10 ^ 9) ts (x.a.rateLimiters.blocks.entries addrB))
    (hclock : (ts ++ ds.filterMap clockOf).Pairwise (· ≤ ·))
    (hspaced : Spaced 10 (60 * 10 ^ 9) ts) :
    NeverLimited C addrA addrB x ds ↔
      Spaced 10 (60 * 10 ^ 9) (ts ++ x.arrivals C addrA addrB ds) := by
  induction ds generalizing x ts with
  | nil =>
    refine iff_of_true (fun pre d hpre => ?_) (by simpa [arrivals] using hspaced)
    simp at hpre
  | cons d ds ih =>
    rw [neverLimited_cons, arrivals]
    rcases arrival_cases C addrA addrB x d with ⟨i, clock, block, harrives, htime⟩ |
      ⟨hnone, hfine, hsame⟩
    · have hd : clockOf d = some clock.handled := by rw [harrives.delivery_eq, clockOf]
      rw [List.filterMap_cons_some hd, List.append_cons] at hclock
      obtain ⟨hfirst, -, -⟩ := List.pairwise_append.mp hclock
      obtain ⟨hsorted, -, hlast⟩ := List.pairwise_append.mp hfirst
      have hnow : ∀ t ∈ ts, t ≤ clock.handled := fun t ht => hlast t ht _ (by simp)
      have hlimited := limitedAt_iff harrives hsol htracks hsorted hspaced hnow
      rw [htime, List.singleton_append, List.append_cons]
      by_cases hfine : LimitedAt C addrB x d
      · exact iff_of_false (fun h => h.1 hfine) fun h => hlimited.mp hfine h.of_append
      · rw [and_iff_right hfine]
        exact ih (hsol.step d) (tracks_step harrives htracks hsol hfine) hclock
          (not_not.mp (mt hlimited.mpr hfine))
    · rw [hnone, List.nil_append, and_iff_right hfine]
      refine ih (hsol.step d) (hsame ▸ htracks) ?_ hspaced
      refine hclock.sublist (List.Sublist.append_left ?_ ts)
      exact (List.sublist_cons_self d ds).filterMap clockOf

/-- **A fetches what it asked for without cutting the connection over it exactly when no more than
ten blocks reach it in any minute.** -/
theorem never_limited_iff (C : Crypto) (addrA addrB : String) (a b : Node)
    (hb : Blockchain.Reachable C b.chain) (hempty : a.rateLimiters.blocks.entries addrB = [])
    (ds : List Delivery) (hclock : ClockOk ds) :
    NeverLimited C addrA addrB (start a b) ds ↔
      Spaced 10 (60 * 10 ^ 9) ((start a b).arrivals C addrA addrB ds) := by
  have htracks : Tracks (60 * 10 ^ 9) [] ((start a b).a.rateLimiters.blocks.entries addrB) := by
    show Tracks _ [] (a.rateLimiters.blocks.entries addrB)
    rw [hempty]
    exact tracks_nil
  have h : NeverLimited C addrA addrB (start a b) ds ↔
      Spaced 10 (60 * 10 ^ 9) ([] ++ (start a b).arrivals C addrA addrB ds) :=
    neverLimited_iff_spaced (solicited_start hb.keyedByHash) htracks
      (by simpa [ClockOk] using hclock) spaced_nil
  rwa [List.nil_append] at h

/-! ### Eleven blocks at once -/

/-- A chain of the regression-test network: the genesis and eleven blocks more. -/
def aheadChain : Blockchain :=
  Blockchain.run Crypto.sample
    (.fromGenesisWithMagic Crypto.sample sampleGenesis none regtestMagic)
    (Blockchain.deliver (fun _ => sampleNow) 0 (idleChain 10).tail)

/-- The node that has it. -/
def aheadNode : Node := .new aheadChain regtestMagic

/-- The eleven blocks. -/
def missing : List Block := (List.range 11).map idleBlock

/-- What A asks for. -/
def missingItems : List InvItem := missing.map fun b => ⟨.block, b.hashHex Crypto.sample⟩

theorem reachable_aheadChain : Blockchain.Reachable Crypto.sample aheadChain :=
  Blockchain.Reachable.run (.genesis sampleGenesis none regtestMagic) _

/-- What is known of the longer chain. -/
theorem aheadChain_spec :
    aheadChain.blocks = sampleGenesis :: missing ∧ aheadChain.height = 11 ∧
      Node.locatorStart aheadChain [sampleGenesis.hashHex Crypto.sample] = 1 ∧
      ∀ b ∈ missing, aheadChain.allBlocks.lookup (b.hashHex Crypto.sample) = some b := by
  obtain ⟨s, -, hrun, hinv, hblocks, -, -⟩ :=
    (sampleChain_idleChain (n := 10) (by decide)).run_deliver (by decide)
  have hspec := hinv.stateEqualsReplay rfl
  rw [aheadChain, hrun]
  refine ⟨hblocks, ?_, ?_, fun b hb => hspec.stored b ?_⟩
  · have htip : s.tip = idleBlock 10 := by
      have hlast := s.getLast?_blocks
      rw [hblocks, getLast?_idleChain] at hlast
      exact (Option.some.inj hlast).symm
    rw [Blockchain.height, htip, height_idleBlock]
  · have hindex : s.blockIndex.lookup (sampleGenesis.hashHex Crypto.sample) = some 0 :=
      (hspec.index_iff _ 0).mpr ⟨sampleGenesis, by rw [hblocks]; rfl, rfl⟩
    simp [Node.locatorStart, hindex]
  · rw [hblocks]
    exact List.mem_cons_of_mem _ hb

/-- Idle blocks follow one another. -/
theorem linked_idleBlock (s : Blockchain) (k m : ℕ) :
    Node.Linked Crypto.sample s (some ((idleBlock k).hashHex Crypto.sample))
      (((List.range' (k + 1) m).map idleBlock).map Block.header) := by
  induction m generalizing k with
  | zero => trivial
  | succ m ih => exact ⟨rfl, meetsTarget_sample (bits_idleBlock (k + 1)), ih (k + 1)⟩

/-- A node that has the genesis asks for all eleven. -/
theorem toFetch_missing :
    Node.toFetch Crypto.sample sampleNode.chain none (missing.map Block.header) = missingItems := by
  have hnew : ∀ b ∈ missing, b.hashHex Crypto.sample ∉ sampleNode.chain.allBlocks := by
    intro b hb hmem
    obtain ⟨i, hi, rfl⟩ := List.mem_map.mp hb
    have heq : (idleBlock i).hashHex Crypto.sample = sampleGenesis.hashHex Crypto.sample :=
      (Finmap.mem_insert.mp hmem).resolve_right Finmap.notMem_empty
    have htime := congrArg UInt64.toNat (timestamp_eq_of_hashHex heq)
    rw [List.mem_range] at hi
    rw [timestamp_idleBlock, toNat_sampleTime (by omega)] at htime
    have hgenesis : sampleGenesis.header.timestamp.toNat = 1700000000 := rfl
    omega
  have hlinked : Node.Linked Crypto.sample sampleNode.chain none (missing.map Block.header) :=
    ⟨Finmap.mem_insert.mpr (Or.inl rfl), meetsTarget_sample (bits_idleBlock 0),
      linked_idleBlock _ 0 10⟩
  exact Node.toFetch_of_linked hlinked hnew

/-- One turn that goes on, with what it sends and what it leaves. -/
structure Turn (C : Crypto) (clock : Clock) (addr : String) (n : Node) (msg : Message)
    (sent : List Message) (n' : Node) : Prop where
  result_eq : (n.handleMessage C clock addr msg).result = .ok ()
  sent_eq : (n.handleMessage C clock addr msg).sent = sent
  node_eq : (n.handleMessage C clock addr msg).node = n'

section

variable {a a' b b' : Node} {clock : Clock} {msg : Message} {sent toA toB : List Message}
  {requested : List String} {up : Bool}

theorem step_atA (h : Turn C clock addrB a msg sent a') :
    step C addrA addrB ⟨a, b, msg :: toA, toB, requested, true, up⟩ (.atA 0 clock) =
      ⟨a', b, toA, toB ++ sent, requested ++ sent.flatMap Message.asksFor, true, up⟩ := by
  show readA C addrB _ 0 clock msg = _
  rw [readA, h.result_eq, h.sent_eq, h.node_eq]
  rfl

theorem step_atB (h : Turn C clock addrA b msg sent b') :
    step C addrA addrB ⟨a, b, toA, msg :: toB, requested, up, true⟩ (.atB 0 clock) =
      ⟨a, b', toA ++ sent, toB, requested, up, true⟩ := by
  show readB C addrA _ 0 clock msg = _
  rw [readB, h.result_eq, h.sent_eq, h.node_eq]
  rfl

end

/-- Do the messages pass without a word? -/
def quiet (C : Crypto) (clock : Clock) (addr : String) : Node → List Message → Bool
  | _, [] => true
  | n, msg :: msgs =>
    (n.handleMessage C clock addr msg).result.isOk &&
      decide ((n.handleMessage C clock addr msg).sent = []) &&
      quiet C clock addr (n.handleMessage C clock addr msg).node msgs

/-- The node after a list of messages. -/
def readAll (C : Crypto) (clock : Clock) (addr : String) : Node → List Message → Node
  | n, [] => n
  | n, msg :: msgs => readAll C clock addr (n.handleMessage C clock addr msg).node msgs

/-- A reads what passes without a word, one message after the other. -/
theorem run_quiet {a b : Node} {clock : Clock} {msgs toA toB : List Message}
    {requested : List String} {up : Bool} (h : quiet C clock addrB a msgs = true) :
    run C addrA addrB ⟨a, b, msgs ++ toA, toB, requested, true, up⟩
        (List.replicate msgs.length (.atA 0 clock)) =
      ⟨readAll C clock addrB a msgs, b, toA, toB, requested, true, up⟩ := by
  induction msgs generalizing a with
  | nil => rfl
  | cons msg msgs ih =>
    simp only [quiet, Bool.and_eq_true, decide_eq_true_eq] at h
    obtain ⟨⟨hresult, hsent⟩, hrest⟩ := h
    have hok : (a.handleMessage C clock addrB msg).result = .ok () := by
      cases hr : (a.handleMessage C clock addrB msg).result with
      | ok _ => rfl
      | error e => simp [hr, Except.isOk, Except.toBool] at hresult
    rw [List.length_cons, List.replicate_succ, List.cons_append]
    rw [run_cons, step_atA ⟨hok, hsent, rfl⟩, List.append_nil, List.flatMap_nil,
      List.append_nil, ih hrest]
    rfl

/-- The addresses the nodes see each other at. -/
def sampleAddrA : String := "203.0.113.7:8333"

@[inherit_doc sampleAddrA]
def sampleAddrB : String := "203.0.113.8:8333"

/-- What a node is after it read `k` messages that write nothing. -/
def counted (addr : String) (n : Node) : ℕ → Node
  | 0 => n
  | k + 1 => (counted addr n k).countMessage sampleClock addr

theorem start_eq_counted (a b : Node) :
    start a b = ⟨counted sampleAddrB a 0, counted sampleAddrA b 0, [b.greeting], [a.greeting], [],
      true, true⟩ := rfl

theorem chain_counted (addr : String) (n : Node) (k : ℕ) : (counted addr n k).chain = n.chain := by
  induction k with
  | zero => rfl
  | succ k ih => exact ih

theorem networkMagic_counted (addr : String) (n : Node) (k : ℕ) :
    (counted addr n k).networkMagic = n.networkMagic := by
  induction k with
  | zero => rfl
  | succ k ih => exact ih

/-- A message that writes nothing. -/
theorem turn_of_reply {addr : String} {n : Node} {k : ℕ} {msg : Message} {sent : List Message}
    (hmay : (counted addr n k).mayMessage sampleClock addr = true)
    (h : (counted addr n (k + 1)).dispatch C sampleClock addr msg =
      (counted addr n (k + 1)).reply sent) :
    Turn C sampleClock addr (counted addr n k) msg sent (counted addr n (k + 1)) := by
  have hturn := Node.handleMessage_of_may (C := C) hmay msg
  rw [show ((counted addr n k).countMessage sampleClock addr) = counted addr n (k + 1) from rfl, h]
    at hturn
  exact ⟨by rw [hturn]; rfl, by rw [hturn]; rfl, by rw [hturn]; rfl⟩

/-- The greeting of the node that is behind. -/
theorem dispatch_greetingA (k : ℕ) :
    (counted sampleAddrA aheadNode k).dispatch Crypto.sample sampleClock sampleAddrA
      sampleNode.greeting = (counted sampleAddrA aheadNode k).reply [.verack] := by
  have hgreeting : sampleNode.greeting = .version protocolVersion regtestMagic 0 "arkos/0.1" := rfl
  have hagent : ¬ maxUserAgentLen < (utf8 "arkos/0.1").length := by decide
  have hmagic : (counted sampleAddrA aheadNode k).networkMagic = regtestMagic :=
    networkMagic_counted _ _ _
  rw [hgreeting, Node.dispatch, Node.handleVersion, if_neg hagent, hmagic, if_neg (by simp),
    if_neg (by simp), if_neg (Nat.not_lt_zero _)]

/-- The greeting of the node that is ahead: the other asks for headers. -/
theorem dispatch_greetingB :
    (counted sampleAddrB sampleNode 1).dispatch Crypto.sample sampleClock sampleAddrB
      aheadNode.greeting = (counted sampleAddrB sampleNode 1).reply
        [.verack, .getHeaders [sampleGenesis.hashHex Crypto.sample]] := by
  have hgreeting : aheadNode.greeting = .version protocolVersion regtestMagic 11 "arkos/0.1" := by
    rw [Node.greeting, aheadNode, Node.chain_new, aheadChain_spec.2.1]
    rfl
  have hagent : ¬ maxUserAgentLen < (utf8 "arkos/0.1").length := by decide
  have hlocator : Node.blockLocator Crypto.sample sampleNode.chain =
      [sampleGenesis.hashHex Crypto.sample] := by decide +kernel
  have hbehind : sampleNode.chain.height < 11 := by decide
  rw [hgreeting, Node.dispatch, Node.handleVersion, if_neg hagent, networkMagic_counted,
    chain_counted, if_neg (by decide), if_neg (by simp), if_pos hbehind, hlocator]

/-- The headers the node that is ahead answers with. -/
theorem dispatch_getHeaders (k : ℕ) :
    (counted sampleAddrA aheadNode k).dispatch Crypto.sample sampleClock sampleAddrA
      (.getHeaders [sampleGenesis.hashHex Crypto.sample]) =
      (counted sampleAddrA aheadNode k).reply [.headers (missing.map Block.header)] := by
  obtain ⟨hblocks, -, hstart, -⟩ := aheadChain_spec
  have hheaders : ((aheadChain.blocks.drop 1).take maxHeadersPerResponse).map Block.header =
      missing.map Block.header := by
    rw [hblocks]
    rfl
  rw [Node.dispatch, Node.handleGetHeaders, chain_counted, aheadNode, Node.chain_new, hstart,
    hheaders]
  exact if_neg (by simp [missing])

/-- The request they lead to. -/
theorem dispatch_headers (k : ℕ) :
    (counted sampleAddrB sampleNode k).dispatch Crypto.sample sampleClock sampleAddrB
      (.headers (missing.map Block.header)) =
      (counted sampleAddrB sampleNode k).reply [.getData missingItems] := by
  have hchunks : Node.chunks maxGetdataInflight missingItems = [missingItems] := rfl
  rw [Node.dispatch, Node.handleHeaders, chain_counted, toFetch_missing, hchunks]
  rfl

/-- The blocks it is answered with. -/
theorem dispatch_getData (k : ℕ) :
    (counted sampleAddrA aheadNode k).dispatch Crypto.sample sampleClock sampleAddrA
      (.getData missingItems) =
        (counted sampleAddrA aheadNode k).reply (missing.map .blockMsg) := by
  obtain ⟨-, -, -, hstored⟩ := aheadChain_spec
  have hanswers : missingItems.filterMap (Node.answer aheadChain) = missing.map .blockMsg := by
    rw [missingItems, List.filterMap_map, ← List.filterMap_eq_map]
    refine List.filterMap_congr fun b hb => ?_
    rw [Function.comp_apply, Node.answer_block, hstored b hb]
    rfl
  rw [Node.dispatch, Node.handleGetData, chain_counted, aheadNode, Node.chain_new, hanswers]

/-- The messages of the exchange one after the other: the greetings, the headers, the request. -/
def catchUp : List Delivery :=
  [.atA 0 sampleClock, .atB 0 sampleClock, .atB 0 sampleClock, .atB 0 sampleClock,
    .atA 0 sampleClock, .atA 0 sampleClock, .atB 0 sampleClock]

/-- All eleven blocks are on their way. -/
theorem run_catchUp :
    run Crypto.sample sampleAddrA sampleAddrB (start sampleNode aheadNode) catchUp =
      ⟨counted sampleAddrB sampleNode 3, counted sampleAddrA aheadNode 4, missing.map .blockMsg, [],
        missing.map (Block.hashHex Crypto.sample), true, true⟩ := by
  have hA :
      ∀ k < 3, (counted sampleAddrB sampleNode k).mayMessage sampleClock sampleAddrB = true := by
    decide +kernel
  have hB :
      ∀ k < 4, (counted sampleAddrA aheadNode k).mayMessage sampleClock sampleAddrA = true := by
    decide +kernel
  have hverackA : ∀ k, (counted sampleAddrB sampleNode k).dispatch Crypto.sample sampleClock
      sampleAddrB .verack = (counted sampleAddrB sampleNode k).reply [] := fun _ => rfl
  have hverackB : ∀ k, (counted sampleAddrA aheadNode k).dispatch Crypto.sample sampleClock
      sampleAddrA .verack = (counted sampleAddrA aheadNode k).reply [] := fun _ => rfl
  have h₁ := turn_of_reply (hA 0 (by decide)) dispatch_greetingB
  have h₂ := turn_of_reply (hB 0 (by decide)) (dispatch_greetingA 1)
  have h₃ := turn_of_reply (hB 1 (by decide)) (hverackB 2)
  have h₄ := turn_of_reply (hB 2 (by decide)) (dispatch_getHeaders 3)
  have h₅ := turn_of_reply (hA 1 (by decide)) (hverackA 2)
  have h₆ := turn_of_reply (hA 2 (by decide)) (dispatch_headers 3)
  have h₇ := turn_of_reply (hB 3 (by decide)) (dispatch_getData 4)
  have hasked : [Message.getData missingItems].flatMap Message.asksFor =
      missing.map (Block.hashHex Crypto.sample) := by
    simp [Message.asksFor, missingItems]
  have hnone : [Message.verack, .getHeaders [sampleGenesis.hashHex Crypto.sample]].flatMap
      Message.asksFor = [] := rfl
  rw [catchUp, start_eq_counted, run_cons, step_atA h₁, hnone, List.cons_append, List.nil_append,
    run_cons, step_atB h₂, List.nil_append, run_cons, step_atB h₃, List.append_nil, run_cons,
    step_atB h₄, List.cons_append, List.nil_append, run_cons, step_atA h₅, List.flatMap_nil,
    List.append_nil, List.append_nil, run_cons, step_atA h₆, hasked, List.nil_append, run_cons,
    step_atB h₇, run_nil, List.nil_append, List.nil_append, List.nil_append]

theorem length_arrivals_le (x : Exchange) (ds : List Delivery) :
    (x.arrivals C addrA addrB ds).length ≤ (ds.filterMap clockOf).length := by
  induction ds generalizing x with
  | nil => exact le_rfl
  | cons d ds ih =>
    have hrest := ih (x.step C addrA addrB d)
    rw [arrivals, List.length_append]
    rcases arrival_cases C addrA addrB x d with ⟨i, clock, block, harrives, htime⟩ | ⟨hnone, -, -⟩
    · have hd : clockOf d = some clock.handled := by rw [harrives.delivery_eq, clockOf]
      rw [htime, List.filterMap_cons_some hd, List.length_singleton, List.length_cons]
      omega
    · have hsub := ((List.sublist_cons_self d ds).filterMap clockOf).length_le
      rw [hnone, List.length_nil]
      omega

/-- The first seven of the missing blocks come through. -/
theorem never_limited_iff_sevenBlocks :
    NeverLimited Crypto.sample sampleAddrA sampleAddrB (start sampleNode aheadNode)
      (catchUp ++ List.replicate 7 (.atA 0 sampleClock)) := by
  have hreachable : Blockchain.Reachable Crypto.sample aheadNode.chain := by
    rw [aheadNode, Node.chain_new]
    exact reachable_aheadChain
  have hclock : ClockOk (catchUp ++ List.replicate 7 (.atA 0 sampleClock)) := by
    rw [ClockOk]
    decide
  refine (never_limited_iff Crypto.sample sampleAddrA sampleAddrB sampleNode aheadNode hreachable
    RateLimiter.entries_new _ hclock).mpr (spaced_of_length_le ?_)
  exact length_arrivals_le _ _

/-- **Eleven missing blocks, fetched within one minute**: A asked for all of them, and the eleventh
ends the connection. -/
theorem not_neverLimited_elevenBlocks :
    sampleNode.chain.blocks <+: aheadNode.chain.blocks ∧
      sampleNode.chain.blocks ≠ aheadNode.chain.blocks ∧
      Blockchain.Reachable Crypto.sample aheadNode.chain ∧
      sampleNode.rateLimiters = .new ∧
      ¬ NeverLimited Crypto.sample sampleAddrA sampleAddrB (start sampleNode aheadNode)
        (catchUp ++ List.replicate 10 (.atA 0 sampleClock) ++ [.atA 0 sampleClock]) := by
  have hlonger : aheadNode.chain.blocks = sampleGenesis :: missing := by
    rw [aheadNode, Node.chain_new, aheadChain_spec.1]
  have hshort : sampleNode.chain.blocks = [sampleGenesis] := rfl
  refine ⟨?_, ?_, ?_, rfl, fun hnever => ?_⟩
  · rw [hlonger, hshort]
    exact List.prefix_append [sampleGenesis] missing
  · rw [hlonger, hshort]
    simp [missing]
  · rw [aheadNode, Node.chain_new]
    exact reachable_aheadChain
  · have hquiet : quiet Crypto.sample sampleClock sampleAddrB (counted sampleAddrB sampleNode 3)
        (((List.range 10).map idleBlock).map .blockMsg) = true := by decide +kernel
    have hsplit : missing.map Message.blockMsg =
        ((List.range 10).map idleBlock).map .blockMsg ++ [.blockMsg (idleBlock 10)] := rfl
    have hrun : run Crypto.sample sampleAddrA sampleAddrB (start sampleNode aheadNode)
        (catchUp ++ List.replicate 10 (.atA 0 sampleClock)) =
        ⟨readAll Crypto.sample sampleClock sampleAddrB (counted sampleAddrB sampleNode 3)
            (((List.range 10).map idleBlock).map .blockMsg), counted sampleAddrA aheadNode 4,
          [.blockMsg (idleBlock 10)], [], missing.map (Block.hashHex Crypto.sample),
            true, true⟩ := by
      rw [run_append, run_catchUp, hsplit]
      exact run_quiet hquiet
    refine hnever _ (.atA 0 sampleClock) List.prefix_rfl ?_
    rw [hrun]
    refine ⟨idleBlock 10, rfl, List.mem_map_of_mem (List.mem_map_of_mem (by decide)), ?_⟩
    exact Node.result_blockMsg_eq_blockRate_iff.mpr ⟨by decide +kernel, by decide +kernel⟩

end Exchange

end Arkos
