import Arkos.Network.Route

/-!
# Nodes that hear everything agree

Nodes that were created from one genesis and are linked by connections announce to each other every
block they accept. Nothing in the protocol orders the blocks: they are announced by different nodes,
requested again and again, and arrive in between other messages. They arrive in a usable order all
the same, because every stage of every connection is a queue, so that a parent is ahead of its
children (`Sound.feed`). A block that an honest node sends is never refused, and once a connection
has come to rest its ends know the same blocks.

This holds whatever peers outside the network send in the meantime. What it needs of a run is
collected in `Calm`: clocks that do not run backwards, no overflow and nothing pruned, connections
that are opened between nodes that know the same blocks, and outsiders with addresses of their own.
A connection takes part until one of its ends returns or its relay channel overruns.

## Main definitions

* `Net.Calm` — the runs
* `Net.Sound` — the invariant
* `Net.Settled` — a connection at rest

## Main results

* `Net.Sound.step`, `Net.Sound.run`
* `Net.honest_block_accepted`
* `Net.settled_agree`
-/

namespace Arkos

namespace Net

variable {ι : Type} [DecidableEq ι] {C : Crypto} {addr : ι → ι → String} {magic : UInt32}
  {g : Block} {all : List Block} {latest : ℕ} {net : Net ι}

/-! ### Runs -/

/-- The reading of a wall clock that an event uses. -/
def Event.reading : Event ι → Option ℕ
  | .read _ _ clock => some clock.unix
  | .outside _ clock _ _ => some clock.unix
  | .mine _ _ _ now' _ _ => some now'
  | _ => none

/-- The event is one of a calm run: clocks are not behind, a call of `add_block` loses nothing, and
who is linked or sends from outside is as it should be. -/
structure CalmAt (C : Crypto) (addr : ι → ι → String) (latest : ℕ) (net : Net ι) (e : Event ι) :
    Prop where
  reading : ∀ t, e.reading = some t → latest ≤ t
  lossless : ∀ i now b, net.call C addr e = some (i, now, b) →
    (net.node i).chain.Lossless C now b
  link : ∀ i j heightI heightJ, e = .link i j heightI heightJ →
    (net.node i).chain.known = (net.node j).chain.known
  outside : ∀ i clock source msg, e = .outside i clock source msg → ∀ j, source ≠ addr i j

/-- **A calm run.** -/
def Calm (C : Crypto) (addr : ι → ι → String) : ℕ → Net ι → List (Event ι) → Prop
  | _, _, [] => True
  | latest, net, e :: evs =>
    CalmAt C addr latest net e ∧ Calm C addr (e.reading.getD latest) (net.step C addr e) evs

/-- The last reading of a run. -/
def clockAfter (latest : ℕ) (evs : List (Event ι)) : ℕ :=
  evs.foldl (fun t e => e.reading.getD t) latest

/-- Both ends of the connection are up, and `i` has lost no relay. -/
def Live (net : Net ι) (i j : ι) : Prop :=
  (net.conn i j).up = true ∧ (net.conn j i).up = true ∧ (net.conn i j).missed = 0

/-- The hashes on their way from `i` to `j`. -/
def routeTo (C : Crypto) (addr : ι → ι → String) (net : Net ι) (i j : ι) : List String :=
  route C (addr i j) (net.conn j i).inbox (net.conn i j).inbox (net.conn i j).relays

/-- **The invariant of a calm run.** -/
structure Sound (C : Crypto) (addr : ι → ι → String) (magic : UInt32) (g : Block) (all : List Block)
    (latest : ℕ) (net : Net ι) : Prop where
  grown : ∀ i, (net.node i).chain.Grown C magic g all latest
  irrefl : ∀ i, (net.conn i i).up = false
  honest : ∀ i j, (net.conn i j).up = true → (net.conn j i).up = true →
    ∀ msg ∈ (net.conn i j).inbox, Honest C (net.node j).chain msg
  invs : ∀ i j, ∀ r ∈ (net.conn i j).relays, ∃ items, r.message = .inv items
  feed : ∀ i j, net.Live i j → Causal.Feed (needs C all) (net.node i).chain.known
    (net.node j).chain.known (net.routeTo C addr i j)

/-! ### The chains -/

/-- What a calm event leaves of a chain: a node that has lost nothing. -/
structure Kept (C : Crypto) (magic : UInt32) (g : Block) (all : List Block) (latest : ℕ)
    (s s' : Blockchain) : Prop where
  grown : s'.Grown C magic g all latest
  lookup : ∀ h x, s.allBlocks.lookup h = some x → s'.allBlocks.lookup h = some x

theorem Kept.known_subset {s s' : Blockchain} (h : Kept C magic g all latest s s') :
    s.known ⊆ s'.known := fun k hk => by
  obtain ⟨x, hx⟩ := Finmap.mem_iff.mp hk
  exact Finmap.mem_of_lookup (h.lookup k x hx)

/-- No block comes or goes with a transaction. -/
theorem SameBlocks.allBlocks_eq {s s' : Blockchain} (h : SameBlocks C s s') :
    s'.allBlocks = s.allBlocks := by
  rcases h with rfl | ⟨tx, rfl⟩
  · rfl
  · exact (Blockchain.submitTransaction_frame s tx).1

theorem SameBlocks.known_eq {s s' : Blockchain} (h : SameBlocks C s s') : s'.known = s.known := by
  rw [Blockchain.known, h.allBlocks_eq]
  rfl

omit [DecidableEq ι] in
/-- A call is made at the reading of the event. -/
theorem reading_of_call {e : Event ι} {i : ι} {now : ℕ} {b : Block}
    (hcall : net.call C addr e = some (i, now, b)) : e.reading = some now := by
  cases e with
  | read a c clock =>
    rw [call] at hcall
    split at hcall
    · obtain ⟨block, -, heq⟩ := Option.map_eq_some_iff.mp hcall
      cases heq
      rfl
    · cases hcall
  | outside a clock source msg =>
    obtain ⟨block, -, heq⟩ := Option.map_eq_some_iff.mp hcall
    cases heq
    rfl
  | mine a fuel t t' order minerAddress =>
    obtain ⟨block, -, heq⟩ := Option.map_eq_some_iff.mp hcall
    cases heq
    rfl
  | _ => cases hcall

section

variable (hg : g.height = 0) (hsep : Separated C all) {e : Event ι}

include hg hsep in
/-- The chains after a calm event. -/
theorem Sound.kept (hs : Sound C addr magic g all latest net) (hcalm : CalmAt C addr latest net e)
    (hrecorded : ∀ x ∈ net.recordedBy C addr e, x ∈ all) (a : ι) :
    Kept C magic g all (e.reading.getD latest) (net.node a).chain
      ((net.step C addr e).node a).chain := by
  have hle : latest ≤ e.reading.getD latest := by
    cases hread : e.reading with
    | none => exact le_rfl
    | some t => exact hcalm.reading t hread
  rcases chain_step C addr net e a with
    ⟨now, b, hcall, hchain⟩ | ⟨-, hsame⟩
  · have hkeep := hcalm.lossless a now b hcall
    have hnow : e.reading = some now := reading_of_call hcall
    rw [hchain, hnow, Option.getD_some]
    rw [recordedBy_of_call hcall] at hrecorded
    exact ⟨(hs.grown a).addBlock hg hsep (hcalm.reading now hnow) hrecorded hkeep, hkeep.kept⟩
  · refine ⟨?_, fun h x hx => hsame.allBlocks_eq ▸ hx⟩
    rcases hsame with hsame | ⟨tx, hsame⟩
    · rw [hsame]
      exact (hs.grown a).mono hle
    · rw [hsame]
      exact ((hs.grown a).mono hle).submitTransaction tx

/-- A node that makes no call knows the same blocks afterwards. -/
theorem known_step (C : Crypto) (addr : ι → ι → String) (net : Net ι) (e : Event ι) {a : ι}
    (hnone : ∀ now b, net.call C addr e ≠ some (a, now, b)) :
    ((net.step C addr e).node a).chain.known = (net.node a).chain.known := by
  rcases chain_step C addr net e a with ⟨now, b, hcall, -⟩ | ⟨-, hsame⟩
  · exact absurd hcall (hnone now b)
  · exact hsame.known_eq

omit [DecidableEq ι] in
include hg hsep in
/-- What a turn of `i` takes in and relays. -/
theorem Sound.takesIn_turn (hs : Sound C addr magic g all latest net) {i : ι} {clock : Clock}
    {source : String} {msg : Message}
    (hcall : ∀ b, (net.node i).call clock source msg = some b →
      (net.node i).chain.Lossless C clock.unix b ∧
      ∀ x ∈ (net.node i).chain.recordedBy C (.addBlock clock.unix b), x ∈ all) :
    TakesIn C all source (net.node i).chain
      ((net.node i).handleMessage C clock source msg).node.chain
      ((net.node i).handleMessage C clock source msg).relayed := by
  rcases Node.turn_cases C clock source (net.node i) msg with
    ⟨b, hb, -, -, hchain, hrelayed⟩ | ⟨-, htx, hsame⟩
  · obtain ⟨hkeep, hrecorded⟩ := hcall b hb
    rw [hchain, hrelayed]
    exact takesIn_addBlock hg hsep (hs.grown i) source hrecorded hkeep
  · exact .nothing htx (SameBlocks.known_eq hsame)

/-! ### Connections -/

@[simp] theorem setEnds_left (conn : ι → ι → Conn) (i j : ι) (c c' : Conn) :
    setEnds conn i j c c' i j = c := if_pos ⟨rfl, rfl⟩

theorem setEnds_right {i j : ι} (hij : i ≠ j) (conn : ι → ι → Conn) (c c' : Conn) :
    setEnds conn i j c c' j i = c' :=
  (if_neg fun h => hij h.2).trans (if_pos ⟨rfl, rfl⟩)

theorem setEnds_of_ne {conn : ι → ι → Conn} {i j a b : ι} {c c' : Conn} (h : ¬ (a = i ∧ b = j))
    (h' : ¬ (a = j ∧ b = i)) : setEnds conn i j c c' a b = conn a b :=
  (if_neg h).trans (if_neg h')

theorem setEnds_diag {i j : ι} (hij : i ≠ j) (conn : ι → ι → Conn) (c c' : Conn) (a : ι) :
    setEnds conn i j c c' a a = conn a a :=
  setEnds_of_ne (fun h => hij (h.1.symm.trans h.2)) fun h => hij (h.2.symm.trans h.1)

theorem setEnds_swap {conn : ι → ι → Conn} {i j a b : ι} {c c' : Conn} (h : ¬ (a = i ∧ b = j))
    (h' : ¬ (a = j ∧ b = i)) : setEnds conn i j c c' b a = conn b a :=
  setEnds_of_ne (fun hn => h' ⟨hn.2, hn.1⟩) fun hn => h ⟨hn.2, hn.1⟩

/-- What is to be shown of all connections is shown of the two ends of one, and of all others. -/
theorem ends_cases {P : ι → ι → Prop} (i j : ι) (hij : P i j) (hji : P j i)
    (hother : ∀ a b, ¬ (a = i ∧ b = j) → ¬ (a = j ∧ b = i) → P a b) : ∀ a b, P a b := by
  intro a b
  by_cases h : a = i ∧ b = j
  · rw [h.1, h.2]
    exact hij
  · by_cases h' : a = j ∧ b = i
    · rw [h'.1, h'.2]
      exact hji
    · exact hother a b h h'

@[simp] theorem publish_self (conn : ι → ι → Conn) (i : ι) (relayed : List RelayMessage) (b : ι) :
    publish conn i relayed i b = (conn i b).publish relayed := if_pos rfl

theorem publish_of_ne {conn : ι → ι → Conn} {i a : ι} {relayed : List RelayMessage} (ha : a ≠ i)
    (b : ι) : publish conn i relayed a b = conn a b := if_neg ha

theorem up_publish (conn : ι → ι → Conn) (i : ι) (relayed : List RelayMessage) (a b : ι) :
    (publish conn i relayed a b).up = (conn a b).up := by
  rw [publish]
  split
  · exact Conn.up_publish _ _
  · rfl

theorem inbox_publish (conn : ι → ι → Conn) (i : ι) (relayed : List RelayMessage) (a b : ι) :
    (publish conn i relayed a b).inbox = (conn a b).inbox := by
  rw [publish]
  split
  · exact Conn.inbox_publish _ _
  · rfl

theorem missed_le_publish (conn : ι → ι → Conn) (i : ι) (relayed : List RelayMessage) {a b : ι}
    (hup : (conn a b).up = true) : (conn a b).missed ≤ (publish conn i relayed a b).missed := by
  rw [publish]
  split
  · exact (Conn.publish_spec hup relayed).2.1
  · exact le_rfl

theorem mem_relays_publish {conn : ι → ι → Conn} {i a b : ι} {relayed : List RelayMessage}
    {r : RelayMessage} (hr : r ∈ (publish conn i relayed a b).relays) :
    r ∈ (conn a b).relays ∨ r ∈ relayed := by
  rw [publish] at hr
  split at hr
  · by_cases hup : (conn a b).up = true
    · exact (Conn.publish_spec hup relayed).1 r hr
    · rw [Conn.publish, if_neg hup] at hr
      exact Or.inl hr
  · exact Or.inl hr

omit [DecidableEq ι] in
/-- The invariant, in terms of the nodes and the connections. -/
theorem sound_mk {node : ι → Node} {conn : ι → ι → Conn}
    (hgrown : ∀ a, (node a).chain.Grown C magic g all latest)
    (hirrefl : ∀ a, (conn a a).up = false)
    (hhonest : ∀ a b, (conn a b).up = true → (conn b a).up = true → ∀ msg ∈ (conn a b).inbox,
      Honest C (node b).chain msg)
    (hinvs : ∀ a b, ∀ r ∈ (conn a b).relays, ∃ items, r.message = .inv items)
    (hfeed : ∀ a b, (conn a b).up = true → (conn b a).up = true → (conn a b).missed = 0 →
      Causal.Feed (needs C all) (node a).chain.known (node b).chain.known
        (route C (addr a b) (conn b a).inbox (conn a b).inbox (conn a b).relays)) :
    Sound C addr magic g all latest ⟨node, conn⟩ where
  grown := hgrown
  irrefl := hirrefl
  honest := hhonest
  invs := hinvs
  feed a b hlive := hfeed a b hlive.1 hlive.2.1 hlive.2.2

/-- **Publishing what was taken in.** If the messages have moved and every receiver knows what it
knows after the event, then announcing what the node `i` took in completes the feeds. -/
theorem sound_publish (source : String) {s : ι → Blockchain} {conn : ι → ι → Conn} {i : ι}
    {node : ι → Node} {relayed : List RelayMessage}
    (hgrown : ∀ a, (node a).chain.Grown C magic g all latest)
    (hirrefl : ∀ a, (conn a a).up = false)
    (hhonest : ∀ a b, (conn a b).up = true → (conn b a).up = true → ∀ msg ∈ (conn a b).inbox,
      Honest C (node b).chain msg)
    (hinvs : ∀ a b, ∀ r ∈ (conn a b).relays, ∃ items, r.message = .inv items)
    (hsame : ∀ a, a ≠ i → (node a).chain.known = (s a).known)
    (htakes : TakesIn C all source (s i) (node i).chain relayed)
    (hsource : ∀ b, source = addr i b → (conn i b).up = true → (conn b i).up = true →
      ∀ h ∈ (node i).chain.known, h ∈ (s i).known ∨ h ∈ (node b).chain.known)
    (hfeed : ∀ a b, (conn a b).up = true → (conn b a).up = true → (conn a b).missed = 0 →
      Causal.Feed (needs C all) (s a).known (node b).chain.known
        (route C (addr a b) (conn b a).inbox (conn a b).inbox (conn a b).relays)) :
    Sound C addr magic g all latest ⟨node, publish conn i relayed⟩ where
  grown := hgrown
  irrefl a := (up_publish conn i relayed a a).trans (hirrefl a)
  honest a b hab hba := by
    rw [up_publish] at hab hba
    rw [inbox_publish]
    exact hhonest a b hab hba
  invs a b r hr := (mem_relays_publish hr).elim (hinvs a b r) (htakes.invs r)
  feed a b hlive := by
    obtain ⟨hab, hba, hmissed⟩ := hlive
    dsimp only at hab hba hmissed
    rw [up_publish] at hab hba
    have hnone := Nat.le_zero.mp ((missed_le_publish conn i relayed hab).trans hmissed.le)
    have hmoved := hfeed a b hab hba hnone
    rw [routeTo]
    dsimp only
    rw [inbox_publish, inbox_publish]
    by_cases ha : a = i
    · subst ha
      rw [publish_self] at hmissed ⊢
      exact feed_publish hab hmissed htakes (fun heq => hsource b heq hab hba) hmoved
    · rw [publish_of_ne ha, hsame a ha]
      exact hmoved

/-! ### One event -/

omit [DecidableEq ι] in
include hg hsep in
/-- **A block that is read on a live connection is accepted.** It is the next on its way, so its
parent is here. -/
theorem Sound.accepts (hs : Sound C addr magic g all latest net) {i j : ι} (hlive : net.Live j i)
    {b : Block} {rest : List Message} (hinbox : (net.conn i j).inbox = .blockMsg b :: rest)
    {now : ℕ} (hle : latest ≤ now) (hkeep : (net.node i).chain.Lossless C now b)
    (hrecorded : ∀ x ∈ (net.node i).chain.recordedBy C (.addBlock now b), x ∈ all) :
    ((net.node i).chain.addBlock C now b).1 = .ok () := by
  have hstored : (net.node j).chain.allBlocks.lookup (b.hashHex C) = some b :=
    hs.honest i j hlive.2.1 hlive.1 (.blockMsg b) (by rw [hinbox]; exact List.mem_cons_self)
  have hfeed := hs.feed j i hlive
  rw [routeTo, hinbox] at hfeed
  refine (hs.grown j).accepts hg hsep hstored (hs.grown i) hle ?_ hrecorded hkeep
  refine hfeed.head.imp_right fun hneeds => hneeds ⟨b, ?_, rfl, rfl⟩
  exact ((hs.grown j).own hstored).2

omit [DecidableEq ι] in
include hg hsep in
/-- What a turn adds to the chain of `i` is the block it reads. -/
theorem Sound.new_of_turn (hs : Sound C addr magic g all latest net) {i : ι} {clock : Clock}
    {source : String} {msg : Message}
    (hlossless : ∀ b, (net.node i).call clock source msg = some b →
      (net.node i).chain.Lossless C clock.unix b ∧
      ∀ x ∈ (net.node i).chain.recordedBy C (.addBlock clock.unix b), x ∈ all) {h : String}
    (hmem : h ∈ ((net.node i).handleMessage C clock source msg).node.chain.known)
    (hnew : h ∉ (net.node i).chain.known) : ∃ b, msg = .blockMsg b ∧ h = b.hashHex C := by
  rcases Node.turn_cases C clock source (net.node i) msg with
    ⟨b, hb, -, -, hchain, -⟩ | ⟨-, -, hsame⟩
  · obtain ⟨hkeep, hrecorded⟩ := hlossless b hb
    rw [hchain] at hmem
    exact ⟨b, (Node.call_eq_some_iff.mp hb).1,
      ((hs.grown i).of_mem_addBlock hg hsep hrecorded hkeep hmem hnew).1⟩
  · rw [SameBlocks.known_eq hsame] at hmem
    exact absurd hmem hnew

omit [DecidableEq ι] in
include hg hsep in
/-- A block that is read on a live connection is known afterwards. -/
theorem Sound.known_of_read (hs : Sound C addr magic g all latest net) {i j : ι}
    (hlive : net.Live j i) {b : Block} {rest : List Message}
    (hinbox : (net.conn i j).inbox = .blockMsg b :: rest) {clock : Clock}
    (hle : latest ≤ clock.unix)
    (hlossless : ∀ block, (net.node i).call clock (addr i j) (.blockMsg b) = some block →
      (net.node i).chain.Lossless C clock.unix block ∧
      ∀ x ∈ (net.node i).chain.recordedBy C (.addBlock clock.unix block), x ∈ all)
    (hok : ((net.node i).handleMessage C clock (addr i j) (.blockMsg b)).result = .ok ()) :
    b.hashHex C ∈ ((net.node i).handleMessage C clock (addr i j)
      (.blockMsg b)).node.chain.known := by
  have hcall := (Node.handleMessage_of_ok hok).2 b rfl
  obtain ⟨hkeep, hrecorded⟩ := hlossless b hcall
  have haccepts := hs.accepts hg hsep hlive hinbox hle hkeep hrecorded
  rcases Node.turn_cases C clock (addr i j) (net.node i) (.blockMsg b) with
    ⟨block, hblock, -, -, hchain, -⟩ | ⟨hnone, -, -⟩
  · obtain rfl := Option.some.inj (hcall.symm.trans hblock)
    rw [hchain]
    exact hkeep.stored haccepts
  · cases hcall.symm.trans hnone

include hg hsep in
/-- A message is read. -/
theorem Sound.read (hs : Sound C addr magic g all latest net)
    (haddr : ∀ i, Function.Injective (addr i)) {i j : ι} {clock : Clock}
    (hcalm : CalmAt C addr latest net (.read i j clock))
    (hrecorded : ∀ x ∈ net.recordedBy C addr (.read i j clock), x ∈ all) {msg : Message}
    {rest : List Message} (hup : (net.conn i j).up = true)
    (hinbox : (net.conn i j).inbox = msg :: rest) :
    Sound C addr magic g all clock.unix (net.afterRead C addr i j clock msg rest) := by
  have hstep : net.step C addr (.read i j clock) = net.afterRead C addr i j clock msg rest := by
    rw [Net.step, hup, hinbox]
  have hcall : net.call C addr (.read i j clock) =
      ((net.node i).call clock (addr i j) msg).map fun block => (i, clock.unix, block) := by
    rw [call, hup, hinbox]
  have hle : latest ≤ clock.unix := hcalm.reading _ rfl
  have hij : i ≠ j := fun heq => by
    subst heq
    cases hup.symm.trans (hs.irrefl i)
  have hlossless : ∀ b, (net.node i).call clock (addr i j) msg = some b →
      (net.node i).chain.Lossless C clock.unix b ∧
      ∀ x ∈ (net.node i).chain.recordedBy C (.addBlock clock.unix b), x ∈ all := fun b hb => by
    have hb' : net.call C addr (.read i j clock) = some (i, clock.unix, b) := by rw [hcall, hb]; rfl
    exact ⟨hcalm.lossless _ _ _ hb', recordedBy_of_call hb' ▸ hrecorded⟩
  -- what the nodes know afterwards
  have hkept := hs.kept hg hsep hcalm hrecorded
  have hknown := fun a (hne : a ≠ i) => known_step C addr net
    (.read i j clock) (a := a) fun now b heq => by
      rw [hcall] at heq
      obtain ⟨_, -, heq⟩ := Option.map_eq_some_iff.mp heq
      exact hne (congrArg Prod.fst heq).symm
  rw [hstep] at hkept hknown
  have hself : ((net.afterRead C addr i j clock msg rest).node i) =
      ((net.node i).handleMessage C clock (addr i j) msg).node := Function.update_self ..
  have hok : ((net.node i).handleMessage C clock (addr i j) msg).result.isOk = true →
      ((net.node i).handleMessage C clock (addr i j) msg).result = .ok () := fun h => by
    cases hr : ((net.node i).handleMessage C clock (addr i j) msg).result with
    | ok u => rfl
    | error e =>
      rw [hr] at h
      cases h
  have hkeyed : (net.node i).chain.KeyedByHash C := fun _ _ hb => ((hs.grown i).own hb).1
  have hmem : ∀ m, m = msg ∨ m ∈ rest → m ∈ (net.conn i j).inbox := fun m hm => by
    rw [hinbox]
    exact List.mem_cons.mpr hm
  rw [afterRead]
  refine sound_publish (addr i j) (s := fun a => (net.node a).chain) (fun a => (hkept a).grown)
    ?irrefl ?honest ?invs hknown ?takes ?source ?feed
  case irrefl =>
    intro a
    rw [setEnds_diag hij]
    exact hs.irrefl a
  case honest =>
    refine ends_cases i j (fun _ hji m hm => ?_) (fun hji hok' m hm => ?_) fun a b h h' => ?_
    · rw [setEnds_right hij] at hji
      rw [setEnds_left] at hm
      exact (hs.honest i j hup hji m (hmem m (Or.inr hm))).mono (hkept j).lookup
    · rw [setEnds_right hij] at hji hm
      rw [setEnds_left] at hok'
      refine Honest.mono (hkept i).lookup ?_
      rcases List.mem_append.mp hm with hm | hm
      · exact hs.honest j i hji hup m hm
      · exact Node.honest_of_replies hkeyed (hs.grown i).stored_active
          (Node.replies_of_ok (hok hok')) m hm
    · rw [setEnds_of_ne h h', setEnds_swap h h']
      exact fun hab hba m hm => (hs.honest a b hab hba m hm).mono (hkept b).lookup
  case invs =>
    refine ends_cases i j ?_ ?_ fun a b h h' => ?_
    · rw [setEnds_left]
      exact hs.invs i j
    · rw [setEnds_right hij]
      exact hs.invs j i
    · rw [setEnds_of_ne h h']
      exact hs.invs a b
  case takes =>
    show TakesIn C all (addr i j) _ (Function.update net.node i _ i).chain _
    rw [Function.update_self]
    exact hs.takesIn_turn hg hsep hlossless
  case source =>
    intro b heq hab hba h hh
    obtain rfl := haddr i heq
    rw [setEnds_right hij] at hba
    by_cases hold : h ∈ (net.node i).chain.known
    · exact Or.inl hold
    · rw [Function.update_self] at hh
      obtain ⟨block, rfl, rfl⟩ := hs.new_of_turn hg hsep hlossless hh hold
      have hhonest := hs.honest i j hup hba _ (hmem _ (Or.inl rfl))
      exact Or.inr ((hkept j).known_subset (Finmap.mem_of_lookup hhonest))
  case feed =>
    refine ends_cases i j (fun hok' hji hmissed => ?_) (fun hji hok' hmissed => ?_)
      fun a b h h' => ?_
    · -- what `i` was asked for it sends
      rw [setEnds_left] at hok' hmissed
      rw [setEnds_right hij] at hji
      rw [setEnds_left, setEnds_right hij]
      have hfeed := hs.feed i j ⟨hup, hji, hmissed⟩
      rw [routeTo, hinbox] at hfeed
      have hsent := feed_answer hkeyed (fun locator heq => ?_) (Node.replies_of_ok (hok hok'))
        subset_rfl hfeed
      · exact hsent.receive (hkept j).known_subset
      · have hhonest := hs.honest i j hup hji _ (hmem _ (Or.inl rfl))
        rw [heq] at hhonest
        exact hhonest
    · -- what `i` has read leaves the route
      rw [setEnds_left] at hok'
      rw [setEnds_right hij] at hji hmissed
      rw [setEnds_left, setEnds_right hij]
      have hlive : net.Live j i := ⟨hji, hup, hmissed⟩
      have hfeed := hs.feed j i hlive
      rw [routeTo, hinbox] at hfeed
      refine feed_read hsep (fun h b hb => (hs.grown j).own hb)
        (hs.honest i j hup hji _ (hmem _ (Or.inl rfl))) (Node.replies_of_ok (hok hok'))
        (hkept i).known_subset (fun h hh => ?_) hfeed
      cases msg with
      | blockMsg block =>
        obtain rfl := List.mem_singleton.mp hh
        rw [Function.update_self]
        exact hs.known_of_read hg hsep hlive hinbox hle hlossless (hok hok')
      | _ => exact absurd hh List.not_mem_nil
    · rw [setEnds_of_ne h h', setEnds_swap h h']
      exact fun hab hba hmissed => (hs.feed a b ⟨hab, hba, hmissed⟩).receive (hkept b).known_subset

/-- A relay is taken. -/
theorem Sound.forward (hs : Sound C addr magic g all latest net) {i j : ι}
    (hup : (net.conn i j).up = true) {relay : RelayMessage} {rest : List RelayMessage}
    (hrelays : (net.conn i j).relays = relay :: rest) :
    Sound C addr magic g all latest (net.afterForward addr i j relay rest) := by
  have hij : i ≠ j := fun heq => by
    subst heq
    cases hup.symm.trans (hs.irrefl i)
  obtain ⟨items, hinv⟩ := hs.invs i j relay (by rw [hrelays]; exact List.mem_cons_self)
  refine sound_mk hs.grown (fun a => ?_) (ends_cases i j ?_ ?_ fun a b h h' => ?_)
    (ends_cases i j ?_ ?_ fun a b h h' => ?_) (ends_cases i j ?_ ?_ fun a b h h' => ?_)
  · rw [setEnds_diag hij]
    exact hs.irrefl a
  · rw [setEnds_left, setEnds_right hij]
    exact hs.honest i j
  · -- what is passed on is an inventory
    rw [setEnds_left, setEnds_right hij]
    intro hji _ m hm
    rcases List.mem_append.mp hm with hm | hm
    · exact hs.honest j i hji hup m hm
    · split at hm
      · cases hm
      · rw [List.mem_singleton.mp hm, hinv]
        trivial
  · rw [setEnds_of_ne h h', setEnds_swap h h']
    exact hs.honest a b
  · rw [setEnds_left]
    exact fun r hr => hs.invs i j r (by rw [hrelays]; exact List.mem_cons_of_mem _ hr)
  · rw [setEnds_right hij]
    exact hs.invs j i
  · rw [setEnds_of_ne h h']
    exact hs.invs a b
  · rw [setEnds_left, setEnds_right hij]
    intro _ hji hmissed
    have hfeed := hs.feed i j ⟨hup, hji, hmissed⟩
    rw [routeTo, hrelays] at hfeed
    have hroute : route C (addr i j) ((net.conn j i).inbox ++
          if relay.source = addr i j then [] else [relay.message]) (net.conn i j).inbox rest =
        route C (addr i j) (net.conn j i).inbox (net.conn i j).inbox (relay :: rest) := by
      rw [route, route, List.flatMap_append, List.flatMap_append, List.flatMap_cons,
        RelayMessage.announcesTo, hinv]
      split <;> simp [Message.delivers, Message.announces]
    rwa [hroute]
  · rw [setEnds_left, setEnds_right hij]
    intro hji _ hmissed
    have hfeed := hs.feed j i ⟨hji, hup, hmissed⟩
    have hroute : route C (addr j i) (net.conn i j).inbox ((net.conn j i).inbox ++
          if relay.source = addr i j then [] else [relay.message]) (net.conn j i).relays =
        net.routeTo C addr j i := by
      rw [routeTo, route, route, List.flatMap_append, hinv]
      split <;> simp [Message.requests]
    rwa [hroute]
  · rw [setEnds_of_ne h h', setEnds_swap h h']
    exact fun hab hba hmissed => hs.feed a b ⟨hab, hba, hmissed⟩

/-- A connection is opened between nodes that know the same blocks. -/
theorem Sound.link (hs : Sound C addr magic g all latest net) {i j : ι} (hij : i ≠ j)
    (hsame : (net.node i).chain.known = (net.node j).chain.known) (heightI heightJ : ℕ) :
    Sound C addr magic g all latest { net with
      conn := setEnds net.conn i j (.opened (version (net.node j) heightJ))
        (.opened (version (net.node i) heightI)) } := by
  refine sound_mk hs.grown (fun a => ?_)
    (ends_cases i j (fun _ _ m hm => ?_) (fun _ _ m hm => ?_) fun a b h h' => ?_)
    (ends_cases i j ?_ ?_ fun a b h h' => ?_)
    (ends_cases i j (fun _ _ _ => ?_) (fun _ _ _ => ?_) fun a b h h' => ?_)
  · rw [setEnds_diag hij]
    exact hs.irrefl a
  · rw [setEnds_left] at hm
    rw [List.mem_singleton.mp hm]
    trivial
  · rw [setEnds_right hij] at hm
    rw [List.mem_singleton.mp hm]
    trivial
  · rw [setEnds_of_ne h h', setEnds_swap h h']
    exact hs.honest a b
  · rw [setEnds_left]
    exact fun r hr => absurd hr List.not_mem_nil
  · rw [setEnds_right hij]
    exact fun r hr => absurd hr List.not_mem_nil
  · rw [setEnds_of_ne h h']
    exact hs.invs a b
  · rw [setEnds_left, setEnds_right hij, hsame]
    exact .refl _ _
  · rw [setEnds_left, setEnds_right hij, hsame]
    exact .refl _ _
  · rw [setEnds_of_ne h h', setEnds_swap h h']
    exact fun hab hba hmissed => hs.feed a b ⟨hab, hba, hmissed⟩

/-- An end of a connection is gone. -/
theorem Sound.hangUp (hs : Sound C addr magic g all latest net) (i j : ι) :
    Sound C addr magic g all latest { net with
      conn := setEnds net.conn i j { net.conn i j with up := false } (net.conn j i) } := by
  -- every end is what it was, or it is down and the rest of it is what it was
  have hends : ∀ a b, setEnds net.conn i j { net.conn i j with up := false } (net.conn j i) a b =
        net.conn a b ∨
      setEnds net.conn i j { net.conn i j with up := false } (net.conn j i) a b =
        { net.conn a b with up := false } := by
    intro a b
    rw [setEnds]
    split
    · next h => exact Or.inr (by rw [h.1, h.2])
    · split
      · next h => exact Or.inl (by rw [h.1, h.2])
      · exact Or.inl rfl
  have hsame : ∀ a b,
      (setEnds net.conn i j { net.conn i j with up := false } (net.conn j i) a b).up = true →
      setEnds net.conn i j { net.conn i j with up := false } (net.conn j i) a b =
        net.conn a b := fun a b hup => (hends a b).resolve_right fun heq => by
    rw [heq] at hup
    cases hup
  refine sound_mk hs.grown (fun a => ?_) (fun a b hab hba => ?_) (fun a b => ?_)
    fun a b hab hba hmissed => ?_
  · rcases hends a a with heq | heq
    · rw [heq]
      exact hs.irrefl a
    · rw [heq]
  · have hkeep := hsame a b hab
    rw [hkeep] at hab ⊢
    rw [hsame b a hba] at hba
    exact hs.honest a b hab hba
  · rcases hends a b with heq | heq
    · rw [heq]
      exact hs.invs a b
    · rw [heq]
      exact hs.invs a b
  · have hkeep := hsame a b hab
    have hkeep' := hsame b a hba
    rw [hkeep] at hab hmissed ⊢
    rw [hkeep'] at hba ⊢
    exact hs.feed a b ⟨hab, hba, hmissed⟩

/-- A node takes in what comes from outside the network, or what it has mined. -/
theorem Sound.takeIn (hs : Sound C addr magic g all latest net) {latest' : ℕ} {i : ι}
    {node : ι → Node} (source : String) {relayed : List RelayMessage}
    (hkept : ∀ a, Kept C magic g all latest' (net.node a).chain (node a).chain)
    (hknown : ∀ a, a ≠ i → (node a).chain.known = (net.node a).chain.known)
    (htakes : TakesIn C all source (net.node i).chain (node i).chain relayed)
    (hsource : ∀ j, source ≠ addr i j) :
    Sound C addr magic g all latest' ⟨node, publish net.conn i relayed⟩ :=
  sound_publish source (s := fun a => (net.node a).chain) (fun a => (hkept a).grown) hs.irrefl
    (fun a b hab hba m hm => (hs.honest a b hab hba m hm).mono (hkept b).lookup)
      hs.invs hknown htakes
    (fun b heq => absurd heq (hsource b)) fun a b hab hba hmissed =>
      (hs.feed a b ⟨hab, hba, hmissed⟩).receive (hkept b).known_subset

omit [DecidableEq ι] in
/-- The chains stay what they are. -/
theorem Sound.of_known (hs : Sound C addr magic g all latest net) {latest' : ℕ} {node : ι → Node}
    (hkept : ∀ a, Kept C magic g all latest' (net.node a).chain (node a).chain)
    (hknown : ∀ a, (node a).chain.known = (net.node a).chain.known) :
    Sound C addr magic g all latest' ⟨node, net.conn⟩ :=
  sound_mk (fun a => (hkept a).grown) hs.irrefl
    (fun a b hab hba m hm => (hs.honest a b hab hba m hm).mono (hkept b).lookup) hs.invs
    fun a b hab hba hmissed => by
      rw [hknown, hknown]
      exact hs.feed a b ⟨hab, hba, hmissed⟩

include hg hsep in
/-- **One event of a calm run.** -/
theorem Sound.step (hs : Sound C addr magic g all latest net)
    (haddr : ∀ i, Function.Injective (addr i)) (hnamed : ∀ i j, addr i j ≠ "")
    (hcalm : CalmAt C addr latest net e) (hrecorded : ∀ x ∈ net.recordedBy C addr e, x ∈ all) :
    Sound C addr magic g all (e.reading.getD latest) (net.step C addr e) := by
  have hkept := hs.kept hg hsep hcalm hrecorded
  have hknown := fun a => known_step C addr net e (a := a)
  have hidle : net.step C addr e = net → Sound C addr magic g all (e.reading.getD latest)
      (net.step C addr e) := fun hsame => by
    rw [hsame] at hkept ⊢
    exact hs.of_known hkept fun _ => rfl
  cases e with
  | link i j heightI heightJ =>
    by_cases hopen : i ≠ j ∧ (net.conn i j).up = false ∧ (net.conn j i).up = false
    · rw [Net.step, if_pos hopen]
      exact hs.link hopen.1 (hcalm.link i j heightI heightJ rfl) heightI heightJ
    · exact hidle (if_neg hopen)
  | hangUp i j => exact hs.hangUp i j
  | read i j clock =>
    cases hup : (net.conn i j).up with
    | false =>
      refine hidle ?_
      rw [Net.step, hup]
    | true =>
      cases hinbox : (net.conn i j).inbox with
      | nil =>
        refine hidle ?_
        rw [Net.step, hup, hinbox]
      | cons msg rest =>
        rw [Net.step, hup, hinbox]
        exact hs.read hg hsep haddr hcalm hrecorded hup hinbox
  | forward i j =>
    cases hup : (net.conn i j).up with
    | false =>
      refine hidle ?_
      rw [Net.step, hup]
    | true =>
      cases hrelays : (net.conn i j).relays with
      | nil =>
        refine hidle ?_
        rw [Net.step, hup, hrelays]
      | cons relay rest =>
        rw [Net.step, hup, hrelays]
        exact hs.forward hup hrelays
  | outside i clock source msg =>
    have hlossless : ∀ b, (net.node i).call clock source msg = some b →
        (net.node i).chain.Lossless C clock.unix b ∧
        ∀ x ∈ (net.node i).chain.recordedBy C (.addBlock clock.unix b), x ∈ all := fun b hb => by
      have hcall : net.call C addr (.outside i clock source msg) = some (i, clock.unix, b) := by
        rw [call, hb]
        rfl
      exact ⟨hcalm.lossless _ _ _ hcall, recordedBy_of_call hcall ▸ hrecorded⟩
    refine hs.takeIn (i := i) source hkept (fun a hne => hknown a fun now b hcall => ?_) ?_
      (hcalm.outside i clock source msg rfl)
    · obtain ⟨_, -, heq⟩ := Option.map_eq_some_iff.mp hcall
      exact hne (congrArg Prod.fst heq).symm
    · rw [Function.update_self]
      exact hs.takesIn_turn hg hsep hlossless
  | mine i fuel now now' order minerAddress =>
    refine hs.takeIn (i := i) "" hkept (fun a hne => hknown a fun now b hcall => ?_) ?_
      fun j heq => hnamed i j heq.symm
    · obtain ⟨_, -, heq⟩ := Option.map_eq_some_iff.mp hcall
      exact hne (congrArg Prod.fst heq).symm
    · rw [Function.update_self, Node.mineBlockAndRelay, Node.minedRelays]
      cases hmined : (net.node i).chain.mineBlock C fuel now order minerAddress with
      | none => exact .nothing (fun r hr => absurd hr List.not_mem_nil) rfl
      | some block =>
        have hcall : net.call C addr (.mine i fuel now now' order minerAddress) =
            some (i, now', block) := by
          rw [call, hmined]
          rfl
        rw [recordedBy_of_call hcall] at hrecorded
        exact takesIn_addBlock hg hsep (hs.grown i) "" hrecorded (hcalm.lossless _ _ _ hcall)
  | task i e =>
    cases e with
    | message _ _ _ => exact hidle rfl
    | mine _ _ _ _ _ => exact hidle rfl
    | _ => exact hs.of_known hkept fun a => hknown a fun _ _ hcall => by cases hcall

include hg hsep in
/-- **A calm run.** -/
theorem Sound.run (haddr : ∀ i, Function.Injective (addr i)) (hnamed : ∀ i j, addr i j ≠ "")
    {evs : List (Event ι)} (hs : Sound C addr magic g all latest net)
    (hcalm : Calm C addr latest net evs) (hrecorded : ∀ x ∈ net.recorded C addr evs, x ∈ all) :
    Sound C addr magic g all (clockAfter latest evs) (net.run C addr evs) := by
  induction evs generalizing net latest with
  | nil => exact hs
  | cons e evs ih =>
    obtain ⟨hfirst, hrest⟩ := hcalm
    have hstep := hs.step hg hsep haddr hnamed hfirst fun x hx =>
      hrecorded x (List.mem_append_left _ hx)
    exact ih hstep hrest fun x hx => hrecorded x (List.mem_append_right _ hx)

end

/-! ### Runs from the genesis -/

/-- Nodes that have just been created from one genesis, none of them connected. -/
def genesisNet (C : Crypto) (g : Block) (magic : UInt32) (store : ι → Option BlockStore)
    (networkMagic : ι → UInt32) : Net ι :=
  start fun i => .new (.fromGenesisWithMagic C g (store i) magic) (networkMagic i)

omit [DecidableEq ι] in
theorem sound_genesisNet (store : ι → Option BlockStore) (networkMagic : ι → UInt32)
    (hmem : g ∈ all) : Sound C addr magic g all 0 (genesisNet C g magic store networkMagic) :=
  sound_mk (fun i => Blockchain.grown_fromGenesisWithMagic (store i) hmem) (fun _ => rfl)
    (fun _ _ hup => by cases hup) (fun _ _ _ hr => absurd hr List.not_mem_nil) fun _ _ hup => by
      cases hup

theorem recorded_append (evs evs' : List (Event ι)) :
    net.recorded C addr (evs ++ evs') =
      net.recorded C addr evs ++ (net.run C addr evs).recorded C addr evs' := by
  induction evs generalizing net with
  | nil => rfl
  | cons e evs ih =>
    rw [List.cons_append, recorded, recorded, ih, List.append_assoc]
    rfl

theorem calm_append {evs evs' : List (Event ι)} :
    Calm C addr latest net (evs ++ evs') ↔ Calm C addr latest net evs ∧
      Calm C addr (clockAfter latest evs) (net.run C addr evs) evs' := by
  induction evs generalizing net latest with
  | nil => exact ⟨fun h => ⟨trivial, h⟩, And.right⟩
  | cons e evs ih =>
    rw [List.cons_append, Calm, Calm, ih, and_assoc]
    rfl

/-- A connection at rest: nothing is on its way, in neither direction. -/
structure Settled (net : Net ι) (i j : ι) : Prop where
  live : net.Live i j
  live_back : net.Live j i
  inbox_eq : (net.conn i j).inbox = []
  inbox_back_eq : (net.conn j i).inbox = []
  relays_eq : (net.conn i j).relays = []
  relays_back_eq : (net.conn j i).relays = []

omit [DecidableEq ι] in
/-- The ends of a connection at rest know the same blocks. -/
theorem Sound.known_eq (hs : Sound C addr magic g all latest net) {i j : ι} (h : net.Settled i j) :
    (net.node i).chain.known = (net.node j).chain.known := by
  have hfeed := hs.feed i j h.live
  have hback := hs.feed j i h.live_back
  rw [routeTo, h.inbox_eq, h.inbox_back_eq, h.relays_eq] at hfeed
  rw [routeTo, h.inbox_eq, h.inbox_back_eq, h.relays_back_eq] at hback
  exact Set.Subset.antisymm hfeed.subset hback.subset

/-! ### A block crosses a connection -/

/-- A check of the call an event makes: the chain stays below the finality depth, and nothing
overflows. -/
def callBelow (C : Crypto) (addr : ι → ι → String) (net : Net ι) (e : Event ι) : Bool :=
  match net.call C addr e with
  | none => true
  | some (i, now, b) =>
    decide (((net.node i).chain.addBlock C now b).2.height < finalityDepth) &&
      !overflows ((net.node i).chain.addBlock C now b).1

/-- A check of who is linked or sends from outside. -/
def peersOk [Fintype ι] (addr : ι → ι → String) (net : Net ι) : Event ι → Bool
  | .link i j _ _ => decide ((net.node i).chain.allBlocks.keys = (net.node j).chain.allBlocks.keys)
  | .outside i _ source _ => decide (∀ j, source ≠ addr i j)
  | _ => true

/-- **A check for calm runs** that stay below the finality depth. -/
def calmBelow [Fintype ι] (C : Crypto) (addr : ι → ι → String) : ℕ → Net ι → List (Event ι) → Bool
  | _, _, [] => true
  | latest, net, e :: evs =>
    decide (∀ t ∈ e.reading, latest ≤ t) && net.callBelow C addr e && net.peersOk addr e &&
      calmBelow C addr (e.reading.getD latest) (net.step C addr e) evs

theorem calm_of_calmBelow [Fintype ι] {evs : List (Event ι)}
    (h : calmBelow C addr latest net evs = true) : Calm C addr latest net evs := by
  induction evs generalizing net latest with
  | nil => trivial
  | cons e evs ih =>
    rw [calmBelow, Bool.and_eq_true, Bool.and_eq_true, Bool.and_eq_true] at h
    obtain ⟨⟨⟨hreading, hcall⟩, hpeers⟩, hrest⟩ := h
    refine ⟨⟨fun t ht => of_decide_eq_true hreading t ht, ?_, ?_, ?_⟩, ih hrest⟩
    · intro i now b heq
      rw [callBelow, heq, Bool.and_eq_true, Bool.not_eq_true'] at hcall
      exact Blockchain.lossless_of_height_lt (of_decide_eq_true hcall.1) hcall.2
    · rintro i j heightI heightJ rfl
      have hkeys := of_decide_eq_true hpeers
      ext h
      show h ∈ (net.node i).chain.allBlocks ↔ h ∈ (net.node j).chain.allBlocks
      rw [← Finmap.mem_keys, ← Finmap.mem_keys, hkeys]
    · rintro i clock source msg rfl
      exact of_decide_eq_true hpeers

/-- The addresses at which two nodes see each other. -/
def samplePeers (_ j : Bool) : String := if j then Exchange.sampleAddrB else Exchange.sampleAddrA

@[inherit_doc samplePeers]
def samplePair : Net Bool :=
  genesisNet Crypto.sample sampleGenesis regtestMagic (fun _ => none) fun _ => regtestMagic

/-- A block reaches the first node from outside and crosses to the second, up to the moment when the
second has it before it. -/
def crossing : List (Event Bool) :=
  [.link false true 0 0,
    .outside false sampleClock "203.0.113.9:8333" (.blockMsg (idleBlock 0)),
    .forward false true, .read true false sampleClock, .read true false sampleClock,
    .read false true sampleClock, .read false true sampleClock, .read false true sampleClock,
    .read true false sampleClock]

theorem injective_samplePeers (i : Bool) : Function.Injective (samplePeers i) := by
  rw [Function.Injective]
  decide +revert

theorem samplePeers_ne : ∀ i j, samplePeers i j ≠ "" := by decide

/-- **What an honest node sends is never refused.** In every calm run from the genesis, when a node
reads a block on a connection that takes part and its limiters let it through, `add_block` accepts
it. -/
theorem honest_block_accepted (C : Crypto) (addr : ι → ι → String)
    (haddr : ∀ i, Function.Injective (addr i)) (hnamed : ∀ i j, addr i j ≠ "") (g : Block)
    (hg : g.height = 0) (magic : UInt32) (store : ι → Option BlockStore)
    (networkMagic : ι → UInt32) (evs : List (Event ι)) (i j : ι) (clock : Clock)
    (hcalm : Calm C addr 0 (genesisNet C g magic store networkMagic) (evs ++ [.read i j clock]))
    (hsep : Separated C (g :: (genesisNet C g magic store networkMagic).recorded C addr
      (evs ++ [.read i j clock])))
    (hlive : ((genesisNet C g magic store networkMagic).run C addr evs).Live j i) (b : Block)
    (rest : List Message)
    (hinbox : (((genesisNet C g magic store networkMagic).run C addr evs).conn i j).inbox =
      .blockMsg b :: rest)
    (hmay : (((genesisNet C g magic store networkMagic).run C addr evs).node i).call clock
      (addr i j) (.blockMsg b) = some b) :
    ((((genesisNet C g magic store networkMagic).run C addr evs).node i).chain.addBlock C
      clock.unix b).1 = .ok () := by
  obtain ⟨hbefore, hlast, -⟩ := calm_append.mp hcalm
  rw [recorded_append] at hsep
  have hs := (sound_genesisNet store networkMagic List.mem_cons_self).run hg hsep haddr hnamed
    hbefore fun x hx => List.mem_cons_of_mem _ (List.mem_append_left _ hx)
  generalize (genesisNet C g magic store networkMagic).run C addr evs = net at *
  have hcall : net.call C addr (.read i j clock) = some (i, clock.unix, b) := by
    rw [call, hlive.2.1, hinbox]
    show ((net.node i).call clock (addr i j) (.blockMsg b)).map _ = _
    rw [hmay]
    rfl
  refine hs.accepts hg hsep hlive hinbox (hlast.reading _ rfl) (hlast.lossless _ _ _ hcall)
    fun x hx => List.mem_cons_of_mem _ (List.mem_append_right _ (List.mem_append_left _ ?_))
  rwa [recordedBy_of_call hcall]

theorem honest_block_accepted_idleBlock :
    (((samplePair.run Crypto.sample samplePeers crossing).node true).chain.addBlock Crypto.sample
      sampleClock.unix (idleBlock 0)).1 = .ok () := by
  have hrun :
      let net := samplePair.run Crypto.sample samplePeers crossing
      let evs := crossing ++ [.read true false sampleClock]
      calmBelow Crypto.sample samplePeers 0 samplePair evs = true ∧
      (∀ b ∈ sampleGenesis :: samplePair.recorded Crypto.sample samplePeers evs,
        ∀ b' ∈ sampleGenesis :: samplePair.recorded Crypto.sample samplePeers evs,
        b.hashHex Crypto.sample = b'.hashHex Crypto.sample → b = b') ∧
      ((net.conn false true).up = true ∧ (net.conn true false).up = true ∧
        (net.conn false true).missed = 0) ∧
      (net.conn true false).inbox = [.blockMsg (idleBlock 0)] ∧
      (net.node true).call sampleClock (samplePeers true false) (.blockMsg (idleBlock 0)) =
        some (idleBlock 0) := by
    decide +kernel
  rw [samplePair] at hrun ⊢
  obtain ⟨hcalm, hsep, hlive, hinbox, hcall⟩ := hrun
  exact honest_block_accepted Crypto.sample samplePeers injective_samplePeers samplePeers_ne
    sampleGenesis rfl regtestMagic (fun _ => none) (fun _ => regtestMagic) crossing true false
    sampleClock (calm_of_calmBelow hcalm) hsep hlive (idleBlock 0) [] hinbox hcall

/-- **Nodes that hear everything agree.** After every calm run from one genesis, whatever outsiders
have sent, two nodes with connections at rest between them know the same blocks, give them the same
works and have equally heavy tips; if no other block weighs as much, they have the same active
chain, the same unspent outputs and the same minted total. -/
theorem settled_agree (C : Crypto) (addr : ι → ι → String)
    (haddr : ∀ i, Function.Injective (addr i)) (hnamed : ∀ i j, addr i j ≠ "") (g : Block)
    (hg : g.height = 0) (magic : UInt32) (store : ι → Option BlockStore)
    (networkMagic : ι → UInt32) (evs : List (Event ι))
    (hcalm : Calm C addr 0 (genesisNet C g magic store networkMagic) evs)
    (hsep : Separated C (g :: (genesisNet C g magic store networkMagic).recorded C addr evs))
    (i j : ι) (hpath : Relation.ReflTransGen
      ((genesisNet C g magic store networkMagic).run C addr evs).Settled i j) :
    Blockchain.Agree C
      (((genesisNet C g magic store networkMagic).run C addr evs).node i).chain
      (((genesisNet C g magic store networkMagic).run C addr evs).node j).chain := by
  have hs := (sound_genesisNet store networkMagic List.mem_cons_self).run hg hsep haddr hnamed hcalm
    fun x hx => List.mem_cons_of_mem _ hx
  generalize (genesisNet C g magic store networkMagic).run C addr evs = net at *
  have hknown : (net.node i).chain.known = (net.node j).chain.known := by
    induction hpath with
    | refl => rfl
    | tail _ hlast ih => exact ih.trans (hs.known_eq hlast)
  exact (hs.grown i).agree hsep (hs.grown j) fun h => Set.ext_iff.mp hknown h

/-- Both nodes end with the block, and nothing is left on its way. -/
theorem settled_agree_idleBlock :
    let net := samplePair.run Crypto.sample samplePeers
      (crossing ++ [.read true false sampleClock, .forward true false])
    (net.node true).chain.tip = idleBlock 0 ∧
      Blockchain.Agree Crypto.sample (net.node false).chain (net.node true).chain := by
  have hrun :
      let evs := crossing ++ [.read true false sampleClock, .forward true false]
      let net := samplePair.run Crypto.sample samplePeers evs
      (net.node true).chain.tip = idleBlock 0 ∧
      calmBelow Crypto.sample samplePeers 0 samplePair evs = true ∧
      (∀ b ∈ sampleGenesis :: samplePair.recorded Crypto.sample samplePeers evs,
        ∀ b' ∈ sampleGenesis :: samplePair.recorded Crypto.sample samplePeers evs,
        b.hashHex Crypto.sample = b'.hashHex Crypto.sample → b = b') ∧
      ∀ i j, i ≠ j → (net.conn i j).up = true ∧ (net.conn i j).missed = 0 ∧
        (net.conn i j).inbox = [] ∧ (net.conn i j).relays = [] := by
    decide +kernel
  rw [samplePair] at hrun ⊢
  obtain ⟨htip, hcalm, hsep, hrest⟩ := hrun
  obtain ⟨hup, hmissed, hinbox, hrelays⟩ := hrest false true (by decide)
  obtain ⟨hup', hmissed', hinbox', hrelays'⟩ := hrest true false (by decide)
  exact ⟨htip, settled_agree Crypto.sample samplePeers injective_samplePeers samplePeers_ne
    sampleGenesis rfl regtestMagic (fun _ => none) (fun _ => regtestMagic) _
      (calm_of_calmBelow hcalm)
    hsep false true (.single ⟨⟨hup, hup', hmissed⟩, ⟨hup', hup, hmissed'⟩, hinbox, hinbox', hrelays,
      hrelays'⟩)⟩

end Net

end Arkos
