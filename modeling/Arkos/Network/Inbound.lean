import Arkos.Network.Node
import Arkos.Blockchain.IdleChain

/-!
# The limit on inbound connections

The accept loop asks the limiter for connections about the text of the remote address, and that text
has the port in it. The limiter does its part: no address passes more than five times in a minute.
But a dialler is given a new port for every connection it opens, so what is limited is not the host.

The bound on a host holds along a run exactly as long as no connection comes from a host that has
had its five while the address it comes from has not.

## Main definitions

* `Node.Inbound`, `Node.passed` — connections, and the times of those that pass
* `Node.PerHost` — five connections a minute from any host
* `Node.SpillsOver` — a host goes on under another port

## Main results

* `Node.answer_connections_iff` — when a connection passes
* `Node.inbound_limit_iff`, and six ports of one host, `Node.not_inbound_limit`
-/

namespace Arkos

namespace Node

open SlidingWindow

/-- A connection that the listener accepts. -/
structure Inbound where
  now : ℕ
  remote : SocketAddr
  handshakeOk : Bool
  versionSent : Bool
  deriving DecidableEq, Repr

/-- `addr_str`: what the limiter is asked about. -/
def Inbound.addrStr (c : Inbound) : String := c.remote.display

/-- The turn of the accept loop. -/
def Inbound.event (c : Inbound) : Event := .accept c.now c.addrStr c.handshakeOk c.versionSent

/-- A minute, in nanoseconds. -/
def minute : ℕ := 60 * 10 ^ 9

section

variable (C : Crypto)

/-- The times at which connections of a kind pass the limiter. -/
def passed (p : Inbound → Bool) : Node → List Inbound → List ℕ
  | _, [] => []
  | n, c :: conns =>
    (if p c ∧ n.mayConnect c.now c.addrStr then [c.now] else []) ++
      passed p (n.step C c.event) conns

/-- From a host. -/
def passedFrom (host : SocketAddr.Ip) (n : Node) (conns : List Inbound) : List ℕ :=
  passed C (fun c => c.remote.ip = host) n conns

/-- From an address, which is a host and a port. -/
def passedAs (addrStr : String) (n : Node) (conns : List Inbound) : List ℕ :=
  passed C (fun c => c.addrStr = addrStr) n conns

/-- No host passes more than five times in a minute. -/
def PerHost (n : Node) (conns : List Inbound) : Prop :=
  ∀ host, Limited 5 minute (passedFrom C host n conns)

/-- The connection comes from a host of which five passed within the minute, and of the very same
address fewer did. -/
def SpillsOver (n : Node) (earlier : List Inbound) (c : Inbound) : Prop :=
  5 ≤ (inWindow minute c.now (passedFrom C c.remote.ip n earlier)).length ∧
    (inWindow minute c.now (passedAs C c.addrStr n earlier)).length < 5

end

variable {C : Crypto} {n : Node} {conns : List Inbound}

/-! ### What the limiter sees of a run -/

theorem connections_step_event (n : Node) (c : Inbound) :
    (n.step C c.event).rateLimiters.connections =
      (n.rateLimiters.connections.check c.now c.addrStr).2 := by
  rw [Inbound.event, step, accept]
  split <;> rfl

theorem connections_run_event (n : Node) (conns : List Inbound) :
    (run C n (conns.map Inbound.event)).rateLimiters.connections =
      n.rateLimiters.connections.after Inbound.now Inbound.addrStr conns := by
  induction conns generalizing n with
  | nil => rfl
  | cons c conns ih =>
    show (run C (n.step C c.event) (conns.map Inbound.event)).rateLimiters.connections = _
    rw [ih, connections_step_event]
    rfl

/-- The connections that pass are those the limiter lets through. -/
theorem passed_eq (p : Inbound → Bool) (n : Node) (conns : List Inbound) :
    passed C p n conns =
      ((RateLimiter.letThrough Inbound.now Inbound.addrStr n.rateLimiters.connections conns).filter
        p).map Inbound.now := by
  induction conns generalizing n with
  | nil => rfl
  | cons c conns ih =>
    rw [passed, ih, connections_step_event, RateLimiter.letThrough, List.filter_append,
      List.map_append]
    congr 1
    rw [mayConnect]
    cases hp : p c <;> cases (n.rateLimiters.connections.check c.now c.addrStr).1 <;> simp [hp]

theorem passedAs_eq (addrStr : String) (n : Node) (conns : List Inbound) :
    passedAs C addrStr n conns =
      n.rateLimiters.connections.allowed Inbound.now Inbound.addrStr conns addrStr :=
  passed_eq _ n conns

theorem passed_append_singleton (p : Inbound → Bool) (n : Node) (conns : List Inbound)
    (c : Inbound) : passed C p n (conns ++ [c]) = passed C p n conns ++
      if p c ∧ (run C n (conns.map Inbound.event)).mayConnect c.now c.addrStr then [c.now]
      else [] := by
  induction conns generalizing n with
  | nil => exact List.append_nil _
  | cons c' conns ih =>
    rw [List.cons_append, passed, ih, passed, List.append_assoc]
    rfl

theorem exists_of_mem_passed {p : Inbound → Bool} {t : ℕ} (h : t ∈ passed C p n conns) :
    ∃ c ∈ conns, c.now = t := by
  rw [passed_eq] at h
  obtain ⟨c, hc, rfl⟩ := List.mem_map.mp h
  exact ⟨c, (RateLimiter.letThrough_sublist _ _).mem (List.mem_filter.mp hc).1, rfl⟩

/-- **When a connection passes**: its own address has passed fewer than five times within the
minute. -/
theorem answer_connections_iff (C : Crypto) (chain : Blockchain) (magic : UInt32) {c : Inbound}
    (hpeers : (conns.map Inbound.addrStr).toFinset.card ≤ maxTrackedPeers)
    (hnow : ∀ c' ∈ conns, c'.now ≤ c.now) :
    (run C (new chain magic) (conns.map Inbound.event)).mayConnect c.now c.addrStr = true ↔
      (inWindow minute c.now (passedAs C c.addrStr (new chain magic) conns)).length < 5 := by
  rw [mayConnect, connections_run_event, passedAs_eq]
  exact RateLimiter.answer_iff hpeers hnow

/-! ### The bound on a host -/

/-- Different addresses may be written alike, but one address is written in one way. -/
theorem card_addrStr_le (conns : List Inbound) :
    (conns.map Inbound.addrStr).toFinset.card ≤ (conns.map Inbound.remote).toFinset.card := by
  have himage : (conns.map Inbound.addrStr).toFinset =
      (conns.map Inbound.remote).toFinset.image SocketAddr.display := by
    ext addrStr
    simp [Inbound.addrStr]
  rw [himage]
  exact Finset.card_image_le

/-- A further connection keeps the bound on every host, or spills over to another port. -/
theorem perHost_append_singleton (C : Crypto) (chain : Blockchain) (magic : UInt32) {c : Inbound}
    (hpeers : (conns.map Inbound.addrStr).toFinset.card ≤ maxTrackedPeers)
    (hnow : ∀ c' ∈ conns, c'.now ≤ c.now) :
    PerHost C (new chain magic) (conns ++ [c]) ↔
      PerHost C (new chain magic) conns ∧ ¬ SpillsOver C (new chain magic) conns c := by
  have hminute : 0 < minute := by decide
  have htimes : ∀ host, ∀ t ∈ passedFrom C host (new chain magic) conns, t ≤ c.now := by
    intro host t ht
    obtain ⟨c', hc', rfl⟩ := exists_of_mem_passed ht
    exact hnow c' hc'
  have hpasses := answer_connections_iff C chain magic hpeers hnow
  constructor
  · intro h
    refine ⟨fun host => ?_, ?_⟩
    · have hhost := h host
      rw [passedFrom, passed_append_singleton] at hhost
      exact hhost.of_append
    · rintro ⟨hfull, hroom⟩
      have hhost := h c.remote.ip
      rw [passedFrom, passed_append_singleton,
        if_pos ⟨decide_eq_true rfl, hpasses.mpr hroom⟩] at hhost
      have hlt := ((limited_append_singleton (htimes c.remote.ip) hminute).mp hhost).2
      exact Nat.not_lt.mpr hfull hlt
  · rintro ⟨h, hspill⟩ host
    rw [passedFrom, passed_append_singleton]
    split
    · next hpass =>
      obtain rfl : c.remote.ip = host := of_decide_eq_true hpass.1
      refine (h c.remote.ip).push (htimes c.remote.ip) ?_
      by_contra hfull
      exact hspill ⟨Nat.not_lt.mp hfull, hpasses.mp hpass.2⟩
    · rw [List.append_nil]
      exact h host

/-- **When no host passes more than five times a minute.** Over every sequence of inbound
connections of a new node, with times that do not fall and few enough remote addresses: exactly when
none of them spills over to another port. -/
theorem inbound_limit_iff (C : Crypto) (chain : Blockchain) (magic : UInt32) (conns : List Inbound)
    (hpeers : (conns.map Inbound.remote).toFinset.card ≤ maxTrackedPeers)
    (hsorted : (conns.map Inbound.now).Pairwise (· ≤ ·)) :
    PerHost C (new chain magic) conns ↔
      ∀ earlier c, earlier ++ [c] <+: conns → ¬ SpillsOver C (new chain magic) earlier c := by
  replace hpeers := (card_addrStr_le conns).trans hpeers
  induction conns using List.reverseRecOn with
  | nil =>
    refine iff_of_true (fun _ => limited_nil) fun earlier c hpre => ?_
    simp at hpre
  | append_singleton conns c ih =>
    have hpeers' := RateLimiter.card_peers_le hpeers
    rw [List.map_append, List.pairwise_append] at hsorted
    obtain ⟨hsorted, -, hlast⟩ := hsorted
    have hnow : ∀ c' ∈ conns, c'.now ≤ c.now := fun c' hc' =>
      hlast _ (List.mem_map_of_mem hc') _ (List.mem_singleton_self _)
    have hstep := perHost_append_singleton C chain magic hpeers' hnow
    have hconns := ih hsorted hpeers'
    constructor
    · intro h earlier c' hpre
      obtain ⟨hearlier, hspill⟩ := hstep.mp h
      rcases List.prefix_concat_iff.mp hpre with heq | hpre
      · obtain ⟨rfl, hc⟩ := List.append_inj' heq rfl
        rwa [List.singleton_inj.mp hc]
      · exact hconns.mp hearlier earlier c' hpre
    · intro h
      refine hstep.mpr ⟨hconns.mpr fun earlier c' hpre => ?_, h conns c (List.prefix_refl _)⟩
      exact h earlier c' (hpre.trans (List.prefix_append conns [c]))

/-! ### Six ports -/

/-- A connection from the host `203.0.113.7` and the given port, at the start of the clock. -/
def fromPort (port : UInt16) : Inbound := ⟨0, .v4 [203, 0, 113, 7] port, true, true⟩

/-- A node of the regression-test network that nobody has connected to. -/
def freshNode : Node :=
  new (Blockchain.fromGenesisWithMagic Crypto.sample sampleGenesis none regtestMagic) regtestMagic

/-- Six of them at once, each from its own port. -/
def sixPorts : List Inbound := [40000, 40001, 40002, 40003, 40004, 40005].map fromPort

/-- So the bound on a host does not hold: six connections pass at once. -/
theorem not_inbound_limit :
    ¬ ∀ conns : List Inbound, (conns.map Inbound.remote).toFinset.card ≤ maxTrackedPeers →
      (conns.map Inbound.now).Pairwise (· ≤ ·) → PerHost Crypto.sample freshNode conns := by
  intro h
  have hlimit := h sixPorts (by decide) (by decide) (.v4 [203, 0, 113, 7]) 0
  rw [passedFrom, passed_eq] at hlimit
  revert hlimit
  have hconnections : freshNode.rateLimiters.connections = .new := rfl
  rw [hconnections]
  decide +kernel

/-- Six connections from one port stay within the bound: the sixth is refused. -/
theorem inbound_limit_iff_onePort :
    PerHost Crypto.sample freshNode (List.replicate 6 (fromPort 40000)) := by
  refine (inbound_limit_iff Crypto.sample _ _ _ (by decide) (by decide)).mpr
    fun earlier c hpre hspill => ?_
  change SpillsOver Crypto.sample freshNode earlier c at hspill
  -- one port is one address, so the two counts are the same
  have hall : ∀ c' ∈ earlier ++ [c], c' = fromPort 40000 := fun c' hc' =>
    List.eq_of_mem_replicate (hpre.subset hc')
  obtain ⟨hfull, hroom⟩ := hspill
  have hsame : passedFrom Crypto.sample c.remote.ip freshNode earlier =
      passedAs Crypto.sample c.addrStr freshNode earlier := by
    rw [passedFrom, passedAs, passed_eq, passed_eq]
    congr 1
    refine List.filter_congr fun c' hc' => ?_
    have hmem := (RateLimiter.letThrough_sublist _ _).mem hc'
    rw [hall c' (List.mem_append_left _ hmem), hall c (List.mem_append_right _ (by simp))]
    simp
  rw [← hsame] at hroom
  exact Nat.not_lt.mpr hfull hroom

end Node

end Arkos
