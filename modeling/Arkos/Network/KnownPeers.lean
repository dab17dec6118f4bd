import Arkos.Network.Node
import Arkos.Blockchain.IdleChain

/-!
# The cap on known peers

`MAX_KNOWN_PEERS` is a bound of the node and not of the peer store, which bounds each bucket alone.
Three tasks add addresses. The `Addr` arm of `handle_peer` looks at the bound before every address
it adds. The accept loop and `connect_to_peer` add the address of a connection they opened without
looking, and the number of buckets lets them go up to half a million.

So the bound holds along a run exactly as long as no connection brings a new address into a full
store.

## Main definitions

* `Node.Overfills` — the events that go past the bound

## Main results

* `Node.known_count_le_iff` — the bound holds in every state of a run exactly when no event
  overfills the store
* `Node.knownCount_flood` — what a flood of connections leaves
-/

namespace Arkos

namespace Node

variable {C : Crypto} {n : Node}

/-! ### Addresses a peer sends -/

/-- The loop of the `Addr` arm respects the bound. -/
theorem knownCount_addAddrs_le {store : PeerStore} (addrs : List String)
    (h : store.knownCount ≤ maxKnownPeers) :
    (addAddrs store addrs).knownCount ≤ maxKnownPeers := by
  induction addrs generalizing store with
  | nil => exact h
  | cons candidate addrs ih =>
    rw [addAddrs]
    split
    · exact ih h
    · split
      · exact h
      · next hroom =>
        refine ih ?_
        rw [PeerStore.knownCount_addKnown]
        split <;> omega

theorem knownCount_handleMessage_le (clock : Clock) (addr : String) (msg : Message)
    (h : n.peerStore.knownCount ≤ maxKnownPeers) :
    (n.handleMessage C clock addr msg).node.peerStore.knownCount ≤ maxKnownPeers := by
  rw [peerStore_handleMessage]
  split
  · cases msg with
    | addr addrs =>
      rw [peerStoreAfter]
      split
      · exact h
      · exact knownCount_addAddrs_le addrs h
    | _ => exact h
  · exact h

/-! ### One event -/

/-- The event is a connection that goes through, from or to an address the store takes, while the
store is full. -/
def Overfills (n : Node) : Event → Prop
  | .accept now addr handshakeOk versionSent =>
    (n.mayConnect now addr = true ∧ handshakeOk = true ∧ versionSent = true) ∧
      n.peerStore.Takes addr ∧ maxKnownPeers ≤ n.peerStore.knownCount
  | .connect addr connected versionSent =>
    (connected = true ∧ versionSent = true) ∧
      n.peerStore.Takes addr ∧ maxKnownPeers ≤ n.peerStore.knownCount
  | _ => False

/-- An address more than the bound, or the bound is kept. -/
theorem knownCount_addKnown_le_iff {store : PeerStore} {addr : String}
    (h : store.knownCount ≤ maxKnownPeers) :
    (store.addKnown addr).2.knownCount ≤ maxKnownPeers ↔
      ¬ (store.Takes addr ∧ maxKnownPeers ≤ store.knownCount) := by
  rw [PeerStore.knownCount_addKnown]
  by_cases htakes : store.Takes addr
  · rw [if_pos htakes]
    constructor
    · rintro hle ⟨-, hfull⟩
      omega
    · intro hroom
      have hlt : store.knownCount < maxKnownPeers := by
        by_contra hge
        exact hroom ⟨htakes, Nat.not_lt.mp hge⟩
      omega
  · rw [if_neg htakes]
    exact iff_of_true h fun hboth => htakes hboth.1

/-- **One event keeps the bound exactly when it does not overfill the store.** -/
theorem knownCount_step_le_iff (h : n.peerStore.knownCount ≤ maxKnownPeers) (e : Event) :
    (n.step C e).peerStore.knownCount ≤ maxKnownPeers ↔ ¬ n.Overfills e := by
  cases e with
  | accept now addr handshakeOk versionSent =>
    rw [step, accept, Overfills]
    by_cases hok : n.mayConnect now addr = true ∧ handshakeOk = true ∧ versionSent = true
    · rw [if_pos hok, and_iff_right hok]
      exact knownCount_addKnown_le_iff h
    · rw [if_neg hok]
      exact iff_of_true h fun hover => hok hover.1
  | connect addr connected versionSent =>
    rw [step, connectToPeer, Overfills]
    by_cases hok : connected = true ∧ versionSent = true
    · rw [if_pos hok, and_iff_right hok]
      exact knownCount_addKnown_le_iff h
    · rw [if_neg hok]
      exact iff_of_true h fun hover => hok hover.1
  | maintain addr => exact iff_of_true h not_false
  | evict addr =>
    exact iff_of_true ((n.peerStore.knownCount_removeKnown_le addr).trans h) not_false
  | message clock addr msg =>
    exact iff_of_true (knownCount_handleMessage_le clock addr msg h) not_false
  | dropInbound addr => exact iff_of_true h not_false
  | dropOutbound addr => exact iff_of_true h not_false
  | mine fuel now now' order minerAddress =>
    refine iff_of_true ?_ not_false
    rw [step, mineBlockAndRelay]
    split <;> exact h

/-! ### Runs -/

/-- **The known peers of a run stay within the bound exactly when no event overfills the store.** -/
theorem known_count_le_iff (C : Crypto) (chain : Blockchain) (magic : UInt32) (evs : List Event) :
    (∀ pre, pre <+: evs →
      (run C (new chain magic) pre).peerStore.knownCount ≤ maxKnownPeers) ↔
    ∀ pre e, pre ++ [e] <+: evs → ¬ (run C (new chain magic) pre).Overfills e := by
  constructor
  · intro h pre e hpre
    have hbefore := h pre ((List.prefix_append pre [e]).trans hpre)
    have hafter := h (pre ++ [e]) hpre
    rw [run_append_singleton] at hafter
    exact (knownCount_step_le_iff hbefore e).mp hafter
  · intro h pre hpre
    induction pre using List.reverseRecOn with
    | nil => exact Nat.zero_le _
    | append_singleton pre e ih =>
      have hbefore := ih ((List.prefix_append pre [e]).trans hpre)
      rw [run_append_singleton]
      exact (knownCount_step_le_iff hbefore e).mpr (h pre e hpre)

/-! ### A flood of connections -/

/-- A connection from an address, with everything that follows it going well. -/
def arrive (addr : String) : Event := .accept 0 addr true true

/-- A connection from a subnet nobody is known in. -/
theorem step_arrive {addr : String} (hempty : n.peerStore.bucket addr = ∅)
    (hnew : addr ∉ n.rateLimiters.connections.windows) :
    (n.step C (arrive addr)).peerStore = (n.peerStore.addKnown addr).2.markInbound addr ∧
      (n.step C (arrive addr)).peerStore.knownCount = n.peerStore.knownCount + 1 := by
  have hmay : n.mayConnect 0 addr = true := RateLimiter.check_of_notMem (by decide) hnew
  have htakes : n.peerStore.Takes addr := by simp [PeerStore.Takes, hempty, bucketLimit]
  have hstore : (n.step C (arrive addr)).peerStore =
      (n.peerStore.addKnown addr).2.markInbound addr := by
    rw [arrive, step, accept, if_pos ⟨hmay, rfl, rfl⟩]
  refine ⟨hstore, ?_⟩
  rw [hstore, PeerStore.knownCount_markInbound, PeerStore.knownCount_addKnown, if_pos htakes]

theorem connections_step_arrive (n : Node) (addr : String) :
    (n.step C (arrive addr)).rateLimiters.connections =
      (n.rateLimiters.connections.check 0 addr).2 := by
  rw [arrive, step, accept]
  split <;> rfl

/-- **A flood of connections from different subnets**: every one of them stays known. -/
theorem knownCount_flood (addrs : List String) (hsubnets : (addrs.map PeerStore.subnet).Nodup)
    (hempty : ∀ addr ∈ addrs, n.peerStore.bucket addr = ∅)
    (hnew : ∀ addr ∈ addrs, addr ∉ n.rateLimiters.connections.windows) :
    (run C n (addrs.map arrive)).peerStore.knownCount = n.peerStore.knownCount + addrs.length := by
  induction addrs generalizing n with
  | nil => rfl
  | cons addr addrs ih =>
    rw [List.map_cons, List.nodup_cons] at hsubnets
    obtain ⟨hfirst, hrest⟩ := hsubnets
    obtain ⟨hstore, hcount⟩ := step_arrive (C := C) (hempty addr (by simp)) (hnew addr (by simp))
    have hsubnet : ∀ q ∈ addrs, PeerStore.subnet q ≠ PeerStore.subnet addr := fun q hq heq =>
      hfirst (heq ▸ List.mem_map_of_mem hq)
    have htail := ih (n := n.step C (arrive addr)) hrest
      (fun q hq => by
        rw [hstore]
        show (n.peerStore.addKnown addr).2.bucket q = ∅
        rw [PeerStore.bucket_addKnown_of_ne (hsubnet q hq)]
        exact hempty q (List.mem_cons_of_mem _ hq))
      (fun q hq hmem => by
        rw [connections_step_arrive] at hmem
        rcases RateLimiter.mem_windows_of_check hmem with rfl | hmem
        · exact hsubnet q hq rfl
        · exact hnew q (List.mem_cons_of_mem _ hq) hmem)
    rw [List.map_cons, List.length_cons]
    show (run C (n.step C (arrive addr)) (addrs.map arrive)).peerStore.knownCount = _
    rw [htail, hcount]
    omega

/-- Addresses in different subnets: `100.100.0.1:8333`, `100.101.0.1:8333` and so on. -/
def floodAddr (i : ℕ) : String :=
  String.ofList (SocketAddr.decimal3 (100 + i / 100) ++ '.' ::
    (SocketAddr.decimal3 (100 + i % 100) ++ ".0.1:8333".toList))

theorem subnet_floodAddr {i : ℕ} (hi : i < 5000) :
    PeerStore.subnet (floodAddr i) =
      (UInt8.ofNat (100 + i / 100), UInt8.ofNat (100 + i % 100)) := by
  have hparse := SocketAddr.parse_v4 (a := 100 + i / 100) (b := 100 + i % 100) (by omega) (by omega)
    (by omega) (by omega)
  rw [PeerStore.subnet, floodAddr, hparse]
  rfl

theorem subnet_floodAddr_injOn {i j : ℕ} (hi : i < 5000) (hj : j < 5000)
    (h : PeerStore.subnet (floodAddr i) = PeerStore.subnet (floodAddr j)) : i = j := by
  rw [subnet_floodAddr hi, subnet_floodAddr hj, Prod.mk.injEq] at h
  have hhundreds := congrArg UInt8.toNat h.1
  have hrest := congrArg UInt8.toNat h.2
  simp only [UInt8.toNat_ofNat'] at hhundreds hrest
  omega

/-- One connection from each of 4097 subnets. -/
def flood : List Event := ((List.range 4097).map floodAddr).map arrive

/-- **4097 connections make 4097 known peers.** -/
theorem known_count_gt_of_flood :
    maxKnownPeers < (run Crypto.sample
      (new (Blockchain.fromGenesisWithMagic Crypto.sample sampleGenesis none regtestMagic)
        regtestMagic) flood).peerStore.knownCount := by
  have hnodup : (((List.range 4097).map floodAddr).map PeerStore.subnet).Nodup := by
    rw [List.map_map]
    refine List.Nodup.map_on (fun i hi j hj heq => ?_) List.nodup_range
    rw [List.mem_range] at hi hj
    exact subnet_floodAddr_injOn (by omega) (by omega) heq
  rw [flood, knownCount_flood _ hnodup (fun _ _ => rfl) fun _ _ => Finmap.notMem_empty]
  simp [maxKnownPeers, new]

end Node

end Arkos
