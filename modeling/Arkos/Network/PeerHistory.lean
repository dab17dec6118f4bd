import Arkos.Network.Peers
import Arkos.Lib.Prefix
import Mathlib.Data.Set.Card

/-!
# What a peer store knows after a history of calls

The buckets, the outbound marks and the inbound marks are three collections, and each call changes
one of them. Read as a whole, a store says of each address what the last call about it said: it is
known if it was taken and not removed since, and connected if it was marked and not unmarked since.

The subnet of an address decides only which bucket has to have room for it. Texts that do not parse
as an address share a bucket with `0.0.0.0/16` and are kept apart within it like any others.

## Main definitions

* `PeerStore.Call`, `PeerStore.after` — histories
* `PeerStore.AddedSince`, `PeerStore.MarkedSince` — what a history says of an address
* `PeerStore.Bucketed` — the invariant

## Main results

* `PeerStore.bucketed_after` — each bucket keeps to its size and its subnet
* `PeerStore.containsKnown_after_iff`, `PeerStore.mem_connected_after_iff`
* `PeerStore.subnet_bucketing`
-/

namespace Arkos

namespace PeerStore

/-- The calls that change a store. -/
inductive Call
  | addKnown (addr : String)
  | removeKnown (addr : String)
  | markOutbound (addr : String)
  | unmarkOutbound (addr : String)
  | markInbound (addr : String)
  | unmarkInbound (addr : String)
  deriving DecidableEq, Repr

/-- What a call leaves. -/
def step (p : PeerStore) : Call → PeerStore
  | .addKnown addr => (p.addKnown addr).2
  | .removeKnown addr => p.removeKnown addr
  | .markOutbound addr => p.markOutbound addr
  | .unmarkOutbound addr => p.unmarkOutbound addr
  | .markInbound addr => p.markInbound addr
  | .unmarkInbound addr => p.unmarkInbound addr

/-- What calls on a new store leave. -/
def after (calls : List Call) : PeerStore := calls.foldl step new

/-- `add_known` returned true for the address and `remove_known` was not called for it since. -/
def AddedSince (calls : List Call) (addr : String) : Prop :=
  Since (fun earlier c => c = .addKnown addr ∧ ((after earlier).addKnown addr).1 = true)
    (.removeKnown addr) calls

/-- There was a call `mark` and no call `unmark` since. -/
def MarkedSince (mark unmark : Call) (calls : List Call) : Prop :=
  Since (fun _ c => c = mark) unmark calls

/-- Each bucket has at most `bucketLimit` addresses, all of its own subnet. -/
def Bucketed (p : PeerStore) : Prop :=
  ∀ key bucket, p.buckets.lookup key = some bucket →
    bucket.card ≤ bucketLimit ∧ ∀ addr ∈ bucket, subnet addr = key

theorem after_append_singleton (calls : List Call) (c : Call) :
    after (calls ++ [c]) = (after calls).step c :=
  List.foldl_concat ..

variable {p : PeerStore} {addr a : String}

/-! ### Buckets -/

theorem Bucketed.bucket_card_le (hp : p.Bucketed) (addr : String) :
    (p.bucket addr).card ≤ bucketLimit := by
  unfold bucket
  cases hlook : p.buckets.lookup (subnet addr) with
  | none => exact Nat.zero_le _
  | some b => exact (hp _ _ hlook).1

theorem Bucketed.subnet_eq (hp : p.Bucketed) (h : a ∈ p.bucket addr) : subnet a = subnet addr := by
  unfold bucket at h
  cases hlook : p.buckets.lookup (subnet addr) with
  | none =>
    rw [hlook] at h
    exact absurd h (Finset.notMem_empty a)
  | some b =>
    rw [hlook] at h
    exact (hp _ _ hlook).2 a h

theorem Bucketed.setBucket {b : Finset String} (hp : p.Bucketed) (hcard : b.card ≤ bucketLimit)
    (hsubnet : ∀ a ∈ b, subnet a = subnet addr) : (p.setBucket addr b).Bucketed := by
  intro key bucket hlook
  rw [PeerStore.setBucket, Finmap.lookup_insert_eq] at hlook
  split at hlook
  · next hkey =>
    obtain rfl := Option.some.inj hlook
    exact ⟨hcard, fun a ha => (hsubnet a ha).trans hkey.symm⟩
  · exact hp key bucket hlook

theorem Bucketed.addKnown (hp : p.Bucketed) (addr : String) : (p.addKnown addr).2.Bucketed := by
  unfold PeerStore.addKnown
  split
  · exact hp.setBucket (hp.bucket_card_le addr) fun a ha => hp.subnet_eq ha
  · next hroom =>
    refine hp.setBucket ?_ fun a ha => ?_
    · have hle := Finset.card_insert_le addr (p.bucket addr)
      omega
    · rcases Finset.mem_insert.mp ha with rfl | ha
      · rfl
      · exact hp.subnet_eq ha

theorem Bucketed.removeKnown (hp : p.Bucketed) (addr : String) : (p.removeKnown addr).Bucketed := by
  unfold PeerStore.removeKnown
  split
  · exact hp
  · next b hlook =>
    obtain ⟨hcard, hsubnet⟩ := hp _ _ hlook
    exact hp.setBucket ((Finset.card_erase_le).trans hcard) fun a ha =>
      hsubnet a (Finset.mem_of_mem_erase ha)

/-- The marks are not in the buckets. -/
theorem Bucketed.step (hp : p.Bucketed) (c : Call) : (p.step c).Bucketed := by
  cases c with
  | addKnown addr => exact hp.addKnown addr
  | removeKnown addr => exact hp.removeKnown addr
  | markOutbound | unmarkOutbound | markInbound | unmarkInbound => exact hp

theorem bucketed_after (calls : List Call) : (after calls).Bucketed := by
  induction calls using List.reverseRecOn with
  | nil =>
    intro key bucket hlook
    simp [after, new] at hlook
  | append_singleton calls c ih =>
    rw [after_append_singleton]
    exact ih.step c

/-! ### Known addresses -/

theorem bucket_setBucket (b : Finset String) :
    (p.setBucket addr b).bucket a = if subnet a = subnet addr then b else p.bucket a := by
  rw [bucket, setBucket, Finmap.lookup_insert_eq]
  split <;> rfl

theorem bucket_congr (h : subnet a = subnet addr) : p.bucket a = p.bucket addr := by
  rw [bucket, bucket, h]

/-- `add_known` adds an address exactly when it returns true. -/
theorem mem_bucket_addKnown :
    a ∈ (p.addKnown addr).2.bucket a ↔
      (a = addr ∧ (p.addKnown addr).1 = true) ∨ a ∈ p.bucket a := by
  unfold addKnown
  split
  · -- the bucket is full and written back
    rw [bucket_setBucket]
    split
    · next h => simp [bucket_congr h]
    · simp
  · rw [bucket_setBucket]
    split
    · next h =>
      rw [Finset.mem_insert, bucket_congr h, decide_eq_true_iff]
      by_cases haddr : a = addr
      · subst haddr
        tauto
      · simp [haddr]
    · next h =>
      have hne : a ≠ addr := fun heq => h (heq ▸ rfl)
      simp [hne]

theorem mem_bucket_removeKnown :
    a ∈ (p.removeKnown addr).bucket a ↔ a ∈ p.bucket a ∧ a ≠ addr := by
  unfold removeKnown
  split
  · next hlook =>
    refine ⟨fun h => ⟨h, ?_⟩, And.left⟩
    rintro rfl
    rw [bucket, hlook] at h
    exact absurd h (Finset.notMem_empty a)
  · next b hlook =>
    rw [bucket_setBucket]
    split
    · next h =>
      have hb : p.bucket a = b := by rw [bucket_congr h, bucket, hlook, Option.getD_some]
      rw [Finset.mem_erase, hb, and_comm]
    · next h =>
      have hne : a ≠ addr := fun heq => h (heq ▸ rfl)
      simp [hne]

/-- What the last call does to what is known. -/
theorem mem_bucket_step (c : Call) :
    a ∈ (p.step c).bucket a ↔
      (c = .addKnown a ∧ (p.addKnown a).1 = true) ∨ (a ∈ p.bucket a ∧ c ≠ .removeKnown a) := by
  cases c with
  | addKnown addr =>
    rw [step, mem_bucket_addKnown]
    by_cases haddr : a = addr
    · subst haddr
      simp
    · simp [haddr, Ne.symm haddr]
  | removeKnown addr =>
    rw [step, mem_bucket_removeKnown]
    simp [@eq_comm _ addr]
  | markOutbound | unmarkOutbound | markInbound | unmarkInbound =>
    simp [step, bucket, markOutbound, unmarkOutbound, markInbound, unmarkInbound]

/-- **The store knows an address exactly when it took it and was not told to remove it since.** -/
theorem containsKnown_after_iff (calls : List Call) (a : String) :
    (after calls).containsKnown a = true ↔ AddedSince calls a := by
  rw [containsKnown, decide_eq_true_iff]
  induction calls using List.reverseRecOn with
  | nil =>
    refine iff_of_false ?_ (not_since_nil _ _)
    simp [after, new, bucket]
  | append_singleton calls c ih =>
    rw [after_append_singleton, mem_bucket_step, AddedSince, since_append_singleton, ih, AddedSince]

theorem mem_allKnown (hp : p.Bucketed) : a ∈ p.allKnown ↔ p.containsKnown a = true := by
  rw [allKnown, Finmap.mem_members, containsKnown, decide_eq_true_iff, bucket]
  constructor
  · rintro ⟨key, b, hlook, ha⟩
    rw [(hp key b hlook).2 a ha, hlook]
    exact ha
  · intro ha
    cases hlook : p.buckets.lookup (subnet a) with
    | none =>
      rw [hlook] at ha
      exact absurd ha (Finset.notMem_empty a)
    | some b =>
      rw [hlook] at ha
      exact ⟨_, b, hlook, ha⟩

theorem nodup_allKnown (hp : p.Bucketed) : p.allKnown.Nodup :=
  Finmap.nodup_members subnet fun key b hlook => (hp key b hlook).2

theorem card_allKnown (p : PeerStore) : p.allKnown.card = p.knownCount :=
  Finmap.card_members _

/-! ### Connections -/

/-- Each kind of mark is a set that two calls change. -/
theorem mem_after_iff (marks : PeerStore → Finset String) (mark unmark : String → Call)
    (hnew : marks new = ∅)
    (hstep : ∀ p c, a ∈ marks (p.step c) ↔ c = mark a ∨ (a ∈ marks p ∧ c ≠ unmark a))
    (calls : List Call) :
    a ∈ marks (after calls) ↔ MarkedSince (mark a) (unmark a) calls := by
  induction calls using List.reverseRecOn with
  | nil =>
    refine iff_of_false ?_ (not_since_nil _ _)
    simp [after, hnew]
  | append_singleton calls c ih =>
    rw [after_append_singleton, hstep, MarkedSince, since_append_singleton, ih, MarkedSince]

theorem marks_removeKnown (p : PeerStore) (addr : String) :
    (p.removeKnown addr).outbound = p.outbound ∧ (p.removeKnown addr).inbound = p.inbound := by
  unfold removeKnown
  split <;> exact ⟨rfl, rfl⟩

theorem marks_addKnown (p : PeerStore) (addr : String) :
    (p.addKnown addr).2.outbound = p.outbound ∧ (p.addKnown addr).2.inbound = p.inbound := by
  unfold addKnown
  split <;> exact ⟨rfl, rfl⟩

theorem mem_outbound_after_iff (calls : List Call) (a : String) :
    a ∈ (after calls).outbound ↔ MarkedSince (.markOutbound a) (.unmarkOutbound a) calls := by
  refine mem_after_iff outbound Call.markOutbound Call.unmarkOutbound rfl (fun p c => ?_) calls
  cases c with
  | addKnown addr => simp [step, (marks_addKnown p addr).1]
  | removeKnown addr => simp [step, (marks_removeKnown p addr).1]
  | markOutbound addr => simp [step, markOutbound, eq_comm]
  | unmarkOutbound addr => simp [step, unmarkOutbound, and_comm, eq_comm]
  | markInbound | unmarkInbound => simp [step, markInbound, unmarkInbound]

theorem mem_inbound_after_iff (calls : List Call) (a : String) :
    a ∈ (after calls).inbound ↔ MarkedSince (.markInbound a) (.unmarkInbound a) calls := by
  refine mem_after_iff inbound Call.markInbound Call.unmarkInbound rfl (fun p c => ?_) calls
  cases c with
  | addKnown addr => simp [step, (marks_addKnown p addr).2]
  | removeKnown addr => simp [step, (marks_removeKnown p addr).2]
  | markInbound addr => simp [step, markInbound, eq_comm]
  | unmarkInbound addr => simp [step, unmarkInbound, and_comm, eq_comm]
  | markOutbound | unmarkOutbound => simp [step, markOutbound, unmarkOutbound]

theorem mem_outboundCandidates (hp : p.Bucketed) :
    a ∈ p.outboundCandidates ↔
      p.containsKnown a = true ∧ a ∉ p.outbound ∧ a ∉ p.inbound := by
  rw [outboundCandidates, Multiset.mem_filter, mem_allKnown hp, connected, Finset.mem_union, not_or]

/-! ### The store as a whole -/

/-- **The store agrees with its history.** Every bucket keeps to its size and its subnet, no address
is there twice, and known, counted and returned as a candidate is what the calls say. -/
theorem subnet_bucketing (calls : List Call) :
    (∀ key bucket, (after calls).buckets.lookup key = some bucket →
      bucket.card ≤ bucketLimit ∧ ∀ addr ∈ bucket, subnet addr = key) ∧
    (after calls).allKnown.Nodup ∧
    (∀ addr, (after calls).containsKnown addr = true ↔ AddedSince calls addr) ∧
    ((after calls).knownCount : ℕ∞) = {addr | AddedSince calls addr}.encard ∧
    (after calls).outboundCandidates.Nodup ∧
    ∀ addr, addr ∈ (after calls).outboundCandidates ↔
      AddedSince calls addr ∧ ¬ MarkedSince (.markOutbound addr) (.unmarkOutbound addr) calls ∧
        ¬ MarkedSince (.markInbound addr) (.unmarkInbound addr) calls := by
  have hbucketed := bucketed_after calls
  have hnodup := nodup_allKnown hbucketed
  have hset : {addr | AddedSince calls addr} = ((after calls).allKnown.toFinset : Set String) := by
    ext addr
    rw [Set.mem_ofPred_eq, Finset.mem_coe, Multiset.mem_toFinset, mem_allKnown hbucketed,
      containsKnown_after_iff]
  refine ⟨hbucketed, hnodup, containsKnown_after_iff calls, ?_, hnodup.filter _, fun addr => ?_⟩
  · rw [hset, Set.encard_coe_eq_coe_finsetCard, Multiset.toFinset_card_of_nodup hnodup,
      card_allKnown]
  · rw [mem_outboundCandidates hbucketed, containsKnown_after_iff, mem_outbound_after_iff,
      mem_inbound_after_iff]

end PeerStore

end Arkos
