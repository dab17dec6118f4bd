import Arkos.Lib.InsertionOrder
import Arkos.Security.RateLimit

/-!
# The bookkeeping of a limiter

A limiter keeps its peers in a table of windows and in a list, so that it can push out the oldest
one when `MAX_TRACKED_PEERS` are tracked. Whatever is called, the two stay in step: the list has
each tracked peer once, in the order of the latest insertions.

The bound is another matter. A check makes room before it inserts a peer, and so keeps the bound. A
ban does not, and takes a full table over it.

## Main definitions

* `LimiterCall`, `RateLimiter.afterCalls`, `RateLimiter.insertions`
* `RateLimiter.Bookkept`

## Main results

* `RateLimiter.insertionOrder_afterCalls` — the list and the table stay in step
* `RateLimiter.limiter_bookkeeping_iff` — when the bound holds, too
-/

namespace Arkos

/-- A call that changes a limiter. -/
inductive LimiterCall where
  | check (now : ℕ) (peerId : String)
  | ban (now : ℕ) (peerId : String)
  deriving DecidableEq, Repr

namespace LimiterCall

def now : LimiterCall → ℕ
  | check now _ => now
  | ban now _ => now

def peerId : LimiterCall → String
  | check _ peerId => peerId
  | ban _ peerId => peerId

end LimiterCall

namespace RateLimiter

variable {maxPerWindow windowSecs : ℕ}

/-- The limiter after one call. -/
def afterCall (l : RateLimiter maxPerWindow windowSecs) :
    LimiterCall → RateLimiter maxPerWindow windowSecs
  | .check now peerId => (l.check now peerId).2
  | .ban now peerId => l.ban now peerId

/-- The limiter after a sequence of calls. -/
def afterCalls (l : RateLimiter maxPerWindow windowSecs) (calls : List LimiterCall) :
    RateLimiter maxPerWindow windowSecs := calls.foldl afterCall l

/-- The peers that the calls insert into the table, in order. A peer that was pushed out is inserted
again. -/
def insertions : RateLimiter maxPerWindow windowSecs → List LimiterCall → List String
  | _, [] => []
  | l, c :: calls =>
    (if c.peerId ∈ l.windows then [] else [c.peerId]) ++ insertions (l.afterCall c) calls

/-- What the bookkeeping promises, given the insertions so far. `List.dedup` keeps of each entry the
last occurrence. -/
structure Bookkept (l : RateLimiter maxPerWindow windowSecs) (inserted : List String) : Prop where
  card_le : l.windows.keys.card ≤ maxTrackedPeers
  nodup : l.insertionOrder.Nodup
  mem_iff : ∀ q, q ∈ l.insertionOrder ↔ q ∈ l.windows
  order_eq : l.insertionOrder = inserted.dedup.filter (· ∈ l.windows)

variable {l : RateLimiter maxPerWindow windowSecs} {log : List String} {now : ℕ} {peerId : String}

/-! ### What a call does to the peers -/

theorem makeRoom_of_mem (h : peerId ∈ l.windows) : l.makeRoom peerId = l :=
  makeRoom_of_lt fun hnew => absurd h hnew

theorem mem_windows_makeRoom_iff : peerId ∈ (l.makeRoom peerId).windows ↔ peerId ∈ l.windows :=
  ⟨mem_windows_of_makeRoom, fun h => by rwa [makeRoom_of_mem h]⟩

theorem keys_check (now : ℕ) (l : RateLimiter maxPerWindow windowSecs) (peerId : String) :
    (l.check now peerId).2.windows.keys = insert peerId (l.makeRoom peerId).windows.keys := by
  unfold check
  dsimp only
  split
  · exact Finmap.keys_insert _ _ _
  · exact Finmap.keys_insert _ _ _

theorem insertionOrder_check (now : ℕ) (l : RateLimiter maxPerWindow windowSecs)
    (peerId : String) : (l.check now peerId).2.insertionOrder =
      if peerId ∈ (l.makeRoom peerId).windows then (l.makeRoom peerId).insertionOrder
      else (l.makeRoom peerId).insertionOrder ++ [peerId] := by
  unfold check
  dsimp only
  split <;> rfl

theorem keys_ban (now : ℕ) (l : RateLimiter maxPerWindow windowSecs) (peerId : String) :
    (l.ban now peerId).windows.keys = insert peerId l.windows.keys := Finmap.keys_insert _ _ _

/-! ### The list and the table -/

/-- The list is the table, by the latest of the insertions `log`. -/
def InStep (l : RateLimiter maxPerWindow windowSecs) (log : List String) : Prop :=
  InsertionOrder log l.windows.keys l.insertionOrder

theorem inStep_new : InStep (new : RateLimiter maxPerWindow windowSecs) [] := .empty

/-- Pushing out the oldest peer. -/
theorem InStep.makeRoom (h : InStep l log) (peerId : String) : InStep (l.makeRoom peerId) log := by
  unfold RateLimiter.makeRoom
  split
  · split
    · exact h
    · next oldest rest horder =>
      rw [InStep, Finmap.keys_erase]
      exact InsertionOrder.erase h oldest
  · exact h

/-- Tracking a peer: a new one goes to the end. -/
theorem InStep.track (h : InStep l log) {l' : RateLimiter maxPerWindow windowSecs}
    (hkeys : l'.windows.keys = insert peerId l.windows.keys)
    (horder : l'.insertionOrder =
      if peerId ∈ l.windows then l.insertionOrder else l.insertionOrder ++ [peerId]) :
    InStep l' (log ++ if peerId ∈ l.windows then [] else [peerId]) := by
  rw [InStep, hkeys, horder]
  split
  · next hmem =>
    rw [Finset.insert_eq_of_mem (Finmap.mem_keys.mpr hmem), List.append_nil]
    exact h
  · next hnew => exact InsertionOrder.insert h fun hmem => hnew (Finmap.mem_keys.mp hmem)

/-- **One call** keeps the list and the table in step. -/
theorem InStep.afterCall (h : InStep l log) (c : LimiterCall) :
    InStep (l.afterCall c) (log ++ if c.peerId ∈ l.windows then [] else [c.peerId]) := by
  cases c with
  | check now peerId =>
    have hroom := (h.makeRoom peerId).track (keys_check now l peerId)
      (insertionOrder_check now l peerId)
    simp only [mem_windows_makeRoom_iff] at hroom
    exact hroom
  | ban now peerId => exact h.track (keys_ban now l peerId) rfl

/-- **The list and the table stay in step**, whatever is called. -/
theorem InStep.afterCalls (h : InStep l log) (calls : List LimiterCall) :
    InStep (l.afterCalls calls) (log ++ l.insertions calls) := by
  induction calls generalizing l log with
  | nil =>
    rw [insertions, List.append_nil]
    exact h
  | cons c calls ih =>
    rw [insertions, ← List.append_assoc]
    exact ih (h.afterCall c)

theorem inStep_afterCalls (calls : List LimiterCall) :
    InStep ((new : RateLimiter maxPerWindow windowSecs).afterCalls calls)
      ((new : RateLimiter maxPerWindow windowSecs).insertions calls) :=
  inStep_new.afterCalls calls

theorem InStep.bookkept (h : InStep l log) (hcard : l.windows.keys.card ≤ maxTrackedPeers) :
    Bookkept l log := by
  refine ⟨hcard, h.nodup, fun q => ?_, ?_⟩
  · rw [InsertionOrder.mem_iff h, Finmap.mem_keys]
  · rw [h.order_eq]
    exact List.filter_congr fun q _ => by simp only [Finmap.mem_keys]

/-! ### The bound -/

/-- Making room makes room. -/
theorem InStep.card_makeRoom_lt (h : InStep l log)
    (hcard : l.windows.keys.card ≤ maxTrackedPeers) (hnew : peerId ∉ l.windows) :
    (l.makeRoom peerId).windows.keys.card < maxTrackedPeers := by
  unfold RateLimiter.makeRoom
  split
  · next hfull =>
    have hpos : 0 < l.windows.keys.card := lt_of_lt_of_le (by decide) hfull.2
    obtain ⟨q, hq⟩ := Finset.card_pos.mp hpos
    split
    · next hnil =>
      have hmem := (InsertionOrder.mem_iff h).mpr hq
      rw [hnil] at hmem
      cases hmem
    · next oldest rest horder =>
      have holdest : oldest ∈ l.windows.keys :=
        (InsertionOrder.mem_iff h).mp (horder ▸ List.mem_cons_self)
      rw [Finmap.keys_erase, Finset.card_erase_of_mem holdest]
      omega
  · next hroom => exact Nat.not_le.mp fun hfull => hroom ⟨hnew, hfull⟩

/-- A check keeps the bound. -/
theorem InStep.card_check_le (h : InStep l log) (hcard : l.windows.keys.card ≤ maxTrackedPeers)
    (now : ℕ) (peerId : String) :
    (l.check now peerId).2.windows.keys.card ≤ maxTrackedPeers := by
  rw [keys_check]
  by_cases hmem : peerId ∈ l.windows
  · rwa [makeRoom_of_mem hmem, Finset.insert_eq_of_mem (Finmap.mem_keys.mpr hmem)]
  · exact (Finset.card_insert_le _ _).trans (h.card_makeRoom_lt hcard hmem)

/-- A ban keeps it when the peer is tracked or there is room for it. -/
theorem card_ban_le_iff (hcard : l.windows.keys.card ≤ maxTrackedPeers) :
    (l.ban now peerId).windows.keys.card ≤ maxTrackedPeers ↔
      peerId ∈ l.windows ∨ l.windows.keys.card < maxTrackedPeers := by
  rw [keys_ban]
  by_cases hmem : peerId ∈ l.windows
  · rw [Finset.insert_eq_of_mem (Finmap.mem_keys.mpr hmem)]
    exact iff_of_true hcard (Or.inl hmem)
  · rw [Finset.card_insert_of_notMem fun hkey => hmem (Finmap.mem_keys.mp hkey),
      or_iff_right hmem]
    exact Iff.rfl

theorem afterCalls_append_singleton (l : RateLimiter maxPerWindow windowSecs)
    (calls : List LimiterCall) (c : LimiterCall) :
    l.afterCalls (calls ++ [c]) = (l.afterCalls calls).afterCall c := by
  rw [afterCalls, List.foldl_append]
  rfl

/-- **When the books are kept.** Over any sequence of checks and bans, every state has its list and
table in step and within the bound exactly when no ban inserts a peer into a full table. -/
theorem limiter_bookkeeping_iff (maxPerWindow windowSecs : ℕ) (calls : List LimiterCall) :
    let limiter : RateLimiter maxPerWindow windowSecs := new
    (∀ earlier, earlier <+: calls →
        Bookkept (limiter.afterCalls earlier) (limiter.insertions earlier)) ↔
      ∀ earlier now peerId, earlier ++ [.ban now peerId] <+: calls →
        peerId ∈ (limiter.afterCalls earlier).windows ∨
          (limiter.afterCalls earlier).windows.keys.card < maxTrackedPeers := by
  intro limiter
  constructor
  · intro h earlier now peerId hpre
    have hbefore := h earlier ((List.prefix_append _ _).trans hpre)
    have hafter := (h _ hpre).card_le
    rw [afterCalls_append_singleton] at hafter
    exact (card_ban_le_iff hbefore.card_le).mp hafter
  · intro h earlier hpre
    refine (inStep_afterCalls earlier).bookkept ?_
    induction earlier using List.reverseRecOn with
    | nil => exact Nat.zero_le _
    | append_singleton earlier c ih =>
      have hcard := ih ((List.prefix_append _ _).trans hpre)
      rw [afterCalls_append_singleton]
      cases c with
      | check now peerId => exact (inStep_afterCalls earlier).card_check_le hcard now peerId
      | ban now peerId => exact (card_ban_le_iff hcard).mpr (h earlier now peerId hpre)

/-! ### One peer too many -/

/-- The bans of different peers, one after the other. -/
def bans (n : ℕ) : List LimiterCall := (List.range n).map fun i => .ban 0 (toString i)

theorem keys_bans (n : ℕ) :
    ((new : RateLimiter maxPerWindow windowSecs).afterCalls (bans n)).windows.keys =
      ((List.range n).map toString).toFinset := by
  induction n with
  | zero => rfl
  | succ n ih =>
    rw [bans, List.range_succ, List.map_append, List.map_append, List.map_singleton,
      List.map_singleton, afterCalls_append_singleton, afterCall, keys_ban, List.toFinset_append]
    rw [bans] at ih
    rw [ih, List.toFinset_cons, List.toFinset_nil, insert_empty_eq, Finset.insert_eq,
      Finset.union_comm]

theorem card_bans (n : ℕ) :
    ((new : RateLimiter maxPerWindow windowSecs).afterCalls (bans n)).windows.keys.card = n := by
  rw [keys_bans, List.toFinset_card_of_nodup (List.nodup_range.map decimal_injective),
    List.length_map, List.length_range]

/-- **The bans of 4097 peers are all tracked.** -/
theorem not_limiter_bookkeeping : ¬ ∀ calls : List LimiterCall,
    (calls.map LimiterCall.now).Pairwise (· ≤ ·) →
      Bookkept ((new : RateLimiter 5 60).afterCalls calls)
        ((new : RateLimiter 5 60).insertions calls) := by
  intro h
  have hsorted : ((bans 4097).map LimiterCall.now).Pairwise (· ≤ ·) := by
    rw [bans, List.map_map, List.pairwise_map]
    exact List.pairwise_of_forall fun _ _ => le_rfl
  have hcard := (h (bans 4097) hsorted).card_le
  rw [card_bans] at hcard
  exact absurd hcard (by decide)

end RateLimiter

end Arkos
