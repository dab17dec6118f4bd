import Arkos.Lib.FinMap
import Arkos.Lib.SlidingWindow
import Arkos.Transaction.Utxo

/-!
# Rate limits

A limiter keeps, for each peer, the times of the events it let through, and lets one more through
while fewer than `maxPerWindow` of them are younger than the window. A check of a new peer makes
room for it: when `maxTrackedPeers` are tracked it pushes out the oldest, whose window is forgotten.
A ban fills a window up and makes no room.

Times are nanoseconds of the monotonic clock. The difference of two of them saturates at zero, as
`duration_since` does. The two bounds never change once a limiter is built, and are parameters of
its type.

## Main definitions

* `RateLimiter`, `RateLimiter.check`, `RateLimiter.ban`
* `RateLimiter.after`, `RateLimiter.answer`, `RateLimiter.allowed` — sequences of checks
* `NodeRateLimiter`

## Main results

* `RateLimiter.check_fst` — the answer depends on the peer's own window alone
* `RateLimiter.entries_check_self` — and so does the window it leaves
* `RateLimiter.sliding_window_limit` — the limit over whole histories
-/

namespace Arkos

open SlidingWindow

/-- `MAX_TRACKED_PEERS`. -/
def maxTrackedPeers : ℕ := 4096

/-- `RateLimiter`. -/
structure RateLimiter (maxPerWindow windowSecs : ℕ) where
  windows : Table (List ℕ)
  /-- The tracked peers, oldest first. -/
  insertionOrder : List String

namespace RateLimiter

variable {maxPerWindow windowSecs : ℕ}

/-- `RateLimiter::new`. -/
def new : RateLimiter maxPerWindow windowSecs := ⟨∅, []⟩

/-- `window_duration`. -/
def windowDuration (_ : RateLimiter maxPerWindow windowSecs) : ℕ := windowSecs * 10 ^ 9

/-- The window of a peer, empty for one that is not tracked. -/
def entries (l : RateLimiter maxPerWindow windowSecs) (peerId : String) : List ℕ :=
  (l.windows.lookup peerId).getD []

/-- Drop the oldest entry when the cap is reached and the peer is new. -/
def makeRoom (l : RateLimiter maxPerWindow windowSecs) (peerId : String) :
    RateLimiter maxPerWindow windowSecs :=
  if peerId ∉ l.windows ∧ maxTrackedPeers ≤ l.windows.keys.card then
    match l.insertionOrder with
    | [] => l
    | oldest :: _ =>
      { windows := l.windows.erase oldest
        insertionOrder := l.insertionOrder.filter fun k => k ≠ oldest }
  else l

/-- `RateLimiter::check` at the time `now`: whether the event is let through. -/
def check (now : ℕ) (l : RateLimiter maxPerWindow windowSecs) (peerId : String) :
    Bool × RateLimiter maxPerWindow windowSecs :=
  let l := l.makeRoom peerId
  let insertionOrder :=
    if peerId ∈ l.windows then l.insertionOrder else l.insertionOrder ++ [peerId]
  let kept := live l.windowDuration now (l.entries peerId)
  if maxPerWindow ≤ kept.length then
    (false, ⟨l.windows.insert peerId kept, insertionOrder⟩)
  else (true, ⟨l.windows.insert peerId (kept ++ [now]), insertionOrder⟩)

/-- `RateLimiter::ban` at the time `now`: a window that is full ten times over. -/
def ban (now : ℕ) (l : RateLimiter maxPerWindow windowSecs) (peerId : String) :
    RateLimiter maxPerWindow windowSecs where
  windows := l.windows.insert peerId (List.replicate (maxPerWindow * 10 % 2 ^ 64) now)
  insertionOrder := if peerId ∈ l.windows then l.insertionOrder else l.insertionOrder ++ [peerId]

variable {l : RateLimiter maxPerWindow windowSecs} {peerId : String} {now : ℕ}

theorem entries_of_notMem (h : peerId ∉ l.windows) : l.entries peerId = [] := by
  rw [entries, Finmap.lookup_eq_none.mpr h]
  rfl

@[simp] theorem entries_new : (new : RateLimiter maxPerWindow windowSecs).entries peerId = [] := by
  simp [entries, new]

/-- Making room never touches the window of the peer it is made for. -/
@[simp] theorem entries_makeRoom (l : RateLimiter maxPerWindow windowSecs) (peerId : String) :
    (l.makeRoom peerId).entries peerId = l.entries peerId := by
  unfold makeRoom
  split
  · next h =>
    split
    · rfl
    · next oldest _ _ =>
      have hnone : l.windows.lookup peerId = none := Finmap.lookup_eq_none.mpr h.1
      simp [entries, Finmap.lookup_erase_eq, hnone]
  · rfl

theorem mem_windows_of_makeRoom {q : String} (h : q ∈ (l.makeRoom peerId).windows) :
    q ∈ l.windows := by
  unfold makeRoom at h
  split at h
  · split at h
    · exact h
    · exact (Finmap.mem_erase.mp h).2
  · exact h

/-- **The answer.** -/
theorem check_fst (now : ℕ) (l : RateLimiter maxPerWindow windowSecs) (peerId : String) :
    (l.check now peerId).1 =
      decide ((live l.windowDuration now (l.entries peerId)).length < maxPerWindow) := by
  have hdur : (l.makeRoom peerId).windowDuration = l.windowDuration := rfl
  unfold check
  simp only [entries_makeRoom, hdur]
  split
  · next h => simpa using h
  · next h => simpa using h

/-- **The window left behind.** -/
theorem entries_check_self (now : ℕ) (l : RateLimiter maxPerWindow windowSecs) (peerId : String) :
    (l.check now peerId).2.entries peerId =
      live l.windowDuration now (l.entries peerId) ++
        if (l.check now peerId).1 then [now] else [] := by
  have hdur : (l.makeRoom peerId).windowDuration = l.windowDuration := rfl
  unfold check
  simp only [entries_makeRoom, hdur]
  split
  · simp [entries]
  · simp [entries]

/-- A check tracks no peer but the one it is for. -/
theorem mem_windows_of_check {q : String} (h : q ∈ (l.check now peerId).2.windows) :
    q = peerId ∨ q ∈ l.windows := by
  have hinsert : ∀ ts, q ∈ (l.makeRoom peerId).windows.insert peerId ts →
      q = peerId ∨ q ∈ l.windows := fun ts hq =>
    (Finmap.mem_insert.mp hq).imp_right mem_windows_of_makeRoom
  unfold check at h
  dsimp only at h
  split at h
  · exact hinsert _ h
  · exact hinsert _ h

/-- A peer that is not tracked is let through. -/
theorem check_of_notMem (hmax : 0 < maxPerWindow) (h : peerId ∉ l.windows) :
    (l.check now peerId).1 = true := by
  rw [check_fst, entries_of_notMem h, live_nil]
  exact decide_eq_true hmax

/-- Without a peer to push out, nothing happens. -/
theorem makeRoom_of_lt (h : peerId ∉ l.windows → l.windows.keys.card < maxTrackedPeers) :
    l.makeRoom peerId = l := if_neg fun hfull => Nat.not_lt.mpr hfull.2 (h hfull.1)

/-- And the other peers keep their windows. -/
theorem entries_check_of_ne {q : String} (hq : q ≠ peerId)
    (h : peerId ∉ l.windows → l.windows.keys.card < maxTrackedPeers) :
    (l.check now peerId).2.entries q = l.entries q := by
  unfold check
  rw [makeRoom_of_lt h]
  dsimp only
  split
  · rw [entries, Finmap.lookup_insert_of_ne _ hq, entries]
  · rw [entries, Finmap.lookup_insert_of_ne _ hq, entries]

/-! ### Sequences of checks -/

section

variable {α : Type} (time : α → ℕ) (peer : α → String)

/-- The limiter after a sequence of checks. -/
def after (l : RateLimiter maxPerWindow windowSecs) (calls : List α) :
    RateLimiter maxPerWindow windowSecs :=
  calls.foldl (fun l c => (l.check (time c) (peer c)).2) l

/-- The answer to one more check. -/
def answer (l : RateLimiter maxPerWindow windowSecs) (calls : List α) (c : α) : Bool :=
  ((l.after time peer calls).check (time c) (peer c)).1

/-- The calls that are let through. -/
def letThrough : RateLimiter maxPerWindow windowSecs → List α → List α
  | _, [] => []
  | l, c :: calls =>
    (if (l.check (time c) (peer c)).1 then [c] else []) ++
      letThrough (l.check (time c) (peer c)).2 calls

/-- The times of those of a peer. -/
def allowed (l : RateLimiter maxPerWindow windowSecs) (calls : List α) (peerId : String) : List ℕ :=
  ((letThrough time peer l calls).filter fun c => peer c = peerId).map time

end

section

variable {α : Type} {time : α → ℕ} {peer : α → String} {calls : List α} {c : α}

theorem after_append_singleton (l : RateLimiter maxPerWindow windowSecs) (calls : List α) (c : α) :
    l.after time peer (calls ++ [c]) = ((l.after time peer calls).check (time c) (peer c)).2 := by
  rw [after, List.foldl_append]
  rfl

theorem letThrough_append_singleton (l : RateLimiter maxPerWindow windowSecs) (calls : List α)
    (c : α) : letThrough time peer l (calls ++ [c]) =
      letThrough time peer l calls ++ if l.answer time peer calls c then [c] else [] := by
  induction calls generalizing l with
  | nil =>
    rw [List.nil_append, letThrough, letThrough, letThrough, List.append_nil, List.nil_append]
    rfl
  | cons c' calls ih =>
    rw [List.cons_append, letThrough, ih, letThrough, List.append_assoc]
    rfl

theorem letThrough_sublist (l : RateLimiter maxPerWindow windowSecs) (calls : List α) :
    (letThrough time peer l calls).Sublist calls := by
  induction calls generalizing l with
  | nil => exact List.Sublist.refl _
  | cons c calls ih =>
    rw [letThrough]
    split
    · exact (ih _).cons_cons c
    · exact (ih _).cons c

theorem allowed_append_singleton (l : RateLimiter maxPerWindow windowSecs) (calls : List α) (c : α)
    (peerId : String) : l.allowed time peer (calls ++ [c]) peerId =
      l.allowed time peer calls peerId ++
        if l.answer time peer calls c ∧ peer c = peerId then [time c] else [] := by
  rw [allowed, letThrough_append_singleton, List.filter_append, List.map_append]
  by_cases hpeer : peer c = peerId <;> cases hans : l.answer time peer calls c <;>
    simp [allowed, hpeer]

/-- An allowed time is that of a call. -/
theorem exists_call_of_mem_allowed {l : RateLimiter maxPerWindow windowSecs} {calls : List α}
    {peerId : String} {t : ℕ} (h : t ∈ l.allowed time peer calls peerId) :
    ∃ c ∈ calls, time c = t := by
  obtain ⟨c, hc, rfl⟩ := List.mem_map.mp h
  exact ⟨c, (letThrough_sublist l calls).mem (List.mem_filter.mp hc).1, rfl⟩

end

/-! ### The limit over a history

A new limiter that never has to push a peer out keeps of each peer's history what still counts. -/

section

variable {α : Type} {time : α → ℕ} {peer : α → String}

theorem card_peers_le {n : ℕ} {calls later : List α}
    (h : ((calls ++ later).map peer).toFinset.card ≤ n) : (calls.map peer).toFinset.card ≤ n := by
  refine le_trans (Finset.card_le_card ?_) h
  rw [List.map_append, List.toFinset_append]
  exact Finset.subset_union_left

/-- What holds after every sequence of checks of few enough peers. -/
structure Faithful (l : RateLimiter maxPerWindow windowSecs) (time : α → ℕ) (peer : α → String)
    (calls : List α) : Prop where
  /-- Only peers that called are tracked. -/
  named : ∀ q ∈ (l.after time peer calls).windows, q ∈ calls.map peer
  /-- The windows show the allowed calls. -/
  shows : ∀ q now, (∀ c ∈ calls, time c ≤ now) →
    live (windowSecs * 10 ^ 9) now ((l.after time peer calls).entries q) =
      live (windowSecs * 10 ^ 9) now (l.allowed time peer calls q)

theorem Faithful.push {l : RateLimiter maxPerWindow windowSecs} {calls : List α} {c : α}
    (h : Faithful l time peer calls)
    (hpeers : ((calls ++ [c]).map peer).toFinset.card ≤ maxTrackedPeers) :
    Faithful l time peer (calls ++ [c]) := by
  have hroom : peer c ∉ (l.after time peer calls).windows →
      (l.after time peer calls).windows.keys.card < maxTrackedPeers := fun hnew => by
    -- the tracked peers and the new one have all called
    have hsub : insert (peer c) (l.after time peer calls).windows.keys ⊆
        ((calls ++ [c]).map peer).toFinset := by
      intro q hq
      rw [List.mem_toFinset, List.map_append, List.mem_append]
      rcases Finset.mem_insert.mp hq with rfl | hq
      · exact Or.inr (List.mem_singleton_self _)
      · exact Or.inl (h.named q (Finmap.mem_keys.mp hq))
    have hcard := Finset.card_le_card hsub
    rw [Finset.card_insert_of_notMem fun hmem => hnew (Finmap.mem_keys.mp hmem)] at hcard
    omega
  refine ⟨fun q hq => ?_, fun q now hnow => ?_⟩
  · rw [after_append_singleton] at hq
    rw [List.map_append, List.mem_append]
    rcases mem_windows_of_check hq with rfl | hq
    · exact Or.inr (List.mem_singleton_self _)
    · exact Or.inl (h.named q hq)
  · rw [List.forall_mem_append] at hnow
    have hc : time c ≤ now := hnow.2 c (List.mem_singleton_self c)
    rw [after_append_singleton, allowed_append_singleton, live_append, ← h.shows q now hnow.1]
    by_cases hq : q = peer c
    · subst hq
      have hdur : (l.after time peer calls).windowDuration = windowSecs * 10 ^ 9 := rfl
      rw [entries_check_self, hdur, live_append, live_live hc, answer]
      simp
    · rw [entries_check_of_ne hq hroom, if_neg (fun hboth => hq hboth.2.symm), live_nil,
        List.append_nil]

theorem faithful_new {calls : List α}
    (hpeers : (calls.map peer).toFinset.card ≤ maxTrackedPeers) :
    Faithful (new : RateLimiter maxPerWindow windowSecs) time peer calls := by
  induction calls using List.reverseRecOn with
  | nil =>
    refine ⟨fun q hq => absurd hq Finmap.notMem_empty, fun q now _ => ?_⟩
    simp [after, allowed, letThrough]
  | append_singleton calls c ih => exact (ih (card_peers_le hpeers)).push hpeers

/-- **When a check is let through**: fewer than `maxPerWindow` calls of the peer were, in the window
that ends now. -/
theorem answer_iff {calls : List α} {c : α}
    (hpeers : (calls.map peer).toFinset.card ≤ maxTrackedPeers)
    (hnow : ∀ c' ∈ calls, time c' ≤ time c) :
    (new : RateLimiter maxPerWindow windowSecs).answer time peer calls c = true ↔
      (inWindow (windowSecs * 10 ^ 9) (time c)
        ((new : RateLimiter maxPerWindow windowSecs).allowed time peer calls (peer c))).length <
        maxPerWindow := by
  have hfaithful : Faithful (new : RateLimiter maxPerWindow windowSecs) time peer calls :=
    faithful_new hpeers
  have hshows := hfaithful.shows (peer c) (time c) hnow
  rw [inWindow_eq_live fun t ht => ?_, ← hshows, answer, check_fst, decide_eq_true_eq]
  · rfl
  · obtain ⟨c', hc', rfl⟩ := exists_call_of_mem_allowed ht
    exact hnow c' hc'

theorem limited_allowed {calls : List α}
    (hpeers : (calls.map peer).toFinset.card ≤ maxTrackedPeers)
    (hsorted : (calls.map time).Pairwise (· ≤ ·)) (q : String) :
    Limited maxPerWindow (windowSecs * 10 ^ 9)
      ((new : RateLimiter maxPerWindow windowSecs).allowed time peer calls q) := by
  induction calls using List.reverseRecOn with
  | nil => exact limited_nil
  | append_singleton calls c ih =>
    have hpeers' := card_peers_le hpeers
    rw [List.map_append, List.pairwise_append] at hsorted
    obtain ⟨hsorted, -, hlast⟩ := hsorted
    have hnow : ∀ c' ∈ calls, time c' ≤ time c := fun c' hc' =>
      hlast _ (List.mem_map_of_mem hc') _ (List.mem_singleton_self _)
    rw [allowed_append_singleton]
    split
    · next hlet =>
      obtain ⟨hans, rfl⟩ := hlet
      refine (ih hpeers' hsorted).push (fun t ht => ?_) ((answer_iff hpeers' hnow).mp hans)
      obtain ⟨c', hc', rfl⟩ := exists_call_of_mem_allowed ht
      exact hnow c' hc'
    · rw [List.append_nil]
      exact ih hpeers' hsorted

end

/-- A call of `check`. -/
structure Call where
  now : ℕ
  peerId : String
  deriving DecidableEq, Repr

/-- **The limit is a limit on every window.** Over any sequence of checks of at most
`MAX_TRACKED_PEERS` peers, no peer is let through more than `maxPerWindow` times in any window; and
a check is refused exactly when its peer has been let through that many times in the window that
ends with it. -/
theorem sliding_window_limit (maxPerWindow windowSecs : ℕ) (calls : List Call)
    (hpeers : (calls.map Call.peerId).toFinset.card ≤ maxTrackedPeers)
    (hsorted : (calls.map Call.now).Pairwise (· ≤ ·)) :
    let limiter : RateLimiter maxPerWindow windowSecs := new
    (∀ peerId t, (inWindow (windowSecs * 10 ^ 9) t
        (limiter.allowed Call.now Call.peerId calls peerId)).length ≤ maxPerWindow) ∧
      ∀ earlier c, earlier ++ [c] <+: calls →
        (limiter.answer Call.now Call.peerId earlier c = false ↔
          (inWindow (windowSecs * 10 ^ 9) c.now
            (limiter.allowed Call.now Call.peerId earlier c.peerId)).length = maxPerWindow) := by
  refine ⟨fun peerId => limited_allowed hpeers hsorted peerId, fun earlier c hpre => ?_⟩
  obtain ⟨later, rfl⟩ := hpre
  rw [List.append_assoc] at hpeers hsorted
  have hpeers' := card_peers_le hpeers
  rw [List.map_append, List.pairwise_append] at hsorted
  have hnow : ∀ c' ∈ earlier, c'.now ≤ c.now := fun c' hc' =>
    hsorted.2.2 _ (List.mem_map_of_mem hc') _ (List.mem_map_of_mem (List.mem_append_left _
      (List.mem_singleton_self c)))
  have hlimited : Limited maxPerWindow (windowSecs * 10 ^ 9)
      ((new : RateLimiter maxPerWindow windowSecs).allowed Call.now Call.peerId earlier c.peerId) :=
    limited_allowed hpeers' hsorted.1 c.peerId
  have hlimit := hlimited c.now
  rw [← Bool.not_eq_true, answer_iff hpeers' hnow]
  omega

/-- An allowed call is out of the window when the window is over: one call a minute goes through. -/
theorem sliding_window_limit_minute :
    (new : RateLimiter 1 60).answer Call.now Call.peerId [⟨0, "a"⟩] ⟨60 * 10 ^ 9, "a"⟩ ≠ false :=
  fun hrefused => absurd
    (((sliding_window_limit 1 60 [⟨0, "a"⟩, ⟨60 * 10 ^ 9, "a"⟩] (by decide) (by decide)).2
      [⟨0, "a"⟩] ⟨60 * 10 ^ 9, "a"⟩ ⟨[], rfl⟩).mp hrefused) (by decide +kernel)

end RateLimiter

/-- `NodeRateLimiter`: one limiter for each kind of event, with the bounds `NodeRateLimiter::new`
gives them. -/
structure NodeRateLimiter where
  messages : RateLimiter 100 60
  blocks : RateLimiter 10 60
  transactions : RateLimiter 50 60
  connections : RateLimiter 5 60
  getblocks : RateLimiter 10 60

/-- `NodeRateLimiter::new`. -/
def NodeRateLimiter.new : NodeRateLimiter where
  messages := .new
  blocks := .new
  transactions := .new
  connections := .new
  getblocks := .new

end Arkos
