import Mathlib.Data.List.Basic
import Mathlib.Data.List.Pairwise
import Mathlib.Order.Nat

/-!
# Sliding windows

A limiter that admits at most `max` events in any stretch of `d` time units keeps the times of the
events it admitted, drops those that are `d` old, and counts the rest. What it answers depends on
the list it keeps, which it cuts at every call; what one wants to know is whether the events are
far enough apart, which does not mention the list at all.

`Tracks` connects the two: the list kept and the list of all admitted times show the same live
entries at every later time. Under it one more event is admitted exactly when the times stay
`Spaced`.

The same bound is also a bound on every interval that is open at its early end, `Limited`: an
admission counts the interval that ends in it, and an interval that ends later or between two
events holds no more than one of those.

## Main results

* `SlidingWindow.Tracks.push` — admitting an event keeps the connection
* `SlidingWindow.spaced_append_singleton` — when the event may be admitted
* `SlidingWindow.limited_append_singleton` — the same for `Limited`
-/

namespace SlidingWindow

/-- The entries that are less than `d` old. -/
def live (d now : ℕ) (ts : List ℕ) : List ℕ := ts.filter fun t => now - t < d

/-- No `max + 1` of the events lie within `d`. -/
def Spaced (max d : ℕ) (ts : List ℕ) : Prop :=
  ∀ i t t', ts[i]? = some t → ts[i + max]? = some t' → t + d ≤ t'

/-- The kept list shows what the whole list shows, from the last event on. -/
def Tracks (d : ℕ) (ts kept : List ℕ) : Prop :=
  ∀ now, (∀ t ∈ ts, t ≤ now) → live d now kept = live d now ts

variable {max d now : ℕ} {ts kept : List ℕ}

@[simp] theorem live_nil : live d now [] = [] := rfl

theorem live_append (ts ts' : List ℕ) :
    live d now (ts ++ ts') = live d now ts ++ live d now ts' := by
  simp [live]

/-- An entry that is live at a later time was live before. -/
theorem live_live {now' : ℕ} (h : now ≤ now') : live d now' (live d now ts) = live d now' ts := by
  unfold live
  rw [List.filter_filter]
  refine List.filter_congr fun t _ => ?_
  have himp : now' - t < d → now - t < d := fun hlt => lt_of_le_of_lt (Nat.sub_le_sub_right h t) hlt
  by_cases hlive : now' - t < d
  · simp [hlive, himp hlive]
  · simp [hlive]

theorem live_eq_nil (h : ∀ t ∈ ts, t + d ≤ now) : live d now ts = [] := by
  refine List.filter_eq_nil_iff.mpr fun t ht => ?_
  have hold := h t ht
  simp only [decide_eq_true_eq]
  omega

theorem live_eq_self (hnow : ∀ t ∈ ts, t ≤ now) (h : ∀ t ∈ ts, now < t + d) :
    live d now ts = ts := by
  refine List.filter_eq_self.mpr fun t ht => ?_
  have hle := hnow t ht
  have hlt := h t ht
  simp only [decide_eq_true_eq]
  omega

theorem tracks_nil : Tracks d [] [] := fun _ _ => rfl

/-- Cutting the list and putting the new event behind it keeps the connection. -/
theorem Tracks.push (h : Tracks d ts kept) :
    Tracks d (ts ++ [now]) (live d now kept ++ [now]) := by
  intro now' hnow'
  rw [List.forall_mem_append] at hnow'
  have hle : now ≤ now' := hnow'.2 now (by simp)
  rw [live_append, live_append, live_live hle, h now' hnow'.1]

/-- In a sorted list the live entries are fewer than `max` exactly when the one `max` places from
the end, if there is one, is `d` old. -/
theorem length_live_lt_iff (hmax : 0 < max) (hsorted : ts.Pairwise (· ≤ ·))
    (hnow : ∀ t ∈ ts, t ≤ now) :
    (live d now ts).length < max ↔
      ∀ i t, i + max = ts.length → ts[i]? = some t → t + d ≤ now := by
  by_cases hlen : ts.length < max
  · refine iff_of_true (lt_of_le_of_lt (List.length_filter_le _ _) hlen) fun i t hi _ => ?_
    omega
  · obtain ⟨k, hk⟩ : ∃ k, k + max = ts.length := ⟨ts.length - max, by omega⟩
    have hlt : k < ts.length := by omega
    -- split the list at the entry in question
    obtain ⟨l, x, l', rfl, hl⟩ : ∃ l x l', ts = l ++ x :: l' ∧ l.length = k :=
      ⟨ts.take k, ts[k], ts.drop (k + 1), by simp, by simp; omega⟩
    have hget : (l ++ x :: l')[k]? = some x := by simp [← hl]
    have honly : (∀ i t, i + max = (l ++ x :: l').length → (l ++ x :: l')[i]? = some t →
        t + d ≤ now) ↔ x + d ≤ now := by
      constructor
      · intro h
        exact h k x hk hget
      · intro h i t hi ht
        obtain rfl : i = k := by omega
        rw [hget] at ht
        exact Option.some.inj ht ▸ h
    rw [honly]
    rw [List.pairwise_append, List.pairwise_cons] at hsorted
    obtain ⟨-, ⟨hafter, -⟩, hbefore⟩ := hsorted
    rw [List.length_append, List.length_cons] at hk
    by_cases hold : x + d ≤ now
    · -- everything up to the entry is old
      refine iff_of_true ?_ hold
      have hnone : live d now (l ++ [x]) = [] := by
        refine live_eq_nil fun t ht => ?_
        rcases List.mem_append.mp ht with ht | ht
        · have hle := hbefore t ht x (by simp)
          omega
        · rwa [List.mem_singleton.mp ht]
      rw [List.append_cons, live_append, hnone, List.nil_append]
      refine lt_of_le_of_lt (List.length_filter_le _ _) ?_
      omega
    · -- everything from the entry on is live
      refine iff_of_false (fun hlive => ?_) hold
      have hall : live d now (x :: l') = x :: l' := by
        refine live_eq_self (fun t ht => hnow t (List.mem_append_right _ ht)) fun t ht => ?_
        rcases List.mem_cons.mp ht with rfl | ht
        · omega
        · have hle := hafter t ht
          omega
      rw [live_append, hall, List.length_append, List.length_cons] at hlive
      omega

/-- Events that are spaced were spaced before the last of them. -/
theorem Spaced.of_append {us : List ℕ} (h : Spaced max d (ts ++ us)) : Spaced max d ts := by
  have hget : ∀ {i t : ℕ}, ts[i]? = some t → (ts ++ us)[i]? = some t := fun hi => by
    rw [List.getElem?_append_left (List.getElem?_eq_some_iff.mp hi).1, hi]
  intro i t t' ht ht'
  exact h i t t' (hget ht) (hget ht')

/-- **One more event keeps the times spaced exactly when fewer than `max` are live.** -/
theorem spaced_append_singleton (hmax : 0 < max) (hsorted : ts.Pairwise (· ≤ ·))
    (hnow : ∀ t ∈ ts, t ≤ now) :
    Spaced max d (ts ++ [now]) ↔ Spaced max d ts ∧ (live d now ts).length < max := by
  rw [length_live_lt_iff hmax hsorted hnow]
  constructor
  · intro h
    refine ⟨h.of_append, fun i t hi ht => h i t now ?_ (by rw [hi]; simp)⟩
    rw [List.getElem?_append_left (List.getElem?_eq_some_iff.mp ht).1, ht]
  · rintro ⟨hspaced, hlast⟩ i t t' ht ht'
    have hi := (List.getElem?_eq_some_iff.mp ht').1
    rw [List.length_append, List.length_singleton] at hi
    rw [List.getElem?_append_left (by omega)] at ht
    by_cases hlt : i + max < ts.length
    · rw [List.getElem?_append_left hlt] at ht'
      exact hspaced i t t' ht ht'
    · have heq : i + max = ts.length := by omega
      rw [heq] at ht'
      obtain rfl : now = t' := by simpa using ht'
      exact hlast i t heq ht

theorem spaced_nil : Spaced max d [] := by
  intro i t t' ht
  simp at ht

/-- Events too few to fill a window are always spaced. -/
theorem spaced_of_length_le (h : ts.length ≤ max) : Spaced max d ts := by
  intro i t t' _ ht'
  have hi := (List.getElem?_eq_some_iff.mp ht').1
  omega

/-! ### Intervals -/

/-- The events in the interval of length `d` that ends with `t` and is open at its early end. -/
def inWindow (d t : ℕ) (ts : List ℕ) : List ℕ := ts.filter fun s => t < s + d ∧ s ≤ t

/-- No such interval holds more than `max` events. -/
def Limited (max d : ℕ) (ts : List ℕ) : Prop := ∀ t, (inWindow d t ts).length ≤ max

theorem inWindow_append (d t : ℕ) (ts us : List ℕ) :
    inWindow d t (ts ++ us) = inWindow d t ts ++ inWindow d t us := by
  simp [inWindow]

/-- At a time that no event is after, the interval holds what is live. -/
theorem inWindow_eq_live (hnow : ∀ t ∈ ts, t ≤ now) : inWindow d now ts = live d now ts := by
  refine List.filter_congr fun t ht => ?_
  have hle := hnow t ht
  refine decide_eq_decide.mpr ?_
  omega

theorem Limited.of_append {us : List ℕ} (h : Limited max d (ts ++ us)) : Limited max d ts := by
  intro t
  have hall := h t
  rw [inWindow_append, List.length_append] at hall
  omega

theorem limited_nil : Limited max d [] := fun _ => Nat.zero_le _

/-- With fewer than `max` events in the interval that ends with it, one more
event keeps the bound. -/
theorem Limited.push (h : Limited max d ts) (hnow : ∀ t ∈ ts, t ≤ now)
    (hroom : (inWindow d now ts).length < max) : Limited max d (ts ++ [now]) := by
  intro t
  rw [inWindow_append, List.length_append]
  by_cases hin : t < now + d ∧ now ≤ t
  · -- what is in the interval up to `t` was in the one up to `now`
    have hsub : (inWindow d t ts).length ≤ (inWindow d now ts).length := by
      rw [inWindow, inWindow, ← List.countP_eq_length_filter, ← List.countP_eq_length_filter]
      refine List.countP_mono_left fun s hs hlive => ?_
      have hle := hnow s hs
      rw [decide_eq_true_eq] at hlive ⊢
      omega
    have hone : (inWindow d t [now]).length ≤ 1 := List.length_filter_le _ _
    omega
  · have hnone : inWindow d t [now] = [] := by simp [inWindow, hin]
    rw [hnone, List.length_nil]
    exact h t

/-- **One more event keeps every interval within the bound exactly when fewer than `max` are in the
one that ends with it.** -/
theorem limited_append_singleton (hnow : ∀ t ∈ ts, t ≤ now) (hd : 0 < d) :
    Limited max d (ts ++ [now]) ↔ Limited max d ts ∧ (inWindow d now ts).length < max := by
  constructor
  · intro h
    refine ⟨h.of_append, ?_⟩
    have hall := h now
    have hself : inWindow d now [now] = [now] := by simp [inWindow, hd]
    rw [inWindow_append, hself, List.length_append, List.length_singleton] at hall
    omega
  · rintro ⟨h, hroom⟩
    exact h.push hnow hroom

end SlidingWindow
