import Mathlib.Data.Set.Insert
import Mathlib.Data.List.Basic

/-!
# Items on their way, in causal order

A source passes items to a receiver over a first-in first-out route. An item can be used only by a
receiver that already has what the item needs. The route is a list with the next item first, and
`Feed` says what keeps such a transfer going: everything the source has is with the receiver or on
the route, and every item on the route comes after what it needs.

The rules say which changes keep a feed: the source publishes an item at the end of the route, the
receiver takes the first one or learns an item from elsewhere, items the receiver has are left out,
and items are put in between.

## Main definitions

* `Causal.Ordered`, `Causal.Feed`

## Main results

* `Causal.Feed.head` — the next item can be used
* `Causal.Feed.publish`, `Causal.Feed.deliver`, `Causal.Feed.skip`, `Causal.Feed.insertion`
* `Causal.Feed.subset` — an empty route means that the receiver has everything
-/

namespace Arkos

namespace Causal

variable {α : Type*} {needs : α → Set α} {S S' : Set α} {l l' m : List α} {x : α}

/-- Every item of the route can be used when its turn comes, by a receiver that has `S` and keeps
what comes before: it has the item, or it has all the item needs. -/
def Ordered (needs : α → Set α) : Set α → List α → Prop
  | _, [] => True
  | S, x :: l => (x ∈ S ∨ needs x ⊆ S) ∧ Ordered needs (insert x S) l

/-- A receiver that has more can use as much. -/
theorem Ordered.mono (hsub : S ⊆ S') (h : Ordered needs S l) : Ordered needs S' l := by
  induction l generalizing S S' with
  | nil => trivial
  | cons x l ih =>
    obtain ⟨hx, hl⟩ := h
    exact ⟨hx.imp (fun hx => hsub hx) fun hx => hx.trans hsub,
      ih (Set.insert_subset_insert hsub) hl⟩

/-- A route in two parts: the second is for a receiver that has the first. -/
theorem ordered_append :
    Ordered needs S (l ++ l') ↔ Ordered needs S l ∧ Ordered needs (S ∪ {x | x ∈ l}) l' := by
  induction l generalizing S with
  | nil => simp [Ordered]
  | cons x l ih =>
    have hset : insert x S ∪ {y | y ∈ l} = S ∪ {y | y ∈ x :: l} := by
      ext y
      simp only [Set.mem_union, Set.mem_insert_iff, Set.mem_ofPred_eq, List.mem_cons]
      tauto
    rw [List.cons_append, Ordered, Ordered, ih, hset, and_assoc]

theorem ordered_singleton : Ordered needs S [x] ↔ x ∈ S ∨ needs x ⊆ S := by
  simp [Ordered]

/-- Items the receiver has may be left out. -/
theorem Ordered.filter {p : α → Bool} (hp : ∀ x ∈ l, p x = false → x ∈ S)
    (h : Ordered needs S l) : Ordered needs S (l.filter p) := by
  induction l generalizing S with
  | nil => trivial
  | cons x l ih =>
    obtain ⟨hx, hl⟩ := h
    have hrest := ih (fun y hy hpy =>
      Set.mem_insert_of_mem x (hp y (List.mem_cons_of_mem _ hy) hpy)) hl
    cases hpx : p x with
    | true =>
      rw [List.filter_cons_of_pos hpx]
      exact ⟨hx, hrest⟩
    | false =>
      rw [List.filter_cons_of_neg (by simp [hpx])]
      rwa [Set.insert_eq_of_mem (hp x List.mem_cons_self hpx)] at hrest

/-! ### Feeds -/

/-- A source that has `source` feeds a receiver that has `receiver` over the route `l`. -/
structure Feed (needs : α → Set α) (source receiver : Set α) (l : List α) : Prop where
  sound : ∀ x ∈ l, x ∈ source
  ordered : Ordered needs receiver l
  complete : ∀ x ∈ source, x ∈ receiver ∨ x ∈ l

namespace Feed

variable {source receiver : Set α}

/-- Two ends that have the same need no route. -/
theorem refl (needs : α → Set α) (S : Set α) : Feed needs S S [] where
  sound := by simp
  ordered := trivial
  complete _ := Or.inl

/-- **The next item can be used.** -/
theorem head (h : Feed needs source receiver (x :: l)) : x ∈ receiver ∨ needs x ⊆ receiver :=
  h.ordered.1

/-- **A settled feed.** With nothing on the route the receiver has all the source has. -/
theorem subset (h : Feed needs source receiver []) : source ⊆ receiver :=
  fun x hx => (h.complete x hx).resolve_right List.not_mem_nil

/-- The receiver learns more from elsewhere. -/
theorem receive {receiver' : Set α} (hsub : receiver ⊆ receiver')
    (h : Feed needs source receiver l) : Feed needs source receiver' l where
  sound := h.sound
  ordered := h.ordered.mono hsub
  complete x hx := (h.complete x hx).imp_left fun hx => hsub hx

/-- The source learns what the receiver has. -/
theorem learn {source' : Set α} (hsub : source ⊆ source')
    (hnew : ∀ x ∈ source', x ∈ source ∨ x ∈ receiver) (h : Feed needs source receiver l) :
    Feed needs source' receiver l where
  sound x hx := hsub (h.sound x hx)
  ordered := h.ordered
  complete x hx := (hnew x hx).elim (h.complete x) Or.inl

/-- **The source publishes an item**, one it has or one it can use. -/
theorem publish {source' : Set α} (hsub : source ⊆ source')
    (hnew : ∀ y ∈ source', y ∈ source ∨ y = x) (hx : x ∈ source')
    (huse : x ∈ source ∨ needs x ⊆ source) (h : Feed needs source receiver l) :
    Feed needs source' receiver (l ++ [x]) where
  sound y hy := (List.mem_append.mp hy).elim (fun hy => hsub (h.sound y hy)) fun hy =>
    List.mem_singleton.mp hy ▸ hx
  ordered := by
    have hall : source ⊆ receiver ∪ {y | y ∈ l} := h.complete
    exact ordered_append.mpr ⟨h.ordered, ordered_singleton.mpr
      (huse.imp (fun hx => hall hx) fun hx => hx.trans hall)⟩
  complete y hy := by
    rcases hnew y hy with hold | rfl
    · exact (h.complete y hold).imp_right (List.mem_append_left _)
    · exact Or.inr (List.mem_append_right _ List.mem_cons_self)

/-- **The receiver takes the next item.** -/
theorem deliver {receiver' : Set α} (hsub : receiver ⊆ receiver') (hx : x ∈ receiver')
    (h : Feed needs source receiver (x :: l)) : Feed needs source receiver' l where
  sound y hy := h.sound y (List.mem_cons_of_mem _ hy)
  ordered := h.ordered.2.mono (Set.insert_subset hx hsub)
  complete y hy := by
    rcases h.complete y hy with hy | hy
    · exact Or.inl (hsub hy)
    · rcases List.mem_cons.mp hy with rfl | hy
      · exact Or.inl hx
      · exact Or.inr hy

/-- **Items the receiver has are left out**, anywhere on the route. -/
theorem skip {p : α → Bool} (hp : ∀ x ∈ m, p x = false → x ∈ receiver)
    (h : Feed needs source receiver (l ++ (m ++ l'))) :
    Feed needs source receiver (l ++ (m.filter p ++ l')) where
  sound x hx := by
    refine h.sound x ?_
    simp only [List.mem_append, List.mem_filter] at hx ⊢
    tauto
  ordered := by
    obtain ⟨hl, hrest⟩ := ordered_append.mp h.ordered
    obtain ⟨hm, hl'⟩ := ordered_append.mp hrest
    have hmem : ∀ x ∈ m, p x = false → x ∈ receiver ∪ {y | y ∈ l} := fun x hx hpx =>
      Or.inl (hp x hx hpx)
    refine ordered_append.mpr ⟨hl, ordered_append.mpr ⟨hm.filter hmem, hl'.mono ?_⟩⟩
    rintro x (hx | hx)
    · exact Or.inl hx
    · cases hpx : p x with
      | true => exact Or.inr (List.mem_filter.mpr ⟨hx, hpx⟩)
      | false => exact Or.inl (hmem x hx hpx)
  complete x hx := by
    rcases h.complete x hx with hx | hx
    · exact Or.inl hx
    · cases hpx : p x with
      | true =>
        simp only [List.mem_append, List.mem_filter] at hx ⊢
        tauto
      | false =>
        simp only [List.mem_append, List.mem_filter] at hx ⊢
        have := hp x
        tauto

/-- **Items are put in between**, in an order the receiver can use once it has what is ahead. -/
theorem insertion (hsub : ∀ x ∈ m, x ∈ source)
    (hm : Ordered needs (receiver ∪ {x | x ∈ l}) m) (h : Feed needs source receiver (l ++ l')) :
    Feed needs source receiver (l ++ (m ++ l')) where
  sound x hx := by
    rcases List.mem_append.mp hx with hx | hx
    · exact h.sound x (List.mem_append_left _ hx)
    · exact (List.mem_append.mp hx).elim (hsub x) fun hx => h.sound x (List.mem_append_right _ hx)
  ordered := by
    obtain ⟨hl, hl'⟩ := ordered_append.mp h.ordered
    exact ordered_append.mpr ⟨hl, ordered_append.mpr ⟨hm, hl'.mono Set.subset_union_left⟩⟩
  complete x hx := by
    have := h.complete x hx
    simp only [List.mem_append] at this ⊢
    tauto

end Feed

end Causal

end Arkos
