import Mathlib.Data.List.Basic
import Mathlib.Data.List.Induction

/-!
# Beginnings of lists

Two lists agree on a first stretch and then go different ways, or one of them ends. This module
names the three pieces and says how to measure the first one: by zipping the lists and counting
while a key agrees.

A list whose entries are numbered one after the other is filtered by number by cutting it.

It also says of a list that grows at its end what is still the case since something was set, and
adds up a quantity that depends on an element and on the ones before it, as a running total does
that is kept while a list grows at its end.

## Main definitions

* `Since` — set, and not cleared since
* `sumAlong` — the total of such a quantity

## Main results

* `exists_common_prefix` — the three pieces
* `length_takeWhile_zip` — the length of the first, by comparing keys
* `filter_eq_take_drop` — a stretch, by number
* `since_append_singleton`
* `sumAlong_append_singleton`, `sumAlong_eq_zero_iff`
-/

namespace Arkos

variable {α β : Type*}

/-- Two lists are a common beginning and two rests that start differently. -/
theorem exists_common_prefix (l l' : List α) :
    ∃ c a a', l = c ++ a ∧ l' = c ++ a' ∧ ∀ x ∈ a.head?, ∀ y ∈ a'.head?, x ≠ y := by
  classical
  induction l generalizing l' with
  | nil => exact ⟨[], [], l', rfl, rfl, by simp⟩
  | cons x l ih =>
    cases l' with
    | nil => exact ⟨[], x :: l, [], rfl, rfl, by simp⟩
    | cons y l' =>
      by_cases hxy : x = y
      · obtain ⟨c, a, a', rfl, rfl, hne⟩ := ih l'
        exact ⟨x :: c, a, a', rfl, by rw [hxy]; rfl, hne⟩
      · exact ⟨[], x :: l, y :: l', rfl, rfl, by simpa using hxy⟩

/-- Comparing keys pair by pair stops where the rests begin, if their first keys differ. -/
theorem length_takeWhile_zip [DecidableEq β] (f : α → β) (c : List α) {a a' : List α}
    (hne : ∀ x ∈ a.head?, ∀ y ∈ a'.head?, f x ≠ f y) :
    (((c ++ a).zip (c ++ a')).takeWhile fun p => decide (f p.1 = f p.2)).length = c.length := by
  induction c with
  | nil =>
    cases a with
    | nil => rfl
    | cons x a =>
      cases a' with
      | nil => rfl
      | cons y a' =>
        have hxy : f x ≠ f y := hne x rfl y rfl
        rw [List.nil_append, List.nil_append, List.zip_cons_cons,
          List.takeWhile_cons_of_neg (by simpa using hxy), List.length_nil, List.length_nil]
  | cons z c ih =>
    rw [List.cons_append, List.cons_append, List.zip_cons_cons,
      List.takeWhile_cons_of_pos (by simp), List.length_cons, ih, List.length_cons]

/-- The entries numbered `lo` to `hi`, of a list numbered from `n` on. -/
theorem filter_eq_take_drop {f : α → ℕ} {l : List α} {n : ℕ}
    (h : ∀ i x, l[i]? = some x → f x = n + i) (lo hi : ℕ) :
    l.filter (fun x => decide (lo ≤ f x ∧ f x ≤ hi)) =
      (l.drop (lo - n)).take (hi + 1 - max lo n) := by
  induction l generalizing n with
  | nil => simp
  | cons x l ih =>
    have hx : f x = n := h 0 x rfl
    have hrest := ih (n := n + 1) fun i y hy => by
      have := h (i + 1) y hy
      omega
    rcases Nat.lt_or_ge n lo with hlo | hlo
    · -- the stretch begins later
      rw [List.filter_cons_of_neg (by simp; omega), hrest, show lo - n = lo - (n + 1) + 1 by omega,
        List.drop_succ_cons, Nat.max_eq_left (Nat.le_of_lt hlo), Nat.max_eq_left hlo]
    · rw [Nat.sub_eq_zero_of_le hlo, Nat.max_eq_right hlo, List.drop_zero]
      rw [show lo - (n + 1) = 0 by omega, Nat.max_eq_right (Nat.le_succ_of_le hlo),
        List.drop_zero] at hrest
      rcases Nat.lt_or_ge hi n with hhi | hhi
      · -- it is over
        rw [List.filter_cons_of_neg (by simp; omega), hrest, show hi + 1 - n = 0 by omega,
          show hi + 1 - (n + 1) = 0 by omega, List.take_zero, List.take_zero]
      · rw [List.filter_cons_of_pos (by simp; omega), hrest,
          show hi + 1 - n = hi + 1 - (n + 1) + 1 by omega, List.take_succ_cons]

/-! ### Since -/

/-- An element that sets comes after elements among which it does so, and `clear` does not come
after it. -/
def Since (sets : List α → α → Prop) (clear : α) (l : List α) : Prop :=
  ∃ before x after, l = before ++ x :: after ∧ sets before x ∧ clear ∉ after

theorem not_since_nil (sets : List α → α → Prop) (clear : α) : ¬ Since sets clear [] := by
  rintro ⟨before, x, after, heq, -, -⟩
  simp at heq

theorem since_append_singleton {sets : List α → α → Prop} {clear : α} {l : List α} {y : α} :
    Since sets clear (l ++ [y]) ↔ sets l y ∨ (Since sets clear l ∧ y ≠ clear) := by
  constructor
  · rintro ⟨before, x, after, heq, hsets, hclear⟩
    cases after using List.reverseRecOn with
    | nil =>
      obtain ⟨rfl, hyx⟩ := List.append_inj' heq rfl
      obtain rfl := List.singleton_injective hyx
      exact Or.inl hsets
    | append_singleton after z =>
      rw [← List.cons_append, ← List.append_assoc] at heq
      obtain ⟨rfl, hyz⟩ := List.append_inj' heq rfl
      obtain rfl := List.singleton_injective hyz
      rw [List.mem_append, List.mem_singleton, not_or] at hclear
      exact Or.inr ⟨⟨before, x, after, rfl, hsets, hclear.1⟩, Ne.symm hclear.2⟩
  · rintro (hsets | ⟨⟨before, x, after, rfl, hsets, hclear⟩, hne⟩)
    · exact ⟨l, y, [], rfl, hsets, List.not_mem_nil⟩
    · refine ⟨before, x, after ++ [y], by simp, hsets, ?_⟩
      rw [List.mem_append, List.mem_singleton, not_or]
      exact ⟨hclear, Ne.symm hne⟩

/-! ### Running totals -/

/-- The sum of `f` over a list, each element with the ones before it. `pre` stands before all. -/
def sumAlong (f : List α → α → ℕ) : List α → List α → ℕ
  | _, [] => 0
  | pre, x :: l => f pre x + sumAlong f (pre ++ [x]) l

theorem sumAlong_append_singleton (f : List α → α → ℕ) (pre l : List α) (x : α) :
    sumAlong f pre (l ++ [x]) = sumAlong f pre l + f (pre ++ l) x := by
  induction l generalizing pre with
  | nil => simp [sumAlong]
  | cons y l ih =>
    rw [List.cons_append, sumAlong, sumAlong, ih, List.append_assoc, List.singleton_append,
      Nat.add_assoc]

/-- A total is zero if all of its parts are. -/
theorem sumAlong_eq_zero_iff {f : List α → α → ℕ} {l : List α} :
    sumAlong f [] l = 0 ↔ ∀ pre x, pre ++ [x] <+: l → f pre x = 0 := by
  induction l using List.reverseRecOn with
  | nil =>
    refine ⟨fun _ pre x hpre => ?_, fun _ => rfl⟩
    simp at hpre
  | append_singleton l y ih =>
    rw [sumAlong_append_singleton, List.nil_append, Nat.add_eq_zero_iff, ih]
    constructor
    · rintro ⟨hl, hy⟩ pre x hpre
      rcases List.prefix_concat_iff.mp hpre with heq | hpre
      · obtain ⟨rfl, hxy⟩ := List.append_inj' heq rfl
        obtain rfl := List.singleton_injective hxy
        exact hy
      · exact hl pre x hpre
    · intro hall
      exact ⟨fun pre x hpre => hall pre x (hpre.trans (List.prefix_append _ _)),
        hall l y List.prefix_rfl⟩

/-- A quantity that splits along the list splits its total. -/
theorem sumAlong_add_of_isPrefix {f₁ f₂ f : List α → α → ℕ} {l : List α}
    (h : ∀ pre x, pre ++ [x] <+: l → f₁ pre x + f₂ pre x = f pre x) :
    sumAlong f₁ [] l + sumAlong f₂ [] l = sumAlong f [] l := by
  induction l using List.reverseRecOn with
  | nil => rfl
  | append_singleton l y ih =>
    have hl := ih fun pre x hpre => h pre x (hpre.trans (List.prefix_append _ _))
    have hy := h l y List.prefix_rfl
    rw [sumAlong_append_singleton, sumAlong_append_singleton, sumAlong_append_singleton,
      List.nil_append]
    omega

end Arkos
