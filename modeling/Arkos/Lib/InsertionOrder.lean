import Mathlib.Data.List.Dedup
import Mathlib.Data.Finset.Card

/-!
# Keys in order of their insertion

A cache that pushes out its oldest key keeps its keys twice, in a table and in a list that says in
what order they came. A key that was pushed out may come back, and then counts from its latest
insertion.

`InsertionOrder log keys order` says that the list is right: `log` has every insertion there ever
was, and `order` has what is left of the last ones. The two things that happen to a cache keep it: a
new key goes to the end of both lists, and a key that is dropped is dropped from the list.

## Main definitions

* `InsertionOrder`

## Main results

* `InsertionOrder.insert`, `InsertionOrder.erase`
* `InsertionOrder.nodup`, `InsertionOrder.mem_iff`
-/

variable {α : Type*} [DecidableEq α]

/-- `order` lists `keys` by their last occurrence in `log`. -/
structure InsertionOrder (log : List α) (keys : Finset α) (order : List α) : Prop where
  logged : ∀ k ∈ keys, k ∈ log
  order_eq : order = log.dedup.filter (· ∈ keys)

/-- An entry at the end of a list is its own last occurrence. -/
theorem List.dedup_append_singleton (l : List α) (a : α) :
    (l ++ [a]).dedup = l.dedup.filter (· ≠ a) ++ [a] := by
  induction l with
  | nil => rfl
  | cons b l ih =>
    rw [List.cons_append, List.dedup_cons, List.dedup_cons, ih]
    by_cases hba : b = a
    · subst hba
      by_cases hb : b ∈ l <;> simp [hb]
    · by_cases hb : b ∈ l <;> simp [hb, hba]

namespace InsertionOrder

variable {log order : List α} {keys : Finset α}

theorem empty : InsertionOrder ([] : List α) ∅ [] :=
  ⟨fun _ hk => absurd hk (Finset.notMem_empty _), rfl⟩

theorem nodup (h : InsertionOrder log keys order) : order.Nodup := by
  rw [h.order_eq]
  exact (List.nodup_dedup log).filter _

theorem mem_iff (h : InsertionOrder log keys order) {k : α} : k ∈ order ↔ k ∈ keys := by
  rw [h.order_eq, List.mem_filter, List.mem_dedup, decide_eq_true_iff]
  exact and_iff_right_of_imp (h.logged k)

/-- A new key goes to the end. -/
theorem insert (h : InsertionOrder log keys order) {k : α} (hk : k ∉ keys) :
    InsertionOrder (log ++ [k]) (insert k keys) (order ++ [k]) := by
  refine ⟨fun q hq => ?_, ?_⟩
  · rw [List.mem_append, List.mem_singleton]
    exact (Finset.mem_insert.mp hq).symm.imp_left (h.logged q)
  · rw [List.dedup_append_singleton, List.filter_append, List.filter_filter, h.order_eq]
    congr 1
    · refine List.filter_congr fun q _ => ?_
      by_cases hq : q = k
      · simp [hq, hk]
      · simp [hq]
    · simp

/-- A key that is dropped leaves the others in their order. -/
theorem erase (h : InsertionOrder log keys order) (k : α) :
    InsertionOrder log (keys.erase k) (order.filter (· ≠ k)) := by
  refine ⟨fun q hq => h.logged q (Finset.mem_of_mem_erase hq), ?_⟩
  rw [h.order_eq, List.filter_filter]
  refine List.filter_congr fun q _ => ?_
  simp

end InsertionOrder
