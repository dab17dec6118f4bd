import Mathlib.Data.Finset.Card
import Mathlib.Data.List.Sort
import Mathlib.Data.List.Dedup

/-!
# Order statistics of a list, by counting

The entry at position `i` of a sorted list is decided by counting: it satisfies a property that is
closed downwards exactly when more than `i` entries of the list do. Sorting itself then disappears
from every argument about medians and quantiles, since a count does not see the order of a list.

The second half is about a list some entries of which were replaced. `untouched l S` keeps the
entries outside the replaced positions `S`, and a property none of them has can hold of at most as
many entries as there are positions in `S`.

## Main definitions

* `untouched` — the entries of a list outside a set of positions

## Main results

* `getD_insertionSort_iff` — the counting rule
* `countP_le_card_of_untouched`, `length_le_countP_add_card`
-/

namespace Arkos

variable {α : Type*}

section

variable [LinearOrder α] {p : α → Bool}

/-- In a sorted list, a property that is closed downwards holds of a first stretch. -/
theorem getElem_iff_lt_countP (hp : ∀ x y, y ≤ x → p x = true → p y = true) {l : List α}
    (hl : l.Pairwise (· ≤ ·)) {i : ℕ} (hi : i < l.length) :
    p l[i] = true ↔ i < l.countP p := by
  induction l generalizing i with
  | nil => cases hi
  | cons a l ih =>
    obtain ⟨hle, hl⟩ := List.pairwise_cons.mp hl
    rw [List.countP_cons]
    by_cases ha : p a = true
    · cases i with
      | zero => simp [ha]
      | succ i =>
        rw [List.getElem_cons_succ, ih hl, if_pos ha]
        omega
    · -- nothing above the first entry has the property either
      have hnone : ∀ x ∈ a :: l, ¬ p x = true := by
        intro x hx hpx
        rcases List.mem_cons.mp hx with rfl | hx
        · exact ha hpx
        · exact ha (hp x a (hle x hx) hpx)
      have hcount : l.countP p = 0 :=
        List.countP_eq_zero.mpr fun x hx => hnone x (List.mem_cons_of_mem a hx)
      have hget := hnone _ (List.getElem_mem hi)
      simp [hget, hcount, ha]

/-- **The counting rule.** The entry at position `i` after sorting has a property that is closed
downwards exactly when more than `i` entries have it. -/
theorem getD_insertionSort_iff (hp : ∀ x y, y ≤ x → p x = true → p y = true) (l : List α) {i : ℕ}
    (hi : i < l.length) (d : α) :
    p ((l.insertionSort (· ≤ ·)).getD i d) = true ↔ i < l.countP p := by
  have hperm := List.perm_insertionSort (· ≤ ·) l
  have hi' : i < (l.insertionSort (· ≤ ·)).length := by rwa [hperm.length_eq]
  rw [List.getD_eq_getElem?_getD, List.getElem?_eq_getElem hi', Option.getD_some,
    getElem_iff_lt_countP hp (List.pairwise_insertionSort (· ≤ ·) l) hi', hperm.countP_eq]

theorem getD_insertionSort_lt_iff (l : List α) {i : ℕ} (hi : i < l.length) (d v : α) :
    (l.insertionSort (· ≤ ·)).getD i d < v ↔ i < l.countP (· < v) := by
  rw [← getD_insertionSort_iff (fun x y hyx hx => ?_) l hi d, decide_eq_true_iff]
  simpa using hyx.trans_lt (of_decide_eq_true hx)

theorem getD_insertionSort_le_iff (l : List α) {i : ℕ} (hi : i < l.length) (d v : α) :
    (l.insertionSort (· ≤ ·)).getD i d ≤ v ↔ i < l.countP (· ≤ v) := by
  rw [← getD_insertionSort_iff (fun x y hyx hx => ?_) l hi d, decide_eq_true_iff]
  simpa using hyx.trans (of_decide_eq_true hx)

end

/-! ### Replacing entries -/

/-- The entries of a list outside the positions `S`. -/
def untouched (l : List α) (S : Finset ℕ) : List α :=
  (l.zipIdx.filter fun e => e.2 ∉ S).map Prod.fst

theorem mem_untouched {l : List α} {S : Finset ℕ} {x : α} :
    x ∈ untouched l S ↔ ∃ i, i ∉ S ∧ l[i]? = some x := by
  simp only [untouched, List.mem_map, List.mem_filter, decide_eq_true_eq, Prod.exists,
    List.mem_zipIdx_iff_getElem?, exists_and_right, exists_eq_right]
  exact exists_congr fun i => and_comm

/-- Two lists that agree outside `S` have the same entries there. -/
theorem untouched_congr {l l' : List α} {S : Finset ℕ} (h : ∀ i ∉ S, l'[i]? = l[i]?) {x : α} :
    x ∈ untouched l' S ↔ x ∈ untouched l S := by
  rw [mem_untouched, mem_untouched]
  exact exists_congr fun i => and_congr_right fun hi => by rw [h i hi]

/-- What holds of no untouched entry holds of as many entries as positions are touched, at most. -/
theorem countP_le_card_of_untouched {l : List α} {S : Finset ℕ} {p : α → Bool}
    (h : ∀ x ∈ untouched l S, ¬ p x = true) : l.countP p ≤ S.card := by
  have hsnd : l.zipIdx.map Prod.snd = List.range l.length := by
    rw [List.zipIdx_map_snd, ← List.range_eq_range']
  have hnodup : ((l.zipIdx.map Prod.snd).filter (· ∈ S)).Nodup := by
    rw [hsnd]
    exact List.nodup_range.filter _
  calc l.countP p = (l.zipIdx.map Prod.fst).countP p := by rw [List.zipIdx_map_fst]
    _ = l.zipIdx.countP (p ∘ Prod.fst) := List.countP_map
    _ ≤ l.zipIdx.countP ((fun i => decide (i ∈ S)) ∘ Prod.snd) := by
        refine List.countP_mono_left fun e he hpe => ?_
        by_contra hS
        refine h e.1 (mem_untouched.mpr ⟨e.2, by simpa using hS, ?_⟩) hpe
        exact List.mem_zipIdx_iff_getElem?.mp he
    _ = ((l.zipIdx.map Prod.snd).filter (· ∈ S)).length := by
        rw [← List.countP_map, List.countP_eq_length_filter]
    _ = ((l.zipIdx.map Prod.snd).filter (· ∈ S)).toFinset.card :=
        (List.toFinset_card_of_nodup hnodup).symm
    _ ≤ S.card := Finset.card_le_card fun i hi => by simpa using (List.mem_filter.mp
        (List.mem_toFinset.mp hi)).2

/-- What holds of every untouched entry fails at as many entries as positions are touched, at
most. -/
theorem length_le_countP_add_card {l : List α} {S : Finset ℕ} {p : α → Bool}
    (h : ∀ x ∈ untouched l S, p x = true) : l.length ≤ l.countP p + S.card := by
  have hnot : l.countP (fun x => !p x) ≤ S.card :=
    countP_le_card_of_untouched fun x hx => by simp [h x hx]
  have hsplit := List.length_eq_countP_add_countP (l := l) p
  simp only [Bool.not_eq_true, Bool.decide_eq_false] at hsplit
  omega

end Arkos
