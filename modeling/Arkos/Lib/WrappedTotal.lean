import Mathlib.Algebra.BigOperators.Group.List.Basic
import Mathlib.Algebra.Order.BigOperators.Group.List
import Mathlib.Algebra.Order.Ring.Nat
import Mathlib.Data.List.TakeDrop

/-!
# Adding words until they are enough

A loop adds 64-bit values and stops as soon as the total reaches a target, and both the total and
the target are kept modulo `2 ^ 64`. The totals only grow, their remainders do not. The loop ends
where it should exactly when, up to the first total that reaches the target, no remainder compares
with that of the target differently from how the total compares with the target. Then nothing was
lost either: what remains after the target is taken off is the difference of the exact numbers.

The list may be empty. Then nothing is compared and the remainder of the target alone decides.

## Main definitions

* `runningTotal`, `Resolved`
* `StopsAt` — where such a loop ends

## Main results

* `StopsAt.exact_iff_resolved`
-/

namespace Arkos

/-- The sum of the first `k` values. -/
def runningTotal (values : List ℕ) (k : ℕ) : ℕ := (values.take k).sum

/-- Up to the first that reaches `target`, the running totals compare with it as their remainders
do. -/
structure Resolved (target : ℕ) (values : List ℕ) : Prop where
  empty : values = [] → target ≠ 2 ^ 64
  compare : ∀ k < values.length, (k = 0 ∨ runningTotal values k < target) →
    (target % 2 ^ 64 ≤ runningTotal values (k + 1) % 2 ^ 64 ↔ target ≤ runningTotal values (k + 1))

/-- The loop takes `m` values: it goes on while the remainder of the total is too small, and stops
when it is not or at the end of the list. -/
structure StopsAt (target : ℕ) (values : List ℕ) (m : ℕ) : Prop where
  le : m ≤ values.length
  pos : values ≠ [] → 0 < m
  short : ∀ k, 0 < k → k < m → runningTotal values k % 2 ^ 64 < target % 2 ^ 64
  stop : m = values.length ∨ target % 2 ^ 64 ≤ runningTotal values m % 2 ^ 64

@[simp] theorem runningTotal_zero (values : List ℕ) : runningTotal values 0 = 0 := rfl

theorem runningTotal_cons_succ (v : ℕ) (values : List ℕ) (k : ℕ) :
    runningTotal (v :: values) (k + 1) = v + runningTotal values k := by
  rw [runningTotal, List.take_succ_cons, List.sum_cons, runningTotal]

theorem runningTotal_length (values : List ℕ) : runningTotal values values.length = values.sum := by
  rw [runningTotal, List.take_length]

theorem runningTotal_mono (values : List ℕ) {k k' : ℕ} (h : k ≤ k') :
    runningTotal values k ≤ runningTotal values k' := by
  have hpre : values.take k <+: values.take k' := List.take_prefix_take_left h
  exact hpre.sublist.sum_le_sum fun _ _ => Nat.zero_le _

theorem runningTotal_succ_lt {values : List ℕ} (hvalues : ∀ v ∈ values, v < 2 ^ 64) (k : ℕ) :
    runningTotal values (k + 1) < runningTotal values k + 2 ^ 64 := by
  rw [runningTotal, runningTotal, List.take_add_one, List.sum_append]
  refine Nat.add_lt_add_left ?_ _
  cases hv : values[k]? with
  | none => exact Nat.two_pow_pos 64
  | some v => simpa using hvalues v (List.mem_of_getElem? hv)

namespace StopsAt

variable {target m : ℕ} {values : List ℕ}

/-- While the loop goes on a resolved total is below the target. -/
theorem lt_of_resolved (h : StopsAt target values m) (hres : Resolved target values) {k : ℕ}
    (hpos : 0 < k) (hk : k < m) : runningTotal values k < target := by
  have hle := h.le
  induction k with
  | zero => exact absurd hpos (Nat.lt_irrefl 0)
  | succ k ih =>
    have hguard : k = 0 ∨ runningTotal values k < target := by
      rcases Nat.eq_zero_or_pos k with hzero | hpos
      · exact Or.inl hzero
      · exact Or.inr (ih hpos (by omega))
    have hshort := h.short (k + 1) hpos hk
    exact Nat.lt_of_not_le ((hres.compare k (by omega) hguard).not.mp (Nat.not_le.mpr hshort))

/-- **Resolved totals are enough.** -/
theorem exact_of_resolved (hvalues : ∀ v ∈ values, v < 2 ^ 64) (htarget : target < 2 ^ 65)
    (h : StopsAt target values m) (hres : Resolved target values) :
    (target % 2 ^ 64 ≤ runningTotal values m % 2 ^ 64 ↔ target ≤ values.sum) ∧
      (target % 2 ^ 64 ≤ runningTotal values m % 2 ^ 64 → runningTotal values m =
        target + (runningTotal values m % 2 ^ 64 - target % 2 ^ 64)) := by
  have hle := h.le
  rcases Nat.eq_zero_or_pos m with rfl | hpos
  · -- nothing was there to be taken
    have hnil : values = [] := by
      by_contra hne
      exact Nat.lt_irrefl 0 (h.pos hne)
    have hempty := hres.empty hnil
    rw [hnil, runningTotal_zero, List.sum_nil]
    omega
  · obtain ⟨k, rfl⟩ : ∃ k, m = k + 1 := ⟨m - 1, by omega⟩
    have hguard : k = 0 ∨ runningTotal values k < target := by
      rcases Nat.eq_zero_or_pos k with hzero | hk
      · exact Or.inl hzero
      · exact Or.inr (h.lt_of_resolved hres hk (Nat.lt_succ_self k))
    have hcompare := hres.compare k (by omega) hguard
    have hlast := runningTotal_succ_lt hvalues k
    have hsum : runningTotal values (k + 1) ≤ values.sum :=
      (runningTotal_mono values hle).trans_eq (runningTotal_length values)
    refine ⟨⟨fun hreach => (hcompare.mp hreach).trans hsum, fun hreach => ?_⟩, fun hreach => ?_⟩
    · rcases h.stop with hend | hstop
      · refine hcompare.mpr (hreach.trans_eq ?_)
        rw [← runningTotal_length, ← hend]
      · exact hstop
    · have htotal := hcompare.mp hreach
      have hbefore : runningTotal values k < target ∨ runningTotal values k = 0 := by
        rcases hguard with rfl | hlt
        · exact Or.inr (runningTotal_zero values)
        · exact Or.inl hlt
      -- the last value is a word, so the total and the target have the same quotient
      omega

/-- **And necessary.** -/
theorem resolved_of_exact (h : StopsAt target values m)
    (hreach : target % 2 ^ 64 ≤ runningTotal values m % 2 ^ 64 ↔ target ≤ values.sum)
    (hexact : target % 2 ^ 64 ≤ runningTotal values m % 2 ^ 64 → runningTotal values m =
      target + (runningTotal values m % 2 ^ 64 - target % 2 ^ 64)) : Resolved target values := by
  have hle := h.le
  refine ⟨fun hnil heq => ?_, fun k hk hguard => ?_⟩
  · have hm : m = 0 := by
      rw [hnil] at hle
      exact Nat.le_zero.mp hle
    subst hm
    rw [hnil, runningTotal_zero, List.sum_nil] at hreach
    omega
  · have hpos : 0 < m := h.pos fun hnil => by simp [hnil] at hk
    have hsum : ∀ j ≤ values.length, runningTotal values j ≤ values.sum := fun j hj =>
      (runningTotal_mono values hj).trans_eq (runningTotal_length values)
    rcases lt_trichotomy (k + 1) m with hlt | heq | hgt
    · -- the loop went on here
      have hshort := h.short (k + 1) (Nat.succ_pos k) hlt
      have hmono := runningTotal_mono values hlt.le
      have hlast := hsum (k + 1) (by omega)
      refine iff_of_false (Nat.not_le.mpr hshort) fun hreached => ?_
      have hok := hreach.mpr (hreached.trans hlast)
      have htotal := hexact hok
      omega
    · subst heq
      refine ⟨fun hok => ?_, fun hreached => hreach.mpr (hreached.trans (hsum _ hle))⟩
      have htotal := hexact hok
      omega
    · -- the loop had ended before
      have hok := h.stop.resolve_left (by omega)
      have htotal := hexact hok
      have hmono := runningTotal_mono values (show m ≤ k by omega)
      omega

/-- A loop whose last total is a word ends at the first total that reaches the target, if it reaches
it at all. -/
theorem lt_of_total_lt (h : StopsAt target values m) (htarget : target < 2 ^ 64)
    (htotal : runningTotal values m < 2 ^ 64) {k : ℕ} (hpos : 0 < target) (hk : k < m) :
    runningTotal values k < target := by
  rcases Nat.eq_zero_or_pos k with rfl | hkpos
  · rwa [runningTotal_zero]
  · have hshort := h.short k hkpos hk
    have hmono := runningTotal_mono values hk.le
    omega

/-- And it does not go past a word that reaches the target. -/
theorem eq_of_first (h : StopsAt target values m) (htarget : target < 2 ^ 64) (hpos : 0 < target)
    {j : ℕ} (hj : j ≤ values.length) (hbefore : ∀ k < j, runningTotal values k < target)
    (hreach : target ≤ runningTotal values j) (hword : runningTotal values j < 2 ^ 64) : m = j := by
  have hle := h.le
  rcases lt_trichotomy m j with hlt | heq | hgt
  · have hbelow := hbefore m hlt
    have hstop := h.stop.resolve_left (by omega)
    omega
  · exact heq
  · have hjpos : 0 < j := by
      rcases Nat.eq_zero_or_pos j with rfl | hjpos
      · rw [runningTotal_zero] at hreach
        omega
      · exact hjpos
    have hshort := h.short j hjpos hgt
    omega

/-- **The loop ends where it should, with nothing lost, exactly when the totals are resolved.** -/
theorem exact_iff_resolved (hvalues : ∀ v ∈ values, v < 2 ^ 64) (htarget : target < 2 ^ 65)
    (h : StopsAt target values m) :
    ((target % 2 ^ 64 ≤ runningTotal values m % 2 ^ 64 ↔ target ≤ values.sum) ∧
      (target % 2 ^ 64 ≤ runningTotal values m % 2 ^ 64 → runningTotal values m =
        target + (runningTotal values m % 2 ^ 64 - target % 2 ^ 64))) ↔ Resolved target values :=
  ⟨fun hexact => h.resolved_of_exact hexact.1 hexact.2, h.exact_of_resolved hvalues htarget⟩

end StopsAt

end Arkos
