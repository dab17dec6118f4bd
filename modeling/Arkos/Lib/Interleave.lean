import Mathlib.Data.Option.Basic
import Mathlib.Data.List.Basic

/-!
# Agents whose steps commute

A system of agents moves by steps: in a state, an agent either has one step to make or has to wait.
When the steps of different agents commute, who moves first does not matter: if some sequence of
moves ends where nobody can move, every sequence can be continued to that same end, and all complete
sequences have the same length.

## Main definitions

* `Interleave.exec` — the moves of the named agents, one after the other
* `Interleave.Commutes`

## Main results

* `Interleave.exec_of_final` — every beginning can be continued to the one end
* `Interleave.eq_final_of_stuck` — who can go no further is there
-/

namespace Interleave

variable {ι σ : Type*} (step : ι → σ → Option σ)

/-- The moves of the named agents, if each of them can move when it is its turn. -/
def exec : List ι → σ → Option σ
  | [], s => some s
  | i :: is, s => (step i s).bind (exec is)

/-- Two agents that can both move can move in either order, to the same state. -/
def Commutes : Prop :=
  ∀ i j s a b, i ≠ j → step i s = some a → step j s = some b →
    ∃ c, step j a = some c ∧ step i b = some c

/-- Nobody can move. -/
def Final (t : σ) : Prop := ∀ i, step i t = none

variable {step}

@[simp] theorem exec_nil (s : σ) : exec step [] s = some s := rfl

theorem exec_cons_eq_some {i : ι} {is : List ι} {s t : σ} :
    exec step (i :: is) s = some t ↔ ∃ a, step i s = some a ∧ exec step is a = some t :=
  Option.bind_eq_some_iff

theorem exec_append {is js : List ι} {s t : σ} :
    exec step (is ++ js) s = some t ↔ ∃ a, exec step is s = some a ∧ exec step js a = some t := by
  induction is generalizing s with
  | nil => simp
  | cons i is ih =>
    simp only [List.cons_append, exec_cons_eq_some, ih]
    constructor
    · rintro ⟨a, ha, b, hb, ht⟩
      exact ⟨b, ⟨a, ha, hb⟩, ht⟩
    · rintro ⟨b, ⟨a, ha, hb⟩, ht⟩
      exact ⟨a, ha, b, hb, ht⟩

/-- A move that was possible first can be made first. -/
theorem exec_of_step [DecidableEq ι] (hc : Commutes step) {is : List ι} {s t : σ}
    (hrun : exec step is s = some t) (hfinal : Final step t) {j : ι} {a : σ}
    (hj : step j s = some a) :
    ∃ is', exec step is' a = some t ∧ is'.length + 1 = is.length := by
  induction is generalizing s a with
  | nil =>
    cases hrun
    rw [hfinal j] at hj
    cases hj
  | cons i is ih =>
    obtain ⟨b, hb, hrest⟩ := exec_cons_eq_some.mp hrun
    by_cases hij : i = j
    · subst hij
      obtain rfl := Option.some.inj (hb.symm.trans hj)
      exact ⟨is, hrest, rfl⟩
    · obtain ⟨c, hjb, hia⟩ := hc i j s b a hij hb hj
      obtain ⟨is', hrun', hlen⟩ := ih hrest hjb
      exact ⟨i :: is', exec_cons_eq_some.mpr ⟨c, hia, hrun'⟩, by
        rw [List.length_cons, List.length_cons, hlen]⟩

/-- **Every beginning can be continued to the one end**, in as many moves as are left. -/
theorem exec_of_final [DecidableEq ι] (hc : Commutes step) {js : List ι} :
    ∀ {is : List ι} {s t u : σ}, exec step is s = some t → Final step t → exec step js s = some u →
    ∃ ks, exec step ks u = some t ∧ js.length + ks.length = is.length := by
  induction js with
  | nil =>
    intro is s t u hrun _ hu
    cases hu
    exact ⟨is, hrun, Nat.zero_add _⟩
  | cons j js ih =>
    intro is s t u hrun hfinal hu
    obtain ⟨a, hj, hrest⟩ := exec_cons_eq_some.mp hu
    obtain ⟨is', hrun', hlen⟩ := exec_of_step hc hrun hfinal hj
    obtain ⟨ks, hks, hlen'⟩ := ih hrun' hfinal hrest
    exact ⟨ks, hks, by rw [List.length_cons]; omega⟩

/-- **Who can go no further is there.** -/
theorem eq_final_of_stuck [DecidableEq ι] (hc : Commutes step) {is js : List ι} {s t u : σ}
    (hrun : exec step is s = some t) (hfinal : Final step t) (hu : exec step js s = some u)
    (hstuck : Final step u) : u = t ∧ js.length = is.length := by
  obtain ⟨ks, hks, hlen⟩ := exec_of_final hc hrun hfinal hu
  cases ks with
  | nil => exact ⟨Option.some.inj hks, hlen⟩
  | cons k ks =>
    obtain ⟨a, ha, -⟩ := exec_cons_eq_some.mp hks
    rw [hstuck k] at ha
    cases ha

end Interleave
