import Mathlib.Data.List.Basic
import Mathlib.Logic.Function.Basic

/-!
# Prefix codes

An encoder is a prefix code when what it writes can be cut off the front of any string in one way
only. Unlike a format with length prefixes of a fixed width, this puts no bound on the length of
what is written.

Text formats are not made of prefix codes throughout: a numeral ends where the next character is
not a digit. `DelimitedBy` is the weaker notion for such a part, which is cut off in one way when a
stop character follows, and separated lists of such parts with a closing character are prefix codes
again.

## Main definitions

* `PrefixCode`, `DelimitedBy`

## Main results

* `prefixCode_of_reader` — a reader that undoes the encoder
* `PrefixCode.flatMap_inj`, `PrefixCode.flatMap_stop_inj` — sequences, to the end of the string or
  to a stop character
* `DelimitedBy.intercalate_inj` — separated lists
-/

namespace Arkos

variable {α : Type*}

/-- What is written can be read off the front of a string in one way only. -/
def PrefixCode (enc : α → List UInt8) : Prop :=
  ∀ ⦃x y : α⦄ ⦃r s : List UInt8⦄, enc x ++ r = enc y ++ s → x = y ∧ r = s

/-- The same, for what is followed by a stop character. -/
def DelimitedBy (stop : UInt8 → Prop) (enc : α → List UInt8) : Prop :=
  ∀ ⦃x y : α⦄ ⦃c d : UInt8⦄ ⦃r s : List UInt8⦄, stop c → stop d →
    enc x ++ c :: r = enc y ++ d :: s → x = y ∧ c :: r = d :: s

namespace PrefixCode

variable {enc : α → List UInt8}

theorem injective (h : PrefixCode enc) : Function.Injective enc := fun x y hxy =>
  (h (r := []) (s := []) (by rw [hxy])).1

theorem delimitedBy (h : PrefixCode enc) (stop : UInt8 → Prop) : DelimitedBy stop enc :=
  fun _ _ _ _ _ _ _ _ hxy => h hxy

/-- A sequence of parts up to the end of the string. -/
theorem flatMap_inj (h : PrefixCode enc) (hne : ∀ x, enc x ≠ []) :
    ∀ {xs ys : List α}, xs.flatMap enc = ys.flatMap enc → xs = ys
  | [], [], _ => rfl
  | [], y :: ys, he => by
    simp only [List.flatMap_nil, List.flatMap_cons] at he
    exact absurd (List.append_eq_nil_iff.mp he.symm).1 (hne y)
  | x :: xs, [], he => by
    simp only [List.flatMap_nil, List.flatMap_cons] at he
    exact absurd (List.append_eq_nil_iff.mp he).1 (hne x)
  | x :: xs, y :: ys, he => by
    simp only [List.flatMap_cons] at he
    obtain ⟨rfl, hrest⟩ := h he
    rw [flatMap_inj h hne hrest]

/-- Two sequences of as many parts, read in step. -/
theorem flatMap_append_inj (h : PrefixCode enc) :
    ∀ {xs ys : List α} {r s : List UInt8}, xs.length = ys.length →
      xs.flatMap enc ++ r = ys.flatMap enc ++ s → xs = ys ∧ r = s
  | [], [], _, _, _, he => ⟨rfl, he⟩
  | x :: xs, y :: ys, r, s, hlen, he => by
    simp only [List.flatMap_cons, List.append_assoc] at he
    obtain ⟨rfl, hrest⟩ := h he
    obtain ⟨rfl, hend⟩ := flatMap_append_inj h (Nat.succ.inj hlen) hrest
    exact ⟨rfl, hend⟩

/-- A sequence of parts up to a character that no part begins with. -/
theorem flatMap_stop_inj (h : PrefixCode enc) {c : UInt8}
    (hc : ∀ x, ∃ b t, enc x = b :: t ∧ b ≠ c) :
    ∀ {xs ys : List α} {r s : List UInt8}, xs.flatMap enc ++ c :: r = ys.flatMap enc ++ c :: s →
      xs = ys ∧ r = s
  | [], [], _, _, he => ⟨rfl, by simpa using he⟩
  | [], y :: ys, r, s, he => by
    obtain ⟨b, t, hy, hb⟩ := hc y
    simp only [List.flatMap_nil, List.flatMap_cons, hy, List.nil_append, List.cons_append,
      List.cons.injEq] at he
    exact absurd he.1.symm hb
  | x :: xs, [], r, s, he => by
    obtain ⟨b, t, hx, hb⟩ := hc x
    simp only [List.flatMap_nil, List.flatMap_cons, hx, List.nil_append, List.cons_append,
      List.cons.injEq] at he
    exact absurd he.1 hb
  | x :: xs, y :: ys, r, s, he => by
    simp only [List.flatMap_cons, List.append_assoc] at he
    obtain ⟨rfl, h₁⟩ := h he
    obtain ⟨rfl, h₂⟩ := flatMap_stop_inj h hc h₁
    exact ⟨rfl, h₂⟩

end PrefixCode

/-- A reader that undoes the encoder and returns the rest. -/
theorem prefixCode_of_reader {enc : α → List UInt8} (read : List UInt8 → Option (α × List UInt8))
    (hread : ∀ x r, read (enc x ++ r) = some (x, r)) : PrefixCode enc := by
  intro x y r s h
  have h' := congrArg read h
  rw [hread, hread] at h'
  simpa using h'

/-- Two stretches of characters of a kind, each ended by one that is not, are read in one way. -/
theorem append_cons_inj_of_forall {p : UInt8 → Prop} {xs ys r s : List UInt8} {c d : UInt8}
    (hxs : ∀ b ∈ xs, p b) (hys : ∀ b ∈ ys, p b) (hc : ¬ p c) (hd : ¬ p d)
    (h : xs ++ c :: r = ys ++ d :: s) : xs = ys ∧ c :: r = d :: s := by
  induction xs generalizing ys with
  | nil =>
    cases ys with
    | nil => exact ⟨rfl, h⟩
    | cons y ys =>
      simp only [List.nil_append, List.cons_append, List.cons.injEq] at h
      exact absurd (h.1 ▸ hys y List.mem_cons_self) hc
  | cons x xs ih =>
    cases ys with
    | nil =>
      simp only [List.nil_append, List.cons_append, List.cons.injEq] at h
      exact absurd (h.1 ▸ hxs x List.mem_cons_self) hd
    | cons y ys =>
      simp only [List.cons_append, List.cons.injEq] at h
      obtain ⟨hxy, hrest⟩ := ih (fun b hb => hxs b (List.mem_cons_of_mem _ hb))
        (fun b hb => hys b (List.mem_cons_of_mem _ hb)) h.2
      exact ⟨by rw [h.1, hxy], hrest⟩

/-- Numerals and the like: all characters of one kind, and no stop character of it. -/
theorem delimitedBy_of_forall {enc : α → List UInt8} {p stop : UInt8 → Prop}
    (hinj : Function.Injective enc) (henc : ∀ x, ∀ b ∈ enc x, p b) (hstop : ∀ c, stop c → ¬ p c) :
    DelimitedBy stop enc := by
  intro x y c d r s hc hd h
  obtain ⟨hxy, h⟩ := append_cons_inj_of_forall (henc x) (henc y) (hstop c hc) (hstop d hd) h
  exact ⟨hinj hxy, h⟩

/-- What follows the first part of a separated list: its closing character, or a separator and the
other parts. -/
def separatedTail (enc : α → List UInt8) (sep stop : UInt8) (r : List UInt8) :
    List α → List UInt8
  | [] => stop :: r
  | x :: xs => sep :: ([sep].intercalate ((x :: xs).map enc) ++ stop :: r)

theorem intercalate_cons_append (enc : α → List UInt8) (sep stop : UInt8) (r : List UInt8) (x : α)
    (xs : List α) :
    [sep].intercalate ((x :: xs).map enc) ++ stop :: r =
      enc x ++ separatedTail enc sep stop r xs := by
  cases xs with
  | nil => simp [List.intercalate, separatedTail]
  | cons x' xs => simp [List.intercalate, separatedTail]

theorem exists_separatedTail (enc : α → List UInt8) (sep stop : UInt8) (r : List UInt8)
    (xs : List α) :
    ∃ c t, separatedTail enc sep stop r xs = c :: t ∧ (c = sep ∨ c = stop) := by
  cases xs with
  | nil => exact ⟨stop, r, rfl, Or.inr rfl⟩
  | cons x xs => exact ⟨sep, _, rfl, Or.inl rfl⟩

/-- A separated list up to its closing character. -/
theorem DelimitedBy.intercalate_inj {enc : α → List UInt8} {sep stop : UInt8} (hsep : sep ≠ stop)
    (h : DelimitedBy (fun c => c = sep ∨ c = stop) enc)
    (hne : ∀ x, ∃ b t, enc x = b :: t ∧ b ≠ stop) :
    ∀ {xs ys : List α} {r s : List UInt8},
      [sep].intercalate (xs.map enc) ++ stop :: r = [sep].intercalate (ys.map enc) ++ stop :: s →
      xs = ys ∧ r = s
  | [], [], _, _, he => ⟨rfl, by simpa [List.intercalate] using he⟩
  | [], y :: ys, r, s, he => by
    obtain ⟨b, t, hy, hb⟩ := hne y
    rw [intercalate_cons_append, hy] at he
    simp only [List.intercalate, List.map_nil, List.intersperse_nil, List.flatten_nil,
      List.nil_append, List.cons_append, List.cons.injEq] at he
    exact absurd he.1.symm hb
  | x :: xs, [], r, s, he => by
    obtain ⟨b, t, hx, hb⟩ := hne x
    rw [intercalate_cons_append, hx] at he
    simp only [List.intercalate, List.map_nil, List.intersperse_nil, List.flatten_nil,
      List.nil_append, List.cons_append, List.cons.injEq] at he
    exact absurd he.1 hb
  | x :: xs, y :: ys, r, s, he => by
    rw [intercalate_cons_append, intercalate_cons_append] at he
    obtain ⟨c, t, hc, hcstop⟩ := exists_separatedTail enc sep stop r xs
    obtain ⟨d, u, hd, hdstop⟩ := exists_separatedTail enc sep stop s ys
    rw [hc, hd] at he
    obtain ⟨rfl, htail⟩ := h hcstop hdstop he
    rw [← hc, ← hd] at htail
    -- the lists go on together or end together
    cases xs with
    | nil =>
      cases ys with
      | nil => exact ⟨rfl, (List.cons.inj htail).2⟩
      | cons y ys => exact absurd (List.cons.inj htail).1.symm hsep
    | cons x' xs =>
      cases ys with
      | nil => exact absurd (List.cons.inj htail).1 hsep
      | cons y' ys =>
        obtain ⟨hxs, hrs⟩ := intercalate_inj hsep h hne (List.cons.inj htail).2
        exact ⟨by rw [hxs], hrs⟩

end Arkos
