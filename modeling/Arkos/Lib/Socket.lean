import Arkos.Lib.Interleave

/-!
# Programs at the two ends of a connection

A program at one end of a connection writes to it, reads an exact number of items from it, and in
the end returns. Two of them, with what is on its way in either direction, make up a system in which
each end moves when it can: a read waits until enough has arrived.

The two directions are queues and a read takes what is in front, so the moves of the two ends
commute, and it is enough to follow them in one order.

## Main definitions

* `Socket.Program`, `Socket.Program.bind`, `Socket.Program.andThen`
* `Socket.System`, `Socket.step` — the two ends and the two queues
* `Socket.Sends`, `Socket.Receives` — a message behind a header

## Main results

* `Socket.commutes_step`
* `Socket.exec_toRight`, `Socket.exec_toLeft` — a message crosses the wire
-/

namespace Socket

/-- A program at an end of a connection, with items of type `α` on the wire and a result in `β`. -/
inductive Program (α : Type) (β : Type) where
  | ret (b : β)
  | write (items : List α) (next : Program α β)
  | readExact (n : ℕ) (next : List α → Program α β)

variable {α β γ δ : Type}

namespace Program

/-- One program, and what follows from its result. -/
def bind : Program α β → (β → Program α γ) → Program α γ
  | ret b, f => f b
  | write items next, f => write items (next.bind f)
  | readExact n next, f => readExact n fun items => (next items).bind f

end Program

/-- One program, and what follows if it did not fail: the `?` of fallible code. -/
def Program.andThen {ε : Type} (p : Program α (Except ε β)) (f : β → Program α (Except ε γ)) :
    Program α (Except ε γ) :=
  p.bind fun
    | .error e => .ret (.error e)
    | .ok b => f b

section

variable {ε : Type} (f : β → Program α (Except ε γ))

@[simp] theorem Program.andThen_error (e : ε) :
    (ret (.error e) : Program α (Except ε β)).andThen f = ret (.error e) := rfl

@[simp] theorem Program.andThen_ok (b : β) :
    (ret (.ok b) : Program α (Except ε β)).andThen f = f b := rfl

@[simp] theorem Program.andThen_write (items : List α) (next : Program α (Except ε β)) :
    (write items next).andThen f = write items (next.andThen f) := rfl

@[simp] theorem Program.andThen_readExact (n : ℕ) (next : List α → Program α (Except ε β)) :
    (readExact n next).andThen f = readExact n fun items => (next items).andThen f := rfl

end

/-- The two ends, and what is on its way to each of them. -/
structure System (α β γ : Type) where
  left : Program α β
  right : Program α γ
  toLeft : List α
  toRight : List α

/-- One move of the left end (`true`) or of the right end. -/
def step : Bool → System α β γ → Option (System α β γ)
  | true, s =>
    match s.left with
    | .ret _ => none
    | .write items next => some { s with left := next, toRight := s.toRight ++ items }
    | .readExact n next =>
      if n ≤ s.toLeft.length then
        some { s with left := next (s.toLeft.take n), toLeft := s.toLeft.drop n }
      else none
  | false, s =>
    match s.right with
    | .ret _ => none
    | .write items next => some { s with right := next, toLeft := s.toLeft ++ items }
    | .readExact n next =>
      if n ≤ s.toRight.length then
        some { s with right := next (s.toRight.take n), toRight := s.toRight.drop n }
      else none

/-- The same system, seen from the other side. -/
def System.swap (s : System α β γ) : System α γ β := ⟨s.right, s.left, s.toRight, s.toLeft⟩

theorem step_swap (i : Bool) (s : System α β γ) :
    step (!i) s.swap = (step i s).map System.swap := by
  obtain ⟨left, right, toLeft, toRight⟩ := s
  cases i
  · cases right with
    | ret => rfl
    | write => rfl
    | readExact n next =>
      simp only [step, System.swap, Bool.not_false]
      split <;> rfl
  · cases left with
    | ret => rfl
    | write => rfl
    | readExact n next =>
      simp only [step, System.swap, Bool.not_true]
      split <;> rfl

/-- A move of the left end leaves the right end where it is, and what it would have read. -/
theorem step_right_of_step_left {s a b : System α β γ} (hl : step true s = some a)
    (hr : step false s = some b) : ∃ c, step false a = some c ∧ step true b = some c := by
  obtain ⟨left, right, toLeft, toRight⟩ := s
  cases left with
  | ret => cases hl
  | write items next =>
    cases hl
    cases right with
    | ret => cases hr
    | write items' next' =>
      cases hr
      exact ⟨_, rfl, rfl⟩
    | readExact n next' =>
      simp only [step] at hr ⊢
      split at hr
      · next hn =>
        cases hr
        refine ⟨⟨next, next' (toRight.take n), toLeft, toRight.drop n ++ items⟩, ?_, rfl⟩
        rw [if_pos (by rw [List.length_append]; omega), List.take_append_of_le_length hn,
          List.drop_append_of_le_length hn]
      · cases hr
  | readExact m next =>
    simp only [step] at hl
    split at hl
    · next hm =>
      cases hl
      cases right with
      | ret => cases hr
      | write items' next' =>
        cases hr
        refine ⟨⟨next (toLeft.take m), next', toLeft.drop m ++ items', toRight⟩, rfl, ?_⟩
        simp only [step]
        rw [if_pos (by rw [List.length_append]; omega), List.take_append_of_le_length hm,
          List.drop_append_of_le_length hm]
      | readExact n next' =>
        simp only [step] at hr ⊢
        split at hr
        · next hn =>
          cases hr
          exact ⟨⟨next (toLeft.take m), next' (toRight.take n), toLeft.drop m, toRight.drop n⟩,
            if_pos hn, if_pos hm⟩
        · cases hr
    · cases hl

/-- **The moves of the two ends commute.** -/
theorem commutes_step : Interleave.Commutes (step (α := α) (β := β) (γ := γ)) := by
  intro i j s a b hij hi hj
  cases i <;> cases j
  · exact absurd rfl hij
  · obtain ⟨c, hc, hc'⟩ := step_right_of_step_left hj hi
    exact ⟨c, hc', hc⟩
  · exact step_right_of_step_left hi hj
  · exact absurd rfl hij

/-- A system that has come to its end: both programs have returned. -/
theorem final_ret (b : β) (c : γ) (toLeft toRight : List α) :
    Interleave.Final step (⟨.ret b, .ret c, toLeft, toRight⟩ : System α β γ) := by
  intro i
  cases i <;> rfl

/-! ### One message -/

/-- The program writes a message behind a header, and goes on as `q`. -/
def Sends (header message : List α) (p q : Program α β) : Prop :=
  p = .write header (.write message q)

/-- The program reads the header and then as much as the message is long, and goes on as `q`. -/
def Receives (header message : List α) (p q : Program α β) : Prop :=
  ∃ read reply, p = .readExact header.length read ∧
    read header = .readExact message.length reply ∧ reply message = q

section

variable {header message : List α} {ε : Type}

theorem Sends.andThen {p q : Program α (Except ε β)} (h : Sends header message p q)
    (f : β → Program α (Except ε γ)) : Sends header message (p.andThen f) (q.andThen f) := by
  rw [Sends] at h ⊢
  rw [h]
  rfl

theorem Receives.andThen {p q : Program α (Except ε β)} (h : Receives header message p q)
    (f : β → Program α (Except ε γ)) : Receives header message (p.andThen f) (q.andThen f) := by
  obtain ⟨read, reply, rfl, hread, rfl⟩ := h
  exact ⟨_, _, rfl, by rw [hread]; rfl, rfl⟩

/-- **A message crosses the wire** from left to right. -/
theorem exec_toRight {p q : Program α β} {p' q' : Program α γ} (hp : Sends header message p q)
    (hp' : Receives header message p' q') :
    Interleave.exec step [true, true, false, false] ⟨p, p', [], []⟩ = some ⟨q, q', [], []⟩ := by
  obtain ⟨read, reply, rfl, hread, rfl⟩ := hp'
  rw [hp]
  simp [Interleave.exec, step, hread]

theorem exec_swap (is : List Bool) : ∀ s : System α β γ,
    Interleave.exec step (is.map (!·)) s.swap = (Interleave.exec step is s).map System.swap := by
  induction is with
  | nil => exact fun _ => rfl
  | cons i is ih =>
    intro s
    rw [List.map_cons, Interleave.exec, Interleave.exec, step_swap]
    cases step i s with
    | none => rfl
    | some t => exact ih t

/-- And from right to left. -/
theorem exec_toLeft {p q : Program α β} {p' q' : Program α γ} (hp : Receives header message p q)
    (hp' : Sends header message p' q') :
    Interleave.exec step [false, false, true, true] ⟨p, p', [], []⟩ = some ⟨q, q', [], []⟩ := by
  have hswap := exec_swap [true, true, false, false] (⟨p', p, [], []⟩ : System α γ β)
  rw [exec_toRight hp' hp] at hswap
  exact hswap

end

end Socket
