import Arkos.Network.Noise

/-!
# Nonces of the post-quantum layer

Both ends of a connection hold the same post-quantum key, and both count the chunks they encrypt
from zero. So the first chunk of either side is encrypted under the same key and nonce, and a pair
is used twice as soon as both have sent something.

`Connection` is the two ends with the bytes in flight; its runs are arbitrary interleavings of
sending, receiving and splitting. Seen from one side the counting is right: the pairs a side has
used are those of its counter's values so far (`Endpoint.Counted`), whatever the other side does.

## Main definitions

* `Endpoint`, `Connection`, `Connection.step`, `Connection.run`
* `Endpoint.Counted`

## Main results

* `Connection.counted_run` — what a side has used after a run
* `pq_nonce_unique_iff`, `pq_nonce_reused`
-/

namespace Arkos

/-- One end of a connection, before or after `into_split`. -/
inductive Endpoint where
  | whole (c : NoiseConn)
  | halves (r : NoiseReader) (w : NoiseWriter)

namespace Endpoint

/-- The key of the post-quantum layer. -/
def pqKey : Endpoint → Bytes
  | whole c => c.pqKey
  | halves _ w => w.pqKey

def sendCounter : Endpoint → ℕ
  | whole c => c.sendCounter
  | halves _ w => w.sendCounter

/-- The keys and nonces this end has called `pq_encrypt` with. -/
def pqCalls : Endpoint → List (Bytes × Bytes)
  | whole c => c.pqCalls
  | halves _ w => w.pqCalls

/-- What this end has written and the other has not read. -/
def inFlight : Endpoint → Bytes
  | whole c => c.writer
  | halves _ w => w.writer

/-- The bytes in flight have arrived. -/
def drain : Endpoint → Endpoint
  | whole c => whole { c with writer := [] }
  | halves r w => halves r { w with writer := [] }

/-- More bytes have arrived. -/
def feed (bytes : Bytes) : Endpoint → Endpoint
  | whole c => whole { c with reader := c.reader ++ bytes }
  | halves r w => halves { r with reader := r.reader ++ bytes } w

/-- `into_split`; nothing is left to split afterwards. -/
def intoSplit : Endpoint → Endpoint
  | whole c => halves c.intoSplit.1 c.intoSplit.2
  | halves r w => halves r w

/-- `send_raw` of the connection or of its writing half. -/
def sendRaw (K : Ciphers) (payload : Bytes) : Endpoint → Endpoint
  | whole c => whole (c.sendRaw K payload).2
  | halves r w => halves r (w.sendRaw K payload).2

/-- `recv_raw` of the connection or of its reading half. -/
def recvRaw (K : Ciphers) : Endpoint → Endpoint
  | whole c => whole (c.recvRaw K).2
  | halves r w => halves (r.recvRaw K).2 w

end Endpoint

/-- An established connection. -/
structure Connection where
  initiator : Endpoint
  responder : Endpoint

/-- What one end does. -/
inductive NoiseAction where
  | send (side : Side) (payload : Bytes)
  | recv (side : Side)
  | intoSplit (side : Side)

namespace Connection

/-- Both ends hold the same key. -/
def established (initiator responder : TransportState) (pqKey : Bytes) : Connection :=
  ⟨.whole (.established initiator pqKey), .whole (.established responder pqKey)⟩

/-- The given end. -/
def endpoint (c : Connection) : Side → Endpoint
  | .initiator => c.initiator
  | .responder => c.responder

/-- The connection with another endpoint in the place of the given one. -/
def set (c : Connection) (e : Endpoint) : Side → Connection
  | .initiator => { c with initiator := e }
  | .responder => { c with responder := e }

/-- One action. Before an end reads, what the other end has written arrives. -/
def step (K : Ciphers) (c : Connection) : NoiseAction → Connection
  | .send side payload => c.set ((c.endpoint side).sendRaw K payload) side
  | .intoSplit side => c.set (c.endpoint side).intoSplit side
  | .recv side =>
    let arrived := (c.endpoint side.other).inFlight
    (c.set (c.endpoint side.other).drain side.other).set
      (((c.endpoint side).feed arrived).recvRaw K) side

/-- A sequence of actions, in any interleaving of the two ends. -/
def run (K : Ciphers) (c : Connection) (actions : List NoiseAction) : Connection :=
  actions.foldl (step K) c

/-- The keys and nonces both ends have called `pq_encrypt` with. -/
def pqCalls (c : Connection) : List (Bytes × Bytes) := c.initiator.pqCalls ++ c.responder.pqCalls

end Connection

variable {K : Ciphers} {key : Bytes}

/-! ### One end counts correctly -/

/-- The pairs of the first `n` values of a counter. -/
def countedPairs (key : Bytes) (n : ℕ) : List (Bytes × Bytes) :=
  (List.range n).map fun i => (key, pqNonce i)

/-- The writer has used the pairs of its counter's values so far. -/
structure NoiseWriter.Counted (key : Bytes) (w : NoiseWriter) : Prop where
  key_eq : w.pqKey = key
  pqCalls_eq : w.pqCalls = countedPairs key w.sendCounter

/-- A chunk uses up one value of the counter, whether or not it can be sent. -/
theorem NoiseWriter.Counted.sendChunk {w : NoiseWriter} (h : w.Counted key) (chunk : Bytes) :
    (w.sendChunk K chunk).2.Counted key ∧
      (w.sendChunk K chunk).2.sendCounter = w.sendCounter + 1 := by
  have hcalls : w.pqCalls ++ [(w.pqKey, pqNonce w.sendCounter)] =
      countedPairs key (w.sendCounter + 1) := by
    rw [h.pqCalls_eq, h.key_eq, countedPairs, countedPairs, List.range_succ, List.map_append]
    rfl
  rw [NoiseWriter.sendChunk]
  dsimp only
  split
  · exact ⟨⟨h.key_eq, hcalls⟩, rfl⟩
  · exact ⟨⟨h.key_eq, hcalls⟩, rfl⟩

theorem NoiseWriter.Counted.sendChunks {w : NoiseWriter} (h : w.Counted key) (cs : List Bytes) :
    (w.sendChunks K cs).2.Counted key ∧ w.sendCounter ≤ (w.sendChunks K cs).2.sendCounter ∧
      (cs ≠ [] → 0 < (w.sendChunks K cs).2.sendCounter) := by
  induction cs generalizing w with
  | nil => exact ⟨h, le_rfl, fun hne => absurd rfl hne⟩
  | cons c cs ih =>
    obtain ⟨hone, hcounter⟩ := h.sendChunk (K := K) c
    rw [NoiseWriter.sendChunks]
    generalize w.sendChunk K c = res at hone hcounter ⊢
    obtain ⟨e | ⟨⟩, w'⟩ := res
    · dsimp only at hone hcounter ⊢
      exact ⟨hone, by omega, fun _ => by omega⟩
    · dsimp only at hone hcounter ⊢
      obtain ⟨hrest, hle, -⟩ := ih hone
      exact ⟨hrest, by omega, fun _ => by omega⟩

theorem NoiseWriter.Counted.sendRaw {w : NoiseWriter} (h : w.Counted key) (payload : Bytes) :
    (w.sendRaw K payload).2.Counted key ∧
      ((w.sendRaw K payload).2.sendCounter = 0 ↔ w.sendCounter = 0 ∧ payload = []) := by
  obtain ⟨hcounted, hle, hpos⟩ := h.sendChunks (K := K) (payloadChunks payload)
  rw [NoiseWriter.sendRaw_eq_sendChunks]
  refine ⟨hcounted, fun h0 => ⟨by omega, ?_⟩, ?_⟩
  · by_contra hne
    have := hpos (by rw [payloadChunks, chunks_of_ne_nil _ hne]; exact List.cons_ne_nil _ _)
    omega
  · rintro ⟨h0, rfl⟩
    rw [payloadChunks, chunks_nil]
    exact h0

/-- The end has used the pairs of its counter's values so far. -/
structure Endpoint.Counted (key : Bytes) (e : Endpoint) : Prop where
  key_eq : e.pqKey = key
  pqCalls_eq : e.pqCalls = countedPairs key e.sendCounter

namespace Endpoint

variable {e : Endpoint}

theorem Counted.sendRaw (h : e.Counted key) (payload : Bytes) :
    (e.sendRaw K payload).Counted key ∧
      ((e.sendRaw K payload).sendCounter = 0 ↔ e.sendCounter = 0 ∧ payload = []) := by
  cases e with
  | whole c =>
    obtain ⟨hcounted, hzero⟩ := NoiseWriter.Counted.sendRaw (K := K) (w := c.writeHalf)
      ⟨h.key_eq, h.pqCalls_eq⟩ payload
    exact ⟨⟨h.key_eq, hcounted.pqCalls_eq⟩, hzero⟩
  | halves r w =>
    obtain ⟨hcounted, hzero⟩ := NoiseWriter.Counted.sendRaw
      (K := K) ⟨h.key_eq, h.pqCalls_eq⟩ payload
    exact ⟨⟨hcounted.key_eq, hcounted.pqCalls_eq⟩, hzero⟩

/-- Nothing but sending touches the counter. -/
theorem Counted.congr {e' : Endpoint} (h : e.Counted key) (hkey : e'.pqKey = e.pqKey)
    (hcounter : e'.sendCounter = e.sendCounter) (hcalls : e'.pqCalls = e.pqCalls) :
    e'.Counted key :=
  ⟨hkey.trans h.key_eq, by rw [hcalls, hcounter, h.pqCalls_eq]⟩

theorem intoSplit_eq (e : Endpoint) : e.intoSplit.pqKey = e.pqKey ∧
    e.intoSplit.sendCounter = e.sendCounter ∧ e.intoSplit.pqCalls = e.pqCalls := by
  cases e <;> exact ⟨rfl, rfl, rfl⟩

theorem drain_eq (e : Endpoint) : e.drain.pqKey = e.pqKey ∧
    e.drain.sendCounter = e.sendCounter ∧ e.drain.pqCalls = e.pqCalls := by
  cases e <;> exact ⟨rfl, rfl, rfl⟩

theorem recvRaw_feed_eq (e : Endpoint) (bytes : Bytes) :
    ((e.feed bytes).recvRaw K).pqKey = e.pqKey ∧
      ((e.feed bytes).recvRaw K).sendCounter = e.sendCounter ∧
      ((e.feed bytes).recvRaw K).pqCalls = e.pqCalls := by
  cases e <;> exact ⟨rfl, rfl, rfl⟩

end Endpoint

/-! ### Both ends -/

namespace Connection

theorem endpoint_set (c : Connection) (e : Endpoint) (side side' : Side) :
    (c.set e side).endpoint side' = if side' = side then e else c.endpoint side' := by
  cases side <;> cases side' <;> rfl

/-- Does the action send something from this side? -/
def sendsFrom (side : Side) : NoiseAction → Bool
  | .send side' payload => decide (side' = side ∧ payload ≠ [])
  | _ => false

/-- **One action** keeps both ends counting, and leaves a counter at zero only if it did not send
from there. -/
theorem counted_step {c : Connection} (h : ∀ side, (c.endpoint side).Counted key)
    (a : NoiseAction) (side : Side) :
    ((c.step K a).endpoint side).Counted key ∧
      (((c.step K a).endpoint side).sendCounter = 0 ↔
        (c.endpoint side).sendCounter = 0 ∧ sendsFrom side a = false) := by
  cases a with
  | send side' payload =>
    rw [step, endpoint_set]
    by_cases hside : side = side'
    · obtain ⟨hcounted, hzero⟩ := (h side').sendRaw (K := K) payload
      rw [if_pos hside, hside]
      refine ⟨hcounted, hzero.trans (and_congr_right fun _ => ?_)⟩
      simp [sendsFrom]
    · rw [if_neg hside]
      refine ⟨h side, (and_iff_left ?_).symm⟩
      simp [sendsFrom, Ne.symm hside]
  | intoSplit side' =>
    rw [step, endpoint_set]
    obtain ⟨hkey, hcounter, hcalls⟩ := (c.endpoint side').intoSplit_eq
    by_cases hside : side = side'
    · rw [if_pos hside, hside, hcounter]
      exact ⟨(h side').congr hkey hcounter hcalls, by simp [sendsFrom]⟩
    · rw [if_neg hside]
      exact ⟨h side, by simp [sendsFrom]⟩
  | recv side' =>
    rw [step, endpoint_set, endpoint_set]
    by_cases hside : side = side'
    · obtain ⟨hkey, hcounter, hcalls⟩ := (c.endpoint side').recvRaw_feed_eq (K := K)
        (c.endpoint side'.other).inFlight
      rw [if_pos hside, hside, hcounter]
      exact ⟨(h side').congr hkey hcounter hcalls, by simp [sendsFrom]⟩
    · rw [if_neg hside]
      obtain ⟨hkey, hcounter, hcalls⟩ := (c.endpoint side'.other).drain_eq
      by_cases hother : side = side'.other
      · rw [if_pos hother, hother, hcounter]
        exact ⟨(h side'.other).congr hkey hcounter hcalls, by simp [sendsFrom]⟩
      · rw [if_neg hother]
        exact ⟨h side, by simp [sendsFrom]⟩

/-- **Any interleaving** keeps both ends counting. A counter is at zero exactly if nothing was sent
from there. -/
theorem counted_run {c : Connection} (h : ∀ side, (c.endpoint side).Counted key)
    (actions : List NoiseAction) (side : Side) :
    ((c.run K actions).endpoint side).Counted key ∧
      (((c.run K actions).endpoint side).sendCounter = 0 ↔
        (c.endpoint side).sendCounter = 0 ∧ ∀ a ∈ actions, sendsFrom side a = false) := by
  induction actions generalizing c with
  | nil => exact ⟨h side, by simp [run]⟩
  | cons a actions ih =>
    obtain ⟨hcounted, hzero⟩ := ih fun side => (counted_step (K := K) h a side).1
    refine ⟨hcounted, hzero.trans ?_⟩
    rw [(counted_step h a side).2, List.forall_mem_cons, and_assoc]

theorem counted_established (initiator responder : TransportState) (key : Bytes) (side : Side) :
    ((established initiator responder key).endpoint side).Counted key ∧
      ((established initiator responder key).endpoint side).sendCounter = 0 := by
  cases side <;> exact ⟨⟨rfl, rfl⟩, rfl⟩

end Connection

/-- The nonces of a counter that did not run over are different. -/
theorem nodup_countedPairs {n : ℕ} (hn : n ≤ 2 ^ 64) : (countedPairs key n).Nodup := by
  refine List.Nodup.map_on (fun i hi j hj heq => ?_) List.nodup_range
  have hbytes := List.append_cancel_left (Prod.mk.inj heq).2
  rw [List.mem_range] at hi hj
  exact leBytes_inj (by omega) (by omega) hbytes

theorem zero_mem_countedPairs {n : ℕ} (hn : n ≠ 0) : (key, pqNonce 0) ∈ countedPairs key n :=
  List.mem_map_of_mem (List.mem_range.mpr (Nat.pos_of_ne_zero hn))

/-- **When no pair of key and nonce is used twice** in a connection, over every interleaving of the
two ends: when at most one of them has ever sent something. -/
theorem pq_nonce_unique_iff (K : Ciphers) (initiator responder : TransportState) (key : Bytes)
    (actions : List NoiseAction)
    (hcounters : ∀ side, (((Connection.established initiator responder key).run K
      actions).endpoint side).sendCounter ≤ 2 ^ 64) :
    ((Connection.established initiator responder key).run K actions).pqCalls.Nodup ↔
      ¬ ((∃ p, p ≠ [] ∧ .send .initiator p ∈ actions) ∧
        ∃ p, p ≠ [] ∧ .send .responder p ∈ actions) := by
  have hcounted := fun side => (Connection.counted_run (K := K)
    (fun side => (Connection.counted_established initiator responder key side).1) actions side).1
  have hzero : ∀ side, (((Connection.established initiator responder key).run K
      actions).endpoint side).sendCounter = 0 ↔ ¬ ∃ p, p ≠ [] ∧ .send side p ∈ actions := by
    intro side
    rw [(Connection.counted_run (fun side => (Connection.counted_established initiator responder key
      side).1) actions side).2, and_iff_right (Connection.counted_established _ _ _ side).2]
    constructor
    · rintro hnone ⟨p, hp, hmem⟩
      have := hnone _ hmem
      simp [Connection.sendsFrom, hp] at this
    · intro hnone a ha
      cases a with
      | send side' p =>
        rw [Connection.sendsFrom, decide_eq_false_iff_not]
        rintro ⟨rfl, hp⟩
        exact hnone ⟨p, hp, ha⟩
      | recv _ => rfl
      | intoSplit _ => rfl
  generalize (Connection.established initiator responder key).run K actions = c at *
  have hi : c.initiator.pqCalls = countedPairs key c.initiator.sendCounter :=
    (hcounted .initiator).pqCalls_eq
  have hr : c.responder.pqCalls = countedPairs key c.responder.sendCounter :=
    (hcounted .responder).pqCalls_eq
  rw [Connection.pqCalls, hi, hr, List.nodup_append', not_and_or, ← hzero .initiator,
    ← hzero .responder]
  constructor
  · rintro ⟨-, -, hdisjoint⟩
    by_contra hboth
    obtain ⟨hinit, hresp⟩ := not_or.mp hboth
    exact hdisjoint (zero_mem_countedPairs hinit) (zero_mem_countedPairs hresp)
  · intro hone
    refine ⟨nodup_countedPairs (hcounters .initiator),
      nodup_countedPairs (hcounters .responder), ?_⟩
    rcases hone with h0 | h0
    · rw [show c.initiator.sendCounter = 0 from h0]
      exact List.disjoint_nil_left _
    · rw [show c.responder.sendCounter = 0 from h0]
      exact List.disjoint_nil_right _

/-- One end sends before and after splitting, the other one only listens. -/
theorem pq_nonce_unique_iff_one_way :
    ((Connection.established ⟨.initiator, 1, 1⟩ ⟨.responder, 1, 1⟩ (List.replicate 32 7)).run
      Ciphers.sample [.send .initiator [1, 2], .recv .responder, .intoSplit .initiator,
        .send .initiator [3]]).pqCalls.Nodup := by
  have hcounters : ∀ side, (((Connection.established ⟨.initiator, 1, 1⟩ ⟨.responder, 1, 1⟩
      (List.replicate 32 7)).run Ciphers.sample [.send .initiator [1, 2], .recv .responder,
        .intoSplit .initiator, .send .initiator [3]]).endpoint side).sendCounter ≤ 2 ^ 64 := by
    intro side
    cases side <;> decide +kernel
  exact (pq_nonce_unique_iff Ciphers.sample ⟨.initiator, 1, 1⟩ ⟨.responder, 1, 1⟩
    (List.replicate 32 7) _ hcounters).mpr (by simp)

/-- **Both ends send one byte, and both encrypt it with the nonce zero.** -/
theorem pq_nonce_reused :
    ((Connection.established ⟨.initiator, 1, 1⟩ ⟨.responder, 1, 1⟩ (List.replicate 32 7)).run
      Ciphers.sample [.send .initiator [1], .send .responder [2]]).pqCalls =
        [(List.replicate 32 7, pqNonce 0), (List.replicate 32 7, pqNonce 0)] ∧
    ¬ ((Connection.established ⟨.initiator, 1, 1⟩ ⟨.responder, 1, 1⟩ (List.replicate 32 7)).run
      Ciphers.sample [.send .initiator [1], .send .responder [2]]).pqCalls.Nodup := by
  decide +kernel

end Arkos
