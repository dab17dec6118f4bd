import Arkos.Lib.Socket
import Arkos.Network.Noise

/-!
# Setting up a connection

Before the first message of the protocol the two ends of a connection exchange five frames: three of
the Noise handshake, which `handshake` writes and reads as the library says whose turn it is, and
two that carry an ML-KEM key and a ciphertext through the Noise channel. `connect` and `accept` are
programs on a socket. Each of their writes and reads is a move of its own, and the network may hold
bytes back for as long as it likes, so the moves of the two ends come in many orders.

The Noise library, ML-KEM and HKDF are parameters, and so is what they draw at random. What is
documented of them, for two ends that were built for each other, is `Snow.Handshakes` and
`MlKem.Lawful`. The socket does not fail. The loop of `handshake` has a bound, which is never
reached.

## Main definitions

* `Snow`, `MlKem` — the parameters
* `handshake`, `noiseSendRaw`, `noiseRecvRaw`, `mlkemInitiator`, `mlkemResponder`
* `connect`, `accept`

## Main results

* `exec_setup` — the set-up in one order
* `setup_agrees` — in every order
-/

namespace Arkos

/-- A program on the socket. -/
abbrev SocketProgram := Socket.Program UInt8

/-- What `snow` provides, for the pattern of the node. -/
structure Snow where
  /-- `HandshakeState`. -/
  State : Type
  /-- What the two directions of a finished handshake are encrypted with. -/
  Keys : Type
  ciphers : Keys → Ciphers
  isHandshakeFinished : State → Bool
  isMyTurn : State → Bool
  /-- `write_message`, with the length of the buffer. -/
  writeMessage : State → Bytes → ℕ → Except NoiseError (Bytes × State)
  /-- `read_message`, with the length of the buffer. -/
  readMessage : State → Bytes → ℕ → Except NoiseError State
  intoTransportMode : State → Except NoiseError (Keys × TransportState)

/-- What `ml_kem` and `hkdf` provide. -/
structure MlKem where
  DecapsulationKey : Type
  EncapsulationKey : Type
  toBytes : EncapsulationKey → Bytes
  newFromSlice : Bytes → Option EncapsulationKey
  /-- The ciphertext and the shared secret, for what is drawn at random. -/
  encapsulate : EncapsulationKey → Bytes → Bytes × Bytes
  decapsulateSlice : DecapsulationKey → Bytes → Option Bytes
  /-- `derive_pq_key`. -/
  derivePqKey : Bytes → Bytes

/-- Why the set-up fails. -/
inductive SetupError where
  | noise (e : NoiseError)
  | handshakeTooLarge (len : ℕ)
  | mlkemTooLarge (len : ℕ)
  | decapsulation
  | invalidKey
  /-- The bound on the loop of the model. -/
  | unfinished
  deriving DecidableEq, Repr

/-- The text of the error. -/
def SetupError.message : SetupError → String
  | .noise e => e.message
  | .handshakeTooLarge len => "noise handshake message too large: " ++ toString len ++ " bytes"
  | .mlkemTooLarge len => "ML-KEM handshake message too large: " ++ toString len ++ " bytes"
  | .decapsulation => "ML-KEM-768 decapsulation failed (ciphertext size mismatch)"
  | .invalidKey => "invalid ML-KEM-768 encapsulation key from initiator"
  | .unfinished => "unfinished"

open Socket Socket.Program

/-! ### The programs -/

section

variable {β : Type}

/-- A message is written behind its length. -/
def writeFrame (message : Bytes) (next : SocketProgram β) : SocketProgram β :=
  .write (beBytes 4 message.length) (.write message next)

/-- A length is read, and a message of this length unless it is above the limit. -/
def readFrame (limit : ℕ) (tooLarge : ℕ → SetupError)
    (next : ℕ → Bytes → SocketProgram (Except SetupError β)) :
    SocketProgram (Except SetupError β) :=
  .readExact 4 fun lenBuf =>
    let len := ofBeBytes lenBuf
    if limit < len then .ret (.error (tooLarge len)) else .readExact len (next len)

end

/-- `handshake`, with a bound on its loop. -/
def handshake (N : Snow) : ℕ → N.State → SocketProgram (Except SetupError (N.Keys × TransportState))
  | 0, _ => .ret (.error .unfinished)
  | fuel + 1, state =>
    if N.isHandshakeFinished state then
      match N.intoTransportMode state with
      | .error e => .ret (.error (.noise e))
      | .ok transport => .ret (.ok transport)
    else if N.isMyTurn state then
      match N.writeMessage state [] maxNoiseMessage with
      | .error e => .ret (.error (.noise e))
      | .ok (message, state) => writeFrame message (handshake N fuel state)
    else
      readFrame maxNoiseMessage .handshakeTooLarge fun len message =>
        match N.readMessage state message len with
        | .error e => .ret (.error (.noise e))
        | .ok state => handshake N fuel state

/-- `noise_send_raw`. -/
def noiseSendRaw (K : Ciphers) (t : TransportState) (plaintext : Bytes) :
    SocketProgram (Except SetupError TransportState) :=
  match t.writeMessage K plaintext (plaintext.length + 16) with
  | .error e => .ret (.error (.noise e))
  | .ok (message, t) => writeFrame message (.ret (.ok t))

/-- `noise_recv_raw`. -/
def noiseRecvRaw (K : Ciphers) (t : TransportState) :
    SocketProgram (Except SetupError (Bytes × TransportState)) :=
  readFrame noiseMaxMessage .mlkemTooLarge fun len ciphertext =>
    match t.readMessage K ciphertext len with
    | .error e => .ret (.error (.noise e))
    | .ok (plaintext, t) => .ret (.ok (plaintext, t))

/-- `mlkem_initiator`, for a generated key pair. -/
def mlkemInitiator (M : MlKem) (K : Ciphers) (dk : M.DecapsulationKey) (ek : M.EncapsulationKey)
    (t : TransportState) : SocketProgram (Except SetupError (Bytes × TransportState)) :=
  (noiseSendRaw K t (M.toBytes ek)).andThen fun t =>
    (noiseRecvRaw K t).andThen fun (ctBytes, t) =>
      match M.decapsulateSlice dk ctBytes with
      | none => .ret (.error .decapsulation)
      | some ss => .ret (.ok (M.derivePqKey ss, t))

/-- `mlkem_responder`, with what `encapsulate` draws at random. -/
def mlkemResponder (M : MlKem) (K : Ciphers) (random : Bytes) (t : TransportState) :
    SocketProgram (Except SetupError (Bytes × TransportState)) :=
  (noiseRecvRaw K t).andThen fun (ekBytes, t) =>
    match M.newFromSlice ekBytes with
    | none => .ret (.error .invalidKey)
    | some ek =>
      (noiseSendRaw K t (M.encapsulate ek random).1).andThen fun t =>
        .ret (.ok (M.derivePqKey (M.encapsulate ek random).2, t))

/-- `NoiseConn::connect`, from the state that was built. -/
def connect (N : Snow) (M : MlKem) (fuel : ℕ) (state : N.State) (dk : M.DecapsulationKey)
    (ek : M.EncapsulationKey) : SocketProgram (Except SetupError (N.Keys × NoiseConn)) :=
  (handshake N fuel state).andThen fun (keys, t) =>
    (mlkemInitiator M (N.ciphers keys) dk ek t).andThen fun (pqKey, t) =>
      .ret (.ok (keys, .established t pqKey))

/-- `NoiseConn::accept`, from the state that was built. -/
def accept (N : Snow) (M : MlKem) (fuel : ℕ) (state : N.State) (random : Bytes) :
    SocketProgram (Except SetupError (N.Keys × NoiseConn)) :=
  (handshake N fuel state).andThen fun (keys, t) =>
    (mlkemResponder M (N.ciphers keys) random t).andThen fun (pqKey, t) =>
      .ret (.ok (keys, .established t pqKey))

/-! ### Two ends that were built for each other -/

/-- The two states complete the pattern in `n` messages: whoever has the turn writes a message that
the other reads, and at the end they hold the same keys, each for its own side. -/
inductive Snow.Handshakes (N : Snow) (keys : N.Keys) : N.State → N.State → ℕ → Prop
  | finished {i r} : N.isHandshakeFinished i = true → N.isHandshakeFinished r = true →
      N.intoTransportMode i = .ok (keys, ⟨.initiator, 0, 0⟩) →
      N.intoTransportMode r = .ok (keys, ⟨.responder, 0, 0⟩) → Handshakes N keys i r 0
  | initiator {i r i' r' message n} : N.isHandshakeFinished i = false →
      N.isHandshakeFinished r = false → N.isMyTurn i = true → N.isMyTurn r = false →
      N.writeMessage i [] maxNoiseMessage = .ok (message, i') → message.length ≤ maxNoiseMessage →
      N.readMessage r message message.length = .ok r' → Handshakes N keys i' r' n →
      Handshakes N keys i r (n + 1)
  | responder {i r i' r' message n} : N.isHandshakeFinished i = false →
      N.isHandshakeFinished r = false → N.isMyTurn i = false → N.isMyTurn r = true →
      N.writeMessage r [] maxNoiseMessage = .ok (message, r') → message.length ≤ maxNoiseMessage →
      N.readMessage i message message.length = .ok i' → Handshakes N keys i' r' n →
      Handshakes N keys i r (n + 1)

/-- A key pair of ML-KEM-768: the sizes, and that decapsulating undoes encapsulating. -/
structure MlKem.Lawful (M : MlKem) (dk : M.DecapsulationKey) (ek : M.EncapsulationKey) : Prop where
  length_toBytes : (M.toBytes ek).length = 1184
  newFromSlice_toBytes : M.newFromSlice (M.toBytes ek) = some ek
  length_encapsulate : ∀ random, (M.encapsulate ek random).1.length = 1088
  decapsulateSlice_encapsulate : ∀ random,
    M.decapsulateSlice dk (M.encapsulate ek random).1 = some (M.encapsulate ek random).2

/-! ### The set-up in one order -/

variable {N : Snow} {M : MlKem} {K : Ciphers} {β γ : Type}

/-- The message goes out behind its length. -/
abbrev SendsFrame (message : Bytes) (p q : SocketProgram β) : Prop :=
  Sends (beBytes 4 message.length) message p q

/-- The message is read behind its length. -/
abbrev ReceivesFrame (message : Bytes) (p q : SocketProgram β) : Prop :=
  Receives (beBytes 4 message.length) message p q

/-- A frame within the limit is read. -/
theorem receives_readFrame {limit : ℕ} (tooLarge : ℕ → SetupError)
    (next : ℕ → Bytes → SocketProgram (Except SetupError β)) {message : Bytes}
    (hlen : message.length ≤ limit) (hsmall : message.length ≤ maxNoiseMessage) :
    ReceivesFrame message (readFrame limit tooLarge next) (next message.length message) := by
  have hbytes : ofBeBytes (beBytes 4 message.length) = message.length := by
    rw [maxNoiseMessage] at hsmall
    rw [ofBeBytes_beBytes, Nat.mod_eq_of_lt]
    omega
  refine ⟨_, next message.length, by rw [length_beBytes]; rfl, ?_, rfl⟩
  simp only [hbytes, if_neg (Nat.not_lt.mpr hlen)]

theorem sends_handshake {state state' : N.State} {message : Bytes} (fuel : ℕ)
    (hunfinished : N.isHandshakeFinished state = false) (hturn : N.isMyTurn state = true)
    (hwrite : N.writeMessage state [] maxNoiseMessage = .ok (message, state')) :
    SendsFrame message (handshake N (fuel + 1) state) (handshake N fuel state') := by
  simp only [Sends, handshake, hunfinished, hturn, hwrite, if_true, Bool.false_eq_true, if_false,
    writeFrame]

theorem receives_handshake {state state' : N.State} {message : Bytes} (fuel : ℕ)
    (hunfinished : N.isHandshakeFinished state = false) (hturn : N.isMyTurn state = false)
    (hlen : message.length ≤ maxNoiseMessage)
    (hread : N.readMessage state message message.length = .ok state') :
    ReceivesFrame message (handshake N (fuel + 1) state) (handshake N fuel state') := by
  simp only [handshake, hunfinished, hturn, Bool.false_eq_true, if_false]
  have h := receives_readFrame (fun len => .handshakeTooLarge len) (fun len message =>
    match N.readMessage state message len with
    | .error e => .ret (.error (.noise e))
    | .ok state => handshake N fuel state) hlen hlen
  simpa only [hread] using h

/-- **The Noise handshake**, four moves for each message, and then whatever follows. -/
theorem exec_handshake {keys : N.Keys} {i r : N.State} {n : ℕ} (h : N.Handshakes keys i r n) :
    ∀ {fuel fuel' : ℕ}, n < fuel → n < fuel' →
    ∀ (f : N.Keys × TransportState → SocketProgram (Except SetupError β))
      (f' : N.Keys × TransportState → SocketProgram (Except SetupError γ)),
      ∃ is, is.length = 4 * n ∧
        Interleave.exec step is
          ⟨(handshake N fuel i).andThen f, (handshake N fuel' r).andThen f', [], []⟩ =
          some ⟨f (keys, ⟨.initiator, 0, 0⟩), f' (keys, ⟨.responder, 0, 0⟩), [], []⟩ := by
  induction h with
  | finished hi hr hti htr =>
    intro fuel fuel' hfuel hfuel' f f'
    obtain ⟨fuel, rfl⟩ := Nat.exists_eq_add_of_lt hfuel
    obtain ⟨fuel', rfl⟩ := Nat.exists_eq_add_of_lt hfuel'
    refine ⟨[], rfl, ?_⟩
    simp only [handshake, hi, hr, hti, htr, if_true]
    rfl
  | @initiator i r i' r' message n hi hr hti htr hwrite hlen hread _ ih =>
    intro fuel fuel' hfuel hfuel' f f'
    obtain ⟨fuel, rfl⟩ : ∃ k, fuel = k + 1 := ⟨fuel - 1, by omega⟩
    obtain ⟨fuel', rfl⟩ : ∃ k, fuel' = k + 1 := ⟨fuel' - 1, by omega⟩
    obtain ⟨is, his, hrun⟩ := ih (Nat.lt_of_succ_lt_succ hfuel) (Nat.lt_of_succ_lt_succ hfuel') f f'
    refine ⟨[true, true, false, false] ++ is, by rw [List.length_append, his]; simp; omega, ?_⟩
    exact Interleave.exec_append.mpr
      ⟨_, exec_toRight ((sends_handshake fuel hi hti hwrite).andThen f)
      ((receives_handshake fuel' hr htr hlen hread).andThen f'), hrun⟩
  | @responder i r i' r' message n hi hr hti htr hwrite hlen hread _ ih =>
    intro fuel fuel' hfuel hfuel' f f'
    obtain ⟨fuel, rfl⟩ : ∃ k, fuel = k + 1 := ⟨fuel - 1, by omega⟩
    obtain ⟨fuel', rfl⟩ : ∃ k, fuel' = k + 1 := ⟨fuel' - 1, by omega⟩
    obtain ⟨is, his, hrun⟩ := ih (Nat.lt_of_succ_lt_succ hfuel) (Nat.lt_of_succ_lt_succ hfuel') f f'
    refine ⟨[false, false, true, true] ++ is, by rw [List.length_append, his]; simp; omega, ?_⟩
    exact Interleave.exec_append.mpr
      ⟨_, exec_toLeft ((receives_handshake fuel hi hti hlen hread).andThen f)
      ((sends_handshake fuel' hr htr hwrite).andThen f'), hrun⟩

/-- A Noise message is sent in one frame. -/
theorem sends_noiseSendRaw (K : Ciphers) (t : TransportState) {plaintext : Bytes}
    (hlen : plaintext.length + tagLength ≤ maxNoiseMessage) :
    SendsFrame (K.noiseSeal t.side t.sendNonce plaintext) (noiseSendRaw K t plaintext)
      (.ret (.ok { t with sendNonce := t.sendNonce + 1 })) := by
  have hfits : ¬ (maxNoiseMessage < plaintext.length + tagLength ∨
      plaintext.length + 16 < plaintext.length + tagLength) := by
    rw [tagLength] at hlen ⊢
    omega
  simp only [Sends, noiseSendRaw, TransportState.writeMessage, if_neg hfits]
  rfl

/-- And received by the other side when it is its turn in the count. -/
theorem receives_noiseRecvRaw (hK : K.Lawful) (t : TransportState) {plaintext : Bytes}
    (hlen : plaintext.length + tagLength ≤ maxNoiseMessage) :
    ReceivesFrame (K.noiseSeal t.side.other t.recvNonce plaintext) (noiseRecvRaw K t)
      (.ret (.ok (plaintext, { t with recvNonce := t.recvNonce + 1 }))) := by
  have hseal := hK.length_noiseSeal t.side.other t.recvNonce plaintext
  have hmax : (K.noiseSeal t.side.other t.recvNonce plaintext).length ≤ maxNoiseMessage := by omega
  have hread : t.readMessage K (K.noiseSeal t.side.other t.recvNonce plaintext)
      (K.noiseSeal t.side.other t.recvNonce plaintext).length =
      .ok (plaintext, { t with recvNonce := t.recvNonce + 1 }) := by
    rw [TransportState.readMessage, hseal, if_neg (by omega), if_neg (by omega),
      hK.noiseOpen_noiseSeal _ _ _ hlen]
  have h := receives_readFrame (fun len => .mlkemTooLarge len) (fun len ciphertext =>
    match t.readMessage K ciphertext len with
    | .error e => .ret (.error (.noise e))
    | .ok (plaintext, t) => .ret (.ok (plaintext, t)))
        (hmax.trans (by decide : maxNoiseMessage ≤ noiseMaxMessage)) hmax
  simp only [hread] at h
  exact h

/-- **The exchange of the post-quantum key**, eight moves. -/
theorem exec_mlkem (hK : K.Lawful) {dk : M.DecapsulationKey} {ek : M.EncapsulationKey}
    (hM : M.Lawful dk ek) (random : Bytes)
    (f : Bytes × TransportState → SocketProgram (Except SetupError β))
    (f' : Bytes × TransportState → SocketProgram (Except SetupError γ)) :
    Interleave.exec step [true, true, false, false, false, false, true, true]
      ⟨(mlkemInitiator M K dk ek ⟨.initiator, 0, 0⟩).andThen f,
        (mlkemResponder M K random ⟨.responder, 0, 0⟩).andThen f', [], []⟩ =
      some ⟨f (M.derivePqKey (M.encapsulate ek random).2, ⟨.initiator, 1, 1⟩),
        f' (M.derivePqKey (M.encapsulate ek random).2, ⟨.responder, 1, 1⟩), [], []⟩ := by
  have hek : (M.toBytes ek).length + tagLength ≤ maxNoiseMessage := by
    rw [hM.length_toBytes]
    decide
  have hct : (M.encapsulate ek random).1.length + tagLength ≤ maxNoiseMessage := by
    rw [hM.length_encapsulate]
    decide
  rw [mlkemInitiator, mlkemResponder]
  -- the key crosses to the right
  show Interleave.exec step ([true, true, false, false] ++ [false, false, true, true]) _ = _
  refine Interleave.exec_append.mpr ⟨_, exec_toRight
    (((sends_noiseSendRaw K ⟨.initiator, 0, 0⟩ hek).andThen _).andThen f)
    (((receives_noiseRecvRaw hK ⟨.responder, 0, 0⟩ hek).andThen _).andThen f'), ?_⟩
  simp only [andThen_ok, hM.newFromSlice_toBytes]
  -- and the ciphertext back
  refine (exec_toLeft
    (((receives_noiseRecvRaw hK ⟨.initiator, 1, 0⟩ hct).andThen _).andThen f)
    (((sends_noiseSendRaw K ⟨.responder, 0, 1⟩ hct).andThen _).andThen f')).trans ?_
  simp only [andThen_ok, hM.decapsulateSlice_encapsulate]

/-- **The set-up in one order**: as if the two ends took turns. -/
theorem exec_setup {keys : N.Keys} {i r : N.State} {n : ℕ} (h : N.Handshakes keys i r n)
    {fuel fuel' : ℕ} (hfuel : n < fuel) (hfuel' : n < fuel') (hK : (N.ciphers keys).Lawful)
    {dk : M.DecapsulationKey} {ek : M.EncapsulationKey} (hM : M.Lawful dk ek) (random : Bytes) :
    ∃ is, is.length = 4 * n + 8 ∧
      Interleave.exec step is ⟨connect N M fuel i dk ek, accept N M fuel' r random, [], []⟩ =
        some ⟨.ret (.ok (keys, .established ⟨.initiator, 1, 1⟩
            (M.derivePqKey (M.encapsulate ek random).2))),
          .ret (.ok (keys, .established ⟨.responder, 1, 1⟩
            (M.derivePqKey (M.encapsulate ek random).2))), [], []⟩ := by
  obtain ⟨is, his, hrun⟩ := exec_handshake h hfuel hfuel' _ _
  exact ⟨is ++ [true, true, false, false, false, false, true, true],
    by rw [List.length_append, his]; rfl,
    Interleave.exec_append.mpr ⟨_, hrun, exec_mlkem hK hM random _ _⟩⟩

/-- **The two ends agree, whoever moves when.** For ends that were built for each other the set-up
takes `4 * n + 8` moves in every order, `n` being the number of messages in the pattern. It cannot
get stuck on the way: who can go no further has two connections whose halves are paired in both
directions, under the key that was encapsulated, and nothing is left on the wire. -/
theorem setup_agrees (N : Snow) (M : MlKem) (keys : N.Keys) (i r : N.State) (n : ℕ)
    (h : N.Handshakes keys i r n) (fuel fuel' : ℕ) (hfuel : n < fuel) (hfuel' : n < fuel')
    (hK : (N.ciphers keys).Lawful) (dk : M.DecapsulationKey) (ek : M.EncapsulationKey)
    (hM : M.Lawful dk ek) (random : Bytes) :
    ∃ c c' : NoiseConn, Paired c.writeHalf c'.readHalf ∧ Paired c'.writeHalf c.readHalf ∧
      c.pqKey = M.derivePqKey (M.encapsulate ek random).2 ∧ c.pqKey = c'.pqKey ∧
      ∀ moves s, Interleave.exec step moves
          ⟨connect N M fuel i dk ek, accept N M fuel' r random, [], []⟩ = some s →
        moves.length ≤ 4 * n + 8 ∧
        ((∀ side, step side s = none) ↔ moves.length = 4 * n + 8) ∧
        ((∀ side, step side s = none) →
          s = ⟨.ret (.ok (keys, c)), .ret (.ok (keys, c')), [], []⟩) := by
  refine ⟨.established ⟨.initiator, 1, 1⟩ (M.derivePqKey (M.encapsulate ek random).2),
    .established ⟨.responder, 1, 1⟩ (M.derivePqKey (M.encapsulate ek random).2),
    ⟨rfl, rfl, rfl, rfl⟩, ⟨rfl, rfl, rfl, rfl⟩, rfl, rfl, fun moves s hmoves => ?_⟩
  obtain ⟨is, his, hrun⟩ := exec_setup h hfuel hfuel' hK hM random
  obtain ⟨rest, hrest, hlen⟩ := Interleave.exec_of_final commutes_step hrun
    (final_ret _ _ _ _) hmoves
  have hstuck := fun hs => Interleave.eq_final_of_stuck commutes_step hrun
    (final_ret _ _ _ _) hmoves hs
  refine ⟨by omega, ⟨fun hs => (hstuck hs).2.trans his, fun hfull => ?_⟩, fun hs => (hstuck hs).1⟩
  obtain rfl : rest = [] := List.length_eq_zero_iff.mp (by omega)
  obtain rfl := Option.some.inj hrest
  exact final_ret _ _ _ _

/-! ### Concrete parameters -/

/-- A handshake of three messages that carry nothing but their number. -/
def Snow.sample : Snow where
  State := Side × ℕ
  Keys := Unit
  ciphers _ := .sample
  isHandshakeFinished state := decide (3 ≤ state.2)
  isMyTurn state := decide (state.1 = if state.2 % 2 = 0 then .initiator else .responder)
  writeMessage state _ _ := .ok ([UInt8.ofNat state.2], (state.1, state.2 + 1))
  readMessage state message _ :=
    if message = [UInt8.ofNat state.2] then .ok (state.1, state.2 + 1) else .error .decrypt
  intoTransportMode state := .ok ((), ⟨state.1, 0, 0⟩)

/-- A ciphertext that begins with the secret. -/
def MlKem.sample : MlKem where
  DecapsulationKey := Unit
  EncapsulationKey := Unit
  toBytes _ := List.replicate 1184 1
  newFromSlice bytes := if bytes.length = 1184 then some () else none
  encapsulate _ random :=
    ((random ++ List.replicate 1088 0).take 1088, (random ++ List.replicate 1088 0).take 32)
  decapsulateSlice _ ciphertext :=
    if ciphertext.length = 1088 then some (ciphertext.take 32) else none
  derivePqKey ss := ss

theorem Snow.handshakes_sample : Snow.sample.Handshakes () (.initiator, 0) (.responder, 0) 3 :=
  .initiator rfl rfl rfl rfl rfl (by decide) rfl
    (.responder rfl rfl rfl rfl rfl (by decide) rfl
      (.initiator rfl rfl rfl rfl rfl (by decide) rfl (.finished rfl rfl rfl rfl)))

theorem MlKem.lawful_sample : MlKem.sample.Lawful () () where
  length_toBytes := by
    simp only [sample, List.length_replicate]
  newFromSlice_toBytes := by
    simp only [sample, List.length_replicate, if_true]
  length_encapsulate random := by
    simp only [sample, List.length_take, List.length_append, List.length_replicate]
    omega
  decapsulateSlice_encapsulate random := by
    have hlen : ((random ++ List.replicate 1088 (0 : UInt8)).take 1088).length = 1088 := by
      rw [List.length_take, List.length_append, List.length_replicate]
      omega
    simp only [sample, if_pos hlen, List.take_take]
    rw [min_eq_left (by omega)]

/-- Twenty moves, in any order. -/
theorem setup_agrees_sample :
    ∃ c c' : NoiseConn, Paired c.writeHalf c'.readHalf ∧ Paired c'.writeHalf c.readHalf ∧
      ∀ moves s, Interleave.exec step moves
          ⟨connect Snow.sample MlKem.sample 4 (.initiator, 0) () (),
            accept Snow.sample MlKem.sample 4 (.responder, 0) (List.replicate 32 9), [], []⟩ =
          some s →
        (∀ side, step side s = none) → moves.length = 20 ∧
          s = ⟨.ret (.ok ((), c)), .ret (.ok ((), c')), [], []⟩ := by
  obtain ⟨c, c', hto, hback, -, -, hmoves⟩ := setup_agrees Snow.sample MlKem.sample ()
    (.initiator, 0) (.responder, 0) 3 Snow.handshakes_sample 4 4 (by decide) (by decide)
    Ciphers.lawful_sample () () MlKem.lawful_sample (List.replicate 32 9)
  refine ⟨c, c', hto, hback, fun moves s hrun hstuck => ?_⟩
  obtain ⟨-, hlen, hend⟩ := hmoves moves s hrun
  exact ⟨hlen.mp hstuck, hend hstuck⟩

end Arkos
