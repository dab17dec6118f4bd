import Arkos.Crypto
import Arkos.Lib.Frames

/-!
# The encrypted transport

A payload is cut into chunks, every chunk is encrypted with the post-quantum key and then as a Noise
transport message, and goes out behind its length in four bytes. The receiving end undoes this one
frame at a time.

Noise and ChaCha20-Poly1305 are parameters. What the transport relies on (a tag of 16 bytes, and
that opening undoes sealing under the same key and nonce) is `Ciphers.Lawful`, and is asked for only
where it is used. The socket is an ordered byte stream that does not fail; a reader that finds too
few bytes gets an error, where the real one would wait for more until the connection is closed.

## Main definitions

* `Ciphers`, `TransportState`, `pqEncrypt`, `pqDecrypt`
* `NoiseWriter.sendRaw`, `NoiseReader.recvRaw`, and `NoiseConn` with its own copies of both

## Main results

* `NoiseWriter.sendRaw_eq_sendChunks` — the loop of `send_raw` sends the chunks of the payload
* `recvMany_sendAll` — a frame sent is a frame received
* `framing_round_trip_iff` — when payloads come back as they were sent
-/

namespace Arkos

/-- `NOISE_MAX_PLAINTEXT`. -/
def noiseMaxPlaintext : ℕ := 65487

/-- `NOISE_MAX_MESSAGE`. -/
def noiseMaxMessage : ℕ := 32 * 1024 * 1024

/-- The longest Noise message. -/
def maxNoiseMessage : ℕ := 65535

/-- The length of an authentication tag. -/
def tagLength : ℕ := 16

/-- The two ends of a connection. -/
inductive Side where
  | initiator
  | responder
  deriving DecidableEq, Repr

/-- The other end. -/
def Side.other : Side → Side
  | .initiator => .responder
  | .responder => .initiator

/-- What the transport takes from its libraries, for one established connection. -/
structure Ciphers where
  /-- The Noise transport message of a side, by its nonce. -/
  noiseSeal : Side → ℕ → Bytes → Bytes
  noiseOpen : Side → ℕ → Bytes → Option Bytes
  /-- ChaCha20-Poly1305, by key and nonce. -/
  pqSeal : Bytes → Bytes → Bytes → Bytes
  pqOpen : Bytes → Bytes → Bytes → Option Bytes

/-- What is documented of them: both add a tag, and opening undoes sealing. -/
structure Ciphers.Lawful (K : Ciphers) : Prop where
  length_noiseSeal : ∀ side n pt, (K.noiseSeal side n pt).length = pt.length + tagLength
  noiseOpen_noiseSeal : ∀ side n pt, pt.length + tagLength ≤ maxNoiseMessage →
    K.noiseOpen side n (K.noiseSeal side n pt) = some pt
  length_pqSeal : ∀ key nonce pt, (K.pqSeal key nonce pt).length = pt.length + tagLength
  pqOpen_pqSeal : ∀ key nonce pt, K.pqOpen key nonce (K.pqSeal key nonce pt) = some pt

/-- Why sending or receiving fails. -/
inductive NoiseError where
  /-- Noise refuses the length of a message or of a buffer. -/
  | input
  /-- Noise does not authenticate a message. -/
  | decrypt
  | tooLarge (len : ℕ)
  | pqAuthentication
  /-- The stream ends inside a frame. -/
  | unexpectedEof
  deriving DecidableEq, Repr

/-- The text of the error. -/
def NoiseError.message : NoiseError → String
  | .input => "input error"
  | .decrypt => "decrypt error"
  | .tooLarge len => "noise message too large: " ++ toString len ++ " bytes"
  | .pqAuthentication =>
    "PQ layer authentication failed — possible quantum attack or tampering"
  | .unexpectedEof => "unexpected end of file"

/-! ### The two layers -/

/-- The nonce of the post-quantum layer: four zero bytes and the counter. -/
def pqNonce (counter : ℕ) : Bytes := List.replicate 4 0 ++ leBytes 8 counter

/-- `pq_encrypt`. -/
def pqEncrypt (K : Ciphers) (pqKey : Bytes) (counter : ℕ) (plaintext : Bytes) : Bytes :=
  K.pqSeal pqKey (pqNonce counter) plaintext

/-- `pq_decrypt`. -/
def pqDecrypt (K : Ciphers) (pqKey : Bytes) (counter : ℕ) (ciphertext : Bytes) :
    Except NoiseError Bytes :=
  match K.pqOpen pqKey (pqNonce counter) ciphertext with
  | none => .error .pqAuthentication
  | some plaintext => .ok plaintext

/-- The Noise state after the handshake: both directions count their messages. -/
structure TransportState where
  side : Side
  sendNonce : ℕ
  recvNonce : ℕ

namespace TransportState

/-- `write_message` into a buffer of the given length. -/
def writeMessage (K : Ciphers) (t : TransportState) (payload : Bytes) (bufLen : ℕ) :
    Except NoiseError (Bytes × TransportState) :=
  if maxNoiseMessage < payload.length + tagLength ∨ bufLen < payload.length + tagLength then
    .error .input
  else .ok (K.noiseSeal t.side t.sendNonce payload, { t with sendNonce := t.sendNonce + 1 })

/-- `read_message` into a buffer of the given length. -/
def readMessage (K : Ciphers) (t : TransportState) (message : Bytes) (bufLen : ℕ) :
    Except NoiseError (Bytes × TransportState) :=
  if maxNoiseMessage < message.length then .error .input
  else if message.length < tagLength ∨ bufLen < message.length - tagLength then .error .decrypt
  else
    match K.noiseOpen t.side.other t.recvNonce message with
    | none => .error .decrypt
    | some payload => .ok (payload, { t with recvNonce := t.recvNonce + 1 })

end TransportState

/-! ### Sending -/

/-- `NoiseWriter`. The transport is shared with the reading half, which counts in the other
direction. -/
structure NoiseWriter where
  /-- What was written to the socket and is not yet received. -/
  writer : Bytes
  transport : TransportState
  pqKey : Bytes
  sendCounter : ℕ
  /-- Kept by the model only: the keys and nonces `pq_encrypt` was called with. -/
  pqCalls : List (Bytes × Bytes)

/-- `NoiseReader`. -/
structure NoiseReader where
  /-- What arrived at the socket and was not yet read. -/
  reader : Bytes
  transport : TransportState
  pqKey : Bytes
  recvCounter : ℕ

namespace NoiseWriter

/-- The body of the loop of `send_raw`, for one chunk. -/
def sendChunk (K : Ciphers) (w : NoiseWriter) (chunk : Bytes) :
    Except NoiseError Unit × NoiseWriter :=
  let pqCt := pqEncrypt K w.pqKey w.sendCounter chunk
  let w := { w with
    sendCounter := w.sendCounter + 1
    pqCalls := w.pqCalls ++ [(w.pqKey, pqNonce w.sendCounter)] }
  match w.transport.writeMessage K pqCt (noiseMaxPlaintext + 16) with
  | .error e => (.error e, w)
  | .ok (message, transport) =>
    (.ok (), { w with transport, writer := w.writer ++ beBytes 4 message.length ++ message })

/-- The loop of `send_raw`. -/
def sendLoop (K : Ciphers) (plaintext : Bytes) (offset : ℕ) (w : NoiseWriter) :
    Except NoiseError Unit × NoiseWriter :=
  if offset < plaintext.length then
    let stop := min (offset + noiseMaxPlaintext - 16) plaintext.length
    let chunk := (plaintext.drop offset).take (stop - offset)
    match w.sendChunk K chunk with
    | (.error e, w) => (.error e, w)
    | (.ok (), w) => sendLoop K plaintext stop w
  else (.ok (), w)
termination_by plaintext.length - offset
decreasing_by
  simp only [noiseMaxPlaintext]
  omega

/-- `NoiseWriter::send_raw`. -/
def sendRaw (K : Ciphers) (w : NoiseWriter) (plaintext : Bytes) :
    Except NoiseError Unit × NoiseWriter :=
  w.sendLoop K plaintext 0

/-- Successive calls of `send_raw`, up to the first that fails. -/
def sendAll (K : Ciphers) : NoiseWriter → List Bytes → Except NoiseError Unit × NoiseWriter
  | w, [] => (.ok (), w)
  | w, p :: ps =>
    match w.sendRaw K p with
    | (.error e, w) => (.error e, w)
    | (.ok (), w) => sendAll K w ps

end NoiseWriter

/-! ### Receiving -/

namespace NoiseReader

/-- `NoiseReader::recv_raw`. -/
def recvRaw (K : Ciphers) (r : NoiseReader) : Except NoiseError Bytes × NoiseReader :=
  match readExact 4 r.reader with
  | none => (.error .unexpectedEof, r)
  | some (lenBuf, rest) =>
    let len := ofBeBytes lenBuf
    let r := { r with reader := rest }
    if noiseMaxMessage < len then (.error (.tooLarge len), r)
    else
      match readExact len r.reader with
      | none => (.error .unexpectedEof, r)
      | some (ciphertext, rest) =>
        let r := { r with reader := rest }
        match r.transport.readMessage K ciphertext len with
        | .error e => (.error e, r)
        | .ok (noisePt, transport) =>
          let r := { r with transport }
          match pqDecrypt K r.pqKey r.recvCounter noisePt with
          | .error e => (.error e, r)
          | .ok plaintext => (.ok plaintext, { r with recvCounter := r.recvCounter + 1 })

/-- `n` successive calls of `recv_raw`, up to the first that fails. -/
def recvMany (K : Ciphers) : ℕ → NoiseReader → Except NoiseError (List Bytes) × NoiseReader
  | 0, r => (.ok [], r)
  | n + 1, r =>
    match r.recvRaw K with
    | (.error e, r) => (.error e, r)
    | (.ok p, r) =>
      match recvMany K n r with
      | (.error e, r) => (.error e, r)
      | (.ok ps, r) => (.ok (p :: ps), r)

end NoiseReader

/-! ### The chunks of a payload -/

/-- How much of a payload goes into one frame. -/
def maxChunk : ℕ := noiseMaxPlaintext - 16

theorem maxChunk_pos : 0 < maxChunk := by decide

/-- The pieces `send_raw` cuts a payload into. -/
def payloadChunks (payload : Bytes) : List Bytes := chunks maxChunk maxChunk_pos payload

namespace NoiseWriter

variable {K : Ciphers}

/-- The given chunks one after the other, up to the first that fails. -/
def sendChunks (K : Ciphers) : NoiseWriter → List Bytes → Except NoiseError Unit × NoiseWriter
  | w, [] => (.ok (), w)
  | w, c :: cs =>
    match w.sendChunk K c with
    | (.error e, w) => (.error e, w)
    | (.ok (), w) => sendChunks K w cs

/-- One turn of the loop takes the next chunk. -/
theorem payloadChunks_drop {plaintext : Bytes} {offset : ℕ} (h : offset < plaintext.length) :
    payloadChunks (plaintext.drop offset) =
      (plaintext.drop offset).take
          (min (offset + noiseMaxPlaintext - 16) plaintext.length - offset) ::
        payloadChunks (plaintext.drop
          (min (offset + noiseMaxPlaintext - 16) plaintext.length)) := by
  have hne : plaintext.drop offset ≠ [] := by
    rw [Ne, List.drop_eq_nil_iff]
    omega
  have hmax : maxChunk = 65471 := rfl
  have hplain : noiseMaxPlaintext = 65487 := rfl
  rw [payloadChunks, chunks_of_ne_nil _ hne, List.drop_drop]
  rcases Nat.le_total (offset + noiseMaxPlaintext - 16) plaintext.length with hle | hle
  · rw [min_eq_left hle, show offset + noiseMaxPlaintext - 16 = offset + maxChunk by omega,
      Nat.add_sub_cancel_left]
    rfl
  · rw [min_eq_right hle, List.drop_of_length_le (i := offset + maxChunk) (by omega),
      List.drop_of_length_le (le_refl plaintext.length),
      List.take_of_length_le (by rw [List.length_drop]; omega),
      List.take_of_length_le (by rw [List.length_drop])]
    rfl

/-- **The loop of `send_raw` sends the chunks of what remains.** -/
theorem sendLoop_eq_sendChunks (plaintext : Bytes) (offset : ℕ) (w : NoiseWriter) :
    w.sendLoop K plaintext offset = sendChunks K w (payloadChunks (plaintext.drop offset)) := by
  induction offset, w using sendLoop.induct K plaintext with
  | case1 offset w hlt stop chunk e w' hchunk =>
    rw [sendLoop, if_pos hlt, payloadChunks_drop hlt, sendChunks]
    dsimp only
    rw [hchunk]
  | case2 offset w hlt stop chunk w' hchunk ih =>
    rw [sendLoop, if_pos hlt, payloadChunks_drop hlt, sendChunks]
    dsimp only
    rw [hchunk]
    exact ih
  | case3 offset w hge =>
    rw [sendLoop, if_neg hge, List.drop_of_length_le (Nat.not_lt.mp hge), payloadChunks, chunks_nil,
      sendChunks]

theorem sendRaw_eq_sendChunks (w : NoiseWriter) (plaintext : Bytes) :
    w.sendRaw K plaintext = sendChunks K w (payloadChunks plaintext) := by
  rw [sendRaw, sendLoop_eq_sendChunks, List.drop_zero]

theorem sendChunks_append (w : NoiseWriter) (cs cs' : List Bytes) :
    sendChunks K w (cs ++ cs') =
      match sendChunks K w cs with
      | (.error e, w) => (.error e, w)
      | (.ok (), w) => sendChunks K w cs' := by
  induction cs generalizing w with
  | nil => rfl
  | cons c cs ih =>
    rw [List.cons_append, sendChunks, sendChunks]
    rcases w.sendChunk K c with ⟨e | ⟨⟩, w'⟩
    · rfl
    · exact ih w'

theorem sendAll_eq_sendChunks (w : NoiseWriter) (ps : List Bytes) :
    w.sendAll K ps = sendChunks K w (ps.flatMap payloadChunks) := by
  induction ps generalizing w with
  | nil => rfl
  | cons p ps ih =>
    rw [sendAll, List.flatMap_cons, sendChunks_append, sendRaw_eq_sendChunks]
    rcases sendChunks K w (payloadChunks p) with ⟨e | ⟨⟩, w'⟩
    · rfl
    · exact ih w'

end NoiseWriter

/-! ### A frame sent is a frame received -/

section

variable {K : Ciphers}

/-- Both halves have the same key and have counted the same frames. -/
structure Paired (w : NoiseWriter) (r : NoiseReader) : Prop where
  side_eq : r.transport.side.other = w.transport.side
  key_eq : r.pqKey = w.pqKey
  counter_eq : r.recvCounter = w.sendCounter
  nonce_eq : r.transport.recvNonce = w.transport.sendNonce

/-- The Noise message of a chunk. -/
def NoiseWriter.seal (K : Ciphers) (w : NoiseWriter) (chunk : Bytes) : Bytes :=
  K.noiseSeal w.transport.side w.transport.sendNonce (pqEncrypt K w.pqKey w.sendCounter chunk)

/-- The writer after a chunk was sent. -/
def NoiseWriter.sent (K : Ciphers) (w : NoiseWriter) (chunk : Bytes) : NoiseWriter where
  writer := w.writer ++ beBytes 4 (w.seal K chunk).length ++ w.seal K chunk
  transport := { w.transport with sendNonce := w.transport.sendNonce + 1 }
  pqKey := w.pqKey
  sendCounter := w.sendCounter + 1
  pqCalls := w.pqCalls ++ [(w.pqKey, pqNonce w.sendCounter)]

/-- The reader after a chunk was received. -/
def NoiseReader.received (r : NoiseReader) (rest : Bytes) : NoiseReader where
  reader := rest
  transport := { r.transport with recvNonce := r.transport.recvNonce + 1 }
  pqKey := r.pqKey
  recvCounter := r.recvCounter + 1

theorem Paired.sent {w : NoiseWriter} {r : NoiseReader} (h : Paired w r) (chunk rest : Bytes) :
    Paired (w.sent K chunk) (r.received rest) :=
  ⟨h.side_eq, h.key_eq, congrArg (· + 1) h.counter_eq, congrArg (· + 1) h.nonce_eq⟩

theorem length_seal (hK : K.Lawful) (w : NoiseWriter) (chunk : Bytes) :
    (w.seal K chunk).length = chunk.length + 32 := by
  rw [NoiseWriter.seal, hK.length_noiseSeal, pqEncrypt, hK.length_pqSeal]
  rfl

/-- A chunk within the limit is always sent: the frame fits the buffer and a Noise message. -/
theorem sendChunk_eq (hK : K.Lawful) (w : NoiseWriter) {chunk : Bytes}
    (hlen : chunk.length ≤ maxChunk) : w.sendChunk K chunk = (.ok (), w.sent K chunk) := by
  have hmax : maxChunk = 65471 := rfl
  have hpq : (pqEncrypt K w.pqKey w.sendCounter chunk).length = chunk.length + 16 :=
    hK.length_pqSeal _ _ _
  have hfits : ¬ (maxNoiseMessage < (pqEncrypt K w.pqKey w.sendCounter chunk).length + tagLength ∨
      noiseMaxPlaintext + 16 < (pqEncrypt K w.pqKey w.sendCounter chunk).length + tagLength) := by
    rw [hpq, maxNoiseMessage, tagLength, noiseMaxPlaintext]
    omega
  rw [NoiseWriter.sendChunk]
  dsimp only
  rw [TransportState.writeMessage, if_neg hfits]
  rfl

/-- **Receiving undoes sending**, frame by frame. -/
theorem recvRaw_eq (hK : K.Lawful) {w : NoiseWriter} {r : NoiseReader} (h : Paired w r)
    {chunk : Bytes} (hlen : chunk.length ≤ maxChunk) (rest : Bytes)
    (hreader : r.reader = beBytes 4 (w.seal K chunk).length ++ w.seal K chunk ++ rest) :
    r.recvRaw K = (.ok chunk, r.received rest) := by
  have hmax : maxChunk = 65471 := rfl
  have hseal := length_seal hK w chunk
  have hpq : (pqEncrypt K w.pqKey w.sendCounter chunk).length = chunk.length + 16 :=
    hK.length_pqSeal _ _ _
  have hbytes : ofBeBytes (beBytes 4 (w.seal K chunk).length) = (w.seal K chunk).length := by
    rw [ofBeBytes_beBytes, Nat.mod_eq_of_lt]
    omega
  have hopen : K.noiseOpen r.transport.side.other r.transport.recvNonce (w.seal K chunk) =
      some (pqEncrypt K w.pqKey w.sendCounter chunk) := by
    rw [h.side_eq, h.nonce_eq]
    exact hK.noiseOpen_noiseSeal _ _ _ (by rw [hpq, tagLength, maxNoiseMessage]; omega)
  have hdecrypt : pqDecrypt K r.pqKey r.recvCounter (pqEncrypt K w.pqKey w.sendCounter chunk) =
      .ok chunk := by
    rw [pqDecrypt, pqEncrypt, h.key_eq, h.counter_eq, hK.pqOpen_pqSeal]
  have hread : r.transport.readMessage K (w.seal K chunk) (w.seal K chunk).length =
      .ok (pqEncrypt K w.pqKey w.sendCounter chunk,
        { r.transport with recvNonce := r.transport.recvNonce + 1 }) := by
    rw [TransportState.readMessage, hseal, if_neg (by rw [maxNoiseMessage]; omega),
      if_neg (by rw [tagLength]; omega), hopen]
  rw [NoiseReader.recvRaw, hreader, List.append_assoc, readExact_append (length_beBytes _ _)]
  dsimp only
  rw [hbytes, if_neg (by rw [hseal, noiseMaxMessage]; omega), readExact_append rfl]
  dsimp only
  rw [hread]
  dsimp only
  rw [hdecrypt]
  rfl

/-- **All chunks are sent, and come back one by one.** -/
theorem recvMany_sendChunks (hK : K.Lawful) {cs : List Bytes} (hcs : ∀ c ∈ cs, c.length ≤ maxChunk)
    (w : NoiseWriter) :
    ∃ out w', NoiseWriter.sendChunks K w cs = (.ok (), w') ∧ w'.writer = w.writer ++ out ∧
      ∀ r, Paired w r → ∀ rest, r.reader = out ++ rest → ∀ n ≤ cs.length,
        (r.recvMany K n).1 = .ok (cs.take n) := by
  induction cs generalizing w with
  | nil =>
    refine ⟨[], w, rfl, (List.append_nil _).symm, fun r _ rest _ n hn => ?_⟩
    obtain rfl := Nat.le_zero.mp hn
    rfl
  | cons c cs ih =>
    have hc := hcs c List.mem_cons_self
    obtain ⟨out, w', hsend, hout, hrecv⟩ := ih (fun x hx => hcs x (List.mem_cons_of_mem _ hx))
      (w.sent K c)
    refine ⟨beBytes 4 (w.seal K c).length ++ w.seal K c ++ out, w', ?_, ?_,
      fun r hr rest hreader n hn => ?_⟩
    · rw [NoiseWriter.sendChunks, sendChunk_eq hK w hc]
      exact hsend
    · rw [hout, NoiseWriter.sent]
      simp only [List.append_assoc]
    · cases n with
      | zero => rfl
      | succ n =>
        rw [List.append_assoc] at hreader
        have hrest := hrecv (r.received (out ++ rest)) (hr.sent c _) rest rfl n
          (Nat.le_of_succ_le_succ hn)
        rw [NoiseReader.recvMany, recvRaw_eq hK hr hc (out ++ rest) hreader]
        dsimp only
        generalize (r.received (out ++ rest)).recvMany K n = res at hrest ⊢
        obtain ⟨res, r'⟩ := res
        obtain rfl : res = .ok (cs.take n) := hrest
        rfl

/-- **What successive calls of `recv_raw` return** after successive calls of `send_raw`: the chunks
of the payloads. -/
theorem recvMany_sendAll (hK : K.Lawful) {w : NoiseWriter} {r : NoiseReader} (h : Paired w r)
    (hempty : w.writer = []) {ps : List Bytes} (hps : ∀ p ∈ ps, p ≠ []) :
    ∃ w', w.sendAll K ps = (.ok (), w') ∧
      (({ r with reader := w'.writer } : NoiseReader).recvMany K ps.length).1 =
        .ok ((ps.flatMap payloadChunks).take ps.length) := by
  have hcs : ∀ c ∈ ps.flatMap payloadChunks, c.length ≤ maxChunk := by
    intro c hc
    obtain ⟨p, -, hcp⟩ := List.mem_flatMap.mp hc
    exact length_le_of_mem_chunks maxChunk_pos hcp
  obtain ⟨out, w', hsend, hout, hrecv⟩ := recvMany_sendChunks hK hcs w
  refine ⟨w', by rw [NoiseWriter.sendAll_eq_sendChunks, hsend], ?_⟩
  rw [hempty, List.nil_append] at hout
  exact hrecv { r with reader := w'.writer } ⟨h.side_eq, h.key_eq, h.counter_eq, h.nonce_eq⟩ []
    (hout.trans (List.append_nil out).symm) ps.length
    (length_le_length_flatMap_chunks maxChunk_pos hps)

end

/-- **When payloads come back as they were sent**, one per call: when each fits into one frame. A
longer payload is sent in several frames, and every frame is received as a payload of its own. -/
theorem framing_round_trip_iff (K : Ciphers) (hK : K.Lawful) (w : NoiseWriter) (r : NoiseReader)
    (h : Paired w r) (hempty : w.writer = []) (ps : List Bytes)
    (hps : ∀ p ∈ ps, 1 ≤ p.length ∧ p.length ≤ noiseMaxMessage) :
    (∃ w', w.sendAll K ps = (.ok (), w') ∧
        (({ r with reader := w'.writer } : NoiseReader).recvMany K ps.length).1 = .ok ps) ↔
      ∀ p ∈ ps, p.length ≤ 65471 := by
  have hne : ∀ p ∈ ps, p ≠ [] := fun p hp => List.ne_nil_of_length_pos (hps p hp).1
  obtain ⟨w', hsend, hrecv⟩ := recvMany_sendAll hK h hempty hne
  have hiff := take_flatMap_chunks_eq_iff maxChunk_pos hne
  constructor
  · rintro ⟨w'', hsend', hrecv'⟩
    obtain rfl : w' = w'' := (Prod.mk.inj (hsend.symm.trans hsend')).2
    exact hiff.mp (Except.ok.inj (hrecv.symm.trans hrecv'))
  · intro hle
    refine ⟨w', hsend, hrecv.trans ?_⟩
    rw [show ps.flatMap payloadChunks = ps.flatMap (chunks maxChunk maxChunk_pos) from rfl,
      hiff.mpr hle]

/-! ### Concrete ciphers -/

/-- A tag made of the context. -/
def sampleTag (context : Bytes) : Bytes := (context ++ List.replicate 16 0).take 16

theorem length_sampleTag (context : Bytes) : (sampleTag context).length = 16 := by
  rw [sampleTag, List.length_take, List.length_append, List.length_replicate]
  omega

/-- Cut the tag off, if it is the right one. -/
def sampleOpen (context message : Bytes) : Option Bytes :=
  if message.drop (message.length - 16) = sampleTag context then
    some (message.take (message.length - 16))
  else none

theorem sampleOpen_append (context pt : Bytes) :
    sampleOpen context (pt ++ sampleTag context) = some pt := by
  have hlen : (pt ++ sampleTag context).length - 16 = pt.length := by
    rw [List.length_append, length_sampleTag, Nat.add_sub_cancel]
  rw [sampleOpen, hlen, List.drop_left, if_pos rfl, List.take_left]

/-- Ciphers that hide nothing but keep the frames apart. -/
def Ciphers.sample : Ciphers where
  noiseSeal side n pt := pt ++ sampleTag ((if side = .initiator then 0 else 1) :: leBytes 8 n)
  noiseOpen side n := sampleOpen ((if side = .initiator then 0 else 1) :: leBytes 8 n)
  pqSeal key nonce pt := pt ++ sampleTag (nonce ++ key)
  pqOpen key nonce := sampleOpen (nonce ++ key)

theorem Ciphers.lawful_sample : Ciphers.sample.Lawful where
  length_noiseSeal _ _ _ := by rw [sample, List.length_append, length_sampleTag]; rfl
  noiseOpen_noiseSeal _ _ _ _ := sampleOpen_append _ _
  length_pqSeal _ _ _ := by rw [sample, List.length_append, length_sampleTag]; rfl
  pqOpen_pqSeal _ _ _ := sampleOpen_append _ _

/-- A writer that has sent nothing yet. -/
def sampleWriter : NoiseWriter := ⟨[], ⟨.initiator, 1, 1⟩, List.replicate 32 7, 0, []⟩

/-- The reader at the other end. -/
def sampleReader : NoiseReader := ⟨[], ⟨.responder, 1, 1⟩, List.replicate 32 7, 0⟩

theorem paired_sample : Paired sampleWriter sampleReader := ⟨rfl, rfl, rfl, rfl⟩

/-- Three short payloads. -/
theorem framing_round_trip_iff_short :
    ∃ w', sampleWriter.sendAll Ciphers.sample [[1, 2, 3], [4], [5, 6]] = (.ok (), w') ∧
      (({ sampleReader with reader := w'.writer } : NoiseReader).recvMany Ciphers.sample 3).1 =
        .ok [[1, 2, 3], [4], [5, 6]] :=
  (framing_round_trip_iff Ciphers.sample Ciphers.lawful_sample sampleWriter sampleReader
    paired_sample rfl [[1, 2, 3], [4], [5, 6]] (by decide)).mpr (by decide)

/-- **A payload of one byte too many comes back cut off.** -/
theorem long_payload_cut :
    ∃ w', sampleWriter.sendAll Ciphers.sample [List.replicate 65472 0] = (.ok (), w') ∧
      (({ sampleReader with reader := w'.writer } : NoiseReader).recvMany Ciphers.sample 1).1 =
        .ok [List.replicate 65471 0] ∧
      [List.replicate 65471 (0 : UInt8)] ≠ [List.replicate 65472 0] := by
  have hne : ∀ p ∈ [List.replicate 65472 (0 : UInt8)], p ≠ [] := by
    intro p hp
    rw [List.mem_singleton.mp hp]
    exact List.ne_nil_of_length_pos (by rw [List.length_replicate]; omega)
  obtain ⟨w', hsend, hrecv⟩ := recvMany_sendAll Ciphers.lawful_sample paired_sample rfl hne
  refine ⟨w', hsend, hrecv.trans ?_, fun h => ?_⟩
  · rw [List.flatMap_singleton, payloadChunks, chunks_of_ne_nil _ (hne _ List.mem_cons_self),
      List.length_singleton, List.take_succ_cons, List.take_zero, List.take_replicate]
    rfl
  · have hlen := congrArg List.length (List.singleton_inj.mp h)
    rw [List.length_replicate, List.length_replicate] at hlen
    omega

/-! ### Connections -/

/-- `NoiseConn`. The address is left out. -/
structure NoiseConn where
  reader : Bytes
  writer : Bytes
  transport : TransportState
  pqKey : Bytes
  sendCounter : ℕ
  recvCounter : ℕ
  /-- See `NoiseWriter.pqCalls`. -/
  pqCalls : List (Bytes × Bytes)

namespace NoiseConn

/-- What `NoiseConn::connect` and `NoiseConn::accept` both return, once the handshake has agreed on
the transport and the key exchange on the key. -/
def established (transport : TransportState) (pqKey : Bytes) : NoiseConn where
  reader := []
  writer := []
  transport
  pqKey
  sendCounter := 0
  recvCounter := 0
  pqCalls := []

/-- The reading half. -/
def readHalf (c : NoiseConn) : NoiseReader where
  reader := c.reader
  transport := c.transport
  pqKey := c.pqKey
  recvCounter := c.recvCounter

/-- The writing half. -/
def writeHalf (c : NoiseConn) : NoiseWriter where
  writer := c.writer
  transport := c.transport
  pqKey := c.pqKey
  sendCounter := c.sendCounter
  pqCalls := c.pqCalls

/-- `NoiseConn::into_split`. -/
def intoSplit (c : NoiseConn) : NoiseReader × NoiseWriter := (c.readHalf, c.writeHalf)

/-- `NoiseConn::send_raw`, which has the body of `NoiseWriter::send_raw`. -/
def sendRaw (K : Ciphers) (c : NoiseConn) (plaintext : Bytes) :
    Except NoiseError Unit × NoiseConn :=
  let (res, w) := c.writeHalf.sendRaw K plaintext
  (res, { c with
    writer := w.writer
    transport := w.transport
    sendCounter := w.sendCounter
    pqCalls := w.pqCalls })

/-- `NoiseConn::recv_raw`, which has the body of `NoiseReader::recv_raw`. -/
def recvRaw (K : Ciphers) (c : NoiseConn) : Except NoiseError Bytes × NoiseConn :=
  let (res, r) := c.readHalf.recvRaw K
  (res, { c with reader := r.reader, transport := r.transport, recvCounter := r.recvCounter })

end NoiseConn

end Arkos
