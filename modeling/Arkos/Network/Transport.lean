import Mathlib.Data.List.TakeWhile
import Arkos.Network.MessageText
import Arkos.Network.Handshake
import Arkos.Network.Noise

/-!
# Which messages are heard

`Peer::send` refuses a message only when its text is longer than 32 MB. But the transport cuts a
text into frames of 65471 bytes, the other end takes every frame for a message of its own, and a
piece of a text is not JSON: the reading task ends, and with it the connection. So a peer hears the
messages in front of the first one that takes more than one frame, and nothing else.

That is a bound on what two honest nodes can exchange. The headers in an answer may be 2000 by the
protocol and at most 316 by the transport, so a node that misses more blocks than that cannot
follow; and a block with more than 32735 bytes of keys and signatures, which is seven inputs, is
never passed on.

The reader of JSON is a parameter. It undoes the writer for text that is not nested too deep, and
refuses a text that is cut off.

## Main definitions

* `PeerWriter.send`, `PeerReader.recv`, `PeerReader.readLoop`
* `ReadsJson` — what is documented of the reader of JSON
* `heard` — what one end hears of what the other sends

## Main results

* `heard_eq`
* `signedBytes_le_of_mem_heard` — what a block that is heard may carry
* `batch_heard` — what becomes of an answer to `GetHeaders`
-/

namespace Arkos

/-- `MAX_MSG_SIZE`. -/
def maxMsgSize : ℕ := noiseMaxMessage

/-- Why a message is not sent or not received. -/
inductive PeerIoError where
  | tooLarge (bytes : ℕ)
  | noise (error : NoiseError)
  /-- The text is that of the `serde_json` library. -/
  | json
  deriving DecidableEq, Repr

/-- The text of the error, where the source gives it. -/
def PeerIoError.message : PeerIoError → Option String
  | .tooLarge bytes => some ("message too large to send: " ++ toString bytes ++ " bytes")
  | .noise error => some error.message
  | .json => none

/-! ### Peers -/

section

variable (K : Ciphers) (fromSlice : Bytes → Option Message)

/-- `PeerWriter::send`, and `Peer::send`, which has the same body. -/
def PeerWriter.send (conn : NoiseWriter) (msg : Message) : Except PeerIoError Unit × NoiseWriter :=
  if maxMsgSize < msg.toVec.length then (.error (.tooLarge msg.toVec.length), conn)
  else
    match conn.sendRaw K msg.toVec with
    | (.error e, conn) => (.error (.noise e), conn)
    | (.ok (), conn) => (.ok (), conn)

/-- Successive calls of `send`, up to the first that fails. -/
def PeerWriter.sendAll : NoiseWriter → List Message → Except PeerIoError Unit × NoiseWriter
  | conn, [] => (.ok (), conn)
  | conn, msg :: msgs =>
    match PeerWriter.send K conn msg with
    | (.error e, conn) => (.error e, conn)
    | (.ok (), conn) => PeerWriter.sendAll conn msgs

/-- `PeerReader::recv`. -/
def PeerReader.recv (conn : NoiseReader) : Except PeerIoError Message × NoiseReader :=
  match conn.recvRaw K with
  | (.error e, conn) => (.error (.noise e), conn)
  | (.ok plaintext, conn) =>
    match fromSlice plaintext with
    | none => (.error .json, conn)
    | some msg => (.ok msg, conn)

/-- The reading task of `handle_peer`: the messages up to the first error, and the error. -/
def PeerReader.readLoop : ℕ → NoiseReader → List Message × Option PeerIoError
  | 0, _ => ([], none)
  | fuel + 1, conn =>
    match PeerReader.recv K fromSlice conn with
    | (.error e, _) => ([], some e)
    | (.ok msg, conn) =>
      let rest := PeerReader.readLoop fuel conn
      (msg :: rest.1, rest.2)

/-- What the end `r` reads of the messages the end `w` is told to send. -/
def heard (w : NoiseWriter) (r : NoiseReader) (msgs : List Message) :
    List Message × Option PeerIoError :=
  PeerReader.readLoop K fromSlice (msgs.length + 1)
    { r with reader := (PeerWriter.sendAll K w msgs).2.writer }

end

/-- What is documented of `serde_json::from_slice`, for the given messages: it undoes `to_vec` while
the text is nested at most 127 deep, six of which are around a script, and a text that is cut off is
an error. -/
structure ReadsJson (fromSlice : Bytes → Option Message) (msgs : List Message) : Prop where
  fromSlice_toVec : ∀ msg ∈ msgs, (∀ s ∈ msg.scripts, s.depth ≤ 121) →
    fromSlice msg.toVec = some msg
  fromSlice_take : ∀ msg ∈ msgs, ∀ n < msg.toVec.length, fromSlice (msg.toVec.take n) = none

/-- The text of the message fits into one frame. -/
def Message.InFrame (msg : Message) : Prop := msg.toVec.length ≤ maxChunk

instance (msg : Message) : Decidable msg.InFrame := inferInstanceAs (Decidable (_ ≤ _))

/-- How the reading task ends: it waits, or it is handed a piece of a text. -/
def ending : List Message → PeerIoError
  | [] => .noise .unexpectedEof
  | msg :: msgs =>
    if msg.InFrame then ending msgs
    else if msg.toVec.length ≤ maxMsgSize then .json
    else .noise .unexpectedEof

/-! ### Sending and reading -/

section

variable {K : Ciphers} {fromSlice : Bytes → Option Message} {w : NoiseWriter} {r : NoiseReader}
  {msg : Message}

theorem Message.toVec_ne_nil (msg : Message) : msg.toVec ≠ [] := by
  refine List.ne_nil_of_length_pos ?_
  cases msg <;> simp only [Message.toVec, length_jsonObject]
  case verack => decide +kernel
  all_goals omega

/-- A message of one frame. -/
theorem PeerWriter.send_of_inFrame (hK : K.Lawful) (h : msg.InFrame) :
    PeerWriter.send K w msg = (.ok (), w.sent K msg.toVec) := by
  have hmax : maxChunk = 65471 := rfl
  rw [Message.InFrame] at h
  rw [PeerWriter.send, if_neg (by rw [maxMsgSize, noiseMaxMessage]; omega),
    NoiseWriter.sendRaw_eq_sendChunks, payloadChunks,
    chunks_of_length_le _ msg.toVec_ne_nil h, NoiseWriter.sendChunks, sendChunk_eq hK w h]
  rfl

/-- It is read at the other end. -/
theorem PeerReader.recv_of_inFrame (hK : K.Lawful) (hread : fromSlice msg.toVec = some msg)
    (hp : Paired w r) (h : msg.InFrame) (rest : Bytes)
    (hreader : r.reader = beBytes 4 (w.seal K msg.toVec).length ++ w.seal K msg.toVec ++ rest) :
    PeerReader.recv K fromSlice r = (.ok msg, r.received rest) := by
  rw [PeerReader.recv, recvRaw_eq hK hp h rest hreader]
  dsimp only
  rw [hread]

/-- A longer message goes out in pieces, the first of which is no JSON. -/
theorem exists_send_of_not_inFrame (hK : K.Lawful)
    (hcut : ∀ n < msg.toVec.length, fromSlice (msg.toVec.take n) = none) (h : ¬ msg.InFrame)
    (hsize : msg.toVec.length ≤ maxMsgSize) (w : NoiseWriter) :
    ∃ out w', PeerWriter.send K w msg = (.ok (), w') ∧ w'.writer = w.writer ++ out ∧
      ∀ r, Paired w r → ∀ rest, r.reader = out ++ rest →
        (PeerReader.recv K fromSlice r).1 = .error .json := by
  have hlen : maxChunk < msg.toVec.length := Nat.not_le.mp h
  have hchunks : payloadChunks msg.toVec =
      msg.toVec.take maxChunk :: payloadChunks (msg.toVec.drop maxChunk) :=
    chunks_of_ne_nil _ msg.toVec_ne_nil
  have hfit : ∀ c ∈ payloadChunks msg.toVec, c.length ≤ maxChunk := fun c hc =>
    length_le_of_mem_chunks maxChunk_pos hc
  obtain ⟨out, w', hsend, hout, hrecv⟩ := recvMany_sendChunks hK hfit w
  refine ⟨out, w', ?_, hout, fun r hp rest hreader => ?_⟩
  · rw [PeerWriter.send, if_neg (Nat.not_lt.mpr hsize), NoiseWriter.sendRaw_eq_sendChunks, hsend]
  · have hfirst := hrecv r hp rest hreader 1 (by rw [hchunks, List.length_cons]; omega)
    rw [hchunks, List.take_succ_cons, List.take_zero, NoiseReader.recvMany] at hfirst
    rw [PeerReader.recv]
    generalize r.recvRaw K = received at hfirst ⊢
    obtain ⟨e | p, r'⟩ := received
    · cases hfirst
    · obtain rfl : p = msg.toVec.take maxChunk := by simpa [NoiseReader.recvMany] using hfirst
      dsimp only
      rw [hcut maxChunk hlen]

/-- What the messages leave on the wire, and what is read of it. -/
theorem exists_sendAll (hK : K.Lawful) {msgs : List Message} (hJ : ReadsJson fromSlice msgs)
    (hshallow : ∀ msg ∈ msgs, ∀ s ∈ msg.scripts, s.depth ≤ 121) (w : NoiseWriter) :
    ∃ out, (PeerWriter.sendAll K w msgs).2.writer = w.writer ++ out ∧
      ∀ r, Paired w r → r.reader = out → ∀ n, msgs.length < n →
        PeerReader.readLoop K fromSlice n r =
          (msgs.takeWhile (·.InFrame), some (ending msgs)) := by
  -- nothing is left to read
  have hwait : ∀ r : NoiseReader, r.reader = [] → ∀ n, 0 < n →
      PeerReader.readLoop K fromSlice n r = ([], some (.noise .unexpectedEof)) := by
    intro r hr n hn
    obtain ⟨n, rfl⟩ := Nat.exists_eq_succ_of_ne_zero hn.ne'
    rw [PeerReader.readLoop, PeerReader.recv, NoiseReader.recvRaw, hr]
    rfl
  induction msgs generalizing w with
  | nil =>
    exact ⟨[], (List.append_nil _).symm, fun r _ hr n hn => hwait r hr n hn⟩
  | cons msg msgs ih =>
    have ih := ih ⟨fun m hm => hJ.fromSlice_toVec m (List.mem_cons_of_mem _ hm),
        fun m hm => hJ.fromSlice_take m (List.mem_cons_of_mem _ hm)⟩
      fun m hm => hshallow m (List.mem_cons_of_mem _ hm)
    by_cases hframe : msg.InFrame
    · -- the message is heard
      obtain ⟨out, hout, hread⟩ := ih (w.sent K msg.toVec)
      refine ⟨beBytes 4 (w.seal K msg.toVec).length ++ w.seal K msg.toVec ++ out, ?_,
        fun r hp hr n hn => ?_⟩
      · rw [PeerWriter.sendAll, PeerWriter.send_of_inFrame hK hframe]
        dsimp only
        rw [hout, NoiseWriter.sent]
        simp only [List.append_assoc]
      · obtain ⟨n, rfl⟩ := Nat.exists_eq_succ_of_ne_zero (Nat.ne_zero_of_lt hn)
        rw [PeerReader.readLoop, PeerReader.recv_of_inFrame hK (hJ.fromSlice_toVec msg
          List.mem_cons_self (hshallow msg List.mem_cons_self)) hp hframe out hr]
        dsimp only
        rw [hread _ (hp.sent msg.toVec out) rfl n (Nat.lt_of_succ_lt_succ hn),
          List.takeWhile_cons_of_pos (by simpa using hframe), ending, if_pos hframe]
    · have hnone : (msg :: msgs).takeWhile (fun m => decide m.InFrame) = [] :=
        List.takeWhile_cons_of_neg (by simpa using hframe)
      by_cases hsize : msg.toVec.length ≤ maxMsgSize
      · -- the message is cut
        obtain ⟨out, w', hsend, hout, hrecv⟩ := exists_send_of_not_inFrame hK
          (hJ.fromSlice_take msg List.mem_cons_self) hframe hsize w
        obtain ⟨rest, hrest, -⟩ := ih w'
        refine ⟨out ++ rest, ?_, fun r hp hr n hn => ?_⟩
        · rw [PeerWriter.sendAll, hsend]
          dsimp only
          rw [hrest, hout, List.append_assoc]
        · obtain ⟨n, rfl⟩ := Nat.exists_eq_succ_of_ne_zero (Nat.ne_zero_of_lt hn)
          have hcut := hrecv r hp rest hr
          rw [PeerReader.readLoop]
          generalize PeerReader.recv K fromSlice r = received at hcut ⊢
          obtain ⟨e | m, r'⟩ := received
          · obtain rfl := Except.error.inj hcut
            rw [hnone, ending, if_neg hframe, if_pos hsize]
          · cases hcut
      · -- the message is not sent
        refine ⟨[], ?_, fun r _ hr n hn => ?_⟩
        · rw [PeerWriter.sendAll, PeerWriter.send, if_pos (Nat.not_le.mp hsize), List.append_nil]
        · rw [hwait r hr n (Nat.zero_lt_of_lt hn), hnone, ending, if_neg hframe, if_neg hsize]

end

/-- **A peer hears the messages in front of the first that takes more than one frame.** Then its
reading task ends, if that message was sent at all, and else it waits. -/
theorem heard_eq (K : Ciphers) (hK : K.Lawful) (fromSlice : Bytes → Option Message)
    (w : NoiseWriter) (r : NoiseReader) (hp : Paired w r) (hempty : w.writer = [])
    (msgs : List Message) (hJ : ReadsJson fromSlice msgs)
    (hshallow : ∀ msg ∈ msgs, ∀ s ∈ msg.scripts, s.depth ≤ 121) :
    heard K fromSlice w r msgs = (msgs.takeWhile (·.InFrame), some (ending msgs)) := by
  obtain ⟨out, hout, hread⟩ := exists_sendAll hK hJ hshallow w
  rw [hempty, List.nil_append] at hout
  rw [heard]
  exact hread { r with reader := (PeerWriter.sendAll K w msgs).2.writer }
    ⟨hp.side_eq, hp.key_eq, hp.counter_eq, hp.nonce_eq⟩ hout _ (Nat.lt_succ_self _)

/-- **A block with more than 32735 bytes of keys and signatures is not heard**, whatever is sent. -/
theorem signedBytes_le_of_mem_heard {K : Ciphers} (hK : K.Lawful)
    {fromSlice : Bytes → Option Message} {w : NoiseWriter} {r : NoiseReader} (hp : Paired w r)
    (hempty : w.writer = []) {msgs : List Message} (hJ : ReadsJson fromSlice msgs)
    (hshallow : ∀ msg ∈ msgs, ∀ s ∈ msg.scripts, s.depth ≤ 121) {b : Block}
    (hb : .blockMsg b ∈ (heard K fromSlice w r msgs).1) : b.signedBytes ≤ 32735 := by
  have hmax : maxChunk = 65471 := rfl
  rw [heard_eq K hK fromSlice w r hp hempty msgs hJ hshallow] at hb
  have hframe : (Message.blockMsg b).InFrame := by
    simpa using List.mem_takeWhile_imp hb
  have hsize := le_length_toVec_blockMsg b
  rw [Message.InFrame] at hframe
  omega

/-- A reader of the texts of the given messages. -/
def sampleFromSlice (msgs : List Message) (bytes : Bytes) : Option Message :=
  msgs.find? (·.toVec = bytes)

/-- It is a reader of one message. -/
theorem readsJson_singleton (msg : Message) : ReadsJson (sampleFromSlice [msg]) [msg] := by
  refine ⟨fun m hm _ => ?_, fun m hm n hn => ?_⟩ <;> obtain rfl := List.mem_singleton.mp hm
  · simp [sampleFromSlice]
  · have hne : m.toVec ≠ m.toVec.take n := fun h => by
      have hlen := congrArg List.length h
      rw [List.length_take] at hlen
      omega
    simp [sampleFromSlice, hne]

/-- The messages of the test: an acknowledgement, a question and an answer. -/
def greetings : List Message := [.verack, .ping 7, .pong 7]

/-- Three short messages are heard. -/
theorem heard_eq_greetings :
    heard Ciphers.sample (sampleFromSlice greetings) sampleWriter sampleReader greetings =
      (greetings, some (.noise .unexpectedEof)) := by
  have hmain := heard_eq Ciphers.sample Ciphers.lawful_sample (sampleFromSlice greetings)
    sampleWriter sampleReader paired_sample rfl greetings ⟨by decide +kernel, by decide +kernel⟩
    (by simp [greetings, Message.scripts])
  rw [hmain]
  decide +kernel

/-! ### Answers -/

section

variable {C : Crypto} {g : Block} {hist : List Block}

/-- A Merkle root spells a hash out, also that of no transactions. -/
theorem exists_hashToHex_merkleRoot (C : Crypto) (txs : List Transaction) :
    ∃ x, merkleRoot C txs = hashToHex x := by
  rcases eq_or_ne txs [] with rfl | hne
  · have hzero : zeroHashHex = hashToHex (List.Vector.replicate 32 0) := by decide +kernel
    exact ⟨_, hzero⟩
  · obtain ⟨x, hx⟩ := exists_merkleRoot_eq (C := C) hne
    exact ⟨x, hx⟩

/-- The headers of a node spell their hashes out, as the first of them does. -/
theorem Blockchain.Reached.spelled {s : Blockchain} (hs : Reached C g hist s)
    (hg : g.header.Spelled) {b : Block} (hb : b ∈ s.blocks) : b.header.Spelled := by
  obtain ⟨-, w, -, hdescends⟩ := hs.ancestry.own _ b (hs.ancestry.stored b hb)
  cases hdescends with
  | genesis _ => exact hg
  | child _ _ _ hwf _ _ =>
    obtain ⟨x, hx⟩ := exists_hashToHex_merkleRoot C b.transactions
    exact ⟨⟨_, hwf.prevHash_eq⟩, x, hwf.merkleRoot_eq ▸ hx⟩

/-- A batch of spelled headers is heard, or cut. -/
theorem batch_inFrame {headers : List BlockHeader} (hne : headers ≠ [])
    (hs : ∀ h ∈ headers, h.Spelled) (hlen : headers.length ≤ maxHeadersPerResponse) :
    (headers.length ≤ 248 → (Message.headers headers).InFrame) ∧
      (317 ≤ headers.length → ¬ (Message.headers headers).InFrame) ∧
      (Message.headers headers).toVec.length ≤ maxMsgSize := by
  obtain ⟨hlow, hhigh⟩ := length_toVec_headers hne hs
  have hmax : maxChunk = 65471 := rfl
  have hsize : maxMsgSize = 33554432 := rfl
  have hbatch : maxHeadersPerResponse = 2000 := rfl
  rw [Message.InFrame]
  refine ⟨fun h => ?_, fun h => ?_, ?_⟩ <;> omega

/-- The answer of a node, as it is sent. -/
theorem sent_getHeaders (C : Crypto) {n : Node} {clock : Clock} {addr : String}
    (hmay : n.mayMessage clock addr = true) {locatorHashes : List String}
    {headers : List BlockHeader} (hheaders : headers =
      ((n.chain.blocks.drop (Node.locatorStart n.chain locatorHashes)).take
        maxHeadersPerResponse).map Block.header) :
    (n.handleMessage C clock addr (.getHeaders locatorHashes)).sent =
      if headers = [] then [] else [.headers headers] := by
  have hchain : (n.countMessage clock addr).chain = n.chain := rfl
  rw [Node.handleMessage, hmay, if_neg (by simp), Node.dispatch, Node.handleGetHeaders, hchain,
    ← hheaders]
  split_ifs <;> rfl

/-- **What becomes of an answer to `GetHeaders`.** Whatever a node has gone through, a peer that
misses up to 248 blocks hears of them, and one that misses 317 or more hears nothing: the answer is
cut, and the connection ends. -/
theorem batch_heard (C : Crypto) (g : Block) (hg : g.header.Spelled) (hist : List Block) (n : Node)
    (hs : Blockchain.Reached C g hist n.chain) (clock : Clock) (addr : String)
    (hmay : n.mayMessage clock addr = true) (locatorHashes : List String) (K : Ciphers)
    (hK : K.Lawful) (fromSlice : Bytes → Option Message) (w : NoiseWriter) (r : NoiseReader)
    (hp : Paired w r) (hempty : w.writer = [])
    (hJ : ReadsJson fromSlice (n.handleMessage C clock addr (.getHeaders locatorHashes)).sent) :
    (n.chain.blocks.length - Node.locatorStart n.chain locatorHashes ≤ 248 →
      (heard K fromSlice w r (n.handleMessage C clock addr (.getHeaders locatorHashes)).sent).1 =
        (n.handleMessage C clock addr (.getHeaders locatorHashes)).sent) ∧
      (317 ≤ n.chain.blocks.length - Node.locatorStart n.chain locatorHashes →
        heard K fromSlice w r (n.handleMessage C clock addr (.getHeaders locatorHashes)).sent =
          ([], some .json)) := by
  have hbatch : maxHeadersPerResponse = 2000 := rfl
  obtain ⟨headers, hheaders⟩ : ∃ headers, headers =
    ((n.chain.blocks.drop (Node.locatorStart n.chain locatorHashes)).take
      maxHeadersPerResponse).map Block.header := ⟨_, rfl⟩
  have hlen : headers.length = min maxHeadersPerResponse
      (n.chain.blocks.length - Node.locatorStart n.chain locatorHashes) := by
    rw [hheaders, List.length_map, List.length_take, List.length_drop]
  have hspelled : ∀ h ∈ headers, h.Spelled := by
    intro h hh
    rw [hheaders, List.mem_map] at hh
    obtain ⟨b, hb, rfl⟩ := hh
    exact hs.spelled hg (List.mem_of_mem_drop (List.mem_of_mem_take hb))
  rw [sent_getHeaders C hmay hheaders] at hJ ⊢
  have hheard := heard_eq K hK fromSlice w r hp hempty _ hJ (by split <;> simp [Message.scripts])
  by_cases hnil : headers = []
  · rw [if_pos hnil] at hheard ⊢
    refine ⟨fun _ => by rw [hheard]; rfl, fun hmissing => ?_⟩
    rw [hnil, List.length_nil] at hlen
    omega
  · rw [if_neg hnil] at hheard ⊢
    obtain ⟨hshort, hlong, hsize⟩ := batch_inFrame hnil hspelled (by omega)
    refine ⟨fun hmissing => ?_, fun hmissing => ?_⟩
    · rw [hheard, List.takeWhile_cons_of_pos (by simpa using hshort (by omega)), List.takeWhile_nil]
    · have hcut := hlong (by omega)
      rw [hheard, List.takeWhile_cons_of_neg (by simpa using hcut), ending, if_neg hcut,
        if_pos hsize]

end

/-- A node with the given chain, otherwise as the sample is. -/
def sampleNodeOf (s : Blockchain) : Node := { sampleNode with chain := s }

theorem mayMessage_sampleNodeOf (s : Blockchain) :
    (sampleNodeOf s).mayMessage sampleClock "203.0.113.7:8333" = true := by
  show sampleNode.mayMessage sampleClock "203.0.113.7:8333" = true
  decide +kernel

/-- Its answer to a peer that knows no block. -/
theorem sent_sampleNodeOf {s : Blockchain} (hne : s.blocks ≠ []) :
    ((sampleNodeOf s).handleMessage Crypto.sample sampleClock "203.0.113.7:8333"
      (.getHeaders [])).sent =
        [.headers ((s.blocks.take maxHeadersPerResponse).map Block.header)] := by
  have hheaders : (s.blocks.take maxHeadersPerResponse).map Block.header ≠ [] := by
    simpa [maxHeadersPerResponse] using hne
  rw [sent_getHeaders Crypto.sample (mayMessage_sampleNodeOf s) rfl]
  exact if_neg hheaders

/-- The answer of a node that has the genesis only is heard. A node with 400 blocks more ends the
connection by its answer. -/
theorem batch_heard_sample :
    (heard Ciphers.sample (sampleFromSlice [.headers [sampleGenesis.header]]) sampleWriter
      sampleReader [.headers [sampleGenesis.header]]).1 = [.headers [sampleGenesis.header]] ∧
    ∃ s headers, Blockchain.run Crypto.sample
        (.fromGenesisWithMagic Crypto.sample sampleGenesis none regtestMagic)
        (Blockchain.deliver (fun _ => sampleNow) 0 (idleChain 399).tail) = s ∧
      ((sampleNodeOf s).handleMessage Crypto.sample sampleClock "203.0.113.7:8333"
        (.getHeaders [])).sent = [.headers headers] ∧ headers.length = 401 ∧
      heard Ciphers.sample (sampleFromSlice [.headers headers]) sampleWriter sampleReader
        [.headers headers] = ([], some .json) := by
  have hspelled : sampleGenesis.header.Spelled := by
    have hzero : zeroHashHex = hashToHex (List.Vector.replicate 32 0) := by decide +kernel
    exact ⟨⟨_, hzero⟩, exists_hashToHex_merkleRoot Crypto.sample [genesisCoinbase]⟩
  constructor
  · have hsent : (sampleNode.handleMessage Crypto.sample sampleClock "203.0.113.7:8333"
        (.getHeaders [])).sent = [.headers [sampleGenesis.header]] :=
      @sent_sampleNodeOf sampleNode.chain (by decide)
    have hmain := (batch_heard Crypto.sample sampleGenesis hspelled [sampleGenesis] sampleNode
      (.start none regtestMagic) sampleClock "203.0.113.7:8333"
      (mayMessage_sampleNodeOf sampleNode.chain) [] Ciphers.sample Ciphers.lawful_sample
      (sampleFromSlice [.headers [sampleGenesis.header]]) sampleWriter sampleReader
        paired_sample rfl
      (hsent ▸ readsJson_singleton (.headers [sampleGenesis.header]))).1
      (show [sampleGenesis].length - _ ≤ 248 from (Nat.sub_le _ _).trans (by decide))
    rwa [hsent] at hmain
  · obtain ⟨s, -, hrun, -, hblocks, -, -⟩ :=
      (@sampleChain_idleChain 399 (by decide)).run_deliver (by decide)
    have hlen : s.blocks.length = 401 := by rw [hblocks, length_idleChain]
    have hsent := @sent_sampleNodeOf s (List.ne_nil_of_length_pos (by omega))
    obtain ⟨headers, hheaders⟩ : ∃ headers, headers =
      (s.blocks.take maxHeadersPerResponse).map Block.header := ⟨_, rfl⟩
    rw [← hheaders] at hsent
    have hreached := (@Blockchain.Reached.start Crypto.sample sampleGenesis none regtestMagic).run
      (Blockchain.deliver (fun _ => sampleNow) 0 (idleChain 399).tail)
    rw [hrun] at hreached
    have hmain := (batch_heard Crypto.sample sampleGenesis hspelled _ (sampleNodeOf s) hreached
      sampleClock "203.0.113.7:8333" (mayMessage_sampleNodeOf s) [] Ciphers.sample
      Ciphers.lawful_sample (sampleFromSlice [.headers headers]) sampleWriter sampleReader
      paired_sample rfl
      (hsent ▸ readsJson_singleton (.headers headers))).2
      (show 317 ≤ s.blocks.length - 0 by omega)
    rw [hsent] at hmain
    refine ⟨s, headers, hrun, hsent, ?_, hmain⟩
    rw [hheaders, List.length_map, List.length_take, hlen]
    rfl

end Arkos
