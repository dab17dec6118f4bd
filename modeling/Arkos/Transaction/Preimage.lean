import Arkos.Transaction.ScriptJson

/-!
# What a signature covers

The string `sig_hash` hashes has no counts and no lengths in its input part, so it does not say
where the inputs end and the outputs begin. It can be read in one way nevertheless, for inputs in
the format their fields really have: the first byte of an ECDSA key gives its length, everything
else has a fixed width, and the twelfth byte of an input is a hexadecimal digit, where an output has
the highest byte of the length of its script.

## Main definitions

* `TxInput.WellShaped`, `Transaction.WellShaped` — the format of the fields
* `TxInput.signedPart`, `TxOutput.signedPart` — what of them is covered

## Main results

* `prefixCode_outputPart` — outputs, of any length
* `sigPreimage_unambiguous`
-/

namespace Arkos

/-! ### The parts of the string -/

/-- The covered part of an input. -/
def TxInput.signedPart (i : TxInput) : String × UInt32 × HybridPublicKey :=
  (i.prevTxHash, i.prevIndex, i.pubkey)

/-- The covered part of an output. -/
def TxOutput.signedPart (o : TxOutput) : UInt64 × Script := (o.value, o.effectiveScript)

/-- The bytes of an input. -/
def inputPart (p : String × UInt32 × HybridPublicKey) : Bytes :=
  utf8 p.1 ++ (leBytes 4 p.2.1.toNat ++ (p.2.2.ecdsaPubkey ++ p.2.2.dilithiumPubkey))

/-- The bytes of an output. -/
def outputPart (p : UInt64 × Script) : Bytes :=
  leBytes 8 p.1.toNat ++ (leBytes 4 p.2.toBytes.length ++ p.2.toBytes)

theorem sigPreimage_eq (tx : Transaction) (magic : UInt32) :
    tx.sigPreimage magic = leBytes 4 magic.toNat ++ (leBytes 4 tx.version.toNat ++
      ((tx.inputs.map TxInput.signedPart).flatMap inputPart ++
        (tx.outputs.map TxOutput.signedPart).flatMap outputPart)) := by
  simp only [Transaction.sigPreimage, List.append_assoc, List.flatMap_map]
  rfl

/-- Outputs can be read off in one way, whatever their lengths. -/
theorem prefixCode_outputPart : PrefixCode outputPart := by
  rintro ⟨v, x⟩ ⟨w, y⟩ r s h
  simp only [outputPart, List.append_assoc] at h
  obtain ⟨hv, h₁⟩ := List.append_inj h (by simp)
  obtain ⟨-, h₂⟩ := List.append_inj h₁ (by simp)
  obtain ⟨rfl, h₃⟩ := Script.prefixCode_toBytes h₂
  obtain rfl := UInt64.toNat_inj.mp (leBytes_inj v.toNat_lt w.toNat_lt hv)
  exact ⟨rfl, h₃⟩

theorem outputPart_ne_nil (p : UInt64 × Script) : outputPart p ≠ [] := by
  intro h
  have hlen := congrArg List.length h
  simp [outputPart] at hlen

/-! ### The format of the fields -/

/-- The format of an input that is not a coinbase: a transaction hash in hexadecimal, an ECDSA key
in compressed or uncompressed form and an ML-DSA-65 key. -/
structure TxInput.WellShaped (i : TxInput) : Prop where
  hash_length : i.prevTxHash.toList.length = 64
  hash_hex : ∀ c ∈ i.prevTxHash.toList, IsHexChar c
  ecdsa : (i.pubkey.ecdsaPubkey.length = 33 ∧
      (i.pubkey.ecdsaPubkey.head? = some 2 ∨ i.pubkey.ecdsaPubkey.head? = some 3)) ∨
    i.pubkey.ecdsaPubkey.length = 65 ∧ (i.pubkey.ecdsaPubkey.head? = some 4 ∨
      i.pubkey.ecdsaPubkey.head? = some 6 ∨ i.pubkey.ecdsaPubkey.head? = some 7)
  dilithium : i.pubkey.dilithiumPubkey.length = 1952

/-- The format of a transaction: that of its inputs, and scripts below half a gigabyte. -/
structure Transaction.WellShaped (tx : Transaction) : Prop where
  inputs : ∀ i ∈ tx.inputs, i.WellShaped
  outputs : ∀ o ∈ tx.outputs, o.effectiveScript.toBytes.length < 2 ^ 29

theorem exists_utf8_of_hex {cs : List Char} (h : ∀ c ∈ cs, IsHexChar c) :
    (cs.flatMap String.utf8EncodeChar).length = cs.length ∧
      ∀ b ∈ cs.flatMap String.utf8EncodeChar, 48 ≤ b.toNat := by
  induction cs with
  | nil => simp
  | cons c cs ih =>
    obtain ⟨hc, hcs⟩ := List.forall_mem_cons.mp h
    obtain ⟨b, -, hb, -, hle⟩ := utf8EncodeChar_hexChar hc
    obtain ⟨hlen, hall⟩ := ih hcs
    rw [List.flatMap_cons, hb]
    refine ⟨by simp [hlen], ?_⟩
    simpa [hle] using hall

namespace TxInput.WellShaped

variable {i j : TxInput}

theorem length_utf8 (h : i.WellShaped) : (utf8 i.prevTxHash).length = 64 := by
  rw [utf8_eq_flatMap, (exists_utf8_of_hex h.hash_hex).1, h.hash_length]

/-- The first byte of the key gives its length. -/
theorem ecdsa_eq (h : i.WellShaped) (h' : j.WellShaped) {r s : Bytes}
    (he : i.pubkey.ecdsaPubkey ++ r = j.pubkey.ecdsaPubkey ++ s) :
    i.pubkey.ecdsaPubkey = j.pubkey.ecdsaPubkey ∧ r = s := by
  refine List.append_inj he ?_
  have hne : ∀ {i : TxInput}, i.WellShaped → i.pubkey.ecdsaPubkey ≠ [] := by
    intro i hi hnil
    have hform := hi.ecdsa
    rw [hnil] at hform
    simp at hform
  have hhead : i.pubkey.ecdsaPubkey.head? = j.pubkey.ecdsaPubkey.head? := by
    have := congrArg List.head? he
    rwa [List.head?_append_of_ne_nil _ (hne h), List.head?_append_of_ne_nil _ (hne h')] at this
  have hform := h.ecdsa
  have hform' := h'.ecdsa
  rw [hhead] at hform
  rcases hform with ⟨hlen, hb⟩ | ⟨hlen, hb⟩ <;> rcases hform' with ⟨hlen', hb'⟩ | ⟨hlen', hb'⟩
  · rw [hlen, hlen']
  · rcases hb with hb | hb <;> rw [hb] at hb' <;> simp at hb'
  · rcases hb with hb | hb | hb <;> rw [hb] at hb' <;> simp at hb'
  · rw [hlen, hlen']

/-- Two inputs at the front of a string are the same input. -/
theorem inputPart_inj (h : i.WellShaped) (h' : j.WellShaped) {r s : Bytes}
    (he : inputPart i.signedPart ++ r = inputPart j.signedPart ++ s) :
    i.signedPart = j.signedPart ∧ r = s := by
  simp only [inputPart, signedPart, List.append_assoc] at he
  obtain ⟨hhash, h₁⟩ := List.append_inj he (by rw [h.length_utf8, h'.length_utf8])
  obtain ⟨hidx, h₂⟩ := List.append_inj h₁ (by simp)
  obtain ⟨hecdsa, h₃⟩ := h.ecdsa_eq h' h₂
  obtain ⟨hdil, h₄⟩ := List.append_inj h₃ (by rw [h.dilithium, h'.dilithium])
  have hindex := UInt32.toNat_inj.mp (leBytes_inj i.prevIndex.toNat_lt j.prevIndex.toNat_lt hidx)
  have hkey : i.pubkey = j.pubkey := by
    cases hi : i.pubkey
    cases hj : j.pubkey
    rw [hi, hj] at hecdsa hdil
    subst hecdsa hdil
    rfl
  exact ⟨by rw [signedPart, signedPart, utf8_injective hhash, hindex, hkey], h₄⟩

/-- The twelfth byte of an input is a digit. -/
theorem getElem?_inputPart (h : i.WellShaped) (r : Bytes) :
    ∃ b, (inputPart i.signedPart ++ r)[11]? = some b ∧ 48 ≤ b.toNat := by
  have hlen := h.length_utf8
  have hlt : 11 < (utf8 i.prevTxHash).length := by omega
  refine ⟨(utf8 i.prevTxHash)[11], ?_, ?_⟩
  · simp only [inputPart, signedPart, List.append_assoc]
    rw [List.getElem?_append_left hlt, List.getElem?_eq_getElem hlt]
  · refine (exists_utf8_of_hex h.hash_hex).2 _ ?_
    rw [← utf8_eq_flatMap]
    exact List.getElem_mem hlt

end TxInput.WellShaped

/-! ### Reading the string -/

/-- The twelfth byte of an output, the highest of the length of its script, is not a digit. -/
theorem getElem?_outputPart {p : UInt64 × Script} (h : p.2.toBytes.length < 2 ^ 29) (r : Bytes) :
    ∀ b, (outputPart p ++ r)[11]? = some b → b.toNat < 48 := by
  intro b hb
  simp only [outputPart, leBytes, List.cons_append, List.nil_append, List.getElem?_cons_succ,
    List.getElem?_cons_zero, Option.some.injEq] at hb
  rw [← hb, UInt8.toNat_ofNat']
  omega

theorem getElem?_flatMap_outputPart {ps : List (UInt64 × Script)}
    (h : ∀ p ∈ ps, p.2.toBytes.length < 2 ^ 29) :
    ∀ b, (ps.flatMap outputPart)[11]? = some b → b.toNat < 48 := by
  cases ps with
  | nil => simp
  | cons p ps =>
    rw [List.flatMap_cons]
    exact getElem?_outputPart (h p List.mem_cons_self) _

/-- Inputs up to something that does not look like one. -/
theorem flatMap_inputPart_inj {r s : Bytes} (hr : ∀ b, r[11]? = some b → b.toNat < 48)
    (hs : ∀ b, s[11]? = some b → b.toNat < 48) :
    ∀ {ins ins' : List TxInput}, (∀ i ∈ ins, i.WellShaped) → (∀ i ∈ ins', i.WellShaped) →
      (ins.map TxInput.signedPart).flatMap inputPart ++ r =
        (ins'.map TxInput.signedPart).flatMap inputPart ++ s →
      ins.map TxInput.signedPart = ins'.map TxInput.signedPart ∧ r = s
  | [], [], _, _, he => ⟨rfl, by simpa using he⟩
  | [], j :: ins', _, h', he => by
    obtain ⟨b, hb, hle⟩ := (h' j List.mem_cons_self).getElem?_inputPart
      ((ins'.map TxInput.signedPart).flatMap inputPart ++ s)
    simp only [List.map_nil, List.flatMap_nil, List.nil_append, List.map_cons, List.flatMap_cons,
      List.append_assoc] at he
    rw [← he] at hb
    exact absurd (hr b hb) (by omega)
  | i :: ins, [], h, _, he => by
    obtain ⟨b, hb, hle⟩ := (h i List.mem_cons_self).getElem?_inputPart
      ((ins.map TxInput.signedPart).flatMap inputPart ++ r)
    simp only [List.map_nil, List.flatMap_nil, List.nil_append, List.map_cons, List.flatMap_cons,
      List.append_assoc] at he
    rw [he] at hb
    exact absurd (hs b hb) (by omega)
  | i :: ins, j :: ins', h, h', he => by
    obtain ⟨hi, hins⟩ := List.forall_mem_cons.mp h
    obtain ⟨hj, hins'⟩ := List.forall_mem_cons.mp h'
    simp only [List.map_cons, List.flatMap_cons, List.append_assoc] at he
    obtain ⟨hij, hrest⟩ := hi.inputPart_inj hj he
    obtain ⟨htail, hrs⟩ := flatMap_inputPart_inj hr hs hins hins' hrest
    exact ⟨by rw [List.map_cons, List.map_cons, hij, htail], hrs⟩

/-- **The signing preimage is unambiguous.** For transactions in the format their fields have, equal
strings mean the same network, the same version, the same inputs as far as they are covered, and
outputs of the same values and locks. -/
theorem sigPreimage_unambiguous {magic magic' : UInt32} {tx tx' : Transaction} (h : tx.WellShaped)
    (h' : tx'.WellShaped) (heq : tx.sigPreimage magic = tx'.sigPreimage magic') :
    magic = magic' ∧ tx.version = tx'.version ∧
      tx.inputs.map (fun i => (i.prevTxHash, i.prevIndex, i.pubkey)) =
        tx'.inputs.map (fun i => (i.prevTxHash, i.prevIndex, i.pubkey)) ∧
      tx.outputs.map (fun o => (o.value, o.effectiveScript)) =
        tx'.outputs.map (fun o => (o.value, o.effectiveScript)) := by
  rw [sigPreimage_eq, sigPreimage_eq] at heq
  obtain ⟨hmagic, h₁⟩ := List.append_inj heq (by simp)
  obtain ⟨hversion, h₂⟩ := List.append_inj h₁ (by simp)
  have hscripts : ∀ {tx : Transaction}, tx.WellShaped →
      ∀ p ∈ tx.outputs.map TxOutput.signedPart, p.2.toBytes.length < 2 ^ 29 := by
    intro tx h p hp
    obtain ⟨o, ho, rfl⟩ := List.mem_map.mp hp
    exact h.outputs o ho
  obtain ⟨hins, h₃⟩ := flatMap_inputPart_inj (getElem?_flatMap_outputPart (hscripts h))
    (getElem?_flatMap_outputPart (hscripts h')) h.inputs h'.inputs h₂
  exact ⟨UInt32.toNat_inj.mp (leBytes_inj magic.toNat_lt magic'.toNat_lt hmagic),
    UInt32.toNat_inj.mp (leBytes_inj tx.version.toNat_lt tx'.version.toNat_lt hversion), hins,
    prefixCode_outputPart.flatMap_inj outputPart_ne_nil h₃⟩

/-- A transaction of one input and one output, in the format. -/
def shapedTx (lockTime : UInt64) : Transaction where
  inputs := [{
    prevTxHash := zeroHashHex
    prevIndex := 0
    signature := ⟨[], []⟩
    pubkey := ⟨2 :: List.replicate 32 0, List.replicate 1952 0⟩
    coinbaseExtra := []
    witnesses := [] }]
  outputs := [TxOutput.p2pkh "a" 1000]
  version := 1
  lockTime

theorem wellShaped_shapedTx (lockTime : UInt64) : (shapedTx lockTime).WellShaped := by
  have hzero : zeroHashHex.toList = List.replicate 64 '0' := by decide +kernel
  refine ⟨fun i hi => ?_, fun o ho => ?_⟩
  · rw [List.mem_singleton.mp hi]
    refine ⟨?_, fun c hc => ?_, Or.inl ⟨by decide, Or.inl rfl⟩, List.length_replicate⟩
    · show zeroHashHex.toList.length = 64
      rw [hzero, List.length_replicate]
    · have hc' : c ∈ zeroHashHex.toList := hc
      rw [hzero] at hc'
      rw [List.eq_of_mem_replicate hc']
      exact Or.inl ⟨by decide, by decide⟩
  · rw [List.mem_singleton.mp ho]
    decide +kernel

/-- The lock time is not covered, so these two have one preimage; what is covered agrees. -/
theorem sigPreimage_unambiguous_shapedTx :
    (shapedTx 0).version = (shapedTx 1).version ∧
      (shapedTx 0).outputs.map (fun o => (o.value, o.effectiveScript)) =
        (shapedTx 1).outputs.map (fun o => (o.value, o.effectiveScript)) := by
  have heq : (shapedTx 0).sigPreimage 7 = (shapedTx 1).sigPreimage 7 := rfl
  have h := sigPreimage_unambiguous (wellShaped_shapedTx 0) (wellShaped_shapedTx 1) heq
  exact ⟨h.2.1, h.2.2.2⟩

end Arkos
