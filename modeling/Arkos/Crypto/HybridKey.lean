import Arkos.Crypto

/-!
# Hybrid public keys as text

A hybrid public key is written in hexadecimal: the length of its ECDSA part in two bytes, that part,
and its ML-DSA part, which takes the rest. The length is cut to two bytes when it is written, so a
longer ECDSA part is not read back. A reader asks for four bytes before it looks at the length,
which leaves out the keys with less than two bytes in all.

## Main definitions

* `HybridPublicKey.toHex`, `HybridPublicKey.fromHex`
* `HybridPublicKey.Encodable`

## Main results

* `HybridPublicKey.fromHex_eq_ok_iff` — what is read
* `HybridPublicKey.hybrid_key_hex_codec`
-/

namespace Arkos

/-- The errors of `HybridPublicKey::from_hex`. -/
inductive HybridKeyError where
  /-- The text is that of the `hex` library. -/
  | hexDecode
  | tooShort
  | truncated
  deriving DecidableEq, Repr

/-- The text of an error, for those that the program writes. -/
def HybridKeyError.message : HybridKeyError → Option String
  | .hexDecode => none
  | .tooShort => some "hybrid pubkey too short"
  | .truncated => some "hybrid pubkey truncated"

namespace HybridPublicKey

/-- The bytes `to_hex` writes. The length is that of the ECDSA part modulo `2 ^ 16`. -/
def toBytes (pk : HybridPublicKey) : Bytes :=
  beBytes 2 pk.ecdsaPubkey.length ++ pk.ecdsaPubkey ++ pk.dilithiumPubkey

/-- `HybridPublicKey::to_hex`. -/
def toHex (pk : HybridPublicKey) : String := hexEncode pk.toBytes

/-- `HybridPublicKey::from_hex`. -/
def fromHex (hexStr : String) : Except HybridKeyError HybridPublicKey :=
  match hexDecode (utf8 hexStr) with
  | none => .error .hexDecode
  | some data =>
    if data.length < 4 then .error .tooShort
    else
      let ecdsaLen := ofBeBytes (data.take 2)
      if data.length < 2 + ecdsaLen then .error .truncated
      else .ok ⟨(data.drop 2).take ecdsaLen, data.drop (2 + ecdsaLen)⟩

/-- The keys that have an encoding: the length of the ECDSA part fits into two bytes, and there are
two bytes of key. -/
structure Encodable (pk : HybridPublicKey) : Prop where
  ecdsa_le : pk.ecdsaPubkey.length ≤ 65535
  two_le : 2 ≤ pk.ecdsaPubkey.length + pk.dilithiumPubkey.length

theorem length_toBytes (pk : HybridPublicKey) :
    pk.toBytes.length = 2 + pk.ecdsaPubkey.length + pk.dilithiumPubkey.length := by
  simp [toBytes]
  omega

theorem take_toBytes (pk : HybridPublicKey) :
    pk.toBytes.take 2 = beBytes 2 pk.ecdsaPubkey.length := by
  rw [toBytes, List.append_assoc, List.take_left' (length_beBytes 2 _)]

theorem drop_toBytes (pk : HybridPublicKey) :
    pk.toBytes.drop 2 = pk.ecdsaPubkey ++ pk.dilithiumPubkey := by
  rw [toBytes, List.append_assoc, List.drop_left' (length_beBytes 2 _)]

/-- The bytes of a key are cut where they were joined. -/
theorem ofBeBytes_take_toBytes {pk : HybridPublicKey} (h : pk.Encodable) :
    ofBeBytes (pk.toBytes.take 2) = pk.ecdsaPubkey.length := by
  have hle := h.ecdsa_le
  rw [take_toBytes, ofBeBytes_beBytes, Nat.mod_eq_of_lt (by omega)]

/-- **What is read**: the text is the encoding of an encodable key, in either case. -/
theorem fromHex_eq_ok_iff {hexStr : String} {pk : HybridPublicKey} :
    fromHex hexStr = .ok pk ↔ pk.Encodable ∧ hexStr.toLower = pk.toHex := by
  rw [toHex, ← hexDecode_utf8_eq_some_iff, fromHex]
  constructor
  · intro h
    split at h
    · cases h
    next data hdata =>
      dsimp only at h
      split at h
      · cases h
      next hfour =>
        split at h
        · cases h
        next hlen =>
          obtain rfl := Except.ok.inj h
          have htake : (data.take 2).length = 2 := List.length_take_of_le (by omega)
          have hlt := ofBeBytes_lt (data.take 2)
          rw [htake] at hlt
          have hecdsa : ((data.drop 2).take (ofBeBytes (data.take 2))).length =
              ofBeBytes (data.take 2) := List.length_take_of_le (by rw [List.length_drop]; omega)
          refine ⟨⟨?_, ?_⟩, ?_⟩
          · rw [hecdsa]
            omega
          · rw [hecdsa, List.length_drop]
            omega
          · have hprefix := beBytes_ofBeBytes (data.take 2)
            rw [htake] at hprefix
            rw [hdata, toBytes, hecdsa, hprefix, ← List.drop_drop, List.append_assoc,
              List.take_append_drop, List.take_append_drop]
  · rintro ⟨hpk, hdata⟩
    have hlen := length_toBytes pk
    have htwo := hpk.two_le
    rw [hdata]
    dsimp only
    rw [ofBeBytes_take_toBytes hpk, if_neg (by omega), if_neg (by omega), drop_toBytes,
      List.take_left, ← List.drop_drop, drop_toBytes, List.drop_left]

/-- **The codec of hybrid public keys.** -/
theorem hybrid_key_hex_codec :
    (∀ pk : HybridPublicKey, pk.ecdsaPubkey.length ≤ 65535 →
      2 ≤ pk.ecdsaPubkey.length + pk.dilithiumPubkey.length → fromHex pk.toHex = .ok pk) ∧
    (∀ hexStr pk, fromHex hexStr = .ok pk → pk.toHex = hexStr.toLower) ∧
    ∀ hexStr, (∃ pk, fromHex hexStr = .ok pk) ↔ ∃ pk : HybridPublicKey,
      pk.ecdsaPubkey.length ≤ 65535 ∧
        2 ≤ pk.ecdsaPubkey.length + pk.dilithiumPubkey.length ∧ pk.toHex = hexStr.toLower := by
  refine ⟨fun pk hecdsa htwo => ?_, fun hexStr pk h => ?_, fun hexStr => ?_⟩
  · exact fromHex_eq_ok_iff.mpr ⟨⟨hecdsa, htwo⟩, toLower_hexEncode _⟩
  · exact (fromHex_eq_ok_iff.mp h).2.symm
  · constructor
    · rintro ⟨pk, h⟩
      obtain ⟨hpk, htext⟩ := fromHex_eq_ok_iff.mp h
      exact ⟨pk, hpk.ecdsa_le, hpk.two_le, htext.symm⟩
    · rintro ⟨pk, hecdsa, htwo, htext⟩
      exact ⟨pk, fromHex_eq_ok_iff.mpr ⟨⟨hecdsa, htwo⟩, htext.symm⟩⟩

end HybridPublicKey

end Arkos
