import Arkos.Lib.Codec
import Mathlib.Data.Vector.Basic

/-!
# Hashes, keys and signatures

The cryptographic types of the node and the three operations it takes from its libraries. The
double SHA-256, the hybrid signature check and the parsing of an ECDSA key are fields of `Crypto`
and not definitions: everything above this module is stated for an arbitrary `C : Crypto`, and
what a result needs of the hash function it says itself.

Nothing is assumed here. In particular no hash is injective, which no function into 32 bytes
could be: collision-freeness is always a hypothesis about the finitely many strings a run hashes.

## Main definitions

* `Hash`, `HybridSignature`, `HybridPublicKey`
* `Crypto` — the parameters
* `hashToHex`, `Crypto.hybridPubkeyToAddress`
* `Crypto.sample` — a computable instance for concrete runs
-/

namespace Arkos

/-- A byte string. -/
abbrev Bytes := List UInt8

/-- `Hash`: 32 bytes. -/
abbrev Hash := List.Vector UInt8 32

/-- `HybridSignature`: an ECDSA and an ML-DSA-65 signature over the same message. -/
structure HybridSignature where
  ecdsaSig : Bytes
  dilithiumSig : Bytes
  deriving DecidableEq, Repr

/-- `HybridPublicKey`: the key pair a hybrid signature is checked against. -/
structure HybridPublicKey where
  ecdsaPubkey : Bytes
  dilithiumPubkey : Bytes
  deriving DecidableEq, Repr

/-- What the node takes from its cryptographic libraries. -/
structure Crypto where
  /-- `hash256`: SHA-256 applied twice. -/
  hash256 : Bytes → Hash
  /-- `HybridSignature::verify`, with the text of its error. -/
  verify : HybridSignature → Bytes → HybridPublicKey → Except String Unit
  /-- `secp256k1::PublicKey::from_slice` followed by `serialize`: the compressed form of a key
  that parses. -/
  publicKeyFromSlice : Bytes → Option Bytes

/-- `hash_to_hex`. -/
def hashToHex (h : Hash) : String := hexEncode h.toList

theorem hashToHex_injective : Function.Injective hashToHex := fun _ _ h =>
  List.Vector.eq _ _ (hexEncode_injective h)

theorem length_utf8_hashToHex (h : Hash) : (utf8 (hashToHex h)).length = 64 := by
  rw [hashToHex, length_utf8_hexEncode, List.Vector.toList_length]

/-- `hybrid_pubkey_to_address`: the first 20 bytes of the double SHA-256 of both keys. -/
def Crypto.hybridPubkeyToAddress (C : Crypto) (ecdsaPk mlDsaPk : Bytes) : Bytes :=
  (C.hash256 (ecdsaPk ++ mlDsaPk)).toList.take 20

/-! ### A computable instance

Concrete runs of the model need some hash and some signature scheme that can be evaluated. The
digest below is the length and the last bytes of the string, behind a zero byte that makes it meet
an easy target. Keys and signatures have the sizes of real ones, 33 and 1952 bytes and 64 and 3309
bytes, so that a block of the sample instance is as large as a real one. -/

/-- The digest of the sample instance: a zero byte, the length, and the last 23 bytes backwards. -/
def sampleDigest (data : Bytes) : Hash :=
  ⟨0 :: (leBytes 8 data.length ++ (data.reverse ++ List.replicate 23 0).take 23), by simp⟩

/-- The message, filled up to 3309 bytes. -/
def samplePad (message : Bytes) : Bytes := message ++ 1 :: List.replicate (3308 - message.length) 0

/-- The signature the sample instance accepts: the key before the digest, and the message. -/
def sampleSign (pubkey : HybridPublicKey) (message : Bytes) : HybridSignature :=
  ⟨pubkey.ecdsaPubkey.take 32 ++ (sampleDigest message).toList, samplePad message⟩

/-- A computable `Crypto`. -/
def Crypto.sample : Crypto where
  hash256 := sampleDigest
  verify sig message pubkey :=
    if pubkey.ecdsaPubkey.length ≠ 33 then .error "invalid ECDSA public key"
    else if pubkey.dilithiumPubkey.length ≠ 1952 then
      .error "invalid ML-DSA-65 public key (wrong size)"
    else if sig = sampleSign pubkey message then .ok ()
    else .error "ECDSA signature verification FAILED"
  publicKeyFromSlice bs := if bs.length = 33 then some bs else none

theorem samplePad_injective : Function.Injective samplePad := by
  -- what is left after the zeros at the end is the message behind a one
  have hdrop : ∀ m, (samplePad m).reverse.dropWhile (· == 0) = 1 :: m.reverse := by
    intro m
    rw [samplePad, List.reverse_append, List.reverse_cons, List.reverse_replicate,
      List.append_assoc, List.dropWhile_append_of_pos fun b hb => beq_iff_eq.mpr
        (List.eq_of_mem_replicate hb)]
    rfl
  intro m m' h
  have heq := hdrop m
  rw [h, hdrop m'] at heq
  exact List.reverse_injective (List.cons.inj heq).2.symm

theorem length_samplePad {message : Bytes} (h : message.length ≤ 3308) :
    (samplePad message).length = 3309 := by
  rw [samplePad, List.length_append, List.length_cons, List.length_replicate]
  omega

/-- The signature of a key of the right sizes is accepted, and no other. -/
theorem verify_sample_eq_ok_iff {sig : HybridSignature} {message : Bytes}
    {pubkey : HybridPublicKey} :
    Crypto.sample.verify sig message pubkey = .ok () ↔ pubkey.ecdsaPubkey.length = 33 ∧
      pubkey.dilithiumPubkey.length = 1952 ∧ sig = sampleSign pubkey message := by
  simp only [Crypto.sample, ne_eq, ite_not]
  split_ifs with he hd hs
  · exact iff_of_true rfl ⟨he, hd, hs⟩
  · exact iff_of_false (fun h => nomatch h) fun h => hs h.2.2
  · exact iff_of_false (fun h => nomatch h) fun h => hd h.2.1
  · exact iff_of_false (fun h => nomatch h) fun h => he h.1

end Arkos
