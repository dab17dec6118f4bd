import Arkos.Crypto
import Mathlib.Algebra.Order.Group.Nat

/-!
# Wallets

A wallet is a pair of key pairs, one for ECDSA over secp256k1 and one for ML-DSA-65. The secret of
the first is a scalar, the secret of the second a seed of 32 bytes, and both public keys are
functions of the secrets. The constructors differ in where the seed comes from: `generate` draws it,
`from_parts` is given it, and `from_ecdsa_secret_bytes` derives it from the scalar.

Everything the source draws at random is an argument here, so that a constructor is a function. The
one that makes a phrase draws 32 bytes of entropy and takes them for the scalar; it panics when they
are none, which is the `none` of `Wallet.generateWithPhrase`.

## What is assumed of the libraries

The secret of an ECDSA key is modelled as the scalar it is: a number between one and the order of
the group, which the constructors check and the arithmetic of child keys respects. `SecretKey` is
the type of that name in the library, with its `from_slice`, `secret_bytes` and `add_tweak`.

The rest are parameters, and `WalletCrypto` has them. `publicKey` is `PublicKey::from_secret_key`
with `serialize`; `verifyingKey` is `from_seed`, `verifying_key` and `encode` of ML-DSA;
`hmacSha256` and `hmacSha512` take the key and the message; `mnemonic` spells 32 bytes of entropy,
and `parseMnemonic` is `parse_in_normalized` with `to_entropy`, or the text of its error.

The texts of `hexDecode` and `secretKey` among the errors are those of the libraries.

## Main definitions

* `SecretKey`, `WalletCrypto`, `HybridKeyPair`
* `Wallet.new`, `Wallet.generateWithPhrase`, `Wallet.fromPhrase`, `Wallet.fromSecretHex`
* `HdWallet`, `HdWallet.deriveReceiving`, `HdWallet.deriveChange`

## Main results

* `SecretKey.fromSlice_secretBytes` — a secret survives being written out
-/

namespace Arkos

/-! ### Secrets of ECDSA keys -/

/-- The order of the secp256k1 group. -/
def curveOrder : ℕ := 0xfffffffffffffffffffffffffffffffebaaedce6af48a03bbfd25e8cd0364141

@[ext]
structure SecretKey where
  scalar : ℕ
  pos : 0 < scalar
  lt : scalar < curveOrder
  deriving DecidableEq

namespace SecretKey

def fromSlice (bs : Bytes) : Option SecretKey :=
  if h : bs.length = 32 ∧ 0 < ofBeBytes bs ∧ ofBeBytes bs < curveOrder then
    some ⟨ofBeBytes bs, h.2.1, h.2.2⟩
  else none

def secretBytes (k : SecretKey) : Hash := ⟨beBytes 32 k.scalar, length_beBytes 32 k.scalar⟩

/-- The tweak is a scalar below the order of the group. -/
def addTweak (k : SecretKey) (tweak : ℕ) : Option SecretKey :=
  if h : 0 < (k.scalar + tweak) % curveOrder then
    some ⟨(k.scalar + tweak) % curveOrder, h, Nat.mod_lt _ (by decide)⟩
  else none

/-- **A secret survives being written out.** -/
theorem fromSlice_secretBytes (k : SecretKey) : fromSlice k.secretBytes.toList = some k := by
  have hvalue : ofBeBytes (beBytes 32 k.scalar) = k.scalar := by
    have hlt : k.scalar < 256 ^ 32 := lt_trans k.lt (by decide)
    rw [ofBeBytes_beBytes, Nat.mod_eq_of_lt hlt]
  have hok : (beBytes 32 k.scalar).length = 32 ∧ 0 < ofBeBytes (beBytes 32 k.scalar) ∧
      ofBeBytes (beBytes 32 k.scalar) < curveOrder := by
    rw [hvalue]
    exact ⟨length_beBytes 32 k.scalar, k.pos, k.lt⟩
  show fromSlice (beBytes 32 k.scalar) = some k
  rw [fromSlice, dif_pos hok]
  exact congrArg some (SecretKey.ext hvalue)

end SecretKey

/-- What wallets take from their libraries. -/
structure WalletCrypto extends Crypto where
  publicKey : SecretKey → Bytes
  verifyingKey : Hash → Bytes
  hmacSha256 : Bytes → Bytes → Hash
  hmacSha512 : Bytes → Bytes → List.Vector UInt8 64
  mnemonic : Hash → String
  parseMnemonic : String → Except String Bytes

/-- Why a wallet cannot be built. -/
inductive WalletError where
  | notHybrid
  | hexDecode
  | secretKey
  | seedLength (bytes : ℕ)
  | publicKeyMismatch
  | invalidPhrase (error : String)
  | phraseLength
  | tweakRange (index : ℕ)
  | childKey (index : ℕ)
  deriving DecidableEq, Repr

/-- The text of the error, where the source gives it. -/
def WalletError.message : WalletError → Option String
  | .notHybrid => some "wallet key is not a hybrid Arkos key"
  | .hexDecode => none
  | .secretKey => none
  | .seedLength bytes => some ("ML-DSA seed must be 32 bytes, got " ++ toString bytes)
  | .publicKeyMismatch => some "ML-DSA public key does not match seed"
  | .invalidPhrase error => some ("invalid recovery phrase: " ++ error)
  | .phraseLength => some "phrase must be 24 words (256-bit / 32-byte entropy)"
  | .tweakRange index =>
    some ("child key derivation tweak is out of range at index " ++ toString index)
  | .childKey index => some ("child key derivation failed at index " ++ toString index)

/-! ### Key pairs -/

/-- The secret of the ML-DSA key is its seed. -/
structure HybridKeyPair where
  ecdsaSecret : SecretKey
  ecdsaPublic : Bytes
  dilithiumSecret : Hash
  dilithiumPublic : Bytes
  deriving DecidableEq

structure Wallet where
  keypair : HybridKeyPair
  deriving DecidableEq

section

variable (W : WalletCrypto)

/-- `derive_mldsa_seed_from_ecdsa`. -/
def deriveMldsaSeedFromEcdsa (ecdsaSecret : SecretKey) : Hash :=
  W.hmacSha256 (utf8 "arkos-mldsa-v1") ecdsaSecret.secretBytes.toList

namespace HybridKeyPair

/-- The key pair of two secrets. -/
def ofSecrets (ecdsaSecret : SecretKey) (mldsaSeed : Hash) : HybridKeyPair where
  ecdsaSecret
  ecdsaPublic := W.publicKey ecdsaSecret
  dilithiumSecret := mldsaSeed
  dilithiumPublic := W.verifyingKey mldsaSeed

def generate (ecdsaSecret : SecretKey) (mldsaSeed : Hash) : HybridKeyPair :=
  ofSecrets W ecdsaSecret mldsaSeed

/-- The public key of the second pair has to be that of the seed. -/
def fromParts (ecdsaSecretBytes dilithiumSecretBytes dilithiumPublicBytes : Bytes) :
    Except WalletError HybridKeyPair :=
  match SecretKey.fromSlice ecdsaSecretBytes with
  | none => .error .secretKey
  | some ecdsaSecret =>
    if h : dilithiumSecretBytes.length = 32 then
      if W.verifyingKey ⟨dilithiumSecretBytes, h⟩ ≠ dilithiumPublicBytes then
        .error .publicKeyMismatch
      else
        .ok
          { ecdsaSecret
            ecdsaPublic := W.publicKey ecdsaSecret
            dilithiumSecret := ⟨dilithiumSecretBytes, h⟩
            dilithiumPublic := dilithiumPublicBytes }
    else .error (.seedLength dilithiumSecretBytes.length)

def fromEcdsaSecretBytes (ecdsaSecretBytes : Bytes) : Except WalletError HybridKeyPair :=
  match SecretKey.fromSlice ecdsaSecretBytes with
  | none => .error .secretKey
  | some ecdsaSecret => .ok (ofSecrets W ecdsaSecret (deriveMldsaSeedFromEcdsa W ecdsaSecret))

def publicKey (k : HybridKeyPair) : HybridPublicKey := ⟨k.ecdsaPublic, k.dilithiumPublic⟩

end HybridKeyPair

/-! ### Constructors -/

namespace Wallet

def new (ecdsaSecret : SecretKey) (mldsaSeed : Hash) : Wallet :=
  ⟨HybridKeyPair.generate W ecdsaSecret mldsaSeed⟩

/-- `str::split` on a colon. -/
def splitColon (text : String) : List String := (text.toList.splitOn ':').map String.ofList

def fromSecretHex (hex : String) : Except WalletError Wallet :=
  match splitColon hex with
  | [scheme, ecdsa, secret, pub] =>
    if scheme ≠ "hybrid" then .error .notHybrid
    else
      match hexDecode (utf8 ecdsa), hexDecode (utf8 secret), hexDecode (utf8 pub) with
      | some ecdsaSecret, some dilithiumSecret, some dilithiumPublic =>
        (HybridKeyPair.fromParts W ecdsaSecret dilithiumSecret dilithiumPublic).map Wallet.mk
      | _, _, _ => .error .hexDecode
  | _ => .error .notHybrid

def address (w : Wallet) : String :=
  hexEncode (W.hybridPubkeyToAddress w.keypair.ecdsaPublic w.keypair.dilithiumPublic)

/-- What the vault keeps of a wallet. -/
def secretKeyHex (w : Wallet) : String :=
  "hybrid:" ++ hexEncode w.keypair.ecdsaSecret.secretBytes.toList ++ ":" ++
    hexEncode w.keypair.dilithiumSecret.toList ++ ":" ++ hexEncode w.keypair.dilithiumPublic

def generateWithPhrase (entropy : Hash) : Option (Wallet × String) :=
  match HybridKeyPair.fromEcdsaSecretBytes W entropy.toList with
  | .error _ => none
  | .ok keypair => some (⟨keypair⟩, W.mnemonic entropy)

/-- The phrase spells the secret of the ECDSA key. -/
def phrase (w : Wallet) : String := W.mnemonic w.keypair.ecdsaSecret.secretBytes

def fromPhrase (phrase : String) : Except WalletError Wallet :=
  match W.parseMnemonic phrase with
  | .error e => .error (.invalidPhrase e)
  | .ok entropy =>
    if entropy.length ≠ 32 then .error .phraseLength
    else (HybridKeyPair.fromEcdsaSecretBytes W entropy).map Wallet.mk

end Wallet

/-! ### Child keys -/

structure HdWallet where
  masterSecret : SecretKey
  masterChainCode : Bytes

/-- `derive_child_key`. -/
def deriveChildKey (parentSecret : SecretKey) (parentChain : Bytes) (index : UInt32) :
    Except WalletError (SecretKey × Bytes) :=
  let result := (W.hmacSha512 parentChain
    (W.publicKey parentSecret ++ beBytes 4 index.toNat)).toList
  let tweak := ofBeBytes (result.take 32)
  if curveOrder ≤ tweak then .error (.tweakRange index.toNat)
  else
    match parentSecret.addTweak tweak with
    | none => .error (.childKey index.toNat)
    | some childSecret => .ok (childSecret, result.drop 32)

namespace HdWallet

/-- A child of a child: the account first, the index under it. -/
def deriveChildWallet (parentSecret : SecretKey) (parentChain : Bytes) (account index : UInt32) :
    Except WalletError Wallet :=
  match deriveChildKey W parentSecret parentChain account with
  | .error e => .error e
  | .ok (acctSecret, acctChain) =>
    match deriveChildKey W acctSecret acctChain index with
    | .error e => .error e
    | .ok (childSecret, _) =>
      (HybridKeyPair.fromEcdsaSecretBytes W childSecret.secretBytes.toList).map Wallet.mk

def deriveReceiving (hd : HdWallet) (index : UInt32) : Except WalletError Wallet :=
  deriveChildWallet W hd.masterSecret hd.masterChainCode 0 index

def deriveChange (hd : HdWallet) (index : UInt32) : Except WalletError Wallet :=
  deriveChildWallet W hd.masterSecret hd.masterChainCode 1 index

end HdWallet

end

/-- Computable libraries for concrete wallets: the words of a phrase are the digits of its
entropy. -/
def WalletCrypto.sample : WalletCrypto where
  toCrypto := Crypto.sample
  publicKey k := beBytes 33 k.scalar
  verifyingKey seed := seed.toList ++ List.replicate 1920 0
  hmacSha256 key message := sampleDigest (key ++ message)
  hmacSha512 key message :=
    ⟨(sampleDigest (key ++ message)).toList ++ (sampleDigest (message ++ key)).toList, by simp⟩
  mnemonic entropy := hexEncode entropy.toList
  parseMnemonic words :=
    match hexDecode (utf8 words) with
    | some entropy => .ok entropy
    | none => .error "mnemonic contains an unknown word"

end Arkos
