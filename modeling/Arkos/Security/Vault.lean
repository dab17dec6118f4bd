import Arkos.Crypto
import Mathlib.Data.Nat.Digits.Defs
import Mathlib.Logic.Equiv.List

/-!
# The vault

The secrets of a node lie in one encrypted file. A vault is never changed in place: a command opens
it, and writes a new one under the same passphrase with a salt and a nonce of its own.

A vault is kept by two things that are derived from the passphrase. Argon2id turns it into the key
of the cipher, with the salt of the file; and a hash of it, with the same salt, is checked before
anything is decrypted. So a wrong passphrase is told apart from a file that was tampered with.

## What is assumed of the libraries

The ciphers and the JSON of the contents are parameters. In `VaultCrypto`, `deriveKey` is Argon2id;
`encrypt` and `decrypt` are AES-256-GCM under a key and a nonce, the one when it does not fail and
the other when the tag is right; `hashPassword` and `verifyPassword` are those of the `Argon2` type,
the latter when the hash can be parsed; `toVec` and `fromSlice` are those of `serde_json`.

`Lawful` asks what the documentation promises, and of the hash no more than a hash can do: only the
passphrases that are typed somewhere have to be told apart. They are a parameter too.

`VaultFile` is the file as it is parsed, with the bytes that its text spells in base64. The texts of
errors that come from a library are the library's own.

## Main definitions

* `VaultContents`, `VaultFile`, `VaultCrypto`
* `createVault`, `openVault`
* `VaultFile.Seals` — what a file opens to, under which passphrase

## Main results

* `seals_of_createVault` — a vault opens to what it was created with
-/

namespace Arkos

structure VaultContents where
  secretKeys : List String
  labels : List String
  createdAt : UInt64
  deriving DecidableEq, Repr

structure VaultFile where
  version : UInt32
  argon2Salt : List.Vector UInt8 16
  nonce : List.Vector UInt8 12
  ciphertext : Bytes
  passphraseHash : String
  deriving DecidableEq

/-- What the vault takes from its libraries. -/
structure VaultCrypto where
  deriveKey : Bytes → List.Vector UInt8 16 → Hash
  encrypt : Hash → List.Vector UInt8 12 → Bytes → Option Bytes
  decrypt : Hash → List.Vector UInt8 12 → Bytes → Option Bytes
  hashPassword : Bytes → List.Vector UInt8 16 → String
  verifyPassword : Bytes → String → Option Bool
  toVec : VaultContents → Bytes
  fromSlice : Bytes → Option VaultContents

/-- What is assumed of the libraries where the passphrases of `P` are typed: decryption undoes
encryption, the contents survive being written out, and a hash is that of one passphrase of `P`. -/
structure VaultCrypto.Lawful (V : VaultCrypto) (P : Set String) : Prop where
  decrypt_encrypt {key : Hash} {nonce : List.Vector UInt8 12} {plaintext ciphertext : Bytes} :
    V.encrypt key nonce plaintext = some ciphertext →
      V.decrypt key nonce ciphertext = some plaintext
  fromSlice_toVec (contents : VaultContents) : V.fromSlice (V.toVec contents) = some contents
  verifyPassword_hashPassword {passphrase passphrase' : String} (salt : List.Vector UInt8 16) :
    passphrase ∈ P → passphrase' ∈ P →
      V.verifyPassword (utf8 passphrase') (V.hashPassword (utf8 passphrase) salt) =
        some (decide (passphrase' = passphrase))

inductive VaultError where
  | shortPassphrase
  | encryption
  | unsupportedVersion (version : UInt32)
  | invalidHash
  | wrongPassphrase
  | decryption
  | contents
  deriving DecidableEq, Repr

/-- The text of the error, where the source gives it. -/
def VaultError.message : VaultError → Option String
  | .shortPassphrase => some "Passphrase must be at least 12 characters"
  | .encryption => none
  | .unsupportedVersion version => some ("unsupported vault version: " ++ toString version.toNat)
  | .invalidHash => none
  | .wrongPassphrase => some "wrong passphrase"
  | .decryption => some "decryption failed — tampered vault or wrong passphrase"
  | .contents => none

section

variable (V : VaultCrypto)

/-- `create_vault`, for the salt and the nonce it draws, when `now` is the time. -/
def createVault (now : UInt64) (salt : List.Vector UInt8 16) (nonce : List.Vector UInt8 12)
    (passphrase : String) (secretKeys labels : List String) : Except VaultError VaultFile :=
  if (utf8 passphrase).length < 12 then .error .shortPassphrase
  else
    let contents : VaultContents := ⟨secretKeys, labels, now⟩
    match V.encrypt (V.deriveKey (utf8 passphrase) salt) nonce (V.toVec contents) with
    | none => .error .encryption
    | some ciphertext =>
      .ok
        { version := 1
          argon2Salt := salt
          nonce
          ciphertext
          passphraseHash := V.hashPassword (utf8 passphrase) salt }

def openVault (passphrase : String) (file : VaultFile) : Except VaultError VaultContents :=
  if file.version ≠ 1 then .error (.unsupportedVersion file.version)
  else
    match V.verifyPassword (utf8 passphrase) file.passphraseHash with
    | none => .error .invalidHash
    | some false => .error .wrongPassphrase
    | some true =>
      match V.decrypt (V.deriveKey (utf8 passphrase) file.argon2Salt) file.nonce
          file.ciphertext with
      | none => .error .decryption
      | some plaintext =>
        match V.fromSlice plaintext with
        | none => .error .contents
        | some contents => .ok contents

/-- The file opens under one passphrase of `P`, and to one thing. -/
def VaultFile.Seals (P : Set String) (file : VaultFile) (passphrase : String)
    (contents : VaultContents) : Prop :=
  ∀ passphrase' ∈ P, ∀ contents',
    openVault V passphrase' file = .ok contents' ↔ passphrase' = passphrase ∧ contents' = contents

end

variable {V : VaultCrypto} {P : Set String} {now : UInt64} {salt : List.Vector UInt8 16}
  {nonce : List.Vector UInt8 12} {passphrase : String} {secretKeys labels : List String}
  {file : VaultFile}

/-- **A vault opens to what it was created with, under the passphrase it was created with and no
other.** -/
theorem seals_of_createVault (hV : V.Lawful P) (hP : passphrase ∈ P)
    (h : createVault V now salt nonce passphrase secretKeys labels = .ok file) :
    file.Seals V P passphrase ⟨secretKeys, labels, now⟩ := by
  simp only [createVault] at h
  split at h
  · cases h
  split at h
  · cases h
  next ciphertext hciphertext =>
    obtain rfl := Except.ok.inj h
    intro passphrase' hP' contents'
    simp only [openVault, hV.verifyPassword_hashPassword salt hP hP']
    by_cases hpass : passphrase' = passphrase
    · subst hpass
      simp [hV.decrypt_encrypt hciphertext, hV.fromSlice_toVec, eq_comm]
    · simp [hpass]

/-- A short passphrase is all that stops a vault, unless the cipher fails. -/
theorem exists_createVault (hpass : 12 ≤ (utf8 passphrase).length)
    (hcipher : ∀ key nonce plaintext, (V.encrypt key nonce plaintext).isSome) (now : UInt64)
    (salt : List.Vector UInt8 16) (nonce : List.Vector UInt8 12) (secretKeys labels : List String) :
    ∃ file, createVault V now salt nonce passphrase secretKeys labels = .ok file := by
  obtain ⟨ciphertext, hciphertext⟩ := Option.isSome_iff_exists.mp
    (hcipher (V.deriveKey (utf8 passphrase) salt) nonce (V.toVec ⟨secretKeys, labels, now⟩))
  simp only [createVault, if_neg (not_lt.mpr hpass), hciphertext]
  exact ⟨_, rfl⟩

/-! ### A computable instance

The text of the contents is a number that codes their characters, in base 256; a ciphertext is the
key and the nonce before the text, and a password hash is the password in hex. -/

/-- The characters of a text, as numbers. -/
def sampleChars (s : String) : List ℕ := s.toList.map Char.toNat

def sampleCode (contents : VaultContents) : ℕ :=
  Encodable.encode (contents.secretKeys.map sampleChars, contents.labels.map sampleChars,
    contents.createdAt.toNat)

def sampleDecode (code : ℕ) : Option VaultContents :=
  (Encodable.decode (α := List (List ℕ) × List (List ℕ) × ℕ) code).map fun (keys, labels, now) =>
    ⟨keys.map fun cs => String.ofList (cs.map Char.ofNat),
      labels.map fun cs => String.ofList (cs.map Char.ofNat), UInt64.ofNat now⟩

/-- A computable `VaultCrypto`. -/
def VaultCrypto.sample : VaultCrypto where
  deriveKey password salt := sampleDigest (salt.toList ++ password)
  encrypt key nonce plaintext := some (key.toList ++ nonce.toList ++ plaintext)
  decrypt key nonce ciphertext :=
    if ciphertext.take 44 = key.toList ++ nonce.toList then some (ciphertext.drop 44) else none
  hashPassword password _ := hexEncode password
  verifyPassword password hash :=
    (hexDecode (utf8 hash)).map fun hashed => decide (password = hashed)
  toVec contents := (Nat.digits 256 (sampleCode contents)).map UInt8.ofNat
  fromSlice bs := sampleDecode (Nat.ofDigits 256 (bs.map UInt8.toNat))

theorem sampleDecode_sampleCode (contents : VaultContents) :
    sampleDecode (sampleCode contents) = some contents := by
  have htext : (fun cs => String.ofList (cs.map Char.ofNat)) ∘ sampleChars = id := by
    funext s
    simp [sampleChars, Function.comp_def]
  simp [sampleDecode, sampleCode, htext]

theorem VaultCrypto.lawful_sample (P : Set String) : VaultCrypto.sample.Lawful P where
  decrypt_encrypt := by
    intro key nonce plaintext ciphertext h
    obtain rfl := Option.some.inj h
    have hlen : (key.toList ++ nonce.toList).length = 44 := by simp
    have htake : (key.toList ++ nonce.toList ++ plaintext).take 44 = key.toList ++ nonce.toList :=
      List.take_left' hlen
    have hdrop : (key.toList ++ nonce.toList ++ plaintext).drop 44 = plaintext :=
      List.drop_left' hlen
    simp only [VaultCrypto.sample, htake, hdrop, if_true]
  fromSlice_toVec := by
    intro contents
    have hdigits : ((Nat.digits 256 (sampleCode contents)).map UInt8.ofNat).map UInt8.toNat =
        Nat.digits 256 (sampleCode contents) := by
      rw [List.map_map]
      conv_rhs => rw [← List.map_id (Nat.digits 256 (sampleCode contents))]
      refine List.map_congr_left fun d hd => ?_
      have hlt : d < 256 := Nat.digits_lt_base (by norm_num) hd
      simpa using Nat.mod_eq_of_lt hlt
    simp only [VaultCrypto.sample, hdigits, Nat.ofDigits_digits, sampleDecode_sampleCode]
  verifyPassword_hashPassword := by
    intro passphrase passphrase' salt _ _
    have hinj : utf8 passphrase' = utf8 passphrase ↔ passphrase' = passphrase :=
      utf8_injective.eq_iff
    simp [VaultCrypto.sample, hexDecode_hexEncode, hinj]

end Arkos
