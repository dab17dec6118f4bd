import Arkos.Crypto
import Arkos.Lib.PrefixCode
import Mathlib.Data.Vector.Defs

/-!
# Access tokens

The owner signs tokens with an Ed25519 master key; a node checks the signature, the expiry and a
list of revoked ids. Time is the second since the epoch that the operating system reports, an
argument here. Arithmetic on it is that of a release build and wraps.

A `TokenRegistry` follows the owner: the tokens issued so far, each with the call that issued it,
and the revocation list, together with what `revoke` was called for. `revoke` itself is given an id
and nothing else, so that is the only place where one token is told from another of the same id.

## Main definitions

* `MasterKey.issueToken`, `AccessToken.verifyWithRevocation`, `RevocationList`
* `TokenRegistry.run` — a sequence of `issue_token` and `revoke` calls
* `TokenRegistry.Exact` — a token is accepted for just as long as it should be

## Main results

* `signable_bytes_injective` — the signed bytes determine what is signed
* `verify_issueToken_iff` — when an issued token is accepted
* `TokenRegistry.token_exact_iff` — when that is as it should be
-/

namespace Arkos

/-- What the access layer takes from its libraries. -/
structure AccessCrypto where
  /-- SHA-256. -/
  sha256 : Bytes → Hash
  /-- `SigningKey::verifying_key`, as bytes. -/
  verifyingKey : Hash → Hash
  /-- Whether `VerifyingKey::from_bytes` takes the bytes. -/
  isVerifyingKey : Hash → Bool
  /-- `SigningKey::sign`. -/
  sign : Hash → Bytes → List.Vector UInt8 64
  /-- Whether `VerifyingKey::verify` accepts. -/
  verify : Hash → Bytes → List.Vector UInt8 64 → Bool

/-- Ed25519 is correct: the key of a signing key is one, and accepts what it signs. -/
structure AccessCrypto.Lawful (A : AccessCrypto) : Prop where
  isVerifyingKey_verifyingKey (key : Hash) : A.isVerifyingKey (A.verifyingKey key) = true
  verify_sign (key : Hash) (message : Bytes) :
    A.verify (A.verifyingKey key) message (A.sign key message) = true

/-- Computable libraries for concrete tokens: a hash is the last 32 bytes backwards, a key verifies
itself, and a signature is the key and a digest. -/
def AccessCrypto.sample : AccessCrypto where
  sha256 data := ⟨(data.reverse ++ List.replicate 32 0).take 32, by simp⟩
  verifyingKey key := key
  isVerifyingKey _ := true
  sign key message := ⟨key.toList ++ (sampleDigest message).toList, by simp⟩
  verify key message signature := signature.toList = key.toList ++ (sampleDigest message).toList

theorem AccessCrypto.lawful_sample : AccessCrypto.sample.Lawful where
  isVerifyingKey_verifyingKey _ := rfl
  verify_sign _ _ := decide_eq_true rfl

/-! ### Tokens -/

/-- `Permission`. -/
inductive Permission where
  | connect
  | mine
  | transact
  | readChain
  | admin
  deriving DecidableEq, Repr

/-- The name of a permission, as `Debug` writes it. -/
def Permission.debug : Permission → String
  | .connect => "Connect"
  | .mine => "Mine"
  | .transact => "Transact"
  | .readChain => "ReadChain"
  | .admin => "Admin"

/-- `AccessToken`. -/
structure AccessToken where
  holderName : String
  holderPubkey : String
  permissions : List Permission
  issuedAt : UInt64
  /-- Zero for a token that does not expire. -/
  expiresAt : UInt64
  tokenId : String
  signature : String
  deriving DecidableEq, Repr

/-- `MasterKey`. -/
structure MasterKey (A : AccessCrypto) where
  signingKey : Hash
  verifyingKey : Hash
  verifyingKey_eq : verifyingKey = A.verifyingKey signingKey

/-- `RevocationList`. -/
structure RevocationList where
  revokedIds : List String
  deriving DecidableEq, Repr

namespace RevocationList

/-- `RevocationList::default`. -/
def default : RevocationList := ⟨[]⟩

/-- `RevocationList::is_revoked`. -/
def isRevoked (l : RevocationList) (tokenId : String) : Bool := l.revokedIds.contains tokenId

/-- `RevocationList::revoke`. -/
def revoke (l : RevocationList) (tokenId : String) : RevocationList :=
  if l.revokedIds.contains tokenId then l else ⟨l.revokedIds ++ [tokenId]⟩

@[simp]
theorem not_isRevoked_default (tokenId : String) : default.isRevoked tokenId = false := by
  simp [isRevoked, default]

/-- A call adds the id it is given and no other. -/
@[simp]
theorem isRevoked_revoke {l : RevocationList} {id id' : String} :
    (l.revoke id).isRevoked id' = true ↔ id' = id ∨ l.isRevoked id' = true := by
  rw [revoke]
  split
  · next hmem =>
    simp only [isRevoked, List.contains_iff_mem] at hmem ⊢
    constructor
    · exact Or.inr
    · rintro (rfl | h)
      · exact hmem
      · exact h
  · simp [isRevoked, or_comm]

end RevocationList

/-- The errors of `verify_with_revocation`. -/
inductive TokenError where
  /-- The text is that of the `hex` library. -/
  | hexDecode
  | pubkeyLength
  | pubkey
  | signatureLength
  | signature
  | expired (expiresAt : UInt64)
  | revoked (tokenId : String)
  deriving DecidableEq, Repr

/-- The text of the error, where the source gives it. -/
def TokenError.message : TokenError → Option String
  | .hexDecode => none
  | .pubkeyLength => some "invalid master pubkey length"
  | .pubkey => some "invalid master pubkey"
  | .signatureLength => some "invalid signature length"
  | .signature => some "INVALID TOKEN: signature verification failed"
  | .expired expiresAt => some ("TOKEN EXPIRED at " ++ toString expiresAt.toNat)
  | .revoked tokenId => some ("TOKEN REVOKED (id: " ++ tokenId ++ ")")

namespace AccessToken

/-- `AccessToken::signable_bytes`. -/
def signableBytes (t : AccessToken) : Bytes :=
  encBytes (utf8 t.holderName) ++ encBytes (utf8 t.holderPubkey) ++
    encList (fun p => encBytes (utf8 p.debug)) t.permissions ++
    leBytes 8 t.issuedAt.toNat ++ leBytes 8 t.expiresAt.toNat ++ encBytes (utf8 t.tokenId)

/-- The lengths of the fields are machine words, as those of every string and vector are. -/
structure Sized (t : AccessToken) : Prop where
  holderName : (utf8 t.holderName).length < 2 ^ 64
  holderPubkey : (utf8 t.holderPubkey).length < 2 ^ 64
  permissions : t.permissions.length < 2 ^ 64
  tokenId : (utf8 t.tokenId).length < 2 ^ 64

/-- `AccessToken::verify_with_revocation`. -/
def verifyWithRevocation (A : AccessCrypto) (now : UInt64) (t : AccessToken)
    (masterPubkeyHex : String) (revocation : Option RevocationList) : Except TokenError Unit :=
  match hexDecode (utf8 masterPubkeyHex) with
  | none => .error .hexDecode
  | some pubkeyBytes =>
    if hkey : pubkeyBytes.length = 32 then
      if A.isVerifyingKey ⟨pubkeyBytes, hkey⟩ = false then .error .pubkey
      else
        match hexDecode (utf8 t.signature) with
        | none => .error .hexDecode
        | some sigBytes =>
          if hsig : sigBytes.length = 64 then
            if A.verify ⟨pubkeyBytes, hkey⟩ t.signableBytes ⟨sigBytes, hsig⟩ = false then
              .error .signature
            else if 0 < t.expiresAt ∧ t.expiresAt < now then .error (.expired t.expiresAt)
            else if revocation.any (·.isRevoked t.tokenId) then .error (.revoked t.tokenId)
            else .ok ()
          else .error .signatureLength
    else .error .pubkeyLength

/-- `AccessToken::verify`. -/
def verify (A : AccessCrypto) (now : UInt64) (t : AccessToken) (masterPubkeyHex : String) :
    Except TokenError Unit :=
  t.verifyWithRevocation A now masterPubkeyHex none

end AccessToken

/-! ### The signed bytes -/

theorem prefixCode_permission : PrefixCode fun p : Permission => encBytes (utf8 p.debug) := by
  intro p q r s h
  have hlen : ∀ p : Permission, (utf8 p.debug).length < 2 ^ 64 := by
    rintro ⟨⟩ <;> decide
  obtain ⟨hname, hrest⟩ := encBytes_append_inj (hlen p) (hlen q) h
  have hinj : ∀ p q : Permission, p.debug = q.debug → p = q := by
    rintro ⟨⟩ ⟨⟩ <;> decide
  exact ⟨hinj p q (utf8_injective hname), hrest⟩

/-- A counted list of permissions. -/
theorem encList_permission_append_inj {ps qs : List Permission} {r s : Bytes}
    (hps : ps.length < 2 ^ 64) (hqs : qs.length < 2 ^ 64)
    (h : encList (fun p => encBytes (utf8 p.debug)) ps ++ r =
      encList (fun p => encBytes (utf8 p.debug)) qs ++ s) : ps = qs ∧ r = s := by
  simp only [encList, List.append_assoc] at h
  obtain ⟨hlen, hrest⟩ := eq_of_leBytes_append hps hqs h
  exact prefixCode_permission.flatMap_append_inj hlen hrest

/-- **The signed bytes determine everything that is signed**: every field of a token but the
signature itself. -/
theorem signable_bytes_injective (t t' : AccessToken) (ht : t.Sized) (ht' : t'.Sized)
    (h : t.signableBytes = t'.signableBytes) :
    t.holderName = t'.holderName ∧ t.holderPubkey = t'.holderPubkey ∧
      t.permissions = t'.permissions ∧ t.issuedAt = t'.issuedAt ∧ t.expiresAt = t'.expiresAt ∧
      t.tokenId = t'.tokenId := by
  simp only [AccessToken.signableBytes, List.append_assoc] at h
  -- the fields come off the front one by one
  obtain ⟨hname, h⟩ := encBytes_append_inj ht.holderName ht'.holderName h
  obtain ⟨hpubkey, h⟩ := encBytes_append_inj ht.holderPubkey ht'.holderPubkey h
  obtain ⟨hpermissions, h⟩ := encList_permission_append_inj ht.permissions ht'.permissions h
  obtain ⟨hissued, h⟩ := eq_of_leBytes_append t.issuedAt.toNat_lt t'.issuedAt.toNat_lt h
  obtain ⟨hexpires, h⟩ := eq_of_leBytes_append t.expiresAt.toNat_lt t'.expiresAt.toNat_lt h
  have hid := (encBytes_append_inj (r := []) (s := []) ht.tokenId ht'.tokenId (by simpa using h)).1
  exact ⟨utf8_injective hname, utf8_injective hpubkey, hpermissions, UInt64.toNat_inj.mp hissued,
    UInt64.toNat_inj.mp hexpires, utf8_injective hid⟩

/-- A token that reads `alicefoo` and `bar` where another might read `alice` and `foobar`. -/
def aliceToken : AccessToken where
  holderName := "alicefoo"
  holderPubkey := "bar"
  permissions := [.connect, .readChain]
  issuedAt := 1700000000
  expiresAt := 0
  tokenId := "0123456789abcdef"
  signature := ""

/-- Signing a token keeps what is signed. -/
theorem signable_bytes_injective_aliceToken :
    aliceToken.permissions = { aliceToken with signature := "00" }.permissions := by
  have hsized : aliceToken.Sized := ⟨by decide, by decide, by decide, by decide⟩
  exact (signable_bytes_injective aliceToken { aliceToken with signature := "00" } hsized
    ⟨hsized.holderName, hsized.holderPubkey, hsized.permissions, hsized.tokenId⟩ rfl).2.2.1

/-! ### The master key -/

/-- The id of a token: the first eight bytes of the hash of the holder's key and the second of
issue, in hex. -/
def tokenIdOf (A : AccessCrypto) (holderPubkey : String) (now : UInt64) : String :=
  hexEncode ((A.sha256 (utf8 (holderPubkey ++ toString now.toNat))).toList.take 8)

namespace MasterKey

variable {A : AccessCrypto}

/-- `MasterKey::from_secret_bytes`; `generate` draws the bytes. -/
def fromSecretBytes (A : AccessCrypto) (bytes : Hash) : MasterKey A :=
  ⟨bytes, A.verifyingKey bytes, rfl⟩

/-- `MasterKey::secret_hex`. -/
def secretHex (m : MasterKey A) : String := hexEncode m.signingKey.toList

/-- `MasterKey::public_hex`. -/
def publicHex (m : MasterKey A) : String := hexEncode m.verifyingKey.toList

/-- `MasterKey::issue_token`. -/
def issueToken (m : MasterKey A) (now : UInt64) (holderName holderPubkey : String)
    (permissions : List Permission) (expiresInDays : UInt64) : AccessToken :=
  let expiresAt := if expiresInDays = 0 then 0 else now + expiresInDays * 86400
  let token : AccessToken :=
    { holderName, holderPubkey, permissions, issuedAt := now, expiresAt,
      tokenId := tokenIdOf A holderPubkey now, signature := "" }
  { token with signature := hexEncode (A.sign m.signingKey token.signableBytes).toList }

end MasterKey

namespace MasterKey

variable {A : AccessCrypto} {m : MasterKey A} {issuedAt days : UInt64} {name pubkey : String}
  {permissions : List Permission}

@[simp]
theorem tokenId_issueToken :
    (m.issueToken issuedAt name pubkey permissions days).tokenId = tokenIdOf A pubkey issuedAt :=
  rfl

@[simp]
theorem expiresAt_issueToken :
    (m.issueToken issuedAt name pubkey permissions days).expiresAt =
      if days = 0 then 0 else issuedAt + days * 86400 := rfl

/-- The signature of a token is over its own bytes. -/
@[simp]
theorem signature_issueToken :
    (m.issueToken issuedAt name pubkey permissions days).signature =
      hexEncode (A.sign m.signingKey
        (m.issueToken issuedAt name pubkey permissions days).signableBytes).toList := rfl

end MasterKey

/-- **An issued token is accepted until the expiry written into it, unless its id is on the
list.** -/
theorem verify_issueToken_iff {A : AccessCrypto} (hA : A.Lawful) (m : MasterKey A)
    {issuedAt now days : UInt64} {name pubkey : String} {permissions : List Permission}
    {l : RevocationList} :
    (m.issueToken issuedAt name pubkey permissions days).verifyWithRevocation A now m.publicHex
        (some l) = .ok () ↔
      (days = 0 ∨ issuedAt + days * 86400 = 0 ∨ now ≤ issuedAt + days * 86400) ∧
        l.isRevoked (tokenIdOf A pubkey issuedAt) = false := by
  obtain ⟨key, _, rfl⟩ := m
  -- the key and the signature are read back and pass
  rw [AccessToken.verifyWithRevocation, MasterKey.publicHex, hexDecode_hexEncode]
  simp only [List.Vector.toList_length, dite_true]
  rw [if_neg (by simpa using hA.isVerifyingKey_verifyingKey key), MasterKey.signature_issueToken,
    hexDecode_hexEncode]
  simp only [List.Vector.toList_length, dite_true]
  rw [if_neg (by simpa using hA.verify_sign key _), MasterKey.expiresAt_issueToken]
  -- what remains is the expiry and the list
  have hlive : ¬ (0 < (if days = 0 then 0 else issuedAt + days * 86400) ∧
      (if days = 0 then 0 else issuedAt + days * 86400) < now) ↔
        (days = 0 ∨ issuedAt + days * 86400 = 0 ∨ now ≤ issuedAt + days * 86400) := by
    by_cases hdays : days = 0
    · simp [hdays]
    · rw [if_neg hdays, not_and_or, UInt64.not_lt, UInt64.not_lt, UInt64.le_zero_iff]
      simp [hdays]
  by_cases hexpired : 0 < (if days = 0 then 0 else issuedAt + days * 86400) ∧
      (if days = 0 then 0 else issuedAt + days * 86400) < now
  · rw [if_pos hexpired, ← hlive]
    simp [hexpired]
  · rw [if_neg hexpired, ← hlive]
    cases hrevoked : l.isRevoked (tokenIdOf A pubkey issuedAt) <;> simp [hexpired, hrevoked]

/-! ### Sequences of calls -/

/-- An `issue_token` call: its time and its arguments. -/
structure TokenRequest where
  now : UInt64
  holderName : String
  holderPubkey : String
  permissions : List Permission
  expiresInDays : UInt64
  deriving DecidableEq, Repr

namespace TokenRequest

variable {A : AccessCrypto}

/-- The token a call issues. -/
def token (m : MasterKey A) (r : TokenRequest) : AccessToken :=
  m.issueToken r.now r.holderName r.holderPubkey r.permissions r.expiresInDays

/-- The id of that token. -/
def tokenId (A : AccessCrypto) (r : TokenRequest) : String := tokenIdOf A r.holderPubkey r.now

/-- The last second of the lifetime that was asked for. -/
def expiry (r : TokenRequest) : ℕ := r.now.toNat + 86400 * r.expiresInDays.toNat

end TokenRequest

/-- What a `revoke` call is made for. -/
inductive RevokeTarget where
  /-- The token issued at this place, by its id. -/
  | token (i : ℕ)
  /-- No token in particular: an id from elsewhere. -/
  | id (tokenId : String)
  deriving DecidableEq, Repr

/-- A call of the owner. -/
inductive AccessCall where
  | issue (holderName holderPubkey : String) (permissions : List Permission)
      (expiresInDays : UInt64)
  | revoke (target : RevokeTarget)
  deriving DecidableEq, Repr

/-- The tokens issued so far, each with its call, and the revocation list. `targets` only records
what the list was extended for. -/
structure TokenRegistry where
  issued : List (TokenRequest × AccessToken)
  targets : List RevokeTarget
  revocation : RevocationList
  deriving DecidableEq, Repr

/-- The id a call for a target passes, when there is one. -/
def RevokeTarget.passes (issued : List (TokenRequest × AccessToken)) : RevokeTarget → Option String
  | .token i => issued[i]?.map (·.2.tokenId)
  | .id tokenId => some tokenId

namespace TokenRegistry

section

variable {A : AccessCrypto} (m : MasterKey A)

/-- One call, at its time. -/
def step (s : TokenRegistry) : UInt64 × AccessCall → TokenRegistry
  | (now, .issue holderName holderPubkey permissions expiresInDays) =>
    let r : TokenRequest := ⟨now, holderName, holderPubkey, permissions, expiresInDays⟩
    { s with issued := s.issued ++ [(r, r.token m)] }
  | (_, .revoke target) =>
    match target.passes s.issued with
    | none => s
    | some tokenId =>
      { s with targets := s.targets ++ [target], revocation := s.revocation.revoke tokenId }

/-- A sequence of calls, from nothing. -/
def run (calls : List (UInt64 × AccessCall)) : TokenRegistry :=
  calls.foldl (step m) ⟨[], [], .default⟩

/-- `verify_with_revocation` accepts a token under the current list. -/
def Accepts (s : TokenRegistry) (t : AccessToken) (now : UInt64) : Prop :=
  t.verifyWithRevocation A now m.publicHex (some s.revocation) = .ok ()

/-- The token at place `i` is accepted for just as long as it should be: until it is revoked or the
lifetime it was issued for is over, whatever happens to the others. -/
structure Exact (s : TokenRegistry) (i : ℕ) (r : TokenRequest) (t : AccessToken) (now : UInt64) :
    Prop where
  accepts_iff : s.Accepts m t now ↔
    .token i ∉ s.targets ∧ (r.expiresInDays = 0 ∨ now.toNat ≤ r.expiry)
  accepts_of_revoke : ∀ j, j ≠ i → s.Accepts m t now →
    (s.step m (now, .revoke (.token j))).Accepts m t now

/-- The list holds the ids of what was revoked, and every token is that of its call. -/
structure Consistent (s : TokenRegistry) : Prop where
  token_eq : ∀ e ∈ s.issued, e.2 = e.1.token m
  lt_of_target : ∀ i, .token i ∈ s.targets → i < s.issued.length
  isRevoked_iff : ∀ id, s.revocation.isRevoked id = true ↔
    ∃ target ∈ s.targets, target.passes s.issued = some id

end

variable {A : AccessCrypto} {m : MasterKey A} {s : TokenRegistry}

theorem passes_append_issued {issued : List (TokenRequest × AccessToken)}
    {e : TokenRequest × AccessToken} {target : RevokeTarget}
    (h : ∀ i, target = .token i → i < issued.length) :
    target.passes (issued ++ [e]) = target.passes issued := by
  cases target with
  | token i => simp [RevokeTarget.passes, List.getElem?_append_left (h i rfl)]
  | id tokenId => rfl

theorem Consistent.issue (h : s.Consistent m) (r : TokenRequest) :
    Consistent m { s with issued := s.issued ++ [(r, r.token m)] } where
  token_eq := by
    intro e he
    rcases List.mem_append.mp he with he | he
    · exact h.token_eq e he
    · rw [List.mem_singleton.mp he]
  lt_of_target := by
    intro i hi
    have hlt := h.lt_of_target i hi
    simp only [List.length_append, List.length_singleton]
    omega
  isRevoked_iff := by
    intro id
    rw [h.isRevoked_iff id]
    refine exists_congr fun target => and_congr_right fun htarget => ?_
    rw [passes_append_issued]
    rintro i rfl
    exact h.lt_of_target i htarget

theorem Consistent.revoke (h : s.Consistent m) {target : RevokeTarget} {tokenId : String}
    (htarget : target.passes s.issued = some tokenId) :
    Consistent m
      { s with targets := s.targets ++ [target], revocation := s.revocation.revoke tokenId } where
  token_eq := h.token_eq
  lt_of_target := by
    intro i hi
    rcases List.mem_append.mp hi with hi | hi
    · exact h.lt_of_target i hi
    · rw [← List.mem_singleton.mp hi] at htarget
      simp only [RevokeTarget.passes, Option.map_eq_some_iff] at htarget
      obtain ⟨e, he, -⟩ := htarget
      exact (List.getElem?_eq_some_iff.mp he).1
  isRevoked_iff := by
    intro id
    simp only [RevocationList.isRevoked_revoke, h.isRevoked_iff, List.mem_append,
      List.mem_singleton, or_and_right, exists_or, exists_eq_left, htarget, Option.some.injEq]
    rw [or_comm, eq_comm]

theorem Consistent.step (h : s.Consistent m) (c : UInt64 × AccessCall) :
    (s.step m c).Consistent m := by
  obtain ⟨now, call⟩ := c
  cases call with
  | issue holderName holderPubkey permissions expiresInDays => exact h.issue _
  | revoke target =>
    rw [TokenRegistry.step]
    cases htarget : target.passes s.issued with
    | none => exact h
    | some tokenId => exact h.revoke htarget

theorem Consistent.foldl (h : s.Consistent m) (calls : List (UInt64 × AccessCall)) :
    (calls.foldl (TokenRegistry.step m) s).Consistent m := by
  induction calls generalizing s with
  | nil => exact h
  | cons c calls ih => exact ih (h.step c)

theorem consistent_run (m : MasterKey A) (calls : List (UInt64 × AccessCall)) :
    (run m calls).Consistent m :=
  Consistent.foldl ⟨by simp, by simp, by simp⟩ calls

/-! ### When a token is accepted for as long as it should be -/

variable {i : ℕ} {r : TokenRequest} {t : AccessToken} {now : UInt64}

/-- The expiry in the token is the one asked for, up to the size of a word. -/
theorem toNat_expiresAt (r : TokenRequest) :
    (r.now + r.expiresInDays * 86400).toNat = r.expiry % 2 ^ 64 := by
  simp only [UInt64.toNat_add, UInt64.toNat_mul, TokenRequest.expiry]
  have hday : (86400 : UInt64).toNat = 86400 := rfl
  rw [hday]
  omega

/-- The lifetime a token is checked against. -/
def WordLive (r : TokenRequest) (now : UInt64) : Prop :=
  r.expiresInDays = 0 ∨ r.expiry % 2 ^ 64 = 0 ∨ now.toNat ≤ r.expiry % 2 ^ 64

/-- A lifetime that is over is over in words too: it ends below the present second. -/
theorem not_wordLive (hdays : r.expiresInDays ≠ 0) (hlt : r.expiry < now.toNat) :
    ¬ WordLive r now := by
  have hword : r.expiry % 2 ^ 64 = r.expiry := Nat.mod_eq_of_lt (hlt.trans now.toNat_lt)
  have hpos : 0 < r.expiresInDays.toNat := by
    rw [Nat.pos_iff_ne_zero]
    exact fun hzero => hdays (UInt64.toNat_inj.mp hzero)
  rw [WordLive, hword]
  rintro (hzero | hzero | hle)
  · exact hdays hzero
  · rw [TokenRequest.expiry] at hzero
    omega
  · omega

theorem Consistent.accepts_iff (hA : A.Lawful) (h : s.Consistent m)
    (ht : s.issued[i]? = some (r, t)) :
    s.Accepts m t now ↔
      WordLive r now ∧ s.revocation.isRevoked (r.tokenId A) = false := by
  have htoken : t = r.token m := h.token_eq (r, t) (List.mem_of_getElem? ht)
  rw [Accepts, htoken, TokenRequest.token, verify_issueToken_iff hA, TokenRequest.tokenId, WordLive]
  have hzero : r.now + r.expiresInDays * 86400 = 0 ↔ r.expiry % 2 ^ 64 = 0 := by
    rw [← UInt64.toNat_inj, toNat_expiresAt]
    rfl
  rw [UInt64.le_iff_toNat_le, toNat_expiresAt, hzero]

/-- A revocation reaches every token of the id it passes. -/
theorem Consistent.isRevoked_tokenId_iff (h : s.Consistent m) :
    s.revocation.isRevoked (r.tokenId A) = true ↔
      .id (r.tokenId A) ∈ s.targets ∨ ∃ j r' t', .token j ∈ s.targets ∧
        s.issued[j]? = some (r', t') ∧ r'.tokenId A = r.tokenId A := by
  rw [h.isRevoked_iff]
  constructor
  · rintro ⟨j | id, htarget, hpasses⟩
    · simp only [RevokeTarget.passes, Option.map_eq_some_iff] at hpasses
      obtain ⟨⟨r', t'⟩, hj, hid⟩ := hpasses
      have htoken : t' = r'.token m := h.token_eq (r', t') (List.mem_of_getElem? hj)
      refine Or.inr ⟨j, r', t', htarget, hj, ?_⟩
      rw [← hid, htoken]
      rfl
    · obtain rfl : id = r.tokenId A := Option.some.inj hpasses
      exact Or.inl htarget
  · rintro (hid | ⟨j, r', t', htarget, hj, hid⟩)
    · exact ⟨_, hid, rfl⟩
    · have htoken : t' = r'.token m := h.token_eq (r', t') (List.mem_of_getElem? hj)
      refine ⟨_, htarget, ?_⟩
      rw [RevokeTarget.passes, hj, ← hid, htoken]
      rfl

/-- Revoking another token takes this one with it when they have the same id. -/
theorem Consistent.accepts_revoke_iff (hA : A.Lawful) (h : s.Consistent m)
    (ht : s.issued[i]? = some (r, t)) {j : ℕ} {r' : TokenRequest} {t' : AccessToken}
    (hj : s.issued[j]? = some (r', t')) {time : UInt64} :
    (s.step m (time, .revoke (.token j))).Accepts m t now ↔
      s.Accepts m t now ∧ r'.tokenId A ≠ r.tokenId A := by
  have htoken : t' = r'.token m := h.token_eq (r', t') (List.mem_of_getElem? hj)
  have hstep : s.step m (time, .revoke (.token j)) =
      { s with
        targets := s.targets ++ [.token j]
        revocation := s.revocation.revoke (r'.tokenId A) } := by
    simp only [TokenRegistry.step, RevokeTarget.passes, hj, htoken]
    rfl
  have hissued : (s.step m (time, .revoke (.token j))).issued[i]? = some (r, t) := by
    rw [hstep]
    exact ht
  rw [(h.step _).accepts_iff hA hissued, h.accepts_iff hA ht, hstep, and_assoc]
  refine and_congr_right fun _ => ?_
  rw [← Bool.not_eq_true, ← Bool.not_eq_true, RevocationList.isRevoked_revoke, not_or, and_comm,
    ne_comm]

theorem exact_of_not_accepts (h : ¬ s.Accepts m t now)
    (hspec : .token i ∉ s.targets → r.expiresInDays ≠ 0 ∧ r.expiry < now.toNat) :
    s.Exact m i r t now where
  accepts_iff := by
    refine iff_of_false h ?_
    rintro ⟨hnot, hlife⟩
    obtain ⟨hdays, hlt⟩ := hspec hnot
    rcases hlife with hzero | hle
    · exact hdays hzero
    · omega
  accepts_of_revoke _ _ haccepts := absurd haccepts h

/-- A revoked token is rejected. -/
theorem Consistent.exact_of_target (hA : A.Lawful) (h : s.Consistent m)
    (ht : s.issued[i]? = some (r, t)) (hown : .token i ∈ s.targets) : s.Exact m i r t now := by
  refine exact_of_not_accepts ?_ (absurd hown)
  have hrevoked : s.revocation.isRevoked (r.tokenId A) = true :=
    h.isRevoked_tokenId_iff.mpr (Or.inr ⟨i, r, t, hown, ht, rfl⟩)
  rw [h.accepts_iff hA ht, hrevoked]
  simp

/-- A token whose lifetime is over is rejected. -/
theorem Consistent.exact_of_over (hA : A.Lawful) (h : s.Consistent m)
    (ht : s.issued[i]? = some (r, t)) (hover : r.expiresInDays ≠ 0 ∧ r.expiry < now.toNat) :
    s.Exact m i r t now := by
  refine exact_of_not_accepts ?_ fun _ => hover
  rw [h.accepts_iff hA ht]
  exact fun haccepts => not_wordLive hover.1 hover.2 haccepts.1

/-- A token that should be accepted is, now and after a revocation of another, when no other has its
id and its expiry survives the size of a word. -/
theorem Consistent.exact_iff_of_live (hA : A.Lawful) (h : s.Consistent m)
    (ht : s.issued[i]? = some (r, t)) (hown : .token i ∉ s.targets)
    (hlife : r.expiresInDays = 0 ∨ now.toNat ≤ r.expiry) :
    s.Exact m i r t now ↔
      (∀ j r' t', j ≠ i → s.issued[j]? = some (r', t') → r'.tokenId A ≠ r.tokenId A) ∧
        .id (r.tokenId A) ∉ s.targets ∧ WordLive r now := by
  constructor
  · intro hexact
    have haccepts : s.Accepts m t now := hexact.accepts_iff.mpr ⟨hown, hlife⟩
    obtain ⟨hword, hrevoked⟩ := (h.accepts_iff hA ht).mp haccepts
    refine ⟨?_, ?_, hword⟩
    · intro j r' t' hne hj
      exact ((h.accepts_revoke_iff hA ht hj).mp (hexact.accepts_of_revoke j hne haccepts)).2
    · intro hid
      rw [h.isRevoked_tokenId_iff.mpr (Or.inl hid)] at hrevoked
      cases hrevoked
  · rintro ⟨hids, hid, hword⟩
    have hrevoked : s.revocation.isRevoked (r.tokenId A) = false := by
      rw [← Bool.not_eq_true, h.isRevoked_tokenId_iff]
      rintro (hmem | ⟨j, r', t', htarget, hj, heq⟩)
      · exact hid hmem
      · have hne : j ≠ i := by
          rintro rfl
          exact hown htarget
        exact hids j r' t' hne hj heq
    have haccepts : s.Accepts m t now := (h.accepts_iff hA ht).mpr ⟨hword, hrevoked⟩
    refine ⟨iff_of_true haccepts ⟨hown, hlife⟩, ?_⟩
    intro j hne _
    cases hj : s.issued[j]? with
    | none =>
      have hstep : s.step m (now, .revoke (.token j)) = s := by
        simp [TokenRegistry.step, RevokeTarget.passes, hj]
      rwa [hstep]
    | some e => exact (h.accepts_revoke_iff hA ht hj).mpr ⟨haccepts, hids j e.1 e.2 hne hj⟩

/-- **A token is accepted for just as long as it should be when it has itself been revoked, when
its lifetime is over, or when it shares its id with no other and its expiry survives the size of a
word.** -/
theorem token_exact_iff {A : AccessCrypto} (hA : A.Lawful) (m : MasterKey A)
    (calls : List (UInt64 × AccessCall)) (i : ℕ) (r : TokenRequest) (t : AccessToken)
    (ht : (run m calls).issued[i]? = some (r, t)) (now : UInt64) :
    (run m calls).Exact m i r t now ↔
      .token i ∈ (run m calls).targets ∨
      (r.expiresInDays ≠ 0 ∧ r.expiry < now.toNat) ∨
      ((∀ j r' t', j ≠ i → (run m calls).issued[j]? = some (r', t') →
          r'.tokenId A ≠ r.tokenId A) ∧
        .id (r.tokenId A) ∉ (run m calls).targets ∧
        (r.expiresInDays = 0 ∨ r.expiry % 2 ^ 64 = 0 ∨ now.toNat ≤ r.expiry % 2 ^ 64)) := by
  have h := consistent_run m calls
  by_cases hown : .token i ∈ (run m calls).targets
  · exact iff_of_true (h.exact_of_target hA ht hown) (Or.inl hown)
  by_cases hover : r.expiresInDays ≠ 0 ∧ r.expiry < now.toNat
  · exact iff_of_true (h.exact_of_over hA ht hover) (Or.inr (Or.inl hover))
  have hlife : r.expiresInDays = 0 ∨ now.toNat ≤ r.expiry := by
    by_contra hlife
    exact hover ⟨fun hzero => hlife (Or.inl hzero), not_le.mp fun hle => hlife (Or.inr hle)⟩
  simp only [hown, hover, false_or]
  exact h.exact_iff_of_live hA ht hown hlife

/-! ### Two tokens of one key -/

/-- A master key of the sample libraries. -/
def sampleMaster : MasterKey .sample := .fromSecretBytes .sample (List.Vector.replicate 32 7)

/-- A token to mine with for 30 days. -/
def minerRequest : TokenRequest := ⟨1700000000, "miner", "ab01", [.mine], 30⟩

/-- A token to connect with, for the same key, issued when `now` is the time. -/
def nodeRequest (now : UInt64) : TokenRequest := ⟨now, "node", "ab01", [.connect], 30⟩

/-- Both tokens are issued, then the second is revoked. -/
def twoTokenCalls (now : UInt64) : List (UInt64 × AccessCall) :=
  [(1700000000, .issue "miner" "ab01" [.mine] 30), (now, .issue "node" "ab01" [.connect] 30),
    (1700000100, .revoke (.token 1))]

theorem issued_twoTokenCalls (now : UInt64) :
    (run sampleMaster (twoTokenCalls now)).issued =
      [(minerRequest, minerRequest.token sampleMaster),
        (nodeRequest now, (nodeRequest now).token sampleMaster)] := rfl

theorem targets_twoTokenCalls (now : UInt64) :
    (run sampleMaster (twoTokenCalls now)).targets = [.token 1] := rfl

/-- A second apart, the first token stays exact. -/
theorem token_exact_iff_nextSecond :
    (run sampleMaster (twoTokenCalls 1700000001)).Exact sampleMaster 0 minerRequest
      (minerRequest.token sampleMaster) 1700000200 := by
  refine (token_exact_iff AccessCrypto.lawful_sample sampleMaster (twoTokenCalls 1700000001) 0
    minerRequest _ rfl 1700000200).mpr (Or.inr (Or.inr ⟨?_, ?_, ?_⟩))
  · intro j r' t' hne hj
    rw [issued_twoTokenCalls] at hj
    obtain rfl : j = 1 := by
      have hlt := (List.getElem?_eq_some_iff.mp hj).1
      simp only [List.length_cons, List.length_nil] at hlt
      omega
    obtain rfl : nodeRequest 1700000001 = r' := congrArg Prod.fst (Option.some.inj hj)
    decide
  · simp [targets_twoTokenCalls]
  · decide

/-- In one second they have one id, and the first falls with the second. -/
theorem not_exact_sameSecond :
    ¬ (run sampleMaster (twoTokenCalls 1700000000)).Exact sampleMaster 0 minerRequest
      (minerRequest.token sampleMaster) 1700000200 := by
  intro hexact
  have h := consistent_run sampleMaster (twoTokenCalls 1700000000)
  have haccepts := hexact.accepts_iff.mpr ⟨by simp [targets_twoTokenCalls], by decide⟩
  have hrevoked : (run sampleMaster (twoTokenCalls 1700000000)).revocation.isRevoked
      (minerRequest.tokenId .sample) = true :=
    h.isRevoked_tokenId_iff.mpr (Or.inr ⟨1, nodeRequest 1700000000, _, List.mem_singleton_self _,
      rfl, rfl⟩)
  have hfirst : (run sampleMaster (twoTokenCalls 1700000000)).issued[0]? =
      some (minerRequest, minerRequest.token sampleMaster) := rfl
  rw [h.accepts_iff AccessCrypto.lawful_sample hfirst, hrevoked] at haccepts
  simp at haccepts

end TokenRegistry

end Arkos
