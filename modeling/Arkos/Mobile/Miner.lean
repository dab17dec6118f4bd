import Arkos.Blockchain.Block

/-!
# The mobile miner

The phone application does not link the node. Its native library has its own copy of the header
layout, of the expansion of a compact target and of the comparison, written with shifts and masks
where that suits a C interface, and searches a range of nonces that the caller hands out in pieces.

The C strings arrive as bytes. The stop flag is a byte that another thread may set at any time, so
what a read of it yields depends on when the loop looks: here on the nonce it is at. The buffer for
the hash is either there or not, and what is written to it is part of the result.

## Main definitions

* `Mobile.serializeHeader`, `Mobile.bitsToTarget`, `Mobile.hashLeTarget`
* `Mobile.arkosMine`

## Main results

* `Mobile.bitsToTarget_eq`, `Mobile.hashLeTarget_eq`, `Mobile.serializeHeader_eq` — the copies agree
  with the node
* `Mobile.mine_agrees` — and so does the search
-/

namespace Arkos

namespace Mobile

/-- `NONCE_NOT_FOUND`, which is `u64::MAX`. -/
def nonceNotFound : UInt64 := 0xffffffffffffffff

/-- `serialize_header`. -/
def serializeHeader (version : UInt32) (prevHashBytes merkleRootBytes : Hash) (timestamp : UInt64)
    (bits : UInt32) (nonce : UInt64) : Bytes :=
  leBytes 4 version.toNat ++ prevHashBytes.toList ++ merkleRootBytes.toList ++
    leBytes 8 timestamp.toNat ++ leBytes 4 bits.toNat ++ leBytes 8 nonce.toNat ++ [0x00]

/-- `bits_to_target`. -/
def bitsToTarget (bits : UInt32) : Bytes :=
  let exp := (bits >>> 24).toNat
  let mantissa := bits &&& 0x00ffffff
  let target : Bytes := List.replicate 32 0
  if exp ≥ 1 ∧ exp ≤ 32 then
    let start := 32 - exp
    let target := target.set start ((mantissa >>> 16) &&& 0xff).toUInt8
    let target := if start + 1 < 32 then target.set (start + 1) ((mantissa >>> 8) &&& 0xff).toUInt8
      else target
    if start + 2 < 32 then target.set (start + 2) (mantissa &&& 0xff).toUInt8 else target
  else target

/-- The loop of `hash_le_target`, over the zipped bytes. -/
def compareLoop : List (UInt8 × UInt8) → Bool
  | [] => true
  | (h, t) :: rest => if h < t then true else if h > t then false else compareLoop rest

/-- `hash_le_target`. -/
def hashLeTarget (hash target : Bytes) : Bool := compareLoop (hash.zip target)

/-- `CStr::to_str`. -/
def toStr (bytes : Bytes) : Option String := String.fromUTF8? ⟨bytes.toArray⟩

/-- `hex::decode_to_slice` into 32 bytes. -/
def decodeToSlice (text : String) : Option Hash :=
  match hexDecode (utf8 text) with
  | none => none
  | some out => if h : out.length = 32 then some ⟨out, h⟩ else none

/-- What a call returns and what it wrote to `out_hash`. -/
structure MineResult where
  nonce : UInt64
  written : Option Bytes
  deriving DecidableEq, Repr

/-- The return without a nonce. -/
def MineResult.notFound : MineResult := ⟨nonceNotFound, none⟩

/-- What stays the same during a search. -/
structure Job where
  version : UInt32
  prevBytes : Hash
  merkleBytes : Hash
  timestamp : UInt64
  bits : UInt32
  endNonce : UInt64
  /-- The byte that is read when the loop is at a nonce, unless the pointer is null. -/
  stopFlag : Option (UInt64 → UInt8)
  /-- Whether there is a buffer for the hash. -/
  outHash : Bool

section

variable (sha256 : Bytes → Hash)

/-- `hash256`. -/
def hash256 (data : Bytes) : Hash := sha256 (sha256 data).toList

/-- The hash of the header with a nonce. -/
def Job.hash (job : Job) (nonce : UInt64) : Hash :=
  hash256 sha256
    (serializeHeader job.version job.prevBytes job.merkleBytes job.timestamp job.bits nonce)

/-- Is the loop asked to stop at this nonce? It looks every 8192 hashes. -/
def Job.stops (job : Job) (nonce : UInt64) : Bool :=
  job.stopFlag.any fun read => nonce % 8192 == 0 && read nonce != 0

/-- The nonce search loop of `arkos_mine`, for at most the given number of turns. -/
def mineLoop (job : Job) (target : Bytes) : ℕ → UInt64 → MineResult
  | 0, _ => .notFound
  | turns + 1, nonce =>
    if nonce < job.endNonce then
      if job.stops nonce then .notFound
      else
        let hash := job.hash sha256 nonce
        if hashLeTarget hash.toList target then
          ⟨nonce, if job.outHash then some (utf8 (hexEncode hash.toList) ++ [0]) else none⟩
        else mineLoop job target turns (nonce + 1)
    else .notFound

/-- `arkos_mine`. The loop takes one turn for each nonce of the range. -/
def arkosMine (version : UInt32) (prevHashHex merkleHex : Bytes) (timestamp : UInt64)
    (bits : UInt32) (startNonce endNonce : UInt64) (stopFlag : Option (UInt64 → UInt8))
    (outHash : Bool) : MineResult :=
  match toStr prevHashHex, toStr merkleHex with
  | some prevStr, some merkleStr =>
    match decodeToSlice prevStr, decodeToSlice merkleStr with
    | some prevBytes, some merkleBytes =>
      mineLoop sha256
        { version, prevBytes, merkleBytes, timestamp, bits, endNonce, stopFlag, outHash }
        (bitsToTarget bits) (endNonce.toNat - startNonce.toNat) startNonce
    | _, _ => .notFound
  | _, _ => .notFound

end

/-! ### The copies agree with the node -/

theorem shiftRight_and_toUInt8 (m : UInt32) {k : ℕ} (hk : k < 32) :
    ((m >>> UInt32.ofNat k) &&& 0xff).toUInt8 = UInt8.ofNat (m.toNat / 2 ^ k) := by
  rw [← UInt8.toNat_inj, UInt32.toNat_toUInt8, UInt32.toNat_and, UInt32.toNat_shiftRight,
    UInt32.toNat_ofNat', Nat.mod_eq_of_lt (show k < 2 ^ 32 by omega), Nat.mod_eq_of_lt hk,
    Nat.shiftRight_eq_div_pow, UInt8.toNat_ofNat']
  show (m.toNat / 2 ^ k &&& (2 ^ 8 - 1)) % 2 ^ 8 = _
  rw [Nat.and_two_pow_sub_one_eq_mod, Nat.mod_mod]

theorem bitsToTarget_eq (bits : UInt32) : bitsToTarget bits = Arkos.bitsToTarget bits := by
  have hexp : (bits >>> 24).toNat = bits.toNat / 2 ^ 24 := by
    rw [UInt32.toNat_shiftRight, ← Nat.shiftRight_eq_div_pow]
    rfl
  have hmantissa : (bits &&& 0x00ffffff).toNat = bits.toNat % 2 ^ 24 := by
    rw [UInt32.toNat_and, ← Nat.and_two_pow_sub_one_eq_mod]
    rfl
  have hbyte := fun k hk => shiftRight_and_toUInt8 (bits &&& 0x00ffffff) (k := k) hk
  have hhigh := hbyte 16 (by omega)
  have hmiddle := hbyte 8 (by omega)
  have hlow := hbyte 0 (by omega)
  rw [hmantissa] at hhigh hmiddle hlow
  rw [bitsToTarget, Arkos.bitsToTarget, hexp]
  dsimp only
  rw [show ((bits &&& 0x00ffffff) >>> 16 &&& 0xff).toUInt8 = _ from hhigh,
    show ((bits &&& 0x00ffffff) >>> 8 &&& 0xff).toUInt8 = _ from hmiddle,
    show ((bits &&& 0x00ffffff) &&& 0xff).toUInt8 = _ by simpa using hlow]
  norm_num

theorem hashLeTarget_eq (hash target : Bytes) :
    hashLeTarget hash target = Arkos.hashLeTarget hash target := by
  rw [hashLeTarget]
  induction hash generalizing target with
  | nil => rfl
  | cons h hs ih =>
    cases target with
    | nil => rfl
    | cons t ts =>
      rw [List.zip_cons_cons, compareLoop, ih, Arkos.hashLeTarget]

/-- The format of the hashes in a template: 64 hexadecimal digits, in either case. -/
def IsHashHex (text : String) : Prop := text.toList.length = 64 ∧ ∀ c ∈ text.toList, IsHexChar c

theorem toStr_utf8 (text : String) : toStr (utf8 text) = some text := by
  have hbytes : (⟨(utf8 text).toArray⟩ : ByteArray) = text.toByteArray := by simp [utf8]
  rw [toStr, hbytes, String.fromUTF8?, dif_pos text.isValidUTF8]
  rfl

/-- Both sides read the same 32 bytes from 64 digits. -/
theorem exists_decodeToSlice {text : String} (h : IsHashHex text) :
    ∃ out, decodeToSlice text = some out ∧ hex32OrBytes text = out.toList := by
  obtain ⟨out, hout, hlen⟩ := exists_hexDecode_of_hex (k := 32) h.1 h.2
  rw [← utf8_eq_flatMap] at hout
  refine ⟨⟨out, hlen⟩, ?_, ?_⟩
  · rw [decodeToSlice, hout]
    exact dif_pos hlen
  · rw [hex32OrBytes, hout]
    exact if_pos hlen

theorem serializeHeader_eq {h : BlockHeader} {prevBytes merkleBytes : Hash}
    (hprev : hex32OrBytes h.prevHash = prevBytes.toList)
    (hmerkle : hex32OrBytes h.merkleRoot = merkleBytes.toList) :
    serializeHeader h.version prevBytes merkleBytes h.timestamp h.bits h.nonce = h.powBytes := by
  rw [serializeHeader, BlockHeader.powBytes, hprev, hmerkle]
  simp only [List.append_assoc]

/-! ### The search -/

variable {sha256 : Bytes → Hash}

/-- Does the hash with a nonce pass? -/
def Job.wins (sha256 : Bytes → Hash) (job : Job) (target : Bytes) (nonce : UInt64) : Bool :=
  hashLeTarget (job.hash sha256 nonce).toList target

/-- What a search returns that found a nonce. -/
def Job.found (sha256 : Bytes → Hash) (job : Job) (nonce : UInt64) : MineResult :=
  ⟨nonce,
    if job.outHash then some (utf8 (hexEncode (job.hash sha256 nonce).toList) ++ [0]) else none⟩

/-- **The loop finds the first nonce that wins, or has tried them all.** -/
theorem mineLoop_spec (sha256 : Bytes → Hash) {job : Job} (target : Bytes)
    (hstop : ∀ n, job.stops n = false) {turns : ℕ} (nonce : UInt64)
    (hturns : turns = job.endNonce.toNat - nonce.toNat) :
    (∃ n, nonce ≤ n ∧ n < job.endNonce ∧ job.wins sha256 target n = true ∧
        (∀ m, nonce ≤ m → m < n → job.wins sha256 target m = false) ∧
        mineLoop sha256 job target turns nonce = job.found sha256 n) ∨
      (∀ m, nonce ≤ m → m < job.endNonce → job.wins sha256 target m = false) ∧
        mineLoop sha256 job target turns nonce = .notFound := by
  induction turns generalizing nonce with
  | zero =>
    refine Or.inr ⟨fun m hle hlt => ?_, rfl⟩
    rw [UInt64.le_iff_toNat_le] at hle
    rw [UInt64.lt_iff_toNat_lt] at hlt
    omega
  | succ turns ih =>
    have hend := job.endNonce.toNat_lt
    have hlt : nonce < job.endNonce := by
      rw [UInt64.lt_iff_toNat_lt]
      omega
    rw [mineLoop, if_pos hlt, hstop nonce, if_neg (by simp)]
    dsimp only
    cases hwins : job.wins sha256 target nonce with
    | true =>
      refine Or.inl ⟨nonce, UInt64.le_refl _, hlt, hwins, fun m hle hm => ?_, if_pos hwins⟩
      exact absurd (UInt64.lt_of_le_of_lt hle hm) (UInt64.lt_irrefl nonce)
    | false =>
      -- the next nonce does not wrap, because the end of the range is a word
      have hnext : (nonce + 1).toNat = nonce.toNat + 1 := by
        rw [UInt64.toNat_add, UInt64.toNat_one, Nat.mod_eq_of_lt (by omega)]
      have hcases : ∀ m, nonce ≤ m → m = nonce ∨ nonce + 1 ≤ m := fun m hle => by
        rw [← UInt64.toNat_inj, UInt64.le_iff_toNat_le, hnext]
        rw [UInt64.le_iff_toNat_le] at hle
        omega
      have hbefore : nonce ≤ nonce + 1 := by
        rw [UInt64.le_iff_toNat_le]
        omega
      rw [if_neg (by rw [Job.wins] at hwins; simp [hwins])]
      have hturns' : turns = job.endNonce.toNat - (nonce + 1).toNat := by omega
      rcases ih (nonce + 1) hturns' with ⟨n, hle, hn, hw, hleast, heq⟩ | ⟨hnone, heq⟩
      · refine Or.inl ⟨n, UInt64.le_trans hbefore hle, hn, hw, fun m hm hmn => ?_, heq⟩
        rcases hcases m hm with rfl | hm
        · exact hwins
        · exact hleast m hm hmn
      · refine Or.inr ⟨fun m hm hme => ?_, heq⟩
        rcases hcases m hm with rfl | hm
        · exact hwins
        · exact hnone m hm hme

/-- No stop is requested: the pointer is null, or every read yields zero. -/
def NoStop (stopFlag : Option (UInt64 → UInt8)) : Prop :=
  ∀ read, stopFlag = some read → ∀ nonce, read nonce = 0

theorem Job.stops_of_noStop {job : Job} (h : NoStop job.stopFlag) (nonce : UInt64) :
    job.stops nonce = false := by
  rw [Job.stops]
  cases hflag : job.stopFlag with
  | none => rfl
  | some read => simp [h read hflag nonce]

/-- With hashes that decode, the function is the search. -/
theorem arkosMine_eq (sha256 : Bytes → Hash) {prevHash merkleRoot : String}
    {prevBytes merkleBytes : Hash} (hprev : decodeToSlice prevHash = some prevBytes)
    (hmerkle : decodeToSlice merkleRoot = some merkleBytes) (version : UInt32) (timestamp : UInt64)
    (bits : UInt32) (startNonce endNonce : UInt64) (stopFlag : Option (UInt64 → UInt8))
    (outHash : Bool) :
    arkosMine sha256 version (utf8 prevHash) (utf8 merkleRoot) timestamp bits startNonce endNonce
        stopFlag outHash =
      mineLoop sha256
        ⟨version, prevBytes, merkleBytes, timestamp, bits, endNonce, stopFlag, outHash⟩
        (bitsToTarget bits) (endNonce.toNat - startNonce.toNat) startNonce := by
  rw [arkosMine, toStr_utf8, toStr_utf8]
  dsimp only
  rw [hprev, hmerkle]

/-- No nonce of a range is the sentinel, because the end of a range is a word. -/
theorem ne_nonceNotFound_of_lt {n endNonce : UInt64} (hn : n < endNonce) : n ≠ nonceNotFound := by
  intro heq
  have hle := endNonce.toNat_lt
  rw [heq, UInt64.lt_iff_toNat_lt] at hn
  have hmax : nonceNotFound.toNat = 2 ^ 64 - 1 := rfl
  omega

/-- **The mobile miner agrees with the node.** On every header with hashes of 64 digits and every
range, a search that is not stopped returns the least nonce of the range that the node accepts, and
writes the hash the node names the header by; or there is no such nonce and it returns
`NONCE_NOT_FOUND`, which no nonce of a range is. -/
theorem mine_agrees (sha256 : Bytes → Hash) (C : Crypto)
    (hsha : ∀ data, C.hash256 data = hash256 sha256 data) (version : UInt32)
    (prevHash merkleRoot : String) (hprev : IsHashHex prevHash) (hmerkle : IsHashHex merkleRoot)
    (timestamp : UInt64) (bits : UInt32) (startNonce endNonce : UInt64)
    (stopFlag : Option (UInt64 → UInt8)) (hstop : NoStop stopFlag) (outHash : Bool) :
    let header (nonce : UInt64) : BlockHeader :=
      ⟨version, prevHash, merkleRoot, timestamp, bits, nonce⟩
    let result := arkosMine sha256 version (utf8 prevHash) (utf8 merkleRoot) timestamp bits
      startNonce endNonce stopFlag outHash
    (∀ n, startNonce ≤ n → n < endNonce → (header n).meetsTarget C = true →
        (∀ m, startNonce ≤ m → m < n → (header m).meetsTarget C = false) →
        result.nonce = n ∧ n ≠ nonceNotFound ∧
          result.written = if outHash then some (utf8 ((header n).hashHex C) ++ [0]) else none) ∧
      (result.nonce = nonceNotFound ↔
        ∀ n, startNonce ≤ n → n < endNonce → (header n).meetsTarget C = false) := by
  intro header result
  obtain ⟨prevBytes, hprevBytes, hprevNode⟩ := exists_decodeToSlice hprev
  obtain ⟨merkleBytes, hmerkleBytes, hmerkleNode⟩ := exists_decodeToSlice hmerkle
  obtain ⟨job, hjob⟩ : ∃ job : Job, job =
    ⟨version, prevBytes, merkleBytes, timestamp, bits, endNonce, stopFlag, outHash⟩ := ⟨_, rfl⟩
  have hresult : result = mineLoop sha256 job (bitsToTarget bits)
      (job.endNonce.toNat - startNonce.toNat) startNonce := by
    rw [hjob]
    exact arkosMine_eq sha256 hprevBytes hmerkleBytes _ _ _ _ _ _ _
  have hhash : ∀ n, job.hash sha256 n = (header n).hash C := fun n => by
    rw [BlockHeader.hash, hsha, ← serializeHeader_eq (h := header n) hprevNode hmerkleNode, hjob]
    rfl
  have hwins : ∀ n, job.wins sha256 (bitsToTarget bits) n = (header n).meetsTarget C := fun n => by
    rw [Job.wins, hhash, hashLeTarget_eq, bitsToTarget_eq, BlockHeader.meetsTarget]
  have hfound : ∀ n, job.found sha256 n =
      ⟨n, if outHash then some (utf8 ((header n).hashHex C) ++ [0]) else none⟩ := fun n => by
    rw [Job.found, hhash, hjob]
    rfl
  have hend : job.endNonce = endNonce := by rw [hjob]
  have hspec := mineLoop_spec sha256 (bitsToTarget bits)
    (job.stops_of_noStop (by rw [hjob]; exact hstop)) startNonce rfl
  rw [← hresult, hend] at hspec
  simp only [hwins, hfound] at hspec
  rcases hspec with ⟨n, hle, hlt, hmeets, hleast, heq⟩ | ⟨hnone, heq⟩
  · refine ⟨fun n' hle' _ hmeets' hleast' => ?_, ?_⟩
    · -- there is only one least nonce
      have hsame : n' = n := by
        rcases Nat.lt_trichotomy n'.toNat n.toNat with hcmp | hcmp | hcmp
        · rw [hleast n' hle' (UInt64.lt_iff_toNat_lt.mpr hcmp)] at hmeets'
          cases hmeets'
        · exact UInt64.toNat_inj.mp hcmp
        · rw [hleast' n hle (UInt64.lt_iff_toNat_lt.mpr hcmp)] at hmeets
          cases hmeets
      rw [heq, hsame]
      exact ⟨rfl, ne_nonceNotFound_of_lt hlt, rfl⟩
    · rw [heq]
      refine iff_of_false (ne_nonceNotFound_of_lt hlt) fun hall => ?_
      rw [hall n hle hlt] at hmeets
      cases hmeets
  · rw [heq]
    refine ⟨fun n hle hlt hmeets _ => ?_, iff_of_true rfl hnone⟩
    rw [hnone n hle hlt] at hmeets
    cases hmeets

theorem isHashHex_replicate {c : Char} (h : IsHexChar c) :
    IsHashHex (String.ofList (List.replicate 64 c)) := by
  rw [IsHashHex, String.toList_ofList, List.length_replicate]
  exact ⟨rfl, fun c' hc' => List.eq_of_mem_replicate hc' ▸ h⟩

/-- Hashes in upper and in lower case, and a target that every hash of the sample instance meets:
the first nonce wins. -/
theorem mine_agrees_mixedCase :
    (arkosMine sampleDigest 1 (utf8 (String.ofList (List.replicate 64 'F')))
      (utf8 (String.ofList (List.replicate 64 'a'))) 1700000000 regtestGenesisBits 5 100 none
      true).nonce = 5 :=
  ((mine_agrees sampleDigest { Crypto.sample with hash256 := hash256 sampleDigest } (fun _ => rfl) 1
    (String.ofList (List.replicate 64 'F')) (String.ofList (List.replicate 64 'a'))
    (isHashHex_replicate (Or.inr (Or.inl (by decide))))
    (isHashHex_replicate (Or.inr (Or.inr (by decide)))) 1700000000 regtestGenesisBits 5 100 none
    (fun _ h => by cases h) true).1 5 (by decide) (by decide) (by decide +kernel)
    fun m hle hlt => absurd (UInt64.lt_of_le_of_lt hle hlt) (UInt64.lt_irrefl 5)).1

end Mobile

end Arkos
