import Arkos.Transaction.Tx
import Mathlib.Data.Finset.Card

/-!
# Evaluating a locking script

`evaluateScript` decides whether an input may spend an output. A time lock is a comparison with a
block time, a key hash wants one signature by the key behind the address, and an `m`-of-`n` lock
looks at the first `m` supplied (signature, key) pairs: the primary slot of the input, then its
witnesses.

An `m`-of-`n` lock accepts exactly when `m` pairs are supplied and each of the first `m` is a
listed key with a signature that verifies (`evaluateScript_p2ms_iff`). Nothing in this compares
the pairs with each other, so one signer who hands in the same pair `m` times passes as `m`
signers. What distinct signers there are is counted by `signedKeys`, and `p2ms_threshold_iff` says
exactly for which inputs acceptance implies `m` of them.

## Main definitions

* `ScriptError`, `evaluateScript`
* `TxInput.signers` — the supplied pairs, in the order they are looked at
* `signedKeys`, `ThresholdMet`

## Main results

* `evaluateScript_p2ms_iff`, `evaluateScript_locks_iff`
* `p2ms_threshold_iff`, and the repeated signer `p2ms_repeated_signer`
-/

namespace Arkos

/-- Why a script is not satisfied. -/
inductive ScriptError where
  | invalidEcdsaPubkey
  | p2pkhSignatureInvalid (reason : String)
  | p2pkhAddressMismatch
  | p2msNeedSigs (m got : ℕ)
  | p2msValidSigs (valid m : ℕ)
  | cltvLocked (lockUntil blockTime : ℕ)
  deriving DecidableEq, Repr

/-- The text of the error. -/
def ScriptError.message : ScriptError → String
  | .invalidEcdsaPubkey => "invalid ECDSA pubkey"
  | .p2pkhSignatureInvalid reason => "P2PKH signature invalid: " ++ reason
  | .p2pkhAddressMismatch => "P2PKH pubkey does not match address"
  | .p2msNeedSigs m got => "P2MS: need " ++ toString m ++ " sigs, got " ++ toString got
  | .p2msValidSigs valid m =>
    "P2MS: only " ++ toString valid ++ "/" ++ toString m ++ " valid signatures"
  | .cltvLocked lockUntil blockTime =>
    "CLTV: output locked until " ++ toString lockUntil ++ " (current block time ~" ++
      toString blockTime ++ ")"

/-- The (signature, key) pairs an input supplies: the primary slot, then the witnesses. -/
def TxInput.signers (i : TxInput) : List (HybridSignature × HybridPublicKey) :=
  (i.signature, i.pubkey) :: i.witnesses

section

variable (C : Crypto)

/-- The body of the counting loop: does this pair count towards the threshold? The inner loop stops
at the first listed key that equals the supplied one and whose signature verifies. -/
def signerCounts (pubkeys : List HybridPublicKey) (sigHash : Hash)
    (s : HybridSignature × HybridPublicKey) : Bool :=
  pubkeys.any fun allowed =>
    allowed.ecdsaPubkey == s.2.ecdsaPubkey && allowed.dilithiumPubkey == s.2.dilithiumPubkey &&
      (C.verify s.1 sigHash.toList s.2).isOk

/-- `evaluate_script`. The 8-bit counter of the multisig loop never exceeds `m`, so it is a
number here. -/
def evaluateScript : Script → TxInput → Hash → ℕ → Except ScriptError Unit
  | .p2pkh address, input, sigHash, _ =>
    match C.publicKeyFromSlice input.pubkey.ecdsaPubkey with
    | none => .error .invalidEcdsaPubkey
    | some pubkey =>
      match C.verify input.signature sigHash.toList input.pubkey with
      | .error e => .error (.p2pkhSignatureInvalid e)
      | .ok () =>
        if hexEncode (C.hybridPubkeyToAddress pubkey input.pubkey.dilithiumPubkey) ≠ address then
          .error .p2pkhAddressMismatch
        else .ok ()
  | .p2ms m pubkeys, input, sigHash, _ =>
    let signers := input.signers.take m.toNat
    if signers.length < m.toNat then .error (.p2msNeedSigs m.toNat signers.length)
    else
      let validCount := signers.countP (signerCounts C pubkeys sigHash)
      if validCount < m.toNat then .error (.p2msValidSigs validCount m.toNat) else .ok ()
  | .timeLocked lockUntil inner, input, sigHash, blockTime =>
    if blockTime < lockUntil.toNat then .error (.cltvLocked lockUntil.toNat blockTime)
    else evaluateScript inner input sigHash blockTime

end

variable {C : Crypto}

/-! ### When a multisig lock accepts -/

theorem signerCounts_iff {pubkeys : List HybridPublicKey} {sigHash : Hash}
    {s : HybridSignature × HybridPublicKey} :
    signerCounts C pubkeys sigHash s = true ↔
      s.2 ∈ pubkeys ∧ C.verify s.1 sigHash.toList s.2 = .ok () := by
  have hok : ∀ r : Except String Unit, r.isOk = true ↔ r = .ok () := by
    rintro (e | ⟨⟩) <;> simp [Except.isOk, Except.toBool]
  simp only [signerCounts, List.any_eq_true, Bool.and_eq_true, beq_iff_eq, hok]
  constructor
  · rintro ⟨⟨e, d⟩, hmem, ⟨he, hd⟩, hv⟩
    obtain ⟨sig, e', d'⟩ := s
    subst he hd
    exact ⟨hmem, hv⟩
  · rintro ⟨hmem, hv⟩
    exact ⟨s.2, hmem, ⟨rfl, rfl⟩, hv⟩

/-- **A multisig lock accepts exactly when the first `m` pairs are all there and all count.** -/
theorem evaluateScript_p2ms_iff {m : UInt8} {pubkeys : List HybridPublicKey} {input : TxInput}
    {sigHash : Hash} {blockTime : ℕ} :
    evaluateScript C (.p2ms m pubkeys) input sigHash blockTime = .ok () ↔
      m.toNat ≤ input.signers.length ∧
        ∀ s ∈ input.signers.take m.toNat, signerCounts C pubkeys sigHash s = true := by
  rw [evaluateScript]
  have hlen : (input.signers.take m.toNat).length = min m.toNat input.signers.length :=
    List.length_take
  have hcount := List.countP_le_length (p := signerCounts C pubkeys sigHash)
    (l := input.signers.take m.toNat)
  constructor
  · intro h
    dsimp only at h
    split at h
    · cases h
    split at h
    · cases h
    next hlt hvalid =>
      refine ⟨by omega, List.countP_eq_length.mp (by omega)⟩
  · rintro ⟨hm, hall⟩
    have := List.countP_eq_length.mpr hall
    dsimp only
    rw [if_neg (by omega), if_neg (by omega)]

/-- A nesting of time locks accepts when every lock is open and the script inside accepts. -/
theorem evaluateScript_locks_iff {locks : List UInt64} {inner : Script} {input : TxInput}
    {sigHash : Hash} {blockTime : ℕ} :
    evaluateScript C (locks.foldr .timeLocked inner) input sigHash blockTime = .ok () ↔
      (∀ l ∈ locks, l.toNat ≤ blockTime) ∧
        evaluateScript C inner input sigHash blockTime = .ok () := by
  induction locks with
  | nil => simp
  | cons l locks ih =>
    rw [List.foldr_cons, evaluateScript]
    split
    · next hl =>
      simp only [reduceCtorEq, List.mem_cons, forall_eq_or_imp, false_iff, not_and, and_imp]
      intro hle
      omega
    · next hl =>
      rw [ih, List.forall_mem_cons, and_assoc]
      simp [Nat.not_lt.mp hl]

/-! ### Distinct signers -/

/-- The distinct listed keys for which some of the given pairs carries a verifying signature. -/
def signedKeys (C : Crypto) (pubkeys : List HybridPublicKey) (sigHash : Hash)
    (pairs : List (HybridSignature × HybridPublicKey)) : Finset HybridPublicKey :=
  ((pairs.filter (signerCounts C pubkeys sigHash)).map Prod.snd).toFinset

/-- At least `m` pairwise distinct listed keys, each with a supplied signature that verifies. -/
def ThresholdMet (C : Crypto) (m : UInt8) (pubkeys : List HybridPublicKey) (input : TxInput)
    (sigHash : Hash) : Prop :=
  ∃ ks : Finset HybridPublicKey, m.toNat ≤ ks.card ∧
    ∀ k ∈ ks, k ∈ pubkeys ∧
      ∃ sig, (sig, k) ∈ input.signers ∧ C.verify sig sigHash.toList k = .ok ()

theorem mem_signedKeys {pubkeys : List HybridPublicKey} {sigHash : Hash}
    {pairs : List (HybridSignature × HybridPublicKey)} {k : HybridPublicKey} :
    k ∈ signedKeys C pubkeys sigHash pairs ↔
      k ∈ pubkeys ∧ ∃ sig, (sig, k) ∈ pairs ∧ C.verify sig sigHash.toList k = .ok () := by
  simp only [signedKeys, List.mem_toFinset, List.mem_map, List.mem_filter, signerCounts_iff,
    Prod.exists, exists_eq_right]
  constructor
  · rintro ⟨sig, hmem, hk, hv⟩
    exact ⟨hk, sig, hmem, hv⟩
  · rintro ⟨hk, sig, hmem, hv⟩
    exact ⟨sig, hmem, hk, hv⟩

theorem thresholdMet_iff {m : UInt8} {pubkeys : List HybridPublicKey} {input : TxInput}
    {sigHash : Hash} :
    ThresholdMet C m pubkeys input sigHash ↔
      m.toNat ≤ (signedKeys C pubkeys sigHash input.signers).card := by
  constructor
  · rintro ⟨ks, hcard, hks⟩
    exact hcard.trans (Finset.card_le_card fun k hk => mem_signedKeys.mpr (hks k hk))
  · intro h
    exact ⟨_, h, fun k hk => mem_signedKeys.mp hk⟩

/-- When the first `m` pairs all count, the signed keys are theirs and those signed later on. -/
theorem card_signedKeys {m : ℕ} {pubkeys : List HybridPublicKey} {sigHash : Hash}
    {pairs : List (HybridSignature × HybridPublicKey)}
    (hall : ∀ s ∈ pairs.take m, signerCounts C pubkeys sigHash s = true) :
    (signedKeys C pubkeys sigHash pairs).card =
      ((pairs.take m).map Prod.snd).toFinset.card +
        (signedKeys C pubkeys sigHash (pairs.drop m) \
          ((pairs.take m).map Prod.snd).toFinset).card := by
  have hsplit : signedKeys C pubkeys sigHash pairs =
      ((pairs.take m).map Prod.snd).toFinset ∪ signedKeys C pubkeys sigHash (pairs.drop m) := by
    have hfilter : (pairs.take m).filter (signerCounts C pubkeys sigHash) = pairs.take m :=
      List.filter_eq_self.mpr hall
    conv_lhs => rw [signedKeys, ← List.take_append_drop m pairs]
    rw [List.filter_append, hfilter, List.map_append, List.toFinset_append, signedKeys]
  rw [hsplit, ← Finset.union_sdiff_self_eq_union, Finset.card_union_of_disjoint
    Finset.disjoint_sdiff]

/-- **When acceptance of an `m`-of-`n` lock, under any nesting of time locks, means `m` distinct
signers.** Acceptance looks at the first `m` pairs one by one, so it means as many signers as these
pairs have distinct keys; every repetition among them has to be made up by a further listed key
that is signed for in a pair nobody looked at. The first three alternatives are the inputs that are
not accepted at all. -/
theorem p2ms_threshold_iff (C : Crypto) (locks : List UInt64) (m : UInt8)
    (pubkeys : List HybridPublicKey) (input : TxInput) (sigHash : Hash) (blockTime : ℕ) :
    (evaluateScript C (locks.foldr .timeLocked (.p2ms m pubkeys)) input sigHash blockTime = .ok () →
        ThresholdMet C m pubkeys input sigHash) ↔
      (∃ l ∈ locks, blockTime < l.toNat) ∨
      input.signers.length < m.toNat ∨
      (∃ s ∈ input.signers.take m.toNat,
        ¬ (s.2 ∈ pubkeys ∧ C.verify s.1 sigHash.toList s.2 = .ok ())) ∨
      m.toNat - ((input.signers.take m.toNat).map Prod.snd).toFinset.card ≤
        (signedKeys C pubkeys sigHash (input.signers.drop m.toNat) \
          ((input.signers.take m.toNat).map Prod.snd).toFinset).card := by
  rw [evaluateScript_locks_iff, evaluateScript_p2ms_iff, thresholdMet_iff]
  by_cases hlocks : ∃ l ∈ locks, blockTime < l.toNat
  · simp only [hlocks, true_or, iff_true]
    rintro ⟨hopen, -⟩
    obtain ⟨l, hl, hlt⟩ := hlocks
    have := hopen l hl
    omega
  by_cases hlen : input.signers.length < m.toNat
  · simp only [hlen, true_or, or_true, iff_true]
    rintro ⟨-, hle, -⟩
    omega
  by_cases hall : ∀ s ∈ input.signers.take m.toNat, signerCounts C pubkeys sigHash s = true
  · -- accepted: both sides compare the distinct keys with `m`
    have hopen : ∀ l ∈ locks, l.toNat ≤ blockTime := fun l hl => by
      by_contra hlt
      exact hlocks ⟨l, hl, by omega⟩
    have hthird : ¬ ∃ s ∈ input.signers.take m.toNat,
        ¬ (s.2 ∈ pubkeys ∧ C.verify s.1 sigHash.toList s.2 = .ok ()) := by
      rintro ⟨s, hs, hns⟩
      exact hns (signerCounts_iff.mp (hall s hs))
    have hcard := card_signedKeys hall
    simp only [hlocks, hlen, hthird, false_or]
    constructor
    · intro h
      have := h ⟨hopen, by omega, hall⟩
      omega
    · intro h _
      omega
  · have hthird : ∃ s ∈ input.signers.take m.toNat,
        ¬ (s.2 ∈ pubkeys ∧ C.verify s.1 sigHash.toList s.2 = .ok ()) := by
      push Not at hall
      obtain ⟨s, hs, hns⟩ := hall
      exact ⟨s, hs, fun h => hns (signerCounts_iff.mpr h)⟩
    simp only [hthird, true_or, or_true, iff_true]
    rintro ⟨-, -, h⟩
    exact absurd h hall

/-- An input that hands in the signature of one key twice. -/
def repeatedSignerInput (key : HybridPublicKey) (sigHash : Hash) : TxInput where
  prevTxHash := zeroHashHex
  prevIndex := 0
  signature := sampleSign key sigHash.toList
  pubkey := key
  coinbaseExtra := []
  witnesses := [(sampleSign key sigHash.toList, key)]

/-- A key of the sizes the sample instance wants. -/
def cosigner (b : UInt8) : HybridPublicKey := ⟨List.replicate 33 b, List.replicate 1952 b⟩

/-- One signer is enough for a two-of-two lock: the same pair in the primary slot and as the only
witness is accepted, and no second key has signed. -/
theorem p2ms_repeated_signer :
    evaluateScript Crypto.sample (.p2ms 2 [cosigner 2, cosigner 3])
        (repeatedSignerInput (cosigner 2) (sampleDigest [])) (sampleDigest []) 0 = .ok () ∧
      ¬ ThresholdMet Crypto.sample 2 [cosigner 2, cosigner 3]
        (repeatedSignerInput (cosigner 2) (sampleDigest [])) (sampleDigest []) := by
  -- the only pair that is handed in
  have hpair : ∀ s ∈ (repeatedSignerInput (cosigner 2) (sampleDigest [])).signers,
      s = (sampleSign (cosigner 2) (sampleDigest []).toList, cosigner 2) := by
    intro s hs
    simpa [TxInput.signers, repeatedSignerInput] using hs
  constructor
  · refine evaluateScript_p2ms_iff.mpr ⟨le_rfl, fun s hs => signerCounts_iff.mpr ?_⟩
    rw [hpair s (List.mem_of_mem_take hs)]
    exact ⟨List.mem_cons_self, verify_sample_eq_ok_iff.mpr
      ⟨List.length_replicate, List.length_replicate, rfl⟩⟩
  · rintro ⟨ks, hcard, hks⟩
    have hsub : ks ⊆ {cosigner 2} := by
      intro k hk
      obtain ⟨-, sig, hmem, -⟩ := hks k hk
      exact Finset.mem_singleton.mpr (congrArg Prod.snd (hpair _ hmem))
    have hone := Finset.card_le_card hsub
    rw [Finset.card_singleton] at hone
    have htwo : (2 : UInt8).toNat = 2 := rfl
    omega

end Arkos
