import Arkos.Commands.DataDir

/-!
# Tokens and their revocation

Whatever commands were carried out in a directory, each cut short anywhere: its tokens come from the
`init` that founded it, or from a `grant` under the passphrase of that `init`; and a token is valid
until it expires or its id is revoked, with one exception. A list that does not parse is an empty
list to `list-tokens` and `verify-token`, and an error to `revoke`. So when a `revoke` is cut short
while it writes the list, all revocations are undone, and none can be made any more.

## Main definitions

* `DataDir.Listed` — what the list holds after some commands
* `DataDir.Founded` — what the vault, the public key and the tokens are after them

## Main results

* `DataDir.token_verdict`
-/

namespace Arkos

variable {W : WalletCrypto} {V : VaultCrypto} {A : AccessCrypto} {T : TokenPaths} {P : Set String}
  {dir : DataDir} {d : Draw} {command : OwnerCommand} {ws : List Write} {s : OwnerStep}
  {steps hist : List OwnerStep}

/-! ### The list of revoked ids -/

/-- The command writes the id into the list, if the list can be read. -/
def OwnerStep.Revokes (tokenId : String) (s : OwnerStep) : Prop :=
  s.command = .revoke tokenId ∧ 0 < s.done

/-- The command is cut short while it writes the list. -/
def OwnerStep.CutsList (s : OwnerStep) : Prop :=
  (∃ tokenId, s.command = .revoke tokenId) ∧ s.done = 0 ∧ s.begun ≠ none

namespace DataDir

/-- The list holds what was revoked, unless it was cut short. -/
structure Listed (hist : List OwnerStep) (dir : DataDir) : Prop where
  torn_iff : dir.revoked = .torn ↔ ∃ s ∈ hist, s.CutsList
  isRevoked_iff : dir.revoked ≠ .torn → ∀ tokenId,
    dir.revocations.isRevoked tokenId = true ↔ ∃ s ∈ hist, s.Revokes tokenId

/-- It depends on that file only. -/
theorem Listed.congr (h : Listed hist dir) {dir' : DataDir} (heq : dir'.revoked = dir.revoked)
    {s : OwnerStep} (hs : ∀ tokenId, s.command ≠ .revoke tokenId) : Listed (hist ++ [s]) dir' := by
  have hcuts : ¬ s.CutsList := fun ⟨⟨tokenId, hcommand⟩, _⟩ => hs tokenId hcommand
  have hrevokes : ∀ tokenId, ¬ s.Revokes tokenId := fun tokenId hr => hs tokenId hr.1
  have hlist : dir'.revocations = dir.revocations := by
    rw [revocations, revocations, loadRevoked, loadRevoked, heq]
  refine ⟨?_, fun htorn tokenId => ?_⟩
  · rw [heq, h.torn_iff]
    simp [hcuts]
  · rw [hlist, h.isRevoked_iff (heq ▸ htorn)]
    simp [hrevokes]

theorem loadRevoked_eq_ok_iff {list : RevocationList} :
    dir.loadRevoked = .ok list ↔ dir.revoked ≠ .torn ∧ dir.revocations = list := by
  rw [revocations, loadRevoked]
  cases dir.revoked <;> simp

/-- A command other than `revoke` leaves the list alone. -/
theorem revoked_carryOut (h : command.Wrote V A T P dir d ws)
    (hcommand : ∀ tokenId, command ≠ .revoke tokenId) (done : ℕ) (begun : Option ℕ) :
    (dir.carryOut ws done begun).revoked = dir.revoked := by
  refine carryOut_rule (P := fun x => x.revoked = dir.revoked) (fun w hw x hx => ?_) rfl done begun
  cases h with
  | nothing => cases hw
  | founded hvault hseals =>
    simp only [List.mem_cons, List.not_mem_nil, or_false] at hw
    rcases hw with rfl | rfl | rfl | rfl <;> exact ⟨hx, fun _ => hx⟩
  | rewritten hvault hpass hopen hseals =>
    obtain rfl := List.mem_singleton.mp hw
    exact ⟨hx, fun _ => hx⟩
  | granted hvault hpass hopen hmaster =>
    obtain rfl := List.mem_singleton.mp hw
    exact ⟨hx, fun _ => hx⟩
  | revoked hload => exact absurd rfl (hcommand _)

/-- A `revoke` whose list cannot be read does nothing. -/
theorem step_revoke_of_torn {tokenId : String} (hs : s.command = .revoke tokenId)
    (htorn : dir.revoked = .torn) : dir.step W V A T s = dir := by
  rw [step, hs, OwnerCommand.writes, loadRevoked, htorn]

/-- Else it writes the list with the id, and nothing more. -/
theorem step_revoke {tokenId : String} (hs : s.command = .revoke tokenId)
    (htorn : dir.revoked ≠ .torn) : dir.step W V A T s =
      dir.carryOut [.revoked (dir.revocations.revoke tokenId)] s.done s.begun := by
  rw [step, hs, OwnerCommand.writes, loadRevoked_eq_ok_iff.mpr ⟨htorn, rfl⟩]

theorem Listed.step (hV : V.Lawful P) (h : Listed hist dir) {s : OwnerStep}
    (hP : ∀ p ∈ s.command.passphrases, p ∈ P) : Listed (hist ++ [s]) (dir.step W V A T s) := by
  obtain ⟨ws, hwrote, heq⟩ := step_cases (W := W) (A := A) (T := T) hV dir hP
  by_cases hrevoke : ∃ tokenId, s.command = .revoke tokenId
  swap
  · have hother : ∀ tokenId, s.command ≠ .revoke tokenId := fun tokenId hc => hrevoke ⟨tokenId, hc⟩
    refine h.congr ?_ hother
    rw [heq]
    exact revoked_carryOut hwrote hother _ _
  obtain ⟨tokenId, hcommand⟩ := hrevoke
  have hrevokes : ∀ id, s.Revokes id ↔ id = tokenId ∧ 0 < s.done := by
    intro id
    rw [OwnerStep.Revokes, hcommand]
    simp [eq_comm]
  have hcuts : s.CutsList ↔ s.done = 0 ∧ s.begun ≠ none := by
    rw [OwnerStep.CutsList, hcommand]
    simp
  by_cases htorn : dir.revoked = .torn
  · -- the list cannot be read, and stays as it is
    rw [step_revoke_of_torn hcommand htorn]
    refine ⟨iff_of_true htorn ?_, fun hne => absurd htorn hne⟩
    obtain ⟨x, hx, hxcuts⟩ := h.torn_iff.mp htorn
    exact ⟨x, List.mem_append_left _ hx, hxcuts⟩
  · have hnone : ¬ ∃ x ∈ hist, x.CutsList := fun hx => htorn (h.torn_iff.mpr hx)
    rw [step_revoke hcommand htorn]
    cases hdone : s.done with
    | zero =>
      rw [hdone] at hrevokes hcuts
      cases hbegun : s.begun with
      | none =>
        rw [hbegun] at hcuts
        refine ⟨iff_of_false htorn ?_, fun _ id => ?_⟩
        · simpa [hcuts] using hnone
        · show dir.revocations.isRevoked id = true ↔ _
          rw [h.isRevoked_iff htorn]
          simp [hrevokes]
      | some n =>
        rw [hbegun] at hcuts
        refine ⟨iff_of_true rfl ⟨s, by simp, hcuts.mpr ⟨rfl, Option.some_ne_none n⟩⟩,
          fun hne => absurd rfl hne⟩
    | succ done =>
      rw [hdone] at hrevokes hcuts
      refine ⟨iff_of_false (fun hne => by cases hne) ?_, fun _ id => ?_⟩
      · simpa [hcuts] using hnone
      · show (dir.revocations.revoke tokenId).isRevoked id = true ↔ _
        rw [RevocationList.isRevoked_revoke, h.isRevoked_iff htorn]
        simp [hrevokes, or_comm]

theorem listed_run (hV : V.Lawful P)
    (hP : ∀ s ∈ steps, ∀ p ∈ s.command.passphrases, p ∈ P) :
    Listed steps (run W V A T steps) := by
  induction steps using List.reverseRecOn with
  | nil =>
    refine ⟨iff_of_false (fun h => by cases h) (by simp), fun _ tokenId => ?_⟩
    have hdefault := RevocationList.not_isRevoked_default tokenId
    exact iff_of_false (fun h => Bool.false_ne_true (hdefault.symm.trans h)) (by simp)
  | append_singleton steps s ih =>
    rw [run_concat]
    exact (ih fun x hx => hP x (List.mem_append_left _ hx)).step hV (hP s (by simp))

/-! ### The master key -/

end DataDir

/-- The master key that `init` makes in this step. -/
def OwnerStep.master (A : AccessCrypto) (s : OwnerStep) : MasterKey A :=
  .fromSecretBytes A s.draw.masterSecret

/-- The token is that of the owner, from the founding of the directory, or was granted by one who
typed the passphrase. -/
def IssuedIn (A : AccessCrypto) (hist : List OwnerStep) (founding : OwnerStep) (passphrase : String)
    (t : AccessToken) : Prop :=
  t = OwnerCommand.ownerToken A founding.draw ∨
    ∃ s ∈ hist, ∃ name permissions days, s.command = .grant passphrase name permissions days ∧
      t = OwnerCommand.grantedToken A (founding.master A) s.draw name permissions days

/-- Such a token is the answer of a call of `issue_token`. -/
theorem IssuedIn.exists_request {founding : OwnerStep} {passphrase : String} {t : AccessToken}
    (h : IssuedIn A hist founding passphrase t) :
    ∃ r : TokenRequest, t = r.token (founding.master A) := by
  obtain rfl | ⟨s, -, name, permissions, days, -, rfl⟩ := h
  · exact ⟨⟨_, _, _, _, _⟩, rfl⟩
  · exact ⟨⟨_, _, _, _, _⟩, rfl⟩

theorem IssuedIn.mono {founding : OwnerStep} {passphrase : String} {t : AccessToken}
    (h : IssuedIn A hist founding passphrase t) (s : OwnerStep) :
    IssuedIn A (hist ++ [s]) founding passphrase t := by
  obtain rfl | ⟨s', hs', hgrant⟩ := h
  · exact .inl rfl
  · exact .inr ⟨s', List.mem_append_left _ hs', hgrant⟩

namespace DataDir

/-- The directory was founded by this step: its vault begins with the key of the step, its tokens
are signed with it, and `master.pub` is its public half or a beginning of that. -/
structure Founded (V : VaultCrypto) (A : AccessCrypto) (P : Set String) (hist : List OwnerStep)
    (founding : OwnerStep) (passphrase : String) (dir : DataDir) : Prop where
  mem : founding ∈ hist
  command_eq : founding.command = .init passphrase passphrase
  vault : dir.vault = .torn ∨ ∃ file contents keys, dir.vault = .holds file ∧
    file.Seals V P passphrase contents ∧
      contents.secretKeys = (founding.master A).secretHex :: keys
  masterPub : dir.masterPub = none ∨
    ∃ n, dir.masterPub = some (.ofList ((founding.master A).publicHex.toList.take n))
  token : ∀ path t, dir.token path = .holds t → IssuedIn A hist founding passphrase t

/-- Nothing but the list may be there. -/
structure Unfounded (dir : DataDir) : Prop where
  vault : dir.vault = .missing
  masterPub : dir.masterPub = none
  token : ∀ path, dir.token path = .missing

theorem masterKey_eq {contents : VaultContents} {bytes : Hash} {keys : List String}
    (h : contents.secretKeys = (MasterKey.fromSecretBytes A bytes).secretHex :: keys) :
    masterKey A contents = .ok (MasterKey.fromSecretBytes A bytes) := by
  obtain ⟨bytes, hlen⟩ := bytes
  rw [masterKey, h, List.getElem?_cons_zero]
  dsimp only
  rw [MasterKey.secretHex, hexDecode_hexEncode]
  exact dif_pos hlen

section

variable {founding : OwnerStep} {passphrase : String}

theorem Founded.mono (h : Founded V A P hist founding passphrase dir) (s : OwnerStep) :
    Founded V A P (hist ++ [s]) founding passphrase dir :=
  ⟨List.mem_append_left _ h.mem, h.command_eq, h.vault, h.masterPub, fun path t ht =>
    (h.token path t ht).mono s⟩

/-- Writing a token that was issued. -/
theorem Founded.writeToken (h : Founded V A P hist founding passphrase dir) {t : AccessToken}
    (ht : IssuedIn A hist founding passphrase t) (path : String) :
    Founded V A P hist founding passphrase ((Write.token path t).apply dir) ∧
      ∀ n, Founded V A P hist founding passphrase ((Write.token path t).tear n dir) := by
  refine ⟨⟨h.mem, h.command_eq, h.vault, h.masterPub, fun path' t' ht' => ?_⟩,
    fun n => ⟨h.mem, h.command_eq, h.vault, h.masterPub, fun path' t' ht' => ?_⟩⟩
  all_goals
    replace ht' : Function.update dir.token path _ path' = .holds t' := ht'
    by_cases hpath : path' = path
    · subst hpath
      rw [Function.update_self] at ht'
      cases ht'
      try exact ht
    · rw [Function.update_of_ne hpath] at ht'
      exact h.token path' t' ht'

/-- The founding goes on after the vault is written. -/
theorem Founded.carryOut_founding (h : Founded V A P hist founding passphrase dir) (owner : String)
    (done : ℕ) (begun : Option ℕ) :
    Founded V A P hist founding passphrase (dir.carryOut [.masterPub (founding.master A).publicHex,
      .tokensDir, .token owner (OwnerCommand.ownerToken A founding.draw)] done begun) := by
  refine carryOut_rule (P := Founded V A P hist founding passphrase) (fun w hw x hx => ?_) h done
    begun
  simp only [List.mem_cons, List.not_mem_nil, or_false] at hw
  rcases hw with rfl | rfl | rfl
  · refine ⟨⟨hx.mem, hx.command_eq, hx.vault, .inr ⟨64, ?_⟩, hx.token⟩,
      fun n => ⟨hx.mem, hx.command_eq, hx.vault, .inr ⟨n, rfl⟩, hx.token⟩⟩
    have hlen : (founding.master A).publicHex.toList.length ≤ 64 := by
      rw [MasterKey.publicHex, hexEncode, String.toList_ofList, List.length_flatMap]
      simp [hexChars]
    rw [List.take_of_length_le hlen, String.ofList_toList]
    rfl
  · exact ⟨⟨hx.mem, hx.command_eq, hx.vault, hx.masterPub, hx.token⟩, fun _ => hx⟩
  · exact hx.writeToken (.inl rfl) owner

/-- **A directory that was founded stays so**, whatever is done to it. -/
theorem Founded.step (hV : V.Lawful P) (h : Founded V A P hist founding passphrase dir)
    {s : OwnerStep} (hP : ∀ p ∈ s.command.passphrases, p ∈ P) :
    Founded V A P (hist ++ [s]) founding passphrase (dir.step W V A T s) := by
  obtain ⟨ws, hwrote, heq⟩ := step_cases (W := W) (A := A) (T := T) hV dir hP
  have hmono := h.mono s
  rw [heq]
  -- what opens the vault is the passphrase
  have hopens : ∀ file, ∀ passphrase' ∈ P, ∀ contents, dir.vault = .holds file →
      openVault V passphrase' file = .ok contents → passphrase' = passphrase ∧
        ∃ keys, contents.secretKeys = (founding.master A).secretHex :: keys := by
    intro file passphrase' hpass contents hvault hopen
    obtain htorn | ⟨file', contents', keys, hvault', hseals, hkeys⟩ := h.vault
    · rw [htorn] at hvault
      cases hvault
    · obtain rfl : file' = file := by
        rw [hvault'] at hvault
        exact OnDisk.holds.inj hvault
      obtain ⟨rfl, rfl⟩ := (hseals _ hpass _).mp hopen
      exact ⟨rfl, keys, hkeys⟩
  generalize hcommand : s.command = command at hwrote
  cases hwrote with
  | nothing => exact hmono
  | founded hvault _ =>
    obtain htorn | ⟨file, contents, keys, hholds, -⟩ := h.vault
    · rw [hvault] at htorn
      cases htorn
    · rw [hvault] at hholds
      cases hholds
  | @rewritten _ typed key label file file' contents hvault hpass hopen hseals =>
    obtain ⟨rfl, keys, hkeys⟩ := hopens file typed hpass contents hvault hopen
    refine carryOut_rule (P := Founded V A P (hist ++ [s]) founding typed) (fun w hw x hx => ?_)
      hmono _ _
    obtain rfl := List.mem_singleton.mp hw
    refine ⟨⟨hx.mem, hx.command_eq, .inr ⟨file', _, keys ++ [key], rfl, hseals, ?_⟩, hx.masterPub,
      hx.token⟩, fun n => ⟨hx.mem, hx.command_eq, .inl rfl, hx.masterPub, hx.token⟩⟩
    rw [hkeys]
    rfl
  | granted hvault hpass hopen hmaster =>
    obtain ⟨rfl, keys, hkeys⟩ := hopens _ _ hpass _ hvault hopen
    obtain rfl := Except.ok.inj (hmaster.symm.trans (masterKey_eq hkeys))
    refine carryOut_rule (P := Founded V A P (hist ++ [s]) founding _)
      (fun w hw x hx => ?_) hmono _ _
    obtain rfl := List.mem_singleton.mp hw
    exact hx.writeToken (.inr ⟨s, by simp, _, _, _, hcommand, rfl⟩) _
  | revoked _ =>
    refine carryOut_rule (P := Founded V A P (hist ++ [s]) founding passphrase)
      (fun w hw x hx => ?_) hmono _ _
    obtain rfl := List.mem_singleton.mp hw
    exact ⟨⟨hx.mem, hx.command_eq, hx.vault, hx.masterPub, hx.token⟩,
      fun _ => ⟨hx.mem, hx.command_eq, hx.vault, hx.masterPub, hx.token⟩⟩

/-- A directory is founded by the first `init` that gets to write. -/
theorem Unfounded.step (hV : V.Lawful P) (h : Unfounded dir) (hist : List OwnerStep) {s : OwnerStep}
    (hP : ∀ p ∈ s.command.passphrases, p ∈ P) :
    Unfounded (dir.step W V A T s) ∨
      ∃ passphrase, Founded V A P (hist ++ [s]) s passphrase (dir.step W V A T s) := by
  obtain ⟨ws, hwrote, heq⟩ := step_cases (W := W) (A := A) (T := T) hV dir hP
  rw [heq]
  generalize hcommand : s.command = command at hwrote
  cases hwrote with
  | nothing => exact .inl h
  | @founded passphrase wallet file hvault hseals =>
    have hmem : s ∈ hist ++ [s] := by simp
    have hnone : ∀ path t, dir.token path = .holds t → IssuedIn A (hist ++ [s]) s passphrase t := by
      intro path t ht
      rw [h.token path] at ht
      cases ht
    cases s.done with
    | zero =>
      cases s.begun with
      | none => exact .inl h
      | some n => exact .inr ⟨passphrase, hmem, hcommand, .inl rfl, .inl h.masterPub, hnone⟩
    | succ done =>
      have hfirst : Founded V A P (hist ++ [s]) s passphrase ((Write.vault file).apply dir) :=
        ⟨hmem, hcommand, .inr ⟨file, _, [wallet], rfl, hseals, rfl⟩, .inl h.masterPub, hnone⟩
      exact .inr ⟨passphrase, hfirst.carryOut_founding T.owner done s.begun⟩
  | rewritten hvault _ _ _ =>
    rw [h.vault] at hvault
    cases hvault
  | granted hvault _ _ _ =>
    rw [h.vault] at hvault
    cases hvault
  | revoked _ =>
    refine .inl (carryOut_rule (P := Unfounded) (fun w hw x hx => ?_) h _ _)
    obtain rfl := List.mem_singleton.mp hw
    exact ⟨⟨hx.vault, hx.masterPub, hx.token⟩, fun _ => ⟨hx.vault, hx.masterPub, hx.token⟩⟩

theorem run_founded (hV : V.Lawful P)
    (hP : ∀ s ∈ steps, ∀ p ∈ s.command.passphrases, p ∈ P) :
    Unfounded (run W V A T steps) ∨
      ∃ founding passphrase, Founded V A P steps founding passphrase (run W V A T steps) := by
  induction steps using List.reverseRecOn with
  | nil => exact .inl ⟨rfl, rfl, fun _ => rfl⟩
  | append_singleton steps s ih =>
    rw [run_concat]
    have hs := hP s (by simp)
    obtain hnone | ⟨founding, passphrase, hfounded⟩ := ih fun x hx =>
      hP x (List.mem_append_left _ hx)
    · obtain hstill | ⟨passphrase, hfounded⟩ := hnone.step hV steps hs
      · exact .inl hstill
      · exact .inr ⟨s, passphrase, hfounded⟩
    · exact .inr ⟨founding, passphrase, hfounded.step hV hs⟩

end

/-! ### The verdict on a token -/

theorem isWhiteSpace_of_mem_hexEncode {bs : Bytes} {c : Char} (h : c ∈ (hexEncode bs).toList) :
    isWhiteSpace c = false := by
  have hdigit : ∀ n < 16, isWhiteSpace (hexDigit n) = false := by decide
  rw [hexEncode, String.toList_ofList, List.mem_flatMap] at h
  obtain ⟨b, -, hc⟩ := h
  have hb := b.toNat_lt
  simp only [hexChars, List.mem_cons, List.not_mem_nil, or_false] at hc
  obtain rfl | rfl := hc
  · exact hdigit _ (by omega)
  · exact hdigit _ (by omega)

theorem trim_eq_self {text : String} (h : ∀ c ∈ text.toList, isWhiteSpace c = false) :
    trim text = text := by
  have hdrop : ∀ cs : List Char, (∀ c ∈ cs, isWhiteSpace c = false) →
      cs.dropWhile isWhiteSpace = cs := by
    intro cs hcs
    cases cs with
    | nil => rfl
    | cons c cs => exact List.dropWhile_cons_of_neg (by simp [hcs c List.mem_cons_self])
  rw [trim, hdrop _ h, hdrop _ (fun c hc => h c (List.mem_reverse.mp hc)), List.reverse_reverse,
    String.ofList_toList]

/-- A token is only accepted under a key of 32 bytes. -/
theorem exists_key_of_verify {now : UInt64} {t : AccessToken} {text : String}
    {l : Option RevocationList} (h : t.verifyWithRevocation A now text l = .ok ()) :
    ∃ bytes, hexDecode (utf8 text) = some bytes ∧ bytes.length = 32 := by
  rw [AccessToken.verifyWithRevocation] at h
  split at h
  · cases h
  next bytes hbytes =>
    split at h
    · next hlen => exact ⟨bytes, hbytes, hlen⟩
    · cases h

/-- A beginning of the public master key that accepts a token is all of it. -/
theorem verify_token_iff (hA : A.Lawful) (m : MasterKey A) (r : TokenRequest) (now : UInt64)
    (n : ℕ) (l : RevocationList) :
    (r.token m).verifyWithRevocation A now (trim (.ofList (m.publicHex.toList.take n))) (some l) =
        .ok () ↔
      .ofList (m.publicHex.toList.take n) = m.publicHex ∧
        ((r.token m).expiresAt = 0 ∨ now ≤ (r.token m).expiresAt) ∧
          l.isRevoked (r.token m).tokenId = false := by
  rw [trim_eq_self fun c hc => isWhiteSpace_of_mem_hexEncode (List.mem_of_mem_take
    (by rwa [String.toList_ofList] at hc))]
  have hlive : ((r.token m).expiresAt = 0 ∨ now ≤ (r.token m).expiresAt) ↔
      (r.expiresInDays = 0 ∨ r.now + r.expiresInDays * 86400 = 0 ∨
        now ≤ r.now + r.expiresInDays * 86400) := by
    rw [TokenRequest.token, MasterKey.expiresAt_issueToken]
    by_cases hdays : r.expiresInDays = 0 <;> simp [hdays]
  by_cases hwhole : .ofList (m.publicHex.toList.take n) = m.publicHex
  · rw [hwhole, hlive]
    simp only [true_and]
    exact verify_issueToken_iff hA m
  · refine iff_of_false (fun h => hwhole ?_) (fun h => hwhole h.1)
    obtain ⟨bytes, hbytes, hlen⟩ := exists_key_of_verify h
    have hlower := congrArg (fun s : String => s.toList.length)
      (hexDecode_utf8_eq_some_iff.mp hbytes)
    have hhex : ∀ bs : Bytes, (hexEncode bs).toList.length = 2 * bs.length := by
      intro bs
      rw [hexEncode, String.toList_ofList, List.length_flatMap]
      simp [hexChars, Nat.mul_comm]
    have hpublic : m.publicHex.toList.length = 64 := by
      rw [MasterKey.publicHex, hhex, List.Vector.toList_length]
    have htake : (m.publicHex.toList.take n).length = 64 := by
      have hmap : ∀ s : String, s.toLower.toList.length = s.toList.length := fun s => by
        rw [show s.toLower.toList = s.toList.map Char.toLower from String.toList_map,
          List.length_map]
      simp only [hmap, hhex, hlen, String.toList_ofList] at hlower
      omega
    have hn : 64 ≤ n := by
      rw [List.length_take, hpublic] at htake
      omega
    rw [List.take_of_length_le (by omega), String.ofList_toList]

/-- The status says whether the token has expired and whether it is on the list. -/
theorem status_active_iff {now : UInt64} {t : AccessToken} :
    (dir.status now t = .active ∨ dir.status now t = .activeNoExpiry) ↔
      (t.expiresAt = 0 ∨ now ≤ t.expiresAt) ∧ dir.revocations.isRevoked t.tokenId = false := by
  rw [status]
  cases hrevoked : dir.revocations.isRevoked t.tokenId with
  | true => simp
  | false =>
    by_cases hnever : t.expiresAt = 0
    · simp [hnever]
    · have hpos : 0 < t.expiresAt := UInt64.pos_iff_ne_zero.mpr hnever
      by_cases hover : t.expiresAt < now
      · simp [hpos, hover, hnever, UInt64.not_le.mpr hover]
      · simp [hpos, hover, hnever, UInt64.not_lt.mp hover]

/-- What the list of a run says of an id. -/
theorem Listed.isRevoked_eq_false_iff (h : Listed hist dir) (tokenId : String) :
    dir.revocations.isRevoked tokenId = false ↔
      (∃ s ∈ hist, s.CutsList) ∨ ∀ s ∈ hist, ¬ s.Revokes tokenId := by
  by_cases htorn : dir.revoked = .torn
  · have hdefault : dir.revocations = .default := by
      rw [revocations, loadRevoked, htorn]
    rw [hdefault]
    exact iff_of_true (RevocationList.not_isRevoked_default tokenId) (.inl (h.torn_iff.mp htorn))
  · have hnone : ¬ ∃ s ∈ hist, s.CutsList := fun hx => htorn (h.torn_iff.mpr hx)
    rw [Bool.eq_false_iff, Ne, h.isRevoked_iff htorn tokenId]
    simp only [hnone, false_or, not_exists, not_and]

/-- **Who issued a token, and when it is valid.** Whatever commands were carried out, each cut short
anywhere: a token in a file was issued when the directory was founded, or by a `grant` under the
passphrase of that `init`. While it lives and `master.pub` is whole, `verify-token` accepts it just
when no `revoke` of its id wrote the list, or when some `revoke` was cut short while it wrote the
list; and its rows in `list-tokens` show it as active just then. `P` holds the passphrases that are
typed. -/
theorem token_verdict (W : WalletCrypto) (V : VaultCrypto) (A : AccessCrypto) (T : TokenPaths)
    (P : Set String) (hV : V.Lawful P) (hA : A.Lawful) (steps : List OwnerStep)
    (hP : ∀ s ∈ steps, ∀ p ∈ s.command.passphrases, p ∈ P) (path : String) (t : AccessToken)
    (ht : (run W V A T steps).token path = .holds t) :
    ∃ founding ∈ steps, ∃ passphrase, founding.command = .init passphrase passphrase ∧
      IssuedIn A steps founding passphrase t ∧ ∀ now,
        ((run W V A T steps).verifyToken A now path = .ok () ↔
          (run W V A T steps).masterPub = some (founding.master A).publicHex ∧
            (t.expiresAt = 0 ∨ now ≤ t.expiresAt) ∧
              ((∃ s ∈ steps, s.CutsList) ∨ ∀ s ∈ steps, ¬ s.Revokes t.tokenId)) ∧
        ∀ entries rows, (run W V A T steps).listTokens now entries = some rows → path ∈ entries →
          (∃ status, (t, status) ∈ rows) ∧ ∀ status, (t, status) ∈ rows →
            (status = .active ∨ status = .activeNoExpiry ↔
              (t.expiresAt = 0 ∨ now ≤ t.expiresAt) ∧
                ((∃ s ∈ steps, s.CutsList) ∨ ∀ s ∈ steps, ¬ s.Revokes t.tokenId)) := by
  obtain hnone | ⟨founding, passphrase, hfounded⟩ := run_founded (W := W) (A := A) (T := T)
    hV hP
  · rw [hnone.token path] at ht
    cases ht
  have hissued := hfounded.token path t ht
  obtain ⟨r, rfl⟩ := hissued.exists_request
  have hlist := (listed_run (W := W) (A := A) (T := T) hV hP).isRevoked_eq_false_iff
    (r.token (founding.master A)).tokenId
  refine ⟨founding, hfounded.mem, passphrase, hfounded.command_eq, hissued, fun now => ⟨?_, ?_⟩⟩
  · rw [verifyToken, ht, ← hlist]
    obtain hpub | ⟨n, hpub⟩ := hfounded.masterPub
    · rw [hpub]
      simp
    · have hverify := verify_token_iff hA (founding.master A) r now n
        (run W V A T steps).revocations
      rw [hpub, Option.some.injEq, ← hverify]
      dsimp only
      generalize AccessToken.verifyWithRevocation A now (r.token (founding.master A)) _ _ = verdict
      cases verdict with
      | error e => simp
      | ok _ => simp
  · intro entries rows hrows hpath
    refine ⟨⟨_, (mem_listTokens_iff hrows).mpr ⟨⟨path, hpath, ht⟩, rfl⟩⟩, fun status hrow => ?_⟩
    obtain ⟨-, rfl⟩ := (mem_listTokens_iff hrows).mp hrow
    rw [status_active_iff, hlist]

/-! ### A revocation that is cut short -/

/-- Every token is a file of its name in `tokens`. -/
def samplePaths : TokenPaths where
  file tokensDir name := if tokensDir then some name else none
  owner := "owner"
  file_owner := rfl

/-- `init`, without anything in between. -/
def sampleInit : OwnerStep :=
  ⟨sampleDraw 1, .init "correct horse" "correct horse", 4, none⟩

/-- The owner's token. -/
def sampleOwnerToken : AccessToken := OwnerCommand.ownerToken .sample (sampleDraw 1)

/-- The owner's token is revoked. -/
def sampleRevoke : OwnerStep := ⟨sampleDraw 1, .revoke sampleOwnerToken.tokenId, 1, none⟩

/-- Another id is revoked, but the list is only truncated. -/
def sampleCutRevoke : OwnerStep := ⟨sampleDraw 1, .revoke "0011223344556677", 0, some 0⟩

/-- A `revoke` keeps the tokens and the public key. -/
theorem kept_revoke (W : WalletCrypto) (V : VaultCrypto) (A : AccessCrypto) (T : TokenPaths)
    (dir : DataDir) {tokenId : String} (hs : s.command = .revoke tokenId) :
    (dir.step W V A T s).token = dir.token ∧
      (dir.step W V A T s).masterPub = dir.masterPub := by
  by_cases htorn : dir.revoked = .torn
  · rw [step_revoke_of_torn hs htorn]
    exact ⟨rfl, rfl⟩
  · rw [step_revoke hs htorn]
    refine carryOut_rule (P := fun x => x.token = dir.token ∧ x.masterPub = dir.masterPub)
      (fun w hw x hx => ?_) ⟨rfl, rfl⟩ _ _
    obtain rfl := List.mem_singleton.mp hw
    exact ⟨hx, fun _ => hx⟩

/-- `init`, then the given commands, over the sample libraries. -/
def sampleRun (later : List OwnerStep) : DataDir :=
  run .sample .sample .sample samplePaths (sampleInit :: later)

/-- What `init` leaves. -/
theorem exists_sampleRun_nil :
    ∃ file contents, file.Seals .sample Set.univ "correct horse" contents ∧ sampleRun [] =
      { vault := .holds file
        masterPub := some (sampleInit.master .sample).publicHex
        tokensDir := true
        token := Function.update (fun _ => .missing) "owner" (.holds sampleOwnerToken)
        revoked := .missing } := by
  obtain ⟨file, contents, hexec, hseals⟩ := exists_exec_init
  have hwrites : sampleInit.command.writes .sample .sample .sample samplePaths .empty
      sampleInit.draw = .ok [.vault file, .masterPub (sampleInit.master .sample).publicHex,
        .tokensDir, .token "owner" sampleOwnerToken] := by
    rw [OwnerCommand.writes.eq_def]
    dsimp only [sampleInit, empty]
    rw [hexec]
    rfl
  refine ⟨file, contents, hseals, ?_⟩
  rw [sampleRun, run, List.foldl_cons, List.foldl_nil, step, hwrites]
  rfl

/-- What is left of it after any revocations. -/
theorem sampleRun_revokes {later : List OwnerStep}
    (h : ∀ s ∈ later, ∃ tokenId, s.command = .revoke tokenId) :
    (sampleRun later).token "owner" = .holds sampleOwnerToken ∧
      (sampleRun later).masterPub = some (sampleInit.master .sample).publicHex := by
  induction later using List.reverseRecOn with
  | nil =>
    obtain ⟨file, contents, -, hrun⟩ := exists_sampleRun_nil
    rw [hrun]
    exact ⟨by simp, rfl⟩
  | append_singleton later s ih =>
    obtain ⟨htoken, hpub⟩ := ih fun x hx => h x (List.mem_append_left _ hx)
    obtain ⟨tokenId, hs⟩ := h s (by simp)
    obtain ⟨hsame, hsame'⟩ := kept_revoke .sample .sample .sample samplePaths (sampleRun later) hs
    rw [sampleRun, ← List.cons_append, run_concat]
    exact ⟨(congrFun hsame _).trans htoken, hsame'.trans hpub⟩

/-- **A revoked token is valid again when a later `revoke` is cut short.** -/
theorem token_verdict_cutRevoke :
    (sampleRun [sampleRevoke]).verifyToken .sample 1700000000 "owner" ≠ .ok () ∧
      (sampleRun [sampleRevoke, sampleCutRevoke]).verifyToken .sample 1700000000 "owner" =
        .ok () := by
  constructor
  · obtain ⟨htoken, -⟩ := sampleRun_revokes
      (show ∀ s ∈ [sampleRevoke], _ by simp [sampleRevoke])
    obtain ⟨founding, -, passphrase, -, -, hverdict⟩ := token_verdict .sample .sample .sample
      samplePaths Set.univ (VaultCrypto.lawful_sample _) AccessCrypto.lawful_sample
      [sampleInit, sampleRevoke] (fun _ _ _ _ => trivial) "owner" sampleOwnerToken htoken
    intro hvalid
    obtain ⟨-, -, hcut | hnone⟩ := (hverdict _).1.mp hvalid
    · simp [OwnerStep.CutsList, sampleInit, sampleRevoke] at hcut
    · exact hnone sampleRevoke (by simp) ⟨rfl, by decide⟩
  · obtain ⟨htoken, hpub⟩ := sampleRun_revokes
      (show ∀ s ∈ [sampleRevoke, sampleCutRevoke], _ by simp [sampleRevoke, sampleCutRevoke])
    obtain ⟨founding, hmem, passphrase, hcommand, -, hverdict⟩ := token_verdict .sample .sample
      .sample samplePaths Set.univ (VaultCrypto.lawful_sample _) AccessCrypto.lawful_sample
      [sampleInit, sampleRevoke, sampleCutRevoke] (fun _ _ _ _ => trivial) "owner"
      sampleOwnerToken htoken
    -- the only `init` is the first step
    obtain rfl : founding = sampleInit := by
      simp only [List.mem_cons, List.not_mem_nil, or_false] at hmem
      obtain rfl | rfl | rfl := hmem
      · rfl
      · cases hcommand
      · cases hcommand
    refine (hverdict _).1.mpr ⟨hpub, .inl rfl, .inl ⟨sampleCutRevoke, by simp, ?_⟩⟩
    exact ⟨⟨_, rfl⟩, rfl, Option.some_ne_none _⟩

end DataDir

end Arkos
