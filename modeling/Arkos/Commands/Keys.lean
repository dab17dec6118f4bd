import Arkos.Commands.Tokens

/-!
# What becomes of the keys

`new-wallet` and `restore-wallet` write the vault in its place. If such a command, or `init`, is cut
short while it writes the vault, the vault does not parse any more: it cannot be opened, and as
`init` does nothing where there is a file, it cannot be made again. Nothing else puts the keys at
risk.

## Main definitions

* `DataDir.CutsVault` — a command is cut short while it writes the vault

## Main results

* `DataDir.vault_survives`
-/

namespace Arkos

variable {W : WalletCrypto} {V : VaultCrypto} {A : AccessCrypto} {T : TokenPaths} {P : Set String}
  {dir : DataDir} {d : Draw} {command : OwnerCommand} {ws : List Write} {s : OwnerStep}
  {steps hist : List OwnerStep}

namespace DataDir

/-- The command is cut short while it writes the vault. -/
def CutsVault (W : WalletCrypto) (V : VaultCrypto) (A : AccessCrypto) (T : TokenPaths)
    (dir : DataDir) (s : OwnerStep) : Prop :=
  (∃ file ws, s.command.writes W V A T dir s.draw = .ok (.vault file :: ws)) ∧ s.done = 0 ∧
    s.begun ≠ none

/-- The vault is whole and sealed. -/
def Sealed (V : VaultCrypto) (P : Set String) (dir : DataDir) (passphrase : String)
    (contents : VaultContents) : Prop :=
  ∃ file, dir.vault = .holds file ∧ file.Seals V P passphrase contents

theorem vault_carryOut (h : ∀ w ∈ ws, ∀ file, w ≠ .vault file) (done : ℕ) (begun : Option ℕ) :
    (dir.carryOut ws done begun).vault = dir.vault := by
  refine carryOut_rule (P := fun x => x.vault = dir.vault) (fun w hw x hx => ?_) rfl done begun
  cases w with
  | vault file => exact absurd rfl (h _ hw file)
  | _ => exact ⟨hx, fun _ => hx⟩

/-- A command writes the vault first, if at all, and not where it is torn. -/
theorem vault_first (h : command.Wrote V A T P dir d ws) :
    (∀ w ∈ ws, ∀ file, w ≠ .vault file) ∨ ∃ file rest, ws = .vault file :: rest ∧
      (∀ w ∈ rest, ∀ file, w ≠ .vault file) ∧ dir.vault ≠ .torn ∧
        ∀ passphrase contents, Sealed V P dir passphrase contents →
          ∃ contents', file.Seals V P passphrase contents' ∧
            contents.secretKeys <+: contents'.secretKeys ∧
              contents.labels <+: contents'.labels := by
  cases h with
  | nothing => exact .inl (by simp)
  | founded hvault hseals =>
    refine .inr ⟨_, _, rfl, by simp, by simp [hvault], fun passphrase contents hsealed => ?_⟩
    obtain ⟨file, hholds, -⟩ := hsealed
    rw [hvault] at hholds
    cases hholds
  | rewritten hvault hpass hopen hseals =>
    refine .inr ⟨_, _, rfl, by simp, by simp [hvault], fun passphrase contents hsealed => ?_⟩
    obtain ⟨file, hholds, hfile⟩ := hsealed
    obtain rfl := OnDisk.holds.inj (hvault.symm.trans hholds)
    obtain ⟨rfl, rfl⟩ := (hfile _ hpass _).mp hopen
    exact ⟨_, hseals, List.prefix_append _ _, List.prefix_append _ _⟩
  | granted => exact .inl (by simp)
  | revoked => exact .inl (by simp)

/-- What a command makes of the vault. -/
theorem vault_step_eq_torn_iff (hV : V.Lawful P) (dir : DataDir) {s : OwnerStep}
    (hP : ∀ p ∈ s.command.passphrases, p ∈ P) :
    (dir.step W V A T s).vault = .torn ↔
      dir.vault = .torn ∨ CutsVault W V A T dir s := by
  rw [step, CutsVault]
  cases hwrites : s.command.writes W V A T dir s.draw with
  | error e => simp
  | ok ws =>
    dsimp only
    obtain hnone | ⟨file, rest, rfl, hrest, hwhole, -⟩ :=
      vault_first (OwnerCommand.wrote_of_writes hV hP hwrites)
    · rw [vault_carryOut hnone]
      refine ⟨Or.inl, fun h => h.resolve_right ?_⟩
      rintro ⟨⟨file, ws', heq⟩, -⟩
      exact hnone _ (by rw [Except.ok.inj heq]; exact List.mem_cons_self) file rfl
    · cases hdone : s.done with
      | zero =>
        cases hbegun : s.begun with
        | none => simp [carryOut]
        | some n => exact iff_of_true rfl (.inr ⟨⟨file, rest, rfl⟩, rfl, Option.some_ne_none n⟩)
      | succ done =>
        rw [carryOut, vault_carryOut hrest]
        exact iff_of_false (fun h => by cases h) (by simp [hwhole])

/-- Nothing is lost by a command, unless it is cut short while it writes the vault. -/
theorem sealed_step (hV : V.Lawful P) {passphrase : String} {contents : VaultContents}
    (h : Sealed V P dir passphrase contents) {s : OwnerStep}
    (hP : ∀ p ∈ s.command.passphrases, p ∈ P) :
    (dir.step W V A T s).vault = .torn ∨
      ∃ contents', Sealed V P (dir.step W V A T s) passphrase contents' ∧
        contents.secretKeys <+: contents'.secretKeys ∧ contents.labels <+: contents'.labels := by
  obtain ⟨ws, hwrote, heq⟩ := step_cases (W := W) (A := A) (T := T) hV dir hP
  rw [heq]
  have hsame : ∀ dir' : DataDir, dir'.vault = dir.vault → ∃ contents',
      Sealed V P dir' passphrase contents' ∧ contents.secretKeys <+: contents'.secretKeys ∧
        contents.labels <+: contents'.labels := by
    intro dir' hvault
    obtain ⟨file, hholds, hfile⟩ := h
    exact ⟨contents, ⟨file, hvault.trans hholds, hfile⟩, List.prefix_rfl, List.prefix_rfl⟩
  obtain hnone | ⟨file, rest, rfl, hrest, -, hgrows⟩ := vault_first hwrote
  · exact .inr (hsame _ (vault_carryOut hnone _ _))
  · cases s.done with
    | zero =>
      cases s.begun with
      | none => exact .inr (hsame _ rfl)
      | some n => exact .inl rfl
    | succ done =>
      obtain ⟨contents', hfile, hkeys, hlabels⟩ := hgrows passphrase contents h
      exact .inr ⟨contents', ⟨file, vault_carryOut hrest done s.begun, hfile⟩, hkeys, hlabels⟩

/-- With a torn vault there are only revocations. -/
theorem step_of_torn (hV : V.Lawful P) (h : dir.vault = .torn) {s : OwnerStep}
    (hP : ∀ p ∈ s.command.passphrases, p ∈ P) :
    ∃ revoked, dir.step W V A T s = { dir with revoked } := by
  obtain ⟨ws, hwrote, heq⟩ := step_cases (W := W) (A := A) (T := T) hV dir hP
  rw [heq]
  generalize s.command = command at hwrote
  cases hwrote with
  | nothing => exact ⟨dir.revoked, rfl⟩
  | founded hvault _ => cases h.symm.trans hvault
  | rewritten hvault _ _ _ => cases h.symm.trans hvault
  | granted hvault _ _ _ => cases h.symm.trans hvault
  | revoked _ =>
    refine carryOut_rule (P := fun x => ∃ revoked, x = { dir with revoked })
      (fun w hw x hx => ?_) ⟨dir.revoked, rfl⟩ _ _
    obtain rfl := List.mem_singleton.mp hw
    obtain ⟨revoked, rfl⟩ := hx
    exact ⟨⟨_, rfl⟩, fun _ => ⟨_, rfl⟩⟩

theorem foldl_of_torn (hV : V.Lawful P) (h : dir.vault = .torn) {later : List OwnerStep}
    (hP : ∀ s ∈ later, ∀ p ∈ s.command.passphrases, p ∈ P) :
    ∃ revoked, later.foldl (step W V A T) dir = { dir with revoked } := by
  induction later generalizing dir with
  | nil => exact ⟨dir.revoked, rfl⟩
  | cons s later ih =>
    obtain ⟨hs, hlater⟩ := List.forall_mem_cons.mp hP
    obtain ⟨revoked, hstep⟩ := step_of_torn (W := W) (A := A) (T := T) hV h hs
    rw [List.foldl_cons, hstep]
    have htorn : { dir with revoked := revoked }.vault = .torn := h
    obtain ⟨revoked', hrest⟩ := ih htorn hlater
    exact ⟨revoked', hrest⟩

theorem sealed_foldl (hV : V.Lawful P) {passphrase : String} {contents : VaultContents}
    (h : Sealed V P dir passphrase contents) {later : List OwnerStep}
    (hP : ∀ s ∈ later, ∀ p ∈ s.command.passphrases, p ∈ P) :
    (later.foldl (step W V A T) dir).vault = .torn ∨
      ∃ contents', Sealed V P (later.foldl (step W V A T) dir) passphrase contents' ∧
        contents.secretKeys <+: contents'.secretKeys ∧ contents.labels <+: contents'.labels := by
  induction later generalizing dir contents with
  | nil => exact .inr ⟨contents, h, List.prefix_rfl, List.prefix_rfl⟩
  | cons s later ih =>
    obtain ⟨hs, hlater⟩ := List.forall_mem_cons.mp hP
    rw [List.foldl_cons]
    obtain htorn | ⟨contents₁, h₁, hkeys₁, hlabels₁⟩ :=
      sealed_step (W := W) (A := A) (T := T) hV h hs
    · obtain ⟨revoked, hrest⟩ := foldl_of_torn (W := W) (A := A) (T := T) hV htorn hlater
      rw [hrest]
      exact .inl htorn
    · obtain htorn | ⟨contents₂, h₂, hkeys₂, hlabels₂⟩ := ih h₁ hlater
      · exact .inl htorn
      · exact .inr ⟨contents₂, h₂, hkeys₁.trans hkeys₂, hlabels₁.trans hlabels₂⟩

theorem vault_run_eq_torn_iff (hV : V.Lawful P)
    (hP : ∀ s ∈ steps, ∀ p ∈ s.command.passphrases, p ∈ P) :
    (run W V A T steps).vault = .torn ↔ ∃ before s later, steps = before ++ s :: later ∧
      CutsVault W V A T (run W V A T before) s := by
  induction steps using List.reverseRecOn with
  | nil => exact iff_of_false (fun h => by cases h) (by simp)
  | append_singleton steps s ih =>
    rw [run_concat, vault_step_eq_torn_iff hV _ (hP s (by simp)),
      ih fun x hx => hP x (List.mem_append_left _ hx)]
    constructor
    · rintro (⟨before, x, later, rfl, hcuts⟩ | hcuts)
      · exact ⟨before, x, later ++ [s], by simp, hcuts⟩
      · exact ⟨steps, s, [], rfl, hcuts⟩
    · rintro ⟨before, x, later, heq, hcuts⟩
      rcases List.eq_nil_or_concat later with rfl | ⟨later, y, rfl⟩
      · obtain ⟨rfl, hx⟩ := List.append_inj' heq rfl
        obtain rfl := List.singleton_inj.mp hx
        exact .inr hcuts
      · refine .inl ⟨before, x, later, ?_, hcuts⟩
        rw [List.concat_eq_append, ← List.cons_append, ← List.append_assoc] at heq
        exact (List.append_inj' heq rfl).1

/-- **What becomes of the keys.** The vault is lost just when a command is cut short while it writes
the vault, and then for good: whatever is done later changes the list of revoked ids only. While it
is not lost, it opens under the passphrase under which it opened before, and no key and no label in
it is lost or moved. `P` holds the passphrases that are typed. -/
theorem vault_survives (W : WalletCrypto) (V : VaultCrypto) (A : AccessCrypto)
    (T : TokenPaths) (P : Set String) (hV : V.Lawful P) (steps later : List OwnerStep)
    (hP : ∀ s ∈ steps ++ later, ∀ p ∈ s.command.passphrases, p ∈ P) :
    ((run W V A T steps).vault = .torn ↔ ∃ before s after, steps = before ++ s :: after ∧
        CutsVault W V A T (run W V A T before) s) ∧
      ((run W V A T steps).vault = .torn →
        ∃ revoked, run W V A T (steps ++ later) = { run W V A T steps with revoked }) ∧
      ∀ passphrase ∈ P, ∀ contents,
        (run W V A T steps).openContents V passphrase = .ok contents →
        (run W V A T (steps ++ later)).vault = .torn ∨
          ∃ contents', (run W V A T (steps ++ later)).openContents V passphrase =
              .ok contents' ∧
            contents.secretKeys <+: contents'.secretKeys ∧
              contents.labels <+: contents'.labels := by
  obtain ⟨hsteps, hlater⟩ := List.forall_mem_append.mp hP
  refine ⟨vault_run_eq_torn_iff hV hsteps, fun htorn => ?_,
    fun passphrase hpass contents hopen => ?_⟩
  · rw [run_append]
    exact foldl_of_torn hV htorn hlater
  · obtain ⟨file, hholds, hopen⟩ := openContents_eq_ok_iff.mp hopen
    have hsealed : Sealed V P (run W V A T steps) passphrase contents := by
      obtain hnone | ⟨founding, passphrase₀, hfounded⟩ :=
        run_founded (W := W) (A := A) (T := T) hV hsteps
      · cases hholds.symm.trans hnone.vault
      · obtain htorn | ⟨file', contents', keys, hholds', hfile, -⟩ := hfounded.vault
        · cases hholds.symm.trans htorn
        · obtain rfl := OnDisk.holds.inj (hholds.symm.trans hholds')
          obtain ⟨rfl, rfl⟩ := (hfile _ hpass _).mp hopen
          exact ⟨file, hholds, hfile⟩
    rw [run_append]
    obtain htorn | ⟨contents', ⟨file, hholds, hfile⟩, hkeys, hlabels⟩ :=
      sealed_foldl (W := W) (A := A) (T := T) hV hsealed hlater
    · exact .inl htorn
    · refine .inr ⟨contents', ?_, hkeys, hlabels⟩
      exact openContents_eq_ok_iff.mpr ⟨file, hholds, (hfile _ hpass _).mpr ⟨rfl, rfl⟩⟩

/-- A new wallet, of which a part of the vault gets written. -/
def sampleCutNewWallet : OwnerStep :=
  ⟨sampleDraw 2, .newWallet "correct horse" "savings", 0, some 100⟩

/-- **A new wallet that is cut short costs all keys.** -/
theorem vault_survives_cutNewWallet : (sampleRun [sampleCutNewWallet]).vault = .torn := by
  obtain ⟨file, contents, hseals, hrun⟩ := exists_sampleRun_nil
  obtain ⟨⟨w, words⟩, hw⟩ := Option.isSome_iff_exists.mp
    (show (Wallet.generateWithPhrase .sample (sampleDraw 2).entropy).isSome by decide)
  obtain ⟨file', hexec, -⟩ := exists_exec_newWallet (A := .sample)
    (VaultCrypto.lawful_sample _) hseals trivial length_utf8_correctHorse isSome_encrypt_sample hw
    "savings"
  have hwrites : sampleCutNewWallet.command.writes .sample .sample .sample samplePaths
      (sampleRun []) sampleCutNewWallet.draw = .ok [.vault file'] := by
    rw [hrun, sampleCutNewWallet, OwnerCommand.writes, OwnerCommand.rewrite]
    dsimp only [OnDisk.toOption]
    rw [hexec]
    rfl
  exact (vault_survives .sample .sample .sample samplePaths Set.univ (VaultCrypto.lawful_sample _)
    [sampleInit, sampleCutNewWallet] [] fun _ _ _ _ => trivial).1.mpr
      ⟨[sampleInit], sampleCutNewWallet, [], rfl, ⟨file', [], hwrites⟩, rfl,
        Option.some_ne_none 100⟩

end DataDir

end Arkos
