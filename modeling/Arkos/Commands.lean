import Arkos.Security.Access
import Arkos.Security.Vault
import Arkos.Wallet.Recovery

/-!
# The commands of the vault

`init` makes a vault with a master key and a first wallet; `new-wallet` and `restore-wallet` open it
and write it again with one more wallet; `send` and `show-phrase` open it and look a wallet up by
its label, the first one that has it. Nothing takes a wallet out again.

Only the vault is followed. `init` also writes the public master key and the owner's token, and
`send` goes on to the chain. A run is a list of commands that all succeed, from an empty directory.

`restore-wallet` refuses a label that is in use and `new-wallet` does not, not even for the label it
takes when none is given. A second wallet of one label can be listed but not be looked up.

## What a command is given

A command comes with what it draws and with the time, its `Draw`, and with what is typed on the
prompts: `VaultCommand.passphrases`. Only these passphrases have to be told apart by their hashes;
`P` holds them, and the one under which the vault is opened at the end.

`CommandError.noVault` carries the text of the operating system, and `panicked` is a command that
does not return.

## Main definitions

* `VaultCommand`, `exec`, `runCommands`
* `VaultContents.findWallet` — the lookup of `send` and `show-phrase`
* `VaultContents.Labelled` — every wallet is reachable by its label
* `NewLabelsFresh` — no `new-wallet` is given a label that is in use

## Main results

* `labelled_iff`
-/

namespace Arkos

structure Draw where
  now : UInt64
  salt : List.Vector UInt8 16
  nonce : List.Vector UInt8 12
  masterSecret : Hash
  ecdsaSecret : SecretKey
  mldsaSeed : Hash
  entropy : Hash

/-- The commands that write the vault, with the passphrases that are typed in. -/
inductive VaultCommand where
  | init (passphrase confirmation : String)
  | newWallet (passphrase label : String)
  | restoreWallet (passphrase label phrase : String)
  deriving DecidableEq, Repr

inductive CommandError where
  | noVault
  | passphrasesDiffer
  | vault (error : VaultError)
  | labelInUse (label : String)
  | wallet (error : WalletError)
  | notFound (label : String)
  | panicked
  deriving DecidableEq, Repr

/-- The text of the error, where the source gives it. -/
def CommandError.message : CommandError → Option String
  | .noVault => none
  | .passphrasesDiffer => some "passphrases do not match"
  | .vault error => error.message
  | .labelInUse label =>
    some ("wallet '" ++ label ++ "' already exists in vault; choose a different label")
  | .wallet error => error.message
  | .notFound label => some ("wallet '" ++ label ++ "' not found in vault")
  | .panicked => none

def VaultCommand.passphrases : VaultCommand → List String
  | .init passphrase confirmation => [passphrase, confirmation]
  | .newWallet passphrase _ => [passphrase]
  | .restoreWallet passphrase _ _ => [passphrase]

def reservedLabels : List String := ["master-key", "default-wallet"]

section

variable (W : WalletCrypto) (V : VaultCrypto) (A : AccessCrypto)

def writeVault (d : Draw) (passphrase : String) (secretKeys labels : List String) :
    Except CommandError (Option VaultFile) :=
  match createVault V d.now d.salt d.nonce passphrase secretKeys labels with
  | .error e => .error (.vault e)
  | .ok file => .ok (some file)

def readVault (passphrase : String) : Option VaultFile → Except CommandError VaultContents
  | none => .error .noVault
  | some file =>
    match openVault V passphrase file with
    | .error e => .error (.vault e)
    | .ok contents => .ok contents

/-- `Command::Init`, `Command::NewWallet` and `Command::RestoreWallet`: the vault after the
command. -/
def exec (vault : Option VaultFile) : Draw × VaultCommand → Except CommandError (Option VaultFile)
  | (d, .init passphrase confirmation) =>
    if vault.isSome then .ok vault
    else if passphrase ≠ confirmation then .error .passphrasesDiffer
    else
      writeVault V d passphrase
        [(MasterKey.fromSecretBytes A d.masterSecret).secretHex,
          (Wallet.new W d.ecdsaSecret d.mldsaSeed).secretKeyHex]
        reservedLabels
  | (d, .newWallet passphrase label) =>
    match readVault V passphrase vault with
    | .error e => .error e
    | .ok contents =>
      match Wallet.generateWithPhrase W d.entropy with
      | none => .error .panicked
      | some (w, _) =>
        writeVault V d passphrase (contents.secretKeys ++ [w.secretKeyHex])
          (contents.labels ++ [label])
  | (d, .restoreWallet passphrase label phrase) =>
    match readVault V passphrase vault with
    | .error e => .error e
    | .ok contents =>
      if contents.labels.contains label then .error (.labelInUse label)
      else
        match Wallet.fromPhrase W phrase with
        | .error e => .error (.wallet e)
        | .ok w =>
          writeVault V d passphrase (contents.secretKeys ++ [w.secretKeyHex])
            (contents.labels ++ [label])

def runCommands (commands : List (Draw × VaultCommand)) :
    Except CommandError (Option VaultFile) :=
  commands.foldlM (exec W V A) none

/-- The lookup of `send` and `show-phrase`. -/
def VaultContents.findWallet (contents : VaultContents) (label : String) :
    Except CommandError Wallet :=
  match contents.labels.findIdx? (· == label) with
  | none => .error (.notFound label)
  | some idx =>
    match contents.secretKeys[idx]? with
    | none => .error .panicked
    | some secret =>
      match Wallet.fromSecretHex W secret with
      | .error e => .error (.wallet e)
      | .ok w => .ok w

/-- Every wallet in the vault is reachable by its label. -/
structure VaultContents.Labelled (contents : VaultContents) : Prop where
  length_eq : contents.labels.length = contents.secretKeys.length
  nodup : contents.labels.Nodup
  findWallet_eq : ∀ (i : ℕ) (label : String) (w : Wallet), Wallet.Creatable W w →
    contents.labels[i]? = some label → contents.secretKeys[i]? = some w.secretKeyHex →
      contents.findWallet W label = .ok w

end

/-- No `new-wallet` is given a label that is in use when the labels `inUse` are. -/
def NewLabelsFresh (inUse : List String) : List VaultCommand → Prop
  | [] => True
  | .init _ _ :: commands => NewLabelsFresh inUse commands
  | .newWallet _ label :: commands => label ∉ inUse ∧ NewLabelsFresh (inUse ++ [label]) commands
  | .restoreWallet _ label _ :: commands => NewLabelsFresh (inUse ++ [label]) commands

/-! ### What a command does to the vault -/

variable {W : WalletCrypto} {V : VaultCrypto} {A : AccessCrypto} {P : Set String} {d : Draw}
  {file : VaultFile} {vault' : Option VaultFile} {passphrase passphrase' label : String}
  {contents : VaultContents}

theorem writeVault_eq_ok (hV : V.Lawful P) (hP : passphrase ∈ P) {secretKeys labels : List String}
    (h : writeVault V d passphrase secretKeys labels = .ok vault') :
    ∃ file', vault' = some file' ∧ file'.Seals V P passphrase ⟨secretKeys, labels, d.now⟩ := by
  rw [writeVault] at h
  split at h
  · cases h
  · next file' hcreate => exact ⟨file', (Except.ok.inj h).symm, seals_of_createVault hV hP hcreate⟩

theorem readVault_eq_ok {contents' : VaultContents} (hseals : file.Seals V P passphrase contents)
    (hP : passphrase' ∈ P) (h : readVault V passphrase' (some file) = .ok contents') :
    passphrase' = passphrase ∧ contents' = contents := by
  rw [readVault] at h
  split at h
  · cases h
  · next contents'' hopen =>
    obtain rfl := Except.ok.inj h
    exact (hseals passphrase' hP contents'').mp hopen

/-- The first command makes the vault. -/
theorem exec_none (hV : V.Lawful P) {command : VaultCommand}
    (hP : ∀ p ∈ command.passphrases, p ∈ P) (h : exec W V A none (d, command) = .ok vault') :
    ∃ file' passphrase confirmation master wallet, command = .init passphrase confirmation ∧
      vault' = some file' ∧
      file'.Seals V P passphrase ⟨[master, wallet], reservedLabels, d.now⟩ := by
  cases command with
  | init passphrase confirmation =>
    rw [exec] at h
    simp only [Option.isSome_none, Bool.false_eq_true, if_false] at h
    split at h
    · cases h
    · obtain ⟨file', rfl, hseals⟩ := writeVault_eq_ok hV (hP passphrase List.mem_cons_self) h
      exact ⟨file', passphrase, confirmation, _, _, rfl, rfl, hseals⟩
  | newWallet passphrase label => cases h
  | restoreWallet passphrase label phrase => cases h

def VaultCommand.newLabels : VaultCommand → List String
  | .init _ _ => []
  | .newWallet _ label => [label]
  | .restoreWallet _ label _ => [label]

/-- A later command keeps the vault or writes it with one more wallet; a restored one has a label of
its own. -/
theorem exec_some (hV : V.Lawful P) (hseals : file.Seals V P passphrase contents)
    {command : VaultCommand} (hP : ∀ p ∈ command.passphrases, p ∈ P)
    (h : exec W V A (some file) (d, command) = .ok vault') :
    ∃ file' contents', vault' = some file' ∧ file'.Seals V P passphrase contents' ∧
      contents'.labels = contents.labels ++ command.newLabels ∧
      contents'.secretKeys.length = contents.secretKeys.length + command.newLabels.length ∧
      ∀ typed label phrase, command = .restoreWallet typed label phrase →
        label ∉ contents.labels := by
  cases command with
  | init typed confirmation =>
    obtain rfl : some file = vault' := Except.ok.inj h
    exact ⟨file, contents, rfl, hseals, by simp [VaultCommand.newLabels],
      by simp [VaultCommand.newLabels], by simp⟩
  | newWallet typed label =>
    rw [exec] at h
    split at h
    · cases h
    next contents' hread =>
      obtain ⟨rfl, rfl⟩ := readVault_eq_ok hseals (hP typed List.mem_cons_self) hread
      split at h
      · cases h
      next w words hw =>
        obtain ⟨file', rfl, hseals'⟩ := writeVault_eq_ok hV (hP typed List.mem_cons_self) h
        exact ⟨file', _, rfl, hseals', rfl, by simp [VaultCommand.newLabels], by simp⟩
  | restoreWallet typed label phrase =>
    rw [exec] at h
    split at h
    · cases h
    next contents' hread =>
      obtain ⟨rfl, rfl⟩ := readVault_eq_ok hseals (hP typed List.mem_cons_self) hread
      split at h
      · cases h
      next hfresh =>
        split at h
        · cases h
        next w hw =>
          obtain ⟨file', rfl, hseals'⟩ := writeVault_eq_ok hV (hP typed List.mem_cons_self) h
          refine ⟨file', _, rfl, hseals', rfl, by simp [VaultCommand.newLabels], ?_⟩
          intro typed' label' phrase' heq
          obtain ⟨-, rfl, -⟩ := VaultCommand.restoreWallet.inj heq
          simpa using hfresh

/-! ### Runs -/

/-- A vault has as many labels as wallets throughout, and its labels stay distinct when those of
`new-wallet` are fresh. -/
theorem foldlM_exec (hV : V.Lawful P) {commands : List (Draw × VaultCommand)}
    (hseals : file.Seals V P passphrase contents)
    (hlen : contents.labels.length = contents.secretKeys.length)
    (hP : ∀ c ∈ commands, ∀ p ∈ c.2.passphrases, p ∈ P)
    (h : commands.foldlM (exec W V A) (some file) = .ok vault') :
    ∃ file' contents', vault' = some file' ∧ file'.Seals V P passphrase contents' ∧
      contents'.labels.length = contents'.secretKeys.length ∧
      (contents'.labels.Nodup ↔ contents.labels.Nodup ∧
        NewLabelsFresh contents.labels (commands.map Prod.snd)) := by
  induction commands generalizing file contents with
  | nil =>
    obtain rfl : some file = vault' := Except.ok.inj h
    exact ⟨file, contents, rfl, hseals, hlen, by simp [NewLabelsFresh]⟩
  | cons command commands ih =>
    obtain ⟨d, command⟩ := command
    rw [List.foldlM_cons] at h
    cases hexec : exec W V A (some file) (d, command) with
    | error e =>
      rw [hexec] at h
      cases h
    | ok vault₁ =>
    rw [hexec] at h
    obtain ⟨hcommand, hcommands⟩ := List.forall_mem_cons.mp hP
    obtain ⟨file₁, contents₁, rfl, hseals₁, hlabels, hkeys, hrestore⟩ :=
      exec_some hV hseals hcommand hexec
    have hlen₁ : contents₁.labels.length = contents₁.secretKeys.length := by
      rw [hlabels, List.length_append, hkeys, hlen]
    obtain ⟨file', contents', rfl, hseals', hlen', hnodup⟩ := ih hseals₁ hlen₁ hcommands h
    refine ⟨file', contents', rfl, hseals', hlen', ?_⟩
    rw [hnodup, hlabels, List.map_cons]
    cases command with
    | init typed confirmation => simp [VaultCommand.newLabels, NewLabelsFresh]
    | newWallet typed label =>
      rw [VaultCommand.newLabels, NewLabelsFresh, List.nodup_append_comm]
      simp only [List.singleton_append, List.nodup_cons]
      tauto
    | restoreWallet typed label phrase =>
      have hfresh : label ∉ contents.labels := hrestore typed label phrase rfl
      rw [VaultCommand.newLabels, NewLabelsFresh, List.nodup_append_comm]
      simp only [List.singleton_append, List.nodup_cons, hfresh, not_false_eq_true, true_and]

/-- What the labels of a vault are like after a run. -/
theorem labels_of_runCommands (hV : V.Lawful P) {commands : List (Draw × VaultCommand)}
    (hP : ∀ c ∈ commands, ∀ p ∈ c.2.passphrases, p ∈ P) (hpass : passphrase ∈ P)
    (hrun : runCommands W V A commands = .ok (some file))
    (hopen : openVault V passphrase file = .ok contents) :
    contents.labels.length = contents.secretKeys.length ∧
      (contents.labels.Nodup ↔ NewLabelsFresh reservedLabels (commands.map Prod.snd)) := by
  cases commands with
  | nil => cases hrun
  | cons command commands =>
    obtain ⟨d, command⟩ := command
    rw [runCommands, List.foldlM_cons] at hrun
    cases hexec : exec W V A none (d, command) with
    | error e =>
      rw [hexec] at hrun
      cases hrun
    | ok vault₁ =>
      rw [hexec] at hrun
      obtain ⟨hcommand, hcommands⟩ := List.forall_mem_cons.mp hP
      obtain ⟨file₁, typed, confirmation, master, wallet, rfl, rfl, hseals₁⟩ :=
        exec_none hV hcommand hexec
      obtain ⟨file', contents', heq, hseals', hlen', hnodup⟩ :=
        foldlM_exec hV hseals₁ rfl hcommands hrun
      obtain rfl : file = file' := Option.some.inj heq
      obtain ⟨rfl, rfl⟩ := (hseals' passphrase hpass contents).mp hopen
      have hreserved : reservedLabels.Nodup := by decide
      exact ⟨hlen', by simpa [hreserved, NewLabelsFresh] using hnodup⟩

/-- With the right passphrase `new-wallet` goes through, whatever the label. -/
theorem exists_exec_newWallet (hV : V.Lawful P) (hseals : file.Seals V P passphrase contents)
    (hP : passphrase ∈ P) (hpass : 12 ≤ (utf8 passphrase).length)
    (hcipher : ∀ key nonce plaintext, (V.encrypt key nonce plaintext).isSome) {w : Wallet}
    {words : String} (hw : Wallet.generateWithPhrase W d.entropy = some (w, words))
    (label : String) :
    ∃ file', exec W V A (some file) (d, .newWallet passphrase label) = .ok (some file') ∧
      file'.Seals V P passphrase
        ⟨contents.secretKeys ++ [w.secretKeyHex], contents.labels ++ [label], d.now⟩ := by
  obtain ⟨file', hcreate⟩ := exists_createVault hpass hcipher d.now d.salt d.nonce
    (contents.secretKeys ++ [w.secretKeyHex]) (contents.labels ++ [label])
  have hread : readVault V passphrase (some file) = .ok contents := by
    rw [readVault, (hseals passphrase hP contents).mpr ⟨rfl, rfl⟩]
  refine ⟨file', ?_, seals_of_createVault hV hP hcreate⟩
  rw [exec, hread]
  simp only [hw, writeVault, hcreate]

/-! ### Looking a wallet up -/

/-- Where no label is used twice, the first of a label is the only one. -/
theorem findWallet_of_nodup {i : ℕ} {w : Wallet} (hnodup : contents.labels.Nodup)
    (hw : Wallet.Creatable W w) (hlabel : contents.labels[i]? = some label)
    (hsecret : contents.secretKeys[i]? = some w.secretKeyHex) :
    contents.findWallet W label = .ok w := by
  obtain ⟨hlt, rfl⟩ := List.getElem?_eq_some_iff.mp hlabel
  have hidx : contents.labels.findIdx? (· == contents.labels[i]) = some i := by
    rw [List.findIdx?_eq_some_iff_getElem]
    refine ⟨hlt, by simp, fun j hj heq => ?_⟩
    have hij : j = i := (List.Nodup.getElem_inj_iff hnodup).mp (by simpa using heq)
    omega
  simp [VaultContents.findWallet, hidx, hsecret, Wallet.fromSecretHex_secretKeyHex hw.matched]

/-- **Every wallet is reachable by its label when `new-wallet` was never given a label that was in
use.** `P` holds the passphrases that are typed. -/
theorem labelled_iff (W : WalletCrypto) (V : VaultCrypto) (A : AccessCrypto) (P : Set String)
    (hV : V.Lawful P) (commands : List (Draw × VaultCommand))
    (hP : ∀ c ∈ commands, ∀ p ∈ c.2.passphrases, p ∈ P) (file : VaultFile) (passphrase : String)
    (hpass : passphrase ∈ P) (contents : VaultContents)
    (hrun : runCommands W V A commands = .ok (some file))
    (hopen : openVault V passphrase file = .ok contents) :
    contents.Labelled W ↔ NewLabelsFresh reservedLabels (commands.map Prod.snd) := by
  obtain ⟨hlen, hnodup⟩ := labels_of_runCommands hV hP hpass hrun hopen
  rw [← hnodup]
  constructor
  · exact fun hlabelled => hlabelled.nodup
  · intro hdistinct
    exact ⟨hlen, hdistinct, fun i label w hw hlabel hsecret =>
      findWallet_of_nodup hdistinct hw hlabel hsecret⟩

/-! ### The label of a wallet that was given none -/

/-- The draws of a command whose wallet has the entropy `n`. -/
def sampleDraw (n : ℕ) : Draw where
  now := 1700000000
  salt := List.Vector.replicate 16 1
  nonce := List.Vector.replicate 12 2
  masterSecret := List.Vector.replicate 32 7
  ecdsaSecret := ⟨1, by decide, by decide⟩
  mldsaSeed := List.Vector.replicate 32 0
  entropy := ⟨beBytes 32 n, length_beBytes 32 n⟩

/-- `init`, then `new-wallet` without a label for each of the entropies. -/
def defaultLabelCommands (entropies : List ℕ) : List (Draw × VaultCommand) :=
  (sampleDraw 1, .init "correct horse" "correct horse") ::
    entropies.map fun n => (sampleDraw n, .newWallet "correct horse" "default")

theorem length_utf8_correctHorse : 12 ≤ (utf8 "correct horse").length := by decide

theorem isSome_encrypt_sample (key : Hash) (nonce : List.Vector UInt8 12) (plaintext : Bytes) :
    (VaultCrypto.sample.encrypt key nonce plaintext).isSome := rfl

/-- `init` makes a vault in an empty directory. -/
theorem exists_exec_init :
    ∃ file contents, exec .sample .sample .sample none (sampleDraw 1,
        .init "correct horse" "correct horse") = .ok (some file) ∧
      file.Seals .sample Set.univ "correct horse" contents := by
  obtain ⟨file, hcreate⟩ := exists_createVault length_utf8_correctHorse isSome_encrypt_sample
    (sampleDraw 1).now (sampleDraw 1).salt (sampleDraw 1).nonce
    [(MasterKey.fromSecretBytes .sample (sampleDraw 1).masterSecret).secretHex,
      (Wallet.new .sample (sampleDraw 1).ecdsaSecret (sampleDraw 1).mldsaSeed).secretKeyHex]
    reservedLabels
  refine ⟨file, _, ?_, seals_of_createVault (VaultCrypto.lawful_sample _) trivial hcreate⟩
  simp [exec, writeVault, hcreate]

theorem exists_run_defaultLabelCommands (entropies : List ℕ)
    (h : ∀ n ∈ entropies, (Wallet.generateWithPhrase .sample (sampleDraw n).entropy).isSome) :
    ∃ file contents,
      runCommands .sample .sample .sample (defaultLabelCommands entropies) = .ok (some file) ∧
        openVault .sample "correct horse" file = .ok contents := by
  obtain ⟨file, contents, hinit, hseals⟩ := exists_exec_init
  rw [runCommands, defaultLabelCommands, List.foldlM_cons, hinit]
  show ∃ file' contents', (entropies.map fun n => (sampleDraw n,
    VaultCommand.newWallet "correct horse" "default")).foldlM (exec .sample .sample .sample)
      (some file) = .ok (some file') ∧ openVault .sample "correct horse" file' = .ok contents'
  clear hinit
  induction entropies generalizing file contents with
  | nil => exact ⟨file, contents, rfl, (hseals _ trivial _).mpr ⟨rfl, rfl⟩⟩
  | cons n entropies ih =>
    obtain ⟨⟨w, words⟩, hw⟩ := Option.isSome_iff_exists.mp (h n List.mem_cons_self)
    obtain ⟨file', hexec, hseals'⟩ := exists_exec_newWallet (A := .sample)
      (VaultCrypto.lawful_sample _) hseals trivial length_utf8_correctHorse isSome_encrypt_sample hw
      "default"
    rw [List.map_cons, List.foldlM_cons, hexec]
    exact ih (fun m hm => h m (List.mem_cons_of_mem _ hm)) file' _ hseals'

/-- One wallet without a label is reachable. -/
theorem labelled_iff_oneDefault :
    ∃ file contents,
      runCommands .sample .sample .sample (defaultLabelCommands [1]) = .ok (some file) ∧
        openVault .sample "correct horse" file = .ok contents ∧ contents.Labelled .sample := by
  obtain ⟨file, contents, hrun, hopen⟩ := exists_run_defaultLabelCommands [1] (by decide)
  refine ⟨file, contents, hrun, hopen, ?_⟩
  refine (labelled_iff .sample .sample .sample Set.univ (VaultCrypto.lawful_sample _) _
    (fun _ _ _ _ => trivial) file _ trivial contents hrun hopen).mpr ?_
  simp [defaultLabelCommands, NewLabelsFresh, reservedLabels]

/-- **A second wallet without a label takes the label of the first.** -/
theorem not_labelled_twoDefaults :
    ∃ file contents,
      runCommands .sample .sample .sample (defaultLabelCommands [1, 2]) = .ok (some file) ∧
        openVault .sample "correct horse" file = .ok contents ∧ ¬ contents.Labelled .sample := by
  obtain ⟨file, contents, hrun, hopen⟩ := exists_run_defaultLabelCommands [1, 2] (by decide)
  refine ⟨file, contents, hrun, hopen, fun hlabelled => ?_⟩
  have hfresh := (labels_of_runCommands (VaultCrypto.lawful_sample Set.univ)
    (fun _ _ _ _ => trivial) trivial hrun hopen).2.mp hlabelled.nodup
  simp [defaultLabelCommands, NewLabelsFresh, reservedLabels] at hfresh

end Arkos
