import Arkos.Commands

/-!
# The data directory

The owner's commands keep four things in the data directory: the vault, the public master key, the
tokens and the list of revoked ids. `init` makes all of them and does nothing where there is a
vault; `new-wallet` and `restore-wallet` write the vault again, `grant` writes a token, and `revoke`
the list. Every command reads first and writes then.

## Files that are cut short

A file is truncated and then written, so a command that is cut short, by a crash or a full disk, may
leave a file that does not parse. This is `OnDisk.torn`. The one exception is `master.pub`, which is
plain text: a beginning of it is read like the whole. An `OwnerStep` is a command with the number of
its writes that are done, and how much is written of the next one if it was begun.

The paths of the tokens are a parameter. They end in `.token` and so are none of the other files,
`vault.enc`, `master.pub` and `revoked.json`; whether a path can be written may depend on the
directory `tokens`.

## How a command is reasoned about

`OwnerCommand.writes` is the command as the source has it, up to its first write. What it can come
to is said once, by `OwnerCommand.Wrote`, with what was read for it; the invariants of later modules
are proved by cases on that, and carried over the writes by `DataDir.carryOut_rule`. `P` holds the
passphrases that are typed.

## Main definitions

* `DataDir`, `Write`, `OwnerCommand`, `OwnerStep`
* `DataDir.run` — commands one after another, each cut short anywhere
* `DataDir.verifyToken`, `DataDir.listTokens`

## Main results

* `OwnerCommand.wrote_of_writes` — what a command writes
* `DataDir.carryOut_rule` — the invariants of a command
* `DataDir.mem_listTokens_iff` — the rows of `list-tokens`
-/

namespace Arkos

/-- A file. One that was being written when its command was cut short does not parse. -/
inductive OnDisk (α : Type*) where
  | missing
  | torn
  | holds (value : α)

def OnDisk.toOption {α : Type*} : OnDisk α → Option α
  | .holds value => some value
  | _ => none

structure DataDir where
  vault : OnDisk VaultFile
  masterPub : Option String
  tokensDir : Bool
  token : String → OnDisk AccessToken
  revoked : OnDisk RevocationList

def DataDir.empty : DataDir := ⟨.missing, none, false, fun _ => .missing, .missing⟩

/-- The file that `tokens/NAME.token` is, if it can be written with or without `tokens`, and the
file of the owner. -/
structure TokenPaths where
  file : Bool → String → Option String
  owner : String
  file_owner : file true "owner" = some owner

inductive OwnerCommand where
  | init (passphrase confirmation : String)
  | grant (passphrase name : String) (permissions : List String) (expiresInDays : UInt64)
  | revoke (tokenId : String)
  | newWallet (passphrase label : String)
  | restoreWallet (passphrase label phrase : String)
  deriving DecidableEq, Repr

/-- The passphrases that are typed for a command. -/
def OwnerCommand.passphrases : OwnerCommand → List String
  | .init passphrase confirmation => [passphrase, confirmation]
  | .grant passphrase _ _ _ => [passphrase]
  | .revoke _ => []
  | .newWallet passphrase _ => [passphrase]
  | .restoreWallet passphrase _ _ => [passphrase]

inductive DirError where
  | command (error : CommandError)
  | notParsed
  | hexDecode
  | keyLength
  | file
  | token (error : TokenError)
  deriving DecidableEq, Repr

/-- The text of the error, where the source gives it. -/
def DirError.message : DirError → Option String
  | .command error => error.message
  | .notParsed => none
  | .hexDecode => none
  | .keyLength => some "invalid master key length"
  | .file => none
  | .token error => error.message

/-! ### Writes -/

inductive Write where
  | vault (file : VaultFile)
  | masterPub (text : String)
  | tokensDir
  | token (path : String) (token : AccessToken)
  | revoked (list : RevocationList)

namespace Write

def apply : Write → DataDir → DataDir
  | .vault file, dir => { dir with vault := .holds file }
  | .masterPub text, dir => { dir with masterPub := some text }
  | .tokensDir, dir => { dir with tokensDir := true }
  | .token path t, dir => { dir with token := Function.update dir.token path (.holds t) }
  | .revoked l, dir => { dir with revoked := .holds l }

/-- The write is cut short, after `n` characters. -/
def tear (n : ℕ) : Write → DataDir → DataDir
  | .vault _, dir => { dir with vault := .torn }
  | .masterPub text, dir => { dir with masterPub := some (.ofList (text.toList.take n)) }
  | .tokensDir, dir => dir
  | .token path _, dir => { dir with token := Function.update dir.token path .torn }
  | .revoked _, dir => { dir with revoked := .torn }

end Write

namespace DataDir

/-- The first `done` of the writes are done, and the next is cut short if it was begun. -/
def carryOut (dir : DataDir) : List Write → ℕ → Option ℕ → DataDir
  | [], _, _ => dir
  | _ :: _, 0, none => dir
  | w :: _, 0, some n => w.tear n dir
  | w :: ws, done + 1, begun => (w.apply dir).carryOut ws done begun

/-! ### The commands -/

section

variable (V : VaultCrypto) (A : AccessCrypto)

def openContents (dir : DataDir) (passphrase : String) : Except DirError VaultContents :=
  match dir.vault with
  | .torn => .error .notParsed
  | vault =>
    match readVault V passphrase vault.toOption with
    | .error e => .error (.command e)
    | .ok contents => .ok contents

/-- The master key of the vault, as `grant` reads it. -/
def masterKey (contents : VaultContents) : Except DirError (MasterKey A) :=
  match contents.secretKeys[0]? with
  | none => .error (.command .panicked)
  | some secret =>
    match hexDecode (utf8 secret) with
    | none => .error .hexDecode
    | some bytes =>
      if h : bytes.length = 32 then .ok (.fromSecretBytes A ⟨bytes, h⟩) else .error .keyLength

def loadRevoked (dir : DataDir) : Except DirError RevocationList :=
  match dir.revoked with
  | .missing => .ok .default
  | .torn => .error .notParsed
  | .holds list => .ok list

/-- The list of `list-tokens` and `verify-token`: `unwrap_or_default`. -/
def revocations (dir : DataDir) : RevocationList :=
  match dir.loadRevoked with
  | .error _ => .default
  | .ok list => list

end

end DataDir

/-- The permission that a word on the command line is. -/
def permissionOf : String → Permission
  | "connect" => .connect
  | "mine" => .mine
  | "transact" => .transact
  | "read" => .readChain
  | "admin" => .admin
  | _ => .readChain

namespace OwnerCommand

section

variable (W : WalletCrypto) (V : VaultCrypto) (A : AccessCrypto) (T : TokenPaths)

/-- The token of the owner, which `init` issues. -/
def ownerToken (d : Draw) : AccessToken :=
  let master := MasterKey.fromSecretBytes A d.masterSecret
  master.issueToken d.now "owner" master.publicHex [.admin] 0

/-- The token that `grant` issues, for a holder's key that it draws. -/
def grantedToken (master : MasterKey A) (d : Draw) (name : String) (permissions : List String)
    (expiresInDays : UInt64) : AccessToken :=
  master.issueToken d.now name (MasterKey.fromSecretBytes A d.masterSecret).publicHex
    (permissions.map permissionOf) expiresInDays

/-- `Command::NewWallet` and `Command::RestoreWallet`: the vault is opened and written again. -/
def rewrite (dir : DataDir) (d : Draw) (command : VaultCommand) : Except DirError (List Write) :=
  match dir.vault with
  | .torn => .error .notParsed
  | vault =>
    match exec W V A vault.toOption (d, command) with
    | .error e => .error (.command e)
    | .ok vault => .ok (vault.toList.map .vault)

/-- What a command writes, in order. All of them read first. -/
def writes (dir : DataDir) (d : Draw) : OwnerCommand → Except DirError (List Write)
  | .init passphrase confirmation =>
    match dir.vault with
    | .missing =>
      match exec W V A none (d, .init passphrase confirmation) with
      | .error e => .error (.command e)
      | .ok vault =>
        .ok (vault.toList.map .vault ++
          [.masterPub (MasterKey.fromSecretBytes A d.masterSecret).publicHex, .tokensDir,
            .token T.owner (ownerToken A d)])
    | _ => .ok []
  | .grant passphrase name permissions expiresInDays =>
    match dir.openContents V passphrase with
    | .error e => .error e
    | .ok contents =>
      match DataDir.masterKey A contents with
      | .error e => .error e
      | .ok master =>
        match T.file dir.tokensDir name with
        | none => .error .file
        | some path => .ok [.token path (grantedToken A master d name permissions expiresInDays)]
  | .revoke tokenId =>
    match dir.loadRevoked with
    | .error e => .error e
    | .ok list => .ok [.revoked (list.revoke tokenId)]
  | .newWallet passphrase label => rewrite W V A dir d (.newWallet passphrase label)
  | .restoreWallet passphrase label phrase =>
    rewrite W V A dir d (.restoreWallet passphrase label phrase)

end

end OwnerCommand

/-- A command with what it draws and how far it gets: the writes that are done, and the characters
that are written of the next. -/
structure OwnerStep where
  draw : Draw
  command : OwnerCommand
  done : ℕ
  begun : Option ℕ

namespace DataDir

section

variable (W : WalletCrypto) (V : VaultCrypto) (A : AccessCrypto) (T : TokenPaths)

def step (dir : DataDir) (s : OwnerStep) : DataDir :=
  match s.command.writes W V A T dir s.draw with
  | .error _ => dir
  | .ok ws => dir.carryOut ws s.done s.begun

/-- Commands one after another, from nothing. -/
def run (steps : List OwnerStep) : DataDir := steps.foldl (step W V A T) .empty

end

/-! ### What is read -/

/-- `char::is_whitespace`: the property White_Space of Unicode. -/
def isWhiteSpace (c : Char) : Bool :=
  (9 ≤ c.toNat && c.toNat ≤ 13) || (0x2000 ≤ c.toNat && c.toNat ≤ 0x200a) ||
    [0x20, 0x85, 0xa0, 0x1680, 0x2028, 0x2029, 0x202f, 0x205f, 0x3000].contains c.toNat

def trim (s : String) : String :=
  .ofList ((s.toList.dropWhile isWhiteSpace).reverse.dropWhile isWhiteSpace).reverse

/-- `Command::VerifyToken`, for the file at `path`. -/
def verifyToken (A : AccessCrypto) (dir : DataDir) (now : UInt64) (path : String) :
    Except DirError Unit :=
  match dir.token path with
  | .missing => .error .file
  | .torn => .error .notParsed
  | .holds t =>
    match dir.masterPub with
    | none => .error .file
    | some masterPub =>
      match t.verifyWithRevocation A now (trim masterPub) (some dir.revocations) with
      | .error e => .error (.token e)
      | .ok () => .ok ()

inductive TokenStatus where
  | revoked
  | expired
  | active
  | activeNoExpiry
  deriving DecidableEq, Repr

def TokenStatus.text : TokenStatus → String
  | .revoked => "REVOKED"
  | .expired => "EXPIRED"
  | .active => "ACTIVE"
  | .activeNoExpiry => "ACTIVE (no expiry)"

/-- The last column of `list-tokens`. -/
def status (dir : DataDir) (now : UInt64) (t : AccessToken) : TokenStatus :=
  if dir.revocations.isRevoked t.tokenId then .revoked
  else if 0 < t.expiresAt then if t.expiresAt < now then .expired else .active
  else .activeNoExpiry

/-- `Command::ListTokens`: the rows, when the directory has the given entries. -/
def listTokens (dir : DataDir) (now : UInt64) (entries : List String) :
    Option (List (AccessToken × TokenStatus)) :=
  if dir.tokensDir then
    some ((entries.filterMap fun path => (dir.token path).toOption).map fun t =>
      (t, dir.status now t))
  else none

end DataDir

/-! ### What a command writes -/

variable {W : WalletCrypto} {V : VaultCrypto} {A : AccessCrypto} {T : TokenPaths} {P : Set String}
  {dir : DataDir} {d : Draw} {command : OwnerCommand} {ws : List Write} {s : OwnerStep}
  {steps hist : List OwnerStep}

/-- The contents of a vault are read when it is whole and the passphrase opens it. -/
theorem DataDir.openContents_eq_ok_iff {passphrase : String} {contents : VaultContents} :
    dir.openContents V passphrase = .ok contents ↔
      ∃ file, dir.vault = .holds file ∧ openVault V passphrase file = .ok contents := by
  rw [openContents]
  cases dir.vault with
  | missing => simp [readVault, OnDisk.toOption]
  | torn => simp
  | holds file =>
    simp only [OnDisk.toOption, readVault, OnDisk.holds.injEq, exists_eq_left']
    cases openVault V passphrase file <;> simp

/-- What the writes of a command are, with what was read for them. -/
inductive OwnerCommand.Wrote (V : VaultCrypto) (A : AccessCrypto) (T : TokenPaths) (P : Set String)
    (dir : DataDir) (d : Draw) : OwnerCommand → List Write → Prop
  | nothing {command : OwnerCommand} : Wrote V A T P dir d command []
  | founded {passphrase wallet : String} {file : VaultFile} :
    dir.vault = .missing →
    file.Seals V P passphrase
      ⟨[(MasterKey.fromSecretBytes A d.masterSecret).secretHex, wallet], reservedLabels, d.now⟩ →
    Wrote V A T P dir d (.init passphrase passphrase)
      [.vault file, .masterPub (MasterKey.fromSecretBytes A d.masterSecret).publicHex, .tokensDir,
        .token T.owner (ownerToken A d)]
  | rewritten {command : OwnerCommand} {passphrase key label : String} {file file' : VaultFile}
      {contents : VaultContents} :
    dir.vault = .holds file → passphrase ∈ P → openVault V passphrase file = .ok contents →
    file'.Seals V P passphrase ⟨contents.secretKeys ++ [key], contents.labels ++ [label], d.now⟩ →
    Wrote V A T P dir d command [.vault file']
  | granted {passphrase name path : String} {permissions : List String} {days : UInt64}
      {file : VaultFile} {contents : VaultContents} {master : MasterKey A} :
    dir.vault = .holds file → passphrase ∈ P → openVault V passphrase file = .ok contents →
    DataDir.masterKey A contents = .ok master →
    Wrote V A T P dir d (.grant passphrase name permissions days)
      [.token path (grantedToken A master d name permissions days)]
  | revoked {tokenId : String} {list : RevocationList} :
    dir.loadRevoked = .ok list →
    Wrote V A T P dir d (.revoke tokenId) [.revoked (list.revoke tokenId)]

namespace OwnerCommand

theorem openVault_of_readVault {passphrase : String} {file : VaultFile} {contents : VaultContents}
    (h : readVault V passphrase (some file) = .ok contents) :
    openVault V passphrase file = .ok contents := by
  rw [readVault] at h
  split at h
  · cases h
  · next contents' hopen => rw [hopen, Except.ok.inj h]

/-- A vault is written again with one more wallet, under the passphrase that opens it. -/
theorem exec_rewrites (hV : V.Lawful P) {file : VaultFile} {vault' : Option VaultFile}
    {command : VaultCommand}
    (hinit : ∀ passphrase confirmation, command ≠ .init passphrase confirmation)
    (hP : ∀ p ∈ command.passphrases, p ∈ P)
    (h : exec W V A (some file) (d, command) = .ok vault') :
    ∃ passphrase ∈ P, ∃ contents file' key label, openVault V passphrase file = .ok contents ∧
      vault' = some file' ∧ file'.Seals V P passphrase
        ⟨contents.secretKeys ++ [key], contents.labels ++ [label], d.now⟩ := by
  cases command with
  | init passphrase confirmation => exact absurd rfl (hinit passphrase confirmation)
  | newWallet passphrase label =>
    rw [exec] at h
    split at h
    · cases h
    next contents hread =>
      split at h
      · cases h
      next w words hw =>
        have hpass := hP passphrase List.mem_cons_self
        obtain ⟨file', rfl, hseals⟩ := writeVault_eq_ok hV hpass h
        exact ⟨passphrase, hpass, contents, file', _, label, openVault_of_readVault hread, rfl,
          hseals⟩
  | restoreWallet passphrase label phrase =>
    rw [exec] at h
    split at h
    · cases h
    next contents hread =>
      split at h
      · cases h
      · split at h
        · cases h
        next w hw =>
          have hpass := hP passphrase List.mem_cons_self
          obtain ⟨file', rfl, hseals⟩ := writeVault_eq_ok hV hpass h
          exact ⟨passphrase, hpass, contents, file', _, label, openVault_of_readVault hread, rfl,
            hseals⟩

theorem wrote_of_rewrite (hV : V.Lawful P) (vaultCommand : VaultCommand)
    (hinit : ∀ passphrase confirmation, vaultCommand ≠ .init passphrase confirmation)
    (hP : ∀ p ∈ vaultCommand.passphrases, p ∈ P)
    (h : rewrite W V A dir d vaultCommand = .ok ws) : Wrote V A T P dir d command ws := by
  rw [rewrite] at h
  cases hvault : dir.vault with
  | missing =>
    rw [hvault] at h
    cases vaultCommand with
    | init passphrase confirmation => exact absurd rfl (hinit passphrase confirmation)
    | newWallet => cases h
    | restoreWallet => cases h
  | torn =>
    rw [hvault] at h
    cases h
  | holds file =>
    rw [hvault] at h
    dsimp only [OnDisk.toOption] at h
    split at h
    · cases h
    next vault' hexec =>
      obtain ⟨passphrase, hpass, contents, file', key, label, hopen, rfl, hseals⟩ :=
        exec_rewrites hV hinit hP hexec
      obtain rfl := Except.ok.inj h
      exact .rewritten hvault hpass hopen hseals

/-- **What the writes of a command can be.** -/
theorem wrote_of_writes (hV : V.Lawful P) (hP : ∀ p ∈ command.passphrases, p ∈ P)
    (h : command.writes W V A T dir d = .ok ws) : Wrote V A T P dir d command ws := by
  cases command with
  | init passphrase confirmation =>
    rw [writes] at h
    cases hvault : dir.vault with
    | missing =>
      rw [hvault] at h
      dsimp only at h
      rw [exec] at h
      simp only [Option.isSome_none, Bool.false_eq_true, if_false] at h
      split at h
      · cases h
      next vault' hwrite =>
        split at hwrite
        · cases hwrite
        next heq =>
          obtain rfl : passphrase = confirmation := not_not.mp heq
          obtain ⟨file, rfl, hseals⟩ :=
            writeVault_eq_ok hV (hP passphrase List.mem_cons_self) hwrite
          obtain rfl := Except.ok.inj h
          exact .founded hvault hseals
    | torn =>
      rw [hvault] at h
      obtain rfl := Except.ok.inj h
      exact .nothing
    | holds file =>
      rw [hvault] at h
      obtain rfl := Except.ok.inj h
      exact .nothing
  | grant passphrase name permissions days =>
    rw [writes] at h
    split at h
    · cases h
    next contents hopen =>
      split at h
      · cases h
      next master hmaster =>
        split at h
        · cases h
        next path hpath =>
          obtain rfl := Except.ok.inj h
          obtain ⟨file, hvault, hopen⟩ := DataDir.openContents_eq_ok_iff.mp hopen
          exact .granted hvault (hP passphrase List.mem_cons_self) hopen hmaster
  | revoke tokenId =>
    rw [writes] at h
    split at h
    · cases h
    next list hload =>
      obtain rfl := Except.ok.inj h
      exact .revoked hload
  | newWallet passphrase label =>
    exact wrote_of_rewrite hV (.newWallet passphrase label) (fun _ _ hne => by cases hne) hP h
  | restoreWallet passphrase label phrase =>
    exact wrote_of_rewrite hV (.restoreWallet passphrase label phrase)
      (fun _ _ hne => by cases hne) hP h

end OwnerCommand

namespace DataDir

/-- Every file of a token that parses has its row, with the status of the token. -/
theorem mem_listTokens_iff {now : UInt64} {entries : List String}
    {rows : List (AccessToken × TokenStatus)} (h : dir.listTokens now entries = some rows)
    {t : AccessToken} {status : TokenStatus} :
    (t, status) ∈ rows ↔
      (∃ path ∈ entries, dir.token path = .holds t) ∧ status = dir.status now t := by
  have hread : ∀ path t, (dir.token path).toOption = some t ↔ dir.token path = .holds t := by
    intro path t
    cases dir.token path <;> simp [OnDisk.toOption]
  rw [listTokens] at h
  split at h
  · obtain rfl := Option.some.inj h
    simp only [List.mem_map, List.mem_filterMap, hread, Prod.mk.injEq]
    constructor
    · rintro ⟨t', ht', rfl, rfl⟩
      exact ⟨ht', rfl⟩
    · rintro ⟨ht, rfl⟩
      exact ⟨t, ht, rfl, rfl⟩
  · cases h

/-! ### Runs -/

theorem run_concat (W : WalletCrypto) (V : VaultCrypto) (A : AccessCrypto) (T : TokenPaths)
    (steps : List OwnerStep) (s : OwnerStep) :
    run W V A T (steps ++ [s]) = (run W V A T steps).step W V A T s := by
  rw [run, List.foldl_append]
  rfl

theorem run_append (W : WalletCrypto) (V : VaultCrypto) (A : AccessCrypto) (T : TokenPaths)
    (steps later : List OwnerStep) :
    run W V A T (steps ++ later) =
      later.foldl (step W V A T) (run W V A T steps) := List.foldl_append

/-- What every write of a command keeps, done or cut short, the command keeps. -/
theorem carryOut_rule {P : DataDir → Prop}
    (h : ∀ w ∈ ws, ∀ dir, P dir → P (w.apply dir) ∧ ∀ n, P (w.tear n dir)) (hdir : P dir)
    (done : ℕ) (begun : Option ℕ) : P (dir.carryOut ws done begun) := by
  induction ws generalizing dir done with
  | nil => exact hdir
  | cons w ws ih =>
    obtain ⟨happly, htear⟩ := h w List.mem_cons_self dir hdir
    cases done with
    | zero =>
      cases begun with
      | none => exact hdir
      | some n => exact htear n
    | succ done => exact ih (fun w hw => h w (List.mem_cons_of_mem _ hw)) happly done

/-- A command leaves the directory as it was, or carries out what it writes. -/
theorem step_cases (hV : V.Lawful P) (dir : DataDir) {s : OwnerStep}
    (hP : ∀ p ∈ s.command.passphrases, p ∈ P) : ∃ ws, s.command.Wrote V A T P dir s.draw ws ∧
      dir.step W V A T s = dir.carryOut ws s.done s.begun := by
  rw [step]
  cases hwrites : s.command.writes W V A T dir s.draw with
  | error e => exact ⟨[], .nothing, rfl⟩
  | ok ws => exact ⟨ws, OwnerCommand.wrote_of_writes hV hP hwrites, rfl⟩

end DataDir

end Arkos
