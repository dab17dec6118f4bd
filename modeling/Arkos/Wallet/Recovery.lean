import Arkos.Wallet.Wallet

/-!
# What a recovery phrase recovers

A phrase spells the secret of the ECDSA key and nothing else. `from_phrase` reads the secret back
and derives the seed of the ML-DSA key from it. A wallet made by `Wallet::new` has a seed of its
own, which no phrase carries, and the address commits to both keys: its phrase leads to another
wallet. Whether a wallet was made that way cannot be told from what is stored of it, and the vault
offers a phrase for every wallet it holds.

So a phrase restores a wallet exactly when the seed of the wallet is the derived one. This is the
case for every wallet that was itself made from a phrase or by child derivation.

## Main definitions

* `Wallet.Creatable` — the wallets the program makes
* `Wallet.Recoverable` — the phrase restores the wallet
* `WalletCrypto.Lawful` — what is assumed of the libraries

## Main results

* `Wallet.recoverable_iff`
* `Wallet.fromSecretHex_secretKeyHex` — a stored wallet is read back as it was
-/

namespace Arkos

/-- What is assumed of the libraries: decoding a phrase undoes encoding 32 bytes of entropy, and
different seeds give different ML-DSA keys. -/
structure WalletCrypto.Lawful (W : WalletCrypto) : Prop where
  parseMnemonic_mnemonic :
    ∀ entropy : Hash, W.parseMnemonic (W.mnemonic entropy) = .ok entropy.toList
  verifyingKey_injective : Function.Injective W.verifyingKey

theorem WalletCrypto.lawful_sample : WalletCrypto.sample.Lawful where
  parseMnemonic_mnemonic entropy := by
    simp only [WalletCrypto.sample, hexDecode_hexEncode]
  verifyingKey_injective := fun _ _ h => List.Vector.eq _ _ (List.append_cancel_right h)

variable {W : WalletCrypto}

namespace Wallet

/-- The wallets the program makes. -/
inductive Creatable (W : WalletCrypto) : Wallet → Prop
  | new (ecdsaSecret : SecretKey) (mldsaSeed : Hash) : Creatable W (new W ecdsaSecret mldsaSeed)
  | generateWithPhrase {entropy : Hash} {w : Wallet} {words : String} :
      generateWithPhrase W entropy = some (w, words) → Creatable W w
  | fromPhrase {words : String} {w : Wallet} : fromPhrase W words = .ok w → Creatable W w
  | fromSecretHex {hex : String} {w : Wallet} : fromSecretHex W hex = .ok w → Creatable W w
  | deriveReceiving {hd : HdWallet} {index : UInt32} {w : Wallet} :
      hd.deriveReceiving W index = .ok w → Creatable W w
  | deriveChange {hd : HdWallet} {index : UInt32} {w : Wallet} :
      hd.deriveChange W index = .ok w → Creatable W w

/-- **The phrase of the wallet restores it.** -/
def Recoverable (W : WalletCrypto) (w : Wallet) : Prop :=
  ∃ w', fromPhrase W (w.phrase W) = .ok w' ∧ w'.address W = w.address W ∧
    w'.keypair.publicKey = w.keypair.publicKey

/-- The seed of the ML-DSA key is the one that is derived from the ECDSA secret. -/
def SeedDerived (W : WalletCrypto) (w : Wallet) : Prop :=
  w.keypair.dilithiumSecret = deriveMldsaSeedFromEcdsa W w.keypair.ecdsaSecret

/-! ### What the constructors have in common -/

/-- Both public keys belong to the secrets. -/
def Matched (W : WalletCrypto) (w : Wallet) : Prop :=
  w.keypair = HybridKeyPair.ofSecrets W w.keypair.ecdsaSecret w.keypair.dilithiumSecret

/-- A key pair made from an ECDSA secret alone. -/
theorem fromEcdsaSecretBytes_eq_ok {bs : Bytes} {k : HybridKeyPair}
    (h : HybridKeyPair.fromEcdsaSecretBytes W bs = .ok k) :
    ∃ ecdsaSecret, SecretKey.fromSlice bs = some ecdsaSecret ∧
      k = HybridKeyPair.ofSecrets W ecdsaSecret (deriveMldsaSeedFromEcdsa W ecdsaSecret) := by
  rw [HybridKeyPair.fromEcdsaSecretBytes] at h
  split at h
  · cases h
  · next ecdsaSecret hsecret => exact ⟨ecdsaSecret, hsecret, (Except.ok.inj h).symm⟩

/-- A wallet made from an ECDSA secret alone. -/
theorem matched_of_fromEcdsaSecretBytes {bs : Bytes} {w : Wallet}
    (h : (HybridKeyPair.fromEcdsaSecretBytes W bs).map Wallet.mk = .ok w) :
    w.Matched W ∧ w.SeedDerived W := by
  cases hk : HybridKeyPair.fromEcdsaSecretBytes W bs with
  | error e =>
    rw [hk] at h
    cases h
  | ok k =>
    rw [hk] at h
    obtain rfl := Except.ok.inj h
    obtain ⟨ecdsaSecret, -, rfl⟩ := fromEcdsaSecretBytes_eq_ok hk
    exact ⟨rfl, rfl⟩

theorem matched_of_generateWithPhrase {entropy : Hash} {w : Wallet} {words : String}
    (h : Wallet.generateWithPhrase W entropy = some (w, words)) :
    w.Matched W ∧ w.SeedDerived W := by
  rw [Wallet.generateWithPhrase] at h
  split at h
  · cases h
  · next k hk =>
    obtain ⟨rfl, -⟩ := Prod.mk.inj (Option.some.inj h)
    have hmap : (HybridKeyPair.fromEcdsaSecretBytes W entropy.toList).map Wallet.mk = .ok ⟨k⟩ := by
      rw [hk]
      rfl
    exact matched_of_fromEcdsaSecretBytes hmap

theorem matched_of_fromPhrase {words : String} {w : Wallet}
    (h : Wallet.fromPhrase W words = .ok w) : w.Matched W ∧ w.SeedDerived W := by
  rw [Wallet.fromPhrase] at h
  split at h
  · cases h
  · split at h
    · cases h
    · exact matched_of_fromEcdsaSecretBytes h

theorem matched_of_deriveChildWallet {parent : SecretKey} {chain : Bytes} {account index : UInt32}
    {w : Wallet} (h : HdWallet.deriveChildWallet W parent chain account index = .ok w) :
    w.Matched W ∧ w.SeedDerived W := by
  rw [HdWallet.deriveChildWallet] at h
  split at h
  · cases h
  · split at h
    · cases h
    · exact matched_of_fromEcdsaSecretBytes h

theorem matched_of_fromSecretHex {hex : String} {w : Wallet}
    (h : Wallet.fromSecretHex W hex = .ok w) : w.Matched W := by
  rw [Wallet.fromSecretHex] at h
  split at h
  · split at h
    · cases h
    · split at h
      · next ecdsa secret pub _ _ _ =>
        rw [HybridKeyPair.fromParts] at h
        split at h
        · cases h
        · split at h
          · split at h
            · cases h
            · next hpub =>
              -- the public key was compared with the seed
              obtain rfl := Except.ok.inj h
              rw [not_not] at hpub
              simp [Matched, HybridKeyPair.ofSecrets, hpub]
          · cases h
      · cases h
  · cases h

/-- **Every wallet of the program has matching keys.** -/
theorem Creatable.matched {w : Wallet} (h : Creatable W w) : w.Matched W := by
  cases h with
  | new ecdsaSecret mldsaSeed => rfl
  | generateWithPhrase hw => exact (matched_of_generateWithPhrase hw).1
  | fromPhrase hw => exact (matched_of_fromPhrase hw).1
  | fromSecretHex hw => exact matched_of_fromSecretHex hw
  | deriveReceiving hw => exact (matched_of_deriveChildWallet hw).1
  | deriveChange hw => exact (matched_of_deriveChildWallet hw).1

/-! ### Recovery -/

/-- What the phrase of a wallet leads to. -/
theorem fromPhrase_phrase (hW : W.Lawful) (w : Wallet) :
    Wallet.fromPhrase W (w.phrase W) =
      .ok ⟨HybridKeyPair.ofSecrets W w.keypair.ecdsaSecret
        (deriveMldsaSeedFromEcdsa W w.keypair.ecdsaSecret)⟩ := by
  rw [Wallet.fromPhrase, Wallet.phrase, hW.parseMnemonic_mnemonic]
  dsimp only
  rw [if_neg (by simp), HybridKeyPair.fromEcdsaSecretBytes, SecretKey.fromSlice_secretBytes]
  rfl

theorem recoverable_iff_of_matched (hW : W.Lawful) {w : Wallet} (h : w.Matched W) :
    Recoverable W w ↔ w.SeedDerived W := by
  constructor
  · rintro ⟨w', hw', -, hpublic⟩
    rw [fromPhrase_phrase hW] at hw'
    obtain rfl := Except.ok.inj hw'
    have hkeys : W.verifyingKey (deriveMldsaSeedFromEcdsa W w.keypair.ecdsaSecret) =
        W.verifyingKey w.keypair.dilithiumSecret := by
      have hdilithium := congrArg HybridPublicKey.dilithiumPubkey hpublic
      rw [h] at hdilithium
      exact hdilithium
    exact (hW.verifyingKey_injective hkeys).symm
  · intro hseed
    refine ⟨w, ?_, rfl, rfl⟩
    rw [fromPhrase_phrase hW, ← hseed, ← h]

/-- **The phrase of a wallet restores it exactly when its seed is the derived one.** -/
theorem recoverable_iff (W : WalletCrypto) (hW : W.Lawful) (w : Wallet) (h : Creatable W w) :
    Recoverable W w ↔ w.SeedDerived W :=
  recoverable_iff_of_matched hW h.matched

/-- A wallet made by `generate_with_phrase`. -/
theorem recoverable_iff_generated :
    ∃ w words, generateWithPhrase WalletCrypto.sample ⟨beBytes 32 1, rfl⟩ = some (w, words) ∧
      Recoverable WalletCrypto.sample w := by
  have hgenerated : generateWithPhrase WalletCrypto.sample ⟨beBytes 32 1, rfl⟩ =
      some (⟨HybridKeyPair.ofSecrets WalletCrypto.sample ⟨1, by decide, by decide⟩
        (deriveMldsaSeedFromEcdsa WalletCrypto.sample ⟨1, by decide, by decide⟩)⟩,
        hexEncode (beBytes 32 1)) := rfl
  exact ⟨_, _, hgenerated, (recoverable_iff WalletCrypto.sample WalletCrypto.lawful_sample _
    (.generateWithPhrase hgenerated)).mpr rfl⟩

/-- **The phrase of a wallet made by `Wallet::new` leads to another wallet.** -/
theorem not_recoverable_new :
    Creatable WalletCrypto.sample
        (new WalletCrypto.sample ⟨1, by decide, by decide⟩ (List.Vector.replicate 32 0)) ∧
      ¬ Recoverable WalletCrypto.sample
        (new WalletCrypto.sample ⟨1, by decide, by decide⟩ (List.Vector.replicate 32 0)) := by
  refine ⟨.new _ _, fun h => ?_⟩
  have hmatched : (new WalletCrypto.sample ⟨1, by decide, by decide⟩
      (List.Vector.replicate 32 0)).Matched WalletCrypto.sample := rfl
  have hseed := (recoverable_iff_of_matched WalletCrypto.lawful_sample hmatched).mp h
  revert hseed
  unfold SeedDerived
  decide

/-- A wallet that was restored from a phrase can be restored again. -/
theorem recoverable_of_fromPhrase (hW : W.Lawful) {words : String} {w : Wallet}
    (h : Wallet.fromPhrase W words = .ok w) : Recoverable W w :=
  (recoverable_iff_of_matched hW (matched_of_fromPhrase h).1).mpr (matched_of_fromPhrase h).2

/-- So can a wallet that was made with its phrase. -/
theorem recoverable_of_generateWithPhrase (hW : W.Lawful) {entropy : Hash} {w : Wallet}
    {words : String} (h : Wallet.generateWithPhrase W entropy = some (w, words)) :
    Recoverable W w :=
  (recoverable_iff_of_matched hW (matched_of_generateWithPhrase h).1).mpr
    (matched_of_generateWithPhrase h).2

/-- So can every child of a master key. -/
theorem recoverable_of_deriveChildWallet (hW : W.Lawful) {parent : SecretKey} {chain : Bytes}
    {account index : UInt32} {w : Wallet}
    (h : HdWallet.deriveChildWallet W parent chain account index = .ok w) : Recoverable W w :=
  (recoverable_iff_of_matched hW (matched_of_deriveChildWallet h).1).mpr
    (matched_of_deriveChildWallet h).2

/-! ### Stored wallets -/

/-- The parts of a stored wallet. -/
theorem splitColon_secretKeyHex (w : Wallet) :
    splitColon w.secretKeyHex = ["hybrid", hexEncode w.keypair.ecdsaSecret.secretBytes.toList,
      hexEncode w.keypair.dilithiumSecret.toList, hexEncode w.keypair.dilithiumPublic] := by
  have htext : w.secretKeyHex.toList = [':'].intercalate ["hybrid".toList,
      (hexEncode w.keypair.ecdsaSecret.secretBytes.toList).toList,
      (hexEncode w.keypair.dilithiumSecret.toList).toList,
      (hexEncode w.keypair.dilithiumPublic).toList] := by
    simp [secretKeyHex, List.intercalate, String.toList_append]
  rw [splitColon, htext, List.splitOn_intercalate _ ?_ (by simp)]
  · simp
  · simp [colon_notMem_hexEncode]

/-- **A stored wallet is read back as it was.** -/
theorem fromSecretHex_secretKeyHex {w : Wallet} (h : w.Matched W) :
    Wallet.fromSecretHex W w.secretKeyHex = .ok w := by
  have hpub : W.verifyingKey w.keypair.dilithiumSecret = w.keypair.dilithiumPublic := by
    conv_rhs => rw [h]
    rfl
  have hparts : HybridKeyPair.fromParts W w.keypair.ecdsaSecret.secretBytes.toList
      w.keypair.dilithiumSecret.toList w.keypair.dilithiumPublic = .ok w.keypair := by
    have hlen : w.keypair.dilithiumSecret.toList.length = 32 := List.Vector.toList_length _
    have hseed : (⟨w.keypair.dilithiumSecret.toList, hlen⟩ : Hash) = w.keypair.dilithiumSecret :=
      List.Vector.eq _ _ rfl
    rw [HybridKeyPair.fromParts, SecretKey.fromSlice_secretBytes]
    dsimp only
    rw [dif_pos hlen, hseed, if_neg (not_not.mpr hpub)]
    conv_rhs => rw [h]
    rw [HybridKeyPair.ofSecrets, hpub]
  rw [Wallet.fromSecretHex, splitColon_secretKeyHex]
  simp only [hexDecode_hexEncode, hparts]
  rfl

end Wallet

end Arkos
