import Arkos.Transaction.Utxo

/-!
# The device registry

A wallet may mine with one mobile device, and a device may mine for one wallet. The registry
keeps this in a key-value table with three kinds of keys: `wallet:<address>` holds a device
id, `claim:<device_id>` holds an address, and `device:<device_id>` holds the registration.
Several writes make up one call, and a device is changed by taking the old one out and
registering the new one.

What the registry is for is said by `Binding`: a map from wallets to registrations in which no
device occurs twice. The table is one of these at every moment, and its calls answer as the map
would.

Heights are words, and the sum that ends a cooldown wraps as it does in a release build. What the
registrations carry beyond keys and heights is stored and returned. The table itself does not fail.

## Main definitions

* `DeviceRegistration`, `DeviceRegistry`, `DeviceRegistry.Call`, `DeviceRegistry.run`
* `Binding` — the map the registry stands for
* `DeviceRegistry.Stores` — the table as a binding

## Main results

* `DeviceRegistry.one_to_one` — every run of the registry is a run of the binding
* `DeviceRegistry.rebinding_authorised` — how a wallet gets rid of its device
* `DeviceRegistry.failed_transfer_iff` — when a failed transfer is not harmless
-/

namespace Arkos

/-- `DEVICE_TRANSFER_COOLDOWN`. -/
def deviceTransferCooldown : UInt64 := 100

/-- `MobilePlatform`. -/
inductive MobilePlatform where
  | android
  | ios
  deriving DecidableEq, Repr

/-- `DeviceRegistration`. -/
structure DeviceRegistration where
  deviceId : String
  walletAddress : String
  devicePubkey : Bytes
  platform : MobilePlatform
  attestationBlob : Bytes
  registeredAtHeight : UInt64
  deriving DecidableEq

/-- `DeviceRegistration::new`. -/
def DeviceRegistration.new (C : Crypto) (walletAddress : String) (devicePubkey : Bytes)
    (platform : MobilePlatform) (attestationBlob : Bytes) (registeredAtHeight : UInt64) :
    DeviceRegistration where
  deviceId := hashToHex (C.hash256 devicePubkey)
  walletAddress
  devicePubkey
  platform
  attestationBlob
  registeredAtHeight

/-- The two signature checks of the registry. -/
structure DeviceKeys where
  /-- `verify_raw`, for compressed secp256k1 keys. -/
  verifyRaw : Bytes → Hash → Bytes → Bool
  /-- `verify_p256_der`. -/
  verifyP256Der : Bytes → Hash → Bytes → Bool

/-- Why a call fails. -/
inductive DeviceError where
  | walletTaken (walletAddress : String)
  | deviceTaken (deviceId : String)
  | noDevice (walletAddress : String)
  | registrationMissing
  | invalidSignature
  | cooldown (blocks : UInt64)
  | malformed
  deriving DecidableEq, Repr

/-- The text of the error. -/
def DeviceError.message : DeviceError → String
  | .walletTaken walletAddress => "wallet " ++ walletAddress ++ " already has a registered device"
  | .deviceTaken deviceId => "device " ++ deviceId ++ " is already registered to a wallet"
  | .noDevice walletAddress => "no device registered for wallet " ++ walletAddress
  | .registrationMissing => "device registration not found"
  | .invalidSignature => "invalid transfer signature from old device"
  | .cooldown blocks => "device transfer cooldown: " ++ toString blocks.toNat ++ " blocks remaining"
  | .malformed => "malformed value"

/-- A stored value: a serialized registration, or a text. -/
inductive DeviceValue where
  | registration (reg : DeviceRegistration)
  | text (s : String)
  deriving DecidableEq

/-- `DeviceRegistry`. -/
structure DeviceRegistry where
  db : Table DeviceValue

namespace DeviceRegistry

/-- The key of a wallet. -/
def walletKey (walletAddress : String) : String := "wallet:" ++ walletAddress

/-- The key of a claim. -/
def claimKey (deviceId : String) : String := "claim:" ++ deviceId

/-- The key of a registration. -/
def deviceKey (deviceId : String) : String := "device:" ++ deviceId

/-- A registry nothing was written to. -/
def empty : DeviceRegistry := ⟨∅⟩

/-- The bindings of a device are written. -/
def add (st : DeviceRegistry) (reg : DeviceRegistration) : DeviceRegistry :=
  ⟨((st.db.insert (deviceKey reg.deviceId) (.registration reg)).insert
    (walletKey reg.walletAddress) (.text reg.deviceId)).insert
    (claimKey reg.deviceId) (.text reg.walletAddress)⟩

/-- `DeviceRegistry::register`. -/
def register (st : DeviceRegistry) (reg : DeviceRegistration) :
    Except DeviceError Unit × DeviceRegistry :=
  if walletKey reg.walletAddress ∈ st.db then (.error (.walletTaken reg.walletAddress), st)
  else if claimKey reg.deviceId ∈ st.db then (.error (.deviceTaken reg.deviceId), st)
  else (.ok (), st.add reg)

/-- `DeviceRegistry::get_by_device_id`. -/
def getByDeviceId (st : DeviceRegistry) (deviceId : String) :
    Except DeviceError (Option DeviceRegistration) :=
  match st.db.lookup (deviceKey deviceId) with
  | none => .ok none
  | some (.registration reg) => .ok (some reg)
  | some (.text _) => .error .malformed

/-- `DeviceRegistry::get_device_id_for_wallet`. -/
def getDeviceIdForWallet (st : DeviceRegistry) (walletAddress : String) :
    Except DeviceError (Option String) :=
  match st.db.lookup (walletKey walletAddress) with
  | none => .ok none
  | some (.text deviceId) => .ok (some deviceId)
  | some (.registration _) => .error .malformed

section

variable (C : Crypto) (K : DeviceKeys)

/-- The `transfer_valid` of `transfer_device`: the old key has signed the new device id. -/
def transferValid (oldReg newReg : DeviceRegistration) (oldDeviceSignature : Bytes) : Bool :=
  let transferHash := C.hash256 (utf8 newReg.deviceId)
  if oldReg.devicePubkey.length = 33 then
    K.verifyRaw oldReg.devicePubkey transferHash oldDeviceSignature
  else if oldReg.devicePubkey.length = 65 then
    K.verifyP256Der oldReg.devicePubkey transferHash oldDeviceSignature
  else false

/-- The bindings of a device are deleted. -/
def remove (st : DeviceRegistry) (walletAddress deviceId : String) : DeviceRegistry :=
  ⟨((st.db.erase (deviceKey deviceId)).erase (claimKey deviceId)).erase (walletKey walletAddress)⟩

/-- `DeviceRegistry::transfer_device`. -/
def transferDevice (st : DeviceRegistry) (walletAddress : String) (oldDeviceSignature : Bytes)
    (newReg : DeviceRegistration) (currentHeight : UInt64) :
    Except DeviceError Unit × DeviceRegistry :=
  match st.getDeviceIdForWallet walletAddress with
  | .error e => (.error e, st)
  | .ok none => (.error (.noDevice walletAddress), st)
  | .ok (some oldDeviceId) =>
    match st.getByDeviceId oldDeviceId with
    | .error e => (.error e, st)
    | .ok none => (.error .registrationMissing, st)
    | .ok (some oldReg) =>
      if transferValid C K oldReg newReg oldDeviceSignature = false then
        (.error .invalidSignature, st)
      else if currentHeight < oldReg.registeredAtHeight + deviceTransferCooldown then
        (.error (.cooldown (oldReg.registeredAtHeight + deviceTransferCooldown - currentHeight)),
          st)
      else (st.remove walletAddress oldDeviceId).register newReg

/-- A call that writes. -/
inductive Call where
  | register (reg : DeviceRegistration)
  | transferDevice (walletAddress : String) (oldDeviceSignature : Bytes)
      (newReg : DeviceRegistration) (currentHeight : UInt64)

/-- What a call returns, and the registry after it. -/
def step (st : DeviceRegistry) : Call → Except DeviceError Unit × DeviceRegistry
  | .register reg => st.register reg
  | .transferDevice walletAddress oldDeviceSignature newReg currentHeight =>
    st.transferDevice C K walletAddress oldDeviceSignature newReg currentHeight

/-- What a sequence of calls returns, and the registry after it. -/
def run : DeviceRegistry → List Call → List (Except DeviceError Unit) × DeviceRegistry
  | st, [] => ([], st)
  | st, c :: cs => ((st.step C K c).1 :: (run (st.step C K c).2 cs).1, (run (st.step C K c).2 cs).2)

end

/-! ### The three kinds of keys -/

theorem walletKey_inj {a a' : String} (e : walletKey a = walletKey a') : a = a' := by
  have hl := congrArg String.toList e
  simp only [walletKey, String.toList_append] at hl
  exact String.toList_inj.mp (List.append_cancel_left hl)

theorem claimKey_inj {d d' : String} (e : claimKey d = claimKey d') : d = d' := by
  have hl := congrArg String.toList e
  simp only [claimKey, String.toList_append] at hl
  exact String.toList_inj.mp (List.append_cancel_left hl)

theorem deviceKey_inj {d d' : String} (e : deviceKey d = deviceKey d') : d = d' := by
  have hl := congrArg String.toList e
  simp only [deviceKey, String.toList_append] at hl
  exact String.toList_inj.mp (List.append_cancel_left hl)

theorem walletKey_ne_claimKey (a d : String) : walletKey a ≠ claimKey d := by
  intro e
  have hl := congrArg (fun s => s.toList.head?) e
  simp [walletKey, claimKey] at hl

theorem walletKey_ne_deviceKey (a d : String) : walletKey a ≠ deviceKey d := by
  intro e
  have hl := congrArg (fun s => s.toList.head?) e
  simp [walletKey, deviceKey] at hl

theorem claimKey_ne_deviceKey (d d' : String) : claimKey d ≠ deviceKey d' := by
  intro e
  have hl := congrArg (fun s => s.toList.head?) e
  simp [claimKey, deviceKey] at hl

end DeviceRegistry

/-! ### What the registry is for -/

/-- Which wallet mines with which device: a map from wallets to registrations in which every
registration is its wallet's own and no device occurs twice. -/
@[ext]
structure Binding where
  reg : String → Option DeviceRegistration
  wallet_eq : ∀ {a r}, reg a = some r → r.walletAddress = a
  injective : ∀ {a a' r r'}, reg a = some r → reg a' = some r' → r.deviceId = r'.deviceId → a = a'

namespace Binding

/-- No wallet has a device. -/
def empty : Binding := ⟨fun _ => none, fun h => (nomatch h), fun h => (nomatch h)⟩

/-- The device is some wallet's. -/
def Claimed (β : Binding) (deviceId : String) : Prop :=
  ∃ a r, β.reg a = some r ∧ r.deviceId = deviceId

/-- A wallet loses its device. -/
def remove (β : Binding) (a : String) : Binding where
  reg := Function.update β.reg a none
  wallet_eq {b r} h := by
    by_cases hb : b = a
    · rw [hb, Function.update_self] at h
      cases h
    · rw [Function.update_of_ne hb] at h
      exact β.wallet_eq h
  injective {b b' r r'} h h' heq := by
    by_cases hb : b = a
    · rw [hb, Function.update_self] at h
      cases h
    · by_cases hb' : b' = a
      · rw [hb', Function.update_self] at h'
        cases h'
      · rw [Function.update_of_ne hb] at h
        rw [Function.update_of_ne hb'] at h'
        exact β.injective h h' heq

/-- A wallet gets a device that is nobody's. -/
def add (β : Binding) (r : DeviceRegistration) (hd : ¬ β.Claimed r.deviceId) : Binding where
  reg := Function.update β.reg r.walletAddress (some r)
  wallet_eq {b x} h := by
    by_cases hb : b = r.walletAddress
    · rw [hb, Function.update_self] at h
      rw [hb, Option.some.inj h]
    · rw [Function.update_of_ne hb] at h
      exact β.wallet_eq h
  injective {b b' x x'} h h' heq := by
    by_cases hb : b = r.walletAddress
    · rw [hb, Function.update_self] at h
      obtain rfl := Option.some.inj h
      by_cases hb' : b' = r.walletAddress
      · rw [hb, hb']
      · rw [Function.update_of_ne hb'] at h'
        exact absurd ⟨b', x', h', heq.symm⟩ hd
    · rw [Function.update_of_ne hb] at h
      by_cases hb' : b' = r.walletAddress
      · rw [hb', Function.update_self] at h'
        obtain rfl := Option.some.inj h'
        exact absurd ⟨b, x, h, heq⟩ hd
      · rw [Function.update_of_ne hb'] at h'
        exact β.injective h h' heq

@[simp] theorem reg_remove_self (β : Binding) (a : String) : (β.remove a).reg a = none :=
  Function.update_self ..

@[simp] theorem reg_remove_of_ne (β : Binding) {a b : String} (hb : b ≠ a) :
    (β.remove a).reg b = β.reg b :=
  Function.update_of_ne hb ..

@[simp] theorem reg_add_self (β : Binding) (r : DeviceRegistration) (hd : ¬ β.Claimed r.deviceId) :
    (β.add r hd).reg r.walletAddress = some r :=
  Function.update_self ..

@[simp] theorem reg_add_of_ne (β : Binding) {r : DeviceRegistration} (hd : ¬ β.Claimed r.deviceId)
    {b : String} (hb : b ≠ r.walletAddress) : (β.add r hd).reg b = β.reg b :=
  Function.update_of_ne hb ..

open Classical in
/-- A device is registered, if neither the wallet nor the device is taken. -/
noncomputable def register (β : Binding) (r : DeviceRegistration) :
    Except DeviceError Unit × Binding :=
  if (β.reg r.walletAddress).isSome then (.error (.walletTaken r.walletAddress), β)
  else if hd : β.Claimed r.deviceId then (.error (.deviceTaken r.deviceId), β)
  else (.ok (), β.add r hd)

/-- A wallet changes its device, if the old one agrees and the cooldown is over. -/
noncomputable def transfer (C : Crypto) (K : DeviceKeys) (β : Binding) (a : String)
    (signature : Bytes) (newReg : DeviceRegistration) (height : UInt64) :
    Except DeviceError Unit × Binding :=
  match β.reg a with
  | none => (.error (.noDevice a), β)
  | some oldReg =>
    if DeviceRegistry.transferValid C K oldReg newReg signature = false then
      (.error .invalidSignature, β)
    else if height < oldReg.registeredAtHeight + deviceTransferCooldown then
      (.error (.cooldown (oldReg.registeredAtHeight + deviceTransferCooldown - height)), β)
    else (β.remove a).register newReg

/-- What a call returns, and the binding after it. -/
noncomputable def step (C : Crypto) (K : DeviceKeys) (β : Binding) :
    DeviceRegistry.Call → Except DeviceError Unit × Binding
  | .register r => β.register r
  | .transferDevice a signature newReg height => β.transfer C K a signature newReg height

/-- What a sequence of calls returns, and the binding after it. -/
noncomputable def run (C : Crypto) (K : DeviceKeys) :
    Binding → List DeviceRegistry.Call → List (Except DeviceError Unit) × Binding
  | β, [] => ([], β)
  | β, c :: cs =>
    ((β.step C K c).1 :: (run C K (β.step C K c).2 cs).1, (run C K (β.step C K c).2 cs).2)

/-- Who is left when a wallet loses its device. -/
theorem exists_remove_iff {β : Binding} {a : String} {r : DeviceRegistration}
    (hr : β.reg a = some r) {d : String} {P : String → DeviceRegistration → Prop} :
    (∃ b x, (β.remove a).reg b = some x ∧ x.deviceId = d ∧ P b x) ↔
      d ≠ r.deviceId ∧ ∃ b x, β.reg b = some x ∧ x.deviceId = d ∧ P b x := by
  constructor
  · rintro ⟨b, x, hx, rfl, hP⟩
    by_cases hb : b = a
    · simp [hb] at hx
    · rw [reg_remove_of_ne _ hb] at hx
      exact ⟨fun heq => hb (β.injective hx hr heq), b, x, hx, rfl, hP⟩
  · rintro ⟨hd, b, x, hx, rfl, hP⟩
    refine ⟨b, x, ?_, rfl, hP⟩
    rw [reg_remove_of_ne]
    · exact hx
    · rintro rfl
      exact hd (congrArg _ (Option.some.inj (hx.symm.trans hr)))

theorem claimed_remove_iff {β : Binding} {a : String} {r : DeviceRegistration}
    (hr : β.reg a = some r) (d : String) :
    (β.remove a).Claimed d ↔ d ≠ r.deviceId ∧ β.Claimed d := by
  simpa [Claimed] using exists_remove_iff hr (d := d) (P := fun _ _ => True)

theorem isSome_reg_remove_iff (β : Binding) (a b : String) :
    ((β.remove a).reg b).isSome = true ↔ b ≠ a ∧ (β.reg b).isSome = true := by
  by_cases hb : b = a
  · simp [hb]
  · simp [hb]

/-- Who is there when a wallet got a device. -/
theorem exists_add_iff {β : Binding} {r : DeviceRegistration} (hw : β.reg r.walletAddress = none)
    (hd : ¬ β.Claimed r.deviceId) {d : String} {P : String → DeviceRegistration → Prop} :
    (∃ b x, (β.add r hd).reg b = some x ∧ x.deviceId = d ∧ P b x) ↔
      d = r.deviceId ∧ P r.walletAddress r ∨ ∃ b x, β.reg b = some x ∧ x.deviceId = d ∧ P b x := by
  constructor
  · rintro ⟨b, x, hx, rfl, hP⟩
    by_cases hb : b = r.walletAddress
    · rw [hb, reg_add_self] at hx
      obtain rfl := Option.some.inj hx
      exact Or.inl ⟨rfl, hb ▸ hP⟩
    · rw [reg_add_of_ne _ _ hb] at hx
      exact Or.inr ⟨b, x, hx, rfl, hP⟩
  · rintro (⟨rfl, hP⟩ | ⟨b, x, hx, rfl, hP⟩)
    · exact ⟨_, r, reg_add_self .., rfl, hP⟩
    · refine ⟨b, x, ?_, rfl, hP⟩
      rw [reg_add_of_ne]
      · exact hx
      · rintro rfl
        exact nomatch hw.symm.trans hx

end Binding

/-! ### The table is a binding -/

namespace DeviceRegistry

variable {C : Crypto} {K : DeviceKeys} {st : DeviceRegistry} {β : Binding}

/-- The table holds the binding, under its three kinds of keys. -/
structure Stores (st : DeviceRegistry) (β : Binding) : Prop where
  wallet : ∀ a, st.db.lookup (walletKey a) = (β.reg a).map fun r => .text r.deviceId
  claim : ∀ d v, st.db.lookup (claimKey d) = some v ↔
    ∃ a r, β.reg a = some r ∧ r.deviceId = d ∧ v = .text a
  device : ∀ d v, st.db.lookup (deviceKey d) = some v ↔
    ∃ a r, β.reg a = some r ∧ r.deviceId = d ∧ v = .registration r

theorem stores_empty : Stores empty .empty where
  wallet _ := rfl
  claim _ _ := by simp [empty, Binding.empty]
  device _ _ := by simp [empty, Binding.empty]

namespace Stores

theorem walletKey_mem_iff (h : Stores st β) (a : String) :
    walletKey a ∈ st.db ↔ (β.reg a).isSome = true := by
  rw [← Finmap.lookup_isSome, h.wallet, Option.isSome_map]

theorem claimKey_mem_iff (h : Stores st β) (d : String) : claimKey d ∈ st.db ↔ β.Claimed d := by
  rw [Finmap.mem_iff]
  constructor
  · rintro ⟨v, hv⟩
    obtain ⟨a, r, hr, hd, -⟩ := (h.claim d v).mp hv
    exact ⟨a, r, hr, hd⟩
  · rintro ⟨a, r, hr, hd⟩
    exact ⟨.text a, (h.claim d _).mpr ⟨a, r, hr, hd, rfl⟩⟩

/-- The three deletions. -/
theorem remove (h : Stores st β) {a : String} {r : DeviceRegistration} (hr : β.reg a = some r) :
    Stores (st.remove a r.deviceId) (β.remove a) := by
  refine ⟨fun b => ?_, fun d v => ?_, fun d v => ?_⟩
  · rw [DeviceRegistry.remove, Finmap.lookup_erase_eq, Finmap.lookup_erase_eq,
      Finmap.lookup_erase_eq, if_neg (walletKey_ne_claimKey b r.deviceId),
      if_neg (walletKey_ne_deviceKey b r.deviceId), h.wallet]
    by_cases hb : b = a
    · subst hb
      simp [Binding.remove]
    · rw [if_neg fun e => hb (walletKey_inj e)]
      simp [Binding.remove, hb]
  · rw [DeviceRegistry.remove, Finmap.lookup_erase_eq, Finmap.lookup_erase_eq,
      Finmap.lookup_erase_eq, if_neg (walletKey_ne_claimKey a d).symm,
      if_neg (claimKey_ne_deviceKey d r.deviceId), Binding.exists_remove_iff hr, ← h.claim]
    by_cases hd : d = r.deviceId
    · rw [if_pos (by rw [hd])]
      simp [hd]
    · rw [if_neg fun e => hd (claimKey_inj e)]
      simp [hd]
  · rw [DeviceRegistry.remove, Finmap.lookup_erase_eq, Finmap.lookup_erase_eq,
      Finmap.lookup_erase_eq, if_neg (walletKey_ne_deviceKey a d).symm,
      if_neg (claimKey_ne_deviceKey r.deviceId d).symm, Binding.exists_remove_iff hr, ← h.device]
    by_cases hd : d = r.deviceId
    · rw [if_pos (by rw [hd])]
      simp [hd]
    · rw [if_neg fun e => hd (deviceKey_inj e)]
      simp [hd]

theorem lookup_claimKey_eq_none (h : Stores st β) {d : String} (hd : ¬ β.Claimed d) :
    st.db.lookup (claimKey d) = none :=
  Finmap.lookup_eq_none.mpr fun hm => hd ((h.claimKey_mem_iff d).mp hm)

theorem lookup_deviceKey_eq_none (h : Stores st β) {d : String} (hd : ¬ β.Claimed d) :
    st.db.lookup (deviceKey d) = none := by
  cases hv : st.db.lookup (deviceKey d) with
  | none => rfl
  | some v =>
    obtain ⟨a, r, hr, hrd, -⟩ := (h.device d v).mp hv
    exact absurd ⟨a, r, hr, hrd⟩ hd

/-- The three writes. -/
theorem add (h : Stores st β) {r : DeviceRegistration} (hw : β.reg r.walletAddress = none)
    (hd : ¬ β.Claimed r.deviceId) : Stores (st.add r) (β.add r hd) := by
  refine ⟨fun b => ?_, fun d v => ?_, fun d v => ?_⟩
  · rw [DeviceRegistry.add, Finmap.lookup_insert_eq, Finmap.lookup_insert_eq,
      Finmap.lookup_insert_eq, if_neg (walletKey_ne_claimKey b r.deviceId),
      if_neg (walletKey_ne_deviceKey b r.deviceId), h.wallet]
    by_cases hb : b = r.walletAddress
    · rw [hb, if_pos rfl, Binding.reg_add_self, Option.map_some]
    · rw [if_neg fun e => hb (walletKey_inj e), Binding.reg_add_of_ne _ _ hb]
  · rw [DeviceRegistry.add, Finmap.lookup_insert_eq, Finmap.lookup_insert_eq,
      Finmap.lookup_insert_eq, if_neg (walletKey_ne_claimKey r.walletAddress d).symm,
      if_neg (claimKey_ne_deviceKey d r.deviceId), Binding.exists_add_iff hw hd, ← h.claim]
    by_cases hdr : d = r.deviceId
    · rw [if_pos (by rw [hdr]), hdr, h.lookup_claimKey_eq_none hd]
      simp [eq_comm]
    · rw [if_neg fun e => hdr (claimKey_inj e)]
      simp [hdr]
  · rw [DeviceRegistry.add, Finmap.lookup_insert_eq, Finmap.lookup_insert_eq,
      Finmap.lookup_insert_eq, if_neg (claimKey_ne_deviceKey r.deviceId d).symm,
      if_neg (walletKey_ne_deviceKey r.walletAddress d).symm, Binding.exists_add_iff hw hd,
      ← h.device]
    by_cases hdr : d = r.deviceId
    · rw [if_pos (by rw [hdr]), hdr, h.lookup_deviceKey_eq_none hd]
      simp [eq_comm]
    · rw [if_neg fun e => hdr (deviceKey_inj e)]
      simp [hdr]

/-- **A registration**, in the table and in the binding. -/
theorem register (h : Stores st β) (r : DeviceRegistration) :
    (st.register r).1 = (β.register r).1 ∧ Stores (st.register r).2 (β.register r).2 := by
  have hmw := h.walletKey_mem_iff r.walletAddress
  have hmd := h.claimKey_mem_iff r.deviceId
  unfold DeviceRegistry.register Binding.register
  by_cases hw : (β.reg r.walletAddress).isSome = true
  · rw [if_pos (hmw.mpr hw), if_pos hw]
    exact ⟨rfl, h⟩
  rw [if_neg (mt hmw.mp hw), if_neg hw]
  by_cases hd : β.Claimed r.deviceId
  · rw [if_pos (hmd.mpr hd), dif_pos hd]
    exact ⟨rfl, h⟩
  · rw [if_neg (mt hmd.mp hd), dif_neg hd]
    exact ⟨rfl, h.add (by simpa using hw) hd⟩

theorem getDeviceIdForWallet_eq (h : Stores st β) (a : String) :
    st.getDeviceIdForWallet a = .ok ((β.reg a).map (·.deviceId)) := by
  rw [getDeviceIdForWallet, h.wallet]
  cases β.reg a <;> rfl

theorem getByDeviceId_ok (h : Stores st β) (d : String) : ∃ x, st.getByDeviceId d = .ok x := by
  unfold getByDeviceId
  cases hv : st.db.lookup (deviceKey d) with
  | none => exact ⟨none, rfl⟩
  | some v =>
    obtain ⟨_, r, -, -, rfl⟩ := (h.device d v).mp hv
    exact ⟨some r, rfl⟩

/-- A device's registration is found under its id exactly when a wallet has it. -/
theorem getByDeviceId_eq_iff (h : Stores st β) (d : String) (r : DeviceRegistration) :
    st.getByDeviceId d = .ok (some r) ↔ β.reg r.walletAddress = some r ∧ r.deviceId = d := by
  have hlook : st.getByDeviceId d = .ok (some r) ↔
      st.db.lookup (deviceKey d) = some (.registration r) := by
    unfold getByDeviceId
    cases st.db.lookup (deviceKey d) with
    | none => simp
    | some v => cases v <;> simp
  rw [hlook, h.device]
  constructor
  · rintro ⟨a, x, hx, hd, heq⟩
    obtain rfl := DeviceValue.registration.inj heq
    exact ⟨(β.wallet_eq hx).symm ▸ hx, hd⟩
  · rintro ⟨hr, hd⟩
    exact ⟨_, r, hr, hd, rfl⟩

/-- A transfer by a wallet that has a device. -/
theorem transferDevice_eq (h : Stores st β) {a : String} {r : DeviceRegistration}
    (hr : β.reg a = some r) (signature : Bytes) (newReg : DeviceRegistration) (height : UInt64) :
    st.transferDevice C K a signature newReg height =
      if transferValid C K r newReg signature = false then (.error .invalidSignature, st)
      else if height < r.registeredAtHeight + deviceTransferCooldown then
        (.error (.cooldown (r.registeredAtHeight + deviceTransferCooldown - height)), st)
      else (st.remove a r.deviceId).register newReg := by
  have hget : st.getByDeviceId r.deviceId = .ok (some r) :=
    (h.getByDeviceId_eq_iff _ r).mpr ⟨β.wallet_eq hr ▸ hr, rfl⟩
  rw [DeviceRegistry.transferDevice, h.getDeviceIdForWallet_eq, hr]
  simp only [Option.map_some, hget]

/-- A transfer by a wallet that has none. -/
theorem transferDevice_of_none (h : Stores st β) {a : String} (hr : β.reg a = none)
    (signature : Bytes) (newReg : DeviceRegistration) (height : UInt64) :
    st.transferDevice C K a signature newReg height = (.error (.noDevice a), st) := by
  rw [DeviceRegistry.transferDevice, h.getDeviceIdForWallet_eq, hr]
  rfl

/-- **A transfer**, in the table and in the binding. -/
theorem transferDevice (h : Stores st β) (a : String) (signature : Bytes)
    (newReg : DeviceRegistration) (height : UInt64) :
    (st.transferDevice C K a signature newReg height).1 =
        (β.transfer C K a signature newReg height).1
      ∧ Stores (st.transferDevice C K a signature newReg height).2
        (β.transfer C K a signature newReg height).2 := by
  unfold Binding.transfer
  cases hr : β.reg a with
  | none =>
    rw [h.transferDevice_of_none hr]
    exact ⟨rfl, h⟩
  | some r =>
    rw [h.transferDevice_eq hr]
    simp only
    split
    · exact ⟨rfl, h⟩
    split
    · exact ⟨rfl, h⟩
    · exact (h.remove hr).register newReg

theorem step (h : Stores st β) (c : Call) :
    (st.step C K c).1 = (β.step C K c).1 ∧ Stores (st.step C K c).2 (β.step C K c).2 := by
  cases c with
  | register r => exact h.register r
  | transferDevice a signature newReg height => exact h.transferDevice a signature newReg height

theorem run (cs : List Call) : ∀ {st : DeviceRegistry} {β : Binding}, Stores st β →
    (st.run C K cs).1 = (β.run C K cs).1 ∧ Stores (st.run C K cs).2 (β.run C K cs).2 := by
  induction cs with
  | nil => exact fun h => ⟨rfl, h⟩
  | cons c cs ih =>
    intro st β h
    obtain ⟨hret, hnext⟩ := h.step (C := C) (K := K) c
    obtain ⟨hrets, hend⟩ := ih hnext
    exact ⟨by rw [DeviceRegistry.run, Binding.run, hret, hrets], hend⟩

end Stores

/-! ### Runs of the registry -/

/-- The binding at the end of a run from an empty registry. -/
theorem stores_run (C : Crypto) (K : DeviceKeys) (cs : List Call) :
    Stores (empty.run C K cs).2 (Binding.empty.run C K cs).2 :=
  (stores_empty.run cs).2

/-- **One wallet, one device.** After every sequence of calls the registry has returned what a map
from wallets to devices would have. Its table holds that map under the three kinds of keys, and its
two readers report it: neither of them fails, wallets read their own device, a device reads the
registration of its one wallet. -/
theorem one_to_one (C : Crypto) (K : DeviceKeys) (cs : List Call) :
    (empty.run C K cs).1 = (Binding.empty.run C K cs).1 ∧
      Stores (empty.run C K cs).2 (Binding.empty.run C K cs).2 ∧
      (∀ a, (empty.run C K cs).2.getDeviceIdForWallet a =
        .ok (((Binding.empty.run C K cs).2.reg a).map (·.deviceId))) ∧
      (∀ d, ∃ x, (empty.run C K cs).2.getByDeviceId d = .ok x ∧
        ∀ r, x = some r ↔
          (Binding.empty.run C K cs).2.reg r.walletAddress = some r ∧ r.deviceId = d) := by
  have h := stores_run C K cs
  refine ⟨(stores_empty.run cs).1, h, h.getDeviceIdForWallet_eq, fun d => ?_⟩
  obtain ⟨x, hx⟩ := h.getByDeviceId_ok d
  refine ⟨x, hx, fun r => ?_⟩
  rw [← h.getByDeviceId_eq_iff, hx, Except.ok.injEq]

end DeviceRegistry

namespace Binding

variable {C : Crypto} {K : DeviceKeys} {β : Binding} {a : String} {r : DeviceRegistration}

/-- A registration is not lost by other registrations. -/
theorem reg_register (hr : β.reg a = some r) (r' : DeviceRegistration) :
    (β.register r').2.reg a = some r := by
  unfold register
  split
  · exact hr
  split
  · exact hr
  · next hw _ =>
    have hne : a ≠ r'.walletAddress := by
      rintro rfl
      exact hw (by rw [hr]; rfl)
    rw [reg_add_of_ne _ _ hne, hr]

/-- **One call.** A registration that is no longer there after a call was changed by its wallet,
with the signature of its key, after its cooldown. -/
theorem authorised_of_step {c : DeviceRegistry.Call} (hr : β.reg a = some r)
    (hlost : (β.step C K c).2.reg a ≠ some r) :
    ∃ signature newReg height, c = .transferDevice a signature newReg height ∧
      DeviceRegistry.transferValid C K r newReg signature = true ∧
      r.registeredAtHeight + deviceTransferCooldown ≤ height := by
  cases c with
  | register r' => exact absurd (reg_register hr r') hlost
  | transferDevice a' signature newReg height =>
    simp only [step, transfer] at hlost
    cases hr' : β.reg a' with
    | none =>
      rw [hr'] at hlost
      exact absurd hr hlost
    | some old =>
      simp only [hr'] at hlost
      split at hlost
      · exact absurd hr hlost
      split at hlost
      · exact absurd hr hlost
      next hvalid hheight =>
      by_cases ha : a = a'
      · subst ha
        obtain rfl := Option.some.inj (hr.symm.trans hr')
        exact ⟨signature, newReg, height, rfl, by simpa using hvalid, UInt64.not_lt.mp hheight⟩
      · refine absurd (reg_register ?_ newReg) hlost
        rw [reg_remove_of_ne _ ha, hr]

/-- **Many calls.** -/
theorem authorised_of_run (cs : List DeviceRegistry.Call) : ∀ {β : Binding}, β.reg a = some r →
    (β.run C K cs).2.reg a ≠ some r →
    ∃ signature newReg height, .transferDevice a signature newReg height ∈ cs ∧
      DeviceRegistry.transferValid C K r newReg signature = true ∧
      r.registeredAtHeight + deviceTransferCooldown ≤ height := by
  induction cs with
  | nil => exact fun hr hlost => absurd hr hlost
  | cons c cs ih =>
    intro β hr hlost
    by_cases hkept : (β.step C K c).2.reg a = some r
    · obtain ⟨signature, newReg, height, hmem, h⟩ := ih hkept hlost
      exact ⟨signature, newReg, height, List.mem_cons_of_mem _ hmem, h⟩
    · obtain ⟨signature, newReg, height, rfl, h⟩ := authorised_of_step hr hkept
      exact ⟨signature, newReg, height, List.mem_cons_self, h⟩

theorem run_append (C : Crypto) (K : DeviceKeys) (cs cs' : List DeviceRegistry.Call) :
    ∀ β : Binding, (β.run C K (cs ++ cs')).2 = ((β.run C K cs).2.run C K cs').2 := by
  induction cs with
  | nil => exact fun _ => rfl
  | cons c cs ih => exact fun β => ih _

end Binding

namespace DeviceRegistry

/-- **Nobody else changes a wallet's device.** A registration that is found at one moment of
a run and not at a later one was given up between the two by its own wallet, in a transfer
that its own key signed for the new device's id and that came at least
`deviceTransferCooldown` blocks after it. -/
theorem rebinding_authorised (C : Crypto) (K : DeviceKeys) (cs cs' : List Call)
    (r : DeviceRegistration) (hbound : (empty.run C K cs).2.getByDeviceId r.deviceId = .ok (some r))
    (hlost : (empty.run C K (cs ++ cs')).2.getByDeviceId r.deviceId ≠ .ok (some r)) :
    ∃ signature newReg height, .transferDevice r.walletAddress signature newReg height ∈ cs' ∧
      transferValid C K r newReg signature = true ∧
      r.registeredAtHeight + deviceTransferCooldown ≤ height := by
  rw [(stores_run C K cs).getByDeviceId_eq_iff] at hbound
  refine Binding.authorised_of_run cs' hbound.1 fun hkept => hlost ?_
  rw [(stores_run C K _).getByDeviceId_eq_iff, Binding.run_append]
  exact ⟨hkept, rfl⟩

/-- Keys whose signature is the key before the hash. -/
def sampleKeys : DeviceKeys where
  verifyRaw key hash signature := signature == key ++ hash.toList
  verifyP256Der key hash signature := signature == key ++ hash.toList

/-- The phone of a wallet. -/
def samplePhone (b : UInt8) (height : UInt64) : DeviceRegistration :=
  .new Crypto.sample "ark1" (List.replicate 33 b) .android [] height

/-- Its signature for another phone's id. -/
def samplePhoneSignature (b : UInt8) (reg : DeviceRegistration) : Bytes :=
  List.replicate 33 b ++ (Crypto.sample.hash256 (utf8 reg.deviceId)).toList

/-- A phone is replaced, a hundred blocks after it was registered. -/
theorem rebinding_authorised_phoneUpgrade :
    ∃ signature newReg height, Call.transferDevice "ark1" signature newReg height ∈
        [Call.transferDevice "ark1" (samplePhoneSignature 2 (samplePhone 3 105)) (samplePhone 3 105)
          105] ∧
      transferValid Crypto.sample sampleKeys (samplePhone 2 5) newReg signature = true ∧
      (5 : UInt64) + deviceTransferCooldown ≤ height :=
  rebinding_authorised Crypto.sample sampleKeys [.register (samplePhone 2 5)] _ (samplePhone 2 5)
    (by decide +kernel) (by decide +kernel)

/-! ### Transfers that fail -/

theorem snd_register_of_error {st : DeviceRegistry} {r : DeviceRegistration} {e : DeviceError}
    (h : (st.register r).1 = .error e) : (st.register r).2 = st := by
  unfold register at h ⊢
  split
  · rfl
  split
  · rfl
  · next hw hd =>
    rw [if_neg hw, if_neg hd] at h
    cases h

theorem Stores.register_error_iff {st : DeviceRegistry} {β : Binding} (h : Stores st β)
    (r : DeviceRegistration) : (∃ e, (st.register r).1 = .error e) ↔
      (β.reg r.walletAddress).isSome = true ∨ β.Claimed r.deviceId := by
  rw [← h.walletKey_mem_iff, ← h.claimKey_mem_iff]
  unfold DeviceRegistry.register
  split
  · next hw => exact ⟨fun _ => Or.inl hw, fun _ => ⟨_, rfl⟩⟩
  split
  · next hd => exact ⟨fun _ => Or.inr hd, fun _ => ⟨_, rfl⟩⟩
  · next hw hd =>
    constructor
    · rintro ⟨e, he⟩
      cases he
    · rintro (h' | h')
      · exact absurd h' hw
      · exact absurd h' hd

theorem Stores.remove_ne {st : DeviceRegistry} {β : Binding} (h : Stores st β) {a d : String}
    {r : DeviceRegistration} (hr : β.reg a = some r) : st.remove a d ≠ st := by
  intro heq
  have hlook := congrArg (fun st => st.db.lookup (walletKey a)) heq
  simp only [DeviceRegistry.remove, Finmap.lookup_erase, h.wallet, hr] at hlook
  cases hlook

/-- **The deletions are not taken back.** A transfer that fails has changed the registry in exactly
one kind of case: the old device agreed, the cooldown was over, and the new registration names
another wallet that has a device or another device that is some wallet's. The registry is then left
without the old device. -/
theorem failed_transfer_iff (C : Crypto) (K : DeviceKeys) (cs : List Call) (a : String)
    (signature : Bytes) (newReg : DeviceRegistration) (height : UInt64) :
    let st := (empty.run C K cs).2
    let out := st.transferDevice C K a signature newReg height
    (∃ e, out.1 = .error e) ∧ out.2 ≠ st ↔
      ∃ d r, st.getDeviceIdForWallet a = .ok (some d) ∧ st.getByDeviceId d = .ok (some r) ∧
        transferValid C K r newReg signature = true ∧
        r.registeredAtHeight + deviceTransferCooldown ≤ height ∧
        (newReg.walletAddress ≠ a ∧
            (∃ d', st.getDeviceIdForWallet newReg.walletAddress = .ok (some d')) ∨
          newReg.deviceId ≠ d ∧ ∃ r', st.getByDeviceId newReg.deviceId = .ok (some r')) ∧
        out.2 = st.remove a d := by
  intro st out
  have h : Stores st (Binding.empty.run C K cs).2 := stores_run C K cs
  generalize (Binding.empty.run C K cs).2 = β at h
  have hwallet : ∀ b, (∃ d', st.getDeviceIdForWallet b = .ok (some d')) ↔
      (β.reg b).isSome = true := by
    intro b
    rw [h.getDeviceIdForWallet_eq]
    cases β.reg b <;> simp
  have hdevice : ∀ d, (∃ r', st.getByDeviceId d = .ok (some r')) ↔ β.Claimed d := by
    intro d
    constructor
    · rintro ⟨r', hr'⟩
      exact ⟨_, r', (h.getByDeviceId_eq_iff d r').mp hr'⟩
    · rintro ⟨b, r', hr', hd⟩
      exact ⟨r', (h.getByDeviceId_eq_iff d r').mpr ⟨β.wallet_eq hr' ▸ hr', hd⟩⟩
  simp only [hwallet, hdevice]
  -- after the deletions the registration fails on what is left
  have hfails : ∀ r, β.reg a = some r →
      ((∃ e, ((st.remove a r.deviceId).register newReg).1 = .error e) ↔
        newReg.walletAddress ≠ a ∧ (β.reg newReg.walletAddress).isSome = true ∨
          newReg.deviceId ≠ r.deviceId ∧ β.Claimed newReg.deviceId) := by
    intro r hr
    rw [(h.remove hr).register_error_iff, Binding.isSome_reg_remove_iff,
      Binding.claimed_remove_iff hr]
  constructor
  · rintro ⟨⟨e, he⟩, hne⟩
    cases hr : β.reg a with
    | none => exact absurd (congrArg Prod.snd (h.transferDevice_of_none hr ..)) hne
    | some r =>
      have hout : out = _ := h.transferDevice_eq hr signature newReg height
      split at hout
      · exact absurd (congrArg Prod.snd hout) hne
      split at hout
      · exact absurd (congrArg Prod.snd hout) hne
      next hvalid hheight =>
      rw [hout] at he
      refine ⟨r.deviceId, r, ?_, (h.getByDeviceId_eq_iff _ r).mpr ⟨β.wallet_eq hr ▸ hr, rfl⟩,
        by simpa using hvalid, UInt64.not_lt.mp hheight, (hfails r hr).mp ⟨e, he⟩, ?_⟩
      · rw [h.getDeviceIdForWallet_eq, hr, Option.map_some]
      · rw [hout, snd_register_of_error he]
  · rintro ⟨d, r, hwr, hdr, hvalid, hheight, hcollides, hend⟩
    obtain ⟨hr, rfl⟩ := (h.getByDeviceId_eq_iff d r).mp hdr
    -- the wallet that has the device is the caller
    obtain ⟨r', hr', hrr'⟩ : ∃ r', β.reg a = some r' ∧ r'.deviceId = r.deviceId := by
      rw [h.getDeviceIdForWallet_eq, Except.ok.injEq, Option.map_eq_some_iff] at hwr
      exact hwr
    obtain rfl := β.injective hr hr' hrr'.symm
    refine ⟨?_, by rw [hend]; exact h.remove_ne hr⟩
    have hout : out = _ := h.transferDevice_eq hr signature newReg height
    rw [if_neg (by simp [hvalid]), if_neg (UInt64.not_lt.mpr hheight)] at hout
    rw [hout]
    exact (hfails r hr).mpr hcollides

end DeviceRegistry

end Arkos
