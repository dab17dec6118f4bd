import Arkos.Transaction.Utxo

/-!
# Blocks, proof of work and the Merkle root

A block is a header, its transactions and its height; only the header is hashed. `Block.validate`
checks everything that can be checked without a chain: the parent link, the proof of work, four
size limits, the leading coinbase and the Merkle root.

The proof-of-work search has no bound in the source. `mineBlockHeader` runs it for a number of
steps and gives `none` when they do not suffice, so that "the search ends" is the statement that
some number of steps does.

## Main definitions

* `BlockHeader`, `BlockHeader.powBytes`, `BlockHeader.meetsTarget`, `mineBlockHeader`
* `Block`, `Block.hashHex`, `Block.blockReward`, `Block.validate`
* `merkleLevel`, `merkleRoot`
* `genesisBlockWithBits`
* `Separated` — no two of the given blocks share a hash

## Main results

* `Block.validate_eq_ok_iff` — the conditions behind an accepted block
* `mineBlockHeader_spec` — what a search that ended returns
-/

namespace Arkos

/-- `MAX_BLOCK_TRANSACTIONS`. -/
def maxBlockTransactions : ℕ := 10000

/-- `MAX_BLOCK_BYTES`. -/
def maxBlockBytes : ℕ := 4 * 1024 * 1024

/-- `MAX_BLOCK_UTXO_OPS`. -/
def maxBlockUtxoOps : ℕ := 50000

/-- `BLOCK_REWARD_INITIAL`. -/
def blockRewardInitial : ℕ := 32188184932

/-- `HALVING_INTERVAL`. -/
def halvingInterval : ℕ := 488004

/-- `ARKES_PER_ARKOS`. -/
def arkesPerArkos : ℕ := 1000000000

/-- `MAX_SUPPLY_ARKOS`. -/
def maxSupplyArkos : ℕ := 31415926

/-- `MAX_SUPPLY_ARKES`. -/
def maxSupplyArkes : ℕ := maxSupplyArkos * arkesPerArkos

/-- `MAINNET_GENESIS_BITS`. -/
def mainnetGenesisBits : UInt32 := 0x1d00ffff

/-- `TESTNET_GENESIS_BITS`. -/
def testnetGenesisBits : UInt32 := 0x1e0fffff

/-- `REGTEST_GENESIS_BITS`. -/
def regtestGenesisBits : UInt32 := 0x207fffff

/-! ### Headers and proof of work -/

/-- `BlockHeader`. -/
@[ext]
structure BlockHeader where
  version : UInt32
  prevHash : String
  merkleRoot : String
  timestamp : UInt64
  bits : UInt32
  nonce : UInt64
  deriving DecidableEq, Repr

/-- `hex_32_or_bytes`: 32 bytes spelled in hexadecimal, or else the first 32 bytes of the text. -/
def hex32OrBytes (value : String) : Bytes :=
  match hexDecode (utf8 value) with
  | some out =>
    if out.length = 32 then out
    else (utf8 value).take 32 ++ List.replicate (32 - (utf8 value).length) 0
  | none => (utf8 value).take 32 ++ List.replicate (32 - (utf8 value).length) 0

@[simp] theorem length_hex32OrBytes (value : String) : (hex32OrBytes value).length = 32 := by
  have hpad :
      ((utf8 value).take 32 ++ List.replicate (32 - (utf8 value).length) 0).length = 32 := by
    rw [List.length_append, List.length_take, List.length_replicate]
    omega
  unfold hex32OrBytes
  split
  · split
    · next h => exact h
    · exact hpad
  · exact hpad

theorem hex32OrBytes_hashToHex (h : Hash) : hex32OrBytes (hashToHex h) = h.toList := by
  rw [hex32OrBytes, hashToHex, hexDecode_hexEncode]
  exact if_pos h.toList_length

/-- `BlockHeader::pow_bytes`. -/
def BlockHeader.powBytes (h : BlockHeader) : Bytes :=
  leBytes 4 h.version.toNat ++ (hex32OrBytes h.prevHash ++ (hex32OrBytes h.merkleRoot ++
    (leBytes 8 h.timestamp.toNat ++ (leBytes 4 h.bits.toNat ++ (leBytes 8 h.nonce.toNat ++ [0])))))

/-- `bits_to_target`: the compact form `exp, mantissa` written out as 32 bytes, big-endian. A byte
that would fall off the end is dropped. -/
def bitsToTarget (bits : UInt32) : Bytes :=
  let exp := bits.toNat / 2 ^ 24
  let mantissa := bits.toNat % 2 ^ 24
  let zeros : Bytes := List.replicate 32 0
  if 1 ≤ exp ∧ exp ≤ 32 then
    let start := 32 - exp
    let target := zeros.set start (UInt8.ofNat (mantissa / 65536))
    let target := if start + 1 < 32 then target.set (start + 1) (UInt8.ofNat (mantissa / 256))
      else target
    if start + 2 < 32 then target.set (start + 2) (UInt8.ofNat mantissa) else target
  else zeros

/-- `hash_le_target`: bytewise comparison from the most significant byte. -/
def hashLeTarget : Bytes → Bytes → Bool
  | h :: hs, t :: ts => if h < t then true else if t < h then false else hashLeTarget hs ts
  | _, _ => true

section

variable (C : Crypto)

/-- `BlockHeader::hash`. -/
def BlockHeader.hash (h : BlockHeader) : Hash := C.hash256 h.powBytes

/-- `BlockHeader::hash_hex`. -/
def BlockHeader.hashHex (h : BlockHeader) : String := hashToHex (h.hash C)

/-- `BlockHeader::meets_target`. -/
def BlockHeader.meetsTarget (h : BlockHeader) : Bool :=
  hashLeTarget (h.hash C).toList (bitsToTarget h.bits)

/-- One turn of the search: the next nonce, and a later timestamp when the nonces are used up. -/
def BlockHeader.nextAttempt (h : BlockHeader) : BlockHeader :=
  let nonce := h.nonce + 1
  { h with nonce, timestamp := if nonce = 0 then h.timestamp + 1 else h.timestamp }

/-- `mine_block_header`, run for at most `fuel` attempts. -/
def mineBlockHeader : ℕ → BlockHeader → Option BlockHeader
  | 0, _ => none
  | fuel + 1, h => if h.meetsTarget C then some h else mineBlockHeader fuel h.nextAttempt

end

/-- A search that ended returns a header that meets the target and differs from the first attempt
in nonce and timestamp only. -/
theorem mineBlockHeader_spec {C : Crypto} {fuel : ℕ} {h h' : BlockHeader}
    (hm : mineBlockHeader C fuel h = some h') :
    h'.meetsTarget C = true ∧ h'.version = h.version ∧ h'.prevHash = h.prevHash ∧
      h'.merkleRoot = h.merkleRoot ∧ h'.bits = h.bits := by
  induction fuel generalizing h with
  | zero => cases hm
  | succ fuel ih =>
    rw [mineBlockHeader] at hm
    split at hm
    · next hmeets =>
      cases hm
      exact ⟨hmeets, rfl, rfl, rfl, rfl⟩
    · have hrest := ih hm
      exact hrest

/-- A search that ends before the nonces are used up changes nothing but the nonce. -/
theorem mineBlockHeader_eq_some {C : Crypto} {fuel : ℕ} {h h' : BlockHeader}
    (hfuel : h.nonce.toNat + fuel ≤ 2 ^ 64) (hm : mineBlockHeader C fuel h = some h') :
    ∃ nonce, h' = { h with nonce } := by
  induction fuel generalizing h with
  | zero => cases hm
  | succ fuel ih =>
    rw [mineBlockHeader] at hm
    split at hm
    · cases hm
      exact ⟨_, rfl⟩
    · cases fuel with
      | zero => cases hm
      | succ fuel =>
        have hnext : (h.nonce + 1).toNat = h.nonce.toNat + 1 := by
          rw [UInt64.toNat_add, UInt64.toNat_one, Nat.mod_eq_of_lt (by omega)]
        have hne : h.nonce + 1 ≠ 0 := fun heq => by
          rw [heq] at hnext
          simp at hnext
        have hattempt : h.nextAttempt = { h with nonce := h.nonce + 1 } := by
          simp [BlockHeader.nextAttempt, hne]
        rw [hattempt] at hm
        have hfuel' : (h.nonce + 1).toNat + (fuel + 1) ≤ 2 ^ 64 := by omega
        obtain ⟨nonce, rfl⟩ := ih hfuel' hm
        exact ⟨nonce, rfl⟩

/-! ### Merkle root -/

section

variable (C : Crypto)

/-- An odd level is completed with a commitment to its length. -/
def merklePad (hashes : List Hash) : List Hash :=
  if hashes.length % 2 ≠ 0 then hashes ++ [C.hash256 (leBytes 8 hashes.length)] else hashes

/-- Hash neighbours in pairs. -/
def merklePairs : List Hash → List Hash
  | a :: b :: rest => C.hash256 (a.toList ++ b.toList) :: merklePairs rest
  | _ => []

/-- One turn of the loop of `merkle_root`. -/
def merkleLevel (hashes : List Hash) : List Hash := merklePairs C (merklePad C hashes)

/-- The loop of `merkle_root`: it halves the list until one hash is left, so as many turns as there
are hashes are more than enough. -/
def merkleLoop : ℕ → List Hash → List Hash
  | 0, hashes => hashes
  | fuel + 1, hashes =>
    if 1 < hashes.length then merkleLoop fuel (merkleLevel C hashes) else hashes

/-- `merkle_root`. -/
def merkleRoot (txs : List Transaction) : String :=
  match merkleLoop C txs.length (txs.map (Transaction.txid C)) with
  | [] => zeroHashHex
  | h :: _ => hashToHex h

end

/-! ### Blocks -/

/-- `Block`. Heights are kept as natural numbers: they start at zero and grow by one per block. -/
@[ext]
structure Block where
  header : BlockHeader
  transactions : List Transaction
  height : ℕ
  deriving DecidableEq, Repr

/-- The `bincode` layout of a header. -/
def BlockHeader.encode (h : BlockHeader) : Bytes :=
  leBytes 4 h.version.toNat ++ encBytes (utf8 h.prevHash) ++ encBytes (utf8 h.merkleRoot) ++
    leBytes 8 h.timestamp.toNat ++ leBytes 4 h.bits.toNat ++ leBytes 8 h.nonce.toNat

/-- The `bincode` layout of a block. -/
def Block.encode (b : Block) : Bytes :=
  b.header.encode ++ encList Transaction.encode b.transactions ++ leBytes 8 b.height

/-- `bincode::serialized_size` of a block. -/
def Block.serializedSize (b : Block) : ℕ := b.encode.length

/-- A header that spells two hashes makes a block take 184 bytes more than its transactions. -/
theorem Block.serializedSize_eq {b : Block} (hprev : (utf8 b.header.prevHash).length = 64)
    (hroot : (utf8 b.header.merkleRoot).length = 64) :
    b.serializedSize = 184 + (b.transactions.map Transaction.serializedSize).sum := by
  simp only [Block.serializedSize, Block.encode, BlockHeader.encode, List.length_append,
    length_leBytes, length_encBytes, length_encList, hprev, hroot]
  show _ + (8 + (b.transactions.map Transaction.serializedSize).sum) + 8 = _
  omega

/-- Inputs and outputs of all transactions together. -/
def Block.utxoOps (b : Block) : ℕ :=
  (b.transactions.map fun tx => tx.inputs.length + tx.outputs.length).sum

/-- `Block::block_reward`. -/
def Block.blockReward (height : ℕ) : ℕ :=
  let halvings := height / halvingInterval
  if 64 ≤ halvings then 0 else blockRewardInitial / 2 ^ halvings

/-- `Block::hash_hex`. -/
def Block.hashHex (C : Crypto) (b : Block) : String := b.header.hashHex C

/-- Why a block is rejected without looking at the chain. -/
inductive BlockError where
  | prevHashMismatch
  | targetNotMet
  | noTransactions
  | tooManyTransactions (count : ℕ)
  | tooManyBytes (bytes : ℕ)
  | tooManyUtxoOps (ops : ℕ)
  | firstNotCoinbase
  | merkleRootMismatch
  deriving DecidableEq, Repr

/-- The text of the error. -/
def BlockError.message : BlockError → String
  | .prevHashMismatch => "block prev_hash mismatch"
  | .targetNotMet => "block hash does not meet difficulty target"
  | .noTransactions => "block has no transactions"
  | .tooManyTransactions count =>
    "block has " ++ toString count ++ " transactions, exceeding limit of " ++
      toString maxBlockTransactions
  | .tooManyBytes bytes =>
    "block is " ++ toString bytes ++ " bytes, exceeding limit of " ++ toString maxBlockBytes ++
      " bytes"
  | .tooManyUtxoOps ops =>
    "block has " ++ toString ops ++ " UTXO operations (inputs + outputs), exceeding limit of " ++
      toString maxBlockUtxoOps
  | .firstNotCoinbase => "first transaction must be coinbase"
  | .merkleRootMismatch => "block merkle root mismatch"

/-- `Block::validate`. -/
def Block.validate (C : Crypto) (b : Block) (prevHash : String) : Except BlockError Unit :=
  if b.header.prevHash ≠ prevHash then .error .prevHashMismatch
  else if b.header.meetsTarget C = false then .error .targetNotMet
  else if b.transactions = [] then .error .noTransactions
  else if maxBlockTransactions < b.transactions.length then
    .error (.tooManyTransactions b.transactions.length)
  else if maxBlockBytes < b.serializedSize then .error (.tooManyBytes b.serializedSize)
  else if maxBlockUtxoOps < b.utxoOps then .error (.tooManyUtxoOps b.utxoOps)
  else if b.transactions.head?.any Transaction.isCoinbase = false then .error .firstNotCoinbase
  else if Arkos.merkleRoot C b.transactions ≠ b.header.merkleRoot then .error .merkleRootMismatch
  else .ok ()

/-- What an accepted block satisfies. -/
structure Block.WellFormed (C : Crypto) (b : Block) (prevHash : String) : Prop where
  prevHash_eq : b.header.prevHash = prevHash
  meetsTarget : b.header.meetsTarget C = true
  length_le : b.transactions.length ≤ maxBlockTransactions
  size_le : b.serializedSize ≤ maxBlockBytes
  ops_le : b.utxoOps ≤ maxBlockUtxoOps
  coinbase : ∃ cb rest, b.transactions = cb :: rest ∧ cb.isCoinbase = true
  merkleRoot_eq : Arkos.merkleRoot C b.transactions = b.header.merkleRoot

theorem Block.validate_eq_ok_iff {C : Crypto} {b : Block} {prevHash : String} :
    b.validate C prevHash = .ok () ↔ b.WellFormed C prevHash := by
  constructor
  · intro h
    unfold Block.validate at h
    repeat' split at h
    all_goals try cases h
    rename_i h₁ h₂ h₃ h₄ h₅ h₆ h₇ h₈
    refine ⟨by simpa using h₁, by simpa using h₂, by omega, by omega, by omega, ?_,
      by simpa using h₈⟩
    rcases hb : b.transactions with _ | ⟨cb, rest⟩
    · exact absurd hb h₃
    · exact ⟨cb, rest, rfl, by simpa [hb] using h₇⟩
  · rintro ⟨h₁, h₂, h₃, h₄, h₅, ⟨cb, rest, hb, hcb⟩, h₇⟩
    unfold Block.validate
    rw [if_neg (by simpa using h₁), if_neg (by simp [h₂]), if_neg (by simp [hb]),
      if_neg (by omega), if_neg (by omega), if_neg (by omega), if_neg (by simp [hb, hcb]),
      if_neg (by simpa using h₇)]

/-- No two of the given blocks share a hash. -/
def Separated (C : Crypto) (hist : List Block) : Prop :=
  ∀ b ∈ hist, ∀ b' ∈ hist, b.hashHex C = b'.hashHex C → b = b'

theorem Separated.mono {C : Crypto} {hist hist' : List Block} (h : Separated C hist')
    (hsub : ∀ b ∈ hist, b ∈ hist') : Separated C hist :=
  fun b hb b' hb' => h b (hsub b hb) b' (hsub b' hb')

theorem Separated.append_singleton {C : Crypto} {hist : List Block} (h : Separated C hist)
    {b : Block} (hb : ∀ x ∈ hist, x.hashHex C ≠ b.hashHex C) : Separated C (hist ++ [b]) := by
  intro x hx y hy heq
  rcases List.mem_append.mp hx with hx | hx <;> rcases List.mem_append.mp hy with hy | hy
  · exact h x hx y hy heq
  · exact absurd (List.mem_singleton.mp hy ▸ heq) (hb x hx)
  · exact absurd (List.mem_singleton.mp hx ▸ heq.symm) (hb y hy)
  · rw [List.mem_singleton.mp hx, List.mem_singleton.mp hy]

/-! ### The genesis blocks -/

/-- The header a genesis search starts from. -/
def genesisHeader (C : Crypto) (txs : List Transaction) (bits : UInt32) : BlockHeader where
  version := 1
  prevHash := zeroHashHex
  merkleRoot := merkleRoot C txs
  timestamp := 1700000000
  bits := bits
  nonce := 0

/-- The only transaction of a genesis block, paid to the burn address. -/
def genesisCoinbase : Transaction :=
  Transaction.coinbase "0000000000000000000000000000000000000000"
    (UInt64.ofNat (Block.blockReward 0)) 0

/-- `genesis_block_with_bits`, with a bound on the proof-of-work search. -/
def genesisBlockWithBits (C : Crypto) (fuel : ℕ) (bits : UInt32) : Option Block :=
  (mineBlockHeader C fuel (genesisHeader C [genesisCoinbase] bits)).map fun header =>
    { header, transactions := [genesisCoinbase], height := 0 }

theorem genesisBlockWithBits_spec {C : Crypto} {fuel : ℕ} {bits : UInt32} {g : Block}
    (h : genesisBlockWithBits C fuel bits = some g) :
    g.height = 0 ∧ g.transactions = [genesisCoinbase] := by
  obtain ⟨header, -, rfl⟩ := Option.map_eq_some_iff.mp h
  exact ⟨rfl, rfl⟩

end Arkos
