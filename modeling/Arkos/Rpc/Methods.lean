import Arkos.Blockchain.Chain

/-!
# Mining over RPC

A miner asks for a template, searches a nonce and hands the header back. The node keeps nothing in
between: `submit_block` rebuilds the transactions from its own mempool and recognises the template
by the Merkle root.

The handlers lock the chain, so each is one step from a chain state to a chain state. As in
`mine_block`, the iteration order of the mempool and the clock are arguments.

## Main definitions

* `getBlockTemplate`, `submitBlock`
* `BlockTemplateResponse.toParams` — what a miner sends back

## Main results

* `submitBlock_accepted_iff`
-/

namespace Arkos

namespace Rpc

/-- `BlockTemplateResponse`. -/
structure BlockTemplateResponse where
  version : UInt32
  prevHash : String
  merkleRoot : String
  timestamp : UInt64
  bits : UInt32
  targetHex : String
  /-- The height of the tip; the new block is one higher. -/
  height : ℕ
  rewardArkes : UInt64
  txCount : ℕ
  deriving DecidableEq, Repr

/-- `SubmitBlockParams`. -/
structure SubmitBlockParams where
  version : UInt32
  prevHash : String
  merkleRoot : String
  timestamp : UInt64
  bits : UInt32
  nonce : UInt64
  walletAddress : String
  height : ℕ
  deriving DecidableEq, Repr

/-- `SubmitBlockResponse`. -/
structure SubmitBlockResponse where
  accepted : Bool
  blockHash : String
  error : Option String
  deriving DecidableEq, Repr

/-- A template with a nonce and the address it was asked for. -/
def BlockTemplateResponse.toParams (t : BlockTemplateResponse) (walletAddress : String)
    (nonce : UInt64) : SubmitBlockParams :=
  ⟨t.version, t.prevHash, t.merkleRoot, t.timestamp, t.bits, nonce, walletAddress, t.height⟩

/-- The header `submit_block` starts with. -/
def SubmitBlockParams.header (p : SubmitBlockParams) : BlockHeader :=
  ⟨p.version, p.prevHash, p.merkleRoot, p.timestamp, p.bits, p.nonce⟩

/-- The transactions of a template for a block of the given height: a coinbase without fees, then
the mempool in fee-rate order. Both handlers build them. -/
def templateTransactions (s : Blockchain) (order : List (String × Transaction))
    (walletAddress : String) (height : ℕ) : List Transaction :=
  Transaction.coinbase walletAddress (UInt64.ofNat (s.cappedBlockReward height)) height ::
    s.mempool.peek order 500

/-- The block `submit_block` hands to the chain. -/
def submittedBlock (s : Blockchain) (order : List (String × Transaction))
    (params : SubmitBlockParams) : Block where
  header := params.header
  transactions := templateTransactions s order params.walletAddress (params.height + 1)
  height := params.height + 1

section

variable (C : Crypto)

/-- `get_block_template`. -/
def getBlockTemplate (now : ℕ) (s : Blockchain) (order : List (String × Transaction))
    (walletAddress : String) : BlockTemplateResponse :=
  let height := s.tip.height + 1
  { version := 1
    prevHash := s.tip.hashHex C
    merkleRoot := merkleRoot C (templateTransactions s order walletAddress height)
    timestamp := UInt64.ofNat (s.nextBlockTimestamp now)
    bits := s.nextBits
    targetHex := hexEncode (bitsToTarget s.nextBits)
    height := s.tip.height
    rewardArkes := UInt64.ofNat (s.cappedBlockReward height)
    txCount := (s.mempool.peek order 500).length + 1 }

/-- `submit_block`. -/
def submitBlock (now : ℕ) (s : Blockchain) (order : List (String × Transaction))
    (params : SubmitBlockParams) : SubmitBlockResponse × Blockchain :=
  let header := params.header
  if header.meetsTarget C = false then
    (⟨false, header.hashHex C, some "hash does not meet difficulty target"⟩, s)
  else if params.height ≠ s.height then
    (⟨false, header.hashHex C, some ("stale block: submitted height " ++ toString params.height ++
      ", chain is at " ++ toString s.height)⟩, s)
  else
    let block := submittedBlock s order params
    if merkleRoot C block.transactions ≠ params.merkleRoot then
      (⟨false, header.hashHex C, some "merkle root mismatch — stale template"⟩, s)
    else
      match s.addBlock C now block with
      | (.ok (), s') => (⟨true, header.hashHex C, none⟩, s')
      | (.error e, s') => (⟨false, header.hashHex C, some e.message⟩, s')

end

variable {C : Crypto} {now : ℕ} {s : Blockchain} {order : List (String × Transaction)}
  {params : SubmitBlockParams}

/-- A submission is reported as accepted when it meets the target, matches height and Merkle root,
and `add_block` does not refuse it. -/
theorem submitBlock_accepted_iff :
    (submitBlock C now s order params).1.accepted = true ↔
      params.header.meetsTarget C = true ∧ params.height = s.height ∧
        merkleRoot C (submittedBlock s order params).transactions = params.merkleRoot ∧
        (s.addBlock C now (submittedBlock s order params)).1 = .ok () := by
  rw [submitBlock]
  dsimp only
  split
  · next hpow => simp [hpow]
  next hpow =>
    split
    · next hheight => simp [hheight]
    next hheight =>
      split
      · next hroot => simp [hroot]
      next hroot =>
        have hpow' : params.header.meetsTarget C = true := by simpa using hpow
        rcases s.addBlock C now (submittedBlock s order params) with ⟨e | ⟨⟩, s'⟩
        · simp
        · exact iff_of_true rfl ⟨hpow', not_not.mp hheight, not_not.mp hroot, rfl⟩

end Rpc

end Arkos
