import Arkos.Blockchain.Validate
import Arkos.Network.Protocol

/-!
# The chain state and its operations

`Blockchain` is the state of a node: the active chain with its index, its unspent outputs and its
minted total, and beside it every block ever accepted (`allBlocks`) with the work of the chain
that ends in it (`chainWork`). `addBlock` is the one operation that changes the chain.

An operation that fails may already have written: a block whose activation fails stays in
`allBlocks`. Fallible operations therefore return the state along with the outcome.

The walk of `chain_to_hash` follows parent hashes until it meets height zero. `chainToHash` gives
it one step more than there are blocks; a longer walk has met some block twice and would never
end, which is reported as `ChainError.circularAncestry`. The clock is read by every call, and is
an argument here.

## Main definitions

* `Blockchain`, `Blockchain.addBlock`, `Blockchain.submitTransaction`, `Blockchain.mineBlock`
* `replay` — the unspent outputs and the minted total of a list of blocks
* `Blockchain.fromGenesisWithMagic`, `Blockchain.openForNetwork`
* `Event`, `Blockchain.step`, `Blockchain.run`, `Blockchain.recorded`

## Main results

* `Blockchain.addBlock_cases` — everything a call can do
* `Blockchain.addBlock_preserves` — what its writes keep, it keeps
-/

namespace Arkos

/-- `FINALITY_DEPTH`. -/
def finalityDepth : ℕ := 200

/-- `Blockchain`. -/
structure Blockchain where
  networkMagic : UInt32
  /-- The active chain, genesis first. -/
  blocks : List Block
  /-- Hash to position in the active chain. -/
  blockIndex : Table ℕ
  /-- Every block that was accepted and not pruned. -/
  allBlocks : Table Block
  /-- The work of the chain that ends in a block. -/
  chainWork : Table ℕ
  utxoSet : UtxoSet
  mempool : Mempool
  totalMinted : ℕ
  store : Option BlockStore
  /-- The active chain has at least its genesis. -/
  blocks_ne_nil : blocks ≠ []

/-! ### Replaying blocks -/

section

variable (C : Crypto)

/-- All transactions of a block, in order and unchecked. -/
def applyBlock (u : UtxoSet) (b : Block) : UtxoSet :=
  b.transactions.foldl (UtxoSet.applyTransaction C) u

/-- One turn of the replay loop. -/
def replayBlock (st : UtxoSet × ℕ) (b : Block) : Except ChainError (UtxoSet × ℕ) :=
  match checkedAdd 64 st.2 (coinbaseValue b) with
  | none => .error .totalMintedOverflow
  | some totalMinted => .ok (applyBlock C st.1 b, totalMinted)

/-- The replay loop of `parent_context`. -/
def replay (blocks : List Block) : Except ChainError (UtxoSet × ℕ) :=
  blocks.foldlM (replayBlock C) (UtxoSet.empty, 0)

end

namespace Blockchain

/-- `Blockchain::tip`. -/
def tip (s : Blockchain) : Block := s.blocks.getLast s.blocks_ne_nil

/-- `Blockchain::height`. -/
def height (s : Blockchain) : ℕ := s.tip.height

/-- `Blockchain::remaining_supply`. -/
def remainingSupply (s : Blockchain) : ℕ := maxSupplyArkes - s.totalMinted

/-- `Blockchain::capped_block_reward`. -/
def cappedBlockReward (s : Blockchain) (height : ℕ) : ℕ :=
  min (Block.blockReward height) s.remainingSupply

/-- `Blockchain::median_past_time`. -/
def medianPastTime (s : Blockchain) : ℕ := medianPastTimeForBlocks s.blocks

/-- `Blockchain::next_bits`. -/
def nextBits (s : Blockchain) : UInt32 := nextBitsForBlocks s.blocks

/-- `Blockchain::next_block_timestamp`. -/
def nextBlockTimestamp (s : Blockchain) (now : ℕ) : ℕ := max now (s.medianPastTime + 1)

/-- `Blockchain::balance_of`. -/
def balanceOf (s : Blockchain) (address : String) : ℕ := s.utxoSet.balanceOf address

section

variable (C : Crypto)

/-! ### Walking back to the genesis -/

/-- The loop of `chain_to_hash`; `chain` is what was collected so far, newest last. -/
def chainToHashLoop (allBlocks : Table Block) :
    ℕ → String → List Block → Except ChainError (List Block)
  | 0, _, _ => .error .circularAncestry
  | fuel + 1, cursor, chain =>
    match allBlocks.lookup cursor with
    | none => .error (.unknownBlock cursor)
    | some block =>
      if block.height = 0 then .ok (block :: chain)
      else chainToHashLoop allBlocks fuel block.header.prevHash (block :: chain)

/-- `chain_to_hash`. -/
def chainToHash (s : Blockchain) (tipHash : String) : Except ChainError (List Block) :=
  chainToHashLoop s.allBlocks (s.allBlocks.keys.card + 1) tipHash []

/-- The slow path of `parent_context`: walk back, then replay. -/
def replayContext (s : Blockchain) (parentHash : String) :
    Except ChainError (List Block × UtxoSet × ℕ) :=
  match s.chainToHash parentHash with
  | .error e => .error e
  | .ok blocks =>
    match replay C blocks with
    | .error e => .error e
    | .ok (u, totalMinted) => .ok (blocks, u, totalMinted)

/-- `parent_context`. -/
def parentContext (s : Blockchain) (parentHash : String) :
    Except ChainError (List Block × UtxoSet × ℕ) :=
  if parentHash = s.tip.hashHex C then .ok (s.blocks, s.utxoSet, s.totalMinted)
  else s.replayContext C parentHash

/-! ### Accepting a block -/

/-- `validate_block_against_parent`. -/
def validateBlockAgainstParent (now : ℕ) (s : Blockchain) (b parent : Block) :
    Except ChainError Unit :=
  if b.height ≠ parent.height + 1 then .error (.heightMismatch (parent.height + 1) b.height)
  else
    match s.parentContext C b.header.prevHash with
    | .error e => .error e
    | .ok (parentChain, u, totalMinted) =>
      validateInContext C s.networkMagic now parentChain u totalMinted b

/-- The checks of `add_block`, up to the first write: the work of the chain that ends in the new
block, or nothing when the block is known already. -/
def checkBlock (now : ℕ) (s : Blockchain) (b : Block) : Except ChainError (Option ℕ) :=
  if b.hashHex C ∈ s.allBlocks then .ok none
  else
    match s.allBlocks.lookup b.header.prevHash with
    | none => .error (.unknownParent b.header.prevHash)
    | some parent =>
      match b.validate C (parent.hashHex C) with
      | .error e => .error (.block e)
      | .ok () =>
        match s.validateBlockAgainstParent C now b parent with
        | .error e => .error e
        | .ok () =>
          match s.chainWork.lookup b.header.prevHash with
          | none => .error .missingParentWork
          | some parentWork =>
            match checkedAdd 128 parentWork (blockWork b.header.bits) with
            | none => .error .chainWorkOverflow
            | some candidateWork => .ok (some candidateWork)

/-- What the loop of `rebuild_active_state` builds. -/
structure Rebuild where
  utxoSet : UtxoSet
  blockIndex : Table ℕ
  totalMinted : ℕ
  mempool : Mempool

/-- The loop of `rebuild_active_state` from position `height` on, with the mempool as it is when the
loop stops: a confirmed transaction leaves it even when a later block fails. -/
def rebuildLoop : ℕ → Rebuild → List Block → Except ChainError Rebuild × Mempool
  | _, r, [] => (.ok r, r.mempool)
  | height, r, b :: bs =>
    match checkedAdd 64 r.totalMinted (coinbaseValue b) with
    | none => (.error .totalMintedOverflow, r.mempool)
    | some totalMinted =>
      rebuildLoop (height + 1)
        { utxoSet := applyBlock C r.utxoSet b
          blockIndex := r.blockIndex.insert (b.hashHex C) height
          totalMinted
          mempool := b.transactions.foldl (fun m tx => m.remove (tx.txidHex C)) r.mempool } bs

/-- `rebuild_active_state`. -/
def rebuildActiveState (s : Blockchain) (blocks : List Block) (h : blocks ≠ []) :
    Except ChainError Unit × Blockchain :=
  match rebuildLoop C 0 ⟨UtxoSet.empty, ∅, 0, s.mempool⟩ blocks with
  | (.error e, mempool) => (.error e, { s with mempool })
  | (.ok r, _) =>
    (.ok (), { s with
      blocks
      blockIndex := r.blockIndex
      utxoSet := r.utxoSet
      totalMinted := r.totalMinted
      mempool := r.mempool
      blocks_ne_nil := h })

/-- The writes of `activate_chain`: every active block, then the tip. -/
def persistActive (s : Blockchain) : Blockchain :=
  { s with store := s.store.map fun st =>
      (s.blocks.foldl (BlockStore.saveBlock C) st).saveTip (s.tip.hashHex C) }

/-- `activate_chain`. The heights it logs are left out. -/
def activateChain (s : Blockchain) (tipHash : String) : Except ChainError Unit × Blockchain :=
  match s.chainToHash tipHash with
  | .error e => (.error e, s)
  | .ok newBlocks =>
    if h : newBlocks = [] then (.error .emptyActivation, s)
    else
      match s.rebuildActiveState C newBlocks h with
      | (.error e, s') => (.error e, s')
      | (.ok (), s') => (.ok (), s'.persistActive C)

/-- `prune_stale_orphans`. -/
def pruneStaleOrphans (s : Blockchain) : Blockchain :=
  if s.height < finalityDepth then s
  else
    let cutoffHeight := s.height - finalityDepth
    let activeHashes := (s.blocks.filter fun b => b.height ≤ cutoffHeight).map (Block.hashHex C)
    let allBlocks := s.allBlocks.retain fun hash block =>
      decide (cutoffHeight < block.height) || decide (hash ∈ activeHashes)
    { s with
      allBlocks
      chainWork := s.chainWork.retain fun hash _ => decide (hash ∈ allBlocks) }

/-- The writes that record a block, before any activation. -/
def recordBlock (s : Blockchain) (b : Block) (candidateWork : ℕ) : Blockchain :=
  { s with
    store := s.store.map fun st => st.saveBlock C b
    chainWork := s.chainWork.insert (b.hashHex C) candidateWork
    allBlocks := s.allBlocks.insert (b.hashHex C) b }

/-- The part of `add_block` after the block is recorded. -/
def settleBlock (s : Blockchain) (b : Block) (candidateWork : ℕ) :
    Except ChainError Unit × Blockchain :=
  match s.chainWork.lookup (s.tip.hashHex C) with
  | none => (.error .missingTipWork, s)
  | some currentWork =>
    if currentWork < candidateWork then
      match s.activateChain C (b.hashHex C) with
      | (.error e, s') => (.error e, s')
      | (.ok (), s') => (.ok (), s'.pruneStaleOrphans C)
    else (.ok (), s.pruneStaleOrphans C)

/-- `Blockchain::add_block`. -/
def addBlock (now : ℕ) (s : Blockchain) (b : Block) : Except ChainError Unit × Blockchain :=
  match s.checkBlock C now b with
  | .error e => (.error e, s)
  | .ok none => (.ok (), s)
  | .ok (some candidateWork) => (s.recordBlock C b candidateWork).settleBlock C b candidateWork

/-! ### Transactions and mining -/

/-- `Blockchain::validate_tx`. -/
def validateTx (s : Blockchain) (tx : Transaction) : Except TxError ℕ :=
  validateTxWithUtxo C tx s.utxoSet s.networkMagic s.height

/-- `Blockchain::submit_transaction`. -/
def submitTransaction (s : Blockchain) (tx : Transaction) :
    Except ChainError String × Blockchain :=
  match s.validateTx C tx with
  | .error e => (.error (.tx e), s)
  | .ok fee =>
    match s.mempool.addWithFee C tx fee with
    | (.error e, mempool) => (.error (.mempool e), { s with mempool })
    | (.ok txid, mempool) => (.ok txid, { s with mempool })

/-- The block `mine_block` starts its search from, for the given iteration order of the mempool. -/
def blockToMine (s : Blockchain) (now : ℕ) (order : List (String × Transaction))
    (minerAddress : String) : Block :=
  let height := s.tip.height + 1
  let selected := s.mempool.take order 500
  let totalFees := (selected.map fun tx => s.mempool.feeFor (tx.txidHex C)).foldl
    (saturatingAdd 64) 0
  let reward := saturatingAdd 64 (s.cappedBlockReward height) totalFees
  let txs := Transaction.coinbase minerAddress (UInt64.ofNat reward) height :: selected
  { header :=
      { version := 1
        prevHash := s.tip.hashHex C
        merkleRoot := merkleRoot C txs
        timestamp := UInt64.ofNat (s.nextBlockTimestamp now)
        bits := s.nextBits
        nonce := 0 }
    transactions := txs
    height }

/-- `Blockchain::mine_block`, with a bound on the proof-of-work search. -/
def mineBlock (fuel : ℕ) (s : Blockchain) (now : ℕ) (order : List (String × Transaction))
    (minerAddress : String) : Option Block :=
  let b := s.blockToMine C now order minerAddress
  (mineBlockHeader C fuel b.header).map fun header => { b with header }

/-! ### Construction -/

/-- `Blockchain::from_genesis_with_magic`. -/
def fromGenesisWithMagic (genesis : Block) (store : Option BlockStore) (networkMagic : UInt32) :
    Blockchain where
  networkMagic
  blocks := [genesis]
  blockIndex := Finmap.insert (genesis.hashHex C) 0 ∅
  allBlocks := Finmap.insert (genesis.hashHex C) genesis ∅
  chainWork := Finmap.insert (genesis.hashHex C) (blockWork genesis.header.bits) ∅
  utxoSet := applyBlock C UtxoSet.empty genesis
  mempool := Mempool.new
  totalMinted := coinbaseValue genesis
  store
  blocks_ne_nil := List.cons_ne_nil _ _

/-- `Blockchain::from_genesis`. -/
def fromGenesis (genesis : Block) (store : Option BlockStore) : Blockchain :=
  fromGenesisWithMagic C genesis store regtestMagic

/-- The loop of `from_blocks`; `clock i` is the time read when the `i`-th block is added. -/
def addBlocks (clock : ℕ → ℕ) : ℕ → Blockchain → List Block → Except ChainError Unit × Blockchain
  | _, s, [] => (.ok (), s)
  | i, s, b :: bs =>
    match s.addBlock C (clock i) b with
    | (.error e, s') => (.error e, s')
    | (.ok (), s') => addBlocks clock (i + 1) s' bs

/-- `Blockchain::from_blocks` on a nonempty list. -/
def fromBlocks (clock : ℕ → ℕ) (genesis : Block) (rest : List Block) (store : Option BlockStore) :
    Except ChainError Unit × Blockchain :=
  addBlocks C clock 0 (fromGenesis C genesis store) rest

end

/-- The difficulty `open_for_network` and `new_for_network` give a genesis. -/
def genesisBits (network : String) : UInt32 :=
  if network = "mainnet" then mainnetGenesisBits
  else if network = "testnet" then testnetGenesisBits
  else regtestGenesisBits

section

variable (C : Crypto)

/-- `Blockchain::new_for_network`, with a bound on the search for the genesis block. -/
def newForNetwork (fuel : ℕ) (network : String) : Option Blockchain :=
  (genesisBlockWithBits C fuel (genesisBits network)).map fun genesis =>
    fromGenesisWithMagic C genesis none (magicForNetwork network)

/-- The loading loop of `open_for_network`: the blocks of the heights `0 ..= tip`. -/
def loadChain (store : BlockStore) (tipHeight : ℕ) : Except ChainError (List Block) :=
  (List.range (tipHeight + 1)).mapM fun height =>
    match store.loadBlockByHeight height with
    | .error e => .error (.store e)
    | .ok none => .error (.storedBlockMissing height)
    | .ok (some block) => .ok block

/-- The branch of `open_for_network` for a store with a tip. -/
def reload (clock : ℕ → ℕ) (store : BlockStore) (network tipHash : String) :
    Except ChainError Blockchain :=
  match store.loadBlockByHash tipHash with
  | .error e => .error (.store e)
  | .ok none => .error (.storedTipMissing tipHash)
  | .ok (some tip) =>
    match loadChain store tip.height with
    | .error e => .error e
    | .ok [] => .error .emptyChain
    | .ok (genesis :: rest) =>
      match fromBlocks C clock genesis rest (some store) with
      | (.error e, _) => .error e
      | (.ok (), chain) => .ok { chain with networkMagic := magicForNetwork network }

/-- The branch of `open_for_network` for a store without a tip. -/
def openFresh (fuel : ℕ) (store : BlockStore) (network : String) : Except ChainError Blockchain :=
  match genesisBlockWithBits C fuel (genesisBits network) with
  | none => .error .searchUnfinished
  | some genesis =>
    let store := (store.saveBlock C genesis).saveTip (genesis.hashHex C)
    .ok (fromGenesis C genesis (some store))

/-- `Blockchain::open_for_network` on the contents of the store at the path. -/
def openForNetwork (fuel : ℕ) (clock : ℕ → ℕ) (store : BlockStore) (network : String) :
    Except ChainError Blockchain :=
  match store.loadTip with
  | .error e => .error (.store e)
  | .ok (some tipHash) => reload C clock store network tipHash
  | .ok none => openFresh C fuel store network

end

end Blockchain

/-! ### Everything a call of `add_block` can do -/

namespace Blockchain

variable (C : Crypto)

/-- The position of every block of a chain, under its hash. -/
def blockIndexOf (blocks : List Block) (start : ℕ) (index : Table ℕ) : Table ℕ :=
  index.insertAll ((blocks.zipIdx start).map fun bi => (bi.1.hashHex C, bi.2))

/-- The mempool without the transactions of the given blocks. -/
def removeConfirmed (m : Mempool) (blocks : List Block) : Mempool :=
  blocks.foldl (fun m b => b.transactions.foldl (fun m tx => m.remove (tx.txidHex C)) m) m

/-- The state with another active chain, given what replaying that chain yields. -/
def withActive (s : Blockchain) (blocks : List Block) (h : blocks ≠ []) (u : UtxoSet)
    (totalMinted : ℕ) : Blockchain :=
  { s with
    blocks
    blockIndex := blockIndexOf C blocks 0 ∅
    utxoSet := u
    totalMinted
    mempool := removeConfirmed C s.mempool blocks
    blocks_ne_nil := h }

variable {C}

theorem rebuildLoop_of_ok {bs : List Block} {n : ℕ} {r : Rebuild} {u : UtxoSet} {m : ℕ}
    (h : bs.foldlM (replayBlock C) (r.utxoSet, r.totalMinted) = .ok (u, m)) :
    rebuildLoop C n r bs =
      (.ok ⟨u, blockIndexOf C bs n r.blockIndex, m, removeConfirmed C r.mempool bs⟩,
        removeConfirmed C r.mempool bs) := by
  induction bs generalizing n r with
  | nil =>
    cases h
    rfl
  | cons b bs ih =>
    rw [List.foldlM_cons, replayBlock] at h
    rw [rebuildLoop]
    cases hs : checkedAdd 64 r.totalMinted (coinbaseValue b) with
    | none =>
      simp only [hs] at h
      cases h
    | some t =>
      simp only [hs] at h ⊢
      have hrest := ih (n := n + 1)
        (r := ⟨applyBlock C r.utxoSet b, r.blockIndex.insert (b.hashHex C) n, t,
          b.transactions.foldl (fun m tx => m.remove (tx.txidHex C)) r.mempool⟩) h
      exact hrest

/-- The loop stops at some block; the transactions of the blocks before it have left the mempool. -/
theorem rebuildLoop_of_error {bs : List Block} {n : ℕ} {r : Rebuild} {e : ChainError}
    (h : bs.foldlM (replayBlock C) (r.utxoSet, r.totalMinted) = .error e) :
    ∃ done, rebuildLoop C n r bs = (.error e, removeConfirmed C r.mempool done) := by
  induction bs generalizing n r with
  | nil => cases h
  | cons b bs ih =>
    rw [List.foldlM_cons, replayBlock] at h
    rw [rebuildLoop]
    cases hs : checkedAdd 64 r.totalMinted (coinbaseValue b) with
    | none =>
      simp only [hs] at h ⊢
      cases h
      exact ⟨[], rfl⟩
    | some t =>
      simp only [hs] at h ⊢
      obtain ⟨done, hrest⟩ := ih (n := n + 1)
        (r := ⟨applyBlock C r.utxoSet b, r.blockIndex.insert (b.hashHex C) n, t,
          b.transactions.foldl (fun m tx => m.remove (tx.txidHex C)) r.mempool⟩) h
      exact ⟨b :: done, hrest⟩

theorem rebuildActiveState_of_ok {s : Blockchain} {bs : List Block} (hne : bs ≠ []) {u : UtxoSet}
    {m : ℕ} (h : replay C bs = .ok (u, m)) :
    s.rebuildActiveState C bs hne = (.ok (), s.withActive C bs hne u m) := by
  have hloop := rebuildLoop_of_ok (n := 0) (r := ⟨UtxoSet.empty, ∅, 0, s.mempool⟩) h
  rw [rebuildActiveState, hloop]
  rfl

theorem rebuildActiveState_of_error {s : Blockchain} {bs : List Block} (hne : bs ≠ [])
    {e : ChainError} (h : replay C bs = .error e) :
    ∃ done, s.rebuildActiveState C bs hne =
      (.error e, { s with mempool := removeConfirmed C s.mempool done }) := by
  obtain ⟨done, hloop⟩ := rebuildLoop_of_error (n := 0)
    (r := ⟨UtxoSet.empty, ∅, 0, s.mempool⟩) h
  refine ⟨done, ?_⟩
  rw [rebuildActiveState, hloop]

theorem chainToHashLoop_ne_nil {allBlocks : Table Block} {fuel : ℕ} {cursor : String}
    {chain bs : List Block} (h : chainToHashLoop allBlocks fuel cursor chain = .ok bs) :
    bs ≠ [] := by
  induction fuel generalizing cursor chain with
  | zero => cases h
  | succ fuel ih =>
    rw [chainToHashLoop] at h
    split at h
    · cases h
    · split at h
      · cases h
        exact List.cons_ne_nil _ _
      · have hrest := ih h
        exact hrest

theorem chainToHash_ne_nil {s : Blockchain} {hash : String} {bs : List Block}
    (h : s.chainToHash hash = .ok bs) : bs ≠ [] := chainToHashLoop_ne_nil h

/-- **The outcomes of `add_block`.** A block is rejected, or known, or recorded. A recorded block
that does not outweigh the tip stays on the side; one that does becomes the tip, unless the walk to
its genesis or the replay of its chain fails. -/
inductive Added (C : Crypto) (now : ℕ) (s : Blockchain) (b : Block) :
    Except ChainError Unit → Blockchain → Prop
  | rejected {e} : s.checkBlock C now b = .error e → Added C now s b (.error e) s
  | known : b.hashHex C ∈ s.allBlocks → Added C now s b (.ok ()) s
  | tipWorkMissing {w} : s.checkBlock C now b = .ok (some w) →
      (s.recordBlock C b w).chainWork.lookup (s.tip.hashHex C) = none →
      Added C now s b (.error .missingTipWork) (s.recordBlock C b w)
  | side {w current} : s.checkBlock C now b = .ok (some w) →
      (s.recordBlock C b w).chainWork.lookup (s.tip.hashHex C) = some current → w ≤ current →
      Added C now s b (.ok ()) ((s.recordBlock C b w).pruneStaleOrphans C)
  | walkFailed {w current e} : s.checkBlock C now b = .ok (some w) →
      (s.recordBlock C b w).chainWork.lookup (s.tip.hashHex C) = some current → current < w →
      (s.recordBlock C b w).chainToHash (b.hashHex C) = .error e →
      Added C now s b (.error e) (s.recordBlock C b w)
  | replayFailed {w current bs e done} : s.checkBlock C now b = .ok (some w) →
      (s.recordBlock C b w).chainWork.lookup (s.tip.hashHex C) = some current → current < w →
      (s.recordBlock C b w).chainToHash (b.hashHex C) = .ok bs → replay C bs = .error e →
      Added C now s b (.error e)
        { s.recordBlock C b w with mempool := removeConfirmed C s.mempool done }
  | activated {w current bs u m} (hne : bs ≠ []) : s.checkBlock C now b = .ok (some w) →
      (s.recordBlock C b w).chainWork.lookup (s.tip.hashHex C) = some current → current < w →
      (s.recordBlock C b w).chainToHash (b.hashHex C) = .ok bs → replay C bs = .ok (u, m) →
      Added C now s b (.ok ())
        ((((s.recordBlock C b w).withActive C bs hne u m).persistActive C).pruneStaleOrphans C)

/-- A block the checks wave through without a work is known. -/
theorem checkBlock_eq_ok_none {now : ℕ} {s : Blockchain} {b : Block}
    (h : s.checkBlock C now b = .ok none) : b.hashHex C ∈ s.allBlocks := by
  by_contra hb
  rw [checkBlock, if_neg hb] at h
  repeat' split at h
  all_goals cases h

theorem addBlock_cases (now : ℕ) (s : Blockchain) (b : Block) :
    Added C now s b (s.addBlock C now b).1 (s.addBlock C now b).2 := by
  rw [addBlock]
  cases hcheck : s.checkBlock C now b with
  | error e => exact .rejected hcheck
  | ok o =>
    cases o with
    | none => exact .known (checkBlock_eq_ok_none hcheck)
    | some w =>
      dsimp only
      rw [settleBlock]
      cases hwork : (s.recordBlock C b w).chainWork.lookup
        ((s.recordBlock C b w).tip.hashHex C) with
      | none => exact .tipWorkMissing hcheck hwork
      | some current =>
        dsimp only
        split
        · next hlt =>
          rw [activateChain]
          cases hwalk : (s.recordBlock C b w).chainToHash (b.hashHex C) with
          | error e => exact .walkFailed hcheck hwork hlt hwalk
          | ok bs =>
            have hne := chainToHash_ne_nil hwalk
            dsimp only
            rw [dif_neg hne]
            cases hrep : replay C bs with
            | error e =>
              obtain ⟨done, hre⟩ := rebuildActiveState_of_error (s := s.recordBlock C b w) hne hrep
              rw [hre]
              exact .replayFailed hcheck hwork hlt hwalk hrep
            | ok um =>
              rw [rebuildActiveState_of_ok hne hrep]
              exact .activated hne hcheck hwork hlt hwalk hrep
        · next hle => exact .side hcheck hwork (Nat.not_lt.mp hle)

/-- **The rule for `add_block`**: what each of its writes keeps, the call keeps. -/
theorem addBlock_preserves {P : Blockchain → Prop} {now : ℕ} {s : Blockchain} {b : Block}
    (unchanged : P s)
    (record : ∀ w, s.checkBlock C now b = .ok (some w) → P (s.recordBlock C b w))
    (mempool : ∀ (s' : Blockchain) (mempool : Mempool), P s' → P { s' with mempool })
    (activate : ∀ (s' : Blockchain) (hash : String) (bs : List Block) (hne : bs ≠ []) (u : UtxoSet)
      (m : ℕ), s'.chainToHash hash = .ok bs → replay C bs = .ok (u, m) → P s' →
      P ((s'.withActive C bs hne u m).persistActive C))
    (prune : ∀ s' : Blockchain, P s' → P (s'.pruneStaleOrphans C)) : P (s.addBlock C now b).2 := by
  have hadd := addBlock_cases (C := C) now s b
  generalize (s.addBlock C now b).1 = r at hadd
  generalize (s.addBlock C now b).2 = s' at hadd ⊢
  cases hadd with
  | rejected _ => exact unchanged
  | known _ => exact unchanged
  | tipWorkMissing hcheck _ => exact record _ hcheck
  | side hcheck _ _ => exact prune _ (record _ hcheck)
  | walkFailed hcheck _ _ _ => exact record _ hcheck
  | replayFailed hcheck _ _ _ _ => exact mempool _ _ (record _ hcheck)
  | activated hne hcheck _ _ hwalk hrep =>
    exact prune _ (activate _ _ _ hne _ _ hwalk hrep (record _ hcheck))

end Blockchain

/-! ### Runs -/

/-- A call that changes the chain state. -/
inductive Event where
  | addBlock (now : ℕ) (b : Block)
  | submitTransaction (tx : Transaction)

namespace Blockchain

variable (C : Crypto)

/-- The state after one call, whatever it returned. -/
def step (s : Blockchain) : Event → Blockchain
  | .addBlock now b => (s.addBlock C now b).2
  | .submitTransaction tx => (s.submitTransaction C tx).2

/-- The state after a sequence of calls. -/
def run (s : Blockchain) (evs : List Event) : Blockchain := evs.foldl (step C) s

/-- The block a call records, if it records one. -/
def recordedBy (s : Blockchain) : Event → List Block
  | .addBlock now b =>
    match s.checkBlock C now b with
    | .ok (some _) => [b]
    | _ => []
  | .submitTransaction _ => []

/-- The blocks a sequence of calls records, in order. -/
def recorded : Blockchain → List Event → List Block
  | _, [] => []
  | s, e :: evs => s.recordedBy C e ++ recorded (s.step C e) evs

end Blockchain

end Arkos
