import Arkos.Blockchain.Pool
import Arkos.Blockchain.Supply
import Arkos.Rpc.Methods
import Mathlib.Data.List.Permutation

/-!
# Are the blocks a node assembles valid?

A node builds blocks in two places, `mine_block` and the pair of RPC handlers, and checks them in a
third. The two builders make blocks of one shape, `assemble`, with different rewards. The header,
the coinbase, the timestamp, the difficulty and the fees agree with what the checks ask for, in
every reachable state. What the builders do not look at is whether the selected transactions go
together: they take up to 500 entries of the mempool, each of which was valid when it was submitted.

`Minable` says what is missing, as a condition on the state and the selection. Two payments of one
output are enough to break it (`own_block_refused`).

## Main definitions

* `Blockchain.assemble`, `Blockchain.Minable`

## Main results

* `Blockchain.extends_assemble_iff` — when an assembled block is valid
* `Blockchain.own_block_accepted_iff`, `Blockchain.own_block_refused`
-/

namespace Arkos

namespace Blockchain

/-! ### Assembled blocks -/

/-- The block on top of the tip with a coinbase for `address` and the selected transactions. -/
def assemble (C : Crypto) (s : Blockchain) (address : String) (reward timestamp nonce : UInt64)
    (selected : List Transaction) : Block :=
  let txs := Transaction.coinbase address reward (s.tip.height + 1) :: selected
  { header :=
      { version := 1
        prevHash := s.tip.hashHex C
        merkleRoot := merkleRoot C txs
        timestamp
        bits := s.nextBits
        nonce }
    transactions := txs
    height := s.tip.height + 1 }

/-- A selection from which the node can make a valid block: the block stays below the limits, each
transaction is valid on its own and after the others, and no sum overflows. `fees` is what the
transactions pay together. -/
structure Minable (C : Crypto) (s : Blockchain) (address : String) (selected : List Transaction)
    (fees : ℕ) : Prop where
  size_le : 373 + 2 * (utf8 address).length + (selected.map Transaction.serializedSize).sum ≤
    maxBlockBytes
  ops_le : 2 + (selected.map fun tx => tx.inputs.length + tx.outputs.length).sum ≤ maxBlockUtxoOps
  fees_eq : totalFees C s.utxoSet s.networkMagic (s.height + 1) selected = .ok fees
  txs_ok : ∃ u, validateTransactions C s.networkMagic (s.height + 1) s.utxoSet selected = .ok u
  work_lt : workOf s.blocks + blockWork s.nextBits < 2 ^ 128

variable {C : Crypto} {s : Blockchain} {address : String} {reward timestamp nonce : UInt64}
  {selected : List Transaction} {now : ℕ}

theorem serializedSize_assemble :
    (s.assemble C address reward timestamp nonce selected).serializedSize =
      373 + 2 * (utf8 address).length + (selected.map Transaction.serializedSize).sum := by
  obtain ⟨x, hx⟩ := exists_merkleRoot_eq (C := C)
    (List.cons_ne_nil (Transaction.coinbase address reward (s.tip.height + 1)) selected)
  have hroot :
      (utf8 (s.assemble C address reward timestamp nonce selected).header.merkleRoot).length =
        64 := by
    show (utf8 (merkleRoot C _)).length = 64
    rw [hx, length_utf8_hashToHex]
  rw [Block.serializedSize_eq (length_utf8_hashToHex _) hroot]
  show 184 + ((Transaction.coinbase _ _ _ :: selected).map Transaction.serializedSize).sum = _
  rw [List.map_cons, List.sum_cons, Transaction.serializedSize_coinbase]
  omega

theorem utxoOps_assemble : (s.assemble C address reward timestamp nonce selected).utxoOps =
    2 + (selected.map fun tx => tx.inputs.length + tx.outputs.length).sum := by
  show ((Transaction.coinbase _ _ _ :: selected).map _).sum = _
  rw [List.map_cons, List.sum_cons]
  rfl

theorem coinbaseValue_assemble :
    coinbaseValue (s.assemble C address reward timestamp nonce selected) = reward.toNat := by
  have hsum : checkedSum 64 [reward.toNat] = some reward.toNat :=
    checkedSum_eq_some_iff.mpr ⟨by simp, reward.toNat_lt⟩
  show (checkedSum 64 [reward.toNat]).getD _ = _
  rw [hsum, Option.getD_some]

/-- **When an assembled block is valid.** Given proof of work and a timestamp in range, it is the
selection and the reward that decide. -/
theorem extends_assemble_iff (hrep : replay C s.blocks = .ok (s.utxoSet, s.totalMinted))
    (hpow : (s.assemble C address reward timestamp nonce selected).header.meetsTarget C = true)
    (hmed : s.medianPastTime < timestamp.toNat) (hnow : timestamp.toNat ≤ now + 7200)
    (hlen : selected.length ≤ 500) :
    Extends C s.networkMagic now s.blocks (s.assemble C address reward timestamp nonce selected) ↔
      ∃ fees, Minable C s address selected fees ∧
        reward.toNat ≤ saturatingAdd 64 (s.cappedBlockReward (s.height + 1)) fees := by
  constructor
  · rintro ⟨⟨p, -, hwf, -⟩, ⟨u, m, hrep', hctx⟩, hwork⟩
    rw [hrep] at hrep'
    cases hrep'
    obtain ⟨fees, hfees, hlt, hle⟩ := hctx.subsidy_ok
    obtain ⟨u', htxs⟩ := hctx.txs_ok
    have hsize := hwf.size_le
    have hops := hwf.ops_le
    rw [serializedSize_assemble] at hsize
    rw [utxoOps_assemble] at hops
    rw [coinbaseValue_assemble] at hle
    exact ⟨fees.sum, ⟨hsize, hops, totalFees_eq_ok_iff.mpr ⟨fees, hfees, rfl, hlt⟩,
      ⟨u', validateTransactions_eq_ok_iff.mpr htxs⟩, hwork⟩, hle⟩
  · rintro ⟨_, ⟨hsize, hops, htotal, ⟨u', htxs⟩, hwork⟩, hle⟩
    obtain ⟨fees, hfees, rfl, hlt⟩ := totalFees_eq_ok_iff.mp htotal
    have hcount : (Transaction.coinbase address reward (s.tip.height + 1) :: selected).length ≤
        maxBlockTransactions := by
      rw [List.length_cons, maxBlockTransactions]
      omega
    refine ⟨⟨s.tip, s.getLast?_blocks, ⟨rfl, hpow, hcount, ?_, ?_, ⟨_, _, rfl, ?_⟩, rfl⟩, rfl⟩,
      ⟨s.utxoSet, s.totalMinted, hrep, ⟨rfl, hmed, hnow, ?_, ⟨fees, hfees, hlt, ?_⟩,
        u', validateTransactions_eq_ok_iff.mp htxs⟩⟩, hwork⟩
    · rwa [serializedSize_assemble]
    · rwa [utxoOps_assemble]
    · exact Transaction.isCoinbase_coinbase _ _ _
    · show 1 ≤ maxCoinbaseOutputs
      decide
    · rw [coinbaseValue_assemble]
      exact hle

/-! ### The two builders -/

/-- The reward `mine_block` claims: the subsidy and the recorded fees. -/
def minedReward (C : Crypto) (s : Blockchain) (order : List (String × Transaction)) : ℕ :=
  saturatingAdd 64 (s.cappedBlockReward (s.height + 1)) (((s.mempool.take order 500).map fun tx =>
    s.mempool.feeFor (tx.txidHex C)).foldl (saturatingAdd 64) 0)

theorem blockToMine_eq (order : List (String × Transaction)) :
    s.blockToMine C now order address = s.assemble C address (UInt64.ofNat (s.minedReward C order))
      (UInt64.ofNat (s.nextBlockTimestamp now)) 0 (s.mempool.take order 500) := rfl

/-- What `mine_block` returns is an assembled block with proof of work. -/
theorem mineBlock_eq_some {fuel : ℕ} (hfuel : fuel ≤ 2 ^ 64) {order : List (String × Transaction)}
    {b : Block} (h : s.mineBlock C fuel now order address = some b) :
    ∃ nonce, b = s.assemble C address (UInt64.ofNat (s.minedReward C order))
        (UInt64.ofNat (s.nextBlockTimestamp now)) nonce (s.mempool.take order 500) ∧
      b.header.meetsTarget C = true := by
  obtain ⟨header, hmine, rfl⟩ := Option.map_eq_some_iff.mp h
  have hstart : (s.blockToMine C now order address).header.nonce.toNat + fuel ≤ 2 ^ 64 := by
    show 0 + fuel ≤ 2 ^ 64
    omega
  obtain ⟨nonce, hheader⟩ := mineBlockHeader_eq_some hstart hmine
  have hmeets := (mineBlockHeader_spec hmine).1
  subst hheader
  exact ⟨nonce, rfl, hmeets⟩

/-- What `submit_block` rebuilds from a template is an assembled block. -/
theorem submittedBlock_toParams (order : List (String × Transaction)) :
    Rpc.submittedBlock s order
        ((Rpc.getBlockTemplate C now s order address).toParams address nonce) =
      s.assemble C address (UInt64.ofNat (s.cappedBlockReward (s.height + 1)))
        (UInt64.ofNat (s.nextBlockTimestamp now)) nonce (s.mempool.take order 500) := rfl

/-- In the state of the template a submission gets as far as `add_block`. -/
theorem submitBlock_toParams_accepted_iff {now' : ℕ} {order : List (String × Transaction)}
    (hpow : ((Rpc.getBlockTemplate C now s order address).toParams address
      nonce).header.meetsTarget C = true) :
    (Rpc.submitBlock C now' s order ((Rpc.getBlockTemplate C now s order address).toParams address
        nonce)).1.accepted = true ↔
      (s.addBlock C now' (Rpc.submittedBlock s order
        ((Rpc.getBlockTemplate C now s order address).toParams address nonce))).1 = .ok () := by
  rw [Rpc.submitBlock_accepted_iff]
  exact ⟨fun h => h.2.2.2, fun h => ⟨hpow, rfl, rfl, h⟩⟩

/-- The timestamp both builders use is in range. -/
theorem toNat_nextBlockTimestamp {now' : ℕ} (hmed : s.medianPastTime < now + 7200)
    (hword : now + 7200 < 2 ^ 64) (hclock : now ≤ now') :
    s.medianPastTime < (UInt64.ofNat (s.nextBlockTimestamp now)).toNat ∧
      (UInt64.ofNat (s.nextBlockTimestamp now)).toNat ≤ now' + 7200 := by
  have hlt : s.nextBlockTimestamp now < 2 ^ 64 := by
    rw [nextBlockTimestamp]
    omega
  rw [UInt64.toNat_ofNat', Nat.mod_eq_of_lt hlt, nextBlockTimestamp]
  omega

/-- What is still to be minted fits with what was. -/
theorem totalMinted_add_cappedBlockReward_lt (h : s.totalMinted < 2 ^ 64) (height : ℕ) :
    s.totalMinted + s.cappedBlockReward height < 2 ^ 64 := by
  have hcapped : s.cappedBlockReward height ≤ maxSupplyArkes - s.totalMinted := Nat.min_le_right _ _
  have hmax : maxSupplyArkes = 31415926000000000 := rfl
  omega

/-! ### Every reachable state -/

variable {magic : UInt32} {T : Set ℕ} {g : Block} {hist : List Block}

/-- An assembled block is accepted when its selection is minable and its reward is covered; where
the minted total would overflow, only when it was recorded before. -/
theorem Inv.addBlock_assemble_iff (hg : g.height = 0) (hi : Inv C magic T g hist s) (hnow : now ∈ T)
    (hpow : (s.assemble C address reward timestamp nonce selected).header.meetsTarget C = true)
    (hmed : s.medianPastTime < timestamp.toNat) (htime : timestamp.toNat ≤ now + 7200)
    (hlen : selected.length ≤ 500)
    (hsep : Separated C (hist ++ [s.assemble C address reward timestamp nonce selected])) :
    (s.addBlock C now (s.assemble C address reward timestamp nonce selected)).1 = .ok () ↔
      (∃ fees, Minable C s address selected fees ∧
        reward.toNat ≤ saturatingAdd 64 (s.cappedBlockReward (s.height + 1)) fees) ∧
      (s.totalMinted + reward.toNat < 2 ^ 64 ∨
        (s.assemble C address reward timestamp nonce selected).hashHex C ∈ s.allBlocks) := by
  have hne : s.assemble C address reward timestamp nonce selected ≠ g := fun heq => by
    have hheight : s.tip.height + 1 = g.height := congrArg Block.height heq
    omega
  rw [hi.addBlock_tip_eq_ok_iff hg hnow rfl hne htime hsep, coinbaseValue_assemble, ← hi.magic_eq,
    extends_assemble_iff hi.replay_eq hpow hmed htime hlen]

/-- The reward `mine_block` claims is what the checks allow. -/
theorem Inv.toNat_minedReward {E P : List Transaction} (hE : Ledger C E)
    (hi : Inv C magic T g hist s) (htxs : ∀ tx ∈ chainTxs hist, tx ∈ E)
    (hm : PoolInv C magic E P s.mempool) {order : List (String × Transaction)}
    (ho : s.mempool.IterOrder order) {fees : ℕ}
    (hmin : Minable C s address (s.mempool.take order 500) fees) :
    (UInt64.ofNat (s.minedReward C order)).toNat =
      saturatingAdd 64 (s.cappedBlockReward (s.height + 1)) fees := by
  obtain ⟨fs, hfees, rfl, hlt⟩ := totalFees_eq_ok_iff.mp hmin.fees_eq
  rw [hi.magic_eq] at hfees
  have hsum : saturatingAdd 64 0 fs.sum = fs.sum := by
    rw [saturatingAdd_of_lt (by omega), Nat.zero_add]
  rw [minedReward, hm.map_feeFor hE (hi.originates htxs) (fun tx htx => Mempool.mem_take ho htx)
    hfees, foldl_saturatingAdd fs (Nat.two_pow_pos 64), hsum, UInt64.toNat_ofNat',
    Nat.mod_eq_of_lt saturatingAdd_lt]

/-- **When a node accepts its own blocks.** In every state that a run from a genesis reaches, for
every order in which the mempool is iterated and a clock that is not too far behind the chain: the
block of `mine_block` is accepted if and only if the selection is minable and the minted total still
fits (or the very block was recorded before), and the block rebuilt from a template is reported as
accepted, with whatever nonce, if and only if the selection is minable. The search for a nonce ends
before the nonces are used up, and `hash256` does not collide on what is hashed for the recorded
blocks, the submitted transactions and the new block. -/
theorem own_block_accepted_iff (C : Crypto) (genesisFuel : ℕ) (bits : UInt32) (g : Block)
    (hgenesis : genesisBlockWithBits C genesisFuel bits = some g) (store : Option BlockStore)
    (magic : UInt32) (evs : List Event) (s : Blockchain)
    (hs : s = run C (fromGenesisWithMagic C g store magic) evs) (hist : List Block)
    (hhist : hist = g :: recorded C (fromGenesisWithMagic C g store magic) evs)
    (hnc : NoCollision C hist) (hsub : NoTxCollision C (submitted evs)) (now now' : ℕ)
    (hmed : s.medianPastTime < now + 7200) (hword : now + 7200 < 2 ^ 64) (hclock : now ≤ now')
    (order : List (String × Transaction)) (horder : s.mempool.IterOrder order) (address : String) :
    (∀ fuel ≤ 2 ^ 64, ∀ b, s.mineBlock C fuel now order address = some b →
      Separated C (hist ++ [b]) →
      ((s.addBlock C now' b).1 = .ok () ↔
        ∃ fees, Minable C s address (s.mempool.take order 500) fees ∧
          (s.totalMinted + saturatingAdd 64 (s.cappedBlockReward (s.height + 1)) fees < 2 ^ 64 ∨
            b.hashHex C ∈ s.allBlocks))) ∧
    ∀ nonce params,
      params = (Rpc.getBlockTemplate C now s order address).toParams address nonce →
      params.header.meetsTarget C = true →
      Separated C (hist ++ [Rpc.submittedBlock s order params]) →
      ((Rpc.submitBlock C now' s order params).1.accepted = true ↔
        ∃ fees, Minable C s address (s.mempool.take order 500) fees) := by
  obtain ⟨hg, hgtxs⟩ := genesisBlockWithBits_spec hgenesis
  have hinv : Inv C magic Set.univ g hist s := by
    subst hs hhist
    exact inv_run hg store magic evs hnc
  have hledger := hinv.history.ledger hgtxs hnc
  have hpool : PoolInv C magic (chainTxs hist) (submitted evs) s.mempool := by
    subst hs hhist
    exact poolInv_run hg store magic hnc hsub (fun _ htx => htx) fun _ htx => htx
  obtain ⟨hafter, hbefore⟩ := toNat_nextBlockTimestamp hmed hword hclock
  have hlen := s.mempool.length_take_le order 500
  refine ⟨fun fuel hfuel b hb hsep => ?_, fun nonce params hparams hpow hsep => ?_⟩
  · obtain ⟨nonce, rfl, hpow⟩ := mineBlock_eq_some hfuel hb
    rw [hinv.addBlock_assemble_iff hg trivial hpow hafter hbefore hlen hsep]
    constructor
    · rintro ⟨⟨fees, hmin, -⟩, hfits⟩
      rw [hinv.toNat_minedReward hledger (fun _ h => h) hpool horder hmin] at hfits
      exact ⟨fees, hmin, hfits⟩
    · rintro ⟨fees, hmin, hfits⟩
      have hreward := hinv.toNat_minedReward hledger (fun _ h => h) hpool horder hmin
      exact ⟨⟨fees, hmin, hreward.le⟩, by rwa [hreward]⟩
  · subst hparams
    rw [submittedBlock_toParams] at hsep
    have hpow' : (s.assemble C address (UInt64.ofNat (s.cappedBlockReward (s.height + 1)))
      (UInt64.ofNat (s.nextBlockTimestamp now)) nonce (s.mempool.take order 500)).header.meetsTarget
        C = true := hpow
    have hminted := totalMinted_add_cappedBlockReward_lt (replay_minted_lt hinv.replay_eq)
      (s.height + 1)
    have hreward : (UInt64.ofNat (s.cappedBlockReward (s.height + 1))).toNat =
        s.cappedBlockReward (s.height + 1) := by
      rw [UInt64.toNat_ofNat', Nat.mod_eq_of_lt (by omega)]
    rw [submitBlock_toParams_accepted_iff hpow, submittedBlock_toParams,
      hinv.addBlock_assemble_iff hg trivial hpow' hafter hbefore hlen hsep, hreward]
    constructor
    · rintro ⟨⟨fees, hmin, -⟩, -⟩
      exact ⟨fees, hmin⟩
    · rintro ⟨fees, hmin⟩
      exact ⟨⟨fees, hmin, le_saturatingAdd (by omega)⟩, Or.inl hminted⟩

/-- Over the sample primitives the first attempt succeeds. -/
theorem mineBlock_sample (hbits : s.nextBits = regtestGenesisBits) (now : ℕ)
    (order : List (String × Transaction)) (address : String) :
    s.mineBlock Crypto.sample 1 now order address =
      some (s.blockToMine Crypto.sample now order address) := by
  rw [mineBlock, mineBlockHeader, if_pos (meetsTarget_sample hbits)]
  rfl

/-! ### One payment of a matured output, and two -/

/-- The first payment of the reward of block 1. -/
def payFirst : Transaction := spendTx payCoinbase 1 32188180000 1

/-- The second payment of the same output. -/
def paySecond : Transaction := spendTx payCoinbase 1 32188170000 2

/-- The reward of block 1 matures, and is spent. -/
def pendingRun : List Event :=
  deliver (fun _ => sampleNow) 0 (idleChain 100).tail ++ [.submitTransaction payFirst]

/-- The entry of the mempool after that. -/
def pendingOrder : List (String × Transaction) := [(payFirst.txidHex Crypto.sample, payFirst)]

/-- The reward of block 1 matures, and is spent twice. -/
def conflictRun : List Event :=
  deliver (fun _ => sampleNow) 0 (idleChain 100).tail ++
    [.submitTransaction payFirst, .submitTransaction paySecond]

/-- The entries of the mempool after that. -/
def conflictOrder : List (String × Transaction) :=
  [(payFirst.txidHex Crypto.sample, payFirst), (paySecond.txidHex Crypto.sample, paySecond)]

/-- The clock when a block is made of the entries. -/
def conflictNow : ℕ := 1700000200

/-- A payment is told apart from its input by its size. -/
theorem txidHex_spendTx_ne (value lockTime : UInt64) :
    (spendTx payCoinbase 1 value lockTime).txidHex Crypto.sample ≠
      payCoinbase.txidHex Crypto.sample := by
  have hsize := serializedSize_spendTx payCoinbase 1 value lockTime
  have hpay : payCoinbase.serializedSize = 217 := by decide +kernel
  exact txidHex_sample_ne (by omega) (by omega) (by omega)

/-- Transactions that differ in size or lock time do not collide. -/
theorem noTxCollision_sample {P l : List Transaction} (hsub : ∀ tx ∈ P, tx ∈ l)
    (hsize : ∀ tx ∈ l, tx.serializedSize < 2 ^ 64)
    (hnodup : (l.map fun tx => (tx.serializedSize, tx.lockTime)).Nodup) :
    NoTxCollision Crypto.sample P := by
  intro tx htx tx' htx' heq
  have hlen := sampleDigest_length (hsize tx (hsub tx htx)) (hsize tx' (hsub tx' htx')) heq
  have hlock := Transaction.lockTime_eq_of_txid heq
  rw [List.inj_on_of_nodup_map hnodup (hsub tx htx) (hsub tx' htx') (Prod.ext hlen hlock)]

theorem noTxCollision_pendingRun : NoTxCollision Crypto.sample (submitted pendingRun) := by
  have hone : ∀ tx ∈ submitted pendingRun, tx = payFirst := by
    intro tx htx
    rcases List.mem_append.mp (mem_submitted.mp htx) with hev | hev
    · exact absurd hev (submitTransaction_notMem_deliver _ _ _ _)
    · exact Event.submitTransaction.inj (List.mem_singleton.mp hev)
  intro tx htx tx' htx' _
  rw [hone tx htx, hone tx' htx']

theorem noTxCollision_conflictRun : NoTxCollision Crypto.sample (submitted conflictRun) := by
  have hfirst : payFirst.serializedSize = 5619 := serializedSize_spendTx _ _ _ _
  have hsecond : paySecond.serializedSize = 5619 := serializedSize_spendTx _ _ _ _
  refine noTxCollision_sample (l := [payFirst, paySecond]) (fun tx htx => ?_) ?_ ?_
  · rcases List.mem_append.mp (mem_submitted.mp htx) with hev | hev
    · exact absurd hev (submitTransaction_notMem_deliver _ _ _ _)
    · exact List.mem_pair.mpr
        ((List.mem_pair.mp hev).imp Event.submitTransaction.inj Event.submitTransaction.inj)
  · simp [hfirst, hsecond]
  · simp only [List.map_cons, List.map_nil, hfirst, hsecond]
    decide

theorem not_txsOk_of_conflict {magic : UInt32} {h : ℕ} {u u' : UtxoSet} (value value' : UInt64)
    (lockTime lockTime' : UInt64) :
    ¬ TxsOk Crypto.sample magic h u [spendTx payCoinbase 1 value lockTime,
      spendTx payCoinbase 1 value' lockTime'] u' := by
  intro hok
  have hnames : ∀ v l, UtxoSet.key (payCoinbase.txidHex Crypto.sample) 0 ∈
      (spendTx payCoinbase 1 v l).inputs.map TxInput.outpoint := fun v l => by
    rw [outpoints_spendTx]
    exact List.mem_cons_self
  have hcreated := hok.mem_created_of_pair (isCoinbase_spendTx _ _ _ _) (hnames _ _) (hnames _ _)
  obtain ⟨i, -, heq⟩ := UtxoSet.mem_createdKeys.mp hcreated
  exact txidHex_spendTx_ne value lockTime (UtxoSet.key_inj heq).1.symm

/-- On top of block 100, a payment of the reward of block 1 is admitted while the mempool has room
for it. -/
theorem submitTransaction_payment {s : Blockchain} (hutxo : s.utxoSet = idleUtxo 100)
    (hmagic : s.networkMagic = regtestMagic) (hheight : s.height = 101)
    (hroom : s.mempool.totalBytes ≤ 5619) (value lockTime : UInt64)
    (hdust : dustLimitArkes ≤ value.toNat)
    (hfee : minFeeArkes ≤ 1 * (32188184932 : UInt64).toNat - value.toNat) :
    (s.submitTransaction Crypto.sample (spendTx payCoinbase 1 value lockTime)).2 =
      { s with
        mempool := s.mempool.insertTx Crypto.sample (spendTx payCoinbase 1 value lockTime)
          (1 * (32188184932 : UInt64).toNat - value.toNat) } := by
  have hvalue : (32188184932 : UInt64).toNat = 32188184932 := rfl
  rw [hvalue] at hfee ⊢
  have hle : value.toNat ≤ 1 * 32188184932 := by
    rw [minFeeArkes] at hfee
    omega
  refine submitTransaction_of_txOk ?_ hfee ?_
  · rw [hutxo, hmagic, hheight]
    exact txOk_spendTx_payCoinbase lockTime (by decide) hdust hle
  · rw [serializedSize_spendTx, maxMempoolBytes]
    omega

/-- What the node holds after the idle chain. -/
theorem run_idleChain : ∃ s, run Crypto.sample
      (fromGenesisWithMagic Crypto.sample sampleGenesis none regtestMagic)
      (deliver (fun _ => sampleNow) 0 (idleChain 100).tail) = s ∧
    Inv Crypto.sample regtestMagic Set.univ sampleGenesis (idleChain 100) s ∧
    s.blocks = idleChain 100 ∧ s.utxoSet = idleUtxo 100 ∧ s.height = 101 ∧
    s.mempool = Mempool.new := by
  have hchain := sampleChain_idleChain (n := 100) (by decide)
  obtain ⟨s, -, hrun, hinv, hblocks, hutxo, -⟩ := hchain.run_deliver (by decide)
  refine ⟨s, hrun, hinv, hblocks, hutxo, ?_, ?_⟩
  · exact hchain.height_getLast? (hblocks ▸ s.getLast?_blocks)
  · rw [← hrun]
    exact mempool_run_new (submitTransaction_notMem_deliver _ _ _) rfl

/-- What it holds after one payment. -/
theorem run_pendingRun : ∃ s, run Crypto.sample
      (fromGenesisWithMagic Crypto.sample sampleGenesis none regtestMagic) pendingRun = s ∧
    Inv Crypto.sample regtestMagic Set.univ sampleGenesis (idleChain 100) s ∧
    s.blocks = idleChain 100 ∧ s.utxoSet = idleUtxo 100 ∧ s.height = 101 ∧
    s.mempool = Mempool.new.insertTx Crypto.sample payFirst 4932 := by
  obtain ⟨s, hrun, hinv, hblocks, hutxo, hheight, hmempool⟩ := run_idleChain
  have hfirst : (s.submitTransaction Crypto.sample payFirst).2 =
      { s with mempool := s.mempool.insertTx Crypto.sample payFirst 4932 } :=
    submitTransaction_payment hutxo hinv.magic_eq hheight (by rw [hmempool]; decide) 32188180000 1
      (by decide) (by decide)
  refine ⟨{ s with mempool := s.mempool.insertTx Crypto.sample payFirst 4932 }, ?_,
    hinv.withMempool _, hblocks, hutxo, hheight, by rw [hmempool]⟩
  rw [pendingRun, run_append, hrun]
  exact hfirst

/-- What it holds after both. -/
theorem run_conflictRun : ∃ s, run Crypto.sample
      (fromGenesisWithMagic Crypto.sample sampleGenesis none regtestMagic) conflictRun = s ∧
    Inv Crypto.sample regtestMagic Set.univ sampleGenesis (idleChain 100) s ∧
    s.blocks = idleChain 100 ∧
    s.mempool.txs = ((∅ : Table Transaction).insert (payFirst.txidHex Crypto.sample)
      payFirst).insert (paySecond.txidHex Crypto.sample) paySecond := by
  obtain ⟨s, hrun, hinv, hblocks, hutxo, hheight, hmempool⟩ := run_pendingRun
  have hroom : s.mempool.totalBytes ≤ 5619 := by
    have hle := Mempool.new.insertTx_totalBytes_le (C := Crypto.sample) payFirst 4932
    rw [payFirst, serializedSize_spendTx] at hle
    rw [hmempool, payFirst]
    exact hle
  have hsecond : (s.submitTransaction Crypto.sample paySecond).2 =
      { s with mempool := s.mempool.insertTx Crypto.sample paySecond 14932 } :=
    submitTransaction_payment hutxo hinv.magic_eq hheight hroom 32188170000 2
      (by decide) (by decide)
  refine ⟨{ s with mempool := s.mempool.insertTx Crypto.sample paySecond 14932 }, ?_,
    hinv.withMempool _, hblocks, ?_⟩
  · have hsplit : conflictRun = pendingRun ++ [.submitTransaction paySecond] := by
      simp [conflictRun, pendingRun]
    rw [hsplit, run_append, hrun]
    exact hsecond
  · show (s.mempool.insertTx Crypto.sample paySecond 14932).txs = _
    rw [Mempool.insertTx_txs, hmempool, Mempool.insertTx_txs]
    rfl

/-- Submissions add nothing to the blocks. -/
theorem mem_idleChain_of_history (txs : List Transaction) {x : Block}
    (hx : x ∈ (fromGenesisWithMagic Crypto.sample sampleGenesis none regtestMagic).blocks ++
      recorded Crypto.sample (fromGenesisWithMagic Crypto.sample sampleGenesis none regtestMagic)
        (deliver (fun _ => sampleNow) 0 (idleChain 100).tail ++ txs.map .submitTransaction)) :
    x ∈ idleChain 100 := by
  rcases List.mem_append.mp hx with hx | hx
  · exact List.mem_singleton.mp hx ▸ List.mem_cons_self
  · obtain ⟨now, hev⟩ := exists_event_of_mem_recorded hx
    rcases List.mem_append.mp hev with hev | hev
    · exact List.mem_of_mem_tail (mem_of_mem_deliver hev)
    · simp at hev

theorem mem_idleChain_of_pendingRun {x : Block} (hx : x ∈ sampleGenesis :: recorded Crypto.sample
    (fromGenesisWithMagic Crypto.sample sampleGenesis none regtestMagic) pendingRun) :
    x ∈ idleChain 100 := by
  rcases List.mem_cons.mp hx with rfl | hx
  · exact List.mem_cons_self
  · exact mem_idleChain_of_history [payFirst] (List.mem_append_right _ hx)

/-- Two entries are selected in some order. -/
theorem take_conflictOrder (m : Mempool) :
    m.take conflictOrder 500 = [payFirst, paySecond] ∨
      m.take conflictOrder 500 = [paySecond, payFirst] := by
  have hperm := List.mergeSort_perm conflictOrder m.takeLe
  have hlen : (conflictOrder.mergeSort m.takeLe).length ≤ 500 := by
    rw [hperm.length_eq]
    decide
  rw [Mempool.take, List.take_of_length_le hlen]
  exact List.perm_pair.mp (hperm.map Prod.snd)

theorem iterOrder_conflictOrder {m : Mempool}
    (hm : m.txs = ((∅ : Table Transaction).insert (payFirst.txidHex Crypto.sample)
      payFirst).insert (paySecond.txidHex Crypto.sample) paySecond) :
    m.IterOrder conflictOrder := by
  have hne : payFirst.txidHex Crypto.sample ≠ paySecond.txidHex Crypto.sample := fun heq =>
    absurd (Transaction.lockTime_eq_of_txid (hashToHex_injective heq)) (by decide)
  refine ⟨List.nodup_cons.mpr ⟨fun h => hne (List.mem_singleton.mp h), List.nodup_singleton _⟩, ?_⟩
  intro txid tx
  rw [hm, Finmap.lookup_insert_eq, Finmap.lookup_insert_eq, Finmap.lookup_empty, conflictOrder,
    List.mem_cons, List.mem_singleton, Prod.mk.injEq, Prod.mk.injEq]
  constructor
  · rintro (⟨rfl, rfl⟩ | ⟨rfl, rfl⟩)
    · rw [if_neg hne, if_pos rfl]
    · rw [if_pos rfl]
  · intro h
    split at h
    · next heq => exact Or.inr ⟨heq, (Option.some.inj h).symm⟩
    · split at h
      · next heq => exact Or.inl ⟨heq, (Option.some.inj h).symm⟩
      · cases h

theorem iterOrder_pendingOrder {m : Mempool}
    (hm : m.txs = (∅ : Table Transaction).insert (payFirst.txidHex Crypto.sample) payFirst) :
    m.IterOrder pendingOrder := by
  refine ⟨List.nodup_singleton _, fun txid tx => ?_⟩
  rw [hm, Finmap.lookup_insert_eq, Finmap.lookup_empty, pendingOrder, List.mem_singleton,
    Prod.mk.injEq]
  split_ifs with heq
  · simp [heq, eq_comm]
  · simp [heq]

theorem take_pendingOrder (m : Mempool) : m.take pendingOrder 500 = [payFirst] := by
  rw [Mempool.take, pendingOrder, List.mergeSort_singleton]
  rfl

/-- The payment is minable. -/
theorem minable_pendingOrder {s : Blockchain} (hblocks : s.blocks = idleChain 100)
    (hutxo : s.utxoSet = idleUtxo 100) (hmagic : s.networkMagic = regtestMagic)
    (hheight : s.height = 101) (hbits : s.nextBits = regtestGenesisBits) :
    Minable Crypto.sample s sampleAddress (s.mempool.take pendingOrder 500) 4932 := by
  have hmature : (idleUtxo 100).isImmatureCoinbase (payCoinbase.txidHex Crypto.sample) 102 =
      false := by
    show (idleUtxo 1).isImmatureCoinbase _ _ = _
    decide +kernel
  have hok : TxOk Crypto.sample payFirst s.utxoSet s.networkMagic (s.height + 1) 4932 := by
    have hvalue : (32188184932 : UInt64).toNat = 32188184932 := rfl
    have hspend := @txOk_spendTx payCoinbase 1 32188180000 1 _ _ _ (lookup_payCoinbase 99) rfl
      hmature (by decide) (by decide) (by decide)
    rw [hvalue] at hspend
    rw [hutxo, hmagic, hheight]
    exact hspend
  have hsize : payFirst.serializedSize = 5619 := serializedSize_spendTx _ _ _ _
  have hops : payFirst.inputs.length + payFirst.outputs.length = 2 := rfl
  rw [take_pendingOrder]
  refine ⟨?_, ?_, ?_, ⟨_, validateTransactions_eq_ok_iff.mpr (.cons hok .nil)⟩, ?_⟩
  · rw [List.map_singleton, List.sum_singleton, hsize]
    decide +kernel
  · rw [List.map_singleton, List.sum_singleton, hops]
    decide
  · exact totalFees_eq_ok_iff.mpr ⟨[4932], .cons hok .nil, rfl, by decide⟩
  · rw [hblocks, hbits, workOf_idleChain]
    decide +kernel

/-- Neither order of the two payments is minable. -/
theorem not_minable_conflictOrder {s : Blockchain} {fees : ℕ} :
    ¬ Minable Crypto.sample s address (s.mempool.take conflictOrder 500) fees := by
  rintro ⟨-, -, -, ⟨u, hu⟩, -⟩
  have htxs := validateTransactions_eq_ok_iff.mp hu
  rcases take_conflictOrder s.mempool with heq | heq
  · rw [heq] at htxs
    exact not_txsOk_of_conflict _ _ _ _ htxs
  · rw [heq] at htxs
    exact not_txsOk_of_conflict _ _ _ _ htxs

/-! ### Making a block of both -/

theorem timestamp_le_of_mem_idleChain {x : Block} (hx : x ∈ idleChain 100) :
    x.header.timestamp.toNat ≤ 1700000101 := by
  obtain ⟨i, hi, -, htime⟩ := timestamp_of_mem_idleChain hx
  rw [htime, toNat_sampleTime (by omega)]
  omega

section Conflict

variable {s : Blockchain} (hblocks : s.blocks = idleChain 100)

include hblocks

theorem medianPastTime_lt_conflictNow : s.medianPastTime < conflictNow := by
  rw [medianPastTime, hblocks]
  exact medianPastTimeForBlocks_lt
    (fun x hx => (timestamp_le_of_mem_idleChain hx).trans_lt (by decide)) (by decide)

theorem nextBlockTimestamp_conflictNow :
    UInt64.ofNat (s.nextBlockTimestamp conflictNow) = 1700000200 := by
  rw [nextBlockTimestamp, Nat.max_eq_left (medianPastTime_lt_conflictNow hblocks)]
  rfl

theorem nextBits_conflict : s.nextBits = regtestGenesisBits := by
  rw [nextBits, hblocks, nextBitsForBlocks_of_getLast? (getLast?_idleChain 100)
    (by rw [height_idleBlock]; decide), bits_idleBlock]

omit hblocks in
/-- Whatever the node assembles on top of block 100 is later than every block before it, so new. -/
theorem separated_assemble_conflict (reward nonce : UInt64) (selected : List Transaction) :
    Separated Crypto.sample (idleChain 100 ++
      [s.assemble Crypto.sample sampleAddress reward 1700000200 nonce selected]) := by
  refine (separated_idleChain (by decide)).append_singleton fun x hx heq => ?_
  have htime : x.header.timestamp = 1700000200 := timestamp_eq_of_hashHex heq
  have hle := timestamp_le_of_mem_idleChain hx
  rw [htime] at hle
  exact absurd hle (by decide)

/-- A block of the two payments is refused, whatever it claims. -/
theorem addBlock_assemble_conflict (hinv : Inv Crypto.sample regtestMagic Set.univ sampleGenesis
    (idleChain 100) s) (reward nonce : UInt64) :
    (s.addBlock Crypto.sample conflictNow (s.assemble Crypto.sample sampleAddress reward 1700000200
      nonce (s.mempool.take conflictOrder 500))).1 ≠ .ok () := by
  have hpow : (s.assemble Crypto.sample sampleAddress reward 1700000200 nonce
      (s.mempool.take conflictOrder 500)).header.meetsTarget Crypto.sample = true :=
    meetsTarget_sample (nextBits_conflict hblocks)
  have hmed := medianPastTime_lt_conflictNow hblocks
  intro hok
  rw [hinv.addBlock_assemble_iff rfl trivial hpow (hmed.trans_le (by decide)) (by decide)
    (s.mempool.length_take_le _ _) (separated_assemble_conflict _ _ _)] at hok
  obtain ⟨fees, hmin, -⟩ := hok.1
  exact not_minable_conflictOrder hmin

end Conflict

/-- The blocks of a payment that has matured are accepted, made either way. -/
theorem own_block_accepted_iff_payment : ∃ s₀ s b params,
    newForNetwork Crypto.sample 1 "regtest" = some s₀ ∧ s = run Crypto.sample s₀ pendingRun ∧
    s.mineBlock Crypto.sample 1 conflictNow pendingOrder sampleAddress = some b ∧
    b.transactions.tail = [payFirst] ∧ (s.addBlock Crypto.sample conflictNow b).1 = .ok () ∧
    params = (Rpc.getBlockTemplate Crypto.sample conflictNow s pendingOrder sampleAddress).toParams
      sampleAddress 0 ∧
    (Rpc.submitBlock Crypto.sample conflictNow s pendingOrder params).1.accepted = true := by
  obtain ⟨s, hrun, hinv, hblocks, hutxo, hheight, hmempool⟩ := run_pendingRun
  have hmed := medianPastTime_lt_conflictNow hblocks
  have hbits := nextBits_conflict hblocks
  have hmin := minable_pendingOrder hblocks hutxo hinv.magic_eq hheight hbits
  have hminted : s.totalMinted + saturatingAdd 64 (s.cappedBlockReward (s.height + 1)) 4932 <
      2 ^ 64 := by
    have hrep := hinv.replay_eq
    rw [hblocks, replay_idleChain] at hrep
    have htotal : idleMinted = s.totalMinted := (Prod.mk.inj (Except.ok.inj hrep)).2
    have hcapped : s.cappedBlockReward (s.height + 1) ≤ maxSupplyArkes - s.totalMinted :=
      Nat.min_le_right _ _
    have hmax : maxSupplyArkes = 31415926000000000 := rfl
    have hle := @saturatingAdd_le 64 (s.cappedBlockReward (s.height + 1)) 4932
    rw [idleMinted] at htotal
    omega
  have horder : s.mempool.IterOrder pendingOrder := iterOrder_pendingOrder (by
    rw [hmempool, Mempool.insertTx_txs]
    rfl)
  obtain ⟨hist, hhist⟩ : ∃ hist, hist = sampleGenesis :: recorded Crypto.sample
    (fromGenesisWithMagic Crypto.sample sampleGenesis none regtestMagic) pendingRun := ⟨_, rfl⟩
  have hidle : ∀ x ∈ hist, x ∈ idleChain 100 := fun x hx =>
    mem_idleChain_of_pendingRun (by rwa [hhist] at hx)
  have hstamp := nextBlockTimestamp_conflictNow hblocks
  have hsep : ∀ b reward, b = s.assemble Crypto.sample sampleAddress reward
      (UInt64.ofNat (s.nextBlockTimestamp conflictNow)) 0 (s.mempool.take pendingOrder 500) →
        Separated Crypto.sample (hist ++ [b]) := by
    rintro b reward rfl
    rw [hstamp]
    exact (separated_assemble_conflict _ _ _).mono fun x hx => (List.mem_append.mp hx).elim
      (fun hx => List.mem_append_left _ (hidle x hx)) (List.mem_append_right _)
  obtain ⟨hmined, htemplate⟩ := own_block_accepted_iff Crypto.sample 1 regtestGenesisBits
    sampleGenesis genesisBlockWithBits_sample none regtestMagic pendingRun s hrun.symm hist hhist
    ((noCollision_idleChain (by decide)).mono hidle) noTxCollision_pendingRun
    conflictNow conflictNow
    (hmed.trans_le (by decide)) (by decide) le_rfl pendingOrder horder sampleAddress
  refine ⟨_, s, _, _, newForNetwork_sample, hrun.symm, mineBlock_sample hbits _ _ _,
    take_pendingOrder _, ?_, rfl, ?_⟩
  · exact (hmined 1 (by norm_num) _ (mineBlock_sample hbits _ _ _) (hsep _ _ rfl)).mpr
      ⟨4932, hmin, Or.inl hminted⟩
  · exact (htemplate 0 _ rfl (meetsTarget_sample hbits) (hsep _ _ rfl)).mpr
      ⟨4932, hmin⟩

/-- **Two payments of one output are enough for a node to refuse its own block.** Both are admitted
to the mempool, `mine_block` and the template take both, and `add_block` refuses the block. There is
no collision among what is hashed. -/
theorem own_block_refused : ∃ s₀ s hist b nonce params,
    newForNetwork Crypto.sample 1 "regtest" = some s₀ ∧ s = run Crypto.sample s₀ conflictRun ∧
    hist = s₀.blocks ++ recorded Crypto.sample s₀ conflictRun ∧ NoCollision Crypto.sample hist ∧
    NoTxCollision Crypto.sample (submitted conflictRun) ∧
    s.medianPastTime < conflictNow + 7200 ∧ s.mempool.IterOrder conflictOrder ∧
    s.mineBlock Crypto.sample 1 conflictNow conflictOrder sampleAddress = some b ∧
    Separated Crypto.sample (hist ++ [b]) ∧ (s.addBlock Crypto.sample conflictNow b).1 ≠ .ok () ∧
    params = (Rpc.getBlockTemplate Crypto.sample conflictNow s conflictOrder sampleAddress).toParams
      sampleAddress nonce ∧
    params.header.meetsTarget Crypto.sample = true ∧
    Separated Crypto.sample (hist ++ [Rpc.submittedBlock s conflictOrder params]) ∧
    (Rpc.submitBlock Crypto.sample conflictNow s conflictOrder params).1.accepted = false := by
  obtain ⟨s, hrun, hinv, hblocks, htxs⟩ := run_conflictRun
  have hmed := medianPastTime_lt_conflictNow hblocks
  have hstamp := nextBlockTimestamp_conflictNow hblocks
  have hbits := nextBits_conflict hblocks
  have hmined : s.blockToMine Crypto.sample conflictNow conflictOrder sampleAddress =
      s.assemble Crypto.sample sampleAddress
        (UInt64.ofNat (s.minedReward Crypto.sample conflictOrder))
        1700000200 0 (s.mempool.take conflictOrder 500) := by
    rw [blockToMine_eq, hstamp]
  have hrebuilt : Rpc.submittedBlock s conflictOrder
      ((Rpc.getBlockTemplate Crypto.sample conflictNow s conflictOrder sampleAddress).toParams
        sampleAddress 0) =
      s.assemble Crypto.sample sampleAddress (UInt64.ofNat (s.cappedBlockReward (s.height + 1)))
        1700000200 0 (s.mempool.take conflictOrder 500) := by
    rw [submittedBlock_toParams, hstamp]
  have hmeets : ((Rpc.getBlockTemplate Crypto.sample conflictNow s conflictOrder
      sampleAddress).toParams sampleAddress 0).header.meetsTarget Crypto.sample = true :=
    meetsTarget_sample hbits
  -- what holds of the blocks of the chain holds of the fewer blocks of the history
  have hnew : ∀ b, Separated Crypto.sample (idleChain 100 ++ [b]) → Separated Crypto.sample
      ((fromGenesisWithMagic Crypto.sample sampleGenesis none regtestMagic).blocks ++
        recorded Crypto.sample (fromGenesisWithMagic Crypto.sample sampleGenesis none regtestMagic)
          conflictRun ++ [b]) := fun b h => h.mono fun x hx =>
    (List.mem_append.mp hx).elim (fun hx =>
      List.mem_append_left _ (mem_idleChain_of_history [payFirst, paySecond] hx))
      (List.mem_append_right _)
  refine ⟨_, s, _, _, 0, _, newForNetwork_sample, hrun.symm, rfl,
    (noCollision_idleChain (by decide)).mono
      fun _ => mem_idleChain_of_history [payFirst, paySecond],
    noTxCollision_conflictRun, hmed.trans_le (Nat.le_add_right _ _), iterOrder_conflictOrder htxs,
    mineBlock_sample hbits _ _ _, hnew _ ?_, ?_, rfl, hmeets, hnew _ ?_, ?_⟩
  · rw [hmined]
    exact separated_assemble_conflict _ _ _
  · rw [hmined]
    exact addBlock_assemble_conflict hblocks hinv _ _
  · rw [hrebuilt]
    exact separated_assemble_conflict _ _ _
  · rw [← Bool.not_eq_true, submitBlock_toParams_accepted_iff hmeets, hrebuilt]
    exact addBlock_assemble_conflict hblocks hinv _ _

end Blockchain

end Arkos
