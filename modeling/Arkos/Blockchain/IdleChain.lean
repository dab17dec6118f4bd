import Arkos.Blockchain.Growth

/-!
# Chains over the sample primitives

Long chains that can be reasoned about without running them. A coinbase can only be spent a hundred
blocks later, so anything concrete about spending needs a chain of that length first. `idleChain n`
pays one reward in its first block and nothing in the `n` blocks after it; it is valid for every `n`
up to the first difficulty adjustment, and what its replay leaves unspent does not depend on `n`.

`spendTx` is a signed payment of an output to the same key that names the output any number of
times. `txOk_spendTx` says when it validates, which is all later modules need of it.

## Main definitions

* `SampleStrings` — strings the sample digest tells apart
* `childBlock` — a block on top of another with given transactions
* `idleChain`, `idleUtxo`
* `SampleChain` — a valid chain over the sample primitives, with what its replay yields
* `spendTx`

## Main results

* `sampleDigest_length`, `sampleDigest_tail` — what the sample digest gives away
* `SampleStrings.noCollision` — chains on which it does not collide
* `extends_childBlock`
* `validChain_idleChain`, `replay_idleChain`, `noCollision_idleChain`
* `SampleChain.snoc`, `SampleChain.run_deliver`
* `txOk_spendTx`, `SampleChain.spend`
-/

namespace Arkos

/-! ### The sample digest -/

theorem sampleDigest_length {a b : Bytes} (ha : a.length < 2 ^ 64) (hb : b.length < 2 ^ 64)
    (h : sampleDigest a = sampleDigest b) : a.length = b.length := by
  have hl := congrArg List.Vector.toList h
  simp only [sampleDigest, List.Vector.toList_mk, List.cons.injEq, true_and] at hl
  exact leBytes_inj ha hb (List.append_inj hl (by simp)).1

/-- Transactions of different sizes have different txids. -/
theorem txidHex_sample_ne {tx tx' : Transaction} (h : tx.serializedSize < 2 ^ 64)
    (h' : tx'.serializedSize < 2 ^ 64) (hne : tx.serializedSize ≠ tx'.serializedSize) :
    tx.txidHex Crypto.sample ≠ tx'.txidHex Crypto.sample :=
  fun heq => hne (sampleDigest_length h h' (hashToHex_injective heq))

/-- The part of the sample digest that depends on the bytes. -/
def sampleTail (data : Bytes) : Bytes := (data.reverse ++ List.replicate 23 0).take 23

theorem toList_sampleDigest (data : Bytes) :
    (sampleDigest data).toList = (0 :: leBytes 8 data.length) ++ sampleTail data := rfl

theorem length_sampleTail (data : Bytes) : (sampleTail data).length = 23 := by
  rw [sampleTail, List.length_take, List.length_append, List.length_replicate]
  omega

/-- The last bytes of a string can be read off that part. -/
theorem sampleTail_inj {a b t t' : Bytes} (ht : t.length = t'.length) (hle : t.length ≤ 23)
    (h : sampleTail (a ++ t) = sampleTail (b ++ t')) : t = t' := by
  have hread : ∀ c s : Bytes, s.length = t.length →
      (sampleTail (c ++ s)).take t.length = s.reverse := by
    intro c s hs
    rw [sampleTail, List.take_take, Nat.min_eq_left hle, List.reverse_append, List.append_assoc,
      List.take_append_of_le_length (by rw [List.length_reverse, hs]),
      List.take_of_length_le (by rw [List.length_reverse, hs])]
  have htake := congrArg (List.take t.length) h
  rw [hread a t rfl, hread b t' ht.symm] at htake
  exact List.reverse_injective htake

/-- The last bytes of a string can be read off its digest. -/
theorem sampleDigest_tail {a b t t' : Bytes} (ht : t.length = t'.length) (hle : t.length ≤ 23)
    (h : sampleDigest (a ++ t) = sampleDigest (b ++ t')) : t = t' := by
  have hl := congrArg List.Vector.toList h
  rw [toList_sampleDigest, toList_sampleDigest] at hl
  exact sampleTail_inj ht hle (List.append_inj hl (by simp)).2

/-- Only the empty string could have the all-zero digest. -/
theorem txidHex_sample_ne_zeroHashHex {tx : Transaction} (h : tx.serializedSize < 2 ^ 64) :
    tx.txidHex Crypto.sample ≠ zeroHashHex := by
  intro heq
  have hzero : zeroHashHex = hexEncode (List.replicate 32 0) := by decide +kernel
  have hdigest : (sampleDigest tx.encode).toList = List.replicate 32 0 :=
    hexEncode_injective (heq.trans hzero)
  have htake := congrArg (fun l : Bytes => (l.drop 1).take 8) hdigest
  simp only [sampleDigest, List.Vector.toList_mk, List.drop_succ_cons, List.drop_zero,
    List.take_append_of_le_length, length_leBytes, le_refl] at htake
  rw [List.take_of_length_le (by rw [length_leBytes])] at htake
  have hlen : tx.encode.length = 0 := leBytes_inj (k := 8) h (by norm_num) htake
  simp only [Transaction.encode, encList, List.length_append, length_leBytes] at hlen
  omega

/-- Headers with different timestamps have different hashes. -/
theorem timestamp_eq_of_sampleDigest {h h' : BlockHeader}
    (heq : sampleDigest h.powBytes = sampleDigest h'.powBytes) : h.timestamp = h'.timestamp := by
  have hsplit : ∀ k : BlockHeader, k.powBytes =
      (leBytes 4 k.version.toNat ++ (hex32OrBytes k.prevHash ++ hex32OrBytes k.merkleRoot)) ++
        (leBytes 8 k.timestamp.toNat ++
          (leBytes 4 k.bits.toNat ++ (leBytes 8 k.nonce.toNat ++ [0]))) := by
    intro k
    rw [BlockHeader.powBytes]
    simp only [List.append_assoc]
  rw [hsplit h, hsplit h'] at heq
  have htail := sampleDigest_tail (by simp) (by simp) heq
  have htime := (List.append_inj htail (by simp)).1
  exact UInt64.toNat_inj.mp (leBytes_inj h.timestamp.toNat_lt h'.timestamp.toNat_lt htime)

theorem timestamp_eq_of_hashHex {b b' : Block}
    (h : b.hashHex Crypto.sample = b'.hashHex Crypto.sample) :
    b.header.timestamp = b'.header.timestamp :=
  timestamp_eq_of_sampleDigest (hashToHex_injective h)

/-- Blocks with different timestamps are separated. -/
theorem separated_of_timestamps {bs : List Block}
    (h : ∀ b ∈ bs, ∀ b' ∈ bs, b.header.timestamp = b'.header.timestamp → b = b') :
    Separated Crypto.sample bs :=
  fun b hb b' hb' heq => h b hb b' hb' (timestamp_eq_of_hashHex heq)

/-- A Merkle node over a digest and a transaction. -/
def nodeString (p : Hash × Transaction) : Bytes := p.1.toList ++ (p.2.txid Crypto.sample).toList

/-- A transaction ends in its lock time. -/
theorem Transaction.encode_eq_append_lockTime (tx : Transaction) :
    tx.encode = (encList TxInput.encode tx.inputs ++ (encList TxOutput.encode tx.outputs ++
      leBytes 4 tx.version.toNat)) ++ leBytes 8 tx.lockTime.toNat := by
  simp only [Transaction.encode, List.append_assoc]

/-- The digest of a transaction tells its lock time. -/
theorem Transaction.lockTime_eq_of_txid {tx tx' : Transaction}
    (h : tx.txid Crypto.sample = tx'.txid Crypto.sample) : tx.lockTime = tx'.lockTime := by
  have hdigest : sampleDigest tx.encode = sampleDigest tx'.encode := h
  rw [tx.encode_eq_append_lockTime, tx'.encode_eq_append_lockTime] at hdigest
  have htail := sampleDigest_tail (by simp) (by simp) hdigest
  exact UInt64.toNat_inj.mp (leBytes_inj tx.lockTime.toNat_lt tx'.lockTime.toNat_lt htail)

/-- Such nodes end in the digest of the transaction, and this in its lock time. -/
theorem lockTime_eq_of_sampleDigest {p q : Hash × Transaction}
    (h : sampleDigest (nodeString p) = sampleDigest (nodeString q)) :
    p.2.lockTime = q.2.lockTime := by
  have hsplit : ∀ p : Hash × Transaction, nodeString p =
      (p.1.toList ++ (0 :: leBytes 8 p.2.encode.length)) ++ sampleTail p.2.encode := by
    intro p
    rw [List.append_assoc, ← toList_sampleDigest]
    rfl
  rw [hsplit, hsplit] at h
  have htail := sampleDigest_tail (by rw [length_sampleTail, length_sampleTail])
    (by rw [length_sampleTail]) h
  rw [p.2.encode_eq_append_lockTime, q.2.encode_eq_append_lockTime] at htail
  have hlock := sampleTail_inj (by simp) (by simp) htail
  exact UInt64.toNat_inj.mp (leBytes_inj p.2.lockTime.toNat_lt q.2.lockTime.toNat_lt hlock)

/-- **Strings the sample digest tells apart**: headers of separated blocks, strings of pairwise
different lengths, and nodes over transactions with different lock times. -/
structure SampleStrings (bs : List Block) (plain : List Bytes) (nodes : List (Hash × Transaction)) :
    Prop where
  separated : Separated Crypto.sample bs
  nodup : (plain.map List.length).Nodup
  length_ne : ∀ n ∈ plain.map List.length, n ≠ 89 ∧ n ≠ 64 ∧ n < 2 ^ 64
  lockTime_inj : (nodes.map fun p => p.2.lockTime).Nodup

namespace SampleStrings

variable {bs : List Block} {plain : List Bytes} {nodes : List (Hash × Transaction)}

/-- The string is of one of the three kinds. -/
def Covers (bs : List Block) (plain : List Bytes) (nodes : List (Hash × Transaction)) (x : Bytes) :
    Prop :=
  (∃ b ∈ bs, x = b.header.powBytes) ∨ x ∈ plain ∨ ∃ p ∈ nodes, x = nodeString p

theorem length_lt (h : SampleStrings bs plain nodes) {x : Bytes} (hx : Covers bs plain nodes x) :
    x.length < 2 ^ 64 := by
  rcases hx with ⟨b, -, rfl⟩ | hx | ⟨p, -, rfl⟩
  · simp [BlockHeader.powBytes]
  · exact (h.length_ne _ (List.mem_map_of_mem hx)).2.2
  · rw [nodeString, length_pairString]
    norm_num

theorem inj (h : SampleStrings bs plain nodes) {x y : Bytes} (hx : Covers bs plain nodes x)
    (hy : Covers bs plain nodes y) (heq : sampleDigest x = sampleDigest y) : x = y := by
  -- the three kinds have different lengths
  have hlen := sampleDigest_length (h.length_lt hx) (h.length_lt hy) heq
  have hheader : ∀ b : Block, b.header.powBytes.length = 89 := fun b => by
    simp [BlockHeader.powBytes]
  have hnode : ∀ p : Hash × Transaction, (nodeString p).length = 64 := fun p =>
    length_pairString _ _
  have hplain : ∀ z ∈ plain, z.length ≠ 89 ∧ z.length ≠ 64 := fun z hz =>
    ⟨(h.length_ne _ (List.mem_map_of_mem hz)).1, (h.length_ne _ (List.mem_map_of_mem hz)).2.1⟩
  rcases hx with ⟨b, hb, rfl⟩ | hx | ⟨p, hp, rfl⟩ <;>
    rcases hy with ⟨c, hc, rfl⟩ | hy | ⟨q, hq, rfl⟩
  · rw [h.separated b hb c hc (congrArg hashToHex heq)]
  · exact absurd (hlen.symm.trans (hheader b)) (hplain y hy).1
  · rw [hheader, hnode] at hlen
    omega
  · exact absurd (hlen.trans (hheader c)) (hplain x hx).1
  · exact List.inj_on_of_nodup_map h.nodup hx hy hlen
  · exact absurd (hlen.trans (hnode q)) (hplain x hx).2
  · rw [hheader, hnode] at hlen
    omega
  · exact absurd (hlen.symm.trans (hnode p)) (hplain y hy).2
  · rw [List.inj_on_of_nodup_map h.lockTime_inj hp hq (lockTime_eq_of_sampleDigest heq)]

/-- **Blocks of a coinbase, or of a coinbase and a payment, do not collide** if their transactions
have different lengths and their payments different lock times. -/
theorem noCollision {txs : List Transaction}
    (h : SampleStrings bs (txs.map Transaction.encode) nodes)
    (hmem : ∀ b ∈ bs, (∃ cb ∈ txs, b.transactions = [cb]) ∨ ∃ cb ∈ txs, ∃ tx ∈ txs,
      b.transactions = [cb, tx] ∧ (cb.txid Crypto.sample, tx) ∈ nodes) :
    NoCollision Crypto.sample bs := by
  have hcovers : ∀ x ∈ bs.flatMap (Block.hashedStrings Crypto.sample),
      Covers bs (txs.map Transaction.encode) nodes x := by
    intro x hx
    obtain ⟨b, hb, hxb⟩ := List.mem_flatMap.mp hx
    rcases hmem b hb with ⟨cb, hcb, htxs⟩ | ⟨cb, hcb, tx, htx, htxs, hnode⟩
    · rw [hashedStrings_of_singleton htxs, List.mem_pair] at hxb
      rcases hxb with rfl | rfl
      · exact Or.inl ⟨b, hb, rfl⟩
      · exact Or.inr (Or.inl (List.mem_map_of_mem hcb))
    · rw [hashedStrings_of_pair htxs] at hxb
      simp only [List.mem_cons, List.not_mem_nil, or_false] at hxb
      rcases hxb with rfl | rfl | rfl | rfl
      · exact Or.inl ⟨b, hb, rfl⟩
      · exact Or.inr (Or.inl (List.mem_map_of_mem hcb))
      · exact Or.inr (Or.inl (List.mem_map_of_mem htx))
      · exact Or.inr (Or.inr ⟨_, hnode, rfl⟩)
  exact fun x hx y hy heq => h.inj (hcovers x hx) (hcovers y hy) heq

end SampleStrings

/-- The sample digest starts with a zero byte, which is all the easiest target asks for. -/
theorem meetsTarget_sample {h : BlockHeader} (hb : h.bits = regtestGenesisBits) :
    h.meetsTarget Crypto.sample = true := by
  have htarget : bitsToTarget regtestGenesisBits = 127 :: 255 :: 255 :: List.replicate 29 0 := by
    decide
  rw [BlockHeader.meetsTarget, hb, htarget]
  rfl

/-! ### Blocks on top of others -/

/-- A block on top of `p` at the easiest difficulty. -/
def childBlock (C : Crypto) (p : Block) (txs : List Transaction) (timestamp : UInt64) : Block where
  header :=
    { version := 1
      prevHash := p.hashHex C
      merkleRoot := merkleRoot C txs
      timestamp
      bits := regtestGenesisBits
      nonce := 0 }
  transactions := txs
  height := p.height + 1

variable {C : Crypto} {magic : UInt32} {now : ℕ} {bs : List Block}

/-- The bytes of a block on top of another are those of its transactions and 184 more. -/
theorem serializedSize_childBlock (p : Block) {txs : List Transaction} (hne : txs ≠ [])
    (timestamp : UInt64) :
    (childBlock C p txs timestamp).serializedSize =
      184 + (txs.map Transaction.serializedSize).sum := by
  obtain ⟨x, hx⟩ := exists_merkleRoot_eq (C := C) hne
  refine Block.serializedSize_eq (length_utf8_hashToHex _) ?_
  show (utf8 (merkleRoot C txs)).length = 64
  rw [hx, length_utf8_hashToHex]

/-- What a block on top of the last one needs to extend the chain. -/
theorem extends_childBlock {p : Block} (hp : bs.getLast? = some p) {u : UtxoSet} {m : ℕ}
    (hrep : replay C bs = .ok (u, m)) (hbits : p.header.bits = regtestGenesisBits)
    (hheight : (p.height + 1) % difficultyAdjustmentInterval ≠ 0) {timestamp : UInt64}
    (htime : ∀ b ∈ bs, b.header.timestamp.toNat < timestamp.toNat)
    (hnow : timestamp.toNat ≤ now + 7200) {cb : Transaction} {rest : List Transaction}
    (hpow : (childBlock C p (cb :: rest) timestamp).header.meetsTarget C = true)
    (hcb : cb.isCoinbase = true) (hcount : rest.length < maxBlockTransactions)
    (hsize : 184 + ((cb :: rest).map Transaction.serializedSize).sum ≤ maxBlockBytes)
    (hops : ((cb :: rest).map fun tx => tx.inputs.length + tx.outputs.length).sum ≤ maxBlockUtxoOps)
    (hout : cb.outputs.length ≤ maxCoinbaseOutputs) {fees : List ℕ}
    (hfees : FeesOf C u magic (p.height + 1) rest fees) (hfeeslt : fees.sum < 2 ^ 64)
    (hvalue : coinbaseValue (childBlock C p (cb :: rest) timestamp) ≤
      saturatingAdd 64 (cappedReward (p.height + 1) m) fees.sum)
    {u' : UtxoSet} (htxs : TxsOk C magic (p.height + 1) u rest u')
    (hwork : workOf bs + blockWork regtestGenesisBits < 2 ^ 128) :
    Extends C magic now bs (childBlock C p (cb :: rest) timestamp) := by
  refine ⟨⟨p, hp, ⟨rfl, hpow, ?_, ?_, hops, ⟨cb, rest, rfl, hcb⟩, rfl⟩, rfl⟩,
    ⟨u, m, hrep, ⟨?_, ?_, hnow, hout, ⟨fees, hfees, hfeeslt, hvalue⟩, ⟨u', htxs⟩⟩⟩, hwork⟩
  · exact hcount
  · rw [serializedSize_childBlock p (List.cons_ne_nil _ _)]
    exact hsize
  · rw [nextBitsForBlocks_of_getLast? hp hheight, hbits]
    rfl
  · refine medianPastTimeForBlocks_lt htime ?_
    exact lt_of_le_of_lt (Nat.zero_le _) (htime p (List.mem_of_getLast? hp))

/-! ### The idle chain -/

/-- The genesis of the regression-test network over the sample primitives. -/
def sampleGenesis : Block where
  header := genesisHeader Crypto.sample [genesisCoinbase] regtestGenesisBits
  transactions := [genesisCoinbase]
  height := 0

theorem genesisBlockWithBits_sample :
    genesisBlockWithBits Crypto.sample 1 regtestGenesisBits = some sampleGenesis := by
  rw [genesisBlockWithBits, mineBlockHeader, meetsTarget_sample rfl]
  rfl

theorem newForNetwork_sample : Blockchain.newForNetwork Crypto.sample 1 "regtest" =
    some (Blockchain.fromGenesisWithMagic Crypto.sample sampleGenesis none regtestMagic) := by
  rw [Blockchain.newForNetwork, show Blockchain.genesisBits "regtest" = regtestGenesisBits from by
    decide, genesisBlockWithBits_sample]
  rfl

/-- The key all sample outputs are paid to. -/
def sampleKey : HybridPublicKey := ⟨List.replicate 33 7, List.replicate 1952 7⟩

/-- Its address. -/
def sampleAddress : String :=
  hexEncode (Crypto.sample.hybridPubkeyToAddress sampleKey.ecdsaPubkey sampleKey.dilithiumPubkey)

/-- The coinbase of the first block, which pays one reward. -/
def payCoinbase : Transaction :=
  { Transaction.coinbase sampleAddress 0 1 with
    outputs := [⟨UInt64.ofNat (Block.blockReward 1), none, sampleAddress⟩] }

/-- A coinbase that pays nothing. -/
def idleCoinbase : Transaction := { Transaction.coinbase "" 0 0 with outputs := [] }

/-- The time a sample block is stamped with: seconds after the genesis. -/
def sampleTime (n : ℕ) : UInt64 := UInt64.ofNat (1700000000 + n)

/-- The clock of sample runs. -/
def sampleNow : ℕ := 1700000000

/-- The blocks after the genesis: one that pays, then idle ones. -/
def idleBlock : ℕ → Block
  | 0 => childBlock Crypto.sample sampleGenesis [payCoinbase] (sampleTime 1)
  | n + 1 => childBlock Crypto.sample (idleBlock n) [idleCoinbase] (sampleTime (n + 2))

/-- The genesis, the block that pays and `n` idle blocks. -/
def idleChain (n : ℕ) : List Block := sampleGenesis :: (List.range (n + 1)).map idleBlock

/-- What is unspent after them. -/
def idleUtxo : ℕ → UtxoSet
  | 0 => [genesisCoinbase, payCoinbase].foldl (UtxoSet.applyTransaction Crypto.sample) .empty
  | _ + 1 => [genesisCoinbase, payCoinbase, idleCoinbase].foldl
      (UtxoSet.applyTransaction Crypto.sample) .empty

/-- What the coinbases of the idle chain paid. -/
def idleMinted : ℕ := 64376369864

theorem idleChain_succ (n : ℕ) : idleChain (n + 1) = idleChain n ++ [idleBlock (n + 1)] := by
  rw [idleChain, List.range_succ, List.map_append]
  rfl

theorem length_idleChain (n : ℕ) : (idleChain n).length = n + 2 := by
  rw [idleChain, List.length_cons, List.length_map, List.length_range]

theorem getLast?_idleChain (n : ℕ) : (idleChain n).getLast? = some (idleBlock n) := by
  cases n with
  | zero => rfl
  | succ n =>
    rw [idleChain_succ]
    exact ValidChain.getLast?_append_singleton _ _

theorem height_idleBlock (n : ℕ) : (idleBlock n).height = n + 1 := by
  induction n with
  | zero => rfl
  | succ n ih =>
    show (idleBlock n).height + 1 = n + 2
    rw [ih]

theorem bits_idleBlock (n : ℕ) : (idleBlock n).header.bits = regtestGenesisBits := by
  cases n <;> rfl

theorem toNat_sampleTime {n : ℕ} (hn : n < 2016) : (sampleTime n).toNat = 1700000000 + n := by
  rw [sampleTime, UInt64.toNat_ofNat', Nat.mod_eq_of_lt]
  omega

theorem timestamp_idleBlock (n : ℕ) : (idleBlock n).header.timestamp = sampleTime (n + 1) := by
  cases n <;> rfl

/-- The blocks of the idle chain are stamped with their heights. -/
theorem timestamp_of_mem_idleChain {n : ℕ} {b : Block} (hb : b ∈ idleChain n) :
    ∃ i ≤ n + 1, b.height = i ∧ b.header.timestamp = sampleTime i := by
  rw [idleChain, List.mem_cons] at hb
  rcases hb with rfl | hb
  · exact ⟨0, by omega, rfl, rfl⟩
  · obtain ⟨i, hi, rfl⟩ := List.mem_map.mp hb
    have hlt := List.mem_range.mp hi
    exact ⟨i + 1, by omega, height_idleBlock i, timestamp_idleBlock i⟩

theorem workOf_idleChain (n : ℕ) : workOf (idleChain n) = 2 * (n + 2) := by
  induction n with
  | zero => decide +kernel
  | succ n ih =>
    have hwork : blockWork regtestGenesisBits = 2 := by decide +kernel
    rw [idleChain_succ, workOf_append_singleton, ih, bits_idleBlock, hwork]
    omega

/-- An idle coinbase leaves the outputs alone and is noted once. -/
theorem applyTransaction_idleCoinbase (n : ℕ) :
    (idleUtxo n).applyTransaction Crypto.sample idleCoinbase = idleUtxo (n + 1) := by
  have hnote := fun u : UtxoSet => u.applyTransaction_of_isCoinbase_of_outputs_nil
    (C := Crypto.sample) (show idleCoinbase.isCoinbase = true from rfl) rfl
  cases n with
  | zero => rfl
  | succ n =>
    rw [idleUtxo, List.foldl_cons, List.foldl_cons, List.foldl_cons, List.foldl_nil, hnote, hnote,
      Finmap.insert_eq_self (Finmap.lookup_insert _)]
    rfl

theorem replay_idleChain (n : ℕ) :
    replay Crypto.sample (idleChain n) = .ok (idleUtxo n, idleMinted) := by
  induction n with
  | zero =>
    have hminted : coinbaseValue sampleGenesis + coinbaseValue (idleBlock 0) = idleMinted := by
      decide +kernel
    have hlt : coinbaseValue sampleGenesis + coinbaseValue (idleBlock 0) < 2 ^ 64 := by
      rw [hminted]
      decide
    have hstep := replay_append_singleton (Blockchain.replay_singleton (C := Crypto.sample)
      sampleGenesis) (idleBlock 0)
    have hutxo : applyBlock Crypto.sample (applyBlock Crypto.sample .empty sampleGenesis)
        (idleBlock 0) = idleUtxo 0 := by
      have hfirst : (idleBlock 0).transactions = [payCoinbase] := rfl
      have hgenesis : sampleGenesis.transactions = [genesisCoinbase] := rfl
      rw [applyBlock, applyBlock, hfirst, hgenesis, idleUtxo]
      simp only [List.foldl_cons, List.foldl_nil]
    rw [replayBlock_of_lt hlt, hminted, hutxo] at hstep
    rw [← hstep]
    rfl
  | succ n ih =>
    have hvalue : coinbaseValue (idleBlock (n + 1)) = 0 := rfl
    have happly : applyBlock Crypto.sample (idleUtxo n) (idleBlock (n + 1)) = idleUtxo (n + 1) := by
      have hidle : (idleBlock (n + 1)).transactions = [idleCoinbase] := rfl
      rw [applyBlock, hidle, List.foldl_cons, List.foldl_nil, applyTransaction_idleCoinbase]
    have hlt : idleMinted + coinbaseValue (idleBlock (n + 1)) < 2 ^ 64 := by
      rw [hvalue]
      decide
    rw [idleChain_succ, replay_append_singleton ih, replayBlock_of_lt hlt, happly, hvalue]
    rfl

/-- **The idle chain is valid** for as long as no difficulty adjustment is due. -/
theorem validChain_idleChain {n : ℕ} (hn : n < 2000) :
    ValidChain Crypto.sample regtestMagic {sampleNow} sampleGenesis (idleChain n) := by
  have hne : ∀ i, i < 2015 → (idleBlock i).hashHex Crypto.sample ≠
      sampleGenesis.hashHex Crypto.sample := by
    intro i hi heq
    have htime := congrArg UInt64.toNat (timestamp_eq_of_hashHex heq)
    rw [timestamp_idleBlock, toNat_sampleTime (by omega)] at htime
    have hgenesis : sampleGenesis.header.timestamp.toNat = 1700000000 := rfl
    omega
  have hfuture : ∀ i, i < 2015 → (sampleTime (i + 1)).toNat ≤ sampleNow + 7200 := by
    intro i hi
    rw [toNat_sampleTime (by omega), sampleNow]
    omega
  induction n with
  | zero =>
    have hext : Extends Crypto.sample regtestMagic sampleNow [sampleGenesis] (idleBlock 0) :=
      extends_childBlock rfl (Blockchain.replay_singleton _) rfl (by decide) (by decide)
        (hfuture 0 (by omega)) (meetsTarget_sample rfl) rfl (by decide) (by decide +kernel)
        (by decide) (by decide) .nil (by decide) (by decide +kernel) .nil (by decide +kernel)
    exact .snoc .genesis rfl (hne 0 (by omega)) hext
  | succ n ih =>
    rw [idleChain_succ]
    refine .snoc (ih (by omega)) rfl (hne (n + 1) (by omega)) ?_
    have hwork : blockWork regtestGenesisBits = 2 := by decide +kernel
    refine extends_childBlock (getLast?_idleChain n) (replay_idleChain n) (bits_idleBlock n) ?_ ?_
      (hfuture (n + 1) (by omega)) (meetsTarget_sample rfl) rfl (by decide) (by decide +kernel)
      (by decide) (by decide) .nil (by decide) (Nat.zero_le _) .nil ?_
    · rw [height_idleBlock, difficultyAdjustmentInterval]
      omega
    · intro b hb
      obtain ⟨i, hi, -, htime⟩ := timestamp_of_mem_idleChain hb
      rw [htime, toNat_sampleTime (by omega), toNat_sampleTime (by omega)]
      omega
    · rw [workOf_idleChain, hwork]
      omega

/-- A valid chain whose blocks are stamped with their heights is separated. -/
theorem ValidChain.separated_of_sampleTime {T : Set ℕ}
    (h : ValidChain Crypto.sample magic T sampleGenesis bs)
    (htime : ∀ b ∈ bs, b.height < 2016 ∧ b.header.timestamp = sampleTime b.height) :
    Separated Crypto.sample bs := by
  refine separated_of_timestamps fun b hb b' hb' heq => ?_
  obtain ⟨hlt, hb₁⟩ := htime b hb
  obtain ⟨hlt', hb₂⟩ := htime b' hb'
  have hheight : b.height = b'.height := by
    have := congrArg UInt64.toNat (hb₁.symm.trans (heq.trans hb₂))
    rw [toNat_sampleTime hlt, toNat_sampleTime hlt'] at this
    omega
  obtain ⟨i, hi⟩ := List.mem_iff_getElem?.mp hb
  obtain ⟨j, hj⟩ := List.mem_iff_getElem?.mp hb'
  have hii := h.height_eq rfl hi
  have hjj := h.height_eq rfl hj
  obtain rfl : i = j := by omega
  exact Option.some.inj (hi.symm.trans hj)

/-! ### Chains that grow out of the idle chain -/

/-- A valid chain of height `n` over the sample primitives, of the easiest difficulty and stamped
with its heights, and what replaying it yields. -/
structure SampleChain (n : ℕ) (bs : List Block) (u : UtxoSet) (m : ℕ) : Prop where
  valid : ValidChain Crypto.sample regtestMagic {sampleNow} sampleGenesis bs
  replay_eq : replay Crypto.sample bs = .ok (u, m)
  length_eq : bs.length = n + 1
  easy : ∀ b ∈ bs, b.header.bits = regtestGenesisBits
  stamped : ∀ b ∈ bs, b.header.timestamp = sampleTime b.height

theorem sampleChain_idleChain {n : ℕ} (hn : n < 2000) :
    SampleChain (n + 1) (idleChain n) (idleUtxo n) idleMinted where
  valid := validChain_idleChain hn
  replay_eq := replay_idleChain n
  length_eq := length_idleChain n
  easy := by
    intro b hb
    rw [idleChain, List.mem_cons] at hb
    rcases hb with rfl | hb
    · rfl
    · obtain ⟨i, -, rfl⟩ := List.mem_map.mp hb
      exact bits_idleBlock i
  stamped := by
    intro b hb
    obtain ⟨i, -, rfl, htime⟩ := timestamp_of_mem_idleChain hb
    exact htime

namespace SampleChain

open Blockchain

variable {n m : ℕ} {u : UtxoSet}

theorem height_le (h : SampleChain n bs u m) {b : Block} (hb : b ∈ bs) : b.height ≤ n := by
  obtain ⟨i, hi⟩ := List.mem_iff_getElem?.mp hb
  have hheight := h.valid.height_eq rfl hi
  have hlt := (List.getElem?_eq_some_iff.mp hi).1
  rw [h.length_eq] at hlt
  omega

theorem height_getLast? (h : SampleChain n bs u m) {p : Block} (hp : bs.getLast? = some p) :
    p.height = n := by
  have hlen := h.valid.height_getLast? rfl hp
  rw [h.length_eq] at hlen
  omega

theorem timestamp_le (h : SampleChain n bs u m) (hn : n < 2016) {b : Block} (hb : b ∈ bs) :
    b.header.timestamp.toNat ≤ 1700000000 + n := by
  have hle := h.height_le hb
  rw [h.stamped b hb, toNat_sampleTime (by omega)]
  omega

theorem workOf_eq (h : SampleChain n bs u m) : workOf bs = 2 * (n + 1) := by
  have hwork : blockWork regtestGenesisBits = 2 := by decide +kernel
  have hall : (bs.map fun b => blockWork b.header.bits) = List.replicate (n + 1) 2 := by
    rw [List.eq_replicate_iff, List.length_map, h.length_eq]
    refine ⟨rfl, fun w hw => ?_⟩
    obtain ⟨b, hb, rfl⟩ := List.mem_map.mp hw
    rw [h.easy b hb, hwork]
  rw [workOf, hall, List.sum_replicate_nat, Nat.mul_comm]

theorem separated (h : SampleChain n bs u m) (hn : n < 2016) : Separated Crypto.sample bs :=
  h.valid.separated_of_sampleTime fun b hb => ⟨(h.height_le hb).trans_lt hn, h.stamped b hb⟩

/-- **A block that may follow.** Its coinbase claims `v`, which the fees and the subsidy allow. -/
theorem extends_snoc (h : SampleChain n bs u m) (hn : n + 1 < 2016) {p : Block}
    (hp : bs.getLast? = some p) {cb : Transaction} {rest : List Transaction}
    (hcb : cb.isCoinbase = true) (hcount : rest.length < maxBlockTransactions)
    (hsize : 184 + ((cb :: rest).map Transaction.serializedSize).sum ≤ maxBlockBytes)
    (hops : ((cb :: rest).map fun tx => tx.inputs.length + tx.outputs.length).sum ≤ maxBlockUtxoOps)
    (hout : cb.outputs.length ≤ maxCoinbaseOutputs) {fees : List ℕ}
    (hfees : FeesOf Crypto.sample u regtestMagic (n + 1) rest fees) (hfeeslt : fees.sum < 2 ^ 64)
    {u' : UtxoSet} (htxs : TxsOk Crypto.sample regtestMagic (n + 1) u rest u') {v : ℕ}
    (hv : checkedSum 64 (cb.outputs.map fun o => o.value.toNat) = some v)
    (hle : v ≤ saturatingAdd 64 (cappedReward (n + 1) m) fees.sum) :
    Extends Crypto.sample regtestMagic sampleNow bs
        (childBlock Crypto.sample p (cb :: rest) (sampleTime (n + 1))) ∧
      coinbaseValue (childBlock Crypto.sample p (cb :: rest) (sampleTime (n + 1))) = v := by
  have hheight := h.height_getLast? hp
  have hvalue :
      coinbaseValue (childBlock Crypto.sample p (cb :: rest) (sampleTime (n + 1))) = v := by
    show (checkedSum 64 (cb.outputs.map fun o => o.value.toNat)).getD (2 ^ 64 - 1) = v
    rw [hv]
    rfl
  have hwork : blockWork regtestGenesisBits = 2 := by decide +kernel
  refine ⟨extends_childBlock hp h.replay_eq (h.easy p (List.mem_of_getLast? hp)) ?_ ?_ ?_
    (meetsTarget_sample rfl) hcb hcount hsize hops hout (hheight ▸ hfees) hfeeslt ?_
    (hheight ▸ htxs) ?_, hvalue⟩
  · rw [hheight, difficultyAdjustmentInterval]
    omega
  · intro b hb
    have := h.timestamp_le (by omega) hb
    rw [toNat_sampleTime hn]
    omega
  · rw [toNat_sampleTime hn, sampleNow]
    omega
  · rw [hvalue, hheight]
    exact hle
  · rw [h.workOf_eq, hwork]
    omega

/-- The chain with such a block is valid and stamped like the one before it. -/
theorem validChain_snoc (h : SampleChain n bs u m) (hn : n + 1 < 2016) {p : Block}
    (hp : bs.getLast? = some p) {txs : List Transaction}
    (hext : Extends Crypto.sample regtestMagic sampleNow bs
      (childBlock Crypto.sample p txs (sampleTime (n + 1)))) :
    ValidChain Crypto.sample regtestMagic {sampleNow} sampleGenesis
        (bs ++ [childBlock Crypto.sample p txs (sampleTime (n + 1))]) ∧
      ∀ b ∈ bs ++ [childBlock Crypto.sample p txs (sampleTime (n + 1))],
        b.height < 2016 ∧ b.header.timestamp = sampleTime b.height := by
  have hheight := h.height_getLast? hp
  refine ⟨.snoc h.valid rfl (fun heq => ?_) hext, fun b hb => ?_⟩
  · have htime : (sampleTime (n + 1)).toNat = sampleGenesis.header.timestamp.toNat :=
      congrArg UInt64.toNat (timestamp_eq_of_hashHex heq)
    have hgenesis : sampleGenesis.header.timestamp.toNat = 1700000000 := rfl
    rw [toNat_sampleTime hn] at htime
    omega
  · rcases List.mem_append.mp hb with hb | hb
    · exact ⟨by have := h.height_le hb; omega, h.stamped b hb⟩
    · rw [List.mem_singleton.mp hb]
      show p.height + 1 < 2016 ∧ sampleTime (n + 1) = sampleTime (p.height + 1)
      rw [hheight]
      exact ⟨hn, rfl⟩

/-- **One more block**, if what was minted still fits a word. -/
theorem snoc (h : SampleChain n bs u m) (hn : n + 1 < 2016) {p : Block} (hp : bs.getLast? = some p)
    {cb : Transaction} {rest : List Transaction} (hcb : cb.isCoinbase = true)
    (hcount : rest.length < maxBlockTransactions)
    (hsize : 184 + ((cb :: rest).map Transaction.serializedSize).sum ≤ maxBlockBytes)
    (hops : ((cb :: rest).map fun tx => tx.inputs.length + tx.outputs.length).sum ≤ maxBlockUtxoOps)
    (hout : cb.outputs.length ≤ maxCoinbaseOutputs) {fees : List ℕ}
    (hfees : FeesOf Crypto.sample u regtestMagic (n + 1) rest fees) (hfeeslt : fees.sum < 2 ^ 64)
    {u' : UtxoSet} (htxs : TxsOk Crypto.sample regtestMagic (n + 1) u rest u') {v : ℕ}
    (hv : checkedSum 64 (cb.outputs.map fun o => o.value.toNat) = some v)
    (hle : v ≤ saturatingAdd 64 (cappedReward (n + 1) m) fees.sum) (hm : m + v < 2 ^ 64) :
    SampleChain (n + 1) (bs ++ [childBlock Crypto.sample p (cb :: rest) (sampleTime (n + 1))])
      ((cb :: rest).foldl (UtxoSet.applyTransaction Crypto.sample) u) (m + v) := by
  obtain ⟨hext, hvalue⟩ := h.extends_snoc hn hp hcb hcount hsize hops hout hfees hfeeslt htxs hv hle
  obtain ⟨hvalid, hstamped⟩ := h.validChain_snoc hn hp hext
  refine ⟨hvalid, ?_, ?_, ?_, fun b hb => (hstamped b hb).2⟩
  · rw [replay_append_singleton h.replay_eq, replayBlock_of_lt (by rwa [hvalue]), hvalue]
    rfl
  · rw [List.length_append, h.length_eq, List.length_singleton]
  · intro b hb
    rcases List.mem_append.mp hb with hb | hb
    · exact h.easy b hb
    · rw [List.mem_singleton.mp hb]
      rfl

/-- **Delivering the chain rebuilds it.** -/
theorem run_deliver (h : SampleChain n bs u m) (hn : n < 2016) : ∃ s,
    addBlocks Crypto.sample (fun _ => sampleNow) 0
      (fromGenesisWithMagic Crypto.sample sampleGenesis none regtestMagic) bs.tail = (.ok (), s) ∧
    run Crypto.sample (fromGenesisWithMagic Crypto.sample sampleGenesis none regtestMagic)
      (deliver (fun _ => sampleNow) 0 bs.tail) = s ∧
    Inv Crypto.sample regtestMagic Set.univ sampleGenesis bs s ∧ s.blocks = bs ∧ s.utxoSet = u ∧
    s.totalMinted = m := by
  have hclock : ∀ i : ℕ, ∀ t ∈ ({sampleNow} : Set ℕ), t ≤ (fun _ => sampleNow) i :=
    fun _ t ht => (Set.mem_singleton_iff.mp ht).le
  obtain ⟨s, hadd, hinv, hblocks, hutxo, hminted⟩ := addBlocks_of_validChain rfl none hclock h.valid
    (h.separated hn) h.replay_eq 0
  exact ⟨s, hadd, run_deliver_of_addBlocks hadd, hinv, hblocks, hutxo, hminted⟩

/-- What the delivery records is the chain. -/
theorem mem_of_mem_cons_recorded (h : SampleChain n bs u m) {b : Block}
    (hb : b ∈ sampleGenesis :: recorded Crypto.sample
      (fromGenesisWithMagic Crypto.sample sampleGenesis none regtestMagic)
        (deliver (fun _ => sampleNow) 0 bs.tail)) : b ∈ bs := by
  have hhead : sampleGenesis :: bs.tail = bs := List.cons_head?_tail h.valid.head?_eq
  rw [← hhead]
  exact Blockchain.mem_of_mem_cons_recorded hb

/-- The same, with the genesis as the chain a node starts with. -/
theorem mem_of_mem_recorded (h : SampleChain n bs u m) {b : Block}
    (hb : b ∈ (fromGenesisWithMagic Crypto.sample sampleGenesis none regtestMagic).blocks ++
      recorded Crypto.sample (fromGenesisWithMagic Crypto.sample sampleGenesis none regtestMagic)
        (deliver (fun _ => sampleNow) 0 bs.tail)) : b ∈ bs :=
  h.mem_of_mem_cons_recorded hb

theorem noCollision_recorded (h : SampleChain n bs u m) (hnc : NoCollision Crypto.sample bs) :
    NoCollision Crypto.sample (sampleGenesis :: recorded Crypto.sample
      (fromGenesisWithMagic Crypto.sample sampleGenesis none regtestMagic)
        (deliver (fun _ => sampleNow) 0 bs.tail)) :=
  hnc.mono fun _ hb => h.mem_of_mem_cons_recorded hb

end SampleChain

theorem separated_idleChain {n : ℕ} (hn : n < 2000) : Separated Crypto.sample (idleChain n) :=
  (sampleChain_idleChain hn).separated (by omega)

/-- The transactions of the blocks of the idle chain. -/
theorem transactions_of_mem_idleChain {n : ℕ} {b : Block} (hb : b ∈ idleChain n) :
    ∃ cb ∈ [genesisCoinbase, payCoinbase, idleCoinbase], b.transactions = [cb] := by
  rw [idleChain, List.mem_cons] at hb
  rcases hb with rfl | hb
  · exact ⟨genesisCoinbase, by simp, rfl⟩
  · obtain ⟨i, -, rfl⟩ := List.mem_map.mp hb
    cases i with
    | zero => exact ⟨payCoinbase, by simp, rfl⟩
    | succ i => exact ⟨idleCoinbase, by simp, rfl⟩

/-- The same, among more transactions. -/
theorem transactions_of_mem_idleChain_append {n : ℕ} {b : Block} (hb : b ∈ idleChain n)
    (txs : List Transaction) :
    ∃ cb ∈ [genesisCoinbase, payCoinbase, idleCoinbase] ++ txs, b.transactions = [cb] := by
  obtain ⟨cb, hcb, htxs⟩ := transactions_of_mem_idleChain hb
  exact ⟨cb, List.mem_append_left _ hcb, htxs⟩

/-- The lengths of the coinbases of the idle chain. -/
theorem length_encode_idleCoinbases :
    ([genesisCoinbase, payCoinbase, idleCoinbase].map Transaction.encode).map List.length =
      [269, 217, 160] := by decide +kernel

/-- No two strings hashed for the idle chain have the same digest. -/
theorem noCollision_idleChain {n : ℕ} (hn : n < 2000) :
    NoCollision Crypto.sample (idleChain n) := by
  have hstrings : SampleStrings (idleChain n)
      ([genesisCoinbase, payCoinbase, idleCoinbase].map Transaction.encode) [] :=
    ⟨separated_idleChain hn, length_encode_idleCoinbases ▸ by decide,
      length_encode_idleCoinbases ▸ by decide, List.nodup_nil⟩
  exact hstrings.noCollision fun b hb => Or.inl (transactions_of_mem_idleChain hb)

/-! ### Paying the sample key -/

/-- An input of the sample key that names the first output of `prev`. -/
def spendInput (prev : Transaction) (signature : HybridSignature) : TxInput where
  prevTxHash := prev.txidHex Crypto.sample
  prevIndex := 0
  signature
  pubkey := sampleKey
  coinbaseExtra := []
  witnesses := []

/-- A payment of `value` that names the first output of `prev` in `copies` inputs, all with the same
signature. -/
def spendWith (prev : Transaction) (copies : ℕ) (value lockTime : UInt64)
    (signature : HybridSignature) : Transaction where
  inputs := List.replicate copies (spendInput prev signature)
  outputs := [TxOutput.p2pkh sampleAddress value]
  version := 1
  lockTime

/-- The signed payment. A signature is not part of what is signed. -/
def spendTx (prev : Transaction) (copies : ℕ) (value lockTime : UInt64) : Transaction :=
  spendWith prev copies value lockTime (sampleSign sampleKey
    ((spendWith prev copies value lockTime ⟨[], []⟩).sigHash Crypto.sample regtestMagic).toList)

section

variable (prev : Transaction) (copies : ℕ) (value lockTime : UInt64)

theorem sigPreimage_spendWith (signature signature' : HybridSignature) (magic : UInt32) :
    (spendWith prev copies value lockTime signature).sigPreimage magic =
      (spendWith prev copies value lockTime signature').sigPreimage magic := by
  simp [Transaction.sigPreimage, spendWith, spendInput, List.flatMap, List.map_replicate]

theorem isCoinbase_spendTx : (spendTx prev copies value lockTime).isCoinbase = false := by
  rw [Transaction.isCoinbase]
  split
  · next i hi =>
    have hmem : i ∈ (spendTx prev copies value lockTime).inputs := by
      rw [hi]
      exact List.mem_cons_self
    have hieq : i = spendInput prev _ := List.eq_of_mem_replicate hmem
    rw [hieq]
    simp [spendInput]
  · rfl

theorem outpoints_spendTx :
    (spendTx prev copies value lockTime).inputs.map TxInput.outpoint =
      List.replicate copies (UtxoSet.key (prev.txidHex Crypto.sample) 0) :=
  List.map_replicate

theorem length_utf8_sampleAddress : (utf8 sampleAddress).length = 40 := by
  rw [sampleAddress, length_utf8_hexEncode, Crypto.hybridPubkeyToAddress, List.length_take,
    List.Vector.toList_length]
  rfl

theorem length_utf8_txidHex {C : Crypto} (tx : Transaction) : (utf8 (tx.txidHex C)).length = 64 :=
  length_utf8_hashToHex _

theorem length_encode_spendInput (sigHash : Hash) :
    (spendInput prev (sampleSign sampleKey sigHash.toList)).encode.length = 5482 := by
  have hkey : sampleKey.ecdsaPubkey.length = 33 := List.length_replicate
  have hkey' : sampleKey.dilithiumPubkey.length = 1952 := List.length_replicate
  have hpad : (samplePad sigHash.toList).length = 3309 :=
    length_samplePad (by rw [List.Vector.toList_length]; omega)
  simp only [TxInput.encode, spendInput, HybridSignature.encode, HybridPublicKey.encode,
    sampleSign, List.length_append, List.length_take, length_encBytes, length_leBytes,
    length_utf8_txidHex, hkey, hkey', hpad, List.Vector.toList_length, length_encList]
  rfl

theorem serializedSize_spendTx :
    (spendTx prev copies value lockTime).serializedSize = 137 + 5482 * copies := by
  have houtput : (TxOutput.p2pkh sampleAddress value).encode.length = 109 := by
    simp only [TxOutput.encode, TxOutput.p2pkh, encOption, Script.encode, List.length_append,
      List.length_cons, length_encBytes, length_leBytes, length_utf8_sampleAddress]
  simp only [Transaction.serializedSize, Transaction.encode, spendTx, spendWith, length_encList,
    List.length_append, length_leBytes, List.map_replicate, length_encode_spendInput, houtput,
    List.sum_replicate_nat, List.map_cons, List.map_nil, List.sum_cons, List.sum_nil]
  omega

end

theorem length_sigPreimage_spendTx (prev : Transaction) (copies : ℕ) (value lockTime : UInt64)
    (magic : UInt32) :
    ((spendTx prev copies value lockTime).sigPreimage magic).length = 84 + 2053 * copies := by
  have hscript : (Script.p2pkh sampleAddress).toBytes.length = 64 := by decide +kernel
  have hkey : sampleKey.ecdsaPubkey.length = 33 := List.length_replicate
  have hkey' : sampleKey.dilithiumPubkey.length = 1952 := List.length_replicate
  simp only [Transaction.sigPreimage, spendTx, spendWith, spendInput, TxOutput.p2pkh,
    TxOutput.effectiveScript, List.length_append, List.length_flatMap, length_leBytes,
    List.map_replicate, List.sum_replicate_nat, length_utf8_txidHex, hkey, hkey', hscript,
    List.map_cons, List.map_nil, List.sum_cons, List.sum_nil]
  omega

/-- The signature over what is signed opens an output of the sample key at any time. -/
theorem evaluateScript_spendInput (prev : Transaction) (sigHash : Hash) (blockTime : ℕ) :
    evaluateScript Crypto.sample (.p2pkh sampleAddress)
      (spendInput prev (sampleSign sampleKey sigHash.toList)) sigHash blockTime = .ok () := by
  have hkey : Crypto.sample.publicKeyFromSlice sampleKey.ecdsaPubkey =
      some sampleKey.ecdsaPubkey := rfl
  have hverify : Crypto.sample.verify (sampleSign sampleKey sigHash.toList) sigHash.toList
      sampleKey = .ok () :=
    verify_sample_eq_ok_iff.mpr ⟨List.length_replicate, List.length_replicate, rfl⟩
  rw [evaluateScript]
  simp only [spendInput, hkey, hverify]
  exact if_neg (not_not.mpr rfl)

theorem sigHash_spendTx (prev : Transaction) (copies : ℕ) (value lockTime : UInt64) :
    (spendTx prev copies value lockTime).sigHash Crypto.sample regtestMagic =
      (spendWith prev copies value lockTime ⟨[], []⟩).sigHash Crypto.sample regtestMagic :=
  congrArg Crypto.sample.hash256 (sigPreimage_spendWith prev copies value lockTime _ _ _)

/-- **When a payment validates.** Naming an output several times brings its value several times. -/
theorem txOk_spendTx {prev : Transaction} {copies : ℕ} {value : UInt64} (lockTime : UInt64)
    {u : UtxoSet} {h : ℕ} {out : TxOutput}
    (hlook : u.utxos.lookup (UtxoSet.key (prev.txidHex Crypto.sample) 0) = some out)
    (hscript : out.effectiveScript = .p2pkh sampleAddress)
    (hmature : u.isImmatureCoinbase (prev.txidHex Crypto.sample) h = false)
    (hlt : copies * out.value.toNat < 2 ^ 64) (hdust : dustLimitArkes ≤ value.toNat)
    (hle : value.toNat ≤ copies * out.value.toNat) :
    TxOk Crypto.sample (spendTx prev copies value lockTime) u regtestMagic h
      (copies * out.value.toNat - value.toNat) := by
  have hsum : (spendTx prev copies value lockTime).inputSum u = copies * out.value.toNat := by
    rw [Transaction.inputSum]
    show ((List.replicate copies _).map _).sum = _
    rw [List.map_replicate, List.sum_replicate_nat]
    congr 1
    exact UtxoSet.valueAt_of_lookup hlook
  refine ⟨fun i hi => ⟨out, ?_⟩, by rwa [hsum], ?_, ?_⟩
  · have hieq : i = spendInput prev _ := List.eq_of_mem_replicate hi
    subst hieq
    refine ⟨hmature, hlook, ?_⟩
    rw [hscript, sigHash_spendTx]
    exact evaluateScript_spendInput _ _ _
  · intro o ho
    have hoeq : o = TxOutput.p2pkh sampleAddress value := by simpa [spendTx, spendWith] using ho
    rw [hoeq]
    exact hdust
  · have hout : (spendTx prev copies value lockTime).outputSum = value.toNat := by
      simp [Transaction.outputSum, spendTx, spendWith, TxOutput.p2pkh]
    rw [hsum, hout]
    omega

/-- The output of a payment is found under its txid. -/
theorem lookup_applyTransaction_spendTx (prev : Transaction) (copies : ℕ) (value lockTime : UInt64)
    (u : UtxoSet) :
    (u.applyTransaction Crypto.sample (spendTx prev copies value lockTime)).utxos.lookup
        (UtxoSet.key ((spendTx prev copies value lockTime).txidHex Crypto.sample) 0) =
      some (TxOutput.p2pkh sampleAddress value) := by
  rw [UtxoSet.applyTransaction,
    show (spendTx prev copies value lockTime).createdEntries Crypto.sample =
      [(UtxoSet.key ((spendTx prev copies value lockTime).txidHex Crypto.sample) 0,
      TxOutput.p2pkh sampleAddress value)] from rfl, Finmap.insertAll_cons, Finmap.insertAll_nil]
  exact Finmap.lookup_insert _

/-! ### A block with one payment -/

/-- A block that carries one valid transaction extends a sample chain. -/
theorem SampleChain.spend {n m : ℕ} {u : UtxoSet} (h : SampleChain n bs u m) (hn : n + 1 < 2016)
    {p : Block} (hp : bs.getLast? = some p) {cb : Transaction} (hcb : cb.isCoinbase = true)
    (hout : cb.outputs.length ≤ maxCoinbaseOutputs) {tx : Transaction} {fee : ℕ}
    (hok : TxOk Crypto.sample tx u regtestMagic (n + 1) fee) (hfee : fee < 2 ^ 64)
    (hsize : cb.serializedSize + tx.serializedSize ≤ 4190000)
    (hops : cb.inputs.length + cb.outputs.length + (tx.inputs.length + tx.outputs.length) ≤ 40000)
    {v : ℕ} (hv : checkedSum 64 (cb.outputs.map fun o => o.value.toNat) = some v)
    (hle : v ≤ saturatingAdd 64 (cappedReward (n + 1) m) fee) (hm : m + v < 2 ^ 64) :
    SampleChain (n + 1) (bs ++ [childBlock Crypto.sample p [cb, tx] (sampleTime (n + 1))])
      ((u.applyTransaction Crypto.sample cb).applyTransaction Crypto.sample tx) (m + v) := by
  have hcount : [tx].length < maxBlockTransactions := by
    rw [List.length_singleton, maxBlockTransactions]
    omega
  have hsum : [fee].sum = fee := List.sum_singleton
  refine h.snoc hn hp hcb hcount ?_ ?_ hout (.cons hok .nil) (hsum ▸ hfee) (.cons hok .nil) hv
    (hsum ▸ hle) hm
  · rw [List.map_cons, List.map_cons, List.map_nil, List.sum_cons, List.sum_cons, List.sum_nil,
      maxBlockBytes]
    omega
  · rw [List.map_cons, List.map_cons, List.map_nil, List.sum_cons, List.sum_cons, List.sum_nil,
      maxBlockUtxoOps]
    omega

/-- The same for a block that claims nothing. -/
theorem SampleChain.spend_idle {n m : ℕ} {u : UtxoSet} (h : SampleChain n bs u m)
    (hn : n + 1 < 2016) {p : Block} (hp : bs.getLast? = some p) {tx : Transaction} {fee : ℕ}
    (hok : TxOk Crypto.sample tx u regtestMagic (n + 1) fee) (hfee : fee < 2 ^ 64)
    (hsize : tx.serializedSize ≤ 4180000) (hops : tx.inputs.length + tx.outputs.length ≤ 30000)
    (hm : m < 2 ^ 64) :
    SampleChain (n + 1) (bs ++ [childBlock Crypto.sample p [idleCoinbase, tx] (sampleTime (n + 1))])
      ((u.applyTransaction Crypto.sample idleCoinbase).applyTransaction Crypto.sample tx) m := by
  have hidle : idleCoinbase.serializedSize = 160 := by decide +kernel
  have hcb : idleCoinbase.inputs.length + idleCoinbase.outputs.length = 1 := rfl
  have hvalue : checkedSum 64 (idleCoinbase.outputs.map fun o => o.value.toNat) = some 0 := rfl
  exact h.spend hn hp rfl (by decide) hok hfee (by omega) (by omega) hvalue (Nat.zero_le _) hm

/-! ### A payment with a fee

The reward of block 1 is paid on at height 101, for a fee that the coinbase claims. -/

/-- The payment. -/
def feePayment : Transaction := spendTx payCoinbase 1 32188180000 1

/-- The coinbase that claims its fee and no subsidy. -/
def feeCoinbase : Transaction := Transaction.coinbase "" 4932 101

/-- The block of the two. -/
def feeBlock : Block :=
  childBlock Crypto.sample (idleBlock 99) [feeCoinbase, feePayment] (sampleTime 101)

/-- The idle chain up to height 100 and that block. -/
def feeChain : List Block := idleChain 99 ++ [feeBlock]

/-- The first reward stays unspent on the idle chain. -/
theorem lookup_payCoinbase (n : ℕ) : (idleUtxo (n + 1)).utxos.lookup
    (UtxoSet.key (payCoinbase.txidHex Crypto.sample) 0) =
      some ⟨32188184932, none, sampleAddress⟩ := by
  show (idleUtxo 1).utxos.lookup _ = _
  decide +kernel

theorem mature_payCoinbase (n : ℕ) : (idleUtxo (n + 1)).isImmatureCoinbase
    (payCoinbase.txidHex Crypto.sample) 101 = false := by
  show (idleUtxo 1).isImmatureCoinbase _ _ = _
  decide +kernel

/-- The first reward can be paid on at height 101, named once or more often. -/
theorem txOk_spendTx_payCoinbase {n copies : ℕ} {value : UInt64} (lockTime : UInt64)
    (hlt : copies * 32188184932 < 2 ^ 64) (hdust : dustLimitArkes ≤ value.toNat)
    (hle : value.toNat ≤ copies * 32188184932) :
    TxOk Crypto.sample (spendTx payCoinbase copies value lockTime) (idleUtxo (n + 1)) regtestMagic
      101 (copies * 32188184932 - value.toNat) := by
  have hvalue : (32188184932 : UInt64).toNat = 32188184932 := rfl
  have hok := txOk_spendTx lockTime (lookup_payCoinbase n) rfl (mature_payCoinbase n)
    (by rwa [hvalue]) hdust (by rwa [hvalue])
  rwa [hvalue] at hok

theorem txOk_feePayment : TxOk Crypto.sample feePayment (idleUtxo 99) regtestMagic 101 4932 :=
  txOk_spendTx_payCoinbase 1 (by decide) (by decide) (by decide)

theorem sampleChain_feeChain :
    SampleChain 101 feeChain (((idleUtxo 99).applyTransaction Crypto.sample
      feeCoinbase).applyTransaction Crypto.sample feePayment) (idleMinted + 4932) := by
  have hsize : feeCoinbase.serializedSize = 189 := by decide +kernel
  have hpayment : feePayment.serializedSize = 5619 := serializedSize_spendTx _ _ _ _
  have hops : feePayment.inputs.length + feePayment.outputs.length = 2 := rfl
  have hcb : feeCoinbase.inputs.length + feeCoinbase.outputs.length = 2 := rfl
  have hvalue : checkedSum 64 (feeCoinbase.outputs.map fun o => o.value.toNat) = some 4932 := by
    decide
  exact (sampleChain_idleChain (by decide)).spend (by decide) (getLast?_idleChain 99)
    rfl (by decide) txOk_feePayment (by decide) (by omega) (by omega) hvalue (by decide) (by decide)

theorem noCollision_feeChain : NoCollision Crypto.sample feeChain := by
  have hlengths : ([genesisCoinbase, payCoinbase, idleCoinbase, feeCoinbase, feePayment].map
      Transaction.encode).map List.length = [269, 217, 160, 189, 5619] := by
    have hcoinbases : ([genesisCoinbase, payCoinbase, idleCoinbase, feeCoinbase].map
        Transaction.encode).map List.length = [269, 217, 160, 189] := by decide +kernel
    have hpayment : feePayment.encode.length = 5619 := serializedSize_spendTx _ _ _ _
    simp only [List.map_cons, List.map_nil, List.cons.injEq, and_true] at hcoinbases
    simp only [List.map_cons, List.map_nil, hcoinbases, hpayment]
  have hstrings : SampleStrings feeChain ([genesisCoinbase, payCoinbase, idleCoinbase, feeCoinbase,
      feePayment].map Transaction.encode) [(feeCoinbase.txid Crypto.sample, feePayment)] :=
    ⟨sampleChain_feeChain.separated (by decide), hlengths ▸ by decide, hlengths ▸ by decide,
      List.nodup_singleton _⟩
  refine hstrings.noCollision fun b hb => ?_
  rcases List.mem_append.mp hb with hb | hb
  · exact Or.inl (transactions_of_mem_idleChain_append hb [feeCoinbase, feePayment])
  · exact Or.inr ⟨feeCoinbase, by simp, feePayment, by simp, by rw [List.mem_singleton.mp hb]; rfl,
      List.mem_cons_self⟩

end Arkos
