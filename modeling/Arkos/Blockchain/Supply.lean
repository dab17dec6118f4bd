import Arkos.Blockchain.IdleChain
import Arkos.Blockchain.Ledger

/-!
# Supply and double spends

Two results about every reachable state, and the one shape of transaction that breaks both. The sum
of all unspent values never exceeds the supply cap, and no output is spent more often than it was
created, as long as no recorded transaction names the same outpoint twice.

The condition cannot be dropped. A spree lets the reward of the first block mature and pays it on
block by block, in payments that name the output before them any number of times that fits a block.
Every block of it is accepted. One payment that names the reward twice spends it twice, and after
payments that name an output 760 times, 759 times and twice more than the whole supply is unspent.

## Main definitions

* `Mention`, `Affordable` — the payments of a spree, and when every block of it is valid
* `spreeChain`, `spreeUtxo`
* `allStrings` — everything that is hashed for some blocks

## Main results

* `sampleChain_spreeChain`, `allStrings_spreeChain_inj` — a spree is valid and does not collide

* `Blockchain.supply_cap`, and `Blockchain.supply_cap_exceeded` for a repeated outpoint
* `Blockchain.no_double_spend`, and `Blockchain.output_spent_repeatedly` for a repeated outpoint
-/

namespace Arkos

variable {C : Crypto} {magic : UInt32} {T : Set ℕ} {g : Block}

/-! ### Whole runs -/

namespace Blockchain

/-- If nothing is recorded with a repeated input, no block of the history has one. -/
theorem distinctInputs_of_mem {C : Crypto} {g b : Block} {s : Blockchain} {evs : List Event}
    (hgtxs : g.transactions = [genesisCoinbase])
    (hdist : ∀ b ∈ recorded C s evs, b.DistinctInputs) (hb : b ∈ g :: recorded C s evs) :
    b.DistinctInputs := by
  rcases List.mem_cons.mp hb with rfl | hrec
  · exact genesis_distinctInputs hgtxs
  · exact hdist b hrec

/-- **The supply cap.** In every state reached from a network's genesis, the unspent outputs sum up
to at most the cap and no balance wraps, provided that no recorded transaction names an outpoint
twice and that `hash256` does not collide on what is hashed for the recorded blocks. -/
theorem supply_cap (C : Crypto) (fuel : ℕ) (network : String) (s₀ : Blockchain)
    (hstart : newForNetwork C fuel network = some s₀) (evs : List Event)
    (hnc : NoCollision C (s₀.blocks ++ recorded C s₀ evs))
    (hdist : ∀ b ∈ recorded C s₀ evs, b.DistinctInputs) :
    (run C s₀ evs).utxoSet.totalValue ≤ maxSupplyArkes ∧
      ∀ address, (run C s₀ evs).balanceOf address = (run C s₀ evs).utxoSet.balanceSum address := by
  obtain ⟨g, hheight, hgtxs, rfl⟩ := newForNetwork_eq_some hstart
  have hinv := inv_run hheight none (magicForNetwork network) evs hnc
  set s := run C (fromGenesisWithMagic C g none (magicForNetwork network)) evs
  have hledger := hinv.history.ledger hgtxs hnc
  have hd : ∀ b ∈ s.blocks, b.DistinctInputs := fun b hb =>
    distinctInputs_of_mem hgtxs hdist (hinv.mem_hist hb)
  have htotal : (applyBlock C UtxoSet.empty g).totalValue ≤ genesisCoinbase.outputSum := by
    have hcoinbase : genesisCoinbase.isCoinbase = true := rfl
    have hle := UtxoSet.empty.totalValue_applyTransaction_le_of_isCoinbase (C := C) hcoinbase
    have hempty : UtxoSet.empty.totalValue = 0 := rfl
    rw [applyBlock, hgtxs, List.foldl_cons, List.foldl_nil]
    omega
  have hvalue : coinbaseValue g = genesisCoinbase.outputSum := by
    rw [coinbaseValue, hgtxs]
    decide
  have hcap : genesisCoinbase.outputSum ≤ maxSupplyArkes := by decide
  have hsupply := hinv.active.supply hledger
    (fun tx htx => by
      obtain ⟨b, hb, htxb⟩ := mem_chainTxs.mp htx
      exact mem_chainTxs.mpr ⟨b, hinv.mem_hist hb, htxb⟩)
    hd (htotal.trans hvalue.ge) (htotal.trans hcap) hinv.replay_eq
  refine ⟨hsupply.2, fun address => Nat.mod_eq_of_lt ?_⟩
  have hbal := s.utxoSet.balanceSum_le_totalValue address
  have hmax : maxSupplyArkes = 31415926000000000 := rfl
  omega

/-- The cap on a run of two blocks. -/
theorem supply_cap_idleChain :
    (run Crypto.sample (fromGenesisWithMagic Crypto.sample sampleGenesis none regtestMagic)
      (deliver (fun _ => sampleNow) 0 (idleChain 1).tail)).utxoSet.totalValue ≤ maxSupplyArkes := by
  have hnc : NoCollision Crypto.sample (idleChain 1) := by
    rw [NoCollision]
    decide +kernel
  have hdist : ∀ b ∈ (idleChain 1).tail, b.DistinctInputs := by decide +kernel
  exact (supply_cap Crypto.sample 1 "regtest" _ newForNetwork_sample _
    (hnc.mono fun _ hb => mem_of_mem_recorded_deliver hb)
    fun _ hb => (exists_event_of_mem_recorded hb).elim fun _ hev =>
      hdist _ (mem_of_mem_deliver hev)).1

/-! ### A repeated outpoint

A block has room for a payment that names an output 760 times, so a value can grow by that factor
from one block to the next. A spree lets the reward of block 1 mature and pays it on block by
block. -/

/-- A payment of a spree: how often it names the output of the one before, and what it pays. -/
structure Mention where
  copies : ℕ
  value : UInt64

/-- The last transaction of a spree, whose payments are listed from the last to the first. -/
def spreeTx : List Mention → Transaction
  | [] => payCoinbase
  | p :: ps => spendTx (spreeTx ps) p.copies p.value (UInt64.ofNat (ps.length + 1))

/-- What it pays. -/
def spreeValue : List Mention → UInt64
  | [] => 32188184932
  | p :: _ => p.value

/-- The block with it. -/
def spreeBlock : List Mention → Block
  | [] => idleBlock 99
  | p :: ps => childBlock Crypto.sample (spreeBlock ps) [idleCoinbase, spreeTx (p :: ps)]
      (sampleTime (101 + ps.length))

/-- A hundred blocks, then one for each payment. -/
def spreeChain : List Mention → List Block
  | [] => idleChain 99
  | p :: ps => spreeChain ps ++ [spreeBlock (p :: ps)]

/-- What is unspent after them. -/
def spreeUtxo : List Mention → UtxoSet
  | [] => idleUtxo 99
  | p :: ps => ((spreeUtxo ps).applyTransaction Crypto.sample idleCoinbase).applyTransaction
      Crypto.sample (spreeTx (p :: ps))

/-- Every payment fits a block, and pays no more than its inputs bring. -/
def Affordable : List Mention → Prop
  | [] => True
  | p :: ps => p.copies ≤ 760 ∧ p.copies * (spreeValue ps).toNat < 2 ^ 64 ∧
      dustLimitArkes ≤ p.value.toNat ∧ p.value.toNat ≤ p.copies * (spreeValue ps).toNat ∧
      Affordable ps

/-- None of the coinbases so far has the txid of a larger transaction. -/
theorem lookup_coinbaseHeights_large {tx : Transaction} (hlarge : 300 ≤ tx.serializedSize)
    (hsize : tx.serializedSize < 2 ^ 64) :
    (idleUtxo 100).coinbaseHeights.lookup (tx.txidHex Crypto.sample) = none := by
  have hne : ∀ cb : Transaction, cb.serializedSize < 300 →
      tx.txidHex Crypto.sample ≠ cb.txidHex Crypto.sample := fun cb hcb =>
    txidHex_sample_ne hsize (by omega) (by omega)
  show ((((∅ : Table ℕ).insert (genesisCoinbase.txidHex Crypto.sample) _).insert
    (payCoinbase.txidHex Crypto.sample) _).insert (idleCoinbase.txidHex Crypto.sample) _).lookup _ =
      _
  rw [Finmap.lookup_insert_eq, if_neg (hne idleCoinbase (by decide +kernel)),
    Finmap.lookup_insert_eq, if_neg (hne payCoinbase (by decide +kernel)), Finmap.lookup_insert_eq,
    if_neg (hne genesisCoinbase (by decide +kernel)), Finmap.lookup_empty]

section

variable {p : Mention} {ps : List Mention}

theorem serializedSize_spreeTx :
    (spreeTx (p :: ps)).serializedSize = 137 + 5482 * p.copies := serializedSize_spendTx _ _ _ _

/-- A payment that pays anything has an input, and it fits a block. -/
theorem Affordable.copies_mem (h : Affordable (p :: ps)) : 1 ≤ p.copies ∧ p.copies ≤ 760 := by
  obtain ⟨hle, -, hdust, hvalue, -⟩ := h
  refine ⟨Nat.pos_of_ne_zero fun hzero => ?_, hle⟩
  have hlimit : dustLimitArkes = 546 := rfl
  rw [hzero] at hvalue
  omega

theorem getLast?_spreeChain : (spreeChain ps).getLast? = some (spreeBlock ps) := by
  cases ps with
  | nil => exact getLast?_idleChain 99
  | cons p ps => exact ValidChain.getLast?_append_singleton _ _

/-- A spree adds no coinbase to those of the idle chain. -/
theorem coinbaseHeights_spreeUtxo :
    (spreeUtxo ps).coinbaseHeights = (idleUtxo 100).coinbaseHeights := by
  induction ps with
  | nil => rfl
  | cons p ps ih =>
    have hpayment : (spreeTx (p :: ps)).isCoinbase = false := isCoinbase_spendTx _ _ _ _
    have hidle := congrArg UtxoSet.coinbaseHeights (applyTransaction_idleCoinbase 100)
    rw [UtxoSet.applyTransaction_of_isCoinbase_of_outputs_nil _ rfl rfl] at hidle
    rw [spreeUtxo, UtxoSet.coinbaseHeights_applyTransaction_of_not_isCoinbase _ hpayment,
      UtxoSet.applyTransaction_of_isCoinbase_of_outputs_nil _ rfl rfl, ih]
    exact hidle

/-- The output of the last payment is unspent. -/
theorem lookup_spreeUtxo : ∃ out, (spreeUtxo ps).utxos.lookup
      (UtxoSet.key ((spreeTx ps).txidHex Crypto.sample) 0) = some out ∧
    out.value = spreeValue ps ∧ out.effectiveScript = .p2pkh sampleAddress := by
  cases ps with
  | nil => exact ⟨_, lookup_payCoinbase 98, rfl, rfl⟩
  | cons p ps => exact ⟨_, lookup_applyTransaction_spendTx _ _ _ _ _, rfl, rfl⟩

/-- It may be spent in the next block. -/
theorem mature_spreeUtxo (h : Affordable ps) : (spreeUtxo ps).isImmatureCoinbase
    ((spreeTx ps).txidHex Crypto.sample) (101 + ps.length) = false := by
  cases ps with
  | nil => exact mature_payCoinbase 98
  | cons p ps =>
    have hcopies := h.copies_mem
    rw [UtxoSet.isImmatureCoinbase, coinbaseHeights_spreeUtxo, lookup_coinbaseHeights_large]
    · rw [serializedSize_spreeTx]
      omega
    · rw [serializedSize_spreeTx]
      omega

/-- **Every payment of a spree validates.** -/
theorem txOk_spreeTx (h : Affordable (p :: ps)) :
    TxOk Crypto.sample (spreeTx (p :: ps)) (spreeUtxo ps) regtestMagic (101 + ps.length)
      (p.copies * (spreeValue ps).toNat - p.value.toNat) := by
  obtain ⟨-, hlt, hdust, hle, hps⟩ := h
  obtain ⟨out, hlook, hvalue, hscript⟩ := @lookup_spreeUtxo ps
  rw [← hvalue] at hlt hle ⊢
  exact txOk_spendTx _ hlook hscript (mature_spreeUtxo hps) hlt hdust hle

/-- **Every block of a spree is valid**, and this is what is unspent at the end. -/
theorem sampleChain_spreeChain (h : Affordable ps) (hlen : ps.length < 1000) :
    SampleChain (100 + ps.length) (spreeChain ps) (spreeUtxo ps) idleMinted := by
  induction ps with
  | nil => exact sampleChain_idleChain (by decide)
  | cons p ps ih =>
    rw [List.length_cons] at hlen
    have hcopies := h.copies_mem
    have hfee := lt_of_le_of_lt (Nat.sub_le _ p.value.toNat) h.2.1
    have hok := txOk_spreeTx h
    have hops : (spreeTx (p :: ps)).inputs.length + (spreeTx (p :: ps)).outputs.length =
        p.copies + 1 := by
      rw [spreeTx, spendTx, spendWith, List.length_replicate, List.length_singleton]
    have hheight : 100 + ps.length + 1 = 101 + ps.length := by omega
    have hchain := (ih h.2.2.2.2 (by omega)).spend_idle (by omega) getLast?_spreeChain
      (hheight.symm ▸ hok) hfee (by rw [serializedSize_spreeTx]; omega) (by rw [hops]; omega)
      (by decide)
    rw [hheight] at hchain
    rw [List.length_cons, show 100 + (ps.length + 1) = 101 + ps.length by omega]
    exact hchain

/-- The state that taking delivery of a spree ends in. -/
theorem run_spreeChain (h : Affordable ps) (hlen : ps.length < 1000) :
    (run Crypto.sample (fromGenesisWithMagic Crypto.sample sampleGenesis none regtestMagic)
      (deliver (fun _ => sampleNow) 0 (spreeChain ps).tail)).blocks = spreeChain ps ∧
    (run Crypto.sample (fromGenesisWithMagic Crypto.sample sampleGenesis none regtestMagic)
      (deliver (fun _ => sampleNow) 0 (spreeChain ps).tail)).utxoSet = spreeUtxo ps := by
  obtain ⟨s, -, hrun, -, hblocks, hutxo, -⟩ :=
    (sampleChain_spreeChain h hlen).run_deliver (by omega)
  rw [hrun]
  exact ⟨hblocks, hutxo⟩

end

/-! ### What is hashed for a spree -/

/-- The strings hashed for a block beyond those of `Block.hashedStrings`, when its payments are
validated: what is signed, and the keys an address is derived from. -/
def signedStrings (C : Crypto) (magic : UInt32) (b : Block) : List Bytes :=
  b.transactions.tail.flatMap fun tx => tx.sigPreimage magic ::
    tx.inputs.filterMap fun i =>
      (C.publicKeyFromSlice i.pubkey.ecdsaPubkey).map (· ++ i.pubkey.dilithiumPubkey)

/-- Everything that is hashed for the given blocks. -/
def allStrings (C : Crypto) (magic : UInt32) (bs : List Block) : List Bytes :=
  bs.flatMap fun b => b.hashedStrings C ++ signedStrings C magic b

theorem allStrings_append (bs bs' : List Block) :
    allStrings C magic (bs ++ bs') = allStrings C magic bs ++ allStrings C magic bs' :=
  List.flatMap_append

theorem allStrings_mono {bs bs' : List Block} (h : ∀ b ∈ bs, b ∈ bs') {x : Bytes}
    (hx : x ∈ allStrings C magic bs) : x ∈ allStrings C magic bs' := by
  obtain ⟨b, hb, hxb⟩ := List.mem_flatMap.mp hx
  exact List.mem_flatMap.mpr ⟨b, h b hb, hxb⟩

theorem mem_allStrings {bs : List Block} {x : Bytes}
    (hx : x ∈ bs.flatMap (Block.hashedStrings C)) : x ∈ allStrings C magic bs := by
  obtain ⟨b, hb, hxb⟩ := List.mem_flatMap.mp hx
  exact List.mem_flatMap.mpr ⟨b, hb, List.mem_append_left _ hxb⟩

/-- Without a collision among all strings there is none among those of the blocks. -/
theorem noCollision_of_allStrings {bs : List Block}
    (h : ∀ x ∈ allStrings C magic bs, ∀ y ∈ allStrings C magic bs,
      C.hash256 x = C.hash256 y → x = y) : NoCollision C bs :=
  fun x hx y hy => h x (mem_allStrings hx) y (mem_allStrings hy)

/-- The strings of a spree that can be told apart by their length. -/
def spreeStrings : List Mention → List Bytes
  | [] => [genesisCoinbase.encode, payCoinbase.encode, idleCoinbase.encode,
      sampleKey.ecdsaPubkey ++ sampleKey.dilithiumPubkey]
  | p :: ps => (spreeTx (p :: ps)).encode :: (spreeTx (p :: ps)).sigPreimage regtestMagic ::
      spreeStrings ps

/-- Their lengths. -/
def spreeLengths : List Mention → List ℕ
  | [] => [269, 217, 160, 1985]
  | p :: ps => (137 + 5482 * p.copies) :: (84 + 2053 * p.copies) :: spreeLengths ps

/-- The Merkle nodes of a spree. -/
def spreeNodes : List Mention → List (Hash × Transaction)
  | [] => []
  | p :: ps => (idleCoinbase.txid Crypto.sample, spreeTx (p :: ps)) :: spreeNodes ps

section

variable {p : Mention} {ps : List Mention}

/-- The coinbases and the key are there from the start. -/
theorem mem_spreeStrings {x : Bytes} (hx : x ∈ spreeStrings []) : x ∈ spreeStrings ps := by
  induction ps with
  | nil => exact hx
  | cons p ps ih => exact List.mem_cons_of_mem _ (List.mem_cons_of_mem _ ih)

theorem length_spreeStrings : (spreeStrings ps).map List.length = spreeLengths ps := by
  induction ps with
  | nil =>
    have hkey : (sampleKey.ecdsaPubkey ++ sampleKey.dilithiumPubkey).length = 1985 := by
      rw [List.length_append, sampleKey, List.length_replicate, List.length_replicate]
    have hcoinbases := length_encode_idleCoinbases
    simp only [List.map_cons, List.map_nil, List.cons.injEq, and_true] at hcoinbases
    simp only [spreeStrings, spreeLengths, List.map_cons, List.map_nil, hcoinbases, hkey]
  | cons p ps ih =>
    have hencode : (spreeTx (p :: ps)).encode.length = 137 + 5482 * p.copies :=
      serializedSize_spreeTx
    have hpreimage : ((spreeTx (p :: ps)).sigPreimage regtestMagic).length = 84 + 2053 * p.copies :=
      length_sigPreimage_spendTx _ _ _ _ _
    rw [spreeStrings, spreeLengths, List.map_cons, List.map_cons, hencode, hpreimage, ih]

/-- The payments of a spree are numbered by their lock times. -/
theorem lockTime_spreeNodes (hlen : ps.length < 1000) :
    (∀ q ∈ spreeNodes ps, q.2.lockTime.toNat ≤ ps.length) ∧
      ((spreeNodes ps).map fun q => q.2.lockTime).Nodup := by
  induction ps with
  | nil => exact ⟨fun q hq => absurd hq List.not_mem_nil, List.nodup_nil⟩
  | cons p ps ih =>
    rw [List.length_cons] at hlen
    obtain ⟨hle, hnodup⟩ := ih (by omega)
    have hlock : (spreeTx (p :: ps)).lockTime.toNat = ps.length + 1 := by
      show (UInt64.ofNat (ps.length + 1)).toNat = _
      rw [UInt64.toNat_ofNat', Nat.mod_eq_of_lt (by omega)]
    refine ⟨fun q hq => ?_, List.nodup_cons.mpr ⟨fun hmem => ?_, hnodup⟩⟩
    · rcases List.mem_cons.mp hq with rfl | hq
      · exact hlock.le
      · exact (hle q hq).trans (Nat.le_succ _)
    · obtain ⟨q, hq, heq⟩ := List.mem_map.mp hmem
      have hsame : q.2.lockTime = (spreeTx (p :: ps)).lockTime := heq
      have hq := hle q hq
      rw [hsame, hlock] at hq
      omega

/-- The strings of a spree are headers, strings told apart by their length, and Merkle nodes. -/
theorem covers_spreeChain {x : Bytes}
    (hx : x ∈ allStrings Crypto.sample regtestMagic (spreeChain ps)) :
    SampleStrings.Covers (spreeChain ps) (spreeStrings ps) (spreeNodes ps) x := by
  induction ps with
  | nil =>
    obtain ⟨b, hb, hxb⟩ := List.mem_flatMap.mp hx
    obtain ⟨cb, hcb, htxs⟩ := transactions_of_mem_idleChain hb
    rw [hashedStrings_of_singleton htxs, signedStrings, htxs, List.tail_cons, List.flatMap_nil,
      List.append_nil, List.mem_pair] at hxb
    rcases hxb with rfl | rfl
    · exact Or.inl ⟨b, hb, rfl⟩
    · refine Or.inr (Or.inl ?_)
      have hmem := List.mem_map_of_mem (f := Transaction.encode) hcb
      exact List.mem_append_left [sampleKey.ecdsaPubkey ++ sampleKey.dilithiumPubkey] hmem
  | cons p ps ih =>
    have hkey : sampleKey.ecdsaPubkey ++ sampleKey.dilithiumPubkey ∈ spreeStrings (p :: ps) :=
      mem_spreeStrings (by simp [spreeStrings])
    have hidle : idleCoinbase.encode ∈ spreeStrings (p :: ps) :=
      mem_spreeStrings (by simp [spreeStrings])
    rw [spreeChain, allStrings_append, List.mem_append] at hx
    rcases hx with hx | hx
    · rcases ih hx with ⟨b, hb, rfl⟩ | hplain | ⟨q, hq, rfl⟩
      · exact Or.inl ⟨b, List.mem_append_left _ hb, rfl⟩
      · exact Or.inr (Or.inl (List.mem_cons_of_mem _ (List.mem_cons_of_mem _ hplain)))
      · exact Or.inr (Or.inr ⟨q, List.mem_cons_of_mem _ hq, rfl⟩)
    · have htxs : (spreeBlock (p :: ps)).transactions = [idleCoinbase, spreeTx (p :: ps)] := rfl
      rw [allStrings, List.flatMap_singleton, hashedStrings_of_pair htxs, signedStrings, htxs,
        List.tail_cons, List.flatMap_singleton] at hx
      simp only [List.mem_append, List.mem_cons, List.not_mem_nil, or_false] at hx
      rcases hx with (rfl | rfl | rfl | rfl) | rfl | hx
      · exact Or.inl ⟨_, List.mem_append_right _ List.mem_cons_self, rfl⟩
      · exact Or.inr (Or.inl hidle)
      · exact Or.inr (Or.inl List.mem_cons_self)
      · exact Or.inr (Or.inr ⟨_, List.mem_cons_self, rfl⟩)
      · exact Or.inr (Or.inl (List.mem_cons_of_mem _ List.mem_cons_self))
      · -- all inputs have the one key
        obtain ⟨i, hi, hxi⟩ := List.mem_filterMap.mp hx
        obtain rfl : i = spendInput (spreeTx ps) _ := List.eq_of_mem_replicate hi
        obtain rfl := Option.some.inj hxi
        exact Or.inr (Or.inl hkey)

theorem sampleStrings_spreeChain (h : Affordable ps) (hlen : ps.length < 1000)
    (hnodup : (spreeLengths ps).Nodup)
    (hne : ∀ n ∈ spreeLengths ps, n ≠ 89 ∧ n ≠ 64 ∧ n < 2 ^ 64) :
    SampleStrings (spreeChain ps) (spreeStrings ps) (spreeNodes ps) :=
  ⟨(sampleChain_spreeChain h hlen).separated (by omega), length_spreeStrings ▸ hnodup,
    length_spreeStrings ▸ hne, (lockTime_spreeNodes hlen).2⟩

/-- **No two different strings of a spree have the same digest**, if its payments differ in how
often they name an output. -/
theorem allStrings_spreeChain_inj (h : Affordable ps) (hlen : ps.length < 1000)
    (hnodup : (spreeLengths ps).Nodup)
    (hne : ∀ n ∈ spreeLengths ps, n ≠ 89 ∧ n ≠ 64 ∧ n < 2 ^ 64) :
    ∀ x ∈ allStrings Crypto.sample regtestMagic (spreeChain ps),
      ∀ y ∈ allStrings Crypto.sample regtestMagic (spreeChain ps),
        Crypto.sample.hash256 x = Crypto.sample.hash256 y → x = y := fun _ hx _ hy =>
  (sampleStrings_spreeChain h hlen hnodup hne).inj (covers_spreeChain hx) (covers_spreeChain hy)

/-- No transaction of a spree is too large to be encoded. -/
theorem serializedSize_of_mem_spreeChain (h : Affordable ps) {b : Block} (hb : b ∈ spreeChain ps)
    {tx : Transaction} (htx : tx ∈ b.transactions) : tx.serializedSize < 2 ^ 64 := by
  have hcoinbases : ∀ cb ∈ [genesisCoinbase, payCoinbase, idleCoinbase],
      cb.serializedSize < 2 ^ 64 := by
    decide +kernel
  induction ps with
  | nil =>
    obtain ⟨cb, hcb, htxs⟩ := transactions_of_mem_idleChain hb
    rw [htxs, List.mem_singleton] at htx
    exact htx ▸ hcoinbases cb hcb
  | cons p ps ih =>
    rcases List.mem_append.mp hb with hb | hb
    · exact ih h.2.2.2.2 hb
    · rw [List.mem_singleton.mp hb] at htx
      rcases List.mem_pair.mp htx with rfl | rfl
      · exact hcoinbases _ (by simp)
      · have hcopies := h.copies_mem
        rw [serializedSize_spreeTx]
        omega

end

/-! ### The cap is exceeded

The reward of block 1 is named 760 times in the next block, the result 759 times in the one after
it, and the result of that twice. -/

/-- The three payments. -/
def inflation : List Mention :=
  [⟨2, 37134865192349760⟩, ⟨759, 18567432596174880⟩, ⟨760, 24463020548320⟩]

theorem affordable_inflation : Affordable inflation := by
  simp only [inflation, Affordable, spreeValue, and_true]
  decide

/-- The calls that deliver it. -/
def inflationRun : List Event := deliver (fun _ => sampleNow) 0 (spreeChain inflation).tail

/-- **The cap is exceeded when outpoints are repeated.** From the genesis of the regression-test
network, without a collision among the strings that are hashed and without an all-zero txid, the
inflation run ends with more than the whole supply unspent. -/
theorem supply_cap_exceeded : ∃ s₀, newForNetwork Crypto.sample 1 "regtest" = some s₀ ∧
    (∀ x ∈ allStrings Crypto.sample regtestMagic
        (s₀.blocks ++ recorded Crypto.sample s₀ inflationRun),
      ∀ y ∈ allStrings Crypto.sample regtestMagic
        (s₀.blocks ++ recorded Crypto.sample s₀ inflationRun),
      Crypto.sample.hash256 x = Crypto.sample.hash256 y → x = y) ∧
    (∀ b ∈ s₀.blocks ++ recorded Crypto.sample s₀ inflationRun, ∀ tx ∈ b.transactions,
      tx.txidHex Crypto.sample ≠ zeroHashHex) ∧
    (run Crypto.sample s₀ inflationRun).blocks = spreeChain inflation ∧
    maxSupplyArkes < (run Crypto.sample s₀ inflationRun).utxoSet.totalValue := by
  have hchain := sampleChain_spreeChain affordable_inflation (by decide)
  obtain ⟨hblocks, hutxo⟩ := run_spreeChain affordable_inflation (by decide)
  refine ⟨_, newForNetwork_sample, fun x hx y hy => ?_, fun b hb tx htx => ?_, hblocks, ?_⟩
  · exact allStrings_spreeChain_inj affordable_inflation (by decide) (by decide) (by decide)
      x (allStrings_mono (fun _ => hchain.mem_of_mem_recorded) hx)
      y (allStrings_mono (fun _ => hchain.mem_of_mem_recorded) hy)
  · exact txidHex_sample_ne_zeroHashHex (serializedSize_of_mem_spreeChain affordable_inflation
      (hchain.mem_of_mem_recorded hb) htx)
  · rw [inflationRun, hutxo]
    obtain ⟨out, hlook, hvalue, -⟩ := @lookup_spreeUtxo inflation
    have hle := Finmap.le_total_of_lookup (fun o : TxOutput => o.value.toNat) hlook
    have hpaid : (spreeValue inflation).toNat = 37134865192349760 := rfl
    have hmax : maxSupplyArkes = 31415926000000000 := rfl
    rw [hvalue, hpaid] at hle
    rw [UtxoSet.totalValue, hmax]
    exact lt_of_lt_of_le (by norm_num) hle

/-- **No double spend.** In every reachable state the active chain names an outpoint in its inputs
at most as often as it creates it, under the same two conditions. -/
theorem no_double_spend (C : Crypto) (fuel : ℕ) (network : String) (s₀ : Blockchain)
    (hstart : newForNetwork C fuel network = some s₀) (evs : List Event)
    (hnc : NoCollision C (s₀.blocks ++ recorded C s₀ evs))
    (hdist : ∀ b ∈ recorded C s₀ evs, b.DistinctInputs) (txHash : String)
    (index : UInt32) :
    spendsOf (chainTxs (run C s₀ evs).blocks) txHash index ≤
      creationsOf C (chainTxs (run C s₀ evs).blocks) txHash index := by
  obtain ⟨g, hheight, hgtxs, rfl⟩ := newForNetwork_eq_some hstart
  have hinv := inv_run hheight none (magicForNetwork network) evs hnc
  set s := run C (fromGenesisWithMagic C g none (magicForNetwork network)) evs
  have hd : ∀ b ∈ s.blocks, b.DistinctInputs := fun b hb =>
    distinctInputs_of_mem hgtxs hdist (hinv.mem_hist hb)
  have hspends := hinv.active.spends_le hd (by rw [hgtxs]; simp [genesisCoinbase]) hinv.replay_eq
    (UtxoSet.key txHash index)
  rw [keySpends_eq_spendsOf, keyCreations_eq_creationsOf] at hspends
  · omega
  · intro tx htx
    refine hinv.history.outputs_le hgtxs ?_
    obtain ⟨b, hb, htxb⟩ := mem_chainTxs.mp htx
    exact mem_chainTxs.mpr ⟨b, hinv.mem_hist hb, htxb⟩

/-- The counts on a run of two blocks. -/
theorem no_double_spend_idleChain :
    spendsOf (chainTxs (run Crypto.sample
        (fromGenesisWithMagic Crypto.sample sampleGenesis none regtestMagic)
        (deliver (fun _ => sampleNow) 0 (idleChain 1).tail)).blocks)
      (payCoinbase.txidHex Crypto.sample) 0 ≤
    creationsOf Crypto.sample (chainTxs (run Crypto.sample
        (fromGenesisWithMagic Crypto.sample sampleGenesis none regtestMagic)
        (deliver (fun _ => sampleNow) 0 (idleChain 1).tail)).blocks)
      (payCoinbase.txidHex Crypto.sample) 0 := by
  have hnc : NoCollision Crypto.sample (idleChain 1) := by
    rw [NoCollision]
    decide +kernel
  have hdist : ∀ b ∈ (idleChain 1).tail, b.DistinctInputs := by decide +kernel
  exact no_double_spend Crypto.sample 1 "regtest" _ newForNetwork_sample _
    (hnc.mono fun _ hb => mem_of_mem_recorded_deliver hb)
    (fun _ hb => (exists_event_of_mem_recorded hb).elim fun _ hev =>
      hdist _ (mem_of_mem_deliver hev)) _ _

/-- Every input of a payment names the same output. -/
theorem spendsOf_spendTx (prev : Transaction) (copies : ℕ) (value lockTime : UInt64) :
    spendsOf [spendTx prev copies value lockTime] (prev.txidHex Crypto.sample) 0 = copies := by
  rw [spendsOf, List.filter_cons_of_pos (by rw [isCoinbase_spendTx]; rfl), List.filter_nil,
    List.flatMap_singleton, spendTx, spendWith, List.countP_replicate]
  exact if_pos (decide_eq_true ⟨rfl, rfl⟩)

theorem spendsOf_append (txs txs' : List Transaction) (txHash : String) (index : UInt32) :
    spendsOf (txs ++ txs') txHash index =
      spendsOf txs txHash index + spendsOf txs' txHash index := by
  rw [spendsOf, List.filter_append, List.flatMap_append, List.countP_append]
  rfl

theorem creationsOf_append {C : Crypto} (txs txs' : List Transaction) (txHash : String)
    (index : UInt32) : creationsOf C (txs ++ txs') txHash index =
      creationsOf C txs txHash index + creationsOf C txs' txHash index :=
  List.countP_append

/-- The idle chain creates the first reward once and spends nothing. -/
theorem counts_idleChain (n : ℕ) :
    creationsOf Crypto.sample (chainTxs (idleChain n)) (payCoinbase.txidHex Crypto.sample) 0 = 1 ∧
      spendsOf (chainTxs (idleChain n)) (payCoinbase.txidHex Crypto.sample) 0 = 0 := by
  induction n with
  | zero =>
    have htxs : chainTxs (idleChain 0) = [genesisCoinbase, payCoinbase] := rfl
    rw [htxs]
    decide +kernel
  | succ n ih =>
    have hblock : (idleBlock (n + 1)).transactions = [idleCoinbase] := rfl
    have hcreations : creationsOf Crypto.sample [idleCoinbase]
        (payCoinbase.txidHex Crypto.sample) 0 = 0 := by decide +kernel
    rw [idleChain_succ, chainTxs_append_singleton, hblock, creationsOf_append, spendsOf_append,
      hcreations, ih.1, ih.2]
    exact ⟨rfl, rfl⟩

/-- One payment that names the first reward in two inputs. -/
def twice : List Mention := [⟨2, 64376369864⟩]

theorem affordable_twice : Affordable twice := by
  simp only [twice, Affordable, spreeValue, and_true]
  decide

/-- The calls that deliver it. -/
def twiceRun : List Event := deliver (fun _ => sampleNow) 0 (spreeChain twice).tail

/-- **A reward is spent twice by one payment.** Without a collision among the strings that are
hashed, the active chain creates the first output of `payCoinbase` once and names it in two
inputs. -/
theorem output_spent_repeatedly : ∃ s₀, newForNetwork Crypto.sample 1 "regtest" = some s₀ ∧
    NoCollision Crypto.sample (s₀.blocks ++ recorded Crypto.sample s₀ twiceRun) ∧
    creationsOf Crypto.sample (chainTxs (run Crypto.sample s₀ twiceRun).blocks)
        (payCoinbase.txidHex Crypto.sample) 0 = 1 ∧
    spendsOf (chainTxs (run Crypto.sample s₀ twiceRun).blocks)
        (payCoinbase.txidHex Crypto.sample) 0 = 2 := by
  have hchain := sampleChain_spreeChain affordable_twice (by decide)
  obtain ⟨hblocks, -⟩ := run_spreeChain affordable_twice (by decide)
  refine ⟨_, newForNetwork_sample, ?_, ?_⟩
  · exact (noCollision_of_allStrings (allStrings_spreeChain_inj affordable_twice (by decide)
      (by decide) (by decide))).mono fun _ => hchain.mem_of_mem_recorded
  · have htxs : chainTxs (spreeChain twice) =
        chainTxs (idleChain 99) ++ ([idleCoinbase] ++ [spreeTx twice]) :=
      chainTxs_append_singleton _ _
    have hspends : spendsOf [spreeTx twice] (payCoinbase.txidHex Crypto.sample) 0 = 2 :=
      spendsOf_spendTx _ _ _ _
    have hspends' : spendsOf [idleCoinbase] (payCoinbase.txidHex Crypto.sample) 0 = 0 := rfl
    have hcreations' : creationsOf Crypto.sample [idleCoinbase]
        (payCoinbase.txidHex Crypto.sample) 0 = 0 := by decide +kernel
    have hcreations : creationsOf Crypto.sample [spreeTx twice]
        (payCoinbase.txidHex Crypto.sample) 0 = 0 := by
      have hpay : payCoinbase.serializedSize = 217 := by decide +kernel
      have hsize : (spreeTx twice).serializedSize = 11101 := serializedSize_spreeTx
      have hne : (spreeTx twice).txidHex Crypto.sample ≠ payCoinbase.txidHex Crypto.sample :=
        txidHex_sample_ne (by omega) (by omega) (by omega)
      exact List.countP_eq_zero.mpr fun tx htx => by
        rw [List.mem_singleton.mp htx, decide_eq_true_iff]
        exact fun h => hne h.1
    rw [twiceRun, hblocks, htxs, creationsOf_append, creationsOf_append, spendsOf_append,
      spendsOf_append, hspends, hspends', hcreations, hcreations', (counts_idleChain 99).1,
      (counts_idleChain 99).2]
    exact ⟨rfl, rfl⟩

end Blockchain

end Arkos
