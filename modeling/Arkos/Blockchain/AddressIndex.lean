import Arkos.Blockchain.Ledger
import Arkos.Blockchain.Replay

/-!
# The address an output is filed under

An output says twice whose it is: `address` is what balances and coin selection look at, and the
script is what a spender has to satisfy. The constructors of outputs derive the first from the
second. An output that arrives in a block was built by somebody else, and neither the checks on a
transaction nor those on a coinbase compare the two.

So what is filed correctly depends on the blocks alone. `Filed` is kept by every call that is handed
correctly filed blocks, without any assumption on the hash function: it is a property of what the
table of blocks holds, and an activation reads nothing else.

## Main definitions

* `TxOutput.Indexed`, `Block.Indexed` — `address` is the address of the lock
* `Blockchain.AddressIndexed` — the index of a state, and what is read off it

## Main results

* `Blockchain.address_matches_lock` — correctly filed blocks leave a correct index
-/

namespace Arkos

variable {C : Crypto}

/-- The output is filed under the address of its lock. -/
def TxOutput.Indexed (C : Crypto) (o : TxOutput) : Prop := o.address = o.effectiveScript.address C

instance (o : TxOutput) : Decidable (o.Indexed C) :=
  inferInstanceAs (Decidable (o.address = o.effectiveScript.address C))

/-- Every output a block creates is filed under the address of its lock. -/
def Block.Indexed (C : Crypto) (b : Block) : Prop :=
  ∀ tx ∈ b.transactions, ∀ o ∈ tx.outputs, o.Indexed C

instance (b : Block) : Decidable (b.Indexed C) :=
  inferInstanceAs (Decidable (∀ tx ∈ b.transactions, ∀ o ∈ tx.outputs, o.Indexed C))

/-- What the constructors of outputs build is filed correctly. -/
theorem TxOutput.indexed_constructors (address : String) (m : UInt8)
    (pubkeys : List HybridPublicKey) (lockUntil value : UInt64) (inner : Script) :
    (TxOutput.p2pkh address value).Indexed C ∧ (TxOutput.p2ms C m pubkeys value).Indexed C ∧
      (TxOutput.timeLocked C lockUntil inner value).Indexed C :=
  ⟨rfl, rfl, rfl⟩

namespace UtxoSet

/-- Every unspent output is filed under the address of its lock. -/
def Indexed (C : Crypto) (u : UtxoSet) : Prop := ∀ k o, u.utxos.lookup k = some o → o.Indexed C

/-- An application files what its transaction says. -/
theorem Indexed.applyTransaction {u : UtxoSet} (h : u.Indexed C) {tx : Transaction}
    (htx : ∀ o ∈ tx.outputs, o.Indexed C) : (u.applyTransaction C tx).Indexed C := by
  intro k o ho
  rcases lookup_applyTransaction_cases ho with hnew | ⟨hold, -⟩
  · obtain ⟨i, hi, -⟩ := mem_createdEntries.mp hnew
    exact htx o (List.mem_of_getElem? hi)
  · exact h k o hold

theorem Indexed.foldl {u : UtxoSet} (h : u.Indexed C) {txs : List Transaction}
    (htxs : ∀ tx ∈ txs, ∀ o ∈ tx.outputs, o.Indexed C) :
    (txs.foldl (UtxoSet.applyTransaction C) u).Indexed C := by
  induction txs generalizing u with
  | nil => exact h
  | cons tx txs ih =>
    rw [List.forall_mem_cons] at htxs
    exact ih (h.applyTransaction htxs.1) htxs.2

theorem indexed_empty : empty.Indexed C := by
  intro k o ho
  simp [empty] at ho

/-- On a correct index the two descriptions of the owner select the same outputs. -/
theorem Indexed.balanceSum_eq {u : UtxoSet} (h : u.Indexed C) (address : String) :
    u.balanceSum address =
      u.utxos.total fun o =>
        if o.effectiveScript.address C = address then o.value.toNat else 0 := by
  unfold balanceSum Finmap.total
  congr 1
  refine Multiset.map_congr rfl fun e he => ?_
  show (if e.2.address = address then _ else 0) = _
  rw [h e.1 e.2 (Finmap.lookup_eq_some_iff.mpr he)]

/-- On a correct index every output listed for an address is locked to it. -/
theorem Indexed.address_of_mem_utxosFor {u : UtxoSet} (h : u.Indexed C) {address : String}
    {x : Utxo} (hx : x ∈ u.utxosFor address) : x.output.effectiveScript.address C = address := by
  obtain ⟨e, he, rfl⟩ := Multiset.mem_map.mp hx
  obtain ⟨hmem, haddress⟩ := Multiset.mem_filter.mp he
  rw [← haddress, h e.1 e.2 (Finmap.lookup_eq_some_iff.mpr hmem)]

end UtxoSet

namespace Blockchain

/-- The index of a state: every unspent output is filed under the address of its lock, so the
balance of an address is the sum of what is locked to it, and what is listed for it can be spent by
it. -/
structure AddressIndexed (C : Crypto) (s : Blockchain) : Prop where
  indexed : ∀ k o, s.utxoSet.utxos.lookup k = some o → o.address = o.effectiveScript.address C
  balance : ∀ address, s.balanceOf address = (s.utxoSet.utxos.total fun o =>
    if o.effectiveScript.address C = address then o.value.toNat else 0) % 2 ^ 64
  listed : ∀ address, ∀ x ∈ s.utxoSet.utxosFor address,
    x.output.effectiveScript.address C = address

theorem addressIndexed_of_indexed {s : Blockchain} (h : s.utxoSet.Indexed C) :
    AddressIndexed C s where
  indexed := h
  balance address := by
    rw [balanceOf, UtxoSet.balanceOf, h.balanceSum_eq]
  listed _ _ hx := h.address_of_mem_utxosFor hx

/-! ### Along a run -/

/-- The table of blocks and the unspent outputs are filed correctly. -/
structure Filed (C : Crypto) (s : Blockchain) : Prop where
  blocks : ∀ h b, s.allBlocks.lookup h = some b → b.Indexed C
  outputs : s.utxoSet.Indexed C

namespace Filed

variable {s : Blockchain}

theorem recordBlock (h : Filed C s) {b : Block} (hb : b.Indexed C) (w : ℕ) :
    Filed C (s.recordBlock C b w) := by
  refine ⟨fun k x hx => ?_, h.outputs⟩
  rw [Blockchain.recordBlock, Finmap.lookup_insert_eq] at hx
  split at hx
  · exact Option.some.inj hx ▸ hb
  · exact h.blocks k x hx

theorem pruneStaleOrphans (h : Filed C s) : Filed C (s.pruneStaleOrphans C) := by
  rw [Blockchain.pruneStaleOrphans]
  split
  · exact h
  · exact ⟨fun k x hx => h.blocks k x (Finmap.lookup_retain_eq_some.mp hx).1, h.outputs⟩

/-- The unspent outputs of a chain out of the table are filed correctly. -/
theorem replay (h : Filed C s) {hash : String} {bs : List Block}
    (hwalk : s.chainToHash hash = .ok bs) {u : UtxoSet} {m : ℕ}
    (hrep : Arkos.replay C bs = .ok (u, m)) : u.Indexed C := by
  rw [replay_utxoSet hrep]
  refine UtxoSet.indexed_empty.foldl fun tx htx => ?_
  obtain ⟨b, hb, htxb⟩ := mem_chainTxs.mp htx
  rcases mem_of_chainToHashLoop hwalk b hb with hnil | ⟨k, hk⟩
  · exact absurd hnil List.not_mem_nil
  · exact h.blocks k b hk tx htxb

theorem addBlock (h : Filed C s) {now : ℕ} {b : Block}
    (hb : ∀ w, s.checkBlock C now b = .ok (some w) → b.Indexed C) :
    Filed C (s.addBlock C now b).2 := by
  refine addBlock_preserves (P := Filed C) h (fun w hw => h.recordBlock (hb w hw) w) ?_ ?_
    fun _ => pruneStaleOrphans
  · exact fun _ _ h' => ⟨h'.blocks, h'.outputs⟩
  · exact fun _ _ _ _ _ _ hwalk hrep h' => ⟨h'.blocks, h'.replay hwalk hrep⟩

theorem submitTransaction (h : Filed C s) (tx : Transaction) :
    Filed C (s.submitTransaction C tx).2 := by
  rw [Blockchain.submitTransaction]
  repeat' split
  all_goals exact ⟨h.blocks, h.outputs⟩

theorem step (h : Filed C s) {e : Event} (hb : ∀ b ∈ s.recordedBy C e, b.Indexed C) :
    Filed C (s.step C e) := by
  cases e with
  | submitTransaction tx => exact h.submitTransaction tx
  | addBlock now b => exact h.addBlock fun w hw => hb b (by simp [recordedBy, hw])

theorem run {evs : List Event} (h : Filed C s) (hb : ∀ b ∈ recorded C s evs, b.Indexed C) :
    Filed C (run C s evs) := by
  induction evs generalizing s with
  | nil => exact h
  | cons e evs ih =>
    rw [recorded, List.forall_mem_append] at hb
    exact ih (h.step hb.1) hb.2

end Filed

theorem filed_fromGenesisWithMagic {g : Block} (hg : g.Indexed C) (store : Option BlockStore)
    (magic : UInt32) : Filed C (fromGenesisWithMagic C g store magic) := by
  refine ⟨fun k x hx => ?_, UtxoSet.indexed_empty.foldl hg⟩
  rw [fromGenesisWithMagic, Finmap.lookup_insert_eq] at hx
  split at hx
  · exact Option.some.inj hx ▸ hg
  · simp at hx

/-- **Correctly filed blocks leave a correct index.** From any network genesis, in every state a run
reaches by calls that record only blocks whose outputs are filed under the address of their lock,
the unspent outputs are filed so, and balances and listings follow the locks. -/
theorem address_matches_lock (C : Crypto) (fuel : ℕ) (bits : UInt32) (g : Block)
    (hgen : genesisBlockWithBits C fuel bits = some g) (store : Option BlockStore) (magic : UInt32)
    (evs : List Event)
    (hfiled : ∀ b ∈ recorded C (fromGenesisWithMagic C g store magic) evs, b.Indexed C) :
    AddressIndexed C (run C (fromGenesisWithMagic C g store magic) evs) := by
  obtain ⟨-, hgtxs⟩ := genesisBlockWithBits_spec hgen
  have hg : g.Indexed C := by
    simp only [Block.Indexed, hgtxs, List.mem_singleton, forall_eq]
    intro o ho
    simp only [genesisCoinbase, Transaction.coinbase, List.mem_singleton] at ho
    exact ho ▸ rfl
  exact addressIndexed_of_indexed ((filed_fromGenesisWithMagic hg store magic).run hfiled).outputs

/-- A block that pays its miner, filed under the address it is locked to. -/
theorem address_matches_lock_idleBlock :
    AddressIndexed Crypto.sample (run Crypto.sample
      (fromGenesisWithMagic Crypto.sample sampleGenesis none regtestMagic)
      [.addBlock sampleNow (idleBlock 0)]) := by
  refine address_matches_lock Crypto.sample 1 regtestGenesisBits sampleGenesis
    genesisBlockWithBits_sample none regtestMagic _ fun b hb => ?_
  obtain ⟨now, hev⟩ := exists_event_of_mem_recorded hb
  obtain ⟨-, rfl⟩ := Event.addBlock.inj (List.mem_singleton.mp hev)
  decide +kernel

/-- A coinbase whose output is filed under one address and locked to another. -/
def misfiledCoinbase : Transaction :=
  { payCoinbase with
    outputs := [⟨UInt64.ofNat (Block.blockReward 1), some (.p2pkh "another"), sampleAddress⟩] }

/-- The block that carries it. -/
def misfiledBlock : Block :=
  childBlock Crypto.sample sampleGenesis [misfiledCoinbase] (sampleTime 1)

/-- **A block may pay an address what that address cannot spend.** The block is accepted, and the
balance of the address it names is the whole reward. -/
theorem not_addressIndexed_misfiledBlock :
    let s := run Crypto.sample (fromGenesisWithMagic Crypto.sample sampleGenesis none regtestMagic)
      [.addBlock sampleNow misfiledBlock]
    s.blocks = [sampleGenesis, misfiledBlock] ∧ s.balanceOf sampleAddress = Block.blockReward 1 ∧
      ¬ AddressIndexed Crypto.sample s := by
  have hrun : (run Crypto.sample
      (fromGenesisWithMagic Crypto.sample sampleGenesis none regtestMagic)
      [.addBlock sampleNow misfiledBlock]).utxoSet.utxos.lookup
        (UtxoSet.key (misfiledCoinbase.txidHex Crypto.sample) 0) =
      some ⟨UInt64.ofNat (Block.blockReward 1), some (.p2pkh "another"), sampleAddress⟩ := by
    decide +kernel
  refine ⟨by decide +kernel, by decide +kernel, fun h => ?_⟩
  have hbad := h.indexed _ _ hrun
  revert hbad
  decide +kernel

end Blockchain

end Arkos
