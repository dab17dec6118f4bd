import Arkos.Blockchain.Reopen

/-!
# The network magic of an opened node

What a transaction signs includes the magic of its network, so a node has to check signatures with
the magic of the network it was opened for. `open_for_network` builds its chain with `from_genesis`
and `from_blocks`, which both start from the magic of the regression-test network; only after a
stored chain was reloaded, and every stored signature checked, does it set the magic it was asked
for. On a fresh path it never does.

`MagicFixed` is what a node opened for a network should satisfy, and `network_magic_iff` says that
it does for every name but `mainnet` and `testnet`, whose magics differ from that of the
regression-test network.

## Main definitions

* `Blockchain.Reloading` — a state that opening a stored chain passes through
* `Blockchain.MagicFixed`

## Main results

* `Blockchain.networkMagic_run` — no call changes the magic
* `Blockchain.Reloading.openForNetwork_eq` — how opening goes on from such a state
* `Blockchain.network_magic_iff`, `Blockchain.mainnet_opens_with_regtest_magic`
-/

namespace Arkos

namespace Blockchain

variable {C : Crypto}

/-! ### No call changes the magic -/

theorem networkMagic_addBlock (now : ℕ) (s : Blockchain) (b : Block) :
    (s.addBlock C now b).2.networkMagic = s.networkMagic := by
  refine addBlock_preserves (P := fun s' => s'.networkMagic = s.networkMagic) rfl
    (fun _ _ => rfl) ?_ ?_ fun s' h => ?_
  · exact fun _ _ h => h
  · exact fun _ _ _ _ _ _ _ _ h => h
  · rw [pruneStaleOrphans_networkMagic, h]

theorem networkMagic_step (s : Blockchain) (e : Event) :
    (s.step C e).networkMagic = s.networkMagic := by
  cases e with
  | addBlock now b => exact networkMagic_addBlock now s b
  | submitTransaction tx =>
    rw [step, submitTransaction]
    split
    · rfl
    · split <;> rfl

/-- **No call changes the magic** a node checks signatures with. -/
theorem networkMagic_run (s : Blockchain) (evs : List Event) :
    (run C s evs).networkMagic = s.networkMagic := by
  induction evs generalizing s with
  | nil => rfl
  | cons e evs ih => exact (ih (s.step C e)).trans (networkMagic_step s e)

theorem networkMagic_addBlocks {clock : ℕ → ℕ} {i : ℕ} {s s' : Blockchain} {bs : List Block}
    (h : addBlocks C clock i s bs = (.ok (), s')) : s'.networkMagic = s.networkMagic := by
  rw [← run_deliver_of_addBlocks h, networkMagic_run]

/-! ### The contract -/

/-- A chain that was just started on a fresh path, with the given magic. -/
def startedOn (C : Crypto) (g : Block) (magic : UInt32) : Blockchain :=
  fromGenesisWithMagic C g (some ((BlockStore.empty.saveBlock C g).saveTip (g.hashHex C))) magic

/-- Opening the store has come to the chain `s`, with `rest` of the stored blocks still to be added:
`from_blocks` has accepted those before them. -/
def Reloading (C : Crypto) (clock : ℕ → ℕ) (st : BlockStore) (s : Blockchain) (rest : List Block) :
    Prop :=
  ∃ tipHash t g pre, st.loadTip = .ok (some tipHash) ∧ st.loadBlockByHash tipHash = .ok (some t) ∧
    loadChain st t.height = .ok (g :: (pre ++ rest)) ∧
    fromBlocks C clock g pre (some st) = (.ok (), s)

/-- **What opening does from there**: it adds the rest, and sets the magic after the last block. -/
theorem Reloading.openForNetwork_eq {clock : ℕ → ℕ} {st : BlockStore} {s s' : Blockchain}
    {rest : List Block} (h : Reloading C clock st s rest) (fuel : ℕ) (network : String) : ∃ i,
    (∀ e, addBlocks C clock i s rest = (.error e, s') →
      openForNetwork C fuel clock st network = .error e) ∧
    (addBlocks C clock i s rest = (.ok (), s') →
      openForNetwork C fuel clock st network =
        .ok { s' with networkMagic := magicForNetwork network }) := by
  obtain ⟨tipHash, t, g, pre, htip, ht, hload, hpre⟩ := h
  have hreload : ∀ r, addBlocks C clock (0 + pre.length) s rest = (r, s') →
      fromBlocks C clock g (pre ++ rest) (some st) = (r, s') := fun r hr =>
    (addBlocks_append hpre rest).trans hr
  refine ⟨0 + pre.length, fun e he => ?_, fun hok => ?_⟩
  · simp only [openForNetwork, htip, reload, ht, hload, hreload _ he]
  · simp only [openForNetwork, htip, reload, ht, hload, hreload _ hok]

/-- **The magic of the network is fixed from construction.** A node opened for the network has its
magic, now and after any calls; every block of a stored chain is validated on a chain that has it;
and a chain without side branches that was accepted with this magic can be reopened. -/
structure MagicFixed (C : Crypto) (network : String) : Prop where
  opened : ∀ fuel clock st s, openForNetwork C fuel clock st network = .ok s → ∀ evs,
    (run C s evs).networkMagic = magicForNetwork network
  reloading : ∀ clock st s b rest, Reloading C clock st s (b :: rest) →
    s.networkMagic = magicForNetwork network
  reopens : ∀ fuel clock₀ clock g bs s st,
    genesisBlockWithBits C fuel (genesisBits network) = some g →
    addBlocks C clock₀ 0 (startedOn C g (magicForNetwork network)) bs = (.ok (), s) →
    s.blocks = g :: bs → Separated C (g :: bs) → s.store = some st →
    (∀ i j, clock₀ i ≤ clock j) →
    ∃ s', openForNetwork C fuel clock st network = .ok s' ∧ s'.blocks = s.blocks ∧
      s'.utxoSet = s.utxoSet ∧ s'.totalMinted = s.totalMinted

/-- A chain accepted block by block with the magic of the regression-test network can be
reopened. -/
theorem exists_reopened {network : String} {fuel : ℕ} {clock₀ clock : ℕ → ℕ} {g : Block}
    {bs : List Block} {s : Blockchain} {st : BlockStore} {bits : UInt32}
    (hgen : genesisBlockWithBits C fuel bits = some g)
    (hadd : addBlocks C clock₀ 0 (startedOn C g regtestMagic) bs = (.ok (), s))
    (hblocks : s.blocks = g :: bs) (hsep : Separated C (g :: bs)) (hstore : s.store = some st)
    (hclock : ∀ i j, clock₀ i ≤ clock j) :
    ∃ s', openForNetwork C fuel clock st network = .ok s' ∧ s'.blocks = s.blocks ∧
      s'.utxoSet = s.utxoSet ∧ s'.totalMinted = s.totalMinted := by
  have hg := (genesisBlockWithBits_spec hgen).1
  have hsize := serializedSize_genesis hgen
  have hbase : ∀ T, Inv C regtestMagic T g [g] (startedOn C g regtestMagic) := fun T =>
    inv_fromGenesisWithMagic _
  have hwritten : BlockStore.empty.Written C (g :: bs) := .empty
  -- the final chain is valid, which gives the heights of its blocks
  obtain ⟨hist, -, hinv⟩ := inv_of_addBlocks hg hsep hadd
  have hT : ∀ i, clock₀ i ∈ {t | ∀ j, t ≤ clock j} := hclock
  obtain ⟨st₁, hsession, hholds⟩ := session_of_persisted hg hsep (hbase {t | ∀ j, t ≤ clock j})
    hwritten (fun b hb => List.mem_singleton.mp hb ▸ List.mem_cons_self) hsize rfl
  obtain ⟨-, st', hsession', hholds'⟩ := session_of_addBlocks hg hsep hsize hT
    (hbase {t | ∀ j, t ≤ clock j}) hsession.store_eq hsession.written (fun b hb => hb)
    (fun i b hb => by
      have := hinv.active.height_eq (i := i + 1) hg (by rw [hblocks]; exact hb)
      rw [this]
      exact Nat.add_comm i 1)
    (fun _ => ⟨hsession, hholds⟩) hadd
  obtain rfl : st' = st := Option.some.inj (hsession'.store_eq.symm.trans hstore)
  exact hsession'.openForNetwork_of_holds hg hholds' fuel (fun i t ht => ht i) network

/-- **For which networks the magic is fixed from construction**: for all but `mainnet` and
`testnet`. The search for the genesis block has to end. -/
theorem network_magic_iff (C : Crypto) (network : String)
    (hgen : ∃ fuel g, genesisBlockWithBits C fuel (genesisBits network) = some g) :
    MagicFixed C network ↔ network ≠ "mainnet" ∧ network ≠ "testnet" := by
  rw [← magicForNetwork_eq_regtestMagic_iff]
  constructor
  · intro h
    obtain ⟨fuel, g, hg⟩ := hgen
    have hopen : openForNetwork C fuel (fun _ => 0) .empty network =
        .ok (startedOn C g regtestMagic) :=
      openForNetwork_eq_ok_iff.mpr (Or.inr ⟨rfl, g, hg, rfl⟩)
    exact (h.opened _ _ _ _ hopen []).symm
  · intro hmagic
    refine ⟨fun fuel clock st s hopen evs => ?_, ?_, ?_⟩
    · rw [networkMagic_run, hmagic]
      rcases openForNetwork_eq_ok_iff.mp hopen with ⟨tipHash, -, hreload⟩ | ⟨-, g, -, rfl⟩
      · obtain ⟨t, g, rest, s', -, -, -, rfl⟩ := reload_eq_ok_iff.mp hreload
        exact hmagic
      · rfl
    · rintro clock st s b rest ⟨tipHash, t, g, pre, -, -, -, hpre⟩
      rw [networkMagic_addBlocks hpre, hmagic]
      rfl
    · intro fuel clock₀ clock g bs s st hg hadd hblocks hsep hstore hclock
      rw [hmagic] at hadd
      exact exists_reopened hg hadd hblocks hsep hstore hclock

/-- The regression-test network of the sample instance. -/
theorem network_magic_iff_regtest : MagicFixed Crypto.sample "regtest" :=
  (network_magic_iff Crypto.sample "regtest" ⟨1, sampleGenesis, by
    rw [show genesisBits "regtest" = regtestGenesisBits by decide]
    exact genesisBlockWithBits_sample⟩).mpr (by decide)

/-- A digest that meets every target of a genesis block: five zero bytes, the length, and the last
bytes backwards. -/
def hardDigest (data : Bytes) : Hash :=
  ⟨List.replicate 5 0 ++ (leBytes 4 data.length ++ (data.reverse ++ List.replicate 23 0).take 23),
    by simp⟩

/-- **A node opened for `mainnet` on a fresh path checks signatures with the magic of the
regression-test network.** -/
theorem mainnet_opens_with_regtest_magic :
    ∃ s, openForNetwork { Crypto.sample with hash256 := hardDigest } 1 (fun _ => sampleNow) .empty
        "mainnet" = .ok s ∧
      s.networkMagic = regtestMagic ∧ s.networkMagic ≠ magicForNetwork "mainnet" := by
  have hgen : (genesisBlockWithBits { Crypto.sample with hash256 := hardDigest } 1
      (genesisBits "mainnet")).isSome := by
    decide +kernel
  obtain ⟨g, hg⟩ := Option.isSome_iff_exists.mp hgen
  have hne : regtestMagic ≠ magicForNetwork "mainnet" := by decide
  exact ⟨_, openForNetwork_eq_ok_iff.mpr (Or.inr ⟨rfl, g, hg, rfl⟩), rfl, hne⟩

end Blockchain

end Arkos
