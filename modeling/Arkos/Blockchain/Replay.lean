import Arkos.Blockchain.IdleChain

/-!
# State equals replay

A node keeps its active chain five times over: as a list, as an index from hashes to positions,
inside the table of all blocks, as accumulated work, and as the unspent outputs and the minted total
it leads to. `StateEqualsReplay` says that the copies agree, and that the shortcut `parent_context`
takes at the tip returns what the walk and the replay return.

## Main definitions

* `Blockchain.StateEqualsReplay`

## Main results

* `Blockchain.state_equals_replay` — the copies agree in every reachable state
-/

namespace Arkos

namespace Blockchain

variable {C : Crypto} {magic : UInt32} {T : Set ℕ} {g : Block} {hist : List Block} {s : Blockchain}

/-- **State equals replay.** The redundant parts of a node's state, as functions of its active
chain. -/
structure StateEqualsReplay (C : Crypto) (s : Blockchain) : Prop where
  height_eq : ∀ (i : ℕ) (b : Block), s.blocks[i]? = some b → b.height = i
  prevHash_eq : ∀ (i : ℕ) (a b : Block), s.blocks[i]? = some a → s.blocks[i + 1]? = some b →
    b.header.prevHash = a.hashHex C
  index_iff : ∀ (h : String) (i : ℕ), s.blockIndex.lookup h = some i ↔
    ∃ b : Block, s.blocks[i]? = some b ∧ b.hashHex C = h
  stored : ∀ b ∈ s.blocks, s.allBlocks.lookup (b.hashHex C) = some b
  work_keys : ∀ h, h ∈ s.chainWork ↔ h ∈ s.allBlocks
  work_eq : ∀ (i : ℕ) (b : Block), s.blocks[i]? = some b →
    s.chainWork.lookup (b.hashHex C) = some (workOf (s.blocks.take (i + 1)))
  replay_eq : replay C s.blocks = .ok (s.utxoSet, s.totalMinted)
  fast_eq_slow : s.parentContext C (s.tip.hashHex C) = s.replayContext C (s.tip.hashHex C)

theorem lookup_blockIndexOf {bs : List Block} (hnodup : (bs.map (Block.hashHex C)).Nodup)
    (h : String) (i : ℕ) :
    (blockIndexOf C bs 0 ∅).lookup h = some i ↔ ∃ b, bs[i]? = some b ∧ b.hashHex C = h := by
  have hkeys : ((bs.zipIdx 0).map fun bi => (bi.1.hashHex C, bi.2)).map Prod.fst =
      bs.map (Block.hashHex C) := by
    rw [List.map_map]
    conv_rhs => rw [← List.zipIdx_map_fst 0 bs, List.map_map]
    rfl
  rw [blockIndexOf, Finmap.lookup_insertAll_empty (hkeys ▸ hnodup)]
  simp only [List.mem_map, Prod.mk.injEq, Prod.exists, List.mem_zipIdx_iff_getElem?]
  constructor
  · rintro ⟨b, j, hj, rfl, rfl⟩
    exact ⟨b, hj, rfl⟩
  · rintro ⟨b, hb, rfl⟩
    exact ⟨b, i, hb, rfl, rfl⟩

theorem Inv.stateEqualsReplay (hg : g.height = 0) (hi : Inv C magic T g hist s) :
    StateEqualsReplay C s where
  height_eq _ _ hb := hi.active.height_eq hg hb
  prevHash_eq _ _ _ ha hb := hi.active.prevHash_eq ha hb
  index_iff h i := by
    rw [hi.index_eq]
    exact lookup_blockIndexOf
      (hi.active.nodup_hashHex hg (fun _ hx => hi.mem_hist hx) hi.separated) h i
  stored := hi.stored
  work_keys := hi.work_keys
  work_eq i b hb := by
    have hmem := List.mem_of_getElem? hb
    have htake := hi.active.take (i := i) (by simpa using (List.getElem?_eq_some_iff.mp hb).1)
    refine hi.work_eq _ b (hi.stored b hmem) _ htake ?_ fun x hx =>
      hi.mem_hist (List.mem_of_mem_take hx)
    rw [List.getLast?_take, Nat.add_sub_cancel, hb]
    simp
  replay_eq := hi.replay_eq
  fast_eq_slow := hi.parentContext_eq hg _

/-- **In every reachable state the redundant structures agree with the active chain**, whatever was
submitted, reorganised and pruned before, and both paths of `parent_context` return the same at
the tip. `hash256` must not collide on what was hashed for the recorded blocks: a pruned block may
be delivered again, and only its hash says that it is the same block. -/
theorem state_equals_replay (C : Crypto) (g : Block) (hg : g.height = 0)
    (store : Option BlockStore) (magic : UInt32) (evs : List Event)
    (hnc : NoCollision C (g :: recorded C (fromGenesisWithMagic C g store magic) evs)) :
    StateEqualsReplay C (run C (fromGenesisWithMagic C g store magic) evs) :=
  (inv_run hg store magic evs hnc).stateEqualsReplay hg

/-- A second block of height 1, stamped later than the first. -/
def rivalBlock : Block := childBlock Crypto.sample sampleGenesis [payCoinbase] (sampleTime 5)

/-- The block that makes the rival branch the heavier one. -/
def rivalChild : Block := childBlock Crypto.sample rivalBlock [idleCoinbase] (sampleTime 6)

theorem noCollision_rivalChild :
    NoCollision Crypto.sample (sampleGenesis :: recorded Crypto.sample
      (fromGenesisWithMagic Crypto.sample sampleGenesis none regtestMagic)
      (deliver (fun _ => sampleNow) 0 [idleBlock 0, rivalBlock, rivalChild])) := by
  have hnc : NoCollision Crypto.sample [sampleGenesis, idleBlock 0, rivalBlock, rivalChild] := by
    rw [NoCollision]
    decide +kernel
  exact noCollision_recorded_deliver hnc

/-- The copies agree after a reorganisation to the branch of `rivalBlock`. -/
theorem state_equals_replay_rivalBlock :
    StateEqualsReplay Crypto.sample (run Crypto.sample
      (fromGenesisWithMagic Crypto.sample sampleGenesis none regtestMagic)
      (deliver (fun _ => sampleNow) 0 [idleBlock 0, rivalBlock, rivalChild])) :=
  state_equals_replay Crypto.sample sampleGenesis rfl none regtestMagic _ noCollision_rivalChild

end Blockchain

end Arkos
