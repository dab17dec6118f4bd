import Arkos.Blockchain.Branch
import Arkos.Blockchain.Reopen

/-!
# Descent of the stored blocks

The invariant of `Arkos.Blockchain.Invariant` is about one run under one network magic. A node that
was closed and opened again is not such a run: its blocks are delivered under the regtest magic, its
own magic is set afterwards, and the block it starts from is whatever the store has at height zero.
Two things do not depend on any of this. Every stored block descends from the first one through
blocks that each passed the checks on its parent, and the work table says what the blocks on the
way weigh.

`Reached` has all states a node can be in, opened ones and what calls make of them. In each of them
`Ancestry` holds, with nothing assumed of the hash function. If `hash256` does not collide on what
was hashed, a block has one descent only, and the walk of `chain_to_hash` returns a `Branch`.

## Main definitions

* `Descends` — a recorded block, and the work of its ancestors and itself
* `Blockchain.Reached` — the states of a node, with the blocks recorded so far
* `Blockchain.Ancestry`

## Main results

* `Blockchain.exists_reached_of_openForNetwork` — opening reaches a state
* `Blockchain.Reached.ancestry`
* `Descends.eq_of_hashHex_eq`, `Blockchain.Ancestry.branch_of_chainToHash`
-/

namespace Arkos

variable {C : Crypto} {g : Block} {hist hist' : List Block}

/-! ### Descent -/

/-- The recorded block `b` goes back to `g` through recorded blocks, each of which passed the checks
on its parent; together they weigh `w`. -/
inductive Descends (C : Crypto) (g : Block) (hist : List Block) : Block → ℕ → Prop
  | genesis : g ∈ hist → Descends C g hist g (blockWork g.header.bits)
  | child {p b : Block} {w : ℕ} : Descends C g hist p w → b ∈ hist →
      b.hashHex C ≠ g.hashHex C → b.WellFormed C (p.hashHex C) →
      (∀ tx ∈ b.transactions, tx.Funded) → b.height = p.height + 1 →
      Descends C g hist b (w + blockWork b.header.bits)

namespace Descends

variable {b b' : Block} {w w' : ℕ}

theorem mem (h : Descends C g hist b w) : b ∈ hist := by
  cases h with
  | genesis hmem => exact hmem
  | child _ hmem _ _ _ _ => exact hmem

theorem mono (hsub : ∀ x ∈ hist, x ∈ hist') (h : Descends C g hist b w) :
    Descends C g hist' b w := by
  induction h with
  | genesis hmem => exact .genesis (hsub g hmem)
  | child _ hmem hne hwf hfunded hheight ih =>
    exact .child ih (hsub _ hmem) hne hwf hfunded hheight

/-- Only the first block has height zero. -/
theorem eq_genesis (h : Descends C g hist b w) (hheight : b.height = 0) : b = g := by
  cases h with
  | genesis _ => rfl
  | child _ _ _ _ _ hnext => omega

/-- **One hash, one block, one weight.** -/
theorem eq_of_hashHex_eq (hnc : NoCollision C hist) (h : Descends C g hist b w)
    (h' : Descends C g hist b' w') (heq : b.hashHex C = b'.hashHex C) : b = b' ∧ w = w' := by
  have hstr : ∀ c ∈ hist, ∀ x ∈ c.hashedStrings C, x ∈ hist.flatMap (Block.hashedStrings C) :=
    fun c hc x hx => List.mem_flatMap.mpr ⟨c, hc, hx⟩
  induction h generalizing b' w' with
  | genesis _ =>
    cases h' with
    | genesis _ => exact ⟨rfl, rfl⟩
    | child _ _ hne _ _ _ => exact absurd heq.symm hne
  | @child p b w _ hmem hne hwf hfunded hheight ih =>
    cases h' with
    | genesis _ => exact absurd heq hne
    | @child p' _ w' hp' hmem' _ hwf' hfunded' hheight' =>
      -- the header bytes agree, hence the parents, hence the heights
      have hpow : b.header.powBytes = b'.header.powBytes :=
        hnc _ (hstr b hmem _ List.mem_cons_self) _ (hstr b' hmem' _ List.mem_cons_self)
          (hashToHex_injective heq)
      obtain ⟨rfl, rfl⟩ := ih hp'
        (BlockHeader.prevHash_eq_of_powBytes_eq hwf.prevHash_eq hwf'.prevHash_eq hpow)
      have hS : Set.InjOn C.hash256 {x | x ∈ hist.flatMap (Block.hashedStrings C)} :=
        fun x hx y hy => hnc x hx y hy
      obtain rfl := Block.eq_of_hashHex_eq hS (hstr b hmem) (hstr b' hmem') hwf hwf' hfunded
        hfunded' (hheight.trans hheight'.symm) heq
      exact ⟨rfl, rfl⟩

end Descends

/-! ### Branches, from their end -/

namespace Branch

theorem singleton (hmem : g ∈ hist) (hheight : g.height = 0) : Branch C g hist [g] := by
  refine ⟨fun x hx => List.mem_singleton.mp hx ▸ hmem, rfl, fun i b hb => ?_, fun i a b _ hb => ?_⟩
  · obtain ⟨hi, rfl⟩ := List.getElem?_eq_some_iff.mp hb
    obtain rfl : i = 0 := Nat.lt_one_iff.mp hi
    exact hheight
  · simp at hb

/-- The last block of a branch has the height of its position. -/
theorem height_getLast? {bs : List Block} {p : Block} (h : Branch C g hist bs)
    (hp : bs.getLast? = some p) : p.height + 1 = bs.length := by
  obtain ⟨cs, rfl⟩ := List.getLast?_eq_some_iff.mp hp
  rw [h.height_eq cs.length p (by simp), List.length_append, List.length_singleton]

/-- A branch grows by a recorded block on top of its last one. -/
theorem snoc {bs : List Block} {p b : Block} (h : Branch C g hist bs) (hp : bs.getLast? = some p)
    (hmem : b ∈ hist) (hprev : b.header.prevHash = p.hashHex C)
    (hheight : b.height = p.height + 1) : Branch C g hist (bs ++ [b]) := by
  have hlen := h.height_getLast? hp
  -- a position is in the branch or is the new one
  have hget : ∀ (i : ℕ) (x : Block), (bs ++ [b])[i]? = some x →
      bs[i]? = some x ∨ i = bs.length ∧ x = b := by
    intro i x hx
    rcases Nat.lt_or_ge i bs.length with hi | hi
    · rw [List.getElem?_append_left hi] at hx
      exact Or.inl hx
    · rw [List.getElem?_append_right hi] at hx
      obtain ⟨hone, rfl⟩ := List.getElem?_eq_some_iff.mp hx
      rw [List.length_singleton] at hone
      exact Or.inr ⟨by omega, List.getElem_singleton _⟩
  refine ⟨fun x hx => ?_, ?_, fun i x hx => ?_, fun i x y hx hy => ?_⟩
  · rcases List.mem_append.mp hx with hx | hx
    · exact h.mem x hx
    · exact List.mem_singleton.mp hx ▸ hmem
  · rw [List.head?_append, h.head?_eq]
    rfl
  · rcases hget i x hx with hx | ⟨rfl, rfl⟩
    · exact h.height_eq i x hx
    · omega
  · rcases hget (i + 1) y hy with hy | ⟨hi, rfl⟩
    · rw [List.getElem?_append_left (Nat.lt_of_succ_lt (List.getElem?_eq_some_iff.mp hy).1)] at hx
      exact h.prevHash_eq i x y hx hy
    · rw [List.getElem?_append_left (by omega), show i = bs.length - 1 by omega,
        ← List.getLast?_eq_getElem?, hp] at hx
      rw [hprev, Option.some.inj hx]

end Branch

namespace Blockchain

/-! ### The states of a node -/

/-- The states a node can be in, with the blocks recorded so far: started on some block, after any
calls, and with a network magic that is set at any time. -/
inductive Reached (C : Crypto) (g : Block) : List Block → Blockchain → Prop
  | start (store : Option BlockStore) (magic : UInt32) :
      Reached C g [g] (fromGenesisWithMagic C g store magic)
  | call {hist : List Block} {s : Blockchain} (e : Event) : Reached C g hist s →
      Reached C g (hist ++ s.recordedBy C e) (s.step C e)
  | remagic {hist : List Block} {s : Blockchain} (magic : UInt32) : Reached C g hist s →
      Reached C g hist { s with networkMagic := magic }

theorem Reached.run {s : Blockchain} (h : Reached C g hist s) (evs : List Event) :
    Reached C g (hist ++ recorded C s evs) (Blockchain.run C s evs) := by
  induction evs generalizing hist s with
  | nil => rwa [recorded, List.append_nil]
  | cons e evs ih =>
    rw [recorded, ← List.append_assoc]
    exact ih (h.call e)

/-- **Opening reaches a state**, whatever the store holds. -/
theorem exists_reached_of_openForNetwork {fuel : ℕ} {clock : ℕ → ℕ} {st : BlockStore}
    {network : String} {s : Blockchain} (hopen : openForNetwork C fuel clock st network = .ok s) :
    ∃ g hist, Reached C g hist s := by
  rcases openForNetwork_eq_ok_iff.mp hopen with ⟨tipHash, -, hreload⟩ | ⟨-, g, -, rfl⟩
  · obtain ⟨t, g, rest, s', -, -, hadd, rfl⟩ := reload_eq_ok_iff.mp hreload
    have hrun := (Reached.start (C := C) (g := g) (some st) regtestMagic).run (deliver clock 0 rest)
    rw [run_deliver_of_addBlocks hadd] at hrun
    exact ⟨g, _, hrun.remagic _⟩
  · exact ⟨g, [g], .start _ _⟩

/-! ### What holds in all of them -/

/-- Every stored block descends from `g` and its entry in the work table says how much its ancestors
and itself weigh; the active chain is stored and has `g`. -/
structure Ancestry (C : Crypto) (g : Block) (hist : List Block) (s : Blockchain) : Prop where
  own : ∀ h b, s.allBlocks.lookup h = some b →
    b.hashHex C = h ∧ ∃ w, s.chainWork.lookup h = some w ∧ Descends C g hist b w
  stored : ∀ b ∈ s.blocks, s.allBlocks.lookup (b.hashHex C) = some b
  genesis_active : g ∈ s.blocks

theorem ancestry_fromGenesisWithMagic (store : Option BlockStore) (magic : UInt32) :
    Ancestry C g [g] (fromGenesisWithMagic C g store magic) := by
  refine ⟨fun h b hb => ?_, fun b hb => ?_, List.mem_cons_self⟩
  · rw [fromGenesisWithMagic, Finmap.lookup_insert_eq] at hb
    split at hb
    · next hh =>
      obtain rfl := Option.some.inj hb
      refine ⟨hh.symm, blockWork g.header.bits, ?_, .genesis List.mem_cons_self⟩
      rw [hh]
      exact Finmap.lookup_insert _
    · simp at hb
  · rw [List.mem_singleton.mp hb]
    exact Finmap.lookup_insert _

/-- A walk that ends has met a block of height zero. -/
theorem exists_height_zero_of_chainToHashLoop {table : Table Block} {fuel : ℕ} {cursor : String}
    {acc r : List Block} (h : chainToHashLoop table fuel cursor acc = .ok r) :
    ∃ x ∈ r, x.height = 0 ∧ ∃ k, table.lookup k = some x := by
  induction fuel generalizing cursor acc with
  | zero => cases h
  | succ fuel ih =>
    rw [chainToHashLoop] at h
    split at h
    · cases h
    next b hb =>
      split at h
      · next hzero =>
        cases h
        exact ⟨b, List.mem_cons_self, hzero, cursor, hb⟩
      · exact ih h

namespace Ancestry

variable {s : Blockchain}

theorem genesis_stored (ha : Ancestry C g hist s) : g.hashHex C ∈ s.allBlocks :=
  Finmap.mem_of_lookup (ha.stored g ha.genesis_active)

theorem mono (hsub : ∀ x ∈ hist, x ∈ hist') (ha : Ancestry C g hist s) : Ancestry C g hist' s :=
  ⟨fun k x hx => (ha.own k x hx).imp_right fun ⟨w, hw, hdesc⟩ => ⟨w, hw, hdesc.mono hsub⟩,
    ha.stored, ha.genesis_active⟩

/-- What a checked block stands on, and that it weighs as much as the checks say. -/
theorem descends_of_checked (ha : Ancestry C g hist s) {now : ℕ} {b : Block} {w : ℕ}
    (h : Checked C now s b w) : Descends C g (hist ++ [b]) b w := by
  obtain ⟨p, hp, hwf, hheight⟩ := h.parent
  obtain ⟨-, pw, hpw, hdesc⟩ := ha.own _ p hp
  obtain ⟨bs, u, m, -, hctx⟩ := h.context
  obtain ⟨pw', hpw', rfl, -⟩ := h.work
  obtain rfl : pw = pw' := Option.some.inj (hpw.symm.trans hpw')
  refine .child (hdesc.mono fun x hx => List.mem_append_left _ hx)
    (List.mem_append_right _ List.mem_cons_self) (fun heq => ?_) hwf (hctx.funded hwf) hheight
  exact h.fresh (heq ▸ ha.genesis_stored)

theorem recordBlock (ha : Ancestry C g hist s) {now : ℕ} {b : Block} {w : ℕ}
    (h : Checked C now s b w) : Ancestry C g (hist ++ [b]) (s.recordBlock C b w) := by
  refine ⟨fun k x hx => ?_, fun x hx => lookup_recordBlock_of_lookup h (ha.stored x hx),
    ha.genesis_active⟩
  rw [Blockchain.recordBlock, Finmap.lookup_insert_eq] at hx
  rw [Blockchain.recordBlock, Finmap.lookup_insert_eq]
  split at hx
  · next hk =>
    obtain rfl := Option.some.inj hx
    exact ⟨hk.symm, w, if_pos hk, ha.descends_of_checked h⟩
  · next hk =>
    obtain ⟨hown, w', hw', hdesc⟩ := ha.own k x hx
    exact ⟨hown, w', (if_neg hk).trans hw', hdesc.mono fun y hy => List.mem_append_left _ hy⟩

theorem withMempool (ha : Ancestry C g hist s) (mempool : Mempool) :
    Ancestry C g hist { s with mempool } :=
  ⟨ha.own, ha.stored, ha.genesis_active⟩

theorem withMagic (ha : Ancestry C g hist s) (networkMagic : UInt32) :
    Ancestry C g hist { s with networkMagic } :=
  ⟨ha.own, ha.stored, ha.genesis_active⟩

theorem persistActive (ha : Ancestry C g hist s) : Ancestry C g hist (s.persistActive C) :=
  ⟨ha.own, ha.stored, ha.genesis_active⟩

/-- Another chain becomes active: the walk that found it has ended at `g`. -/
theorem withActive (ha : Ancestry C g hist s) {hash : String} {bs : List Block}
    (hwalk : s.chainToHash hash = .ok bs) (hne : bs ≠ []) (u : UtxoSet) (m : ℕ) :
    Ancestry C g hist (s.withActive C bs hne u m) := by
  refine ⟨ha.own, fun x hx => ?_, ?_⟩
  · rcases mem_of_chainToHashLoop hwalk x hx with hnil | ⟨k, hk⟩
    · cases hnil
    · rw [(ha.own k x hk).1]
      exact hk
  · obtain ⟨x, hx, hzero, k, hk⟩ := exists_height_zero_of_chainToHashLoop hwalk
    obtain ⟨-, w, -, hdesc⟩ := ha.own k x hk
    exact hdesc.eq_genesis hzero ▸ hx

theorem pruneStaleOrphans (ha : Ancestry C g hist s) :
    Ancestry C g hist (s.pruneStaleOrphans C) := by
  rw [Blockchain.pruneStaleOrphans]
  split
  · exact ha
  refine ⟨fun k x hx => ?_, fun x hx => ?_, ha.genesis_active⟩
  · obtain ⟨hown, w, hw, hdesc⟩ := ha.own k x (Finmap.lookup_retain_eq_some.mp hx).1
    exact ⟨hown, w, Finmap.lookup_retain_eq_some.mpr ⟨hw, decide_eq_true (Finmap.mem_of_lookup hx)⟩,
      hdesc⟩
  · exact Finmap.lookup_retain_eq_some.mpr ⟨ha.stored x hx, active_retained hx _⟩

/-- **One call of `add_block`**, whatever comes of it. -/
theorem addBlock (ha : Ancestry C g hist s) (now : ℕ) (b : Block) :
    Ancestry C g (hist ++ s.recordedBy C (.addBlock now b)) (s.addBlock C now b).2 := by
  refine addBlock_preserves (P := Ancestry C g (hist ++ s.recordedBy C (.addBlock now b))) ?_
    (fun w hw => ?_) (fun _ mempool h' => h'.withMempool mempool) ?_ fun _ => pruneStaleOrphans
  · exact ha.mono fun x hx => List.mem_append_left _ hx
  · have hc := checkBlock_eq_ok_some_iff.mp hw
    rw [recordedBy_of_checked hc]
    exact ha.recordBlock hc
  · exact fun _ _ _ hne u m hwalk _ h' => (h'.withActive hwalk hne u m).persistActive

theorem submitTransaction (ha : Ancestry C g hist s) (tx : Transaction) :
    Ancestry C g hist (s.submitTransaction C tx).2 := by
  rw [Blockchain.submitTransaction]
  split
  · exact ha
  · split
    all_goals exact ha.withMempool _

/-- The tip has a work. -/
theorem exists_lookup_tip (ha : Ancestry C g hist s) :
    ∃ w, s.chainWork.lookup (s.tip.hashHex C) = some w := by
  obtain ⟨-, w, hw, -⟩ := ha.own _ s.tip (ha.stored s.tip s.tip_mem)
  exact ⟨w, hw⟩

/-- The parent a block was checked on is the one that is stored, with the weight that is listed. -/
theorem parent_of_descends (ha : Ancestry C g hist s) (hnc : NoCollision C hist) {b p : Block}
    {w : ℕ} (hdesc : Descends C g hist b w) (hne : b ≠ g)
    (hp : s.allBlocks.lookup b.header.prevHash = some p) :
    b.header.prevHash = p.hashHex C ∧ b.height = p.height + 1 ∧
      ∃ pw, s.chainWork.lookup b.header.prevHash = some pw ∧
        w = pw + blockWork b.header.bits := by
  obtain ⟨hphash, pw, hpw, hpdesc⟩ := ha.own _ p hp
  cases hdesc with
  | genesis _ => exact absurd rfl hne
  | child hdesc' _ _ hwf _ hheight =>
    obtain ⟨rfl, rfl⟩ := hdesc'.eq_of_hashHex_eq hnc hpdesc
      (hwf.prevHash_eq.symm.trans hphash.symm)
    exact ⟨hwf.prevHash_eq, hheight, _, hpw, rfl⟩

/-- **The walk returns a branch** that ends in the block it started from. -/
theorem branch_of_chainToHashLoop (ha : Ancestry C g hist s) (hnc : NoCollision C hist) {fuel : ℕ}
    {cursor : String} {acc r : List Block}
    (h : chainToHashLoop s.allBlocks fuel cursor acc = .ok r) :
    ∃ bs b, r = bs ++ acc ∧ s.allBlocks.lookup cursor = some b ∧ bs.getLast? = some b ∧
      Branch C g hist bs := by
  induction fuel generalizing cursor acc with
  | zero => cases h
  | succ fuel ih =>
    rw [chainToHashLoop] at h
    split at h
    · cases h
    next b hb =>
      obtain ⟨-, w, -, hdesc⟩ := ha.own cursor b hb
      split at h
      · next hzero =>
        cases h
        obtain rfl := hdesc.eq_genesis hzero
        exact ⟨[b], b, rfl, hb, rfl, .singleton hdesc.mem hzero⟩
      · next hnonzero =>
        obtain ⟨bs, p, rfl, hp, hlast, hbranch⟩ := ih h
        refine ⟨bs ++ [b], b, by simp, hb, by simp, ?_⟩
        -- a walk that ends starts its branch with `g`, whose height is then zero
        have hgzero : g.height = 0 :=
          hbranch.height_eq 0 g (by rw [← List.head?_eq_getElem?, hbranch.head?_eq])
        obtain ⟨hprev, hheight, -⟩ := ha.parent_of_descends hnc hdesc
          (fun heq => hnonzero (heq ▸ hgzero)) hp
        exact hbranch.snoc hlast hdesc.mem hprev hheight

theorem branch_of_chainToHash (ha : Ancestry C g hist s) (hnc : NoCollision C hist) {hash : String}
    {bs : List Block} (h : s.chainToHash hash = .ok bs) :
    ∃ b, s.allBlocks.lookup hash = some b ∧ bs.getLast? = some b ∧ Branch C g hist bs := by
  obtain ⟨cs, b, hcs, hb, hlast, hbranch⟩ := ha.branch_of_chainToHashLoop hnc h
  rw [List.append_nil] at hcs
  exact hcs ▸ ⟨b, hb, hlast, hbranch⟩

end Ancestry

/-- **In every state of a node the stored blocks have their descent and their weight.** -/
theorem Reached.ancestry {s : Blockchain} (h : Reached C g hist s) : Ancestry C g hist s := by
  induction h with
  | start store magic => exact ancestry_fromGenesisWithMagic store magic
  | @call hist s e _ ih =>
    cases e with
    | addBlock now b => exact ih.addBlock now b
    | submitTransaction tx =>
      rw [recordedBy, List.append_nil]
      exact ih.submitTransaction tx
  | remagic magic _ ih => exact ih.withMagic magic

/-- A chain over the sample primitives is reached by delivering it. -/
theorem exists_reached_of_sampleChain {n m : ℕ} {bs : List Block} {u : UtxoSet}
    (h : SampleChain n bs u m) (hn : n < 2016) (hnc : NoCollision Crypto.sample bs) :
    ∃ hist s, Reached Crypto.sample sampleGenesis hist s ∧ NoCollision Crypto.sample hist ∧
      Inv Crypto.sample regtestMagic Set.univ sampleGenesis bs s ∧ s.blocks = bs := by
  obtain ⟨s, -, hrun, hinv, hblocks, -⟩ := h.run_deliver hn
  have hreached := (Reached.start (C := Crypto.sample) (g := sampleGenesis) none regtestMagic).run
    (deliver (fun _ => sampleNow) 0 bs.tail)
  rw [hrun] at hreached
  exact ⟨_, s, hreached, h.noCollision_recorded hnc, hinv, hblocks⟩

end Blockchain

end Arkos
