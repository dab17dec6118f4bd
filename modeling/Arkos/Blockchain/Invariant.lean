import Arkos.Blockchain.Commitment

/-!
# The state of a node is what replaying its active chain yields

`Inv hist s` ties the redundant parts of a node's state together. `hist` lists every block the node
ever recorded, pruned ones included: each of them has a valid chain among them, and no two share a
hash. The table of blocks is a part of `hist`, the work table says for each of its blocks what the
chain behind it weighs, the active chain is valid and all there, and the index, the unspent outputs
and the minted total are those of the active chain.

What `add_block` needs from this is that the context it validates a block in is the one that
replaying the block's ancestors gives, on the fast path and on the slow one alike
(`Inv.parentContext_eq`). Everything recorded is then a valid extension of a recorded chain
(`Inv.exists_grows`), and the invariant goes on.

## Main definitions

* `Checked` — the checks of `add_block`, taken apart
* `Inv`, `Grows`

## Main results

* `Inv.addBlock`, `Inv.run` — one call, and a whole run
* `inv_run` — every state a run reaches
-/

namespace Arkos

namespace Blockchain

variable {C : Crypto} {magic : UInt32} {T : Set ℕ} {g : Block} {hist : List Block} {s : Blockchain}

/-! ### The checks, taken apart -/

/-- What a recorded block has passed. -/
structure Checked (C : Crypto) (now : ℕ) (s : Blockchain) (b : Block) (w : ℕ) : Prop where
  fresh : b.hashHex C ∉ s.allBlocks
  parent : ∃ p, s.allBlocks.lookup b.header.prevHash = some p ∧ b.WellFormed C (p.hashHex C) ∧
    b.height = p.height + 1
  context : ∃ bs u m, s.parentContext C b.header.prevHash = .ok (bs, u, m) ∧
    ContextOk C s.networkMagic now bs u m b
  work : ∃ pw, s.chainWork.lookup b.header.prevHash = some pw ∧
    pw + blockWork b.header.bits = w ∧ w < 2 ^ 128

theorem validateBlockAgainstParent_eq_ok_iff {now : ℕ} {b p : Block} :
    s.validateBlockAgainstParent C now b p = .ok () ↔
      b.height = p.height + 1 ∧ ∃ bs u m, s.parentContext C b.header.prevHash = .ok (bs, u, m) ∧
        ContextOk C s.networkMagic now bs u m b := by
  rw [validateBlockAgainstParent]
  constructor
  · intro h
    split at h
    · cases h
    next hheight =>
      split at h
      · cases h
      next bs u m hctx =>
        exact ⟨not_not.mp hheight, bs, u, m, hctx, validateInContext_eq_ok_iff.mp h⟩
  · rintro ⟨hheight, bs, u, m, hctx, hok⟩
    rw [if_neg (not_not.mpr hheight), hctx]
    exact validateInContext_eq_ok_iff.mpr hok

/-- After everything else is checked, the sum of the works decides. -/
theorem checkBlock_of_validated {now pw : ℕ} {b p : Block} (hfresh : b.hashHex C ∉ s.allBlocks)
    (hp : s.allBlocks.lookup b.header.prevHash = some p)
    (hval : b.validate C (p.hashHex C) = .ok ())
    (hctx : s.validateBlockAgainstParent C now b p = .ok ())
    (hpw : s.chainWork.lookup b.header.prevHash = some pw) :
    s.checkBlock C now b = (checkedAdd 128 pw (blockWork b.header.bits)).elim
      (.error .chainWorkOverflow) fun candidateWork => .ok (some candidateWork) := by
  rw [checkBlock, if_neg hfresh, hp]
  dsimp only
  rw [hval]
  dsimp only
  rw [hctx]
  dsimp only
  rw [hpw]
  dsimp only
  rcases checkedAdd 128 pw (blockWork b.header.bits) with _ | candidateWork
  · rfl
  · rfl

theorem checkBlock_eq_ok_some_iff {now : ℕ} {b : Block} {w : ℕ} :
    s.checkBlock C now b = .ok (some w) ↔ Checked C now s b w := by
  constructor
  · intro h
    rw [checkBlock] at h
    split at h
    · cases h
    next hfresh =>
      split at h
      · cases h
      next p hp =>
        split at h
        · cases h
        next hval =>
          split at h
          · cases h
          next hctx =>
            split at h
            · cases h
            next pw hpw =>
              split at h
              · cases h
              next w' hw =>
                cases h
                obtain ⟨hheight, hcontext⟩ := validateBlockAgainstParent_eq_ok_iff.mp hctx
                exact ⟨hfresh, ⟨p, hp, Block.validate_eq_ok_iff.mp hval, hheight⟩, hcontext,
                  ⟨pw, hpw, checkedAdd_eq_some_iff.mp hw⟩⟩
  · rintro ⟨hfresh, ⟨p, hp, hwf, hheight⟩, hcontext, ⟨pw, hpw, hw⟩⟩
    rw [checkBlock_of_validated hfresh hp (Block.validate_eq_ok_iff.mpr hwf)
      (validateBlockAgainstParent_eq_ok_iff.mpr ⟨hheight, hcontext⟩) hpw,
      checkedAdd_eq_some_iff.mpr hw, Option.elim_some]

theorem recordedBy_of_checked {now : ℕ} {b : Block} {w : ℕ} (h : Checked C now s b w) :
    s.recordedBy C (.addBlock now b) = [b] := by
  rw [recordedBy, checkBlock_eq_ok_some_iff.mpr h]

theorem recordedBy_of_not_checked {now : ℕ} {b : Block} (h : ∀ w, ¬ Checked C now s b w) :
    s.recordedBy C (.addBlock now b) = [] := by
  rw [recordedBy]
  split
  · next w hw => exact absurd (checkBlock_eq_ok_some_iff.mp hw) (h w)
  · rfl

/-! ### The invariant -/

/-- The state of a node that has recorded the blocks `hist`. -/
structure Inv (C : Crypto) (magic : UInt32) (T : Set ℕ) (g : Block) (hist : List Block)
    (s : Blockchain) : Prop where
  history : History C magic T g hist
  separated : Separated C hist
  magic_eq : s.networkMagic = magic
  own : ∀ h b, s.allBlocks.lookup h = some b → b.hashHex C = h ∧ b ∈ hist
  work_eq : ∀ h b, s.allBlocks.lookup h = some b → ∀ bs, ValidChain C magic T g bs →
    bs.getLast? = some b → (∀ x ∈ bs, x ∈ hist) → s.chainWork.lookup h = some (workOf bs)
  work_keys : ∀ h, h ∈ s.chainWork ↔ h ∈ s.allBlocks
  active : ValidChain C magic T g s.blocks
  stored : ∀ b ∈ s.blocks, s.allBlocks.lookup (b.hashHex C) = some b
  index_eq : s.blockIndex = blockIndexOf C s.blocks 0 ∅
  replay_eq : replay C s.blocks = .ok (s.utxoSet, s.totalMinted)

/-- A checked block `b`, the valid chain `bs` it stands on, all of which is there, and the work of
the two. -/
structure Grows (C : Crypto) (magic : UInt32) (T : Set ℕ) (g : Block) (now : ℕ) (s : Blockchain)
    (b : Block) (bs : List Block) (w : ℕ) : Prop where
  checked : Checked C now s b w
  valid : ValidChain C magic T g bs
  stored : ∀ x ∈ bs, s.allBlocks.lookup (x.hashHex C) = some x
  step : Extends C magic now bs b
  work_eq : w = workOf (bs ++ [b])

theorem getLast?_blocks (s : Blockchain) : s.blocks.getLast? = some s.tip :=
  List.getLast?_eq_some_getLast s.blocks_ne_nil

theorem tip_mem (s : Blockchain) : s.tip ∈ s.blocks := List.getLast_mem s.blocks_ne_nil

/-- What is stored once a block is recorded. -/
theorem lookup_recordBlock {b x : Block} {w : ℕ}
    (h : (s.recordBlock C b w).allBlocks.lookup (x.hashHex C) = some x) :
    x = b ∨ s.allBlocks.lookup (x.hashHex C) = some x := by
  rw [recordBlock, Finmap.lookup_insert_eq] at h
  split at h
  · exact Or.inl (Option.some.inj h).symm
  · exact Or.inr h

theorem lookup_recordBlock_of_lookup {now : ℕ} {b x : Block} {w : ℕ} (h : Checked C now s b w)
    (hx : s.allBlocks.lookup (x.hashHex C) = some x) :
    (s.recordBlock C b w).allBlocks.lookup (x.hashHex C) = some x := by
  rw [recordBlock, Finmap.lookup_insert_eq, if_neg, hx]
  exact fun heq => h.fresh (heq ▸ Finmap.mem_of_lookup hx)

/-- What the walk collects is in the table. -/
theorem mem_of_chainToHashLoop {table : Table Block} {fuel : ℕ} {cursor : String}
    {acc r : List Block} (h : chainToHashLoop table fuel cursor acc = .ok r) :
    ∀ x ∈ r, x ∈ acc ∨ ∃ k, table.lookup k = some x := by
  induction fuel generalizing cursor acc with
  | zero => cases h
  | succ fuel ih =>
    rw [chainToHashLoop] at h
    split at h
    · cases h
    next b hb =>
      split at h
      · cases h
        exact List.forall_mem_cons.mpr ⟨Or.inr ⟨cursor, hb⟩, fun x hx => Or.inl hx⟩
      · intro x hx
        rcases ih h x hx with hacc | hk
        · rcases List.mem_cons.mp hacc with rfl | hacc
          · exact Or.inr ⟨cursor, hb⟩
          · exact Or.inl hacc
        · exact Or.inr hk

/-- Pruning keeps an active block, for its height or for being active. -/
theorem active_retained {x : Block} (hx : x ∈ s.blocks) (cutoffHeight : ℕ) :
    (decide (cutoffHeight < x.height) || decide (x.hashHex C ∈ (s.blocks.filter fun b =>
      decide (b.height ≤ cutoffHeight)).map (Block.hashHex C))) = true := by
  rw [Bool.or_eq_true, decide_eq_true_iff, decide_eq_true_iff]
  rcases Nat.lt_or_ge cutoffHeight x.height with hheight | hheight
  · exact Or.inl hheight
  · exact Or.inr (List.mem_map_of_mem (List.mem_filter.mpr ⟨hx, decide_eq_true hheight⟩))

namespace Inv

theorem mem_hist (hi : Inv C magic T g hist s) {b : Block} (hb : b ∈ s.blocks) : b ∈ hist :=
  (hi.own _ b (hi.stored b hb)).2

/-- The genesis is the first active block. -/
theorem genesis_mem (hi : Inv C magic T g hist s) : g ∈ s.blocks :=
  List.mem_of_head? hi.active.head?_eq

theorem genesis_stored (hi : Inv C magic T g hist s) : g.hashHex C ∈ s.allBlocks :=
  Finmap.mem_of_lookup (hi.stored g hi.genesis_mem)

/-- **A walk that ends returns the valid chain of its start, and all of it is there.** -/
theorem chainToHash_spec (hg : g.height = 0) (hi : Inv C magic T g hist s) {b : Block}
    (hb : b ∈ hist) {bs : List Block} (h : s.chainToHash (b.hashHex C) = .ok bs) :
    ValidChain C magic T g bs ∧ bs.getLast? = some b ∧ (∀ x ∈ bs, x ∈ hist) ∧
      ∀ x ∈ bs, s.allBlocks.lookup (x.hashHex C) = some x := by
  obtain ⟨ds, hds, hlast, hsub⟩ := hi.history b hb
  have hbs := chainToHashLoop_eq hg hi.own hi.separated hds hsub hlast h
  rw [List.append_nil] at hbs
  subst hbs
  refine ⟨hds, hlast, hsub, fun x hx => ?_⟩
  rcases mem_of_chainToHashLoop h x hx with hnil | ⟨k, hk⟩
  · cases hnil
  · rwa [(hi.own k x hk).1]

/-- The walk to a block whose chain is all there. -/
theorem chainToHash_eq (hg : g.height = 0) (hi : Inv C magic T g hist s) {bs : List Block}
    (hbs : ValidChain C magic T g bs)
    (hstored : ∀ x ∈ bs, s.allBlocks.lookup (x.hashHex C) = some x) {b : Block}
    (hb : bs.getLast? = some b) : s.chainToHash (b.hashHex C) = .ok bs :=
  chainToHash_of_stored hg hbs (fun x hx => (hi.own _ x (hstored x hx)).2) hi.separated hstored hb

theorem chainToHash_tip (hg : g.height = 0) (hi : Inv C magic T g hist s) :
    s.chainToHash (s.tip.hashHex C) = .ok s.blocks :=
  hi.chainToHash_eq hg hi.active hi.stored s.getLast?_blocks

/-- The slow path of `parent_context` at the tip returns what the node keeps. -/
theorem replayContext_tip (hg : g.height = 0) (hi : Inv C magic T g hist s) :
    s.replayContext C (s.tip.hashHex C) = .ok (s.blocks, s.utxoSet, s.totalMinted) := by
  rw [replayContext, hi.chainToHash_tip hg]
  dsimp only
  rw [hi.replay_eq]

/-- **Both paths of `parent_context` agree**, at the tip and elsewhere. -/
theorem parentContext_eq (hg : g.height = 0) (hi : Inv C magic T g hist s) (hash : String) :
    s.parentContext C hash = s.replayContext C hash := by
  rw [parentContext]
  split
  · next h => rw [h, hi.replayContext_tip hg]
  · rfl

/-- The context of a block is the replay of its valid chain. -/
theorem parentContext_spec (hg : g.height = 0) (hi : Inv C magic T g hist s) {p : Block}
    (hp : p ∈ hist) {bs : List Block} {u : UtxoSet} {m : ℕ}
    (h : s.parentContext C (p.hashHex C) = .ok (bs, u, m)) :
    ValidChain C magic T g bs ∧ bs.getLast? = some p ∧
      (∀ x ∈ bs, s.allBlocks.lookup (x.hashHex C) = some x) ∧ replay C bs = .ok (u, m) := by
  rw [hi.parentContext_eq hg, replayContext] at h
  split at h
  · cases h
  next ds hwalk =>
    split at h
    · cases h
    next u' m' hrep =>
      cases h
      obtain ⟨hvalid, hlast, -, hstored⟩ := hi.chainToHash_spec hg hp hwalk
      exact ⟨hvalid, hlast, hstored, hrep⟩

/-- **A checked block extends a recorded valid chain**, and the work it is given is the work of the
extended chain. -/
theorem exists_grows (hg : g.height = 0) (hi : Inv C magic T g hist s) {now : ℕ} {b : Block}
    {w : ℕ} (h : Checked C now s b w) : ∃ bs, Grows C magic T g now s b bs w := by
  obtain ⟨p, hp, hwf, hheight⟩ := h.parent
  obtain ⟨hphash, hpmem⟩ := hi.own _ p hp
  obtain ⟨bs, u, m, hctx, hok⟩ := h.context
  rw [← hphash] at hctx
  obtain ⟨hvalid, hlast, hstored, hrep⟩ := hi.parentContext_spec hg hpmem hctx
  obtain ⟨pw, hpw, rfl, hw⟩ := h.work
  have hpweq := hi.work_eq _ p hp bs hvalid hlast fun x hx => (hi.own _ x (hstored x hx)).2
  obtain rfl : pw = workOf bs := Option.some.inj (hpw.symm.trans hpweq)
  refine ⟨bs, h, hvalid, hstored, ⟨⟨p, hlast, hwf, hheight⟩, ⟨u, m, hrep, ?_⟩, hw⟩, ?_⟩
  · rwa [← hi.magic_eq]
  · rw [workOf_append_singleton]

/-- The chain a checked block stands on was recorded. -/
theorem mem_hist_of_grows (hi : Inv C magic T g hist s) {now : ℕ} {b : Block} {bs : List Block}
    {w : ℕ} (h : Grows C magic T g now s b bs w) : ∀ x ∈ bs, x ∈ hist :=
  fun x hx => (hi.own _ x (h.stored x hx)).2

theorem hashHex_ne_of_grows (hi : Inv C magic T g hist s) {now : ℕ} {b : Block} {bs : List Block}
    {w : ℕ} (h : Grows C magic T g now s b bs w) : b.hashHex C ≠ g.hashHex C :=
  fun heq => h.checked.fresh (heq ▸ hi.genesis_stored)

/-- Together they are a valid chain. -/
theorem validChain_of_grows (hi : Inv C magic T g hist s) {now : ℕ} (hnow : now ∈ T) {b : Block}
    {bs : List Block} {w : ℕ} (h : Grows C magic T g now s b bs w) :
    ValidChain C magic T g (bs ++ [b]) :=
  .snoc h.valid hnow (hi.hashHex_ne_of_grows h) h.step

theorem mem_append_of_grows (hi : Inv C magic T g hist s) {now : ℕ} {b : Block} {bs : List Block}
    {w : ℕ} (h : Grows C magic T g now s b bs w) : ∀ x ∈ bs ++ [b], x ∈ hist ++ [b] :=
  fun x hx => (List.mem_append.mp hx).elim
    (fun hx => List.mem_append_left _ (hi.mem_hist_of_grows h x hx)) (List.mem_append_right _)

/-- Conversely, an extension of a chain that is all there passes the checks. -/
theorem checked_of_extends (hg : g.height = 0) (hi : Inv C magic T g hist s) {bs : List Block}
    (hbs : ValidChain C magic T g bs)
    (hstored : ∀ x ∈ bs, s.allBlocks.lookup (x.hashHex C) = some x) {now : ℕ} {b : Block}
    (hext : Extends C magic now bs b) (hfresh : b.hashHex C ∉ s.allBlocks) :
    Checked C now s b (workOf (bs ++ [b])) := by
  obtain ⟨p, hp, hwf, hheight⟩ := hext.parent
  obtain ⟨u, m, hrep, hok⟩ := hext.context
  have hsub : ∀ x ∈ bs, x ∈ hist := fun x hx => (hi.own _ x (hstored x hx)).2
  have hpstored := hstored p (List.mem_of_getLast? hp)
  have hwork := hext.work_lt
  rw [workOf_append_singleton]
  refine ⟨hfresh, ⟨p, by rwa [hwf.prevHash_eq], hwf, hheight⟩, ⟨bs, u, m, ?_, ?_⟩,
    ⟨workOf bs, ?_, rfl, hwork⟩⟩
  · rw [hwf.prevHash_eq, hi.parentContext_eq hg, replayContext,
      hi.chainToHash_eq hg hbs hstored hp]
    dsimp only
    rw [hrep]
  · rwa [hi.magic_eq]
  · rw [hwf.prevHash_eq]
    exact hi.work_eq _ p hpstored bs hbs hp hsub

/-! ### Every write keeps the invariant -/

/-- The history with a checked block is a history. -/
theorem history_append (hg : g.height = 0) (hi : Inv C magic T g hist s) {now : ℕ} (hnow : now ∈ T)
    {b : Block} {w : ℕ} (h : Checked C now s b w) : History C magic T g (hist ++ [b]) := by
  obtain ⟨bs, hgrows⟩ := hi.exists_grows hg h
  intro x hx
  rcases List.mem_append.mp hx with hx | hx
  · obtain ⟨ds, hds, hlast, hdsub⟩ := hi.history x hx
    exact ⟨ds, hds, hlast, fun y hy => List.mem_append_left _ (hdsub y hy)⟩
  · obtain rfl : x = b := by simpa using hx
    exact ⟨bs ++ [x], hi.validChain_of_grows hnow hgrows, by simp, hi.mem_append_of_grows hgrows⟩

theorem recordBlock (hg : g.height = 0) (hi : Inv C magic T g hist s) {now : ℕ} (hnow : now ∈ T)
    {b : Block} {w : ℕ} (h : Checked C now s b w) (hsep : Separated C (hist ++ [b])) :
    Inv C magic T g (hist ++ [b]) (s.recordBlock C b w) := by
  obtain ⟨bs, hgrows⟩ := hi.exists_grows hg h
  have hold : ∀ x ∈ hist, x ∈ hist ++ [b] := fun x hx => List.mem_append_left _ hx
  refine ⟨hi.history_append hg hnow h, hsep, hi.magic_eq, ?_, ?_, ?_, hi.active, ?_, hi.index_eq,
    hi.replay_eq⟩
  · intro k x hx
    rw [Blockchain.recordBlock, Finmap.lookup_insert_eq] at hx
    split at hx
    · next hk =>
      obtain rfl := Option.some.inj hx
      exact ⟨hk.symm, List.mem_append_right _ List.mem_cons_self⟩
    · obtain ⟨hk, hmem⟩ := hi.own k x hx
      exact ⟨hk, hold x hmem⟩
  · intro k x hx ds hds hlast hdsub
    rw [Blockchain.recordBlock, Finmap.lookup_insert_eq] at hx ⊢
    split at hx
    · next hk =>
      -- the new block: its chain is the one it was checked on
      obtain rfl := Option.some.inj hx
      have hchain := ValidChain.eq_of_getLast? hds (hi.validChain_of_grows hnow hgrows) hdsub
        (hi.mem_append_of_grows hgrows) hsep hlast (by simp)
      rw [if_pos hk, hgrows.work_eq, hchain]
    · next hk =>
      -- an old block: its chain does not run through the new one
      obtain ⟨-, hmem⟩ := hi.own k x hx
      obtain ⟨cs, hcs, hclast, hcsub⟩ := hi.history x hmem
      have hchain := ValidChain.eq_of_getLast? hds hcs hdsub (fun y hy => hold y (hcsub y hy)) hsep
        hlast hclast
      rw [if_neg hk, hchain]
      exact hi.work_eq k x hx cs hcs hclast hcsub
  · intro k
    rw [Blockchain.recordBlock, Finmap.mem_insert, Finmap.mem_insert, hi.work_keys]
  · exact fun x hx => lookup_recordBlock_of_lookup h (hi.stored x hx)

theorem withMempool (hi : Inv C magic T g hist s) (mempool : Mempool) :
    Inv C magic T g hist { s with mempool } :=
  ⟨hi.history, hi.separated, hi.magic_eq, hi.own, hi.work_eq, hi.work_keys, hi.active, hi.stored,
    hi.index_eq, hi.replay_eq⟩

theorem persistActive (hi : Inv C magic T g hist s) : Inv C magic T g hist (s.persistActive C) :=
  ⟨hi.history, hi.separated, hi.magic_eq, hi.own, hi.work_eq, hi.work_keys, hi.active, hi.stored,
    hi.index_eq, hi.replay_eq⟩

theorem withActive (hi : Inv C magic T g hist s) {bs : List Block} (hne : bs ≠ []) {u : UtxoSet}
    {m : ℕ} (hvalid : ValidChain C magic T g bs)
    (hstored : ∀ x ∈ bs, s.allBlocks.lookup (x.hashHex C) = some x)
    (hrep : replay C bs = .ok (u, m)) : Inv C magic T g hist (s.withActive C bs hne u m) :=
  ⟨hi.history, hi.separated, hi.magic_eq, hi.own, hi.work_eq, hi.work_keys, hvalid, hstored, rfl,
    hrep⟩

theorem pruneStaleOrphans (hi : Inv C magic T g hist s) :
    Inv C magic T g hist (s.pruneStaleOrphans C) := by
  rw [Blockchain.pruneStaleOrphans]
  split
  · exact hi
  refine ⟨hi.history, hi.separated, hi.magic_eq, ?_, ?_, ?_, hi.active, ?_, hi.index_eq,
    hi.replay_eq⟩
  · intro k x hx
    exact hi.own k x (Finmap.lookup_retain_eq_some.mp hx).1
  · intro k x hx ds hds hlast hdsub
    refine Finmap.lookup_retain_eq_some.mpr ⟨?_, decide_eq_true (Finmap.mem_of_lookup hx)⟩
    exact hi.work_eq k x (Finmap.lookup_retain_eq_some.mp hx).1 ds hds hlast hdsub
  · intro k
    constructor
    · intro hk
      obtain ⟨-, -, hmem⟩ := Finmap.mem_retain.mp hk
      exact of_decide_eq_true hmem
    · intro hk
      obtain ⟨x, hx, -⟩ := Finmap.mem_retain.mp hk
      obtain ⟨w, hw⟩ := Finmap.mem_iff.mp ((hi.work_keys k).mpr (Finmap.mem_of_lookup hx))
      exact Finmap.mem_retain.mpr ⟨w, hw, decide_eq_true hk⟩
  · intro x hx
    exact Finmap.lookup_retain_eq_some.mpr ⟨hi.stored x hx, active_retained hx _⟩

/-- **One call of `add_block`.** The hypothesis asks for separated blocks once the new one is known
to have a valid chain like all the others. -/
theorem addBlock (hg : g.height = 0) (hi : Inv C magic T g hist s) {now : ℕ} (hnow : now ∈ T)
    {b : Block}
    (hsep : History C magic T g (hist ++ s.recordedBy C (.addBlock now b)) →
      Separated C (hist ++ s.recordedBy C (.addBlock now b))) :
    Inv C magic T g (hist ++ s.recordedBy C (.addBlock now b)) (s.addBlock C now b).2 := by
  have hadd := addBlock_cases (C := C) now s b
  generalize (s.addBlock C now b).1 = r at hadd
  generalize (s.addBlock C now b).2 = s' at hadd ⊢
  by_cases hchecked : ∃ w, Checked C now s b w
  · obtain ⟨w₀, hc₀⟩ := hchecked
    rw [recordedBy_of_checked hc₀] at hsep ⊢
    have hsep' := hsep (hi.history_append hg hnow hc₀)
    have hrecord : ∀ w, s.checkBlock C now b = .ok (some w) →
        Inv C magic T g (hist ++ [b]) (s.recordBlock C b w) := fun w hw =>
      hi.recordBlock hg hnow (checkBlock_eq_ok_some_iff.mp hw) hsep'
    have hnew : b ∈ hist ++ [b] := List.mem_append_right _ List.mem_cons_self
    cases hadd with
    | rejected hcheck =>
      rw [checkBlock_eq_ok_some_iff.mpr hc₀] at hcheck
      cases hcheck
    | known hmem => exact absurd hmem hc₀.fresh
    | tipWorkMissing hcheck _ => exact hrecord _ hcheck
    | side hcheck _ _ => exact (hrecord _ hcheck).pruneStaleOrphans
    | walkFailed hcheck _ _ _ => exact hrecord _ hcheck
    | replayFailed hcheck _ _ _ _ => exact (hrecord _ hcheck).withMempool _
    | activated hne hcheck _ _ hwalk hrep =>
      have hir := hrecord _ hcheck
      obtain ⟨hvalid, -, -, hstored⟩ := hir.chainToHash_spec hg hnew hwalk
      exact (hir.withActive hne hvalid hstored hrep).persistActive.pruneStaleOrphans
  · have hnone : ∀ w, ¬ Checked C now s b w := not_exists.mp hchecked
    rw [recordedBy_of_not_checked hnone, List.append_nil]
    cases hadd with
    | rejected _ => exact hi
    | known _ => exact hi
    | tipWorkMissing hcheck _ => exact absurd (checkBlock_eq_ok_some_iff.mp hcheck) (hnone _)
    | side hcheck _ _ => exact absurd (checkBlock_eq_ok_some_iff.mp hcheck) (hnone _)
    | walkFailed hcheck _ _ _ => exact absurd (checkBlock_eq_ok_some_iff.mp hcheck) (hnone _)
    | replayFailed hcheck _ _ _ _ => exact absurd (checkBlock_eq_ok_some_iff.mp hcheck) (hnone _)
    | activated _ hcheck _ _ _ _ => exact absurd (checkBlock_eq_ok_some_iff.mp hcheck) (hnone _)

theorem submitTransaction (hi : Inv C magic T g hist s) (tx : Transaction) :
    Inv C magic T g hist (s.submitTransaction C tx).2 := by
  rw [Blockchain.submitTransaction]
  split
  · exact hi
  · split
    all_goals exact hi.withMempool _

/-- **A whole run.** Every part of what it records that is a history has to be separated. -/
theorem run (hg : g.height = 0) {evs : List Event} (hi : Inv C magic T g hist s)
    (hT : ∀ now b, .addBlock now b ∈ evs → now ∈ T)
    (hsep : ∀ hist', (∀ x ∈ hist', x ∈ hist ++ recorded C s evs) → History C magic T g hist' →
      Separated C hist') :
    Inv C magic T g (hist ++ recorded C s evs) (run C s evs) := by
  induction evs generalizing hist s with
  | nil =>
    rw [recorded, List.append_nil]
    exact hi
  | cons e evs ih =>
    have hstep : Inv C magic T g (hist ++ s.recordedBy C e) (s.step C e) := by
      cases e with
      | addBlock now b =>
        refine hi.addBlock hg (hT now b List.mem_cons_self) (hsep _ fun x hx => ?_)
        rw [recorded, ← List.append_assoc]
        exact List.mem_append_left _ hx
      | submitTransaction tx =>
        rw [recordedBy, List.append_nil]
        exact hi.submitTransaction tx
    have hrest := ih hstep (fun now b hb => hT now b (List.mem_cons_of_mem _ hb)) fun hist' hsub =>
      hsep hist' fun x hx => by
        rw [recorded, ← List.append_assoc]
        exact hsub x hx
    rw [recorded, ← List.append_assoc]
    exact hrest

end Inv

theorem replay_singleton (g : Block) :
    replay C [g] = .ok (applyBlock C UtxoSet.empty g, coinbaseValue g) := by
  have hadd : checkedAdd 64 0 (coinbaseValue g) = some (coinbaseValue g) := by
    rw [checkedAdd_of_lt (by simpa using coinbaseValue_lt g), Nat.zero_add]
  rw [replay, List.foldlM_cons, replayBlock, hadd]
  rfl

/-- The state a chain starts in. -/
theorem inv_fromGenesisWithMagic (store : Option BlockStore) :
    Inv C magic T g [g] (fromGenesisWithMagic C g store magic) := by
  have hown : ∀ h b, (fromGenesisWithMagic C g store magic).allBlocks.lookup h = some b →
      h = g.hashHex C ∧ b = g := by
    intro h b hb
    rw [fromGenesisWithMagic, Finmap.lookup_insert_eq] at hb
    split at hb
    · next hh => exact ⟨hh, (Option.some.inj hb).symm⟩
    · simp at hb
  refine ⟨?_, ?_, rfl, ?_, ?_, ?_, .genesis, ?_, rfl, replay_singleton g⟩
  · intro b hb
    obtain rfl : b = g := by simpa using hb
    exact ⟨[b], .genesis, rfl, fun x hx => hx⟩
  · intro b hb b' hb' _
    rw [List.mem_singleton] at hb hb'
    rw [hb, hb']
  · intro h b hb
    obtain ⟨rfl, rfl⟩ := hown h b hb
    exact ⟨rfl, List.mem_cons_self⟩
  · intro h b hb bs hbs hlast hsub
    obtain ⟨rfl, rfl⟩ := hown h b hb
    have hchain : bs = [b] := by
      cases hbs with
      | genesis => rfl
      | snoc _ _ hne _ =>
        have hlast' := hlast
        rw [ValidChain.getLast?_append_singleton] at hlast'
        exact absurd (congrArg (Block.hashHex C) (Option.some.inj hlast')) hne
    rw [fromGenesisWithMagic, Finmap.lookup_insert, hchain]
    simp [workOf]
  · intro h
    rw [fromGenesisWithMagic, Finmap.mem_insert, Finmap.mem_insert]
    exact or_congr_right ⟨fun hm => absurd hm Finmap.notMem_empty, fun hm =>
      absurd hm Finmap.notMem_empty⟩
  · intro b hb
    obtain rfl : b = g := by simpa [fromGenesisWithMagic] using hb
    rw [fromGenesisWithMagic, Finmap.lookup_insert]

/-- **Every state a run reaches satisfies the invariant**, provided the blocks it records are told
apart by their hashes. -/
theorem inv_run_of_separated (hg : g.height = 0) (store : Option BlockStore) (magic : UInt32)
    (evs : List Event)
    (hsep : Separated C (g :: recorded C (fromGenesisWithMagic C g store magic) evs)) :
    Inv C magic Set.univ g (g :: recorded C (fromGenesisWithMagic C g store magic) evs)
      (run C (fromGenesisWithMagic C g store magic) evs) :=
  (inv_fromGenesisWithMagic store).run hg (fun _ _ _ => trivial) fun _ hsub _ => hsep.mono hsub

/-- The same, provided `hash256` does not collide on the strings hashed for the blocks the run
records. -/
theorem inv_run (hg : g.height = 0) (store : Option BlockStore) (magic : UInt32) (evs : List Event)
    (hnc : NoCollision C (g :: recorded C (fromGenesisWithMagic C g store magic) evs)) :
    Inv C magic Set.univ g (g :: recorded C (fromGenesisWithMagic C g store magic) evs)
      (run C (fromGenesisWithMagic C g store magic) evs) :=
  (inv_fromGenesisWithMagic store).run hg (fun _ _ _ => trivial) fun _ hsub hh =>
    separated_of_noCollision hh (hnc.mono hsub)

end Blockchain

end Arkos
