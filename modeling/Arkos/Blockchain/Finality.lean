import Arkos.Blockchain.Branch

/-!
# Pruning and the depth of reorganisations

No check limits how far `add_block` may reorganise. The limit comes from what is left to reorganise
to: blocks off the active chain are forgotten once they lie `FINALITY_DEPTH` below the tip
(`Pruned`), so a heavier branch that is still known starts near the tip, and a single new block
deeper down has the difficulty of the block it competes with and does not outweigh it.

Pruning looks at heights and not at branches, so it also cuts branches in two. `TreeClosed` says
that this has not happened; a call that moves the tip breaks it exactly if some branch has a block
at the new cutoff and one above it (`Straddles`).

## Main definitions

* `commonHeight` — the last height two chains share
* `Pruned`, `Rooted`, `TreeClosed`, `Straddles`

## Main results

* `Blockchain.Inv.exists_fork` — a block that outweighs the tip forks off near it
* `Blockchain.bounded_reorganisation`
* `Blockchain.tree_closed_iff` — when every stored block keeps its ancestors
-/

namespace Arkos

/-- The `common_height` of `activate_chain`: the height of the last block two chains share. -/
def commonHeight (C : Crypto) (old new : List Block) : ℕ :=
  ((old.zip new).takeWhile fun p => decide (p.1.hashHex C = p.2.hashHex C)).length - 1

namespace Blockchain

variable {C : Crypto} {magic : UInt32} {T : Set ℕ} {g : Block} {hist : List Block} {s : Blockchain}

/-- What pruning is for: a stored block off the active chain is less than `FINALITY_DEPTH` below the
tip. -/
def Pruned (s : Blockchain) : Prop :=
  ∀ h x, s.allBlocks.lookup h = some x → x ∉ s.blocks → s.height < x.height + finalityDepth

/-! ### What is kept -/

/-- What a pruned table holds: active blocks, and what lies above the cutoff. -/
theorem Inv.lookup_pruneStaleOrphans (hi : Inv C magic T g hist s) {h : String} {x : Block} :
    (s.pruneStaleOrphans C).allBlocks.lookup h = some x ↔
      s.allBlocks.lookup h = some x ∧ (x ∈ s.blocks ∨ s.height < x.height + finalityDepth) := by
  by_cases hlow : s.height < finalityDepth
  · rw [Blockchain.pruneStaleOrphans, if_pos hlow]
    exact ⟨fun hx => ⟨hx, Or.inr (by omega)⟩, And.left⟩
  · rw [Blockchain.pruneStaleOrphans, if_neg hlow, Finmap.lookup_retain_eq_some]
    refine and_congr_right fun hx => ?_
    rw [Bool.or_eq_true, decide_eq_true_iff, decide_eq_true_iff, List.mem_map]
    obtain ⟨hhash, hmem⟩ := hi.own h x hx
    constructor
    · rintro (hheight | ⟨y, hy, hyh⟩)
      · exact Or.inr (by omega)
      · have hyactive := (List.mem_filter.mp hy).1
        exact Or.inl (hi.separated y (hi.mem_hist hyactive) x hmem
          (hyh.trans hhash.symm) ▸ hyactive)
    · intro hkeep
      by_cases hheight : s.height - finalityDepth < x.height
      · exact Or.inl hheight
      · refine Or.inr ⟨x, List.mem_filter.mpr ⟨hkeep.resolve_right (by omega), ?_⟩, hhash⟩
        exact decide_eq_true (Nat.not_lt.mp hheight)

theorem pruneStaleOrphans_height (s : Blockchain) : (s.pruneStaleOrphans C).height = s.height := by
  rw [height, height, pruneStaleOrphans_tip]

theorem Inv.pruned_pruneStaleOrphans (hi : Inv C magic T g hist s) :
    Pruned (s.pruneStaleOrphans C) := by
  intro h x hx hactive
  rw [pruneStaleOrphans_blocks] at hactive
  rw [pruneStaleOrphans_height]
  exact (hi.lookup_pruneStaleOrphans.mp hx).2.resolve_left hactive

/-! ### Where a heavier branch starts -/

/-- A block on top of a part of the active chain weighs no more than what the active chain has
there. -/
theorem Inv.work_le_of_sibling (hi : Inv C magic T g hist s) {now : ℕ} {b y : Block}
    {bs left : List Block} (hbs : s.blocks = bs ++ y :: left) (hne : bs ≠ [])
    (hext : Extends C magic now bs b) : workOf (bs ++ [b]) ≤ workOf s.blocks := by
  have hsplit : s.blocks = bs ++ [y] ++ left := by rw [hbs, List.append_assoc]; rfl
  have hvalid : ValidChain C magic T g (bs ++ [y]) := by
    have htake := hi.active.take (i := bs.length) (by rw [hbs]; simp)
    rwa [hsplit, List.take_append_of_le_length (by simp), List.take_of_length_le (by simp)] at htake
  obtain ⟨-, now', -, hext'⟩ := hvalid.extends_of_append hne
  have hwork := hext.blockWork_eq hext'
  rw [hsplit, workOf_append (bs ++ [y]), workOf_append_singleton, workOf_append_singleton]
  omega

/-- **A block that outweighs the tip forks off near it.** The chain it stands on shares all but the
last `FINALITY_DEPTH` blocks with the active chain. -/
theorem Inv.exists_fork (hg : g.height = 0) (hi : Inv C magic T g hist s) (hpruned : Pruned s)
    {now : ℕ} (hnow : now ∈ T) {b : Block} {bs : List Block} {w : ℕ}
    (hgrows : Grows C magic T g now s b bs w) (hsep : Separated C (hist ++ [b]))
    (hlt : workOf s.blocks < w) :
    ∃ common left right, common ≠ [] ∧ right ≠ [] ∧ s.blocks = common ++ left ∧
      bs ++ [b] = common ++ right ∧ (∀ x ∈ left, x ∉ bs ++ [b]) ∧ (∀ x ∈ right, x ∉ s.blocks) ∧
      left.length ≤ finalityDepth := by
  have hvalid := hi.validChain_of_grows hnow hgrows
  obtain ⟨common, left, right, hne, hold, hnew, hleft, hright⟩ := hi.active.fork hg hsep hvalid
    (fun x hx => List.mem_append_left _ (hi.mem_hist hx)) (hi.mem_append_of_grows hgrows)
  have hnil : right ≠ [] := by
    -- otherwise the new chain would be a part of the old one
    rintro rfl
    rw [hgrows.work_eq, hnew, hold, List.append_nil, workOf_append] at hlt
    omega
  refine ⟨common, left, right, hne, hnil, hold, hnew, hleft, hright, ?_⟩
  have hlen := hi.active.height_getLast? hg s.getLast?_blocks
  rw [hold, List.length_append] at hlen
  have hheight : s.height = s.tip.height := rfl
  cases right with
  | nil => exact absurd rfl hnil
  | cons x right =>
    have hxheight : x.height = common.length := hvalid.height_eq hg (by rw [hnew]; simp)
    have hxmem : x ∈ bs ++ [b] := hnew ▸ List.mem_append_right _ List.mem_cons_self
    rcases List.mem_append.mp hxmem with hx | hx
    · have := hpruned _ x (hgrows.stored x hx) (hright x List.mem_cons_self)
      omega
    · -- the branch is the new block alone, so it has to top the active chain
      obtain rfl := List.mem_singleton.mp hx
      have hxlen := hvalid.height_getLast? hg (ValidChain.getLast?_append_singleton _ _)
      rw [List.length_append, List.length_singleton] at hxlen
      obtain ⟨rfl, -⟩ := List.append_inj hnew (by omega)
      cases left with
      | nil => exact Nat.zero_le _
      | cons y left =>
        have hle := hi.work_le_of_sibling hold hne hgrows.step
        rw [← hgrows.work_eq] at hle
        omega

/-- Such a block is not below the cutoff itself. -/
theorem Inv.height_lt_of_grows (hg : g.height = 0) (hi : Inv C magic T g hist s)
    (hpruned : Pruned s) {now : ℕ} (hnow : now ∈ T) {b : Block} {bs : List Block} {w : ℕ}
    (hgrows : Grows C magic T g now s b bs w) (hsep : Separated C (hist ++ [b]))
    (hlt : workOf s.blocks < w) : s.height < b.height + finalityDepth := by
  obtain ⟨common, left, right, -, hnil, hold, hnew, -, -, hdepth⟩ :=
    hi.exists_fork hg hpruned hnow hgrows hsep hlt
  have hlen := hi.active.height_getLast? hg s.getLast?_blocks
  have hblen := (hi.validChain_of_grows hnow hgrows).height_getLast? hg
    (ValidChain.getLast?_append_singleton _ _)
  rw [hold, List.length_append] at hlen
  rw [hnew, List.length_append] at hblen
  have hheight : s.height = s.tip.height := rfl
  have hpos := List.length_pos_iff.mpr hnil
  omega

/-- **Every call leaves the table pruned.** -/
theorem Inv.pruned_addBlock (hg : g.height = 0) (hi : Inv C magic T g hist s) (hpruned : Pruned s)
    {now : ℕ} (hnow : now ∈ T) {b : Block}
    (hafter : Inv C magic T g (hist ++ s.recordedBy C (.addBlock now b)) (s.addBlock C now b).2) :
    Pruned (s.addBlock C now b).2 := by
  have hout := hi.outcome hg hnow hafter.separated
  generalize (s.addBlock C now b).1 = r at hout
  generalize (s.addBlock C now b).2 = s' at hout hafter ⊢
  cases hout with
  | rejected _ _ => exact hpruned
  | known _ => exact hpruned
  | side hgrows _ =>
    have hsep := Inv.separated_of_checked hgrows.checked hafter.separated
    exact (hi.recordBlock hg hnow hgrows.checked hsep).pruned_pruneStaleOrphans
  | @overflow bs w done hgrows hlt _ =>
    have hsep := Inv.separated_of_checked hgrows.checked hafter.separated
    have hnear := hi.height_lt_of_grows hg hpruned hnow hgrows hsep hlt
    intro h x hx hactive
    rw [show ({ s.recordBlock C b w with mempool := removeConfirmed C s.mempool done } :
      Blockchain).allBlocks = s.allBlocks.insert (b.hashHex C) b from rfl,
      Finmap.lookup_insert_eq] at hx
    split at hx
    · exact Option.some.inj hx ▸ hnear
    · exact hpruned h x hx hactive
  | activated hne hgrows _ hrep =>
    have hsep := Inv.separated_of_checked hgrows.checked hafter.separated
    exact (hi.withActive_of_grows hg hnow hgrows hsep hne hrep).pruned_pruneStaleOrphans

/-! ### How deep a reorganisation goes -/

/-- The last common height, from the pieces of a fork. -/
theorem commonHeight_eq (common left right : List Block)
    (hsep : Separated C (common ++ left ++ right)) (hleft : ∀ x ∈ left, x ∉ right) :
    commonHeight C (common ++ left) (common ++ right) = common.length - 1 := by
  rw [commonHeight, length_takeWhile_zip (Block.hashHex C) common fun x hx y hy heq => ?_]
  have hxmem := List.mem_of_mem_head? hx
  have hymem := List.mem_of_mem_head? hy
  have hxy := hsep x (by simp [hxmem]) y (by simp [hymem]) heq
  exact hleft x hxmem (hxy ▸ hymem)

/-- The blocks of a chain that another one lacks lie after the common part. -/
theorem length_filter_notMem_le (common left new : List Block)
    (hcommon : ∀ x ∈ common, x ∈ new) :
    ((common ++ left).filter fun x => decide (x ∉ new)).length ≤ left.length := by
  have hnil : (common.filter fun x => decide (x ∉ new)) = [] :=
    List.filter_eq_nil_iff.mpr fun x hx => by simpa using hcommon x hx
  rw [List.filter_append, hnil, List.nil_append]
  exact List.length_filter_le _ _

/-- **One call removes at most `FINALITY_DEPTH` blocks** from the active chain of a pruned state. -/
theorem Inv.removed_le (hg : g.height = 0) (hi : Inv C magic T g hist s) (hpruned : Pruned s)
    {now : ℕ} (hnow : now ∈ T) {b : Block}
    (hsep : Separated C (hist ++ s.recordedBy C (.addBlock now b))) :
    (s.blocks.filter fun x => decide (x ∉ (s.addBlock C now b).2.blocks)).length ≤ finalityDepth ∧
      s.height - commonHeight C s.blocks (s.addBlock C now b).2.blocks ≤ finalityDepth := by
  have hlen := hi.active.height_getLast? hg s.getLast?_blocks
  have hheight : s.height = s.tip.height := rfl
  rcases hi.blocks_addBlock hg hnow hsep with ⟨hsame, -⟩ | ⟨bs, w, u, m, hgrows, hlt, -, hblocks, -⟩
  · have hcommon := commonHeight_eq (C := C) s.blocks [] []
      (by simpa using hi.separated.mono fun x hx => hi.mem_hist hx) (by simp)
    rw [List.append_nil] at hcommon
    have hle := length_filter_notMem_le s.blocks [] s.blocks (fun x hx => hx)
    rw [List.append_nil] at hle
    rw [hsame, hcommon]
    exact ⟨hle.trans (Nat.zero_le _), by omega⟩
  · have hsep' := Inv.separated_of_checked hgrows.checked hsep
    obtain ⟨common, left, right, hne, -, hold, hnew, hleft, -, hdepth⟩ :=
      hi.exists_fork hg hpruned hnow hgrows hsep' hlt
    have hmem : ∀ x ∈ common ++ left ++ right, x ∈ hist ++ [b] := by
      intro x hx
      rcases List.mem_append.mp hx with hx | hx
      · exact List.mem_append_left _ (hi.mem_hist (hold ▸ hx))
      · exact hi.mem_append_of_grows hgrows x (hnew ▸ List.mem_append_right _ hx)
    have hcommon := commonHeight_eq common left right (hsep'.mono hmem) fun x hx hxr =>
      hleft x hx (hnew ▸ List.mem_append_right _ hxr)
    have hle := length_filter_notMem_le common left (bs ++ [b])
      fun x hx => hnew ▸ List.mem_append_left _ hx
    rw [hold, List.length_append] at hlen
    rw [hblocks]
    constructor
    · rw [hold]
      exact hle.trans hdepth
    · rw [hold, hnew, hcommon]
      have hpos := List.length_pos_iff.mpr hne
      omega

/-- A submitted transaction leaves the blocks alone. -/
theorem submitTransaction_frame (s : Blockchain) (tx : Transaction) :
    (s.submitTransaction C tx).2.allBlocks = s.allBlocks ∧
      (s.submitTransaction C tx).2.blocks = s.blocks ∧
      (s.submitTransaction C tx).2.height = s.height := by
  rw [submitTransaction]
  split
  · exact ⟨rfl, rfl, rfl⟩
  · split
    · exact ⟨rfl, rfl, rfl⟩
    · exact ⟨rfl, rfl, rfl⟩

/-- **Every state a run reaches is pruned.** -/
theorem pruned_run (hg : g.height = 0) (store : Option BlockStore) (magic : UInt32)
    (evs : List Event)
    (hnc : NoCollision C (g :: recorded C (fromGenesisWithMagic C g store magic) evs)) :
    Pruned (run C (fromGenesisWithMagic C g store magic) evs) := by
  refine run_induction hg store magic evs hnc ?_ ?_
    (P := fun evs => Pruned (run C (fromGenesisWithMagic C g store magic) evs))
  · intro h x hx hactive
    obtain ⟨-, hmem⟩ := (inv_fromGenesisWithMagic (T := Set.univ) store).own h x hx
    exact absurd hmem hactive
  · rintro pre e - s rfl hist rfl hi hafter hpruned
    rw [run_append]
    cases e with
    | addBlock now b => exact hi.pruned_addBlock hg hpruned trivial hafter
    | submitTransaction tx =>
      intro h x hx hactive
      obtain ⟨hall, hblocks, hheight⟩ := submitTransaction_frame (C := C) (run C _ pre) tx
      show (submitTransaction C _ tx).2.height < _
      rw [hheight]
      exact hpruned h x (hall ▸ hx) (hblocks ▸ hactive)

/-- **Reorganisations are bounded.** Whatever calls came before, one more `add_block` takes at most
`FINALITY_DEPTH` blocks off the active chain; the depth is measured as `activate_chain` does. -/
theorem bounded_reorganisation (C : Crypto) (g : Block) (hg : g.height = 0)
    (store : Option BlockStore) (magic : UInt32) (evs : List Event) (now : ℕ) (b : Block)
    (hnc : NoCollision C (g :: recorded C (fromGenesisWithMagic C g store magic)
      (evs ++ [.addBlock now b]))) :
    let s := run C (fromGenesisWithMagic C g store magic) evs
    let s' := (s.addBlock C now b).2
    (s.blocks.filter fun x => decide (x ∉ s'.blocks)).length ≤ finalityDepth ∧
      s.height - commonHeight C s.blocks s'.blocks ≤ finalityDepth := by
  have hbegins : evs <+: evs ++ [.addBlock now b] := List.prefix_append _ _
  have hnc' := noCollision_of_isPrefix hbegins hnc
  have hafter := inv_run hg store magic _ hnc
  rw [recorded_append_singleton, ← List.cons_append] at hafter
  exact (inv_run hg store magic evs hnc').removed_le hg (pruned_run hg store magic evs hnc') trivial
    hafter.separated

/-- The block that makes the rival branch the heavier one takes one block off the active chain. -/
theorem bounded_reorganisation_rivalChild :
    let s := run Crypto.sample (fromGenesisWithMagic Crypto.sample sampleGenesis none regtestMagic)
      (deliver (fun _ => sampleNow) 0 [idleBlock 0, rivalBlock])
    let s' := (s.addBlock Crypto.sample sampleNow rivalChild).2
    s.blocks ≠ s'.blocks ∧
      s.height - commonHeight Crypto.sample s.blocks s'.blocks ≤ finalityDepth := by
  have hevs : deliver (fun _ => sampleNow) 0 [idleBlock 0, rivalBlock] ++
      [.addBlock sampleNow rivalChild] =
      deliver (fun _ => sampleNow) 0 [idleBlock 0, rivalBlock, rivalChild] := rfl
  refine ⟨by decide +kernel,
    (bounded_reorganisation Crypto.sample sampleGenesis rfl none regtestMagic
    _ sampleNow rivalChild ?_).2⟩
  rw [hevs]
  exact noCollision_rivalChild

/-! ### Branches that pruning cuts -/

/-- The walk from `hash` succeeds and returns the blocks from the genesis `g` to `x`, linked and at
the heights of their positions. A child of `x` is then validated against the replay of them. -/
structure Rooted (C : Crypto) (g : Block) (s : Blockchain) (hash : String) (x : Block)
    (bs : List Block) : Prop where
  walk : s.chainToHash hash = .ok bs
  head?_eq : bs.head? = some g
  getLast?_eq : bs.getLast? = some x
  height_eq : ∀ (i : ℕ) (y : Block), bs[i]? = some y → y.height = i
  prevHash_eq : ∀ (i : ℕ) (a y : Block), bs[i]? = some a → bs[i + 1]? = some y →
    y.header.prevHash = a.hashHex C
  context_eq : s.parentContext C hash = (replay C bs).map fun um => (bs, um.1, um.2)

/-- **Every stored block leads back to the genesis.** -/
def TreeClosed (C : Crypto) (g : Block) (s : Blockchain) : Prop :=
  ∀ h x, s.allBlocks.lookup h = some x → ∃ bs, Rooted C g s h x bs

/-- The same, one block at a time: no stored block lacks its parent. -/
def ParentsStored (s : Blockchain) : Prop :=
  ∀ h x, s.allBlocks.lookup h = some x → x.height ≠ 0 → x.header.prevHash ∈ s.allBlocks

/-- A stored block `x` off the chain `bs` has a stored child. -/
def CutAt (C : Crypto) (s : Blockchain) (bs : List Block) (x : Block) : Prop :=
  s.allBlocks.lookup (x.hashHex C) = some x ∧ x ∉ bs ∧
    ∃ y, s.allBlocks.lookup (y.hashHex C) = some y ∧ y.header.prevHash = x.hashHex C ∧
      y.height = x.height + 1

/-- The call moves the tip to a height at which a branch off the new active chain has a block at the
cutoff and another one above it. -/
def Straddles (C : Crypto) (now : ℕ) (s : Blockchain) (b : Block) : Prop :=
  ∃ w current bs um x, s.checkBlock C now b = .ok (some w) ∧
    s.chainWork.lookup (s.tip.hashHex C) = some current ∧ current < w ∧
    s.chainToHash b.header.prevHash = .ok bs ∧ replay C (bs ++ [b]) = .ok um ∧
    x.height + finalityDepth = b.height ∧ CutAt C s bs x

/-- A stored block other than the genesis is one above its parent, if that is stored. -/
theorem Inv.height_of_parent (hi : Inv C magic T g hist s) (hg : g.height = 0) {h : String}
    {x p : Block} (hx : s.allBlocks.lookup h = some x) (hne : x.height ≠ 0)
    (hp : s.allBlocks.lookup x.header.prevHash = some p) : x.height = p.height + 1 := by
  obtain ⟨cs, hcs, hlast, hsub⟩ := hi.history x (hi.own h x hx).2
  cases hcs with
  | genesis =>
    obtain rfl : g = x := by simpa using hlast
    exact absurd hg hne
  | @snoc bs b now hbs _ _ hext =>
    rw [ValidChain.getLast?_append_singleton] at hlast
    obtain rfl := Option.some.inj hlast
    obtain ⟨p', hp', hwf, hheight⟩ := hext.parent
    obtain ⟨hhash, hmem⟩ := hi.own _ p hp
    have hpp := hi.separated p hmem p' (hsub p' (List.mem_append_left _ (List.mem_of_getLast? hp')))
      (hhash.trans hwf.prevHash_eq)
    rw [hpp, hheight]

/-- If no block lacks its parent, a stored block's whole chain is stored. -/
theorem Inv.stored_of_parentsStored (hi : Inv C magic T g hist s) (hps : ParentsStored s)
    {bs : List Block} (hbs : ValidChain C magic T g bs) (hsub : ∀ y ∈ bs, y ∈ hist) {x : Block}
    (hlast : bs.getLast? = some x) (hx : s.allBlocks.lookup (x.hashHex C) = some x) :
    ∀ y ∈ bs, s.allBlocks.lookup (y.hashHex C) = some y := by
  induction hbs generalizing x with
  | genesis =>
    obtain rfl : g = x := by simpa using hlast
    simpa using hx
  | @snoc bs b now hbs _ _ hext ih =>
    rw [ValidChain.getLast?_append_singleton] at hlast
    obtain rfl := Option.some.inj hlast
    obtain ⟨p, hp, hwf, hheight⟩ := hext.parent
    have hsub' : ∀ y ∈ bs, y ∈ hist := fun y hy => hsub y (List.mem_append_left _ hy)
    -- what is stored under the parent's hash is the parent
    have hpmem := hps _ b hx (by omega)
    obtain ⟨p', hp'⟩ := Finmap.mem_iff.mp hpmem
    obtain ⟨hhash, hmem⟩ := hi.own _ p' hp'
    obtain rfl := hi.separated p' hmem p (hsub' p (List.mem_of_getLast? hp))
      (hhash.trans hwf.prevHash_eq)
    rw [hwf.prevHash_eq] at hp'
    have hrest := ih hsub' hp hp'
    exact fun y hy => (List.mem_append.mp hy).elim (hrest y) fun hy => List.mem_singleton.mp hy ▸ hx

/-- **The two notions agree.** -/
theorem Inv.treeClosed_iff (hg : g.height = 0) (hi : Inv C magic T g hist s) :
    TreeClosed C g s ↔ ParentsStored s := by
  constructor
  · intro hclosed h x hx hne
    obtain ⟨bs, hrooted⟩ := hclosed h x hx
    obtain ⟨hhash, hmem⟩ := hi.own h x hx
    obtain ⟨hvalid, -, -, hstored⟩ := hi.chainToHash_spec hg hmem (hhash.symm ▸ hrooted.walk)
    obtain ⟨cs, rfl⟩ := List.getLast?_eq_some_iff.mp hrooted.getLast?_eq
    have hcs : cs ≠ [] := by
      rintro rfl
      obtain rfl : x = g := Option.some.inj hvalid.head?_eq
      exact hne hg
    obtain ⟨-, now, -, hext⟩ := hvalid.extends_of_append hcs
    obtain ⟨p, hp, hwf, -⟩ := hext.parent
    rw [hwf.prevHash_eq]
    exact Finmap.mem_of_lookup (hstored p (List.mem_append_left _ (List.mem_of_getLast? hp)))
  · intro hps h x hx
    obtain ⟨rfl, hmem⟩ := hi.own h x hx
    obtain ⟨bs, hbs, hlast, hsub⟩ := hi.history x hmem
    have hwalk := hi.chainToHash_eq hg hbs (hi.stored_of_parentsStored hps hbs hsub hlast hx) hlast
    refine ⟨bs, hwalk, hbs.head?_eq, hlast, fun _ _ hy => hbs.height_eq hg hy,
      fun _ _ _ ha hy => hbs.prevHash_eq ha hy, ?_⟩
    rw [hi.parentContext_eq hg, replayContext, hwalk]
    cases hrep : replay C bs with
    | error e =>
      dsimp only
      rw [hrep]
      rfl
    | ok um =>
      dsimp only
      rw [hrep]
      rfl

/-- The parent of an active block is active. -/
theorem Inv.parent_mem_blocks (hg : g.height = 0) (hi : Inv C magic T g hist s) {x p : Block}
    (hx : x ∈ s.blocks) (hne : x.height ≠ 0) (hp : s.allBlocks.lookup x.header.prevHash = some p) :
    p ∈ s.blocks := by
  obtain ⟨i, hget⟩ := List.mem_iff_getElem?.mp hx
  have hheight := hi.active.height_eq hg hget
  obtain ⟨j, rfl⟩ := Nat.exists_eq_succ_of_ne_zero (hheight ▸ hne)
  have hlt := (List.getElem?_eq_some_iff.mp hget).1
  have hprev : s.blocks[j]? = some s.blocks[j] := List.getElem?_eq_getElem (by omega)
  have hmem : s.blocks[j] ∈ s.blocks := List.getElem_mem _
  have hstored := hi.stored _ hmem
  rw [← hi.active.prevHash_eq hprev hget, hp] at hstored
  exact Option.some.inj hstored ▸ hmem

/-- **What pruning does to a tree.** It cuts off whatever stands on a block at the cutoff. -/
theorem Inv.parentsStored_pruneStaleOrphans_iff (hg : g.height = 0) (hi : Inv C magic T g hist s)
    (hps : ParentsStored s) : ParentsStored (s.pruneStaleOrphans C) ↔
      ∀ x, x.height + finalityDepth = s.height → ¬ CutAt C s s.blocks x := by
  constructor
  · rintro hps' x hheight ⟨hx, hactive, y, hy, hlink, hyheight⟩
    have hkept := hi.lookup_pruneStaleOrphans.mpr ⟨hy, Or.inr (by omega)⟩
    obtain ⟨x', hx'⟩ := Finmap.mem_iff.mp (hps' _ y hkept (by omega))
    rw [hlink] at hx'
    obtain ⟨hold, hkeep⟩ := hi.lookup_pruneStaleOrphans.mp hx'
    obtain rfl := Option.some.inj (hold.symm.trans hx)
    have := hkeep.resolve_left hactive
    omega
  · intro hcut h y hy hne
    obtain ⟨hold, hkeep⟩ := hi.lookup_pruneStaleOrphans.mp hy
    obtain ⟨p, hp⟩ := Finmap.mem_iff.mp (hps h y hold hne)
    have hheight := hi.height_of_parent hg hold hne hp
    by_cases hpkeep : p ∈ s.blocks ∨ s.height < p.height + finalityDepth
    · exact Finmap.mem_of_lookup (hi.lookup_pruneStaleOrphans.mpr ⟨hp, hpkeep⟩)
    · obtain ⟨hpactive, hplow⟩ := not_or.mp hpkeep
      -- the child stays for its height alone, so the parent lies at the cutoff
      have hyhigh := hkeep.resolve_left fun hyactive =>
        hpactive (hi.parent_mem_blocks hg hyactive hne hp)
      obtain ⟨hphash, -⟩ := hi.own _ p hp
      obtain ⟨rfl, -⟩ := hi.own _ y hold
      exact absurd ⟨hphash.symm ▸ hp, hpactive, y, hold, hphash.symm, hheight⟩ (hcut p (by omega))

/-- Recording a block keeps the tree closed: its parent is there. -/
theorem Inv.parentsStored_recordBlock (hps : ParentsStored s) {now : ℕ} {b : Block} {w : ℕ}
    (h : Checked C now s b w) : ParentsStored (s.recordBlock C b w) := by
  obtain ⟨p, hp, -⟩ := h.parent
  intro k x hx hne
  rw [Blockchain.recordBlock, Finmap.lookup_insert_eq] at hx
  refine Finmap.mem_insert.mpr (Or.inr ?_)
  split at hx
  · exact Option.some.inj hx ▸ Finmap.mem_of_lookup hp
  · exact hps k x hx hne

/-- A branch is cut under the new active chain exactly if it was there before the call. -/
theorem Inv.cutAt_withActive_iff (hi : Inv C magic T g hist s) {now : ℕ} {b : Block}
    {bs : List Block} {w : ℕ} (hgrows : Grows C magic T g now s b bs w)
    (hsep : Separated C (hist ++ [b])) (hne : bs ++ [b] ≠ []) {u : UtxoSet} {m : ℕ} {x : Block}
    (hheight : x.height + finalityDepth = b.height) :
    CutAt C (((s.recordBlock C b w).withActive C (bs ++ [b]) hne u m).persistActive C)
      (bs ++ [b]) x ↔ CutAt C s bs x := by
  have hxb : x ≠ b := by
    rintro rfl
    rw [finalityDepth] at hheight
    omega
  constructor
  · rintro ⟨hx, hactive, y, hy, hlink, hyheight⟩
    have hxs := (lookup_recordBlock (w := w) hx).resolve_left hxb
    have hxbs : x ∉ bs := fun hmem => hactive (List.mem_append_left _ hmem)
    rcases lookup_recordBlock (w := w) hy with rfl | hys
    · -- the new block stands on the new active chain
      obtain ⟨p, hp, hwf, -⟩ := hgrows.step.parent
      have hpmem := List.mem_of_getLast? hp
      have hxp := hi.separated x (hi.own _ x hxs).2 p (hi.mem_hist_of_grows hgrows p hpmem)
        (hlink.symm.trans hwf.prevHash_eq)
      exact absurd (hxp ▸ hpmem) hxbs
    · exact ⟨hxs, hxbs, y, hys, hlink, hyheight⟩
  · rintro ⟨hx, hxbs, y, hy, hlink, hyheight⟩
    refine ⟨lookup_recordBlock_of_lookup hgrows.checked hx, fun hmem => ?_, y,
      lookup_recordBlock_of_lookup hgrows.checked hy, hlink, hyheight⟩
    rcases List.mem_append.mp hmem with hmem | hmem
    · exact hxbs hmem
    · exact hxb (List.mem_singleton.mp hmem)

/-- What a straddling call is, in terms of the chain its block stands on. -/
theorem Inv.straddles_iff (hg : g.height = 0) (hi : Inv C magic T g hist s) {now : ℕ} {b : Block}
    {bs : List Block} {w : ℕ} (hgrows : Grows C magic T g now s b bs w) :
    Straddles C now s b ↔ workOf s.blocks < w ∧ (∃ um, replay C (bs ++ [b]) = .ok um) ∧
      ∃ x, x.height + finalityDepth = b.height ∧ CutAt C s bs x := by
  have hcheck := checkBlock_eq_ok_some_iff.mpr hgrows.checked
  have hwalk := hi.chainToHash_of_grows hg hgrows
  constructor
  · rintro ⟨w', current, bs', um, x, hcheck', hcurrent, hlt, hwalk', hrep, hx⟩
    obtain rfl := Option.some.inj (Except.ok.inj (hcheck'.symm.trans hcheck))
    obtain rfl := Option.some.inj (hcurrent.symm.trans hi.lookup_tip)
    obtain rfl := Except.ok.inj (hwalk'.symm.trans hwalk)
    exact ⟨hlt, ⟨um, hrep⟩, x, hx⟩
  · rintro ⟨hlt, ⟨um, hrep⟩, x, hx⟩
    exact ⟨w, _, bs, um, x, hcheck, hi.lookup_tip, hlt, hwalk, hrep, hx⟩

/-- **One call keeps the tree closed exactly if it does not straddle.** -/
theorem Inv.parentsStored_addBlock_iff (hg : g.height = 0) (hi : Inv C magic T g hist s)
    (hpruned : Pruned s) (hps : ParentsStored s) {now : ℕ} (hnow : now ∈ T) {b : Block}
    (hsep : Separated C (hist ++ s.recordedBy C (.addBlock now b))) :
    ParentsStored (s.addBlock C now b).2 ↔ ¬ Straddles C now s b := by
  have hout := hi.outcome hg hnow hsep
  generalize (s.addBlock C now b).1 = r at hout
  generalize (s.addBlock C now b).2 = s' at hout ⊢
  -- a block that does not pass the checks does not straddle
  have hnot : (∀ w, ¬ Checked C now s b w) → ¬ Straddles C now s b :=
    fun hnone ⟨w, _, _, _, _, hcheck, _⟩ => hnone w (checkBlock_eq_ok_some_iff.mp hcheck)
  cases hout with
  | rejected hnone _ => exact iff_of_true hps (hnot hnone)
  | known hmem => exact iff_of_true hps (hnot fun w hw => hw.fresh hmem)
  | @side bs w hgrows hle =>
    have hir := hi.recordBlock hg hnow hgrows.checked (Inv.separated_of_checked hgrows.checked hsep)
    have hno : ¬ Straddles C now s b := fun hstr => by
      have := ((hi.straddles_iff hg hgrows).mp hstr).1
      omega
    refine iff_of_true ?_ hno
    rw [hir.parentsStored_pruneStaleOrphans_iff hg
      (Inv.parentsStored_recordBlock hps hgrows.checked)]
    rintro x hheight ⟨hx, hactive, y, hy, hlink, hyheight⟩
    rcases lookup_recordBlock hx with rfl | hx
    · -- nothing stands on the new block yet
      rcases lookup_recordBlock hy with rfl | hy
      · omega
      · exact hgrows.checked.fresh (hlink ▸ hps _ y hy (by omega))
    · have hnear : s.height < _ := hpruned _ x hx hactive
      have hsame : (s.recordBlock C b w).height = s.height := rfl
      omega
  | @overflow bs w done hgrows _ hrep =>
    refine iff_of_true (Inv.parentsStored_recordBlock hps hgrows.checked) fun hstr => ?_
    obtain ⟨um, hrep'⟩ := ((hi.straddles_iff hg hgrows).mp hstr).2.1
    exact nomatch hrep.symm.trans hrep'
  | @activated bs w u m hne hgrows hlt hrep =>
    have hsep' := Inv.separated_of_checked hgrows.checked hsep
    have hia := hi.withActive_of_grows hg hnow hgrows hsep' hne hrep
    have hheight :
        (((s.recordBlock C b w).withActive C (bs ++ [b]) hne u m).persistActive C).height =
          b.height := congrArg Block.height (List.getLast_append_singleton bs)
    rw [hia.parentsStored_pruneStaleOrphans_iff hg
      (Inv.parentsStored_recordBlock hps hgrows.checked), hi.straddles_iff hg hgrows, hheight]
    constructor
    · rintro hcut ⟨-, -, x, hx, hxcut⟩
      exact hcut x hx ((hi.cutAt_withActive_iff hgrows hsep' hne hx).mpr hxcut)
    · intro hno x hx hxcut
      exact hno ⟨hlt, ⟨_, hrep⟩, x, hx, (hi.cutAt_withActive_iff hgrows hsep' hne hx).mp hxcut⟩

/-- A run without straddling calls leaves a closed tree. -/
theorem parentsStored_run (hg : g.height = 0) (store : Option BlockStore) (magic : UInt32)
    (evs : List Event)
    (hnc : NoCollision C (g :: recorded C (fromGenesisWithMagic C g store magic) evs))
    (hno : ∀ pre now b, pre ++ [.addBlock now b] <+: evs →
      ¬ Straddles C now (run C (fromGenesisWithMagic C g store magic) pre) b) :
    ParentsStored (run C (fromGenesisWithMagic C g store magic) evs) := by
  refine run_induction hg store magic evs hnc ?_ ?_
    (P := fun evs => ParentsStored (run C (fromGenesisWithMagic C g store magic) evs))
  · intro h x hx hne
    obtain ⟨-, hmem⟩ := (inv_fromGenesisWithMagic (T := Set.univ) store).own h x hx
    rw [List.mem_singleton.mp hmem] at hne
    exact absurd hg hne
  · rintro pre e hpre s rfl hist rfl hi hafter hps
    have hbegins : pre <+: evs := (List.prefix_append _ _).trans hpre
    rw [run_append]
    cases e with
    | addBlock now b =>
      exact (hi.parentsStored_addBlock_iff hg
        (pruned_run hg store magic pre (noCollision_of_isPrefix hbegins hnc)) hps trivial
        hafter.separated).mpr (hno pre now b hpre)
    | submitTransaction tx =>
      obtain ⟨hall, -, -⟩ := submitTransaction_frame (C := C) (run C _ pre) tx
      intro h x hx hne
      exact hall ▸ hps h x (hall ▸ hx) hne

/-- **When the block tree stays closed under parents.** Throughout a run every stored block leads
back to the genesis exactly if no call moves the tip to where a branch straddles the cutoff. -/
theorem tree_closed_iff (C : Crypto) (g : Block) (hg : g.height = 0) (store : Option BlockStore)
    (magic : UInt32) (evs : List Event)
    (hnc : NoCollision C (g :: recorded C (fromGenesisWithMagic C g store magic) evs)) :
    (∀ pre, pre <+: evs → TreeClosed C g (run C (fromGenesisWithMagic C g store magic) pre)) ↔
      ∀ pre now b, pre ++ [.addBlock now b] <+: evs →
        ¬ Straddles C now (run C (fromGenesisWithMagic C g store magic) pre) b := by
  have hinv : ∀ pre, pre <+: evs → _ := fun pre hpre =>
    inv_run hg store magic pre (noCollision_of_isPrefix hpre hnc)
  constructor
  · intro hclosed pre now b hpre
    have hbegins : pre <+: evs := (List.prefix_append _ _).trans hpre
    have hi := hinv pre hbegins
    have hafter := hinv _ hpre
    have hclosed' := hclosed _ hpre
    rw [hafter.treeClosed_iff hg, run_append] at hclosed'
    rw [recorded_append_singleton, ← List.cons_append] at hafter
    exact (hi.parentsStored_addBlock_iff hg
      (pruned_run hg store magic pre (noCollision_of_isPrefix hbegins hnc))
      ((hi.treeClosed_iff hg).mp (hclosed pre hbegins)) trivial hafter.separated).mp hclosed'
  · intro hno pre hpre
    exact ((hinv pre hpre).treeClosed_iff hg).mpr (parentsStored_run hg store magic pre
      (noCollision_of_isPrefix hpre hnc) fun pre' now b hpre' => hno pre' now b (hpre'.trans hpre))

/-- Below the finality depth nothing is cut: the tree is closed after a reorganisation to the branch
of `rivalBlock`. -/
theorem tree_closed_iff_rivalBlock :
    TreeClosed Crypto.sample sampleGenesis (run Crypto.sample
      (fromGenesisWithMagic Crypto.sample sampleGenesis none regtestMagic)
      (deliver (fun _ => sampleNow) 0 [idleBlock 0, rivalBlock, rivalChild])) := by
  refine (tree_closed_iff Crypto.sample sampleGenesis rfl none regtestMagic _
    noCollision_rivalChild).mpr ?_ _ List.prefix_rfl
  rintro pre now b hpre ⟨w, current, bs, um, x, -, -, -, -, -, hheight, -⟩
  have hmem := mem_of_mem_deliver (hpre.subset (List.mem_append_right _ List.mem_cons_self))
  have hlow : ∀ c ∈ [idleBlock 0, rivalBlock, rivalChild], c.height ≤ 2 := by decide +kernel
  have := hlow b hmem
  rw [finalityDepth] at hheight
  omega

/-! ### A fork held across the cutoff -/

/-- What is stored and above the cutoff after a call stays stored. -/
theorem Inv.lookup_addBlock (hg : g.height = 0) (hi : Inv C magic T g hist s) {now : ℕ}
    (hnow : now ∈ T) {b : Block} (hsep : Separated C (hist ++ s.recordedBy C (.addBlock now b)))
    {x : Block} (hx : s.allBlocks.lookup (x.hashHex C) = some x)
    (hheight : (s.addBlock C now b).2.height < x.height + finalityDepth) :
    (s.addBlock C now b).2.allBlocks.lookup (x.hashHex C) = some x := by
  have hout := hi.outcome hg hnow hsep
  generalize (s.addBlock C now b).1 = r at hout
  generalize (s.addBlock C now b).2 = s' at hout hheight ⊢
  cases hout with
  | rejected _ _ => exact hx
  | known _ => exact hx
  | side hgrows _ =>
    have hir := hi.recordBlock hg hnow hgrows.checked (Inv.separated_of_checked hgrows.checked hsep)
    rw [pruneStaleOrphans_height] at hheight
    exact hir.lookup_pruneStaleOrphans.mpr
      ⟨lookup_recordBlock_of_lookup hgrows.checked hx, Or.inr hheight⟩
  | overflow hgrows _ _ => exact lookup_recordBlock_of_lookup hgrows.checked hx
  | activated hne hgrows _ hrep =>
    have hia := hi.withActive_of_grows hg hnow hgrows
      (Inv.separated_of_checked hgrows.checked hsep) hne hrep
    rw [pruneStaleOrphans_height] at hheight
    exact hia.lookup_pruneStaleOrphans.mpr
      ⟨lookup_recordBlock_of_lookup hgrows.checked hx, Or.inr hheight⟩

/-- A block beside the first one of the idle chain. -/
def staleBlock : Block := childBlock Crypto.sample sampleGenesis [payCoinbase] (sampleTime 500)

/-- A block on top of it. The two weigh as much as the idle chain of their height. -/
def staleChild : Block := childBlock Crypto.sample staleBlock [idleCoinbase] (sampleTime 501)

/-- The idle chain up to height 2, the branch beside it, and `n` more blocks of the idle chain. -/
def staleBlocks (n : ℕ) : List Block :=
  [idleBlock 0, idleBlock 1, staleBlock, staleChild] ++
    (List.range n).map fun i => idleBlock (i + 2)

/-- The calls that hand them over. -/
def staleRun (n : ℕ) : List Event := deliver (fun _ => sampleNow) 0 (staleBlocks n)

theorem staleRun_succ (n : ℕ) :
    staleRun (n + 1) = staleRun n ++ [.addBlock sampleNow (idleBlock (n + 2))] := by
  rw [staleRun, staleRun, staleBlocks, staleBlocks, List.range_succ, List.map_append,
    ← List.append_assoc, deliver, deliver, List.zipIdx_append, List.map_append]
  rfl

/-- Every block of the run is one of the branch or of the idle chain. -/
theorem mem_staleBlocks {n : ℕ} {b : Block} (hb : b ∈ sampleGenesis :: staleBlocks n) :
    b = staleBlock ∨ b = staleChild ∨ b ∈ idleChain (n + 1) := by
  have hidle : ∀ i ≤ n + 1, idleBlock i ∈ idleChain (n + 1) := fun i hi =>
    List.mem_cons_of_mem _ (List.mem_map_of_mem (List.mem_range.mpr (by omega)))
  rw [List.mem_cons, staleBlocks, List.mem_append] at hb
  rcases hb with rfl | hb | hb
  · exact Or.inr (Or.inr List.mem_cons_self)
  · simp only [List.mem_cons, List.not_mem_nil, or_false] at hb
    rcases hb with rfl | rfl | rfl | rfl
    · exact Or.inr (Or.inr (hidle 0 (by omega)))
    · exact Or.inr (Or.inr (hidle 1 (by omega)))
    · exact Or.inl rfl
    · exact Or.inr (Or.inl rfl)
  · obtain ⟨i, hi, rfl⟩ := List.mem_map.mp hb
    have := List.mem_range.mp hi
    exact Or.inr (Or.inr (hidle (i + 2) (by omega)))

/-- The stamp of a block of the idle chain is none of the branch. -/
theorem timestamp_lt_of_mem_idleChain {n : ℕ} (hn : n < 400) {b : Block} (hb : b ∈ idleChain n) :
    b.header.timestamp.toNat < 1700000500 := by
  obtain ⟨i, hi, -, htime⟩ := timestamp_of_mem_idleChain hb
  rw [htime, toNat_sampleTime (by omega)]
  omega

theorem separated_staleBlocks {n : ℕ} (hn : n < 300) :
    Separated Crypto.sample (sampleGenesis :: staleBlocks n) := by
  have hidle : ∀ b ∈ idleChain (n + 1), ∀ b' : Block, 1700000500 ≤ b'.header.timestamp.toNat →
      b.header.timestamp ≠ b'.header.timestamp := by
    intro b hb b' hb' heq
    have hlt := timestamp_lt_of_mem_idleChain (by omega) hb
    rw [heq] at hlt
    omega
  have hstale : 1700000500 ≤ staleBlock.header.timestamp.toNat := by decide
  have hchild : 1700000500 ≤ staleChild.header.timestamp.toNat := by decide
  have hne : staleBlock.header.timestamp ≠ staleChild.header.timestamp := by decide
  intro b hb b' hb' heq
  have htime := timestamp_eq_of_hashHex heq
  rcases mem_staleBlocks hb with rfl | rfl | hb <;> rcases mem_staleBlocks hb' with rfl | rfl | hb'
  · rfl
  · exact absurd htime hne
  · exact absurd htime.symm (hidle b' hb' _ hstale)
  · exact absurd htime.symm hne
  · rfl
  · exact absurd htime.symm (hidle b' hb' _ hchild)
  · exact absurd htime (hidle b hb _ hstale)
  · exact absurd htime (hidle b hb _ hchild)
  · exact separated_idleChain (by omega) b hb b' hb' heq

theorem noCollision_staleBlocks {n : ℕ} (hn : n < 300) :
    NoCollision Crypto.sample (sampleGenesis :: recorded Crypto.sample
      (fromGenesisWithMagic Crypto.sample sampleGenesis none regtestMagic) (staleRun n)) := by
  have hstrings : SampleStrings (sampleGenesis :: staleBlocks n)
      ([genesisCoinbase, payCoinbase, idleCoinbase].map Transaction.encode) [] :=
    ⟨separated_staleBlocks hn, length_encode_idleCoinbases ▸ by decide,
      length_encode_idleCoinbases ▸ by decide, List.nodup_nil⟩
  refine noCollision_recorded_deliver (hstrings.noCollision fun b hb => Or.inl ?_)
  rcases mem_staleBlocks hb with rfl | rfl | hb
  · exact ⟨payCoinbase, by simp, rfl⟩
  · exact ⟨idleCoinbase, by simp, rfl⟩
  · exact transactions_of_mem_idleChain hb

/-- The state after `n` more blocks of the idle chain. -/
def staleState (n : ℕ) : Blockchain :=
  run Crypto.sample (fromGenesisWithMagic Crypto.sample sampleGenesis none regtestMagic)
    (staleRun n)

theorem inv_staleState {n : ℕ} (hn : n < 300) :
    Inv Crypto.sample regtestMagic Set.univ sampleGenesis (sampleGenesis :: recorded Crypto.sample
      (fromGenesisWithMagic Crypto.sample sampleGenesis none regtestMagic) (staleRun n))
      (staleState n) :=
  inv_run rfl none regtestMagic (staleRun n) (noCollision_staleBlocks hn)

/-- The next block of the idle chain extends the one before it, and is new to the run. -/
theorem grows_staleState {n : ℕ} (hn : n < 250)
    (hblocks : (staleState n).blocks = idleChain (n + 1)) :
    Grows Crypto.sample regtestMagic Set.univ sampleGenesis sampleNow (staleState n)
      (idleBlock (n + 2)) (idleChain (n + 1)) (workOf (idleChain (n + 2))) := by
  have hi := inv_staleState (n := n) (by omega)
  have hvalid := validChain_idleChain (n := n + 2) (by omega)
  rw [idleChain_succ] at hvalid
  obtain ⟨-, now, hnow, hext⟩ := hvalid.extends_of_append (List.cons_ne_nil _ _)
  obtain rfl := Set.mem_singleton_iff.mp hnow
  have hfresh : (idleBlock (n + 2)).hashHex Crypto.sample ∉ (staleState n).allBlocks := by
    intro hmem
    obtain ⟨x, hx⟩ := Finmap.mem_iff.mp hmem
    obtain ⟨hhash, hxmem⟩ := hi.own _ x hx
    -- the stamps of the blocks handed over so far are different from the new one
    have htime := congrArg UInt64.toNat (timestamp_eq_of_hashHex hhash)
    rw [timestamp_idleBlock, toNat_sampleTime (by omega)] at htime
    rcases mem_staleBlocks (mem_of_mem_cons_recorded hxmem) with rfl | rfl | hx
    · have hstamp : staleBlock.header.timestamp.toNat = 1700000500 := toNat_sampleTime (by decide)
      omega
    · have hstamp : staleChild.header.timestamp.toNat = 1700000501 := toNat_sampleTime (by decide)
      omega
    · obtain ⟨i, hi, -, hstamp⟩ := timestamp_of_mem_idleChain hx
      rw [hstamp, toNat_sampleTime (by omega)] at htime
      omega
  have hchecked := hi.checked_of_extends rfl hi.active hi.stored (hblocks ▸ hext) hfresh
  rw [hblocks, ← idleChain_succ] at hchecked
  exact ⟨hchecked, hblocks ▸ hi.active, fun x hx => hi.stored x (hblocks ▸ hx), hext,
    by rw [← idleChain_succ]⟩

/-- One more block of the idle chain: it becomes the tip, and what is above the cutoff stays. -/
theorem staleState_succ {n : ℕ} (hn : n < 250)
    (hblocks : (staleState n).blocks = idleChain (n + 1)) :
    (staleState (n + 1)).blocks = idleChain (n + 2) ∧
      ∀ x : Block, n + 3 < x.height + finalityDepth →
        (staleState n).allBlocks.lookup (x.hashHex Crypto.sample) = some x →
        (staleState (n + 1)).allBlocks.lookup (x.hashHex Crypto.sample) = some x := by
  have hi := inv_staleState (n := n) (by omega)
  have hgrows := grows_staleState (by omega) hblocks
  have hafter := inv_staleState (n := n + 1) (by omega)
  have hnext : staleState (n + 1) =
      ((staleState n).addBlock Crypto.sample sampleNow (idleBlock (n + 2))).2 := by
    rw [staleState, staleRun_succ, run_append]
    rfl
  rw [staleRun_succ, recorded_append_singleton, ← List.cons_append] at hafter
  have hblocks' : (staleState (n + 1)).blocks = idleChain (n + 2) := by
    have hrep := replay_idleChain (n + 2)
    rw [idleChain_succ, ← hblocks] at hrep
    rw [hnext, hi.addBlock_of_extends rfl trivial (hblocks ▸ hgrows.step) hgrows.checked.fresh
      (Inv.separated_of_checked hgrows.checked hafter.separated) hrep, extendTip_blocks, hblocks,
      ← idleChain_succ]
  have hheight : (staleState (n + 1)).height = n + 3 := by
    have htip : (staleState (n + 1)).tip = idleBlock (n + 2) := Option.some.inj
      ((getLast?_blocks _).symm.trans (hblocks' ▸ getLast?_idleChain (n + 2)))
    rw [height, htip, height_idleBlock]
  refine ⟨hblocks', fun x hhigh hx => ?_⟩
  rw [hnext] at hheight ⊢
  exact hi.lookup_addBlock rfl trivial hafter.separated hx (by omega)

/-- **The branch is held** for as long as the tip is not two hundred blocks
above its first block. -/
theorem staleState_spec {n : ℕ} (hn : n < 199) :
    (staleState n).blocks = idleChain (n + 1) ∧
      (staleState n).allBlocks.lookup (staleChild.hashHex Crypto.sample) = some staleChild := by
  induction n with
  | zero => decide +kernel
  | succ n ih =>
    obtain ⟨hblocks, hchild⟩ := ih (by omega)
    obtain ⟨hblocks', hkept⟩ := staleState_succ (by omega) hblocks
    have hheight : staleChild.height = 2 := rfl
    exact ⟨hblocks', hkept _ (by rw [hheight, finalityDepth]; omega) hchild⟩

/-- Further up its first block is forgotten. -/
theorem lookup_staleBlock {n : ℕ} (hn : n < 250)
    (hblocks : (staleState n).blocks = idleChain (n + 1)) (hhigh : 199 ≤ n) :
    (staleState n).allBlocks.lookup (staleBlock.hashHex Crypto.sample) = none := by
  have hi := inv_staleState (n := n) (by omega)
  rw [Finmap.lookup_eq_none]
  intro hmem
  obtain ⟨x, hx⟩ := Finmap.mem_iff.mp hmem
  obtain ⟨hhash, hxmem⟩ := hi.own _ x hx
  obtain rfl := separated_staleBlocks (n := n) (by omega) x (mem_of_mem_cons_recorded hxmem)
    staleBlock (by simp [staleBlocks]) hhash
  have hactive : staleBlock ∉ (staleState n).blocks := by
    rw [hblocks]
    intro hmem
    have hlt := timestamp_lt_of_mem_idleChain (by omega) hmem
    have hstamp : staleBlock.header.timestamp.toNat = 1700000500 := toNat_sampleTime (by decide)
    omega
  have htip : (staleState n).tip = idleBlock (n + 1) := Option.some.inj
    ((getLast?_blocks _).symm.trans (hblocks ▸ getLast?_idleChain (n + 1)))
  have hnear := pruned_run rfl none regtestMagic _ (noCollision_staleBlocks (n := n) (by omega)) _
    staleBlock hx hactive
  change (staleState n).tip.height < 1 + 200 at hnear
  rw [htip, height_idleBlock] at hnear
  omega

/-- A walk from a block whose parent is not stored ends there. -/
theorem chainToHash_of_parent_missing {h : String} {x : Block}
    (hx : s.allBlocks.lookup h = some x) (hne : x.height ≠ 0)
    (hparent : s.allBlocks.lookup x.header.prevHash = none) :
    s.chainToHash h = .error (.unknownBlock x.header.prevHash) := by
  have hcard : s.allBlocks.keys.card ≠ 0 :=
    Finset.card_ne_zero_of_mem (Finmap.mem_keys.mpr (Finmap.mem_of_lookup hx))
  obtain ⟨k, hk⟩ := Nat.exists_eq_succ_of_ne_zero hcard
  rw [chainToHash, hk, chainToHashLoop, hx]
  dsimp only
  rw [if_neg hne, chainToHashLoop, hparent]

/-- **A branch is cut in two.** Once the tip is two hundred and one blocks high, the first block of
the branch is forgotten and the second one is not, and the walk from it ends nowhere. -/
theorem tree_not_closed_staleBlock :
    NoCollision Crypto.sample (sampleGenesis :: recorded Crypto.sample
      (fromGenesisWithMagic Crypto.sample sampleGenesis none regtestMagic) (staleRun 199)) ∧
    (staleState 199).allBlocks.lookup (staleChild.hashHex Crypto.sample) = some staleChild ∧
    (staleState 199).chainToHash (staleChild.hashHex Crypto.sample) =
      .error (.unknownBlock (staleBlock.hashHex Crypto.sample)) ∧
    ¬ TreeClosed Crypto.sample sampleGenesis (staleState 199) := by
  obtain ⟨hblocks, hchild⟩ := staleState_spec (n := 198) (by decide)
  obtain ⟨hblocks', hkept⟩ := staleState_succ (by decide) hblocks
  have hstored := hkept staleChild (by decide) hchild
  have hgone := lookup_staleBlock (by decide) hblocks' (by decide)
  have hwalk := chainToHash_of_parent_missing hstored (by decide) hgone
  refine ⟨noCollision_staleBlocks (by decide), hstored, hwalk, fun hclosed => ?_⟩
  obtain ⟨bs, hrooted⟩ := hclosed _ _ hstored
  exact nomatch hwalk.symm.trans hrooted.walk

end Blockchain

end Arkos
