import Arkos.Blockchain.Replay

/-!
# Fork choice does not depend on the order of delivery

Whether a block is accepted depends on its own ancestors alone, never on the branch that happens to
be active when it arrives. A finite set of blocks therefore leads to the same table of blocks, the
same works and a tip of the same work in whatever order it is delivered, as long as parents come
before their children and nothing is pruned in between.

`Acceptable` says which blocks those are, without mentioning a node, and `ForkInv` compares a node
with it: after a part of the delivery the node has stored exactly the acceptable blocks of that
part, and no stored block outweighs its tip.

## Main definitions

* `ParentsFirst`, `Blockchain.outcomes`, `Blockchain.Delivery`
* `Acceptable`, `Blockchain.ForkInv`

## Main results

* `Blockchain.ForkInv.addBlock`, `Blockchain.ForkInv.run` — one delivered block, and all of them
* `Blockchain.order_independent`
-/

namespace Arkos

/-- No block of the list comes before its parent. -/
def ParentsFirst (C : Crypto) (l : List Block) : Prop :=
  l.Pairwise fun b later => b.header.prevHash ≠ later.hashHex C

/-- Is this the outcome of a sum that did not fit? -/
def overflows : Except ChainError Unit → Bool
  | .error e => e.isOverflow
  | .ok () => false

/-- The blocks of `l` that the hash of the genesis does not stop, and the genesis. -/
def candidates (C : Crypto) (g : Block) (l : List Block) : List Block :=
  g :: l.filter fun b => b.hashHex C ≠ g.hashHex C

/-- The block has a valid chain among the genesis and the blocks of `l`. -/
def Acceptable (C : Crypto) (magic : UInt32) (now : ℕ) (g : Block) (l : List Block) (b : Block) :
    Prop :=
  ∃ bs, ValidChain C magic {now} g bs ∧ bs.getLast? = some b ∧ ∀ x ∈ bs, x ∈ candidates C g l

variable {C : Crypto} {magic : UInt32} {now : ℕ} {g : Block} {l : List Block}

theorem mem_candidates {b : Block} :
    b ∈ candidates C g l ↔ b = g ∨ (b ∈ l ∧ b.hashHex C ≠ g.hashHex C) := by
  rw [candidates, List.mem_cons, List.mem_filter, decide_eq_true_iff]

/-- Blocks that are told apart by their hashes still are when the genesis joins them. -/
theorem separated_candidates (hsep : Separated C l) : Separated C (candidates C g l) := by
  intro b hb b' hb' heq
  rcases mem_candidates.mp hb with rfl | ⟨hbl, hne⟩ <;>
    rcases mem_candidates.mp hb' with rfl | ⟨hbl', hne'⟩
  · rfl
  · exact absurd heq.symm hne'
  · exact absurd heq hne
  · exact hsep b hbl b' hbl' heq

/-- All blocks of a valid chain are acceptable. -/
theorem acceptable_of_mem {bs : List Block} (hbs : ValidChain C magic {now} g bs)
    (hsub : ∀ x ∈ bs, x ∈ candidates C g l) {b : Block} (hb : b ∈ bs) :
    Acceptable C magic now g l b := by
  obtain ⟨i, hi, rfl⟩ := List.getElem_of_mem hb
  refine ⟨bs.take (i + 1), hbs.take hi, ?_, fun x hx => hsub x (List.mem_of_mem_take hx)⟩
  rw [List.getLast?_take, Nat.add_sub_cancel, List.getElem?_eq_getElem hi]
  simp

/-- An acceptable block other than the genesis extends a valid chain of acceptable blocks. -/
theorem Acceptable.exists_extends {b : Block} (h : Acceptable C magic now g l b) (hne : b ≠ g) :
    ∃ bs, ValidChain C magic {now} g bs ∧ (∀ x ∈ bs, x ∈ candidates C g l) ∧
      Extends C magic now bs b := by
  obtain ⟨bs, hbs, hlast, hsub⟩ := h
  cases hbs with
  | genesis => exact absurd (by simpa using hlast.symm) hne
  | @snoc cs c t hcs ht _ hext =>
    rw [ValidChain.getLast?_append_singleton] at hlast
    obtain rfl := Option.some.inj hlast
    obtain rfl := Set.mem_singleton_iff.mp ht
    exact ⟨cs, hcs, fun x hx => hsub x (List.mem_append_left _ hx), hext⟩

theorem Acceptable.mem_candidates {b : Block} (h : Acceptable C magic now g l b) :
    b ∈ candidates C g l := by
  obtain ⟨bs, -, hlast, hsub⟩ := h
  exact hsub b (List.mem_of_getLast? hlast)

/-- What is acceptable does not depend on the order of the list. -/
theorem Acceptable.mono {l' : List Block} (hsub : ∀ x ∈ l, x ∈ l') {b : Block}
    (h : Acceptable C magic now g l b) : Acceptable C magic now g l' b := by
  obtain ⟨bs, hbs, hlast, hmem⟩ := h
  refine ⟨bs, hbs, hlast, fun x hx => ?_⟩
  refine Arkos.mem_candidates.mpr
    ((Arkos.mem_candidates.mp (hmem x hx)).imp_right fun ⟨hxl, hne⟩ => ?_)
  exact ⟨hsub x hxl, hne⟩

namespace Blockchain

/-- What the calls that deliver the blocks return, block by block. -/
def outcomes (C : Crypto) (now : ℕ) :
    Blockchain → List Block → List (Block × Except ChainError Unit)
  | _, [] => []
  | s, b :: l => (b, (s.addBlock C now b).1) :: outcomes C now (s.addBlock C now b).2 l

/-- The state after the blocks were delivered, all at the same reading of the clock. -/
def delivered (C : Crypto) (now : ℕ) (s : Blockchain) (l : List Block) : Blockchain :=
  run C s (l.map (.addBlock now))

/-- A delivery with parents first in which no state reaches the finality depth and no call reports
an overflow. -/
structure Delivery (C : Crypto) (now : ℕ) (s : Blockchain) (l : List Block) : Prop where
  parentsFirst : ParentsFirst C l
  height_lt : ∀ pre, pre <+: l → (delivered C now s pre).height < finalityDepth
  no_overflow : ∀ o ∈ outcomes C now s l, overflows o.2 = false

/-- A node that was handed the part `pre` of the delivery `l` and has recorded `hist`. -/
structure ForkInv (C : Crypto) (magic : UInt32) (now : ℕ) (g : Block) (l pre hist : List Block)
    (s : Blockchain) : Prop where
  inv : Inv C magic {now} g hist s
  sub : ∀ x ∈ hist, x ∈ candidates C g l
  kept : ∀ x ∈ hist, s.allBlocks.lookup (x.hashHex C) = some x
  complete : ∀ x ∈ pre, Acceptable C magic now g l x → x ∈ hist
  heaviest : ∃ w, s.chainWork.lookup (s.tip.hashHex C) = some w ∧
    ∀ h w', s.chainWork.lookup h = some w' → w' ≤ w

namespace ForkInv

variable {pre hist : List Block} {s : Blockchain}

theorem genesis_mem (hf : ForkInv C magic now g l pre hist s) : g ∈ hist :=
  hf.inv.mem_hist hf.inv.genesis_mem

/-- Everything recorded is acceptable. -/
theorem acceptable (hf : ForkInv C magic now g l pre hist s) {b : Block} (hb : b ∈ hist) :
    Acceptable C magic now g l b := by
  obtain ⟨bs, hbs, hlast, hsub⟩ := hf.inv.history b hb
  exact ⟨bs, hbs, hlast, fun x hx => hf.sub x (hsub x hx)⟩

/-- A known hash is that of the genesis or of a recorded candidate. -/
theorem hashHex_mem_iff (hsep : Separated C (candidates C g l))
    (hf : ForkInv C magic now g l pre hist s) {b : Block} (hb : b ∈ l) :
    b.hashHex C ∈ s.allBlocks ↔ b.hashHex C = g.hashHex C ∨ b ∈ hist := by
  constructor
  · intro h
    obtain ⟨x, hx⟩ := Finmap.mem_iff.mp h
    obtain ⟨hhash, hmem⟩ := hf.inv.own _ x hx
    by_cases hne : b.hashHex C = g.hashHex C
    · exact Or.inl hne
    · rw [hsep b (mem_candidates.mpr (Or.inr ⟨hb, hne⟩)) x (hf.sub x hmem) hhash.symm]
      exact Or.inr hmem
  · rintro (h | h)
    · rw [h]
      exact hf.inv.genesis_stored
    · exact Finmap.mem_of_lookup (hf.kept b h)

/-- **Acceptable means checked**, once the parent had its turn. -/
theorem checked_of_acceptable (hg : g.height = 0) (hsep : Separated C (candidates C g l))
    (hf : ForkInv C magic now g l pre hist s) {b : Block} (hacc : Acceptable C magic now g l b)
    (hfresh : b.hashHex C ∉ s.allBlocks)
    (hparent : ∀ p ∈ l, b.header.prevHash = p.hashHex C → p ≠ b → p ∈ pre) :
    ∃ w, Checked C now s b w := by
  have hbg : b ≠ g := fun h => hfresh (h ▸ hf.inv.genesis_stored)
  obtain ⟨bs, hbs, hsub, hext⟩ := hacc.exists_extends hbg
  obtain ⟨p, hp, hwf, hheight⟩ := hext.parent
  have hpmem : p ∈ hist := by
    rcases mem_candidates.mp (hsub p (List.mem_of_getLast? hp)) with rfl | ⟨hpl, -⟩
    · exact hf.genesis_mem
    · have hpb : p ≠ b := by
        rintro rfl
        omega
      exact hf.complete p (hparent p hpl hwf.prevHash_eq hpb)
        (acceptable_of_mem hbs hsub (List.mem_of_getLast? hp))
  -- the chain the node has recorded for the parent is this one
  obtain ⟨cs, hcs, hclast, hcsub⟩ := hf.inv.history p hpmem
  obtain rfl := ValidChain.eq_of_getLast? hbs hcs hsub (fun x hx => hf.sub x (hcsub x hx)) hsep hp
    hclast
  exact ⟨_, hf.inv.checked_of_extends hg hbs (fun x hx => hf.kept x (hcsub x hx)) hext hfresh⟩

/-- Conversely, a checked block of the delivery is acceptable. -/
theorem acceptable_of_checked (hg : g.height = 0) (hf : ForkInv C magic now g l pre hist s)
    {b : Block} (hb : b ∈ l) {w : ℕ} (h : Checked C now s b w) : Acceptable C magic now g l b := by
  obtain ⟨bs, hgrows⟩ := hf.inv.exists_grows hg h
  refine ⟨bs ++ [b], hf.inv.validChain_of_grows rfl hgrows,
    ValidChain.getLast?_append_singleton _ _, fun x hx => ?_⟩
  rcases List.mem_append.mp hx with hx | hx
  · exact hf.sub x (hf.inv.mem_hist_of_grows hgrows x hx)
  · obtain rfl := List.mem_singleton.mp hx
    exact mem_candidates.mpr (Or.inr ⟨hb, hf.inv.hashHex_ne_of_grows hgrows⟩)

/-- Below the finality depth nothing is pruned. -/
theorem pruneStaleOrphans_eq {s : Blockchain} (h : (s.pruneStaleOrphans C).height < finalityDepth) :
    s.pruneStaleOrphans C = s := by
  rw [height, pruneStaleOrphans_tip] at h
  rw [Blockchain.pruneStaleOrphans, height, if_pos h]

/-- **A block is recorded.** Everything but the choice of the tip. -/
theorem recordBlock (hg : g.height = 0) (hsep : Separated C (candidates C g l))
    (hf : ForkInv C magic now g l pre hist s) {b : Block} (hb : b ∈ l) {w : ℕ}
    (h : Checked C now s b w) :
    Inv C magic {now} g (hist ++ [b]) (s.recordBlock C b w) ∧
      (∀ x ∈ hist ++ [b], x ∈ candidates C g l) ∧
      (∀ x ∈ hist ++ [b], (s.recordBlock C b w).allBlocks.lookup (x.hashHex C) = some x) ∧
      ∀ x ∈ pre ++ [b], Acceptable C magic now g l x → x ∈ hist ++ [b] := by
  have hsub : ∀ x ∈ hist ++ [b], x ∈ candidates C g l := by
    intro x hx
    rcases List.mem_append.mp hx with hx | hx
    · exact hf.sub x hx
    · obtain rfl := List.mem_singleton.mp hx
      exact (hf.acceptable_of_checked hg hb h).mem_candidates
  refine ⟨hf.inv.recordBlock hg rfl h (hsep.mono hsub), hsub, fun x hx => ?_, fun x hx hacc => ?_⟩
  · rcases List.mem_append.mp hx with hx | hx
    · exact lookup_recordBlock_of_lookup h (hf.kept x hx)
    · rw [List.mem_singleton.mp hx]
      exact Finmap.lookup_insert _
  · exact (List.mem_append.mp hx).elim
      (fun hx => List.mem_append_left _ (hf.complete x hx hacc)) (List.mem_append_right _)

/-- The works in the table after a block is recorded: its own, and none above that of the tip. -/
theorem work_recordBlock (hf : ForkInv C magic now g l pre hist s) {b : Block} {w current w' : ℕ}
    (h : Checked C now s b w) {hash : String}
    (hcurrent : (s.recordBlock C b w).chainWork.lookup (s.tip.hashHex C) = some current)
    (hw' : (s.recordBlock C b w).chainWork.lookup hash = some w') : w' = w ∨ w' ≤ current := by
  obtain ⟨wtip, hwtip, hmax⟩ := hf.heaviest
  have hold := hf.inv.stored _ s.tip_mem
  have hne : s.tip.hashHex C ≠ b.hashHex C := fun heq => h.fresh (heq ▸ Finmap.mem_of_lookup hold)
  rw [Blockchain.recordBlock, Finmap.lookup_insert_eq] at hcurrent hw'
  rw [if_neg hne, hwtip] at hcurrent
  obtain rfl := Option.some.inj hcurrent
  split at hw'
  · exact Or.inl (Option.some.inj hw').symm
  · exact Or.inr (hmax hash w' hw')

/-- **One delivered block.** It is accepted if it is acceptable (or has the hash of the genesis),
and the node goes on having stored exactly the acceptable blocks. -/
theorem addBlock (hg : g.height = 0) (hsep : Separated C (candidates C g l))
    (hf : ForkInv C magic now g l pre hist s) {b : Block} (hb : b ∈ l)
    (hparent : ∀ p ∈ l, b.header.prevHash = p.hashHex C → p ≠ b → p ∈ pre)
    (hheight : (s.addBlock C now b).2.height < finalityDepth)
    (hover : overflows (s.addBlock C now b).1 = false) :
    (∃ hist', ForkInv C magic now g l (pre ++ [b]) hist' (s.addBlock C now b).2) ∧
      ((s.addBlock C now b).1 = .ok () ↔
        b.hashHex C = g.hashHex C ∨ Acceptable C magic now g l b) := by
  -- what stays as it is when nothing is written
  have hsame : (Acceptable C magic now g l b → b ∈ hist) →
      ForkInv C magic now g l (pre ++ [b]) hist s := fun h =>
    ⟨hf.inv, hf.sub, hf.kept, fun x hx hacc => (List.mem_append.mp hx).elim
      (fun hx => hf.complete x hx hacc) fun hx => List.mem_singleton.mp hx ▸
        h (List.mem_singleton.mp hx ▸ hacc), hf.heaviest⟩
  have hsub : ∀ x ∈ hist ++ s.recordedBy C (.addBlock now b), x ∈ candidates C g l := by
    intro x hx
    rcases List.mem_append.mp hx with hx | hx
    · exact hf.sub x hx
    · by_cases hc : ∃ w, Checked C now s b w
      · obtain ⟨w, hc⟩ := hc
        rw [recordedBy_of_checked hc] at hx
        exact List.mem_singleton.mp hx ▸ (hf.acceptable_of_checked hg hb hc).mem_candidates
      · rw [recordedBy_of_not_checked (not_exists.mp hc)] at hx
        cases hx
  have hout := hf.inv.outcome hg rfl (hsep.mono hsub)
  generalize (s.addBlock C now b).1 = r at hout hover ⊢
  generalize (s.addBlock C now b).2 = s' at hout hheight ⊢
  cases hout with
  | known hmem =>
    have hcases := (hf.hashHex_mem_iff hsep hb).mp hmem
    have hok : b.hashHex C = g.hashHex C ∨ Acceptable C magic now g l b :=
      hcases.imp_right hf.acceptable
    refine ⟨⟨hist, hsame fun hacc => ?_⟩, fun _ => hok, fun _ => rfl⟩
    rcases hcases with heq | hmem
    · rcases mem_candidates.mp hacc.mem_candidates with rfl | ⟨-, hne⟩
      · exact hf.genesis_mem
      · exact absurd heq hne
    · exact hmem
  | rejected hnone hfresh =>
    have hnacc : ¬ Acceptable C magic now g l b := fun hacc => by
      obtain ⟨w, hw⟩ := hf.checked_of_acceptable hg hsep hacc hfresh hparent
      exact hnone w hw
    refine ⟨⟨hist, hsame fun hacc => absurd hacc hnacc⟩, fun h => (nomatch h), fun h => ?_⟩
    rcases h with h | h
    · exact absurd (h ▸ hf.inv.genesis_stored) hfresh
    · exact absurd h hnacc
  | side hgrows hle =>
    obtain ⟨hir, hsub, hkept, hcomplete⟩ := hf.recordBlock hg hsep hb hgrows.checked
    have htip := hir.lookup_tip
    rw [pruneStaleOrphans_eq hheight]
    refine ⟨⟨hist ++ [b], hir, hsub, hkept, hcomplete, _, htip, fun h w' hw' => ?_⟩,
      fun _ => Or.inr (hf.acceptable_of_checked hg hb hgrows.checked), fun _ => rfl⟩
    exact (hf.work_recordBlock hgrows.checked htip hw').elim (fun hw => hw ▸ hle) id
  | overflow _ _ _ => cases hover
  | @activated bs w u m hne hgrows hlt hrep =>
    obtain ⟨hir, hsub, hkept, hcomplete⟩ := hf.recordBlock hg hsep hb hgrows.checked
    have htip : (((Blockchain.recordBlock C s b w).withActive C (bs ++ [b]) hne u m).persistActive
        C).tip = b := List.getLast_append_singleton _
    have hstored : ∀ x ∈ bs ++ [b],
        (Blockchain.recordBlock C s b w).allBlocks.lookup (x.hashHex C) = some x := fun x hx =>
      hkept x (hf.inv.mem_append_of_grows hgrows x hx)
    rw [pruneStaleOrphans_eq hheight]
    refine ⟨⟨hist ++ [b], (hir.withActive hne (hf.inv.validChain_of_grows rfl hgrows) hstored
      hrep).persistActive, hsub, hkept, hcomplete, w, ?_, fun h w' hw' => ?_⟩,
      fun _ => Or.inr (hf.acceptable_of_checked hg hb hgrows.checked), fun _ => rfl⟩
    · rw [htip]
      exact Finmap.lookup_insert _
    · exact (hf.work_recordBlock hgrows.checked hir.lookup_tip hw').elim
        le_of_eq fun hle => hle.trans hlt.le

/-- **A whole delivery.** The blocks that are accepted are the acceptable ones. -/
theorem run (hg : g.height = 0) (hsep : Separated C (candidates C g l)) (hfirst : ParentsFirst C l)
    {post : List Block} (hl : l = pre ++ post) (hf : ForkInv C magic now g l pre hist s)
    (hheight : ∀ p, p <+: post → (delivered C now s p).height < finalityDepth)
    (hover : ∀ o ∈ outcomes C now s post, overflows o.2 = false) :
    (∃ hist', ForkInv C magic now g l l hist' (delivered C now s post)) ∧
      ∀ b, (b, .ok ()) ∈ outcomes C now s post ↔
        b ∈ post ∧ (b.hashHex C = g.hashHex C ∨ Acceptable C magic now g l b) := by
  induction post generalizing pre hist s with
  | nil =>
    rw [List.append_nil] at hl
    refine ⟨⟨hist, hl ▸ hf⟩, fun b => ?_⟩
    simp [outcomes]
  | cons b post ih =>
    have hb : b ∈ l := hl ▸ List.mem_append_right _ List.mem_cons_self
    have hparent : ∀ p ∈ l, b.header.prevHash = p.hashHex C → p ≠ b → p ∈ pre := by
      intro p hp hlink hne
      rw [ParentsFirst, hl, List.pairwise_append, List.pairwise_cons] at hfirst
      rw [hl, List.mem_append, List.mem_cons] at hp
      rcases hp with hp | rfl | hp
      · exact hp
      · exact absurd rfl hne
      · exact absurd hlink (hfirst.2.1.1 p hp)
    have hstep : (s.addBlock C now b).2.height < finalityDepth :=
      hheight [b] (List.cons_prefix_cons.mpr ⟨rfl, List.nil_prefix⟩)
    obtain ⟨⟨hist', hf'⟩, hok⟩ := hf.addBlock hg hsep hb hparent hstep
      (hover _ List.mem_cons_self)
    obtain ⟨hrun, hrest⟩ := ih (by rw [hl, List.append_assoc]; rfl) hf'
      (fun p hp => hheight (b :: p) (List.cons_prefix_cons.mpr ⟨rfl, hp⟩))
      fun o ho => hover o (List.mem_cons_of_mem _ ho)
    refine ⟨hrun, fun c => ?_⟩
    rw [outcomes, List.mem_cons, List.mem_cons, hrest, Prod.mk.injEq, or_and_right]
    refine or_congr_left (and_congr_right fun hcb => ?_)
    rw [hcb, ← hok]
    exact eq_comm

/-- The state a delivery starts from. -/
theorem fromGenesisWithMagic (store : Option BlockStore) :
    ForkInv C magic now g l [] [g] (fromGenesisWithMagic C g store magic) := by
  refine ⟨inv_fromGenesisWithMagic store, fun x hx => ?_, fun x hx => ?_, fun x hx => ?_,
    blockWork g.header.bits, Finmap.lookup_insert _, fun h w' hw' => ?_⟩
  · exact mem_candidates.mpr (Or.inl (List.mem_singleton.mp hx))
  · rw [List.mem_singleton.mp hx]
    exact Finmap.lookup_insert _
  · cases hx
  · rw [Blockchain.fromGenesisWithMagic, Finmap.lookup_insert_eq] at hw'
    split at hw'
    · exact (Option.some.inj hw').ge
    · simp at hw'

/-! ### Two nodes with the same blocks -/

variable {l' hist' : List Block} {s' : Blockchain}

/-- What one node has recorded, another with the same blocks has. -/
theorem mem_of_mem (hf : ForkInv C magic now g l l hist s)
    (hf' : ForkInv C magic now g l' l' hist' s')
    (hsub : ∀ x ∈ l, x ∈ l') {b : Block} (hb : b ∈ hist) : b ∈ hist' := by
  rcases mem_candidates.mp (hf.sub b hb) with rfl | ⟨hbl, -⟩
  · exact hf'.genesis_mem
  · exact hf'.complete b (hsub b hbl) ((hf.acceptable hb).mono hsub)

theorem lookup_of_lookup (hf : ForkInv C magic now g l l hist s)
    (hf' : ForkInv C magic now g l' l' hist' s') (hsub : ∀ x ∈ l, x ∈ l') {h : String} {b : Block}
    (hb : s.allBlocks.lookup h = some b) : s'.allBlocks.lookup h = some b := by
  obtain ⟨rfl, hmem⟩ := hf.inv.own h b hb
  exact hf'.kept b (hf.mem_of_mem hf' hsub hmem)

variable (hf : ForkInv C magic now g l l hist s) (hf' : ForkInv C magic now g l' l' hist' s')
  (hmem : ∀ x, x ∈ l ↔ x ∈ l')

include hf hf' hmem

theorem allBlocks_eq : s.allBlocks = s'.allBlocks := by
  refine Finmap.ext_lookup fun h => Option.ext fun b => ?_
  exact ⟨hf.lookup_of_lookup hf' fun x => (hmem x).mp,
    hf'.lookup_of_lookup hf fun x => (hmem x).mpr⟩

theorem chainWork_eq : s.chainWork = s'.chainWork := by
  refine Finmap.ext_lookup fun h => ?_
  cases hb : s.allBlocks.lookup h with
  | none =>
    have hnone : h ∉ s.allBlocks := Finmap.lookup_eq_none.mp hb
    have hnone' : h ∉ s'.allBlocks := hf.allBlocks_eq hf' hmem ▸ hnone
    rw [Finmap.lookup_eq_none.mpr (mt (hf.inv.work_keys h).mp hnone),
      Finmap.lookup_eq_none.mpr (mt (hf'.inv.work_keys h).mp hnone')]
  | some b =>
    obtain ⟨bs, hbs, hlast, hsub⟩ := hf.inv.history b (hf.inv.own h b hb).2
    rw [hf.inv.work_eq h b hb bs hbs hlast hsub,
      hf'.inv.work_eq h b (hf.lookup_of_lookup hf' (fun x => (hmem x).mp) hb) bs hbs hlast
        fun x hx => hf.mem_of_mem hf' (fun x => (hmem x).mp) (hsub x hx)]

/-- Two nodes with the same blocks and the same tip have the same active chain and all that
follows from it. -/
theorem active_eq (hsep : Separated C (candidates C g l))
    (htip : s.tip.hashHex C = s'.tip.hashHex C) :
    s.blocks = s'.blocks ∧ s.utxoSet = s'.utxoSet ∧ s.totalMinted = s'.totalMinted := by
  have hsub : ∀ x ∈ s.blocks, x ∈ candidates C g l := fun x hx => hf.sub x (hf.inv.mem_hist hx)
  have hsub' : ∀ x ∈ s'.blocks, x ∈ candidates C g l := fun x hx =>
    hf.sub x (hf'.mem_of_mem hf (fun x => (hmem x).mpr) (hf'.inv.mem_hist hx))
  have htips : s.tip = s'.tip := hsep _ (hsub _ s.tip_mem) _ (hsub' _ s'.tip_mem) htip
  have hblocks : s.blocks = s'.blocks := ValidChain.eq_of_getLast? hf.inv.active hf'.inv.active hsub
    hsub' hsep s.getLast?_blocks (htips ▸ s'.getLast?_blocks)
  have hrep := hf.inv.replay_eq
  rw [hblocks, hf'.inv.replay_eq] at hrep
  obtain ⟨hutxo, hminted⟩ := Prod.mk.inj (Except.ok.inj hrep)
  exact ⟨hblocks, hutxo.symm, hminted.symm⟩

end ForkInv

/-- **Fork choice does not depend on the order of delivery.** Two deliveries of the same blocks
accept the same blocks, end with the same tables and on tips of the same, greatest work; and on the
same chain, if only one block has that work. -/
theorem order_independent (C : Crypto) (g : Block) (hg : g.height = 0) (store : Option BlockStore)
    (magic : UInt32) (now : ℕ) (l₁ l₂ : List Block) (hperm : l₁.Perm l₂) (hsep : Separated C l₁)
    (h₁ : Delivery C now (fromGenesisWithMagic C g store magic) l₁)
    (h₂ : Delivery C now (fromGenesisWithMagic C g store magic) l₂) :
    let s₀ := fromGenesisWithMagic C g store magic
    let s₁ := delivered C now s₀ l₁
    let s₂ := delivered C now s₀ l₂
    (∀ b, (b, .ok ()) ∈ outcomes C now s₀ l₁ ↔ (b, .ok ()) ∈ outcomes C now s₀ l₂) ∧
      (∀ b, (b, .ok ()) ∈ outcomes C now s₀ l₁ → b.hashHex C ∈ s₁.chainWork) ∧
      s₁.allBlocks = s₂.allBlocks ∧ s₁.chainWork = s₂.chainWork ∧
      ∃ w, s₁.chainWork.lookup (s₁.tip.hashHex C) = some w ∧
        s₂.chainWork.lookup (s₂.tip.hashHex C) = some w ∧
        (∀ h w', s₁.chainWork.lookup h = some w' → w' ≤ w) ∧
        ((∀ h h', s₁.chainWork.lookup h = some w → s₁.chainWork.lookup h' = some w → h = h') →
          s₁.blocks = s₂.blocks ∧ s₁.utxoSet = s₂.utxoSet ∧ s₁.totalMinted = s₂.totalMinted) := by
  have hmem : ∀ x, x ∈ l₁ ↔ x ∈ l₂ := fun x => hperm.mem_iff
  have hsep₁ : Separated C (candidates C g l₁) := separated_candidates hsep
  have hsep₂ : Separated C (candidates C g l₂) :=
    separated_candidates (hsep.mono fun b hb => (hmem b).mpr hb)
  obtain ⟨⟨hist₁, hf₁⟩, hok₁⟩ := (ForkInv.fromGenesisWithMagic store).run hg hsep₁ h₁.parentsFirst
    (List.nil_append _).symm h₁.height_lt h₁.no_overflow
  obtain ⟨⟨hist₂, hf₂⟩, hok₂⟩ := (ForkInv.fromGenesisWithMagic store).run hg hsep₂ h₂.parentsFirst
    (List.nil_append _).symm h₂.height_lt h₂.no_overflow
  have hwork := hf₁.chainWork_eq hf₂ hmem
  obtain ⟨w₁, hw₁, hmax₁⟩ := hf₁.heaviest
  obtain ⟨w₂, hw₂, hmax₂⟩ := hf₂.heaviest
  have hw : w₁ = w₂ :=
    le_antisymm (hmax₂ _ w₁ (hwork ▸ hw₁)) (hmax₁ _ w₂ (hwork ▸ hw₂))
  refine ⟨fun b => ?_, fun b hb => ?_, hf₁.allBlocks_eq hf₂ hmem, hwork, w₁, hw₁, hw ▸ hw₂, hmax₁,
    fun huniq => ?_⟩
  · rw [hok₁, hok₂, hmem]
    exact and_congr_right fun _ => or_congr_right
      ⟨.mono fun x => (hmem x).mp, .mono fun x => (hmem x).mpr⟩
  · obtain ⟨hbl, hcases⟩ := (hok₁ b).mp hb
    exact (hf₁.inv.work_keys _).mpr
      ((hf₁.hashHex_mem_iff hsep₁ hbl).mpr (hcases.imp_right (hf₁.complete b hbl)))
  · refine hf₁.active_eq hf₂ hmem hsep₁ (huniq _ _ hw₁ ?_)
    rw [hwork, hw]
    exact hw₂

/-- Two branches from the genesis, delivered in two orders. -/
theorem order_independent_rivalBlock :
    (delivered Crypto.sample sampleNow
        (fromGenesisWithMagic Crypto.sample sampleGenesis none regtestMagic)
        [idleBlock 0, rivalBlock]).chainWork =
      (delivered Crypto.sample sampleNow
        (fromGenesisWithMagic Crypto.sample sampleGenesis none regtestMagic)
        [rivalBlock, idleBlock 0]).chainWork := by
  have hperm : [idleBlock 0, rivalBlock].Perm [rivalBlock, idleBlock 0] :=
    List.Perm.swap _ _ []
  have hsep : Separated Crypto.sample [idleBlock 0, rivalBlock] := by
    rw [Separated]
    decide +kernel
  have hdelivery : ∀ l ∈ [[idleBlock 0, rivalBlock], [rivalBlock, idleBlock 0]],
      Delivery Crypto.sample sampleNow
        (fromGenesisWithMagic Crypto.sample sampleGenesis none regtestMagic) l := by
    have hfirst : ∀ l ∈ [[idleBlock 0, rivalBlock], [rivalBlock, idleBlock 0]],
        l.Pairwise fun b later => b.header.prevHash ≠ later.hashHex Crypto.sample := by
      decide +kernel
    have hheight : ∀ l ∈ [[idleBlock 0, rivalBlock], [rivalBlock, idleBlock 0]],
        ∀ pre ∈ l.inits, (delivered Crypto.sample sampleNow
          (fromGenesisWithMagic Crypto.sample sampleGenesis none regtestMagic) pre).height <
            finalityDepth := by
      decide +kernel
    have hover : ∀ l ∈ [[idleBlock 0, rivalBlock], [rivalBlock, idleBlock 0]],
        ∀ o ∈ outcomes Crypto.sample sampleNow
          (fromGenesisWithMagic Crypto.sample sampleGenesis none regtestMagic) l,
            overflows o.2 = false := by
      decide +kernel
    exact fun l hl => ⟨hfirst l hl,
      fun pre hpre => hheight l hl pre ((List.mem_inits _ _).mpr hpre), hover l hl⟩
  exact (order_independent Crypto.sample sampleGenesis rfl none regtestMagic sampleNow _ _ hperm
    hsep (hdelivery _ List.mem_cons_self)
    (hdelivery _ (List.mem_cons_of_mem _ List.mem_cons_self))).2.2.2.1

end Blockchain

end Arkos
