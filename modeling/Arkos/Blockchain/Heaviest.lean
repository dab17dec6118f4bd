import Arkos.Blockchain.Finality

/-!
# The tip is the heaviest block

`add_block` compares the work of one new block with that of the tip and looks at no other block. So
that the active chain is the heaviest chain a node knows is a fact about whole runs, branches,
reorganisations and prunings included, and it has one exception. A block that outweighs the tip and
whose chain cannot be replayed, because its coinbases pay more than a word holds, is refused after
it was recorded; it stays in the tables with the work it has.

The comparison is strict, so among blocks of the same work the one that came first keeps the tip.

## Main definitions

* `Blockchain.Unpayable` — the exception
* `Blockchain.Heaviest`

## Main results

* `Blockchain.Inv.heaviest_addBlock` — one call keeps it
* `Blockchain.tip_heaviest`
-/

namespace Arkos

namespace Blockchain

variable {C : Crypto} {magic : UInt32} {T : Set ℕ} {g : Block} {hist : List Block} {s : Blockchain}

/-- The coinbases of the chain of recorded blocks that ends in `b` pay more than a word holds. -/
def Unpayable (C : Crypto) (magic : UInt32) (T : Set ℕ) (g : Block) (hist : List Block)
    (b : Block) : Prop :=
  ∃ bs, ValidChain C magic T g bs ∧ bs.getLast? = some b ∧ (∀ x ∈ bs, x ∈ hist) ∧
    replay C bs = .error .totalMintedOverflow

theorem Unpayable.mono {hist' : List Block} (hsub : ∀ x ∈ hist, x ∈ hist') {b : Block}
    (h : Unpayable C magic T g hist b) : Unpayable C magic T g hist' b := by
  obtain ⟨bs, hbs, hlast, hmem, hrep⟩ := h
  exact ⟨bs, hbs, hlast, fun x hx => hsub x (hmem x hx), hrep⟩

/-- No stored block outweighs the active chain, unless its own chain cannot be replayed. -/
def Heaviest (C : Crypto) (magic : UInt32) (T : Set ℕ) (g : Block) (hist : List Block)
    (s : Blockchain) : Prop :=
  ∀ h b w, s.allBlocks.lookup h = some b → s.chainWork.lookup h = some w →
    w ≤ workOf s.blocks ∨ Unpayable C magic T g hist b

/-- What the tables hold once a block is recorded: that block, or what they held. -/
theorem lookups_recordBlock {b x : Block} {w w' : ℕ} {h : String}
    (hx : (s.recordBlock C b w).allBlocks.lookup h = some x)
    (hw' : (s.recordBlock C b w).chainWork.lookup h = some w') :
    x = b ∧ w' = w ∨ s.allBlocks.lookup h = some x ∧ s.chainWork.lookup h = some w' := by
  rw [recordBlock, Finmap.lookup_insert_eq] at hx hw'
  split at hx
  · next heq =>
    rw [if_pos heq] at hw'
    exact Or.inl ⟨(Option.some.inj hx).symm, (Option.some.inj hw').symm⟩
  · next hne =>
    rw [if_neg hne] at hw'
    exact Or.inr ⟨hx, hw'⟩

/-- Pruning drops entries of both tables and adds none. -/
theorem lookups_pruneStaleOrphans {x : Block} {w : ℕ} {h : String}
    (hx : (s.pruneStaleOrphans C).allBlocks.lookup h = some x)
    (hw : (s.pruneStaleOrphans C).chainWork.lookup h = some w) :
    s.allBlocks.lookup h = some x ∧ s.chainWork.lookup h = some w := by
  rw [pruneStaleOrphans] at hx hw
  split at hx
  · next hlow =>
    rw [if_pos hlow] at hw
    exact ⟨hx, hw⟩
  · next hhigh =>
    rw [if_neg hhigh] at hw
    exact ⟨(Finmap.lookup_retain_eq_some.mp hx).1, (Finmap.lookup_retain_eq_some.mp hw).1⟩

namespace Inv

/-- A block of the active chain is payable. -/
theorem not_unpayable (hi : Inv C magic T g hist s) {hist' : List Block}
    (hsub : ∀ x ∈ s.blocks, x ∈ hist') (hsep : Separated C hist') :
    ¬ Unpayable C magic T g hist' s.tip := by
  rintro ⟨bs, hbs, hlast, hmem, hrep⟩
  obtain rfl := hbs.eq_of_getLast? hi.active hmem hsub hsep hlast s.getLast?_blocks
  exact nomatch hrep.symm.trans hi.replay_eq

/-- **One call of `add_block`** keeps the tip on top: a block that outweighs it becomes the tip, or
it is unpayable. -/
theorem heaviest_addBlock (hg : g.height = 0) (hi : Inv C magic T g hist s)
    (hmax : Heaviest C magic T g hist s) {now : ℕ} (hnow : now ∈ T) {b : Block}
    (hsep : Separated C (hist ++ s.recordedBy C (.addBlock now b))) :
    Heaviest C magic T g (hist ++ s.recordedBy C (.addBlock now b)) (s.addBlock C now b).2 := by
  have hout := hi.outcome hg hnow hsep
  generalize (s.addBlock C now b).1 = r at hout
  generalize (s.addBlock C now b).2 = s' at hout ⊢
  have hold : ∀ x, Unpayable C magic T g hist x →
      Unpayable C magic T g (hist ++ s.recordedBy C (.addBlock now b)) x := fun x =>
    .mono fun _ => List.mem_append_left _
  cases hout with
  | rejected _ _ => exact fun h x w hx hw => (hmax h x w hx hw).imp_right (hold x)
  | known _ => exact fun h x w hx hw => (hmax h x w hx hw).imp_right (hold x)
  | side _ hle =>
    intro h x w hx hw
    rw [pruneStaleOrphans_blocks]
    obtain ⟨hx, hw⟩ := lookups_pruneStaleOrphans hx hw
    rcases lookups_recordBlock hx hw with ⟨-, rfl⟩ | ⟨hx, hw⟩
    · exact Or.inl hle
    · exact (hmax h x w hx hw).imp_right (hold x)
  | @overflow bs wnew _ hgrows _ hrep =>
    intro h x w hx hw
    rcases lookups_recordBlock (w := wnew) hx hw with ⟨rfl, -⟩ | ⟨hx, hw⟩
    · refine Or.inr ⟨bs ++ [x], hi.validChain_of_grows hnow hgrows,
        ValidChain.getLast?_append_singleton bs x, ?_, hrep⟩
      rw [recordedBy_of_checked hgrows.checked]
      exact hi.mem_append_of_grows hgrows
    · exact (hmax h x w hx hw).imp_right (hold x)
  | activated hne hgrows hlt _ =>
    intro h x w hx hw
    rw [pruneStaleOrphans_blocks]
    show w ≤ workOf (_ ++ [b]) ∨ _
    obtain ⟨hx, hw⟩ := lookups_pruneStaleOrphans hx hw
    rw [← hgrows.work_eq]
    rcases lookups_recordBlock (s := s) hx hw with ⟨-, rfl⟩ | ⟨hx, hw⟩
    · exact Or.inl le_rfl
    · exact (hmax h x w hx hw).imp (fun hle => hle.trans hlt.le) (hold x)

end Inv

theorem Heaviest.submitTransaction (hmax : Heaviest C magic T g hist s) (tx : Transaction) :
    Heaviest C magic T g hist (s.submitTransaction C tx).2 := by
  rw [Blockchain.submitTransaction]
  split
  · exact hmax
  · split
    · exact hmax
    · exact hmax

/-- It holds at the start, where the genesis is all there is. -/
theorem heaviest_fromGenesisWithMagic (C : Crypto) (magic networkMagic : UInt32) (T : Set ℕ)
    (g : Block) (store : Option BlockStore) :
    Heaviest C magic T g [g] (fromGenesisWithMagic C g store networkMagic) := by
  have hi : Inv C networkMagic T g [g] (fromGenesisWithMagic C g store networkMagic) :=
    inv_fromGenesisWithMagic store
  intro h b w hb hw
  obtain ⟨hhash, hmem⟩ := hi.own h b hb
  obtain rfl := List.mem_singleton.mp hmem
  have hwork := hi.work_eq h b hb [b] .genesis rfl fun x hx => hx
  exact Or.inl (Option.some.inj (hw.symm.trans hwork)).le

/-- What one event does to the active chain: nothing, or it gets heavier. -/
theorem Inv.blocks_step (hg : g.height = 0) (hi : Inv C magic Set.univ g hist s) (e : Event)
    (hsep : Separated C (hist ++ s.recordedBy C e)) :
    (s.step C e).blocks = s.blocks ∨ workOf s.blocks < workOf (s.step C e).blocks := by
  cases e with
  | addBlock now b =>
    rcases hi.blocks_addBlock hg trivial hsep with ⟨hsame, -⟩ |
      ⟨bs, w, u, m, hgrows, hlt, -, hnew, -⟩
    · exact Or.inl hsame
    · refine Or.inr ?_
      show _ < workOf (s.addBlock C now b).2.blocks
      rwa [hnew, ← hgrows.work_eq]
  | submitTransaction tx => exact Or.inl (submitTransaction_frame s tx).2.1

/-- **The tip is the heaviest block a node knows.** After every run, a stored block that outweighs
the tip is one whose chain cannot be replayed; and between any two moments of a run the active chain
has stayed what it was or has become strictly heavier, so no tie ever moves it. -/
theorem tip_heaviest (C : Crypto) (g : Block) (hg : g.height = 0) (store : Option BlockStore)
    (magic : UInt32) (evs : List Event)
    (hnc : NoCollision C (g :: recorded C (fromGenesisWithMagic C g store magic) evs)) :
    let start := fromGenesisWithMagic C g store magic
    let s := run C start evs
    (∃ current, s.chainWork.lookup (s.tip.hashHex C) = some current ∧
      ∀ h b w, s.allBlocks.lookup h = some b → s.chainWork.lookup h = some w →
        w ≤ current ∨ Unpayable C magic Set.univ g (g :: recorded C start evs) b) ∧
    ∀ pre, pre <+: evs → (run C start pre).blocks = s.blocks ∨
      workOf (run C start pre).blocks < workOf s.blocks := by
  refine ⟨⟨_, (inv_run hg store magic evs hnc).lookup_tip, ?_⟩, ?_⟩
  · refine run_induction hg store magic evs hnc (P := fun evs => Heaviest C magic Set.univ g
      (g :: recorded C (fromGenesisWithMagic C g store magic) evs)
      (run C (fromGenesisWithMagic C g store magic) evs)) ?_ ?_
    · exact heaviest_fromGenesisWithMagic C magic magic Set.univ g store
    · rintro pre e - s rfl hist rfl hi hafter hmax
      rw [run_append, recorded_append_singleton, ← List.cons_append]
      cases e with
      | addBlock now b => exact hi.heaviest_addBlock hg hmax trivial hafter.separated
      | submitTransaction tx =>
        rw [recordedBy, List.append_nil]
        exact hmax.submitTransaction tx
  · refine run_induction hg store magic evs hnc (P := fun evs => ∀ pre, pre <+: evs →
      (run C (fromGenesisWithMagic C g store magic) pre).blocks =
          (run C (fromGenesisWithMagic C g store magic) evs).blocks ∨
        workOf (run C (fromGenesisWithMagic C g store magic) pre).blocks <
          workOf (run C (fromGenesisWithMagic C g store magic) evs).blocks) ?_ ?_
    · intro pre hpre
      rw [List.prefix_nil.mp hpre]
      exact Or.inl rfl
    · rintro evs e - s rfl hist rfl hi hafter ih pre hpre
      rcases List.prefix_concat_iff.mp hpre with rfl | hpre
      · exact Or.inl rfl
      · have hstep := hi.blocks_step hg e hafter.separated
        rw [run_append]
        show _ = (step C _ e).blocks ∨ _ < workOf (step C _ e).blocks
        rcases ih pre hpre with hsame | hlt
        · rcases hstep with hkeep | hgrow
          · exact Or.inl (hsame.trans hkeep.symm)
          · exact Or.inr (hsame ▸ hgrow)
        · rcases hstep with hkeep | hgrow
          · exact Or.inr (hkeep ▸ hlt)
          · exact Or.inr (hlt.trans hgrow)

/-- The tip after a reorganisation to a heavier branch. -/
theorem tip_heaviest_rivalChild :
    let start := fromGenesisWithMagic Crypto.sample sampleGenesis none regtestMagic
    let s := run Crypto.sample start
      (deliver (fun _ => sampleNow) 0 [idleBlock 0, rivalBlock, rivalChild])
    s.tip = rivalChild ∧ workOf start.blocks < workOf s.blocks := by
  refine ⟨by decide +kernel, ?_⟩
  refine ((tip_heaviest Crypto.sample sampleGenesis rfl none regtestMagic _
    noCollision_rivalChild).2 [] List.nil_prefix).resolve_left ?_
  decide +kernel

end Blockchain

end Arkos
