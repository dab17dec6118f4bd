import Arkos.Blockchain.ForkChoice
import Arkos.Blockchain.Heaviest

/-!
# Blocks handed from one node to another

Whether a node accepts a block depends on the chain behind the block alone, on the clock, and on
what the node has stored of that chain. So a block that one node has stored is accepted by every
other node that knows its parent, as long as the clock of the second node is not behind and nothing
is lost: no sum overflows, and pruning drops no block. Two nodes that store the same blocks then
give them the same work and have equally heavy tips.

## Main definitions

* `Blockchain.Lossless` — a call that loses nothing
* `Blockchain.Grown` — a node that has lost nothing so far

## Main results

* `Blockchain.Grown.addBlock` — one call
* `Blockchain.Grown.accepts` — a stored block is accepted elsewhere
* `Blockchain.Grown.agree` — the same blocks, the same works, equally heavy tips
-/

namespace Arkos

namespace Blockchain

variable {C : Crypto} {magic : UInt32} {T : Set ℕ} {g : Block} {hist all : List Block}
  {s s' : Blockchain} {latest now : ℕ}

/-- The call reports no overflow, stores what it accepts and keeps what was stored. -/
structure Lossless (C : Crypto) (now : ℕ) (s : Blockchain) (b : Block) : Prop where
  payable : overflows (s.addBlock C now b).1 = false
  stored : (s.addBlock C now b).1 = .ok () → b.hashHex C ∈ (s.addBlock C now b).2.allBlocks
  kept : ∀ h x, s.allBlocks.lookup h = some x → (s.addBlock C now b).2.allBlocks.lookup h = some x

/-- A node that has recorded blocks of `all` at readings of the clock up to `latest`. Every stored
block has its whole chain stored with it. -/
structure Grown (C : Crypto) (magic : UInt32) (g : Block) (all : List Block) (latest : ℕ)
    (s : Blockchain) : Prop where
  exists_inv : ∃ hist, (∀ x ∈ hist, x ∈ all) ∧ Inv C magic Set.univ g hist s ∧
    Heaviest C magic Set.univ g hist s
  rooted : ∀ h b, s.allBlocks.lookup h = some b → ∃ bs, ValidChain C magic (Set.Iic latest) g bs ∧
    bs.getLast? = some b ∧ ∀ x ∈ bs, s.allBlocks.lookup (x.hashHex C) = some x

/-- Two nodes agree on the blocks and on their works, and up to ties on the tip: their tips
weigh the same, and if no other block weighs as much, their active chains and what follows from
these are the same. -/
structure Agree (C : Crypto) (s s' : Blockchain) : Prop where
  allBlocks_eq : s.allBlocks = s'.allBlocks
  chainWork_eq : s.chainWork = s'.chainWork
  tip_work_eq : ∃ w, s.chainWork.lookup (s.tip.hashHex C) = some w ∧
    s'.chainWork.lookup (s'.tip.hashHex C) = some w
  active_eq :
    (∀ h w, s.chainWork.lookup (s.tip.hashHex C) = some w → s.chainWork.lookup h = some w →
      h = s.tip.hashHex C) →
    s.blocks = s'.blocks ∧ s.utxoSet = s'.utxoSet ∧ s.totalMinted = s'.totalMinted

/-- What is stored once a block is recorded is that block or was stored before. -/
theorem lookup_of_recordBlock {b x : Block} {w : ℕ} {h : String}
    (hx : (s.recordBlock C b w).allBlocks.lookup h = some x) :
    x = b ∨ s.allBlocks.lookup h = some x := by
  rw [recordBlock, Finmap.lookup_insert_eq] at hx
  split at hx
  · exact Or.inl (Option.some.inj hx).symm
  · exact Or.inr hx

/-- Pruning stores nothing. -/
theorem lookup_of_pruneStaleOrphans {x : Block} {h : String}
    (hx : (s.pruneStaleOrphans C).allBlocks.lookup h = some x) :
    s.allBlocks.lookup h = some x := by
  rw [pruneStaleOrphans] at hx
  split at hx
  · exact hx
  · exact (Finmap.lookup_retain_eq_some.mp hx).1

/-- What is stored after a call was stored before, or is the block of the call, and that one passed
the checks. -/
theorem Inv.lookup_of_addBlock (hg : g.height = 0) (hi : Inv C magic T g hist s) (hnow : now ∈ T)
    {b x : Block} (hsep : Separated C (hist ++ s.recordedBy C (.addBlock now b))) {h : String}
    (hx : (s.addBlock C now b).2.allBlocks.lookup h = some x) :
    s.allBlocks.lookup h = some x ∨ x = b ∧ ∃ bs w, Grows C magic T g now s b bs w := by
  have hrecord : ∀ {bs : List Block} {w : ℕ}, Grows C magic T g now s b bs w →
      (s.recordBlock C b w).allBlocks.lookup h = some x →
      s.allBlocks.lookup h = some x ∨ x = b ∧ ∃ bs w, Grows C magic T g now s b bs w :=
    fun hgrows hx => (lookup_of_recordBlock hx).symm.imp_right fun heq => ⟨heq, _, _, hgrows⟩
  have hout := hi.outcome hg hnow hsep
  generalize (s.addBlock C now b).1 = r at hout
  generalize (s.addBlock C now b).2 = t at hout hx
  cases hout with
  | rejected _ _ => exact Or.inl hx
  | known _ => exact Or.inl hx
  | side hgrows _ => exact hrecord hgrows (lookup_of_pruneStaleOrphans hx)
  | overflow hgrows _ _ => exact hrecord hgrows hx
  | activated _ hgrows _ _ =>
    have hrecorded := lookup_of_pruneStaleOrphans hx
    exact hrecord hgrows hrecorded

/-- A submitted transaction changes the mempool alone. -/
theorem submitTransaction_eq (s : Blockchain) (tx : Transaction) :
    ∃ mempool, (s.submitTransaction C tx).2 = { s with mempool } := by
  rw [submitTransaction]
  split
  · exact ⟨s.mempool, rfl⟩
  · split
    all_goals exact ⟨_, rfl⟩

/-- **Below the finality depth nothing is lost**, unless a sum overflows. -/
theorem lossless_of_height_lt {b : Block} (hheight : (s.addBlock C now b).2.height < finalityDepth)
    (hover : overflows (s.addBlock C now b).1 = false) : Lossless C now s b := by
  have hadd := addBlock_cases (C := C) now s b
  generalize hr : (s.addBlock C now b).1 = r at hadd hover
  generalize ht : (s.addBlock C now b).2 = t at hadd hheight
  suffices h : (r = .ok () → b.hashHex C ∈ t.allBlocks) ∧
      ∀ h x, s.allBlocks.lookup h = some x → t.allBlocks.lookup h = some x from
    ⟨by rw [hr]; exact hover, by rw [hr, ht]; exact h.1, by rw [ht]; exact h.2⟩
  have hrecord : ∀ {w}, s.checkBlock C now b = .ok (some w) →
      b.hashHex C ∈ (s.recordBlock C b w).allBlocks ∧ ∀ h x, s.allBlocks.lookup h = some x →
        (s.recordBlock C b w).allBlocks.lookup h = some x := fun hcheck => by
    refine ⟨Finmap.mem_insert.mpr (Or.inl rfl), fun h x hx => ?_⟩
    rw [recordBlock, Finmap.lookup_insert_eq, if_neg]
    · exact hx
    · rintro rfl
      exact (checkBlock_eq_ok_some_iff.mp hcheck).fresh (Finmap.mem_of_lookup hx)
  cases hadd with
  | rejected _ => exact ⟨fun h => (by cases h), fun _ _ hx => hx⟩
  | known hmem => exact ⟨fun _ => hmem, fun _ _ hx => hx⟩
  | tipWorkMissing hcheck _ => exact ⟨fun h => (by cases h), (hrecord hcheck).2⟩
  | side hcheck _ _ =>
    rw [ForkInv.pruneStaleOrphans_eq hheight]
    exact ⟨fun _ => (hrecord hcheck).1, (hrecord hcheck).2⟩
  | walkFailed hcheck _ _ _ => exact ⟨fun h => (by cases h), (hrecord hcheck).2⟩
  | replayFailed hcheck _ _ _ _ => exact ⟨fun h => (by cases h), (hrecord hcheck).2⟩
  | activated _ hcheck _ _ _ _ =>
    rw [ForkInv.pruneStaleOrphans_eq hheight]
    exact ⟨fun _ => (hrecord hcheck).1, (hrecord hcheck).2⟩

/-- A node that was just created. -/
theorem grown_fromGenesisWithMagic (store : Option BlockStore) (hmem : g ∈ all) :
    Grown C magic g all latest (fromGenesisWithMagic C g store magic) where
  exists_inv := ⟨[g], by simpa using hmem, inv_fromGenesisWithMagic store,
    heaviest_fromGenesisWithMagic C magic magic Set.univ g store⟩
  rooted h b hb := by
    have hi : Inv C magic Set.univ g [g] (fromGenesisWithMagic C g store magic) :=
      inv_fromGenesisWithMagic store
    obtain ⟨-, hmem⟩ := hi.own h b hb
    obtain rfl := List.mem_singleton.mp hmem
    exact ⟨[b], .genesis, rfl, fun x hx => hi.stored x hx⟩

namespace Grown

variable (hg : g.height = 0) (hsep : Separated C all)

/-- Every block is stored under its own hash. -/
theorem own (hs : Grown C magic g all latest s) {h : String} {b : Block}
    (hb : s.allBlocks.lookup h = some b) : b.hashHex C = h ∧ b ∈ all := by
  obtain ⟨hist, hsub, hi, -⟩ := hs.exists_inv
  obtain ⟨hhash, hmem⟩ := hi.own h b hb
  exact ⟨hhash, hsub b hmem⟩

theorem stored_active (hs : Grown C magic g all latest s) :
    ∀ b ∈ s.blocks, s.allBlocks.lookup (b.hashHex C) = some b := by
  obtain ⟨hist, -, hi, -⟩ := hs.exists_inv
  exact hi.stored

include hsep in
/-- A recorded block that is known is the one stored. -/
theorem lookup_of_mem (hs : Grown C magic g all latest s) {b : Block} (hb : b ∈ all)
    (hmem : b.hashHex C ∈ s.allBlocks) : s.allBlocks.lookup (b.hashHex C) = some b := by
  obtain ⟨x, hx⟩ := Finmap.mem_iff.mp hmem
  obtain ⟨hhash, hxall⟩ := hs.own hx
  rwa [hsep x hxall b hb hhash] at hx

/-- The clock may go on. -/
theorem mono {latest' : ℕ} (hle : latest ≤ latest') (hs : Grown C magic g all latest s) :
    Grown C magic g all latest' s where
  exists_inv := hs.exists_inv
  rooted h b hb := by
    obtain ⟨bs, hbs, hrest⟩ := hs.rooted h b hb
    exact ⟨bs, hbs.mono (Set.Iic_subset_Iic.mpr hle), hrest⟩

theorem submitTransaction (hs : Grown C magic g all latest s) (tx : Transaction) :
    Grown C magic g all latest (s.submitTransaction C tx).2 := by
  obtain ⟨hist, hsub, hi, hmax⟩ := hs.exists_inv
  obtain ⟨mempool, heq⟩ := submitTransaction_eq (C := C) s tx
  refine ⟨⟨hist, hsub, hi.submitTransaction tx, hmax.submitTransaction tx⟩, ?_⟩
  rw [heq]
  exact hs.rooted

include hg hsep in
/-- **One call that loses nothing.** -/
theorem addBlock (hs : Grown C magic g all latest s) (hle : latest ≤ now) {b : Block}
    (hrecorded : ∀ x ∈ s.recordedBy C (.addBlock now b), x ∈ all) (hkeep : Lossless C now s b) :
    Grown C magic g all now (s.addBlock C now b).2 := by
  obtain ⟨hist, hsub, hi, hmax⟩ := hs.exists_inv
  have hsub' : ∀ x ∈ hist ++ s.recordedBy C (.addBlock now b), x ∈ all := fun x hx =>
    (List.mem_append.mp hx).elim (hsub x) (hrecorded x)
  have hsep' := hsep.mono hsub'
  refine ⟨⟨_, hsub', hi.addBlock hg trivial fun _ => hsep',
    hi.heaviest_addBlock hg hmax trivial hsep'⟩, fun h x hx => ?_⟩
  rcases hi.lookup_of_addBlock hg trivial hsep' hx with hold | ⟨rfl, ds, w, hgrows⟩
  · obtain ⟨bs, hbs, hlast, hstored⟩ := hs.rooted h x hold
    exact ⟨bs, hbs.mono (Set.Iic_subset_Iic.mpr hle), hlast, fun y hy =>
      hkeep.kept _ y (hstored y hy)⟩
  · -- the chain of its parent is stored, and it is the one the checks were made on
    obtain ⟨p, hp, -, -⟩ := hgrows.step.parent
    obtain ⟨bs, hbs, hlast, hstored⟩ :=
      hs.rooted _ p (hgrows.stored p (List.mem_of_getLast? hp))
    obtain rfl : bs = ds := (hbs.mono (Set.subset_univ _)).eq_of_getLast? hgrows.valid
      (fun y hy => (hs.own (hstored y hy)).2)
      (fun y hy => (hs.own (hgrows.stored y hy)).2) hsep hlast hp
    refine ⟨bs ++ [x], .snoc (hbs.mono (Set.Iic_subset_Iic.mpr hle)) Set.self_mem_Iic
      (hi.hashHex_ne_of_grows hgrows) hgrows.step, ValidChain.getLast?_append_singleton bs x,
      fun y hy => ?_⟩
    rcases List.mem_append.mp hy with hy | hy
    · exact hkeep.kept _ y (hstored y hy)
    · obtain rfl := List.mem_singleton.mp hy
      obtain ⟨hhash, -⟩ := (hi.addBlock hg trivial fun _ => hsep').own h y hx
      rwa [hhash]

include hg hsep in
/-- **A stored block is accepted elsewhere**, by a node that knows it or its parent and whose clock
is not behind. -/
theorem accepts {s₁ : Blockchain} (hs₁ : Grown C magic g all latest s₁) {b : Block}
    (hb : s₁.allBlocks.lookup (b.hashHex C) = some b) (hs : Grown C magic g all latest s)
    (hle : latest ≤ now) (hready : b.hashHex C ∈ s.allBlocks ∨ b.header.prevHash ∈ s.allBlocks)
    (hrecorded : ∀ x ∈ s.recordedBy C (.addBlock now b), x ∈ all) (hkeep : Lossless C now s b) :
    (s.addBlock C now b).1 = .ok () := by
  obtain ⟨hist, hsub, hi, -⟩ := hs.exists_inv
  have hsep' : Separated C (hist ++ s.recordedBy C (.addBlock now b)) :=
    hsep.mono fun x hx => (List.mem_append.mp hx).elim (hsub x) (hrecorded x)
  have hchecked : b.hashHex C ∈ s.allBlocks ∨ ∃ w, Checked C now s b w := by
    by_cases hmem : b.hashHex C ∈ s.allBlocks
    · exact Or.inl hmem
    obtain ⟨bs, hbs, hlast, hstored⟩ := hs₁.rooted _ b hb
    cases hbs with
    | genesis =>
      obtain rfl : g = b := by simpa using hlast
      exact absurd hi.genesis_stored hmem
    | @snoc cs c t hcs ht hne hext =>
      rw [ValidChain.getLast?_append_singleton] at hlast
      obtain rfl := Option.some.inj hlast
      -- the parent is stored here, so its whole chain is
      obtain ⟨p, hp, hwf, -⟩ := hext.parent
      have hpall := (hs₁.own (hstored p (List.mem_append_left _ (List.mem_of_getLast? hp)))).2
      have hpmem : p.hashHex C ∈ s.allBlocks := hwf.prevHash_eq ▸ hready.resolve_left hmem
      obtain ⟨ds, hds, hdlast, hdstored⟩ := hs.rooted _ p (hs.lookup_of_mem hsep hpall hpmem)
      obtain rfl : ds = cs := hds.eq_of_getLast? hcs (fun y hy => (hs.own (hdstored y hy)).2)
        (fun y hy => (hs₁.own (hstored y (List.mem_append_left _ hy))).2) hsep hdlast hp
      exact Or.inr ⟨_, hi.checked_of_extends hg (hds.mono (Set.subset_univ _)) hdstored
        (hext.mono ((Set.mem_Iic.mp ht).trans hle)) hmem⟩
  have hpayable := hkeep.payable
  have hout := hi.outcome hg trivial hsep'
  generalize (s.addBlock C now b).1 = r at hout hpayable ⊢
  generalize (s.addBlock C now b).2 = t at hout
  cases hout with
  | rejected hnone hfresh =>
    rcases hchecked with hmem | ⟨w, hw⟩
    · exact absurd hmem hfresh
    · exact absurd hw (hnone w)
  | known _ => rfl
  | side _ _ => rfl
  | overflow _ _ _ => cases hpayable
  | activated _ _ _ _ => rfl

/-- What a call adds was accepted, and its parent was known. -/
theorem of_mem_addBlock (hg : g.height = 0) (hsep : Separated C all)
    (hs : Grown C magic g all latest s) {b : Block}
    (hrecorded : ∀ x ∈ s.recordedBy C (.addBlock now b), x ∈ all) (hkeep : Lossless C now s b)
    {h : String} (hmem : h ∈ (s.addBlock C now b).2.allBlocks) (hnew : h ∉ s.allBlocks) :
    h = b.hashHex C ∧ b ∈ all ∧ b.header.prevHash ∈ s.allBlocks ∧
      (s.addBlock C now b).1 = .ok () := by
  obtain ⟨hist, hsub, hi, -⟩ := hs.exists_inv
  have hsep' : Separated C (hist ++ s.recordedBy C (.addBlock now b)) :=
    hsep.mono fun x hx => (List.mem_append.mp hx).elim (hsub x) (hrecorded x)
  obtain ⟨x, hx⟩ := Finmap.mem_iff.mp hmem
  rcases hi.lookup_of_addBlock hg trivial hsep' hx with hold | ⟨rfl, bs, w, hgrows⟩
  · exact absurd (Finmap.mem_of_lookup hold) hnew
  · obtain ⟨p, hp, -, -⟩ := hgrows.checked.parent
    have hall : x ∈ all := hrecorded x (by
      rw [recordedBy_of_checked hgrows.checked]
      exact List.mem_cons_self)
    refine ⟨((hi.addBlock hg trivial fun _ => hsep').own h x hx).1.symm, hall,
      Finmap.mem_of_lookup hp, ?_⟩
    have hpayable := hkeep.payable
    have hout := hi.outcome hg trivial hsep'
    generalize (s.addBlock C now x).1 = r at hout hpayable ⊢
    generalize (s.addBlock C now x).2 = t at hout
    cases hout with
    | rejected hnone _ => exact absurd hgrows.checked (hnone w)
    | known _ => rfl
    | side _ _ => rfl
    | overflow _ _ _ => cases hpayable
    | activated _ _ _ _ => rfl

/-! ### Two nodes that store the same blocks -/

include hsep in
theorem allBlocks_eq (hs : Grown C magic g all latest s) (hs' : Grown C magic g all latest s')
    (hsame : ∀ h, h ∈ s.allBlocks ↔ h ∈ s'.allBlocks) : s.allBlocks = s'.allBlocks := by
  refine Finmap.ext_lookup fun h => ?_
  cases hb : s.allBlocks.lookup h with
  | none =>
    rw [Finmap.lookup_eq_none, hsame] at hb
    exact (Finmap.lookup_eq_none.mpr hb).symm
  | some b =>
    obtain ⟨rfl, hmem⟩ := hs.own hb
    exact (hs'.lookup_of_mem hsep hmem ((hsame _).mp (Finmap.mem_of_lookup hb))).symm

/-- The work a block is given is the work of its chain, on both sides. -/
theorem lookup_chainWork (hs : Grown C magic g all latest s) (hs' : Grown C magic g all latest s')
    (heq : s.allBlocks = s'.allBlocks) {h : String} {w : ℕ} (hw : s.chainWork.lookup h = some w) :
    s'.chainWork.lookup h = some w := by
  obtain ⟨hist, -, hi, -⟩ := hs.exists_inv
  obtain ⟨hist', -, hi', -⟩ := hs'.exists_inv
  obtain ⟨b, hb⟩ := Finmap.mem_iff.mp ((hi.work_keys h).mp (Finmap.mem_of_lookup hw))
  obtain ⟨bs, hbs, hlast, hstored⟩ := hs.rooted h b hb
  have hvalid := hbs.mono (Set.subset_univ _)
  have hwork := hi.work_eq h b hb bs hvalid hlast fun x hx => (hi.own _ x (hstored x hx)).2
  rw [← hw, hwork]
  rw [heq] at hb hstored
  exact hi'.work_eq h b hb bs hvalid hlast fun x hx => (hi'.own _ x (hstored x hx)).2

/-- The tip of the one does not outweigh the tip of the other. -/
theorem work_tip_le (hs : Grown C magic g all latest s) (hs' : Grown C magic g all latest s')
    (heq : s.allBlocks = s'.allBlocks) : workOf s.blocks ≤ workOf s'.blocks := by
  have hwork := fun h w => hs.lookup_chainWork (h := h) (w := w) hs' heq
  obtain ⟨hist, -, hi, -⟩ := hs.exists_inv
  obtain ⟨hist', hsub', hi', hmax'⟩ := hs'.exists_inv
  have hstored := hi.stored
  rw [heq] at hstored
  refine (hmax' _ s.tip _ (hstored _ s.tip_mem) (hwork _ _ hi.lookup_tip)).resolve_right ?_
  exact hi.not_unpayable (fun x hx => (hi'.own _ x (hstored x hx)).2) hi'.separated

include hsep in
/-- **The same blocks, the same works, equally heavy tips.** -/
theorem agree (hs : Grown C magic g all latest s) (hs' : Grown C magic g all latest s')
    (hsame : ∀ h, h ∈ s.allBlocks ↔ h ∈ s'.allBlocks) : Agree C s s' := by
  have heq := hs.allBlocks_eq hsep hs' hsame
  have hwork : s.chainWork = s'.chainWork := Finmap.ext_lookup fun h => by
    cases hw : s.chainWork.lookup h with
    | some w => exact (hs.lookup_chainWork hs' heq hw).symm
    | none =>
      cases hw' : s'.chainWork.lookup h with
      | none => rfl
      | some w => cases hw.symm.trans (hs'.lookup_chainWork hs heq.symm hw')
  have htips := le_antisymm (hs.work_tip_le hs' heq) (hs'.work_tip_le hs heq.symm)
  obtain ⟨hist, hsub, hi, -⟩ := hs.exists_inv
  obtain ⟨hist', hsub', hi', -⟩ := hs'.exists_inv
  refine ⟨heq, hwork, ⟨_, hi.lookup_tip, htips ▸ hi'.lookup_tip⟩, fun huniq => ?_⟩
  have hhash := huniq _ _ hi.lookup_tip (by rw [hwork, htips]; exact hi'.lookup_tip)
  have htip : s'.tip = s.tip := hsep _ (hsub' _ (hi'.mem_hist s'.tip_mem)) _
    (hsub _ (hi.mem_hist s.tip_mem)) hhash
  have hblocks : s.blocks = s'.blocks := hi.active.eq_of_getLast? hi'.active
    (fun x hx => hsub x (hi.mem_hist hx)) (fun x hx => hsub' x (hi'.mem_hist hx)) hsep
    s.getLast?_blocks (htip ▸ s'.getLast?_blocks)
  have hreplay : (s.utxoSet, s.totalMinted) = (s'.utxoSet, s'.totalMinted) :=
    Except.ok.inj (hi.replay_eq.symm.trans (hblocks ▸ hi'.replay_eq))
  exact ⟨hblocks, congrArg Prod.fst hreplay, congrArg Prod.snd hreplay⟩

end Grown

/-! ### Runs that lose nothing -/

/-- **A run that loses nothing**: no call does, and the clock does not go back. -/
def LosslessRun (C : Crypto) : ℕ → Blockchain → List Event → Prop
  | _, _, [] => True
  | latest, s, .addBlock now b :: evs =>
    latest ≤ now ∧ s.Lossless C now b ∧ LosslessRun C now (s.step C (.addBlock now b)) evs
  | latest, s, .submitTransaction tx :: evs =>
    LosslessRun C latest (s.step C (.submitTransaction tx)) evs

/-- The last reading of the clock in a run. -/
def clockAfter : ℕ → List Event → ℕ
  | latest, [] => latest
  | _, .addBlock now _ :: evs => clockAfter now evs
  | latest, .submitTransaction _ :: evs => clockAfter latest evs

/-- What such a run leaves. -/
theorem Grown.run (hg : g.height = 0) (hsep : Separated C all) {evs : List Event}
    (hs : Grown C magic g all latest s) (hrun : LosslessRun C latest s evs)
    (hrecorded : ∀ x ∈ s.recorded C evs, x ∈ all) :
    Grown C magic g all (clockAfter latest evs) (s.run C evs) := by
  induction evs generalizing s latest with
  | nil => exact hs
  | cons e evs ih =>
    have hfirst := fun x hx => hrecorded x (List.mem_append_left _ hx)
    have hrest := fun x hx => hrecorded x (List.mem_append_right _ hx)
    cases e with
    | addBlock now b =>
      obtain ⟨hle, hkeep, hrun⟩ := hrun
      exact ih (hs.addBlock hg hsep hle hfirst hkeep) hrun hrest
    | submitTransaction tx => exact ih (hs.submitTransaction tx) hrun hrest

end Blockchain

end Arkos
