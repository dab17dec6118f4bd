import Arkos.Blockchain.Outcome

/-!
# Extending the tip

The common case of `add_block`: a block that may follow the active chain is recorded, outweighs the
tip, and becomes the tip. The result is an equation, not an existence statement, since everything
that builds a chain block by block (loading it from disk, mining it) wants to know the state it
ends in.

Delivering the blocks of a valid chain one after the other therefore rebuilds exactly that chain
(`addBlocks_of_validChain`), at any clock that is not behind the one the chain was checked at.

## Main definitions

* `Blockchain.extendTip` — the state after an accepted extension of the tip
* `Blockchain.deliver` — the calls that hand over a list of blocks

## Main results

* `Blockchain.Inv.addBlock_of_extends`, `Blockchain.Inv.addBlock_tip_of_ok`
* `Blockchain.addBlocks_of_validChain`, `Blockchain.run_deliver_of_addBlocks`
-/

namespace Arkos

variable {C : Crypto}

theorem replay_append_singleton {bs : List Block} {u : UtxoSet} {m : ℕ}
    (h : replay C bs = .ok (u, m)) (b : Block) :
    replay C (bs ++ [b]) = replayBlock C (u, m) b := by
  rw [replay] at h
  rw [replay, List.foldlM_append, h]
  show (replayBlock C (u, m) b).bind Except.ok = _
  cases replayBlock C (u, m) b <;> rfl

/-- What was minted fits a word. -/
theorem replay_minted_lt {bs : List Block} {u : UtxoSet} {m : ℕ} (h : replay C bs = .ok (u, m)) :
    m < 2 ^ 64 := by
  suffices hgen : ∀ st : UtxoSet × ℕ, st.2 < 2 ^ 64 → bs.foldlM (replayBlock C) st = .ok (u, m) →
      m < 2 ^ 64 from hgen _ (Nat.two_pow_pos 64) h
  clear h
  induction bs with
  | nil =>
    intro st hst h
    cases h
    exact hst
  | cons b bs ih =>
    intro st hst h
    rw [List.foldlM_cons] at h
    rcases hs : replayBlock C st b with e | st'
    · rw [hs] at h
      cases h
    · rw [hs] at h
      refine ih st' ?_ h
      rw [replayBlock] at hs
      split at hs
      · cases hs
      next t ht =>
        cases hs
        exact (checkedAdd_eq_some_iff.mp ht).2

theorem replayBlock_of_lt {u : UtxoSet} {m : ℕ} {b : Block} (h : m + coinbaseValue b < 2 ^ 64) :
    replayBlock C (u, m) b = .ok (applyBlock C u b, m + coinbaseValue b) := by
  rw [replayBlock, checkedAdd_of_lt h]

namespace Blockchain

/-- The state after the active chain was extended by `b`. -/
def extendTip (C : Crypto) (s : Blockchain) (b : Block) (u : UtxoSet) (m : ℕ) : Blockchain :=
  (((s.recordBlock C b (workOf (s.blocks ++ [b]))).withActive C (s.blocks ++ [b])
    (List.append_ne_nil_of_right_ne_nil _ (List.cons_ne_nil _ _)) u m).persistActive
      C).pruneStaleOrphans C

section

variable (s : Blockchain) (b : Block) (u : UtxoSet) (m : ℕ)

@[simp] theorem pruneStaleOrphans_blocks : (s.pruneStaleOrphans C).blocks = s.blocks := by
  rw [pruneStaleOrphans]
  split <;> rfl

@[simp] theorem pruneStaleOrphans_tip : (s.pruneStaleOrphans C).tip = s.tip := by
  rw [pruneStaleOrphans]
  split <;> rfl

@[simp] theorem pruneStaleOrphans_networkMagic :
    (s.pruneStaleOrphans C).networkMagic = s.networkMagic := by
  rw [pruneStaleOrphans]
  split <;> rfl

@[simp] theorem pruneStaleOrphans_utxoSet : (s.pruneStaleOrphans C).utxoSet = s.utxoSet := by
  rw [pruneStaleOrphans]
  split <;> rfl

@[simp] theorem pruneStaleOrphans_totalMinted :
    (s.pruneStaleOrphans C).totalMinted = s.totalMinted := by
  rw [pruneStaleOrphans]
  split <;> rfl

@[simp] theorem pruneStaleOrphans_mempool : (s.pruneStaleOrphans C).mempool = s.mempool := by
  rw [pruneStaleOrphans]
  split <;> rfl

@[simp] theorem pruneStaleOrphans_store : (s.pruneStaleOrphans C).store = s.store := by
  rw [pruneStaleOrphans]
  split <;> rfl

@[simp] theorem extendTip_blocks : (s.extendTip C b u m).blocks = s.blocks ++ [b] := by
  rw [extendTip, pruneStaleOrphans_blocks]
  rfl

@[simp] theorem extendTip_networkMagic : (s.extendTip C b u m).networkMagic = s.networkMagic := by
  rw [extendTip, pruneStaleOrphans_networkMagic]
  rfl

@[simp] theorem extendTip_utxoSet : (s.extendTip C b u m).utxoSet = u := by
  rw [extendTip, pruneStaleOrphans_utxoSet]
  rfl

@[simp] theorem extendTip_totalMinted : (s.extendTip C b u m).totalMinted = m := by
  rw [extendTip, pruneStaleOrphans_totalMinted]
  rfl

@[simp] theorem extendTip_mempool :
    (s.extendTip C b u m).mempool = removeConfirmed C s.mempool (s.blocks ++ [b]) := by
  rw [extendTip, pruneStaleOrphans_mempool]
  rfl

theorem extendTip_store : (s.extendTip C b u m).store = s.store.map fun st =>
    ((s.blocks ++ [b]).foldl (BlockStore.saveBlock C) (st.saveBlock C b)).saveTip
      (b.hashHex C) := by
  have htip : ((s.recordBlock C b (workOf (s.blocks ++ [b]))).withActive C (s.blocks ++ [b])
      (List.append_ne_nil_of_right_ne_nil _ (List.cons_ne_nil _ _)) u m).tip = b := by
    rw [tip]
    exact List.getLast_append_singleton _
  rw [extendTip, pruneStaleOrphans_store, persistActive, htip]
  show (s.store.map fun st => st.saveBlock C b).map _ = _
  rw [Option.map_map]
  rfl

end

variable {magic : UInt32} {T : Set ℕ} {g : Block} {hist : List Block} {s : Blockchain}

theorem Inv.length_blocks (hg : g.height = 0) (hi : Inv C magic T g hist s) :
    s.blocks.length = s.height + 1 :=
  (hi.active.height_getLast? hg s.getLast?_blocks).symm

/-- What a call does to the active chain, and to what follows from it. -/
theorem Inv.blocks_addBlock (hg : g.height = 0) (hi : Inv C magic T g hist s) {now : ℕ}
    (hnow : now ∈ T) {b : Block} (hsep : Separated C (hist ++ s.recordedBy C (.addBlock now b))) :
    ((s.addBlock C now b).2.blocks = s.blocks ∧ (s.addBlock C now b).2.utxoSet = s.utxoSet) ∨
      ∃ bs w u m, Grows C magic T g now s b bs w ∧ workOf s.blocks < w ∧
        replay C (bs ++ [b]) = .ok (u, m) ∧ (s.addBlock C now b).2.blocks = bs ++ [b] ∧
        (s.addBlock C now b).2.utxoSet = u ∧
        (s.addBlock C now b).2.mempool = removeConfirmed C s.mempool (bs ++ [b]) := by
  have hout := hi.outcome hg hnow hsep
  generalize (s.addBlock C now b).1 = r at hout
  generalize (s.addBlock C now b).2 = s' at hout ⊢
  cases hout with
  | rejected _ _ => exact Or.inl ⟨rfl, rfl⟩
  | known _ => exact Or.inl ⟨rfl, rfl⟩
  | side _ _ => exact Or.inl ⟨pruneStaleOrphans_blocks _, pruneStaleOrphans_utxoSet _⟩
  | overflow _ _ _ => exact Or.inl ⟨rfl, rfl⟩
  | @activated bs w u m hne hgrows hlt hrep =>
    exact Or.inr ⟨bs, w, u, m, hgrows, hlt, hrep, pruneStaleOrphans_blocks _,
      pruneStaleOrphans_utxoSet _, pruneStaleOrphans_mempool _⟩

/-- **A block that may follow the active chain becomes its tip.** -/
theorem Inv.addBlock_of_extends (hg : g.height = 0) (hi : Inv C magic T g hist s) {now : ℕ}
    (hnow : now ∈ T) {b : Block} (hext : Extends C magic now s.blocks b)
    (hfresh : b.hashHex C ∉ s.allBlocks) (hsep : Separated C (hist ++ [b])) {u : UtxoSet} {m : ℕ}
    (hrep : replay C (s.blocks ++ [b]) = .ok (u, m)) :
    s.addBlock C now b = (.ok (), s.extendTip C b u m) := by
  have hchecked := hi.checked_of_extends hg hi.active hi.stored hext hfresh
  have htip : (s.recordBlock C b (workOf (s.blocks ++ [b]))).chainWork.lookup (s.tip.hashHex C) =
      some (workOf s.blocks) := (hi.recordBlock hg hnow hchecked hsep).lookup_tip
  have hwalk := hi.chainToHash_recordBlock hg hnow
    ⟨hchecked, hi.active, hi.stored, hext, rfl⟩ hsep
  have hlt : workOf s.blocks < workOf (s.blocks ++ [b]) := by
    rw [workOf_append_singleton]
    exact Nat.lt_add_of_pos_right (blockWork_pos _)
  rw [Blockchain.addBlock, checkBlock_eq_ok_some_iff.mpr hchecked]
  dsimp only
  rw [settleBlock, show (s.recordBlock C b (workOf (s.blocks ++ [b]))).tip = s.tip from rfl, htip]
  dsimp only
  rw [if_pos hlt, activateChain, hwalk]
  dsimp only
  rw [dif_neg (List.append_ne_nil_of_right_ne_nil _ (List.cons_ne_nil _ _)),
    rebuildActiveState_of_ok _ hrep]
  rfl

/-- A checked block on top of the tip stands on the active chain. -/
theorem Inv.blocks_eq_of_grows (hi : Inv C magic T g hist s) {now : ℕ} {b : Block} {bs : List Block}
    {w : ℕ} (h : Grows C magic T g now s b bs w) (hprev : b.header.prevHash = s.tip.hashHex C) :
    bs = s.blocks :=
  hi.eq_of_grows h hi.active (fun _ hx => hi.mem_hist hx) s.getLast?_blocks hprev

/-- A block that is not refused was known or has passed the checks. -/
theorem checked_of_addBlock_ok {now : ℕ} {b : Block} (h : (s.addBlock C now b).1 = .ok ()) :
    b.hashHex C ∈ s.allBlocks ∨ ∃ w, Checked C now s b w := by
  have hadd := addBlock_cases (C := C) now s b
  rw [h] at hadd
  generalize (s.addBlock C now b).2 = s' at hadd
  cases hadd with
  | known hmem => exact Or.inl hmem
  | side hcheck _ _ => exact Or.inr ⟨_, checkBlock_eq_ok_some_iff.mp hcheck⟩
  | activated _ hcheck _ _ _ _ => exact Or.inr ⟨_, checkBlock_eq_ok_some_iff.mp hcheck⟩

/-- **A new block on top of the tip is refused or becomes the tip.** It outweighs the old tip, so it
cannot stay on the side. -/
theorem Inv.addBlock_tip_of_ok (hg : g.height = 0) (hi : Inv C magic T g hist s) {now : ℕ}
    (hnow : now ∈ T) {b : Block} (hprev : b.header.prevHash = s.tip.hashHex C)
    (hfresh : b.hashHex C ∉ s.allBlocks) (hsep : Separated C (hist ++ [b]))
    (hok : (s.addBlock C now b).1 = .ok ()) :
    Extends C magic now s.blocks b ∧ ∃ u m, replay C (s.blocks ++ [b]) = .ok (u, m) ∧
      s.addBlock C now b = (.ok (), s.extendTip C b u m) := by
  have hout := hi.outcome hg hnow (b := b)
  rw [hok] at hout
  obtain ⟨w, hchecked⟩ := (checked_of_addBlock_ok hok).resolve_left hfresh
  rw [recordedBy_of_checked hchecked] at hout
  generalize (s.addBlock C now b).2 = s' at hout
  cases hout hsep with
  | known hmem => exact absurd hmem hfresh
  | side hgrows hle =>
    obtain rfl := hi.blocks_eq_of_grows hgrows hprev
    have hpos := blockWork_pos b.header.bits
    rw [hgrows.work_eq, workOf_append_singleton] at hle
    omega
  | @activated bs w u m hne hgrows hlt hrep =>
    obtain rfl := hi.blocks_eq_of_grows hgrows hprev
    exact ⟨hgrows.step, u, m, hrep, hi.addBlock_of_extends hg hnow hgrows.step hfresh hsep hrep⟩

/-- A recorded block on top of the tip may follow the active chain. -/
theorem Inv.extends_of_mem (hi : Inv C magic T g hist s) {b : Block} (hb : b ∈ hist) (hne : b ≠ g)
    (hprev : b.header.prevHash = s.tip.hashHex C) : ∃ now ∈ T, Extends C magic now s.blocks b := by
  obtain ⟨bs, hbs, hlast, hsub⟩ := hi.history b hb
  cases hbs with
  | genesis => exact absurd (Option.some.inj hlast).symm hne
  | @snoc cs c now hcs hnow _ hext =>
    rw [ValidChain.getLast?_append_singleton] at hlast
    obtain rfl := Option.some.inj hlast
    obtain ⟨p, hp, hwf, -⟩ := hext.parent
    have hsub' : ∀ x ∈ cs, x ∈ hist := fun x hx => hsub x (List.mem_append_left _ hx)
    have htip : p = s.tip := hi.separated p (hsub' p (List.mem_of_getLast? hp)) s.tip
      (hi.mem_hist s.tip_mem) (hwf.prevHash_eq.symm.trans hprev)
    obtain rfl := ValidChain.eq_of_getLast? hcs hi.active hsub' (fun x hx => hi.mem_hist hx)
      hi.separated hp (htip ▸ s.getLast?_blocks)
    exact ⟨now, hnow, hext⟩

/-- **When a block on top of the tip is not refused.** A block that was recorded before is waved
through, whether or not the node could ever activate it. -/
theorem Inv.addBlock_tip_eq_ok_iff (hg : g.height = 0) (hi : Inv C magic T g hist s) {now : ℕ}
    (hnow : now ∈ T) {b : Block} (hprev : b.header.prevHash = s.tip.hashHex C) (hne : b ≠ g)
    (htime : b.header.timestamp.toNat ≤ now + 7200) (hsep : Separated C (hist ++ [b])) :
    (s.addBlock C now b).1 = .ok () ↔ Extends C magic now s.blocks b ∧
      (s.totalMinted + coinbaseValue b < 2 ^ 64 ∨ b.hashHex C ∈ s.allBlocks) := by
  by_cases hmem : b.hashHex C ∈ s.allBlocks
  · have hok : (s.addBlock C now b).1 = .ok () := by
      rw [Blockchain.addBlock, checkBlock, if_pos hmem]
    obtain ⟨x, hx⟩ := Finmap.mem_iff.mp hmem
    obtain ⟨hhash, hxmem⟩ := hi.own _ x hx
    obtain rfl := hsep x (List.mem_append_left _ hxmem) b
      (List.mem_append_right _ List.mem_cons_self) hhash
    obtain ⟨t, -, hext⟩ := hi.extends_of_mem hxmem hne hprev
    exact iff_of_true hok ⟨hext.at_time htime, Or.inr hmem⟩
  · constructor
    · intro hok
      obtain ⟨hext, u, m, hrep, -⟩ := hi.addBlock_tip_of_ok hg hnow hprev hmem hsep hok
      rw [replay_append_singleton hi.replay_eq, replayBlock] at hrep
      split at hrep
      · cases hrep
      next t ht =>
        obtain ⟨rfl, hlt⟩ := checkedAdd_eq_some_iff.mp ht
        exact ⟨hext, Or.inl hlt⟩
    · rintro ⟨hext, hlt⟩
      have hrep : replay C (s.blocks ++ [b]) = _ :=
        (replay_append_singleton hi.replay_eq b).trans
          (replayBlock_of_lt (hlt.resolve_right hmem))
      rw [hi.addBlock_of_extends hg hnow hext hmem hsep hrep]

/-! ### A whole chain, block by block -/

/-- The calls that hand over `bs`, the first of them the `i`-th. -/
def deliver (clock : ℕ → ℕ) (i : ℕ) (bs : List Block) : List Event :=
  (bs.zipIdx i).map fun bi => .addBlock (clock bi.2) bi.1

theorem mem_of_mem_deliver {clock : ℕ → ℕ} {i now : ℕ} {bs : List Block} {b : Block}
    (h : .addBlock now b ∈ deliver clock i bs) : b ∈ bs := by
  obtain ⟨⟨c, j⟩, hc, heq⟩ := List.mem_map.mp h
  obtain ⟨-, rfl⟩ := Event.addBlock.inj heq
  exact (List.mem_zipIdx hc).2.2 ▸ List.getElem_mem _

/-- The loop goes on from the chain it has come to. -/
theorem addBlocks_append {clock : ℕ → ℕ} {i : ℕ} {bs : List Block} {s' : Blockchain}
    (h : addBlocks C clock i s bs = (.ok (), s')) (bs' : List Block) :
    addBlocks C clock i s (bs ++ bs') = addBlocks C clock (i + bs.length) s' bs' := by
  induction bs generalizing i s with
  | nil =>
    cases h
    rfl
  | cons c bs ih =>
    rw [addBlocks] at h
    rw [List.cons_append, addBlocks]
    rcases hadd : s.addBlock C (clock i) c with ⟨e | ⟨⟩, s''⟩
    · rw [hadd] at h
      cases h
    · rw [hadd] at h
      dsimp only at h ⊢
      rw [ih h, List.length_cons, Nat.add_assoc, Nat.add_comm 1]

theorem addBlocks_append_singleton {clock : ℕ → ℕ} {i : ℕ} {bs : List Block} {s' : Blockchain}
    (h : addBlocks C clock i s bs = (.ok (), s')) (b : Block) :
    addBlocks C clock i s (bs ++ [b]) = s'.addBlock C (clock (i + bs.length)) b := by
  rw [addBlocks_append h, addBlocks]
  rcases s'.addBlock C (clock (i + bs.length)) b with ⟨_ | ⟨⟩, s''⟩ <;> rfl

/-- Handing over blocks that are all accepted is a run. -/
theorem run_deliver_of_addBlocks {clock : ℕ → ℕ} {i : ℕ} {bs : List Block} {s' : Blockchain}
    (h : addBlocks C clock i s bs = (.ok (), s')) :
    Blockchain.run C s (deliver clock i bs) = s' := by
  induction bs generalizing i s with
  | nil =>
    cases h
    rfl
  | cons b bs ih =>
    rw [addBlocks] at h
    rcases hadd : s.addBlock C (clock i) b with ⟨e | ⟨⟩, s''⟩
    · rw [hadd] at h
      cases h
    · rw [hadd] at h
      have hrest := ih h
      rw [← hrest, deliver, deliver, List.zipIdx_cons, List.map_cons, Blockchain.run,
        List.foldl_cons, step, hadd]
      rfl

/-- **Delivering a valid chain rebuilds it.** -/
theorem addBlocks_of_validChain (hg : g.height = 0) (store : Option BlockStore) {clock : ℕ → ℕ}
    (hclock : ∀ i, ∀ t ∈ T, t ≤ clock i) {bs : List Block} (hbs : ValidChain C magic T g bs)
    (hsep : Separated C bs) {u : UtxoSet} {m : ℕ} (hrep : replay C bs = .ok (u, m)) (i : ℕ) :
    ∃ s', addBlocks C clock i (fromGenesisWithMagic C g store magic) bs.tail = (.ok (), s') ∧
      Inv C magic Set.univ g bs s' ∧ s'.blocks = bs ∧ s'.utxoSet = u ∧ s'.totalMinted = m := by
  induction hbs generalizing u m with
  | genesis =>
    refine ⟨fromGenesisWithMagic C g store magic, rfl, inv_fromGenesisWithMagic store, rfl, ?_⟩
    rw [replay_singleton] at hrep
    cases hrep
    exact ⟨rfl, rfl⟩
  | @snoc bs b now hbs hnow hne hext ih =>
    obtain ⟨u₀, m₀, hrep₀, -⟩ := hext.context
    have hsub : ∀ x ∈ bs, x ∈ bs ++ [b] := fun x hx => List.mem_append_left _ hx
    obtain ⟨s', hadd, hinv, rfl, rfl, rfl⟩ := ih (hsep.mono hsub) hrep₀
    have htail : (s'.blocks ++ [b]).tail = s'.blocks.tail ++ [b] :=
      List.tail_append_of_ne_nil hbs.ne_nil
    -- the new block is in the chain only once, so its hash is new
    have hfresh : b.hashHex C ∉ s'.allBlocks := by
      intro hmem
      obtain ⟨x, hx⟩ := Finmap.mem_iff.mp hmem
      obtain ⟨hxhash, hxmem⟩ := hinv.own _ x hx
      obtain rfl := hsep x (hsub x hxmem) b (by simp) hxhash
      have hnodup := (ValidChain.snoc hbs hnow hne hext).nodup hg
      exact absurd hxmem (List.disjoint_of_nodup_append hnodup · (by simp))
    have hstep := hinv.addBlock_of_extends (b := b) hg
      (Set.mem_univ (clock (i + s'.blocks.tail.length)))
      (hext.mono (hclock _ _ hnow)) hfresh hsep hrep
    have hpres := hinv.addBlock (b := b) hg (Set.mem_univ (clock (i + s'.blocks.tail.length)))
    rw [recordedBy_of_checked (hinv.checked_of_extends hg hinv.active hinv.stored
      (hext.mono (hclock _ _ hnow)) hfresh), hstep] at hpres
    refine ⟨_, ?_, hpres fun _ => hsep, extendTip_blocks _ _ _ _, extendTip_utxoSet _ _ _ _,
      extendTip_totalMinted _ _ _ _⟩
    rw [htail, addBlocks_append_singleton hadd, hstep]

/-- A recorded block was delivered. -/
theorem exists_event_of_mem_recorded {s : Blockchain} {evs : List Event} {b : Block}
    (h : b ∈ recorded C s evs) : ∃ now, .addBlock now b ∈ evs := by
  induction evs generalizing s with
  | nil => cases h
  | cons e evs ih =>
    rw [recorded] at h
    rcases List.mem_append.mp h with h | h
    · cases e with
      | addBlock now c =>
        rw [recordedBy] at h
        split at h
        · obtain rfl : b = c := by simpa using h
          exact ⟨now, List.mem_cons_self⟩
        · cases h
      | submitTransaction tx => cases h
    · obtain ⟨now, hnow⟩ := ih h
      exact ⟨now, List.mem_cons_of_mem _ hnow⟩

/-- Delivering blocks records none but these. -/
theorem mem_of_mem_cons_recorded {clock : ℕ → ℕ} {i : ℕ} {bs : List Block} {s : Blockchain}
    {b : Block} (hb : b ∈ g :: recorded C s (deliver clock i bs)) : b ∈ g :: bs := by
  rcases List.mem_cons.mp hb with rfl | hb
  · exact List.mem_cons_self
  · obtain ⟨now, hev⟩ := exists_event_of_mem_recorded hb
    exact List.mem_cons_of_mem _ (mem_of_mem_deliver hev)

/-- The same, with the genesis as the chain a node starts with. -/
theorem mem_of_mem_recorded_deliver {clock : ℕ → ℕ} {i : ℕ} {bs : List Block} {store magic}
    {b : Block} (hb : b ∈ (fromGenesisWithMagic C g store magic).blocks ++
      recorded C (fromGenesisWithMagic C g store magic) (deliver clock i bs)) : b ∈ g :: bs :=
  mem_of_mem_cons_recorded hb

theorem noCollision_recorded_deliver {clock : ℕ → ℕ} {i : ℕ} {bs : List Block} {s : Blockchain}
    (hnc : NoCollision C (g :: bs)) : NoCollision C (g :: recorded C s (deliver clock i bs)) :=
  hnc.mono fun _ hb => mem_of_mem_cons_recorded hb

/-- A node that took delivery of separated blocks satisfies the invariant. -/
theorem inv_of_addBlocks (hg : g.height = 0) {store : Option BlockStore} {clock : ℕ → ℕ} {i : ℕ}
    {bs : List Block} (hsep : Separated C (g :: bs)) {s' : Blockchain}
    (hadd : addBlocks C clock i (fromGenesisWithMagic C g store magic) bs = (.ok (), s')) :
    ∃ hist, (∀ x ∈ hist, x ∈ g :: bs) ∧ Inv C magic Set.univ g hist s' := by
  have hinv : Inv C magic Set.univ g ([g] ++ recorded C (fromGenesisWithMagic C g store magic)
      (deliver clock i bs)) (run C (fromGenesisWithMagic C g store magic) (deliver clock i bs)) :=
    (inv_fromGenesisWithMagic store).run hg (fun _ _ _ => trivial) fun hist' hpart _ =>
      hsep.mono fun x hx => mem_of_mem_recorded_deliver (hpart x hx)
  rw [run_deliver_of_addBlocks hadd] at hinv
  exact ⟨_, fun x hx => mem_of_mem_recorded_deliver hx, hinv⟩

end Blockchain

end Arkos
