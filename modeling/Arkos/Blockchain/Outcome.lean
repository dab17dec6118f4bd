import Arkos.Blockchain.Invariant

/-!
# What a call does to a state that satisfies the invariant

`addBlock_cases` lists the outcomes of `add_block` as the code has them. In a state that satisfies
the invariant two of them are impossible: the tip always has a work, and the walk from a block just
recorded always ends, because the chain the block was checked on is all there. What is left of a
recorded block are three outcomes, and they are told apart by two numbers, the work of its chain and
what the coinbases of that chain pay.

A run is taken apart from its end: the rule `run_induction` hands the invariant to the proof of each
step, before the call and after it.

## Main definitions

* `Outcome` — the outcomes of a call, in terms of the chain the block stands on

## Main results

* `Inv.outcome` — these are all
* `run_induction` — what holds initially and is kept by every call holds after a run
* `run_steps` — what every recorded block satisfied holds along every chain of recorded blocks
-/

namespace Arkos

namespace Blockchain

variable {C : Crypto} {magic : UInt32} {T : Set ℕ} {g : Block} {hist : List Block} {s : Blockchain}

/-- **The outcomes of `add_block` under the invariant.** A block that passes the checks stands on a
chain `bs` that is all there. If the two weigh no more than the active chain the block stays on the
side; otherwise they become the active chain, unless their coinbases pay more than a word holds. -/
inductive Outcome (C : Crypto) (magic : UInt32) (T : Set ℕ) (g : Block) (now : ℕ) (s : Blockchain)
    (b : Block) : Except ChainError Unit → Blockchain → Prop
  | rejected {e} : (∀ w, ¬ Checked C now s b w) → b.hashHex C ∉ s.allBlocks →
      Outcome C magic T g now s b (.error e) s
  | known : b.hashHex C ∈ s.allBlocks → Outcome C magic T g now s b (.ok ()) s
  | side {bs w} : Grows C magic T g now s b bs w → w ≤ workOf s.blocks →
      Outcome C magic T g now s b (.ok ()) ((s.recordBlock C b w).pruneStaleOrphans C)
  | overflow {bs w done} : Grows C magic T g now s b bs w → workOf s.blocks < w →
      replay C (bs ++ [b]) = .error .totalMintedOverflow →
      Outcome C magic T g now s b (.error .totalMintedOverflow)
        { s.recordBlock C b w with mempool := removeConfirmed C s.mempool done }
  | activated {bs w u m} (hne : bs ++ [b] ≠ []) : Grows C magic T g now s b bs w →
      workOf s.blocks < w → replay C (bs ++ [b]) = .ok (u, m) →
      Outcome C magic T g now s b (.ok ())
        ((((s.recordBlock C b w).withActive C (bs ++ [b]) hne u m).persistActive
          C).pruneStaleOrphans C)

/-- The only way a replay fails. -/
theorem replay_eq_error {bs : List Block} {e : ChainError} (h : replay C bs = .error e) :
    e = .totalMintedOverflow := by
  rw [replay] at h
  generalize (UtxoSet.empty, 0) = st at h
  induction bs generalizing st with
  | nil => cases h
  | cons b bs ih =>
    rw [List.foldlM_cons, replayBlock] at h
    split at h
    · exact (Except.error.inj h).symm
    · exact ih _ h

namespace Inv

/-- The chain a block stands on is determined by its parent. -/
theorem eq_of_grows (hi : Inv C magic T g hist s) {now : ℕ} {b : Block} {bs : List Block} {w : ℕ}
    (h : Grows C magic T g now s b bs w) {ds : List Block} (hds : ValidChain C magic T g ds)
    (hsub : ∀ x ∈ ds, x ∈ hist) {p : Block} (hp : ds.getLast? = some p)
    (hprev : b.header.prevHash = p.hashHex C) : bs = ds := by
  have hsub' := hi.mem_hist_of_grows h
  obtain ⟨p', hp', hwf, -⟩ := h.step.parent
  have hpp : p' = p := hi.separated p' (hsub' p' (List.mem_of_getLast? hp')) p
    (hsub p (List.mem_of_getLast? hp)) (hwf.prevHash_eq.symm.trans hprev)
  exact h.valid.eq_of_getLast? hds hsub' hsub hi.separated hp' (hpp ▸ hp)

/-- The walk from its parent returns it. -/
theorem chainToHash_of_grows (hg : g.height = 0) (hi : Inv C magic T g hist s) {now : ℕ} {b : Block}
    {bs : List Block} {w : ℕ} (h : Grows C magic T g now s b bs w) :
    s.chainToHash b.header.prevHash = .ok bs := by
  obtain ⟨p, hp, hwf, -⟩ := h.step.parent
  rw [hwf.prevHash_eq]
  exact hi.chainToHash_eq hg h.valid h.stored hp

/-- Its context is the replay of that chain. -/
theorem parentContext_of_grows (hg : g.height = 0) (hi : Inv C magic T g hist s) {now : ℕ}
    {b : Block} {bs : List Block} {w : ℕ} (h : Grows C magic T g now s b bs w) {u : UtxoSet} {m : ℕ}
    (hrep : replay C bs = .ok (u, m)) : s.parentContext C b.header.prevHash = .ok (bs, u, m) := by
  rw [hi.parentContext_eq hg, replayContext, hi.chainToHash_of_grows hg h]
  dsimp only
  rw [hrep]

/-- The tip has the work of the active chain. -/
theorem lookup_tip (hi : Inv C magic T g hist s) :
    s.chainWork.lookup (s.tip.hashHex C) = some (workOf s.blocks) :=
  hi.work_eq _ s.tip (hi.stored _ s.tip_mem) s.blocks hi.active s.getLast?_blocks
    fun _ hx => hi.mem_hist hx

/-- The walk from a block just recorded returns the chain it was checked on. -/
theorem chainToHash_recordBlock (hg : g.height = 0) (hi : Inv C magic T g hist s) {now : ℕ}
    (hnow : now ∈ T) {b : Block} {bs : List Block} {w : ℕ} (h : Grows C magic T g now s b bs w)
    (hsep : Separated C (hist ++ [b])) :
    (s.recordBlock C b w).chainToHash (b.hashHex C) = .ok (bs ++ [b]) := by
  refine (hi.recordBlock hg hnow h.checked hsep).chainToHash_eq hg (hi.validChain_of_grows hnow h)
    (fun x hx => ?_) (ValidChain.getLast?_append_singleton bs b)
  rcases List.mem_append.mp hx with hx | hx
  · exact lookup_recordBlock_of_lookup h.checked (h.stored x hx)
  · rw [List.mem_singleton.mp hx]
    exact Finmap.lookup_insert _

/-- The state with the chain of a recorded block as its active chain. -/
theorem withActive_of_grows (hg : g.height = 0) (hi : Inv C magic T g hist s) {now : ℕ}
    (hnow : now ∈ T) {b : Block} {bs : List Block} {w : ℕ} (h : Grows C magic T g now s b bs w)
    (hsep : Separated C (hist ++ [b])) (hne : bs ++ [b] ≠ []) {u : UtxoSet} {m : ℕ}
    (hrep : replay C (bs ++ [b]) = .ok (u, m)) : Inv C magic T g (hist ++ [b])
      (((s.recordBlock C b w).withActive C (bs ++ [b]) hne u m).persistActive C) := by
  have hir := hi.recordBlock hg hnow h.checked hsep
  obtain ⟨hvalid, -, -, hstored⟩ := hir.chainToHash_spec hg
    (List.mem_append_right _ List.mem_cons_self) (hi.chainToHash_recordBlock hg hnow h hsep)
  exact (hir.withActive hne hvalid hstored hrep).persistActive

/-- What a checked block adds to the history. -/
theorem separated_of_checked {now : ℕ} {b : Block} {w : ℕ}
    (h : Checked C now s b w) (hsep : Separated C (hist ++ s.recordedBy C (.addBlock now b))) :
    Separated C (hist ++ [b]) := by
  rwa [recordedBy_of_checked h] at hsep

/-- **Under the invariant these are all outcomes.** -/
theorem outcome (hg : g.height = 0) (hi : Inv C magic T g hist s) {now : ℕ} (hnow : now ∈ T)
    {b : Block} (hsep : Separated C (hist ++ s.recordedBy C (.addBlock now b))) :
    Outcome C magic T g now s b (s.addBlock C now b).1 (s.addBlock C now b).2 := by
  have hadd := addBlock_cases (C := C) now s b
  generalize (s.addBlock C now b).1 = r at hadd ⊢
  generalize (s.addBlock C now b).2 = s' at hadd ⊢
  by_cases hchecked : ∃ w, Checked C now s b w
  · obtain ⟨w₀, hc⟩ := hchecked
    have hcheck₀ := checkBlock_eq_ok_some_iff.mpr hc
    obtain ⟨bs, hgrows⟩ := hi.exists_grows hg hc
    rw [recordedBy_of_checked hc] at hsep
    have htip := (hi.recordBlock hg hnow hc hsep).lookup_tip
    have hwalk := hi.chainToHash_recordBlock hg hnow hgrows hsep
    have hwork : ∀ w, s.checkBlock C now b = .ok (some w) → w = w₀ := fun w hw =>
      Option.some.inj (Except.ok.inj (hw.symm.trans hcheck₀))
    cases hadd with
    | rejected hcheck => exact nomatch hcheck.symm.trans hcheck₀
    | known hmem => exact absurd hmem hc.fresh
    | tipWorkMissing hcheck hnone =>
      obtain rfl := hwork _ hcheck
      exact nomatch hnone.symm.trans htip
    | side hcheck hcurrent hle =>
      obtain rfl := hwork _ hcheck
      exact .side hgrows (Option.some.inj (hcurrent.symm.trans htip) ▸ hle)
    | walkFailed hcheck _ _ hfail =>
      obtain rfl := hwork _ hcheck
      exact nomatch hfail.symm.trans hwalk
    | replayFailed hcheck hcurrent hlt hwalk' hrep =>
      obtain rfl := hwork _ hcheck
      obtain rfl := Except.ok.inj (hwalk'.symm.trans hwalk)
      obtain rfl := replay_eq_error hrep
      exact .overflow hgrows (Option.some.inj (hcurrent.symm.trans htip) ▸ hlt) hrep
    | activated hne hcheck hcurrent hlt hwalk' hrep =>
      obtain rfl := hwork _ hcheck
      obtain rfl := Except.ok.inj (hwalk'.symm.trans hwalk)
      exact .activated hne hgrows (Option.some.inj (hcurrent.symm.trans htip) ▸ hlt) hrep
  · have hnone : ∀ w, ¬ Checked C now s b w := not_exists.mp hchecked
    have hno : ∀ w, s.checkBlock C now b ≠ .ok (some w) := fun w hw =>
      hnone w (checkBlock_eq_ok_some_iff.mp hw)
    cases hadd with
    | rejected hcheck =>
      refine .rejected hnone fun hmem => ?_
      rw [checkBlock, if_pos hmem] at hcheck
      cases hcheck
    | known hmem => exact .known hmem
    | tipWorkMissing hcheck _ => exact absurd hcheck (hno _)
    | side hcheck _ _ => exact absurd hcheck (hno _)
    | walkFailed hcheck _ _ _ => exact absurd hcheck (hno _)
    | replayFailed hcheck _ _ _ _ => exact absurd hcheck (hno _)
    | activated _ hcheck _ _ _ _ => exact absurd hcheck (hno _)

end Inv

/-! ### Runs, from their end -/

theorem run_append (s : Blockchain) (evs evs' : List Event) :
    run C s (evs ++ evs') = run C (run C s evs) evs' := List.foldl_append

theorem recorded_append (s : Blockchain) (evs evs' : List Event) :
    recorded C s (evs ++ evs') = recorded C s evs ++ recorded C (run C s evs) evs' := by
  induction evs generalizing s with
  | nil => rfl
  | cons e evs ih =>
    rw [List.cons_append, recorded, recorded, ih, List.append_assoc]
    rfl

theorem recorded_append_singleton (s : Blockchain) (evs : List Event) (e : Event) :
    recorded C s (evs ++ [e]) = recorded C s evs ++ (run C s evs).recordedBy C e := by
  rw [recorded_append, recorded, recorded, List.append_nil]

/-- What a part of a run records, the run records. -/
theorem mem_recorded_of_isPrefix {s : Blockchain} {pre evs : List Event} (h : pre <+: evs)
    {x : Block} (hx : x ∈ recorded C s pre) : x ∈ recorded C s evs := by
  obtain ⟨post, rfl⟩ := h
  rw [recorded_append]
  exact List.mem_append_left _ hx

theorem noCollision_of_isPrefix {s : Blockchain} {pre evs : List Event} (h : pre <+: evs)
    (hnc : NoCollision C (g :: recorded C s evs)) : NoCollision C (g :: recorded C s pre) :=
  hnc.mono fun _ hx => (List.mem_cons.mp hx).elim (fun hx => hx ▸ List.mem_cons_self) fun hx =>
    List.mem_cons_of_mem _ (mem_recorded_of_isPrefix h hx)

/-- **The induction rule for runs.** The step may use the invariant on both of its sides, and that
it is a step of this run. -/
theorem run_induction (hg : g.height = 0) (store : Option BlockStore) (magic : UInt32)
    (evs : List Event)
    (hnc : NoCollision C (g :: recorded C (fromGenesisWithMagic C g store magic) evs))
    {P : List Event → Prop} (nil : P [])
    (snoc : ∀ (pre : List Event) (e : Event), pre ++ [e] <+: evs → ∀ s,
      s = run C (fromGenesisWithMagic C g store magic) pre → ∀ hist,
      hist = g :: recorded C (fromGenesisWithMagic C g store magic) pre →
      Inv C magic Set.univ g hist s →
      Inv C magic Set.univ g (hist ++ s.recordedBy C e) (s.step C e) → P pre → P (pre ++ [e])) :
    P evs := by
  have hall : ∀ pre, pre <+: evs → P pre := by
    intro pre hpre
    induction pre using List.reverseRecOn with
    | nil => exact nil
    | append_singleton pre e ih =>
      have hbegins : pre <+: evs := (List.prefix_append pre [e]).trans hpre
      have hafter := inv_run hg store magic (pre ++ [e]) (noCollision_of_isPrefix hpre hnc)
      rw [recorded_append_singleton, ← List.cons_append, run_append] at hafter
      exact snoc pre e hpre _ rfl _ rfl
        (inv_run hg store magic pre (noCollision_of_isPrefix hbegins hnc)) hafter (ih hbegins)
  exact hall evs List.prefix_rfl

/-- **What every recorded block satisfied on the chain it stood on** holds along every valid chain
of recorded blocks. -/
theorem run_steps (hg : g.height = 0) (store : Option BlockStore) (magic : UInt32)
    (evs : List Event)
    (hnc : NoCollision C (g :: recorded C (fromGenesisWithMagic C g store magic) evs))
    {Q : List Block → Block → Prop}
    (hQ : ∀ (pre : List Event) (now : ℕ) (b : Block), pre ++ [.addBlock now b] <+: evs →
      ∀ bs w,
        Grows C magic Set.univ g now (run C (fromGenesisWithMagic C g store magic) pre) b bs w →
          Q bs b) :
    ∀ bs b, bs ≠ [] → ValidChain C magic Set.univ g (bs ++ [b]) →
      (∀ x ∈ bs ++ [b], x ∈ g :: recorded C (fromGenesisWithMagic C g store magic) evs) →
        Q bs b := by
  refine run_induction hg store magic evs hnc ?_ ?_ (P := fun pre => ∀ bs b, bs ≠ [] →
    ValidChain C magic Set.univ g (bs ++ [b]) →
    (∀ x ∈ bs ++ [b], x ∈ g :: recorded C (fromGenesisWithMagic C g store magic) pre) → Q bs b)
  · -- the genesis alone: a second block would have its height
    intro bs b hne hvalid hsub
    have hb : b = g := List.mem_singleton.mp (hsub b (by simp))
    have hheight := hvalid.height_getLast? hg (ValidChain.getLast?_append_singleton bs b)
    rw [hb, hg, List.length_append, List.length_singleton] at hheight
    exact absurd (List.length_eq_zero_iff.mp (by omega)) hne
  · rintro pre e hpre s rfl hist rfl hi hafter ih bs b hne hvalid hsub
    rw [recorded_append_singleton, ← List.cons_append] at hsub
    have hlast := ValidChain.getLast?_append_singleton bs b
    rcases List.mem_append.mp (hsub b (by simp)) with hb | hb
    · -- an old block has its chain among the old ones
      obtain ⟨cs, hcs, hclast, hcsub⟩ := hi.history b hb
      have hchain := hvalid.eq_of_getLast? hcs hsub
        (fun x hx => List.mem_append_left _ (hcsub x hx)) hafter.separated hlast hclast
      exact ih bs b hne hvalid (hchain ▸ hcsub)
    · -- the new one stands on the chain it was checked on
      cases e with
      | submitTransaction tx => cases hb
      | addBlock now c =>
        by_cases hc : ∃ w, Checked C now (run C (fromGenesisWithMagic C g store magic) pre) c w
        · obtain ⟨w, hc⟩ := hc
          rw [recordedBy_of_checked hc] at hb hsub hafter
          obtain rfl := List.mem_singleton.mp hb
          obtain ⟨ds, hgrows⟩ := hi.exists_grows hg hc
          have hchain := hvalid.eq_of_getLast? (hi.validChain_of_grows trivial hgrows) hsub
            (hi.mem_append_of_grows hgrows) hafter.separated hlast
            (ValidChain.getLast?_append_singleton ds b)
          obtain ⟨rfl, -⟩ := List.append_inj' hchain rfl
          exact hQ pre now b hpre bs w hgrows
        · rw [recordedBy_of_not_checked (not_exists.mp hc)] at hb
          cases hb

end Blockchain

end Arkos
