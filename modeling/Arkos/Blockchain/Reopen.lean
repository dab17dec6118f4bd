import Arkos.Blockchain.Replay

/-!
# Closing a node and opening it again

A node on disk saves every block it records and, whenever its active chain changes, the whole active
chain and its tip. Opening reads the blocks of the heights up to that of the tip and delivers them
again. So what decides is the height index: it has to lead to the active blocks.

An activation makes it do so. A block that is recorded and not activated is saved all the same, and
takes the entry of its height over from the active block there, if the active chain reaches that
high; the index is then wrong until the next activation. `IndexIntact` follows this along a run, and
`reopen_iff` says that it is exactly what opening again depends on.

## Main definitions

* `Blockchain.Stores`, `Blockchain.Activates`, `Blockchain.IndexIntact`
* `Blockchain.Session` — an open node and its store

## Main results

* `Blockchain.Session.addBlock`, `Blockchain.Session.run`
* `Blockchain.Session.openForNetwork_iff`
* `Blockchain.reopen_iff`, `Blockchain.reopen_loses_tip`
-/

namespace Arkos

variable {C : Crypto} {magic : UInt32} {T : Set ℕ} {g : Block} {hist saved : List Block}

/-- Every block of a valid chain but the first fits into the size limit. -/
theorem ValidChain.serializedSize_le {bs : List Block} (h : ValidChain C magic T g bs) {b : Block}
    (hb : b ∈ bs) : b = g ∨ b.serializedSize ≤ maxBlockBytes := by
  induction h with
  | genesis => exact Or.inl (List.mem_singleton.mp hb)
  | snoc _ _ _ hext ih =>
    rcases List.mem_append.mp hb with hb | hb
    · exact ih hb
    · obtain ⟨p, -, hwf, -⟩ := hext.parent
      exact Or.inr (List.mem_singleton.mp hb ▸ hwf.size_le)

namespace Blockchain

/-! ### Reading a chain -/

theorem loadChain_eq_ok_iff {st : BlockStore} {n : ℕ} {bs : List Block} :
    loadChain st n = .ok bs ↔ bs.length = n + 1 ∧
      ∀ i b, bs[i]? = some b → st.loadBlockByHeight i = .ok (some b) := by
  rw [loadChain, mapM_eq_ok_iff, List.forall₂_iff_get]
  simp only [List.length_range, List.get_eq_getElem, List.getElem_range]
  constructor
  · rintro ⟨hlen, h⟩
    refine ⟨hlen.symm, fun i b hb => ?_⟩
    obtain ⟨hi, rfl⟩ := List.getElem?_eq_some_iff.mp hb
    have hblock := h i (by omega) hi
    rcases hload : st.loadBlockByHeight i with e | _ | c
    · rw [hload] at hblock
      cases hblock
    · rw [hload] at hblock
      cases hblock
    · rw [hload] at hblock
      rw [Except.ok.inj hblock]
  · rintro ⟨hlen, h⟩
    refine ⟨hlen.symm, fun i _ hi => ?_⟩
    rw [h i _ (List.getElem?_eq_getElem hi)]

/-- What a successful loading branch did. -/
theorem reload_eq_ok_iff {clock : ℕ → ℕ} {st : BlockStore} {network tipHash : String}
    {s : Blockchain} :
    reload C clock st network tipHash = .ok s ↔
      ∃ t g rest s', st.loadBlockByHash tipHash = .ok (some t) ∧
        loadChain st t.height = .ok (g :: rest) ∧
        addBlocks C clock 0 (fromGenesisWithMagic C g (some st) regtestMagic) rest = (.ok (), s') ∧
        s = { s' with networkMagic := magicForNetwork network } := by
  rw [reload]
  constructor
  · intro h
    split at h
    · cases h
    · cases h
    next t ht =>
      split at h
      · cases h
      · cases h
      next g rest hload =>
        split at h
        · cases h
        next s' hadd => exact ⟨t, g, rest, s', ht, hload, hadd, (Except.ok.inj h).symm⟩
  · rintro ⟨t, g, rest, s', ht, hload, hadd, rfl⟩
    rw [ht]
    dsimp only
    rw [hload]
    dsimp only
    rw [fromBlocks, fromGenesis, hadd]

/-- What a successful opening did. -/
theorem openForNetwork_eq_ok_iff {fuel : ℕ} {clock : ℕ → ℕ} {st : BlockStore} {network : String}
    {s : Blockchain} :
    openForNetwork C fuel clock st network = .ok s ↔
      (∃ tipHash, st.loadTip = .ok (some tipHash) ∧ reload C clock st network tipHash = .ok s) ∨
      (st.loadTip = .ok none ∧ ∃ g, genesisBlockWithBits C fuel (genesisBits network) = some g ∧
        s = fromGenesisWithMagic C g (some ((st.saveBlock C g).saveTip (g.hashHex C)))
          regtestMagic) := by
  rw [openForNetwork]
  rcases hload : st.loadTip with e | _ | tipHash
  · simp
  · rw [openFresh]
    rcases genesisBlockWithBits C fuel (genesisBits network) with _ | g
    · simp
    · simp [fromGenesis, eq_comm]
  · simp

/-! ### What a call does to the height index -/

/-- The call stores the block. -/
def Stores (C : Crypto) (now : ℕ) (s : Blockchain) (b : Block) : Prop :=
  ∃ w, s.checkBlock C now b = .ok (some w)

/-- The call stores the block, and makes the chain that ends in it the active one. -/
def Activates (C : Crypto) (now : ℕ) (s : Blockchain) (b : Block) : Prop :=
  ∃ w current bs um, s.checkBlock C now b = .ok (some w) ∧
    (s.recordBlock C b w).chainWork.lookup (s.tip.hashHex C) = some current ∧ current < w ∧
    (s.recordBlock C b w).chainToHash (b.hashHex C) = .ok bs ∧ replay C bs = .ok um

/-- **Is the height index right after the calls, if `intact` says whether it is before them?** An
activation makes it right. A block that is stored and not activated leaves it right only above the
tip. -/
def IndexIntact (C : Crypto) : Blockchain → Prop → List Event → Prop
  | _, intact, [] => intact
  | s, intact, .submitTransaction tx :: evs =>
    IndexIntact C (s.step C (.submitTransaction tx)) intact evs
  | s, intact, .addBlock now b :: evs =>
    IndexIntact C (s.step C (.addBlock now b))
      (Activates C now s b ∨ (intact ∧ (Stores C now s b → s.height < b.height))) evs

/-- An open node with the store `st`, to which blocks of `saved` were ever written. The tip on disk
is only asked for its height. -/
structure Session (C : Crypto) (magic : UInt32) (T : Set ℕ) (g : Block) (hist saved : List Block)
    (s : Blockchain) (st : BlockStore) : Prop where
  inv : Inv C magic T g hist s
  store_eq : s.store = some st
  written : st.Written C saved
  sub : ∀ b ∈ hist, b ∈ saved
  block_at : ∀ b ∈ s.blocks, st.blockAt (b.hashHex C) = some (.block b)
  tip_at : ∃ t : Block, st.tipAt = some (.text (t.hashHex C)) ∧
    st.blockAt (t.hashHex C) = some (.block t) ∧ t.height = s.height ∧
    t.serializedSize ≤ maxStoredBlockSize
  genesis_size : g.serializedSize ≤ maxStoredBlockSize

theorem Inv.serializedSize_le {s : Blockchain} (hi : Inv C magic T g hist s)
    (hsize : g.serializedSize ≤ maxStoredBlockSize) {b : Block} (hb : b ∈ s.blocks) :
    b.serializedSize ≤ maxStoredBlockSize := by
  rcases hi.active.serializedSize_le hb with rfl | hle
  · exact hsize
  · exact hle.trans (by decide)

/-- **After an activation the store holds the active chain**, whatever it held before. -/
theorem session_of_persisted (hg : g.height = 0) (hsep : Separated C saved) {s : Blockchain}
    (hi : Inv C magic T g hist s) {st : BlockStore} (hst : st.Written C saved)
    (hsub : ∀ b ∈ hist, b ∈ saved) (hsize : g.serializedSize ≤ maxStoredBlockSize)
    (hstore : s.store = some ((s.blocks.foldl (BlockStore.saveBlock C) st).saveTip
      (s.tip.hashHex C))) :
    ∃ st', Session C magic T g hist saved s st' ∧ st'.Holds C s.blocks := by
  have hblocks : ∀ b ∈ s.blocks, b ∈ saved := fun b hb => hsub b (hi.mem_hist hb)
  have hholds := (BlockStore.holds_foldl_saveBlock (hsep.mono hblocks)
    (fun i b hb => hi.active.height_eq hg hb) st).saveTip (s.tip.hashHex C)
  refine ⟨_, ⟨hi, hstore, .saveTip (hst.foldl hblocks), hsub, hholds.block_at, ?_, hsize⟩, hholds⟩
  exact ⟨s.tip, BlockStore.tipAt_saveTip _ _, hholds.block_at _ s.tip_mem, rfl,
    hi.serializedSize_le hsize s.tip_mem⟩

namespace Session

variable {s : Blockchain} {st : BlockStore}

/-- **A block is stored on the side.** -/
theorem aside (hg : g.height = 0) (hsep : Separated C saved)
    (h : Session C magic T g hist saved s st) {b : Block} {s' : Blockchain}
    (hi : Inv C magic T g (hist ++ [b]) s') (hblocks : s'.blocks = s.blocks)
    (hstore : s'.store = s.store.map fun st => st.saveBlock C b) (hb : b ∈ saved)
    (hfresh : b.hashHex C ∉ s.allBlocks) :
    ∃ st', Session C magic T g (hist ++ [b]) saved s' st' ∧
      (st'.Holds C s'.blocks ↔ st.Holds C s.blocks ∧ s.height < b.height) := by
  have hne : ∀ x ∈ s.blocks, x.hashHex C ≠ b.hashHex C := fun x hx heq =>
    hfresh (heq ▸ Finmap.mem_of_lookup (h.inv.stored x hx))
  have hheight : s'.height = s.height := by
    have := hi.length_blocks hg
    rw [hblocks, h.inv.length_blocks hg] at this
    omega
  obtain ⟨t, htip, hat, htheight, htsize⟩ := h.tip_at
  refine ⟨st.saveBlock C b, ⟨hi, by rw [hstore, h.store_eq]; rfl, .saveBlock h.written hb, ?_, ?_,
    ⟨t, by rwa [BlockStore.tipAt_saveBlock], ?_, by rw [hheight, htheight], htsize⟩,
    h.genesis_size⟩, ?_⟩
  · intro x hx
    rcases List.mem_append.mp hx with hx | hx
    · exact h.sub x hx
    · exact List.mem_singleton.mp hx ▸ hb
  · rw [hblocks]
    intro x hx
    rw [BlockStore.blockAt_saveBlock, if_neg (hne x hx), h.block_at x hx]
  · rw [BlockStore.blockAt_saveBlock]
    split
    · next heq => rw [hsep t (h.written.own hat).2 b hb heq]
    · exact hat
  · rw [hblocks, BlockStore.holds_saveBlock_iff h.block_at hne, h.inv.length_blocks hg,
      Nat.succ_le_iff]

/-- A block that passes the checks activates its chain if it outweighs the tip and the chain
replays. -/
theorem activates_iff (hg : g.height = 0) (h : Session C magic T g hist saved s st) {now : ℕ}
    (hnow : now ∈ T) {b : Block} {bs : List Block} {w : ℕ}
    (hgrows : Grows C magic T g now s b bs w) (hsep : Separated C (hist ++ [b])) :
    Activates C now s b ↔ workOf s.blocks < w ∧ ∃ um, replay C (bs ++ [b]) = .ok um := by
  have hcheck := checkBlock_eq_ok_some_iff.mpr hgrows.checked
  have htip := (h.inv.recordBlock hg hnow hgrows.checked hsep).lookup_tip
  have hwalk := h.inv.chainToHash_recordBlock hg hnow hgrows hsep
  constructor
  · rintro ⟨w', current, bs', um, hcheck', hcurrent, hlt, hwalk', hrep⟩
    obtain rfl := Option.some.inj (Except.ok.inj (hcheck'.symm.trans hcheck))
    obtain rfl := Option.some.inj (hcurrent.symm.trans htip)
    obtain rfl := Except.ok.inj (hwalk'.symm.trans hwalk)
    exact ⟨hlt, um, hrep⟩
  · rintro ⟨hlt, um, hrep⟩
    exact ⟨w, _, _, um, hcheck, htip, hlt, hwalk, hrep⟩

/-- **One call of `add_block`**, and what it does to the height index. -/
theorem addBlock (hg : g.height = 0) (hsep : Separated C saved)
    (h : Session C magic T g hist saved s st) {now : ℕ} (hnow : now ∈ T) {b : Block}
    (hrec : ∀ x ∈ s.recordedBy C (.addBlock now b), x ∈ saved) :
    ∃ st', Session C magic T g (hist ++ s.recordedBy C (.addBlock now b)) saved
        (s.addBlock C now b).2 st' ∧
      (st'.Holds C (s.addBlock C now b).2.blocks ↔
        Activates C now s b ∨
          (st.Holds C s.blocks ∧ (Stores C now s b → s.height < b.height))) := by
  have hsub : ∀ x ∈ hist ++ s.recordedBy C (.addBlock now b), x ∈ saved := fun x hx =>
    (List.mem_append.mp hx).elim (h.sub x) (hrec x)
  have hsep' := hsep.mono hsub
  have hinv := h.inv.addBlock hg hnow (b := b) fun _ => hsep'
  have hout := h.inv.outcome hg hnow hsep'
  generalize (s.addBlock C now b).1 = r at hout
  generalize (s.addBlock C now b).2 = s' at hout hinv ⊢
  -- stored, and not activated
  have haside : ∀ bs w, Grows C magic T g now s b bs w → ¬ Activates C now s b →
      s'.blocks = s.blocks → s'.store = (s.store.map fun st => st.saveBlock C b) →
      ∃ st', Session C magic T g (hist ++ s.recordedBy C (.addBlock now b)) saved s' st' ∧
        (st'.Holds C s'.blocks ↔ Activates C now s b ∨
          (st.Holds C s.blocks ∧ (Stores C now s b → s.height < b.height))) := by
    intro bs w hgrows hnot hblocks hstore
    rw [recordedBy_of_checked hgrows.checked] at hinv hrec ⊢
    obtain ⟨st', hst', hholds⟩ := h.aside hg hsep hinv hblocks hstore
      (hrec b List.mem_cons_self) hgrows.checked.fresh
    refine ⟨st', hst', hholds.trans ?_⟩
    have hstores : Stores C now s b := ⟨w, checkBlock_eq_ok_some_iff.mpr hgrows.checked⟩
    simp only [hnot, hstores, true_imp_iff, false_or]
  -- not stored
  have hsame : (∀ w, ¬ Checked C now s b w) → s' = s →
      ∃ st', Session C magic T g (hist ++ s.recordedBy C (.addBlock now b)) saved s' st' ∧
        (st'.Holds C s'.blocks ↔ Activates C now s b ∨
          (st.Holds C s.blocks ∧ (Stores C now s b → s.height < b.height))) := by
    rintro hnone rfl
    have hnot : ¬ Activates C now s' b := fun ⟨w, _, _, _, hcheck, _⟩ =>
      hnone w (checkBlock_eq_ok_some_iff.mp hcheck)
    have hnotstores : ¬ Stores C now s' b := fun ⟨w, hcheck⟩ =>
      hnone w (checkBlock_eq_ok_some_iff.mp hcheck)
    rw [recordedBy_of_not_checked hnone, List.append_nil]
    refine ⟨st, h, ?_⟩
    simp only [hnot, hnotstores, false_imp_iff, and_true, false_or]
  cases hout with
  | rejected hnone _ => exact hsame hnone rfl
  | known hmem => exact hsame (fun w hw => hw.fresh hmem) rfl
  | side hgrows hle =>
    refine haside _ _ hgrows (fun hact => ?_) (pruneStaleOrphans_blocks _)
      (pruneStaleOrphans_store _)
    rw [h.activates_iff hg hnow hgrows (Inv.separated_of_checked hgrows.checked hsep')] at hact
    omega
  | overflow hgrows _ hrep =>
    refine haside _ _ hgrows (fun hact => ?_) rfl rfl
    rw [h.activates_iff hg hnow hgrows
      (Inv.separated_of_checked hgrows.checked hsep'), hrep] at hact
    obtain ⟨-, um, heq⟩ := hact
    cases heq
  | activated hne hgrows hlt hrep =>
    have hact := (h.activates_iff hg hnow hgrows
      (Inv.separated_of_checked hgrows.checked hsep')).mpr ⟨hlt, _, hrep⟩
    rw [recordedBy_of_checked hgrows.checked] at hinv hrec hsub ⊢
    have hwritten : (st.saveBlock C b).Written C saved :=
      .saveBlock h.written (hrec b List.mem_cons_self)
    obtain ⟨st', hst', hholds⟩ := session_of_persisted hg hsep hinv hwritten hsub h.genesis_size (by
      rw [pruneStaleOrphans_store, pruneStaleOrphans_blocks, pruneStaleOrphans_tip]
      show (s.store.map _).map _ = _
      rw [h.store_eq]
      rfl)
    exact ⟨st', hst', fun _ => Or.inl hact, fun _ => hholds⟩

theorem submitTransaction (h : Session C magic T g hist saved s st) (tx : Transaction) :
    Session C magic T g hist saved (s.submitTransaction C tx).2 st ∧
      (s.submitTransaction C tx).2.blocks = s.blocks := by
  rw [Blockchain.submitTransaction]
  split
  · exact ⟨h, rfl⟩
  · split
    all_goals exact ⟨⟨h.inv.withMempool _, h.store_eq, h.written, h.sub, h.block_at, h.tip_at,
      h.genesis_size⟩, rfl⟩

/-- **A whole session.** -/
theorem run (hg : g.height = 0) (hsep : Separated C saved) {evs : List Event}
    (h : Session C magic T g hist saved s st) (hT : ∀ now b, .addBlock now b ∈ evs → now ∈ T)
    (hrec : ∀ x ∈ recorded C s evs, x ∈ saved) {intact : Prop}
    (hintact : st.Holds C s.blocks ↔ intact) :
    ∃ st', Session C magic T g (hist ++ recorded C s evs) saved (run C s evs) st' ∧
      (st'.Holds C (Blockchain.run C s evs).blocks ↔ IndexIntact C s intact evs) := by
  induction evs generalizing hist s st intact with
  | nil =>
    rw [recorded, List.append_nil]
    exact ⟨st, h, hintact⟩
  | cons e evs ih =>
    have hT' : ∀ now b, .addBlock now b ∈ evs → now ∈ T := fun now b hb =>
      hT now b (List.mem_cons_of_mem _ hb)
    rw [recorded] at hrec ⊢
    rw [← List.append_assoc]
    have hrec' := fun x hx => hrec x (List.mem_append_right _ hx)
    cases e with
    | addBlock now b =>
      obtain ⟨st₁, h₁, hholds⟩ := h.addBlock hg hsep (hT now b List.mem_cons_self) fun x hx =>
        hrec x (List.mem_append_left _ hx)
      rw [hintact] at hholds
      exact ih h₁ hT' hrec' hholds
    | submitTransaction tx =>
      obtain ⟨h₁, hblocks⟩ := h.submitTransaction tx
      rw [recordedBy, List.append_nil]
      exact ih h₁ hT' hrec' (by rw [hblocks]; exact hintact)

/-- **Opening a store that holds the active chain** yields it again, at any clock that is not
behind. -/
theorem openForNetwork_of_holds (hg : g.height = 0)
    (h : Session C regtestMagic T g hist saved s st) (hholds : st.Holds C s.blocks) (fuel : ℕ)
    {clock : ℕ → ℕ} (hclock : ∀ i, ∀ t ∈ T, t ≤ clock i) (network : String) :
    ∃ s', openForNetwork C fuel clock st network = .ok s' ∧ s'.blocks = s.blocks ∧
      s'.utxoSet = s.utxoSet ∧ s'.totalMinted = s.totalMinted := by
  obtain ⟨t, htip, htat, htheight, htsize⟩ := h.tip_at
  have hsepblocks : Separated C s.blocks := h.inv.separated.mono fun b hb => h.inv.mem_hist hb
  obtain ⟨s', hadd, -, hblocks, hutxo, hminted⟩ := addBlocks_of_validChain hg (some st) hclock
    h.inv.active hsepblocks h.inv.replay_eq 0
  have hcons : s.blocks = g :: s.blocks.tail := by
    obtain ⟨l, hl⟩ := List.head?_eq_some_iff.mp h.inv.active.head?_eq
    rw [hl]
    rfl
  have hload : loadChain st t.height = .ok (g :: s.blocks.tail) := by
    rw [← hcons]
    refine loadChain_eq_ok_iff.mpr ⟨by rw [h.inv.length_blocks hg, htheight], fun i b hb => ?_⟩
    have hmem := List.mem_of_getElem? hb
    rw [BlockStore.loadBlockByHeight_of_heightAt (hholds.height_at i b hb)]
    exact BlockStore.loadBlockByHash_of_blockAt (hholds.block_at b hmem)
      (h.inv.serializedSize_le h.genesis_size hmem)
  refine ⟨{ s' with networkMagic := magicForNetwork network }, ?_, hblocks, hutxo, hminted⟩
  refine openForNetwork_eq_ok_iff.mpr (Or.inl ⟨_, BlockStore.loadTip_of_tipAt htip, ?_⟩)
  exact reload_eq_ok_iff.mpr ⟨t, g, s.blocks.tail, s',
    BlockStore.loadBlockByHash_of_blockAt htat htsize, hload, hadd, rfl⟩

/-- The blocks that opening reads, whether or not the chain they are for is among them. -/
theorem level_of_loadChain (hsep : Separated C saved) (hst : st.Written C saved) {n : ℕ}
    {bs : List Block} (hload : loadChain st n = .ok bs) {i : ℕ} {b : Block} (hb : bs[i]? = some b) :
    b.height = i ∧ b ∈ saved ∧ st.heightAt i = some (.text (b.hashHex C)) ∧
      st.blockAt (b.hashHex C) = some (.block b) ∧ b.serializedSize ≤ maxStoredBlockSize := by
  have hread := (loadChain_eq_ok_iff.mp hload).2 i b hb
  rw [BlockStore.loadBlockByHeight] at hread
  split at hread
  · cases hread
  next hash hat =>
    obtain ⟨c, hc, hheight, hmem, hcat⟩ := hst.level hsep hat
    obtain rfl := Record.text.inj hc
    rw [BlockStore.loadBlockByHash, show st.db.lookup _ = _ from hcat] at hread
    dsimp only at hread
    split at hread
    · cases hread
    next hsize =>
      obtain rfl := Option.some.inj (Except.ok.inj hread)
      exact ⟨hheight, hmem, hat, hcat, Nat.not_lt.mp hsize⟩
  · cases hread

/-- **A store that opens to the active chain holds it.** Every block of the opened chain was read at
its own height. -/
theorem holds_of_openForNetwork (hg : g.height = 0) (hsep : Separated C saved)
    (h : Session C regtestMagic T g hist saved s st) {fuel : ℕ} {clock : ℕ → ℕ} {network : String}
    {s' : Blockchain} (hopen : openForNetwork C fuel clock st network = .ok s')
    (hblocks : s'.blocks = s.blocks) : st.Holds C s.blocks := by
  obtain ⟨t, htip, -⟩ := h.tip_at
  rcases openForNetwork_eq_ok_iff.mp hopen with ⟨tipHash, -, hreload⟩ | ⟨hnone, -⟩
  · obtain ⟨t', g', rest, s'', -, hload, hadd, rfl⟩ := reload_eq_ok_iff.mp hreload
    have hlevel := fun (i : ℕ) (b : Block) (hb : (g' :: rest)[i]? = some b) =>
      level_of_loadChain hsep h.written hload hb
    have hsep' : Separated C (g' :: rest) := hsep.mono fun x hx => by
      obtain ⟨i, hi⟩ := List.getElem?_of_mem hx
      exact (hlevel i x hi).2.1
    obtain ⟨hist', hread, hinv⟩ := inv_of_addBlocks (hlevel 0 g' rfl).1 hsep' hadd
    refine ⟨h.block_at, fun i b hb => ?_⟩
    have hmem : b ∈ g' :: rest := hread b (hinv.mem_hist (hblocks ▸ List.mem_of_getElem? hb))
    obtain ⟨j, hj⟩ := List.getElem?_of_mem hmem
    obtain ⟨hheight, -, hat, -⟩ := hlevel j b hj
    rw [h.inv.active.height_eq hg hb] at hheight
    rwa [hheight]
  · rw [BlockStore.loadTip_of_tipAt htip] at hnone
    cases hnone

end Session

/-! ### Opening starts a session -/

/-- The last active block is the only one at its height. -/
theorem Inv.eq_tip (hg : g.height = 0) {s : Blockchain} (hi : Inv C magic T g hist s) {p : Block}
    (hp : p ∈ s.blocks) (hheight : p.height + 1 = s.blocks.length) : p = s.tip := by
  obtain ⟨i, hget⟩ := List.getElem?_of_mem hp
  have hpos := hi.active.height_eq hg hget
  have hlast := s.getLast?_blocks
  rw [List.getLast?_eq_getElem?, ← hheight, Nat.add_sub_cancel, hpos, hget] at hlast
  exact Option.some.inj hlast

/-- **On a node without side branches, a block of the next height is refused
or becomes the tip.** -/
theorem Inv.addBlock_of_ok (hg : g.height = 0) {s : Blockchain} (hi : Inv C magic T g s.blocks s)
    {now : ℕ} (hnow : now ∈ T) {b : Block} (hheight : b.height = s.blocks.length)
    (hsep : Separated C (s.blocks ++ [b])) (hok : (s.addBlock C now b).1 = .ok ()) :
    ∃ u m, s.addBlock C now b = (.ok (), s.extendTip C b u m) ∧
      Inv C magic T g (s.blocks ++ [b]) (s.extendTip C b u m) := by
  have hfresh : b.hashHex C ∉ s.allBlocks := by
    intro hmem
    obtain ⟨x, hx⟩ := Finmap.mem_iff.mp hmem
    obtain ⟨hhash, hxmem⟩ := hi.own _ x hx
    obtain rfl := hsep x (List.mem_append_left _ hxmem) b
      (List.mem_append_right _ List.mem_cons_self) hhash
    obtain ⟨j, hget⟩ := List.getElem?_of_mem hxmem
    have hj := (List.getElem?_eq_some_iff.mp hget).1
    rw [← hi.active.height_eq hg hget] at hj
    omega
  obtain ⟨w, hchecked⟩ := (checked_of_addBlock_ok hok).resolve_left hfresh
  have hprev : b.header.prevHash = s.tip.hashHex C := by
    obtain ⟨bs, hgrows⟩ := hi.exists_grows hg hchecked
    obtain ⟨p, hp, hwf, hph⟩ := hgrows.step.parent
    have hpmem := hi.mem_hist_of_grows hgrows p (List.mem_of_getLast? hp)
    rw [hwf.prevHash_eq, hi.eq_tip hg hpmem (by omega)]
  obtain ⟨-, u, m, -, hstep⟩ := hi.addBlock_tip_of_ok hg hnow hprev hfresh hsep hok
  have hpres := hi.addBlock (b := b) hg hnow
  rw [recordedBy_of_checked hchecked, hstep] at hpres
  exact ⟨u, m, hstep, hpres fun _ => hsep⟩

/-- **Blocks of ascending heights that are all accepted form one chain**, and leave a store that
holds it. -/
theorem session_of_addBlocks (hg : g.height = 0) (hsep : Separated C saved)
    (hsize : g.serializedSize ≤ maxStoredBlockSize) {clock : ℕ → ℕ} (hclock : ∀ i, clock i ∈ T)
    {s s' : Blockchain} (hi : Inv C magic T g s.blocks s) {st : BlockStore}
    (hst : s.store = some st) (hwritten : st.Written C saved) {rest : List Block}
    (hsub : ∀ b ∈ s.blocks ++ rest, b ∈ saved)
    (hheight : ∀ i b, rest[i]? = some b → b.height = s.blocks.length + i) {i : ℕ}
    (hnil : rest = [] → Session C magic T g s.blocks saved s st ∧ st.Holds C s.blocks)
    (hadd : addBlocks C clock i s rest = (.ok (), s')) :
    s'.blocks = s.blocks ++ rest ∧
      ∃ st', Session C magic T g s'.blocks saved s' st' ∧ st'.Holds C s'.blocks := by
  induction rest generalizing s st i with
  | nil =>
    cases hadd
    exact ⟨(List.append_nil _).symm, st, hnil rfl⟩
  | cons b rest ih =>
    rw [addBlocks] at hadd
    rcases hone : s.addBlock C (clock i) b with ⟨e | ⟨⟩, s₁⟩
    · rw [hone] at hadd
      cases hadd
    · rw [hone] at hadd
      have hsub' : ∀ x ∈ s.blocks ++ [b], x ∈ saved := fun x hx => hsub x (by
        rw [List.append_cons]
        exact List.mem_append_left _ hx)
      obtain ⟨u, m, hstep, hinv⟩ := hi.addBlock_of_ok hg (hclock i) (hheight 0 b rfl)
        (hsep.mono hsub') (by rw [hone])
      obtain rfl : s₁ = s.extendTip C b u m := (Prod.mk.inj (hone.symm.trans hstep)).2
      have hblocks := extendTip_blocks (C := C) s b u m
      have htip : (s.extendTip C b u m).tip = b := Option.some.inj
        ((getLast?_blocks _).symm.trans (hblocks ▸ ValidChain.getLast?_append_singleton _ _))
      rw [← hblocks] at hinv
      -- the last call wrote the whole chain
      obtain ⟨st₁, hsession, hholds⟩ := session_of_persisted hg hsep hinv
        (.saveBlock hwritten (hsub' b (List.mem_append_right _ List.mem_cons_self)))
        (by rwa [hblocks]) hsize (by
          rw [extendTip_store, hst, htip, hblocks]
          rfl)
      have hrest := ih hinv hsession.store_eq hsession.written
        (fun x hx => hsub x (by rwa [hblocks, ← List.append_cons] at hx))
        (fun j c hc => by
          rw [hblocks, List.length_append, List.length_singleton]
          have := hheight (j + 1) c hc
          omega)
        (fun _ => ⟨hsession, hholds⟩) hadd
      rw [hblocks, ← List.append_cons] at hrest
      exact hrest

/-- A genesis block is small. -/
theorem serializedSize_genesis {fuel : ℕ} {bits : UInt32} {g : Block}
    (h : genesisBlockWithBits C fuel bits = some g) : g.serializedSize ≤ maxStoredBlockSize := by
  obtain ⟨header, hmine, rfl⟩ := Option.map_eq_some_iff.mp h
  obtain ⟨-, -, hprev, hmerkle, -⟩ := mineBlockHeader_spec hmine
  obtain ⟨x, hx⟩ := exists_merkleRoot_eq (C := C) (List.cons_ne_nil genesisCoinbase [])
  have htx : genesisCoinbase.serializedSize = 269 := by decide +kernel
  have hzero : (utf8 zeroHashHex).length = 64 := by decide +kernel
  simp only [genesisHeader] at hprev hmerkle
  rw [Block.serializedSize_eq (by rwa [hprev]) (by rw [hmerkle, hx, length_utf8_hashToHex])]
  simp only [List.map_cons, List.map_nil, List.sum_cons, List.sum_nil, htx, maxStoredBlockSize]
  omega

/-- **Opening starts a session** on a store that holds the chain, whatever was saved at the path
before. -/
theorem session_of_openForNetwork {st₀ : BlockStore} (hst : st₀.Written C saved) {fuel : ℕ}
    {clock : ℕ → ℕ} (hclock : ∀ i, clock i ∈ T) {network : String}
    (hnetwork : magicForNetwork network = regtestMagic) {s : Blockchain}
    (hopen : openForNetwork C fuel clock st₀ network = .ok s)
    (hsep : Separated C saved) (hsub : ∀ b ∈ s.blocks, b ∈ saved) :
    ∃ g st, g.height = 0 ∧ Session C regtestMagic T g s.blocks saved s st ∧
      st.Holds C s.blocks := by
  rcases openForNetwork_eq_ok_iff.mp hopen with ⟨tipHash, htip, hreload⟩ | ⟨-, g, hgen, rfl⟩
  · obtain ⟨t, g, rest, s', ht, hload, hadd, rfl⟩ := reload_eq_ok_iff.mp hreload
    have hlevel := fun (i : ℕ) (b : Block) (hb : (g :: rest)[i]? = some b) =>
      Session.level_of_loadChain hsep hst hload hb
    obtain ⟨hheight, -, hat, hgat, hgsize⟩ := hlevel 0 g rfl
    have hsaved : ∀ b ∈ g :: rest, b ∈ saved := fun b hb => by
      obtain ⟨i, hi⟩ := List.getElem?_of_mem hb
      exact (hlevel i b hi).2.1
    have hbase : Inv C regtestMagic T g [g] (fromGenesisWithMagic C g (some st₀) regtestMagic) :=
      inv_fromGenesisWithMagic (some st₀)
    obtain ⟨htat, htsize⟩ := BlockStore.blockAt_of_loadBlockByHash ht
    -- only the genesis was stored: nothing is written, and the tip is at height zero already
    have hnil : rest = [] → Session C regtestMagic T g [g] saved
        (fromGenesisWithMagic C g (some st₀) regtestMagic) st₀ ∧ st₀.Holds C [g] := by
      intro hnil
      have hlen := (loadChain_eq_ok_iff.mp hload).1
      rw [hnil, List.length_singleton] at hlen
      obtain rfl := (hst.own htat).1
      refine ⟨⟨hbase, rfl, hst, fun b hb => List.mem_singleton.mp hb ▸ hsaved g List.mem_cons_self,
        fun b hb => List.mem_singleton.mp hb ▸ hgat,
        ⟨t, BlockStore.tipAt_of_loadTip htip, htat, ?_, htsize⟩, hgsize⟩,
        fun b hb => List.mem_singleton.mp hb ▸ hgat, fun i b hb => ?_⟩
      · show t.height = g.height
        omega
      · obtain ⟨hi, rfl⟩ := List.getElem?_eq_some_iff.mp hb
        obtain rfl : i = 0 := Nat.lt_one_iff.mp hi
        exact hat
    obtain ⟨hblocks, st, hsession, hholds⟩ := session_of_addBlocks hheight hsep hgsize hclock hbase
      rfl hst hsaved
      (fun i b hb => by rw [(hlevel (i + 1) b hb).1]; exact Nat.add_comm i 1) hnil hadd
    have hmagic : { s' with networkMagic := magicForNetwork network } = s' := by
      rw [hnetwork, ← hsession.inv.magic_eq]
    rw [hmagic]
    exact ⟨g, st, hheight, hsession, hholds⟩
  · have hheight := (genesisBlockWithBits_spec hgen).1
    have hgsaved : g ∈ saved := hsub g List.mem_cons_self
    have hinv : Inv C regtestMagic T g [g] (fromGenesisWithMagic C g
        (some ((st₀.saveBlock C g).saveTip (g.hashHex C))) regtestMagic) :=
      inv_fromGenesisWithMagic _
    obtain ⟨st, hsession, hholds⟩ := session_of_persisted hheight hsep hinv hst
      (fun b hb => List.mem_singleton.mp hb ▸ hgsaved) (serializedSize_genesis hgen) rfl
    exact ⟨g, st, hheight, hsession, hholds⟩

/-- **When a node can be closed and opened again.** For a node opened on a path with any earlier
contents, and any calls, opening it again at a clock that is not behind yields the same active chain
with the same unspent outputs and minted total if and only if the height index is intact: no block
was stored at or below the height of the tip without being activated, after the last activation. -/
theorem reopen_iff (C : Crypto) (saved : List Block) (st₀ : BlockStore) (hst : st₀.Written C saved)
    (fuel : ℕ) (clock₀ : ℕ → ℕ) (s₀ : Blockchain)
    (hopen : openForNetwork C fuel clock₀ st₀ "regtest" = .ok s₀) (evs : List Event)
    (hsep : Separated C (saved ++ s₀.blocks ++ recorded C s₀ evs)) (fuel' : ℕ) (clock : ℕ → ℕ)
    (hclock₀ : ∀ i j, clock₀ i ≤ clock j)
    (hclock : ∀ now b, .addBlock now b ∈ evs → ∀ j, now ≤ clock j) :
    (∃ st s, (run C s₀ evs).store = some st ∧
        openForNetwork C fuel' clock st "regtest" = .ok s ∧ s.blocks = (run C s₀ evs).blocks ∧
        s.utxoSet = (run C s₀ evs).utxoSet ∧ s.totalMinted = (run C s₀ evs).totalMinted) ↔
      IndexIntact C s₀ True evs := by
  have hregtest : magicForNetwork "regtest" = regtestMagic := by decide
  -- the readings that are not after the clock of the second opening
  obtain ⟨g, st₁, hg, hsession, hholds⟩ := session_of_openForNetwork
    (T := {t | ∀ j, t ≤ clock j}) (hst.mono fun b hb => List.mem_append_left _
      (List.mem_append_left _ hb)) hclock₀ hregtest hopen hsep fun b hb =>
        List.mem_append_left _ (List.mem_append_right _ hb)
  obtain ⟨st, hsession', hiff⟩ := hsession.run hg hsep (fun now b hb => hclock now b hb)
    (fun x hx => List.mem_append_right _ hx) (iff_true_intro hholds)
  rw [← hiff]
  constructor
  · rintro ⟨st', s, hstore, hopen', hblocks, -⟩
    obtain rfl : st = st' := Option.some.inj (hsession'.store_eq.symm.trans hstore)
    exact hsession'.holds_of_openForNetwork hg hsep hopen' hblocks
  · intro hst'
    obtain ⟨s, hopen', hsame⟩ := hsession'.openForNetwork_of_holds hg hst' fuel'
      (fun i t ht => ht i) "regtest"
    exact ⟨st, s, hsession'.store_eq, hopen', hsame⟩

/-- The state after opening a fresh path. -/
theorem openForNetwork_sample :
    openForNetwork Crypto.sample 1 (fun _ => sampleNow) .empty "regtest" =
      .ok (fromGenesisWithMagic Crypto.sample sampleGenesis
        (some ((BlockStore.empty.saveBlock Crypto.sample sampleGenesis).saveTip
          (sampleGenesis.hashHex Crypto.sample))) regtestMagic) := by
  refine openForNetwork_eq_ok_iff.mpr (Or.inr ⟨rfl, sampleGenesis, ?_, rfl⟩)
  rw [show genesisBits "regtest" = regtestGenesisBits by decide]
  exact genesisBlockWithBits_sample

/-- A node with one block on top of the genesis can be closed and opened again. -/
theorem reopen_iff_idleBlock :
    ∃ s₀ st s, openForNetwork Crypto.sample 1 (fun _ => sampleNow) .empty "regtest" = .ok s₀ ∧
      (run Crypto.sample s₀ [.addBlock sampleNow (idleBlock 0)]).store = some st ∧
      openForNetwork Crypto.sample 1 (fun _ => sampleNow) st "regtest" = .ok s ∧
      s.blocks = (run Crypto.sample s₀ [.addBlock sampleNow (idleBlock 0)]).blocks := by
  have hsep : Separated Crypto.sample [sampleGenesis, idleBlock 0] := by
    rw [Separated]
    decide +kernel
  have hmem : ∀ s₀ : Blockchain, s₀.blocks = [sampleGenesis] →
      ∀ b ∈ [] ++ s₀.blocks ++ recorded Crypto.sample s₀ [.addBlock sampleNow (idleBlock 0)],
        b ∈ [sampleGenesis, idleBlock 0] := by
    intro s₀ hs₀ b hb
    rw [hs₀, List.nil_append] at hb
    rcases List.mem_append.mp hb with hb | hb
    · exact List.mem_singleton.mp hb ▸ List.mem_cons_self
    · obtain ⟨now, hev⟩ := exists_event_of_mem_recorded hb
      obtain ⟨-, rfl⟩ := Event.addBlock.inj (List.mem_singleton.mp hev)
      exact List.mem_cons_of_mem _ List.mem_cons_self
  have hclock : ∀ now b, Event.addBlock now b ∈ [.addBlock sampleNow (idleBlock 0)] →
      ∀ _ : ℕ, now ≤ sampleNow := by
    intro now b hev _
    obtain ⟨rfl, -⟩ := Event.addBlock.inj (List.mem_singleton.mp hev)
    exact le_rfl
  obtain ⟨st, s, hstore, hopen, hblocks, -⟩ := (reopen_iff Crypto.sample [] .empty .empty 1
    (fun _ => sampleNow) _ openForNetwork_sample [.addBlock sampleNow (idleBlock 0)]
    (hsep.mono (hmem _ rfl)) 1 (fun _ => sampleNow) (fun _ _ => le_rfl) hclock).mpr
      (Or.inr ⟨trivial, fun _ => Nat.zero_lt_one⟩)
  exact ⟨_, st, s, openForNetwork_sample, hstore, hopen, hblocks⟩

/-- **A side block is enough to lose the tip.** A block of height 1 is active, and another one of
height 1 arrives and stays on the side. Opened again, the node has the second one. -/
theorem reopen_loses_tip :
    ∃ s₀ st s, openForNetwork Crypto.sample 1 (fun _ => sampleNow) .empty "regtest" = .ok s₀ ∧
      (run Crypto.sample s₀
        [.addBlock sampleNow (idleBlock 0), .addBlock sampleNow rivalBlock]).store = some st ∧
      openForNetwork Crypto.sample 1 (fun _ => sampleNow) st "regtest" = .ok s ∧
      (run Crypto.sample s₀ [.addBlock sampleNow (idleBlock 0),
        .addBlock sampleNow rivalBlock]).blocks = [sampleGenesis, idleBlock 0] ∧
      s.blocks = [sampleGenesis, rivalBlock] ∧ idleBlock 0 ≠ rivalBlock := by
  have hrun : (match (run Crypto.sample (fromGenesisWithMagic Crypto.sample sampleGenesis
      (some ((BlockStore.empty.saveBlock Crypto.sample sampleGenesis).saveTip
        (sampleGenesis.hashHex Crypto.sample))) regtestMagic)
      [.addBlock sampleNow (idleBlock 0), .addBlock sampleNow rivalBlock]).store with
    | none => false
    | some st =>
      match openForNetwork Crypto.sample 1 (fun _ => sampleNow) st "regtest" with
      | .error _ => false
      | .ok s => decide (s.blocks = [sampleGenesis, rivalBlock])) = true := by
    decide +kernel
  have hblocks : (run Crypto.sample (fromGenesisWithMagic Crypto.sample sampleGenesis
      (some ((BlockStore.empty.saveBlock Crypto.sample sampleGenesis).saveTip
        (sampleGenesis.hashHex Crypto.sample))) regtestMagic)
      [.addBlock sampleNow (idleBlock 0), .addBlock sampleNow rivalBlock]).blocks =
        [sampleGenesis, idleBlock 0] := by
    decide +kernel
  split at hrun
  · cases hrun
  next st hst =>
    split at hrun
    · cases hrun
    next s hs =>
      exact ⟨_, st, s, openForNetwork_sample, hst, hs, hblocks, of_decide_eq_true hrun,
        by decide +kernel⟩

end Blockchain

end Arkos
