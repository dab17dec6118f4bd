import Arkos.Blockchain.Reopen

/-!
# Crashes between two writes

`add_block` writes to the disk in several puts: two for the block it records, and, when the block
activates a chain, two for every block of that chain and a last one for the tip. The table keeps
each put whole and keeps their order; nothing groups them. A node that dies on the way leaves a disk
with the first of them.

Such a disk is still read by following the height index up to the height of the stored tip. Writing
a chain that begins with the active one changes no entry that is read, and the last put moves all of
it into view at once. Any other activation rewrites entries below the old tip first.

## Main definitions

* `BlockStore.Put`, `BlockStore.puts`, `Blockchain.addBlockPuts` — the puts of a call, in order
* `BlockStore.Shows` — the chain that opening a disk would read
* `BlockStore.Harmless` — a put that keeps it

## Main results

* `Blockchain.store_addBlock` — together the puts are what the call does to the disk
* `BlockStore.Shows.openForNetwork` — a disk that shows a valid chain opens to it
* `Blockchain.crash_safe_iff` — when every crash leaves the old chain or the new one
-/

namespace Arkos

namespace BlockStore

/-- A put: a key and a value. -/
abbrev Put := String × Record

/-- One put. -/
def put (st : BlockStore) (p : Put) : BlockStore := ⟨st.db.insert p.1 p.2⟩

/-- Puts, in their order. -/
def puts (st : BlockStore) (ps : List Put) : BlockStore := ps.foldl put st

section

variable (C : Crypto)

/-- The puts of `save_block`. -/
def saveBlockPuts (b : Block) : List Put :=
  [(blockKey (b.hashHex C), .block b), (heightKey b.height, .text (b.hashHex C))]

/-- The puts that save a chain. -/
def saveChainPuts (bs : List Block) : List Put := bs.flatMap (saveBlockPuts C)

end

/-- The put of `save_tip`. -/
def saveTipPut (hash : String) : Put := (tipKey, .text hash)

variable {C : Crypto} {st : BlockStore}

@[simp] theorem puts_nil (st : BlockStore) : st.puts [] = st := rfl

theorem puts_append (st : BlockStore) (ps qs : List Put) :
    st.puts (ps ++ qs) = (st.puts ps).puts qs := List.foldl_append

@[simp] theorem puts_saveBlockPuts (st : BlockStore) (b : Block) :
    st.puts (saveBlockPuts C b) = st.saveBlock C b := rfl

theorem puts_saveChainPuts (bs : List Block) : ∀ st : BlockStore,
    st.puts (saveChainPuts C bs) = bs.foldl (saveBlock C) st := by
  induction bs with
  | nil => exact fun _ => rfl
  | cons b bs ih =>
    intro st
    rw [saveChainPuts, List.flatMap_cons, puts_append]
    exact ih _

/-! ### One put seen from every kind of key -/

theorem blockAt_put (st : BlockStore) (p : Put) (hash : String) :
    (st.put p).blockAt hash = if blockKey hash = p.1 then some p.2 else st.blockAt hash :=
  Finmap.lookup_insert_eq ..

theorem heightAt_put (st : BlockStore) (p : Put) (n : ℕ) :
    (st.put p).heightAt n = if heightKey n = p.1 then some p.2 else st.heightAt n :=
  Finmap.lookup_insert_eq ..

theorem tipAt_put (st : BlockStore) (p : Put) :
    (st.put p).tipAt = if tipKey = p.1 then some p.2 else st.tipAt :=
  Finmap.lookup_insert_eq ..

/-! ### What a disk shows -/

/-- Opening the disk would read `bs`: the height index leads to it, and the tip on disk is some
block of the height of its last. -/
structure Shows (C : Crypto) (saved : List Block) (st : BlockStore) (bs : List Block) : Prop where
  holds : st.Holds C bs
  tip : ∃ t ∈ saved, st.tipAt = some (.text (t.hashHex C)) ∧
    st.blockAt (t.hashHex C) = some (.block t) ∧ t.height + 1 = bs.length ∧
    t.serializedSize ≤ maxStoredBlockSize

/-- A put that does not change what is read of `bs`: a block under its own hash, an entry of the
height index that is right for `bs` or beyond it, the tip of `bs`. -/
inductive Harmless (C : Crypto) (saved bs : List Block) : Put → Prop
  | block {x} : x ∈ saved → Harmless C saved bs (blockKey (x.hashHex C), .block x)
  | height {x} : x ∈ bs ∨ bs.length ≤ x.height →
      Harmless C saved bs (heightKey x.height, .text (x.hashHex C))
  | tip {x} : x ∈ bs → x.height + 1 = bs.length → Harmless C saved bs (saveTipPut (x.hashHex C))

variable {saved bs : List Block}

/-- **One put.** -/
theorem Shows.put (hsep : Separated C saved) (hsub : ∀ x ∈ bs, x ∈ saved)
    (hlevel : ∀ (i : ℕ) (b : Block), bs[i]? = some b → b.height = i)
    (hsize : ∀ x ∈ bs, x.serializedSize ≤ maxStoredBlockSize) (h : Shows C saved st bs) {p : Put}
    (hp : Harmless C saved bs p) : Shows C saved (st.put p) bs := by
  obtain ⟨hholds, t, ht, htip, htat, htheight, htsize⟩ := h
  cases hp with
  | @block x hx =>
    -- the block under a hash of the chain is the same block again
    have hat : ∀ y ∈ saved, st.blockAt (y.hashHex C) = some (.block y) →
        (st.put (blockKey (x.hashHex C), .block x)).blockAt (y.hashHex C) = some (.block y) := by
      intro y hy hyat
      rw [blockAt_put]
      split
      · next heq => rw [hsep y hy x hx (blockKey_inj heq)]
      · exact hyat
    refine ⟨⟨fun b hb => hat b (hsub b hb) (hholds.block_at b hb), fun i b hb => ?_⟩, t, ht, ?_,
      hat t ht htat, htheight, htsize⟩
    · rw [heightAt_put, if_neg (blockKey_ne_heightKey _ _).symm]
      exact hholds.height_at i b hb
    · rw [tipAt_put, if_neg (tipKey_ne_blockKey _), htip]
  | @height x hx =>
    refine ⟨⟨fun b hb => ?_, fun i b hb => ?_⟩, t, ht, ?_, ?_, htheight, htsize⟩
    · rw [blockAt_put, if_neg (blockKey_ne_heightKey _ _), hholds.block_at b hb]
    · rw [heightAt_put]
      split
      · next heq =>
        obtain rfl := heightKey_inj heq
        have hi := (List.getElem?_eq_some_iff.mp hb).1
        obtain ⟨j, hj⟩ := List.getElem?_of_mem (hx.resolve_right (by omega))
        rw [hlevel j x hj, hj] at hb
        rw [Option.some.inj hb]
      · exact hholds.height_at i b hb
    · rw [tipAt_put, if_neg (tipKey_ne_heightKey _), htip]
    · rw [blockAt_put, if_neg (blockKey_ne_heightKey _ _), htat]
  | @tip x hx hlast =>
    refine ⟨⟨fun b hb => ?_, fun i b hb => ?_⟩, x, hsub x hx, ?_, ?_, hlast, hsize x hx⟩
    · rw [blockAt_put, saveTipPut, if_neg (tipKey_ne_blockKey _).symm, hholds.block_at b hb]
    · rw [heightAt_put, saveTipPut, if_neg (tipKey_ne_heightKey _).symm]
      exact hholds.height_at i b hb
    · rw [tipAt_put, saveTipPut, if_pos rfl]
    · rw [blockAt_put, saveTipPut, if_neg (tipKey_ne_blockKey _).symm, hholds.block_at x hx]

/-- **Any number of puts.** -/
theorem Shows.puts (hsep : Separated C saved) (hsub : ∀ x ∈ bs, x ∈ saved)
    (hlevel : ∀ (i : ℕ) (b : Block), bs[i]? = some b → b.height = i)
    (hsize : ∀ x ∈ bs, x.serializedSize ≤ maxStoredBlockSize) {ps : List Put} :
    ∀ {st : BlockStore}, Shows C saved st bs → (∀ p ∈ ps, Harmless C saved bs p) →
      Shows C saved (st.puts ps) bs := by
  induction ps with
  | nil => exact fun h _ => h
  | cons p ps ih =>
    intro st h hps
    exact ih (h.put hsep hsub hlevel hsize (hps p List.mem_cons_self)) fun q hq =>
      hps q (List.mem_cons_of_mem _ hq)

theorem harmless_saveBlockPuts {x : Block} (hx : x ∈ saved) (hpos : x ∈ bs ∨ bs.length ≤ x.height)
    {p : Put} (hp : p ∈ saveBlockPuts C x) : Harmless C saved bs p := by
  simp only [saveBlockPuts, List.mem_cons, List.not_mem_nil, or_false] at hp
  rcases hp with rfl | rfl
  · exact .block hx
  · exact .height hpos

theorem harmless_saveChainPuts {bs' : List Block} (hsub : ∀ x ∈ bs', x ∈ saved)
    (hpos : ∀ x ∈ bs', x ∈ bs ∨ bs.length ≤ x.height) {p : Put} (hp : p ∈ saveChainPuts C bs') :
    Harmless C saved bs p := by
  obtain ⟨x, hx, hpx⟩ := List.mem_flatMap.mp hp
  exact harmless_saveBlockPuts (hsub x hx) (hpos x hx) hpx

/-- A block of a longer chain is in its beginning or above it. -/
theorem mem_or_le_of_isPrefix {bs' : List Block} (hpre : bs <+: bs')
    (hlevel : ∀ (i : ℕ) (b : Block), bs'[i]? = some b → b.height = i) {x : Block} (hx : x ∈ bs') :
    x ∈ bs ∨ bs.length ≤ x.height := by
  obtain ⟨rest, rfl⟩ := hpre
  rcases List.mem_append.mp hx with hbs | hrest
  · exact Or.inl hbs
  · obtain ⟨i, hi⟩ := List.getElem?_of_mem hrest
    refine Or.inr ?_
    rw [hlevel (bs.length + i) x (by rw [List.getElem?_append_right (by omega)]; simpa using hi)]
    omega

/-- A block stays under its hash when other blocks are saved. -/
theorem blockAt_saveBlock_of_blockAt (hsep : Separated C saved) {b x : Block} (hb : b ∈ saved)
    (hx : x ∈ saved) (hat : st.blockAt (x.hashHex C) = some (.block x)) :
    (st.saveBlock C b).blockAt (x.hashHex C) = some (.block x) := by
  rw [blockAt_saveBlock]
  split
  · next heq => rw [hsep x hx b hb heq]
  · exact hat

theorem blockAt_foldl_saveBlock (hsep : Separated C saved) {x : Block} (hx : x ∈ saved) :
    ∀ {st : BlockStore}, (∀ b ∈ bs, b ∈ saved) → st.blockAt (x.hashHex C) = some (.block x) →
      (bs.foldl (saveBlock C) st).blockAt (x.hashHex C) = some (.block x) := by
  induction bs with
  | nil => exact fun _ hat => hat
  | cons b bs ih =>
    intro st hsub hat
    exact ih (fun y hy => hsub y (List.mem_cons_of_mem _ hy))
      (blockAt_saveBlock_of_blockAt hsep (hsub b List.mem_cons_self) hx hat)

theorem tipAt_foldl_saveBlock (bs : List Block) : ∀ st : BlockStore,
    (bs.foldl (saveBlock C) st).tipAt = st.tipAt := by
  induction bs with
  | nil => exact fun _ => rfl
  | cons b bs ih =>
    intro st
    rw [List.foldl_cons, ih, tipAt_saveBlock]

/-- The first puts of a chain save its first blocks. -/
theorem take_saveChainPuts (bs : List Block) (ps : List Put) : ∀ {j : ℕ}, j ≤ bs.length →
    (saveChainPuts C bs ++ ps).take (2 * j) = saveChainPuts C (bs.take j) := by
  induction bs with
  | nil =>
    intro j hj
    obtain rfl := Nat.le_zero.mp hj
    rfl
  | cons b bs ih =>
    intro j hj
    cases j with
    | zero => rfl
    | succ j =>
      have hrest := ih (Nat.le_of_succ_le_succ hj)
      rw [Nat.mul_succ, List.take_succ_cons]
      simp only [saveChainPuts, List.flatMap_cons] at hrest ⊢
      rw [← hrest]
      rfl

end BlockStore

namespace Blockchain

open BlockStore

section

variable (C : Crypto)

/-- The puts of `activate_chain`. -/
def activateChainPuts (s : Blockchain) (tipHash : String) : List Put :=
  match s.chainToHash tipHash with
  | .error _ => []
  | .ok newBlocks =>
    if h : newBlocks = [] then []
    else
      match s.rebuildActiveState C newBlocks h with
      | (.error _, _) => []
      | (.ok (), s') => saveChainPuts C s'.blocks ++ [saveTipPut (s'.tip.hashHex C)]

/-- The puts of `add_block` after the block is recorded. -/
def settleBlockPuts (s : Blockchain) (b : Block) (candidateWork : ℕ) : List Put :=
  match s.chainWork.lookup (s.tip.hashHex C) with
  | none => []
  | some currentWork =>
    if currentWork < candidateWork then s.activateChainPuts C (b.hashHex C) else []

/-- The puts of `add_block`, in order. -/
def addBlockPuts (now : ℕ) (s : Blockchain) (b : Block) : List Put :=
  match s.checkBlock C now b with
  | .error _ => []
  | .ok none => []
  | .ok (some candidateWork) =>
    saveBlockPuts C b ++ (s.recordBlock C b candidateWork).settleBlockPuts C b candidateWork

end

variable {C : Crypto} {magic : UInt32} {T : Set ℕ} {g : Block} {hist saved : List Block}
  {s : Blockchain} {st : BlockStore}

/-! ### The puts of a call -/

theorem addBlockPuts_of_not_stores {now : ℕ} {b : Block} (h : ¬ Stores C now s b) :
    s.addBlockPuts C now b = [] := by
  rw [addBlockPuts]
  split
  · rfl
  · rfl
  · next w hcheck => exact absurd ⟨w, hcheck⟩ h

/-- The state after an activation. -/
theorem addBlock_of_activates {now : ℕ} {b : Block} (h : Activates C now s b) :
    ∃ w bs u m, ∃ hne : bs ≠ [], Checked C now s b w ∧
      (s.recordBlock C b w).chainToHash (b.hashHex C) = .ok bs ∧ replay C bs = .ok (u, m) ∧
      (s.addBlock C now b).2 =
        (((s.recordBlock C b w).withActive C bs hne u m).persistActive C).pruneStaleOrphans C ∧
      s.addBlockPuts C now b =
        saveBlockPuts C b ++ (saveChainPuts C bs ++ [saveTipPut ((bs.getLast hne).hashHex C)]) := by
  obtain ⟨w, current, bs, ⟨u, m⟩, hcheck, hcurrent, hlt, hwalk, hrep⟩ := h
  have hne := chainToHash_ne_nil hwalk
  have hrebuild := rebuildActiveState_of_ok (s := s.recordBlock C b w) hne hrep
  refine ⟨w, bs, u, m, hne, checkBlock_eq_ok_some_iff.mp hcheck, hwalk, hrep, ?_, ?_⟩
  · rw [addBlock, hcheck]
    dsimp only
    rw [settleBlock, show (s.recordBlock C b w).tip = s.tip from rfl, hcurrent]
    dsimp only
    rw [if_pos hlt, activateChain, hwalk]
    dsimp only
    rw [dif_neg hne, hrebuild]
  · rw [addBlockPuts, hcheck]
    dsimp only
    rw [settleBlockPuts, show (s.recordBlock C b w).tip = s.tip from rfl, hcurrent]
    dsimp only
    rw [if_pos hlt, activateChainPuts, hwalk]
    dsimp only
    rw [dif_neg hne, hrebuild]
    rfl

/-- An activation saves the new chain and then its tip. -/
theorem addBlockPuts_of_activates {now : ℕ} {b : Block} (h : Activates C now s b) :
    s.addBlockPuts C now b =
      saveBlockPuts C b ++ (saveChainPuts C (s.addBlock C now b).2.blocks ++
        [saveTipPut ((s.addBlock C now b).2.tip.hashHex C)]) := by
  obtain ⟨w, bs, u, m, hne, -, -, -, hadd, hputs⟩ := addBlock_of_activates h
  rw [hputs, hadd, pruneStaleOrphans_tip, pruneStaleOrphans_blocks]
  rfl

theorem addBlockPuts_of_not_activates {now : ℕ} {b : Block} (hstores : Stores C now s b)
    (h : ¬ Activates C now s b) : s.addBlockPuts C now b = saveBlockPuts C b := by
  obtain ⟨w, hcheck⟩ := hstores
  rw [addBlockPuts, hcheck]
  dsimp only
  suffices hnil : (s.recordBlock C b w).settleBlockPuts C b w = [] by rw [hnil, List.append_nil]
  rw [settleBlockPuts]
  split
  · rfl
  next current hcurrent =>
  split
  · next hlt =>
    rw [activateChainPuts]
    split
    · rfl
    next bs hwalk =>
    rw [dif_neg (chainToHash_ne_nil hwalk)]
    cases hrep : replay C bs with
    | ok um => exact absurd ⟨w, current, bs, um, hcheck, hcurrent, hlt, hwalk, hrep⟩ h
    | error e =>
      obtain ⟨done, hre⟩ := rebuildActiveState_of_error (s := s.recordBlock C b w)
        (chainToHash_ne_nil hwalk) hrep
      rw [hre]
  · rfl

/-- Without an activation the active chain stays. -/
theorem frame_of_not_activates {now : ℕ} {b : Block} (h : ¬ Activates C now s b) :
    (s.addBlock C now b).2.blocks = s.blocks ∧ (s.addBlock C now b).2.utxoSet = s.utxoSet ∧
      (s.addBlock C now b).2.totalMinted = s.totalMinted ∧
      (s.addBlock C now b).2.store = s.store.map fun st => st.puts (s.addBlockPuts C now b) := by
  have hadd := addBlock_cases (C := C) now s b
  generalize (s.addBlock C now b).1 = r at hadd
  generalize (s.addBlock C now b).2 = s' at hadd ⊢
  -- nothing is stored
  have hnothing : (∀ w, s.checkBlock C now b ≠ .ok (some w)) →
      s.store = s.store.map fun st => st.puts (s.addBlockPuts C now b) := by
    intro hno
    rw [addBlockPuts_of_not_stores fun ⟨w, hw⟩ => hno w hw]
    exact Option.map_id'.symm
  -- a block is stored
  have hrecorded : ∀ w, s.checkBlock C now b = .ok (some w) →
      (s.recordBlock C b w).store = s.store.map fun st => st.puts (s.addBlockPuts C now b) := by
    intro w hcheck
    rw [addBlockPuts_of_not_activates ⟨w, hcheck⟩ h]
    rfl
  cases hadd with
  | rejected hcheck => exact ⟨rfl, rfl, rfl, hnothing fun w hw => nomatch hcheck.symm.trans hw⟩
  | known hmem =>
    exact ⟨rfl, rfl, rfl, hnothing fun w hw => (checkBlock_eq_ok_some_iff.mp hw).fresh hmem⟩
  | tipWorkMissing hcheck _ => exact ⟨rfl, rfl, rfl, hrecorded _ hcheck⟩
  | side hcheck _ _ =>
    rw [pruneStaleOrphans_store, pruneStaleOrphans_blocks, pruneStaleOrphans_utxoSet,
      pruneStaleOrphans_totalMinted]
    exact ⟨rfl, rfl, rfl, hrecorded _ hcheck⟩
  | walkFailed hcheck _ _ _ => exact ⟨rfl, rfl, rfl, hrecorded _ hcheck⟩
  | replayFailed hcheck _ _ _ _ => exact ⟨rfl, rfl, rfl, hrecorded _ hcheck⟩
  | activated _ hcheck hcurrent hlt hwalk hrep =>
    exact absurd ⟨_, _, _, _, hcheck, hcurrent, hlt, hwalk, hrep⟩ h

/-- **The puts of a call are what it does to the disk.** -/
theorem store_addBlock (now : ℕ) (s : Blockchain) (b : Block) :
    (s.addBlock C now b).2.store = s.store.map fun st => st.puts (s.addBlockPuts C now b) := by
  by_cases hact : Activates C now s b
  · obtain ⟨w, bs, u, m, hne, -, -, -, hadd, hputs⟩ := addBlock_of_activates hact
    rw [hadd, hputs, pruneStaleOrphans_store]
    show (s.store.map _).map _ = _
    rw [Option.map_map]
    refine congrArg (fun f => s.store.map f) (funext fun st => ?_)
    rw [puts_append, puts_append, puts_saveChainPuts]
    rfl
  · exact (frame_of_not_activates hact).2.2.2

/-! ### Opening what is shown -/

/-- **A disk that shows a valid chain opens to it**, at any clock that is not behind. -/
theorem openForNetwork_of_shows (hg : g.height = 0) (hsep : Separated C saved) {bs : List Block}
    (hbs : ValidChain C regtestMagic T g bs) (hsub : ∀ x ∈ bs, x ∈ saved)
    (hsize : g.serializedSize ≤ maxStoredBlockSize) {u : UtxoSet} {m : ℕ}
    (hrep : replay C bs = .ok (u, m)) (h : Shows C saved st bs) (fuel : ℕ) {clock : ℕ → ℕ}
    (hclock : ∀ i, ∀ t ∈ T, t ≤ clock i) (network : String) :
    ∃ s', openForNetwork C fuel clock st network = .ok s' ∧ s'.blocks = bs ∧ s'.utxoSet = u ∧
      s'.totalMinted = m := by
  obtain ⟨hholds, t, -, htip, htat, htheight, htsize⟩ := h
  obtain ⟨s', hadd, -, hblocks, hutxo, hminted⟩ := addBlocks_of_validChain hg (some st) hclock hbs
    (hsep.mono hsub) hrep 0
  have hcons : bs = g :: bs.tail := by
    obtain ⟨l, hl⟩ := List.head?_eq_some_iff.mp hbs.head?_eq
    rw [hl]
    rfl
  have hload : loadChain st t.height = .ok (g :: bs.tail) := by
    rw [← hcons]
    refine loadChain_eq_ok_iff.mpr ⟨htheight.symm, fun i b hb => ?_⟩
    have hmem := List.mem_of_getElem? hb
    have hbsize : b.serializedSize ≤ maxStoredBlockSize := by
      rcases hbs.serializedSize_le hmem with rfl | hle
      · exact hsize
      · exact hle.trans (by decide)
    rw [loadBlockByHeight_of_heightAt (hholds.height_at i b hb)]
    exact loadBlockByHash_of_blockAt (hholds.block_at b hmem) hbsize
  refine ⟨{ s' with networkMagic := magicForNetwork network }, ?_, hblocks, hutxo, hminted⟩
  refine openForNetwork_eq_ok_iff.mpr (Or.inl ⟨_, loadTip_of_tipAt htip, ?_⟩)
  exact reload_eq_ok_iff.mpr
    ⟨t, g, bs.tail, s', loadBlockByHash_of_blockAt htat htsize, hload, hadd, rfl⟩

/-- Blocks of ascending heights that are all accepted become the chain they are. -/
theorem blocks_of_addBlocks (hg : g.height = 0) {clock : ℕ → ℕ} (hclock : ∀ i, clock i ∈ T)
    {rest : List Block} : ∀ {i : ℕ} {s s' : Blockchain}, Inv C magic T g s.blocks s →
    Separated C (s.blocks ++ rest) →
    (∀ (j : ℕ) (b : Block), rest[j]? = some b → b.height = s.blocks.length + j) →
    addBlocks C clock i s rest = (.ok (), s') → s'.blocks = s.blocks ++ rest := by
  induction rest with
  | nil =>
    intro i s s' _ _ _ hadd
    cases hadd
    exact (List.append_nil _).symm
  | cons b rest ih =>
    intro i s s' hi hsep hheight hadd
    rw [addBlocks] at hadd
    rcases hone : s.addBlock C (clock i) b with ⟨e | ⟨⟩, s₁⟩
    · rw [hone] at hadd
      cases hadd
    · rw [hone] at hadd
      rw [List.append_cons] at hsep ⊢
      obtain ⟨u, m, hstep, hinv⟩ := hi.addBlock_of_ok hg (hclock i) (hheight 0 b rfl)
        (hsep.mono fun x hx => List.mem_append_left _ hx) (by rw [hone])
      obtain rfl : s₁ = s.extendTip C b u m := (Prod.mk.inj (hone.symm.trans hstep)).2
      have hblocks := extendTip_blocks (C := C) s b u m
      rw [← hblocks] at hinv hsep ⊢
      refine ih hinv hsep (fun j c hc => ?_) hadd
      rw [hblocks, List.length_append, List.length_singleton, hheight (j + 1) c hc]
      omega

/-- **What opens was read at its own heights**, up to the height of the tip on disk. -/
theorem read_of_openForNetwork (hsep : Separated C saved) (hst : st.Written C saved) (fuel : ℕ)
    (clock : ℕ → ℕ) (network : String) {t : Block} (htip : st.tipAt = some (.text (t.hashHex C)))
    (htat : st.blockAt (t.hashHex C) = some (.block t)) (s' : Blockchain)
    (hopen : openForNetwork C fuel clock st network = .ok s') :
    s'.blocks.length = t.height + 1 ∧
      ∀ (i : ℕ) (b : Block),
        s'.blocks[i]? = some b → st.heightAt i = some (.text (b.hashHex C)) := by
  rcases openForNetwork_eq_ok_iff.mp hopen with ⟨tipHash, hload, hreload⟩ | ⟨hnone, -⟩
  · obtain ⟨t', g', rest, s'', ht', hread, hadd, rfl⟩ := reload_eq_ok_iff.mp hreload
    obtain rfl : tipHash = t.hashHex C := by
      have hat := tipAt_of_loadTip hload
      rw [htip] at hat
      exact (Record.text.inj (Option.some.inj hat)).symm
    obtain rfl : t' = t := by
      have hat := (blockAt_of_loadBlockByHash ht').1
      rw [htat] at hat
      exact (Record.block.inj (Option.some.inj hat)).symm
    have hlevel := fun (i : ℕ) (b : Block) (hb : (g' :: rest)[i]? = some b) =>
      Session.level_of_loadChain hsep hst hread hb
    have hsep' : Separated C (g' :: rest) := hsep.mono fun x hx => by
      obtain ⟨i, hi⟩ := List.getElem?_of_mem hx
      exact (hlevel i x hi).2.1
    have hblocks : s''.blocks = g' :: rest :=
      blocks_of_addBlocks (T := Set.univ) (hlevel 0 g' rfl).1 (fun _ => Set.mem_univ _)
        (inv_fromGenesisWithMagic (some st)) hsep'
        (fun j b hb => by rw [(hlevel (j + 1) b hb).1]; exact Nat.add_comm j 1) hadd
    show s''.blocks.length = _ ∧ ∀ i b, s''.blocks[i]? = _ → _
    rw [hblocks]
    exact ⟨(loadChain_eq_ok_iff.mp hread).1, fun i b hb => (hlevel i b hb).2.2.1⟩
  · rw [loadTip_of_tipAt htip] at hnone
    cases hnone

/-! ### Crashes -/

/-- Opening the disk yields the active chain of `s`, with what it spends and mints. -/
def Reopens (C : Crypto) (fuel : ℕ) (clock : ℕ → ℕ) (st : BlockStore) (s : Blockchain) : Prop :=
  ∃ t, openForNetwork C fuel clock st "regtest" = .ok t ∧ t.blocks = s.blocks ∧
    t.utxoSet = s.utxoSet ∧ t.totalMinted = s.totalMinted

theorem reopens_of_shows (hg : g.height = 0) (hsep : Separated C saved)
    (hi : Inv C regtestMagic T g hist s) (hsub : ∀ x ∈ hist, x ∈ saved)
    (hsize : g.serializedSize ≤ maxStoredBlockSize) (h : Shows C saved st s.blocks) (fuel : ℕ)
    {clock : ℕ → ℕ} (hclock : ∀ i, ∀ t ∈ T, t ≤ clock i) : Reopens C fuel clock st s :=
  openForNetwork_of_shows hg hsep hi.active (fun x hx => hsub x (hi.mem_hist hx)) hsize hi.replay_eq
    h fuel hclock "regtest"

namespace Session

theorem shows (hg : g.height = 0) (h : Session C magic T g hist saved s st)
    (hholds : st.Holds C s.blocks) : Shows C saved st s.blocks := by
  obtain ⟨t, htip, htat, htheight, htsize⟩ := h.tip_at
  exact ⟨hholds, t, (h.written.own htat).2, htip, htat, by
    rw [h.inv.length_blocks hg, htheight], htsize⟩

/-- **Crashes while a chain is extended.** Until the last put the old chain is shown, and after it
the new one. -/
theorem reopens_of_isPrefix (hg : g.height = 0) (hsep : Separated C saved)
    (h : Session C regtestMagic T g hist saved s st) (hholds : st.Holds C s.blocks) {now : ℕ}
    (hnow : now ∈ T) {b : Block} (hrec : ∀ x ∈ s.recordedBy C (.addBlock now b), x ∈ saved)
    (hb : b ∈ saved) (hheight : s.height < b.height)
    (hpre : s.blocks <+: (s.addBlock C now b).2.blocks)
    (fuel : ℕ) {clock : ℕ → ℕ} (hclock : ∀ i, ∀ t ∈ T, t ≤ clock i) (k : ℕ) :
    Reopens C fuel clock (st.puts ((s.addBlockPuts C now b).take k)) s ∨
      Reopens C fuel clock (st.puts ((s.addBlockPuts C now b).take k)) (s.addBlock C now b).2 := by
  have hlen := h.inv.length_blocks hg
  have hsub : ∀ x ∈ s.blocks, x ∈ saved := fun x hx => h.sub x (h.inv.mem_hist hx)
  -- harmless puts leave the old chain in view
  have hold : ∀ ps : List Put, (∀ p ∈ ps, Harmless C saved s.blocks p) →
      Reopens C fuel clock (st.puts ps) s := fun ps hps =>
    reopens_of_shows hg hsep h.inv h.sub h.genesis_size ((h.shows hg hholds).puts hsep hsub
      (fun i x hx => h.inv.active.height_eq hg hx)
      (fun x hx => h.inv.serializedSize_le h.genesis_size hx) hps) fuel hclock
  have hblock : ∀ p ∈ saveBlockPuts C b, Harmless C saved s.blocks p := fun p hp =>
    harmless_saveBlockPuts hb (Or.inr (by omega)) hp
  by_cases hact : Activates C now s b
  · obtain ⟨st', hsession, hiff⟩ := h.addBlock hg hsep hnow hrec
    have hst' : st' = st.puts (s.addBlockPuts C now b) := by
      have hstore := hsession.store_eq
      rw [store_addBlock, h.store_eq] at hstore
      exact (Option.some.inj hstore).symm
    rcases Nat.lt_or_ge k (s.addBlockPuts C now b).length with hlt | hge
    · refine Or.inl (hold _ fun p hp => ?_)
      rw [addBlockPuts_of_activates hact, ← List.append_assoc, List.length_append,
        List.length_singleton] at hlt
      rw [addBlockPuts_of_activates hact, ← List.append_assoc, List.take_append_of_le_length
        (by omega)] at hp
      rcases List.mem_append.mp (List.mem_of_mem_take hp) with hp | hp
      · exact hblock p hp
      · exact harmless_saveChainPuts (fun x hx => hsession.sub x (hsession.inv.mem_hist hx))
          (fun x hx => mem_or_le_of_isPrefix hpre
            (fun i y hy => hsession.inv.active.height_eq hg hy) hx) hp
    · refine Or.inr ?_
      rw [List.take_of_length_le hge, ← hst']
      exact reopens_of_shows hg hsep hsession.inv hsession.sub h.genesis_size
        (hsession.shows hg (hiff.mpr (Or.inl hact))) fuel hclock
  · refine Or.inl (hold _ fun p hp => ?_)
    by_cases hstores : Stores C now s b
    · rw [addBlockPuts_of_not_activates hstores hact] at hp
      exact hblock p (List.mem_of_mem_take hp)
    · rw [addBlockPuts_of_not_stores hstores] at hp
      exact absurd (List.mem_of_mem_take hp) List.not_mem_nil

/-- An activated chain ends in the block, at its height. -/
theorem blocks_of_activates (hg : g.height = 0) (hsep : Separated C saved)
    (h : Session C magic T g hist saved s st) {now : ℕ} (hnow : now ∈ T) {b : Block}
    (hrec : ∀ x ∈ s.recordedBy C (.addBlock now b), x ∈ saved) (hact : Activates C now s b) :
    ∃ ds, (s.addBlock C now b).2.blocks = ds ++ [b] ∧ b.height = ds.length := by
  obtain ⟨w, bs, u, m, hne, hchecked, hwalk, -, hadd, -⟩ := addBlock_of_activates hact
  obtain ⟨ds, hgrows⟩ := h.inv.exists_grows hg hchecked
  have hsep' : Separated C (hist ++ [b]) := by
    rw [recordedBy_of_checked hchecked] at hrec
    exact hsep.mono fun x hx => (List.mem_append.mp hx).elim (h.sub x) (hrec x)
  have hblocks : (s.addBlock C now b).2.blocks = ds ++ [b] := by
    rw [hadd, pruneStaleOrphans_blocks]
    exact Except.ok.inj (hwalk.symm.trans (h.inv.chainToHash_recordBlock hg hnow hgrows hsep'))
  obtain ⟨_, hsession, -⟩ := h.addBlock hg hsep hnow hrec
  refine ⟨ds, hblocks, hsession.inv.active.height_eq hg (i := ds.length) ?_⟩
  rw [hblocks]
  simp

/-- **Crashes while the last block is exchanged.** From the second put on the new chain is shown,
under the old tip at first. -/
theorem reopens_of_dropLast_eq (hg : g.height = 0) (hsep : Separated C saved)
    (h : Session C regtestMagic T g hist saved s st) (hholds : st.Holds C s.blocks) {now : ℕ}
    (hnow : now ∈ T) {b : Block} (hrec : ∀ x ∈ s.recordedBy C (.addBlock now b), x ∈ saved)
    (hb : b ∈ saved) (hact : Activates C now s b)
    (hlast : s.blocks.dropLast = (s.addBlock C now b).2.blocks.dropLast) (fuel : ℕ) {clock : ℕ → ℕ}
    (hclock : ∀ i, ∀ t ∈ T, t ≤ clock i) (k : ℕ) :
    Reopens C fuel clock (st.puts ((s.addBlockPuts C now b).take k)) s ∨
      Reopens C fuel clock (st.puts ((s.addBlockPuts C now b).take k)) (s.addBlock C now b).2 := by
  obtain ⟨ds, hblocks, hheight⟩ := h.blocks_of_activates hg hsep hnow hrec hact
  obtain ⟨st', hsession, -⟩ := h.addBlock hg hsep hnow hrec
  rw [hblocks, List.dropLast_concat] at hlast
  have hlen := h.inv.length_blocks hg
  have hds : ds.length = s.height := by
    rw [← hlast, List.length_dropLast, hlen, Nat.add_sub_cancel]
  have hshows := h.shows hg hholds
  rw [addBlockPuts_of_activates hact]
  rcases k with _ | _ | k
  · exact Or.inl (reopens_of_shows hg hsep h.inv h.sub h.genesis_size hshows fuel hclock)
  · refine Or.inl (reopens_of_shows hg hsep h.inv h.sub h.genesis_size ?_ fuel hclock)
    exact hshows.put hsep (fun x hx => h.sub x (h.inv.mem_hist hx))
      (fun i x hx => h.inv.active.height_eq hg hx)
      (fun x hx => h.inv.serializedSize_le h.genesis_size hx) (.block hb)
  refine Or.inr (reopens_of_shows hg hsep hsession.inv hsession.sub h.genesis_size ?_ fuel hclock)
  have hsub : ∀ x ∈ (s.addBlock C now b).2.blocks, x ∈ saved := fun x hx =>
    hsession.sub x (hsession.inv.mem_hist hx)
  -- the disk after the first two puts
  have hsecond : Shows C saved (st.saveBlock C b) (s.addBlock C now b).2.blocks := by
    obtain ⟨-, t, ht, htip, htat, htheight, htsize⟩ := hshows
    refine ⟨⟨fun x hx => ?_, fun i x hx => ?_⟩, t, ht, by rw [tipAt_saveBlock, htip],
      blockAt_saveBlock_of_blockAt hsep hb ht htat,
      by rw [htheight, hlen, hblocks, List.length_append, hds]; rfl, htsize⟩
    · rw [hblocks] at hx
      rcases List.mem_append.mp hx with hx | hx
      · exact blockAt_saveBlock_of_blockAt hsep hb (hsub x (hblocks ▸ List.mem_append_left _ hx))
          (hholds.block_at x (List.mem_of_mem_dropLast (hlast ▸ hx)))
      · rw [List.mem_singleton.mp hx, blockAt_saveBlock, if_pos rfl]
    · have hi := hsession.inv.active.height_eq hg hx
      rw [heightAt_saveBlock]
      split
      · next heq =>
        rw [hblocks, heq, hheight, List.getElem?_concat_length] at hx
        rw [Option.some.inj hx]
      · next hne =>
        have hlt : i < ds.length := by
          have := (List.getElem?_eq_some_iff.mp hx).1
          rw [hblocks, List.length_append, List.length_singleton] at this
          omega
        rw [hblocks, List.getElem?_append_left hlt, ← hlast, List.getElem?_dropLast,
          if_pos (by omega)] at hx
        exact hholds.height_at i x hx
  show Shows C saved ((st.saveBlock C b).puts ((saveChainPuts C (s.addBlock C now b).2.blocks ++
    [saveTipPut ((s.addBlock C now b).2.tip.hashHex C)]).take k)) _
  refine hsecond.puts hsep hsub (fun i x hx => hsession.inv.active.height_eq hg hx)
    (fun x hx => hsession.inv.serializedSize_le h.genesis_size hx) fun p hp => ?_
  rcases List.mem_append.mp (List.mem_of_mem_take hp) with hp | hp
  · exact harmless_saveChainPuts hsub (fun x hx => Or.inl hx) hp
  · rw [List.mem_singleton.mp hp]
    exact .tip (s.addBlock C now b).2.tip_mem (hsession.inv.length_blocks hg).symm

/-- **Crashes show what is rewritten.** -/
theorem of_reopens (hg : g.height = 0) (hsep : Separated C saved)
    (h : Session C regtestMagic T g hist saved s st) (hholds : st.Holds C s.blocks) {now : ℕ}
    (hnow : now ∈ T) {b : Block} (hrec : ∀ x ∈ s.recordedBy C (.addBlock now b), x ∈ saved)
    (hb : b ∈ saved) (hstores : Stores C now s b) {fuel : ℕ} {clock : ℕ → ℕ}
    (hall : ∀ k, Reopens C fuel clock (st.puts ((s.addBlockPuts C now b).take k)) s ∨
      Reopens C fuel clock (st.puts ((s.addBlockPuts C now b).take k)) (s.addBlock C now b).2) :
    s.height < b.height ∧ s.blocks <+: (s.addBlock C now b).2.blocks ∨
      Activates C now s b ∧ s.blocks.dropLast = (s.addBlock C now b).2.blocks.dropLast := by
  obtain ⟨-, t, ht, htip, htat, htheight, -⟩ := h.shows hg hholds
  have hlen := h.inv.length_blocks hg
  have hsub : ∀ x ∈ s.blocks, x ∈ saved := fun x hx => h.sub x (h.inv.mem_hist hx)
  obtain ⟨st', hsession, -⟩ := h.addBlock hg hsep hnow hrec
  have hsub' : ∀ x ∈ (s.addBlock C now b).2.blocks, x ∈ saved := fun x hx =>
    hsession.sub x (hsession.inv.mem_hist hx)
  have hfresh : b ∉ s.blocks := by
    intro hmem
    obtain ⟨w, hcheck⟩ := hstores
    exact (checkBlock_eq_ok_some_iff.mp hcheck).fresh
      (Finmap.mem_of_lookup (h.inv.stored b hmem))
  rcases Nat.lt_or_ge s.height b.height with hlt | hge
  · refine Or.inl ⟨hlt, ?_⟩
    by_cases hact : Activates C now s b
    · obtain ⟨ds, hblocks, hheight⟩ := h.blocks_of_activates hg hsep hnow hrec hact
      have hlen' : (s.addBlock C now b).2.blocks.length = ds.length + 1 := by
        rw [hblocks, List.length_append, List.length_singleton]
      rw [List.prefix_iff_getElem?]
      intro i hi
      have hi' : i < (s.addBlock C now b).2.blocks.length := by omega
      -- the crash after the new chain was saved up to this height
      have hcrash := hall (2 * (i + 1) + 2)
      have hsaved : st.puts ((s.addBlockPuts C now b).take (2 * (i + 1) + 2)) =
          ((s.addBlock C now b).2.blocks.take (i + 1)).foldl (saveBlock C) (st.saveBlock C b) := by
        rw [addBlockPuts_of_activates hact, ← puts_saveChainPuts,
          ← take_saveChainPuts _ [saveTipPut ((s.addBlock C now b).2.tip.hashHex C)] (by omega)]
        rfl
      rw [hsaved] at hcrash
      have hwritten : (((s.addBlock C now b).2.blocks.take (i + 1)).foldl (saveBlock C)
          (st.saveBlock C b)).Written C saved :=
        (Written.saveBlock h.written hb).foldl fun x hx => hsub' x (List.mem_of_mem_take hx)
      have hread := read_of_openForNetwork hsep hwritten fuel clock "regtest"
        (by rw [tipAt_foldl_saveBlock, tipAt_saveBlock, htip])
        (blockAt_foldl_saveBlock hsep ht (fun x hx => hsub' x (List.mem_of_mem_take hx))
          (blockAt_saveBlock_of_blockAt hsep hb ht htat))
      -- it can only have opened to the old chain
      obtain ⟨o, hopen, hoblocks⟩ : ∃ o, openForNetwork C fuel clock
          (((s.addBlock C now b).2.blocks.take (i + 1)).foldl (saveBlock C) (st.saveBlock C b))
          "regtest" = .ok o ∧ o.blocks = s.blocks := by
        rcases hcrash with ⟨o, hopen, hoblocks, -⟩ | ⟨o, hopen, hoblocks, -⟩
        · exact ⟨o, hopen, hoblocks⟩
        · have := (hread o hopen).1
          rw [hoblocks] at this
          omega
      have hold := (hread o hopen).2 i _ (by rw [hoblocks, List.getElem?_eq_getElem hi])
      have hnew : (s.addBlock C now b).2.blocks[i].height = i :=
        hsession.inv.active.height_eq hg (List.getElem?_eq_getElem hi')
      rw [List.take_succ_eq_append_getElem hi', List.foldl_append, List.foldl_cons, List.foldl_nil,
        heightAt_saveBlock, if_pos hnew.symm] at hold
      have heq := hsep _ (hsub' _ (List.getElem_mem hi')) _ (hsub _ (List.getElem_mem hi))
        (Record.text.inj (Option.some.inj hold))
      rw [List.getElem?_eq_getElem hi', heq]
    · rw [(frame_of_not_activates hact).1]
  · refine Or.inr ?_
    -- the crash after the block was saved
    have hcrash := hall 2
    have hsaved : st.puts ((s.addBlockPuts C now b).take 2) = st.saveBlock C b := by
      by_cases hact : Activates C now s b
      · rw [addBlockPuts_of_activates hact]
        rfl
      · rw [addBlockPuts_of_not_activates hstores hact]
        rfl
    rw [hsaved] at hcrash
    have hread := read_of_openForNetwork hsep (.saveBlock h.written hb) fuel clock "regtest"
      (by rw [tipAt_saveBlock, htip]) (blockAt_saveBlock_of_blockAt hsep hb ht htat)
    -- it can only have opened to the new chain
    obtain ⟨o, hopen, hoblocks⟩ : ∃ o,
        openForNetwork C fuel clock (st.saveBlock C b) "regtest" = .ok o ∧
          o.blocks = (s.addBlock C now b).2.blocks := by
      rcases hcrash with ⟨o, hopen, hoblocks, -⟩ | ⟨o, hopen, hoblocks, -⟩
      · have hi : b.height < s.blocks.length := by omega
        have hat := (hread o hopen).2 b.height _ (by rw [hoblocks, List.getElem?_eq_getElem hi])
        rw [heightAt_saveBlock, if_pos rfl] at hat
        have heq := hsep b hb _ (hsub _ (List.getElem_mem hi))
          (Record.text.inj (Option.some.inj hat))
        exact absurd (heq ▸ List.getElem_mem hi) hfresh
      · exact ⟨o, hopen, hoblocks⟩
    obtain ⟨holen, hat⟩ := hread o hopen
    rw [hoblocks] at holen hat
    have hact : Activates C now s b := by
      by_contra hnot
      rw [(frame_of_not_activates hnot).1] at hat
      have hi : b.height < s.blocks.length := by omega
      have hbad := hat b.height _ (List.getElem?_eq_getElem hi)
      rw [heightAt_saveBlock, if_pos rfl] at hbad
      have heq := hsep b hb _ (hsub _ (List.getElem_mem hi))
        (Record.text.inj (Option.some.inj hbad))
      exact absurd (heq ▸ List.getElem_mem hi) hfresh
    refine ⟨hact, ?_⟩
    obtain ⟨ds, hblocks, hheight⟩ := h.blocks_of_activates hg hsep hnow hrec hact
    rw [hblocks] at holen hat hsub' ⊢
    rw [List.length_append, List.length_singleton] at holen
    rw [List.dropLast_concat]
    refine List.ext_getElem (by rw [List.length_dropLast]; omega) fun i hi hi' => ?_
    have hi'' : i < s.blocks.length := by omega
    have hnew := hat i _ (by rw [List.getElem?_append_left hi', List.getElem?_eq_getElem hi'])
    rw [heightAt_saveBlock, if_neg (by omega),
      hholds.height_at i _ (List.getElem?_eq_getElem hi'')] at hnew
    rw [List.getElem_dropLast]
    exact hsep _ (hsub _ (List.getElem_mem hi'')) _
      (hsub' _ (List.mem_append_left _ (List.getElem_mem hi')))
      (Record.text.inj (Option.some.inj hnew))

/-- **One call, and every crash in it.** -/
theorem reopens_iff (hg : g.height = 0) (hsep : Separated C saved)
    (h : Session C regtestMagic T g hist saved s st) (hholds : st.Holds C s.blocks) {now : ℕ}
    (hnow : now ∈ T) {b : Block} (hrec : ∀ x ∈ s.recordedBy C (.addBlock now b), x ∈ saved)
    (fuel : ℕ) {clock : ℕ → ℕ} (hclock : ∀ i, ∀ t ∈ T, t ≤ clock i) :
    (∀ k, Reopens C fuel clock (st.puts ((s.addBlockPuts C now b).take k)) s ∨
      Reopens C fuel clock (st.puts ((s.addBlockPuts C now b).take k)) (s.addBlock C now b).2) ↔
      (Stores C now s b →
        s.height < b.height ∧ s.blocks <+: (s.addBlock C now b).2.blocks ∨
        Activates C now s b ∧ s.blocks.dropLast = (s.addBlock C now b).2.blocks.dropLast) := by
  by_cases hstores : Stores C now s b
  · have hb : b ∈ saved := by
      obtain ⟨w, hcheck⟩ := hstores
      rw [recordedBy_of_checked (checkBlock_eq_ok_some_iff.mp hcheck)] at hrec
      exact hrec b List.mem_cons_self
    constructor
    · exact fun hall _ => h.of_reopens hg hsep hholds hnow hrec hb hstores hall
    · intro hcond k
      rcases hcond hstores with ⟨hheight, hpre⟩ | ⟨hact, hlast⟩
      · exact h.reopens_of_isPrefix hg hsep hholds hnow hrec hb hheight hpre fuel hclock k
      · exact h.reopens_of_dropLast_eq hg hsep hholds hnow hrec hb hact hlast fuel hclock k
  · refine ⟨fun _ h' => absurd h' hstores, fun _ k => Or.inl ?_⟩
    rw [addBlockPuts_of_not_stores hstores, List.take_nil]
    exact reopens_of_shows hg hsep h.inv h.sub h.genesis_size (h.shows hg hholds) fuel hclock

end Session

/-- **When a crash is harmless.** A node opened on a path with any earlier contents has run until
its height index is intact, and dies in a call of `add_block` after any number of its puts. Every
such disk opens to the chain before the call or the one after it, with their unspent outputs and
minted totals, if and only if the block is not stored, or is above the tip and the active chain is
kept as a beginning, or takes the place of the last active block alone. -/
theorem crash_safe_iff (C : Crypto) (saved : List Block) (st₀ : BlockStore)
    (hst : st₀.Written C saved) (fuel : ℕ) (clock₀ : ℕ → ℕ) (s₀ : Blockchain)
    (hopen : openForNetwork C fuel clock₀ st₀ "regtest" = .ok s₀) (evs : List Event)
    (hintact : IndexIntact C s₀ True evs) (now : ℕ) (b : Block)
    (hsep : Separated C (saved ++ s₀.blocks ++ recorded C s₀ (evs ++ [.addBlock now b])))
    (fuel' : ℕ) (clock : ℕ → ℕ) (hclock₀ : ∀ i j, clock₀ i ≤ clock j)
    (hclock : ∀ now' b', .addBlock now' b' ∈ evs ++ [.addBlock now b] → ∀ j, now' ≤ clock j) :
    ∃ st, (run C s₀ evs).store = some st ∧
      ((∀ k, Reopens C fuel' clock (st.puts (((run C s₀ evs).addBlockPuts C now b).take k))
            (run C s₀ evs) ∨
          Reopens C fuel' clock (st.puts (((run C s₀ evs).addBlockPuts C now b).take k))
            ((run C s₀ evs).addBlock C now b).2) ↔
        (Stores C now (run C s₀ evs) b →
          (run C s₀ evs).height < b.height ∧
            (run C s₀ evs).blocks <+: ((run C s₀ evs).addBlock C now b).2.blocks ∨
          Activates C now (run C s₀ evs) b ∧ (run C s₀ evs).blocks.dropLast =
            ((run C s₀ evs).addBlock C now b).2.blocks.dropLast)) := by
  have hregtest : magicForNetwork "regtest" = regtestMagic := by decide
  obtain ⟨g, st₁, hg, hsession, hholds⟩ := session_of_openForNetwork
    (T := {t | ∀ j, t ≤ clock j}) (hst.mono fun x hx => List.mem_append_left _
      (List.mem_append_left _ hx)) hclock₀ hregtest hopen hsep fun x hx =>
        List.mem_append_left _ (List.mem_append_right _ hx)
  rw [recorded_append_singleton] at hsep hsession
  obtain ⟨st, hsession', hiff⟩ := hsession.run hg hsep
    (fun now' b' hb => hclock now' b' (List.mem_append_left _ hb))
    (fun x hx => List.mem_append_right _ (List.mem_append_left _ hx)) (iff_true_intro hholds)
  refine ⟨st, hsession'.store_eq, ?_⟩
  exact hsession'.reopens_iff hg hsep (hiff.mpr hintact)
    (hclock now b (List.mem_append_right _ List.mem_cons_self))
    (fun x hx => List.mem_append_right _ (List.mem_append_right _ hx)) fuel' fun i t ht => ht i

/-- A node that dies while it adds its second block has one block or two. -/
theorem crash_safe_iff_idleBlock :
    ∃ s₀ st, openForNetwork Crypto.sample 1 (fun _ => sampleNow) .empty "regtest" = .ok s₀ ∧
      (run Crypto.sample s₀ [.addBlock sampleNow (idleBlock 0)]).store = some st ∧
      ∀ k, Reopens Crypto.sample 1 (fun _ => sampleNow)
          (st.puts (((run Crypto.sample s₀ [.addBlock sampleNow (idleBlock 0)]).addBlockPuts
            Crypto.sample sampleNow (idleBlock 1)).take k))
          (run Crypto.sample s₀ [.addBlock sampleNow (idleBlock 0)]) ∨
        Reopens Crypto.sample 1 (fun _ => sampleNow)
          (st.puts (((run Crypto.sample s₀ [.addBlock sampleNow (idleBlock 0)]).addBlockPuts
            Crypto.sample sampleNow (idleBlock 1)).take k))
          ((run Crypto.sample s₀ [.addBlock sampleNow (idleBlock 0)]).addBlock Crypto.sample
            sampleNow (idleBlock 1)).2 := by
  have hsep : Separated Crypto.sample [sampleGenesis, idleBlock 0, idleBlock 1] := by
    rw [Separated]
    decide +kernel
  let evs : List Event := [.addBlock sampleNow (idleBlock 0)] ++ [.addBlock sampleNow (idleBlock 1)]
  have hmem : ∀ s₀ : Blockchain, s₀.blocks = [sampleGenesis] → ∀ x ∈ [] ++ s₀.blocks ++
      recorded Crypto.sample s₀ evs, x ∈ [sampleGenesis, idleBlock 0, idleBlock 1] := by
    intro s₀ hs₀ x hx
    rw [hs₀, List.nil_append] at hx
    rcases List.mem_append.mp hx with hx | hx
    · exact List.mem_singleton.mp hx ▸ List.mem_cons_self
    · obtain ⟨now, hev⟩ := exists_event_of_mem_recorded hx
      simp only [evs, List.cons_append, List.nil_append, List.mem_cons, Event.addBlock.injEq,
        List.not_mem_nil, or_false] at hev
      rcases hev with ⟨-, rfl⟩ | ⟨-, rfl⟩ <;> simp
  have hclock : ∀ now x, Event.addBlock now x ∈ evs → ∀ _ : ℕ, now ≤ sampleNow := by
    intro now x hev _
    simp only [evs, List.cons_append, List.nil_append, List.mem_cons, Event.addBlock.injEq,
      List.not_mem_nil, or_false] at hev
    rcases hev with ⟨rfl, -⟩ | ⟨rfl, -⟩ <;> exact le_rfl
  obtain ⟨st, hstore, hiff⟩ := crash_safe_iff Crypto.sample [] .empty .empty 1 (fun _ => sampleNow)
    _ openForNetwork_sample [.addBlock sampleNow (idleBlock 0)]
    (Or.inr ⟨trivial, fun _ => Nat.zero_lt_one⟩) sampleNow (idleBlock 1) (hsep.mono (hmem _ rfl)) 1
    (fun _ => sampleNow) (fun _ _ => le_rfl) hclock
  refine ⟨_, st, openForNetwork_sample, hstore, hiff.mpr fun _ => Or.inl ?_⟩
  decide +kernel

end Blockchain

end Arkos
