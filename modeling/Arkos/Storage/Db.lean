import Arkos.Blockchain.Block

/-!
# The block store

A key-value table with three kinds of keys: `block:<hash>` holds a block, `height:<n>` holds a
hash, and `tip` holds a hash. `saveBlock` writes the first two, whatever chain the block is on, so
the entry under a height is that of the block saved *last* at this height.

A value is kept as what was serialized rather than as its bytes, which is what it is worth when
decoding undoes encoding; only the limit on the size of what is decoded is left to check. The
table itself does not fail.

## Main definitions

* `Record`, `BlockStore`
* `BlockStore.saveBlock`, `BlockStore.saveTip`
* `BlockStore.loadBlockByHash`, `BlockStore.loadBlockByHeight`, `BlockStore.loadTip`
* `BlockStore.Written`, `BlockStore.Holds` — what was saved, and what a reader would find

## Main results

* `BlockStore.blockAt_saveBlock`, `BlockStore.heightAt_saveBlock`, `BlockStore.tipAt_saveBlock` and
  the same for `saveTip` — each write seen from each kind of key
* `BlockStore.Written.level` — the height index leads to blocks of that height
* `BlockStore.holds_saveBlock_iff` — when saving one more block keeps a chain readable
-/

namespace Arkos

/-- A stored value: a block, or a text. -/
inductive Record where
  | block (b : Block)
  | text (s : String)
  deriving DecidableEq

/-- `MAX_BLOCK_SIZE`: how much of a block is decoded. -/
def maxStoredBlockSize : ℕ := 32 * 1024 * 1024

/-- Why a stored value cannot be read. -/
inductive StoreError where
  | sizeLimit
  | malformed
  deriving DecidableEq, Repr

/-- The text of the error. -/
def StoreError.message : StoreError → String
  | .sizeLimit => "block deserialization failed: the size limit has been reached"
  | .malformed => "block deserialization failed"

/-- `BlockStore`. -/
structure BlockStore where
  db : Table Record
  deriving DecidableEq

namespace BlockStore

/-- The key of a block. -/
def blockKey (hash : String) : String := "block:" ++ hash

/-- The key of a height. -/
def heightKey (height : ℕ) : String := "height:" ++ toString height

/-- The key of the tip. -/
def tipKey : String := "tip"

/-- A store nothing was written to. -/
def empty : BlockStore := ⟨∅⟩

/-- `BlockStore::save_block`. -/
def saveBlock (C : Crypto) (st : BlockStore) (b : Block) : BlockStore :=
  ⟨(st.db.insert (blockKey (b.hashHex C)) (.block b)).insert (heightKey b.height)
    (.text (b.hashHex C))⟩

/-- `BlockStore::save_tip`. -/
def saveTip (st : BlockStore) (hash : String) : BlockStore := ⟨st.db.insert tipKey (.text hash)⟩

/-- `BlockStore::load_block_by_hash`. -/
def loadBlockByHash (st : BlockStore) (hash : String) : Except StoreError (Option Block) :=
  match st.db.lookup (blockKey hash) with
  | none => .ok none
  | some (.block b) =>
    if maxStoredBlockSize < b.serializedSize then .error .sizeLimit else .ok (some b)
  | some (.text _) => .error .malformed

/-- `BlockStore::load_block_by_height`. -/
def loadBlockByHeight (st : BlockStore) (height : ℕ) : Except StoreError (Option Block) :=
  match st.db.lookup (heightKey height) with
  | none => .ok none
  | some (.text hash) => st.loadBlockByHash hash
  | some (.block _) => .error .malformed

/-- `BlockStore::load_tip`. -/
def loadTip (st : BlockStore) : Except StoreError (Option String) :=
  match st.db.lookup tipKey with
  | none => .ok none
  | some (.text hash) => .ok (some hash)
  | some (.block _) => .error .malformed

/-! ### The three kinds of keys -/

theorem blockKey_inj {h h' : String} (e : blockKey h = blockKey h') : h = h' := by
  have hl := congrArg String.toList e
  simp only [blockKey, String.toList_append] at hl
  exact String.toList_inj.mp (List.append_cancel_left hl)

theorem heightKey_inj {n n' : ℕ} (e : heightKey n = heightKey n') : n = n' := by
  have hl := congrArg String.toList e
  simp only [heightKey, String.toList_append] at hl
  exact decimal_injective (String.toList_inj.mp (List.append_cancel_left hl))

theorem blockKey_ne_heightKey (h : String) (n : ℕ) : blockKey h ≠ heightKey n := by
  intro e
  have hl := congrArg (fun s => s.toList.head?) e
  simp [blockKey, heightKey] at hl

theorem tipKey_ne_blockKey (h : String) : tipKey ≠ blockKey h := by
  intro e
  have hl := congrArg (fun s => s.toList.head?) e
  simp [blockKey, tipKey] at hl

theorem tipKey_ne_heightKey (n : ℕ) : tipKey ≠ heightKey n := by
  intro e
  have hl := congrArg (fun s => s.toList.head?) e
  simp [heightKey, tipKey] at hl

/-! ### Every write seen from every kind of key -/

/-- The record under a block key. -/
def blockAt (st : BlockStore) (hash : String) : Option Record := st.db.lookup (blockKey hash)

/-- The record under a height key. -/
def heightAt (st : BlockStore) (height : ℕ) : Option Record := st.db.lookup (heightKey height)

/-- The record under the tip key. -/
def tipAt (st : BlockStore) : Option Record := st.db.lookup tipKey

variable {C : Crypto}

theorem blockAt_saveBlock (st : BlockStore) (b : Block) (hash : String) :
    (st.saveBlock C b).blockAt hash =
      if hash = b.hashHex C then some (.block b) else st.blockAt hash := by
  rw [blockAt, saveBlock, Finmap.lookup_insert_eq, if_neg (blockKey_ne_heightKey _ _),
    Finmap.lookup_insert_eq]
  by_cases h : hash = b.hashHex C
  · rw [if_pos h, if_pos (congrArg blockKey h)]
  · rw [if_neg h, if_neg fun e => h (blockKey_inj e), blockAt]

theorem heightAt_saveBlock (st : BlockStore) (b : Block) (n : ℕ) :
    (st.saveBlock C b).heightAt n =
      if n = b.height then some (.text (b.hashHex C)) else st.heightAt n := by
  rw [heightAt, saveBlock, Finmap.lookup_insert_eq]
  by_cases h : n = b.height
  · rw [if_pos h, if_pos (congrArg heightKey h)]
  · rw [if_neg h, if_neg fun e => h (heightKey_inj e), Finmap.lookup_insert_eq,
      if_neg (blockKey_ne_heightKey _ _).symm, heightAt]

@[simp] theorem tipAt_saveBlock (st : BlockStore) (b : Block) :
    (st.saveBlock C b).tipAt = st.tipAt := by
  rw [tipAt, saveBlock, Finmap.lookup_insert_eq, if_neg (tipKey_ne_heightKey _),
    Finmap.lookup_insert_eq, if_neg (tipKey_ne_blockKey _), tipAt]

@[simp] theorem blockAt_saveTip (st : BlockStore) (hash hash' : String) :
    (st.saveTip hash).blockAt hash' = st.blockAt hash' := by
  rw [blockAt, saveTip, Finmap.lookup_insert_eq, if_neg (tipKey_ne_blockKey _).symm, blockAt]

@[simp] theorem heightAt_saveTip (st : BlockStore) (hash : String) (n : ℕ) :
    (st.saveTip hash).heightAt n = st.heightAt n := by
  rw [heightAt, saveTip, Finmap.lookup_insert_eq, if_neg (tipKey_ne_heightKey _).symm, heightAt]

@[simp] theorem tipAt_saveTip (st : BlockStore) (hash : String) :
    (st.saveTip hash).tipAt = some (.text hash) := by
  rw [tipAt, saveTip, Finmap.lookup_insert]

theorem loadBlockByHash_of_blockAt {st : BlockStore} {hash : String} {b : Block}
    (h : st.blockAt hash = some (.block b)) (hsize : b.serializedSize ≤ maxStoredBlockSize) :
    st.loadBlockByHash hash = .ok (some b) := by
  rw [blockAt] at h
  rw [loadBlockByHash, h]
  exact if_neg (Nat.not_lt.mpr hsize)

theorem loadBlockByHeight_of_heightAt {st : BlockStore} {n : ℕ} {hash : String}
    (h : st.heightAt n = some (.text hash)) : st.loadBlockByHeight n = st.loadBlockByHash hash := by
  rw [heightAt] at h
  rw [loadBlockByHeight, h]

theorem loadTip_of_tipAt {st : BlockStore} {hash : String} (h : st.tipAt = some (.text hash)) :
    st.loadTip = .ok (some hash) := by
  rw [tipAt] at h
  rw [loadTip, h]

theorem blockAt_of_loadBlockByHash {st : BlockStore} {hash : String} {b : Block}
    (h : st.loadBlockByHash hash = .ok (some b)) :
    st.blockAt hash = some (.block b) ∧ b.serializedSize ≤ maxStoredBlockSize := by
  rw [loadBlockByHash] at h
  rw [blockAt]
  split at h
  · cases h
  · next c hc =>
    split at h
    · cases h
    · next hsize =>
      obtain rfl := Option.some.inj (Except.ok.inj h)
      exact ⟨hc, Nat.not_lt.mp hsize⟩
  · cases h

theorem tipAt_of_loadTip {st : BlockStore} {hash : String} (h : st.loadTip = .ok (some hash)) :
    st.tipAt = some (.text hash) := by
  rw [loadTip] at h
  rw [tipAt]
  split at h
  · cases h
  · next hash' hat =>
    rw [hat, Option.some.inj (Except.ok.inj h)]
  · cases h

/-! ### What a store was written by -/

/-- A store that was written by saving some of the given blocks and by setting the tip. -/
inductive Written (C : Crypto) (saved : List Block) : BlockStore → Prop
  | empty : Written C saved empty
  | saveBlock {st b} : Written C saved st → b ∈ saved → Written C saved (st.saveBlock C b)
  | saveTip {st hash} : Written C saved st → Written C saved (st.saveTip hash)

theorem Written.mono {saved saved' : List Block} (hsub : ∀ b ∈ saved, b ∈ saved') {st : BlockStore}
    (h : Written C saved st) : Written C saved' st := by
  induction h with
  | empty => exact .empty
  | saveBlock _ hb ih => exact .saveBlock ih (hsub _ hb)
  | saveTip _ ih => exact .saveTip ih

theorem Written.foldl {saved : List Block} {st : BlockStore} (h : Written C saved st)
    {bs : List Block} (hsub : ∀ b ∈ bs, b ∈ saved) :
    Written C saved (bs.foldl (BlockStore.saveBlock C) st) := by
  induction bs generalizing st with
  | nil => exact h
  | cons b bs ih =>
    exact ih (.saveBlock h (hsub b List.mem_cons_self)) fun x hx =>
      hsub x (List.mem_cons_of_mem _ hx)

/-- A block is stored under its own hash. -/
theorem Written.own {saved : List Block} {st : BlockStore} (h : Written C saved st) {hash : String}
    {b : Block} (hb : st.blockAt hash = some (.block b)) : b.hashHex C = hash ∧ b ∈ saved := by
  induction h with
  | empty => simp [blockAt, BlockStore.empty] at hb
  | @saveBlock st c _ hc ih =>
    rw [blockAt_saveBlock] at hb
    split at hb
    · next heq =>
      cases hb
      exact ⟨heq.symm, hc⟩
    · exact ih hb
  | saveTip _ ih => exact ih (by rwa [blockAt_saveTip] at hb)

/-- **The height index leads to a block of that height**, when the saved blocks are told apart by
their hashes. Which of them it leads to is another matter. -/
theorem Written.level {saved : List Block} (hsep : Separated C saved) {st : BlockStore}
    (h : Written C saved st) {n : ℕ} {r : Record} (hr : st.heightAt n = some r) :
    ∃ b, r = .text (b.hashHex C) ∧ b.height = n ∧ b ∈ saved ∧
      st.blockAt (b.hashHex C) = some (.block b) := by
  induction h with
  | empty => simp [heightAt, BlockStore.empty] at hr
  | @saveBlock st c _ hc ih =>
    rw [heightAt_saveBlock] at hr
    split at hr
    · next heq =>
      cases hr
      exact ⟨c, rfl, heq.symm, hc, by rw [blockAt_saveBlock, if_pos rfl]⟩
    · obtain ⟨b, rfl, hheight, hmem, hat⟩ := ih hr
      refine ⟨b, rfl, hheight, hmem, ?_⟩
      rw [blockAt_saveBlock]
      split
      · next heq => rw [hsep b hmem c hc heq]
      · exact hat
  | saveTip _ ih =>
    obtain ⟨b, hr, hheight, hmem, hat⟩ := ih (by rwa [heightAt_saveTip] at hr)
    exact ⟨b, hr, hheight, hmem, by rwa [blockAt_saveTip]⟩

/-! ### A store that holds a chain -/

/-- Reading the heights up to that of the tip yields `bs`. -/
structure Holds (C : Crypto) (st : BlockStore) (bs : List Block) : Prop where
  block_at : ∀ b ∈ bs, st.blockAt (b.hashHex C) = some (.block b)
  height_at : ∀ (i : ℕ) (b : Block), bs[i]? = some b → st.heightAt i = some (.text (b.hashHex C))

/-- Saving a chain block by block leaves a store that holds it. -/
theorem holds_foldl_saveBlock {bs : List Block} (hsep : Separated C bs)
    (hheight : ∀ (i : ℕ) (b : Block), bs[i]? = some b → b.height = i) (st : BlockStore) :
    Holds C (bs.foldl (saveBlock C) st) bs := by
  induction bs using List.reverseRecOn with
  | nil => exact ⟨fun b hb => absurd hb List.not_mem_nil, fun i b hb => by simp at hb⟩
  | append_singleton bs b ih =>
    have hb : (bs ++ [b])[bs.length]? = some b := by simp
    have hlast : b.height = bs.length := hheight _ b hb
    have hrest := ih (hsep.mono fun x hx => List.mem_append_left _ hx) fun i x hx =>
      hheight i x (by rw [List.getElem?_append_left (List.getElem?_eq_some_iff.mp hx).1, hx])
    rw [List.foldl_append, List.foldl_cons, List.foldl_nil]
    refine ⟨fun x hx => ?_, fun i x hx => ?_⟩
    · rw [blockAt_saveBlock]
      split
      · next heq => rw [hsep x hx b (List.mem_append_right _ List.mem_cons_self) heq]
      · next hne =>
        rcases List.mem_append.mp hx with hx | hx
        · exact hrest.block_at x hx
        · exact absurd (congrArg (Block.hashHex C) (List.mem_singleton.mp hx)) hne
    · rw [heightAt_saveBlock, hlast]
      split
      · next heq =>
        rw [heq, hb] at hx
        rw [Option.some.inj hx]
      · next hne =>
        refine hrest.height_at i x ?_
        have hi := (List.getElem?_eq_some_iff.mp hx).1
        rw [List.length_append, List.length_singleton] at hi
        rwa [List.getElem?_append_left (by omega)] at hx

theorem Holds.saveTip {st : BlockStore} {bs : List Block} (h : Holds C st bs) (hash : String) :
    Holds C (st.saveTip hash) bs :=
  ⟨fun b hb => by rw [blockAt_saveTip, h.block_at b hb],
    fun i b hb => by rw [heightAt_saveTip, h.height_at i b hb]⟩

/-- Saving one more block of a new hash keeps the chain unless it is at one of its heights. -/
theorem holds_saveBlock_iff {st : BlockStore} {bs : List Block} {b : Block}
    (hat : ∀ x ∈ bs, st.blockAt (x.hashHex C) = some (.block x))
    (hfresh : ∀ x ∈ bs, x.hashHex C ≠ b.hashHex C) :
    Holds C (st.saveBlock C b) bs ↔ Holds C st bs ∧ bs.length ≤ b.height := by
  constructor
  · intro h
    have hheight : bs.length ≤ b.height := by
      by_contra hlt
      have hget := List.getElem?_eq_getElem (Nat.not_le.mp hlt)
      have hbad := h.height_at b.height _ hget
      rw [heightAt_saveBlock, if_pos rfl] at hbad
      exact hfresh _ (List.mem_of_getElem? hget) (Record.text.inj (Option.some.inj hbad)).symm
    refine ⟨⟨hat, fun i x hx => ?_⟩, hheight⟩
    have hi := (List.getElem?_eq_some_iff.mp hx).1
    have hkeep := h.height_at i x hx
    rwa [heightAt_saveBlock, if_neg (by omega)] at hkeep
  · rintro ⟨h, hheight⟩
    refine ⟨fun x hx => ?_, fun i x hx => ?_⟩
    · rw [blockAt_saveBlock, if_neg (hfresh x hx), h.block_at x hx]
    · have hi := (List.getElem?_eq_some_iff.mp hx).1
      rw [heightAt_saveBlock, if_neg (by omega), h.height_at i x hx]

end BlockStore

end Arkos
