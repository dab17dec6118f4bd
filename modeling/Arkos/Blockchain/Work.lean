import Arkos.Blockchain.Ancestry
import Arkos.Blockchain.ProofOfWork

/-!
# Work and targets

`block_work` divides the largest 128-bit number by the upper half of the target, and gives that
number itself when the upper half is zero. Which compact difficulty the target came from does not
matter: work is a function of the number the target is, and a decreasing one, the sentinel included,
since a zero divisor is smaller than all others and its quotient the largest.

Work is never zero. So in every state of a node a child outweighs its parent, by what its own
difficulty is worth, and the one addition that is checked is the one way to fail: whatever is stored
has its entry in the work table.

## Main results

* `blockWork_eq`, `blockWork_anti`
* `Blockchain.chain_work_increases`
-/

namespace Arkos

/-- The work of a block in terms of the number its target is. -/
theorem blockWork_eq (bits : UInt32) :
    blockWork bits = if targetOf bits / 256 ^ 16 = 0 then 2 ^ 128 - 1
      else (2 ^ 128 - 1) / (targetOf bits / 256 ^ 16) := by
  have hprefix : ofBeBytes ((bitsToTarget bits).take 16) = targetOf bits / 256 ^ 16 := by
    rw [ofBeBytes_take, length_bitsToTarget]
    rfl
  rw [blockWork, hprefix]

/-- **A harder target is worth at least as much work.** -/
theorem blockWork_anti {bits bits' : UInt32} (h : targetOf bits ≤ targetOf bits') :
    blockWork bits' ≤ blockWork bits := by
  have hdiv : targetOf bits / 256 ^ 16 ≤ targetOf bits' / 256 ^ 16 := Nat.div_le_div_right h
  rw [blockWork_eq, blockWork_eq]
  generalize targetOf bits / 256 ^ 16 = x at hdiv ⊢
  generalize targetOf bits' / 256 ^ 16 = y at hdiv ⊢
  by_cases hx : x = 0
  · rw [if_pos hx]
    split
    · exact le_rfl
    · exact Nat.div_le_self _ _
  · rw [if_neg hx, if_neg (by omega)]
    exact Nat.div_le_div_left hdiv (Nat.pos_of_ne_zero hx)

namespace Blockchain

variable {C : Crypto} {g : Block} {hist : List Block} {s : Blockchain}

namespace Ancestry

/-- **A stored child outweighs its stored parent** by the work of its own difficulty. -/
theorem work_child (ha : Ancestry C g hist s) (hnc : NoCollision C hist) {h : String} {b p : Block}
    (hb : s.allBlocks.lookup h = some b) (hne : b ≠ g)
    (hp : s.allBlocks.lookup b.header.prevHash = some p) :
    ∃ pw w, s.chainWork.lookup b.header.prevHash = some pw ∧ s.chainWork.lookup h = some w ∧
      w = pw + blockWork b.header.bits ∧ pw < w := by
  obtain ⟨-, w, hw, hdesc⟩ := ha.own h b hb
  obtain ⟨-, -, pw, hpw, rfl⟩ := ha.parent_of_descends hnc hdesc hne hp
  exact ⟨pw, _, hpw, hw, rfl, Nat.lt_add_of_pos_right (blockWork_pos _)⟩

/-- What happens to a block that has passed every check but the last depends on one sum. -/
theorem work_checked (ha : Ancestry C g hist s) {now : ℕ} {b p : Block}
    (hfresh : b.hashHex C ∉ s.allBlocks) (hp : s.allBlocks.lookup b.header.prevHash = some p)
    (hval : b.validate C (p.hashHex C) = .ok ())
    (hctx : s.validateBlockAgainstParent C now b p = .ok ()) :
    ∃ pw, s.chainWork.lookup b.header.prevHash = some pw ∧
      if pw + blockWork b.header.bits < 2 ^ 128 then
        s.checkBlock C now b = .ok (some (pw + blockWork b.header.bits)) ∧
          ∃ current, (s.recordBlock C b (pw + blockWork b.header.bits)).chainWork.lookup
            (s.tip.hashHex C) = some current
      else s.addBlock C now b = (.error .chainWorkOverflow, s) := by
  obtain ⟨-, pw, hpw, -⟩ := ha.own _ p hp
  refine ⟨pw, hpw, ?_⟩
  split
  · next hlt =>
    obtain ⟨hheight, hcontext⟩ := validateBlockAgainstParent_eq_ok_iff.mp hctx
    have hchecked : Checked C now s b (pw + blockWork b.header.bits) :=
      ⟨hfresh, ⟨p, hp, Block.validate_eq_ok_iff.mp hval, hheight⟩, hcontext, pw, hpw, rfl, hlt⟩
    exact ⟨checkBlock_eq_ok_some_iff.mpr hchecked, (ha.recordBlock hchecked).exists_lookup_tip⟩
  · next hge =>
    have hcheck : s.checkBlock C now b = .error .chainWorkOverflow := by
      rw [checkBlock_of_validated hfresh hp hval hctx hpw, checkedAdd, if_neg hge,
        Option.elim_none]
    rw [Blockchain.addBlock, hcheck]

end Ancestry

/-- **Work decreases with the target and grows along every chain.** Whatever the compact forms, the
larger of two targets is worth no more work, and every target is worth some. In every state of a
node, opened or started and after any calls, a stored block weighs its parent's weight and its own
work, which is strictly more than its parent. And once a block has passed the other checks, its
weight is recorded unless it does not fit 128 bits, in which case nothing is written. -/
theorem chain_work_increases :
    (∀ bits bits' : UInt32, targetOf bits ≤ targetOf bits' → blockWork bits' ≤ blockWork bits) ∧
    (∀ bits : UInt32, 1 ≤ blockWork bits) ∧
    ∀ (C : Crypto) (g : Block) (hist : List Block) (s : Blockchain), Reached C g hist s →
      (NoCollision C hist → ∀ h b p, s.allBlocks.lookup h = some b → b ≠ g →
        s.allBlocks.lookup b.header.prevHash = some p →
        ∃ pw w, s.chainWork.lookup b.header.prevHash = some pw ∧ s.chainWork.lookup h = some w ∧
          w = pw + blockWork b.header.bits ∧ pw < w) ∧
      ∀ now b p, b.hashHex C ∉ s.allBlocks → s.allBlocks.lookup b.header.prevHash = some p →
        b.validate C (p.hashHex C) = .ok () → s.validateBlockAgainstParent C now b p = .ok () →
        ∃ pw, s.chainWork.lookup b.header.prevHash = some pw ∧
          if pw + blockWork b.header.bits < 2 ^ 128 then
            s.checkBlock C now b = .ok (some (pw + blockWork b.header.bits)) ∧
              ∃ current, (s.recordBlock C b (pw + blockWork b.header.bits)).chainWork.lookup
                (s.tip.hashHex C) = some current
          else s.addBlock C now b = (.error .chainWorkOverflow, s) := by
  refine ⟨fun _ _ => blockWork_anti, blockWork_pos, fun C g hist s hs => ⟨?_, ?_⟩⟩
  · intro hnc h b p hb hne hp
    exact hs.ancestry.work_child hnc hb hne hp
  · intro now b p hfresh hp hval hctx
    exact hs.ancestry.work_checked hfresh hp hval hctx

/-- The block after the genesis weighs more than the genesis. -/
theorem chain_work_increases_idleBlock :
    ∃ hist s, Reached Crypto.sample sampleGenesis hist s ∧ s.blocks = [sampleGenesis, idleBlock 0] ∧
      ∃ pw w, s.chainWork.lookup (sampleGenesis.hashHex Crypto.sample) = some pw ∧
        s.chainWork.lookup ((idleBlock 0).hashHex Crypto.sample) = some w ∧ pw < w := by
  have hchain : idleChain 0 = [sampleGenesis, idleBlock 0] := rfl
  have hprev : (idleBlock 0).header.prevHash = sampleGenesis.hashHex Crypto.sample := by
    decide +kernel
  obtain ⟨hist, s, hs, hnc, hinv, hblocks⟩ := exists_reached_of_sampleChain
    (sampleChain_idleChain (n := 0) (by norm_num)) (by norm_num)
    (noCollision_idleChain (by norm_num))
  rw [hchain] at hblocks
  have hg := hinv.stored sampleGenesis (by simp [hblocks])
  have hb := hinv.stored (idleBlock 0) (by simp [hblocks])
  have hne : idleBlock 0 ≠ sampleGenesis := fun heq =>
    absurd (congrArg Block.height heq) (by decide)
  obtain ⟨pw, w, hpw, hw, -, hlt⟩ := (chain_work_increases.2.2 Crypto.sample sampleGenesis hist s
    hs).1 hnc _ _ _ hb hne (hprev ▸ hg)
  exact ⟨hist, s, hs, hblocks, pw, w, hprev ▸ hpw, hw, hlt⟩

end Blockchain

end Arkos
