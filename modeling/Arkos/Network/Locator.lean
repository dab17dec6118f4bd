import Arkos.Network.Node
import Arkos.Blockchain.Replay

/-!
# Locators

A node that is behind names some of its blocks to a peer, and the peer answers with what follows the
first of these it has on its own chain. The blocks named are the tip, ten more below it one by one,
and then ever fewer, the distances doubling; genesis is named last.

The loop takes its turns from four things: the height, the step, the length so far and the cap. All
of them are functions of the number of turns taken. The `k`-th hash is that of the block
`locatorOffset k` below the tip, as long as there is one, whatever the height. And an offset is at
most twice the one before it and one more, so a locator that misses a fork at some depth hits the
chain again at no more than twice this depth. The batch of headers has room for all between.

## Main definitions

* `locatorOffset`, `locatorHeights` — what a locator names
* `LocatorLoop` — the loop, as a relation that holds only of runs that end
* `LastCommon` — where two chains part

## Main results

* `locatorLoop_eq`, `locatorLoop_run` — the loop ends, with these heights
* `exists_locatorHeight` — a height at most twice as deep as the fork
* `Blockchain.Inv.blockLocator_eq`, `Node.locator_finds_fork`
-/

namespace Arkos

/-! ### What is named -/

/-- How far below the tip the `k`-th hash of a locator is. -/
def locatorOffset (k : ℕ) : ℕ := min k 10 + 2 ^ (k - 10) - 1

theorem locatorOffset_succ (k : ℕ) : locatorOffset (k + 1) = locatorOffset k + 2 ^ (k - 10) := by
  unfold locatorOffset
  rcases Nat.lt_or_ge k 10 with hk | hk
  · have hstep : k + 1 - 10 = 0 := by omega
    have hstep' : k - 10 = 0 := by omega
    rw [hstep, hstep', pow_zero]
    omega
  · have hstep : k + 1 - 10 = k - 10 + 1 := by omega
    have hpos : 0 < 2 ^ (k - 10) := Nat.two_pow_pos _
    rw [hstep, pow_succ]
    omega

theorem locatorOffset_strictMono : StrictMono locatorOffset :=
  strictMono_nat_of_lt_succ fun k => by
    rw [locatorOffset_succ]
    exact Nat.lt_add_of_pos_right (Nat.two_pow_pos _)

theorem locatorOffset_succ_le (k : ℕ) : locatorOffset (k + 1) ≤ 2 * locatorOffset k + 1 := by
  rw [locatorOffset_succ]
  have hpos : 0 < 2 ^ (k - 10) := Nat.two_pow_pos _
  unfold locatorOffset
  omega

/-- No depth is far above the next offset. -/
theorem exists_locatorOffset {d : ℕ} (hd : d ≤ locatorOffset 31) :
    ∃ k < maxLocatorHashes, d ≤ locatorOffset k ∧ locatorOffset k ≤ 2 * d := by
  have hex : ∃ k, d ≤ locatorOffset k := ⟨31, hd⟩
  refine ⟨Nat.find hex, Nat.lt_succ_of_le (Nat.find_min' hex hd), Nat.find_spec hex, ?_⟩
  cases hk : Nat.find hex with
  | zero => exact Nat.zero_le _
  | succ k =>
    have hlt : ¬ d ≤ locatorOffset k := Nat.find_min hex (by omega)
    have hle := locatorOffset_succ_le k
    omega

/-- The heights of the blocks a locator names, without genesis. -/
def locatorAbove (height : ℕ) : List ℕ :=
  (((List.range maxLocatorHashes).map locatorOffset).filter (· < height)).map (height - ·)

/-- The heights of the blocks a locator names. -/
def locatorHeights (height : ℕ) : List ℕ := locatorAbove height ++ [0]

theorem mem_locatorAbove {height h : ℕ} :
    h ∈ locatorAbove height ↔
      ∃ k < maxLocatorHashes, locatorOffset k < height ∧ height - locatorOffset k = h := by
  simp [locatorAbove, and_assoc]

theorem pos_of_mem_locatorAbove {height h : ℕ} (hh : h ∈ locatorAbove height) : 0 < h := by
  obtain ⟨k, -, hlt, rfl⟩ := mem_locatorAbove.mp hh
  exact Nat.sub_pos_of_lt hlt

theorem mem_locatorHeights {height h : ℕ} :
    h ∈ locatorHeights height ↔
      (∃ k < maxLocatorHashes, locatorOffset k < height ∧ height - locatorOffset k = h) ∨
        h = 0 := by
  rw [locatorHeights, List.mem_append, List.mem_singleton, mem_locatorAbove]

theorem length_locatorHeights_le (height : ℕ) :
    (locatorHeights height).length ≤ maxLocatorHashes + 1 := by
  have hle := List.length_filter_le (fun o => decide (o < height))
    ((List.range maxLocatorHashes).map locatorOffset)
  rw [List.length_map, List.length_range] at hle
  rw [locatorHeights, locatorAbove, List.length_append, List.length_map, List.length_singleton]
  exact Nat.succ_le_succ hle

theorem pairwise_locatorHeights (height : ℕ) : (locatorHeights height).Pairwise (· > ·) := by
  refine List.pairwise_append.mpr ⟨?_, List.pairwise_singleton _ _, ?_⟩
  · refine List.pairwise_map.mpr ?_
    have hoffsets : ((List.range maxLocatorHashes).map locatorOffset).Pairwise (· < ·) :=
      List.pairwise_map.mpr (List.pairwise_lt_range.imp fun h => locatorOffset_strictMono h)
    refine (hoffsets.filter _).imp_of_mem fun {o _} ho _ hlt => ?_
    have ho' : o < height := by simpa using (List.mem_filter.mp ho).2
    omega
  · intro h hh b hb
    rw [List.mem_singleton.mp hb]
    exact pos_of_mem_locatorAbove hh

theorem head?_locatorHeights (height : ℕ) : (locatorHeights height).head? = some height := by
  cases height with
  | zero => simp [locatorHeights, locatorAbove]
  | succ n =>
    have hfirst : (List.range maxLocatorHashes).map locatorOffset =
        0 :: (List.range 31).map (locatorOffset ∘ Nat.succ) := by
      rw [maxLocatorHashes, List.range_succ_eq_map, List.map_cons, List.map_map]
      rfl
    rw [locatorHeights, locatorAbove, hfirst, List.filter_cons_of_pos (by simp)]
    rfl

theorem getLast?_locatorHeights (height : ℕ) : (locatorHeights height).getLast? = some 0 :=
  List.getLast?_concat ..

/-- **A locator hits every chain.** Below a fork there is a height at most twice as deep. -/
theorem exists_locatorHeight {height f : ℕ} (hf : f ≤ height)
    (hdepth : height - f ≤ locatorOffset 31) :
    ∃ l ∈ locatorHeights height, l ≤ f ∧ f ≤ l + (height - f) := by
  obtain ⟨k, hk, hle, hle'⟩ := exists_locatorOffset hdepth
  by_cases hlt : locatorOffset k < height
  · exact ⟨height - locatorOffset k, mem_locatorHeights.mpr (Or.inl ⟨k, hk, hlt, rfl⟩), by omega,
      by omega⟩
  · exact ⟨0, mem_locatorHeights.mpr (Or.inr rfl), by omega, by omega⟩

/-! ### The loop -/

section

variable (C : Crypto)

/-- The first half of a turn: the hash of the block at the height, if there is one. -/
def pushHash (blocks : List Block) (height : ℕ) (locator : List String) : List String :=
  match blocks[height]? with
  | some block => locator ++ [block.hashHex C]
  | none => locator

/-- The loop of `block_locator`. Only runs that end have a derivation. -/
inductive LocatorLoop (blocks : List Block) : ℕ → ℕ → List String → List String → Prop
  | stop {height step locator} :
    (height = 0 ∨ maxLocatorHashes ≤ (pushHash C blocks height locator).length) →
      LocatorLoop blocks height step locator (pushHash C blocks height locator)
  | turn {height step locator result} :
    ¬ (height = 0 ∨ maxLocatorHashes ≤ (pushHash C blocks height locator).length) →
      LocatorLoop blocks (height - step)
        (if 10 < (pushHash C blocks height locator).length then min (step * 2) (2 ^ 64 - 1)
          else step)
        (pushHash C blocks height locator) result →
      LocatorLoop blocks height step locator result

end

variable {C : Crypto} {blocks : List Block}

/-- A run that ends needs no more turns than the height. -/
theorem locatorLoop_eq {fuel height step : ℕ} {locator result : List String}
    (h : LocatorLoop C blocks height step locator result) (hfuel : height < fuel)
    (hstep : 0 < step) : Node.locatorLoop C blocks fuel height step locator = result := by
  induction h generalizing fuel with
  | @stop height step locator hstop =>
    obtain ⟨fuel, rfl⟩ := Nat.exists_eq_succ_of_ne_zero (Nat.ne_zero_of_lt hfuel)
    exact if_pos hstop
  | @turn height step locator result hgo _ ih =>
    obtain ⟨fuel, rfl⟩ := Nat.exists_eq_succ_of_ne_zero (Nat.ne_zero_of_lt hfuel)
    obtain ⟨hheight, -⟩ := not_or.mp hgo
    refine (if_neg hgo).trans (ih (by omega) ?_)
    split
    · exact lt_min (by omega) (by norm_num)
    · exact hstep

/-- The step doubles from the eleventh turn on, and does not reach the cap before the list does. -/
theorem nextStep_eq {k : ℕ} (hk : k < maxLocatorHashes) :
    (if 10 < k + 1 then min (2 ^ (k - 10) * 2) (2 ^ 64 - 1) else 2 ^ (k - 10)) =
      2 ^ (k + 1 - 10) := by
  rw [maxLocatorHashes] at hk
  split
  · next hten =>
    have hexp : k + 1 - 10 = k - 10 + 1 := by omega
    have hcap : 2 ^ (k - 10 + 1) ≤ 2 ^ 22 := Nat.pow_le_pow_right (by omega) (by omega)
    rw [hexp, ← pow_succ]
    exact min_eq_left (by omega)
  · next hten =>
    have hexp : k + 1 - 10 = k - 10 := by omega
    rw [hexp]

/-- Below the bottom there are no further offsets. -/
theorem filter_locatorOffset_eq_nil {height k : ℕ} (hzero : height ≤ locatorOffset k) (n : ℕ) :
    (locatorOffset k :: (List.range' (k + 1) n).map locatorOffset).filter (· < height) = [] := by
  refine List.filter_eq_nil_iff.mpr fun o ho => ?_
  have hle : locatorOffset k ≤ o := by
    rcases List.mem_cons.mp ho with rfl | ho
    · exact le_rfl
    · obtain ⟨j, hj, rfl⟩ := List.mem_map.mp ho
      refine locatorOffset_strictMono.monotone ?_
      exact (Nat.le_succ k).trans (List.mem_range'_1.mp hj).1
  simpa using hzero.trans hle

/-- **The loop after `k` turns.** `n` turns are left until the cap is reached. -/
theorem locatorLoop_run {height k n : ℕ} (hlen : blocks.length = height + 1) (hn : 0 < n)
    (hkn : k + n = maxLocatorHashes) {locator : List String} (hloc : locator.length = k) :
    LocatorLoop C blocks (height - locatorOffset k) (2 ^ (k - 10)) locator
      (locator ++ (((((List.range' k n).map locatorOffset).filter (· < height)).map (height - ·) ++
        if height ≤ locatorOffset 31 then [0] else []).filterMap (blocks[·]?)).map
          (Block.hashHex C)) := by
  induction n generalizing k locator with
  | zero => exact absurd hn (Nat.lt_irrefl 0)
  | succ n ih =>
    obtain ⟨block, hblock⟩ : ∃ block, blocks[height - locatorOffset k]? = some block :=
      ⟨_, List.getElem?_eq_getElem (by omega)⟩
    have hpush : pushHash C blocks (height - locatorOffset k) locator =
        locator ++ [block.hashHex C] := by rw [pushHash, hblock]
    rw [List.range'_succ, List.map_cons]
    by_cases hzero : height ≤ locatorOffset k
    · -- the bottom is reached: nothing is left of the offsets
      have hbottom : height - locatorOffset k = 0 := by omega
      have hlast : height ≤ locatorOffset 31 :=
        hzero.trans (locatorOffset_strictMono.monotone (by rw [maxLocatorHashes] at hkn; omega))
      rw [hbottom] at hblock hpush ⊢
      have hstop : LocatorLoop C blocks 0 (2 ^ (k - 10)) locator (pushHash C blocks 0 locator) :=
        .stop (Or.inl rfl)
      rw [hpush] at hstop
      rw [filter_locatorOffset_eq_nil hzero, if_pos hlast]
      simpa [hblock] using hstop
    · rw [List.filter_cons_of_pos (by simpa using hzero), List.map_cons, List.cons_append,
        List.filterMap_cons_some hblock, List.map_cons]
      have hlength : (locator ++ [block.hashHex C]).length = k + 1 := by
        rw [List.length_append, hloc, List.length_singleton]
      cases n with
      | zero =>
        -- the cap is reached above the bottom
        obtain rfl : k = 31 := by rw [maxLocatorHashes] at hkn; omega
        have hstop : LocatorLoop C blocks (height - locatorOffset 31) (2 ^ (31 - 10)) locator
            (pushHash C blocks (height - locatorOffset 31) locator) :=
          .stop (Or.inr (by rw [hpush, hlength]; rfl))
        rw [hpush] at hstop
        rw [if_neg hzero]
        exact hstop
      | succ n =>
        have hrest := ih (k := k + 1) (Nat.succ_pos n) (by omega) hlength
        refine LocatorLoop.turn ?_ ?_
        · rw [hpush, hlength, maxLocatorHashes]
          rw [maxLocatorHashes] at hkn
          omega
        · rw [hpush, hlength, nextStep_eq (by omega), Nat.sub_sub, ← locatorOffset_succ]
          rw [List.append_assoc, List.singleton_append] at hrest
          exact hrest

/-! ### The locator of a chain -/

/-- Reading blocks by their heights loses none. -/
theorem map_height_filterMap {hs : List ℕ}
    (h : ∀ i ∈ hs, ∃ b, blocks[i]? = some b ∧ b.height = i) :
    (hs.filterMap (blocks[·]?)).map Block.height = hs := by
  induction hs with
  | nil => rfl
  | cons i hs ih =>
    obtain ⟨⟨b, hb, hheight⟩, hrest⟩ := List.forall_mem_cons.mp h
    rw [List.filterMap_cons_some hb, List.map_cons, hheight, ih hrest]

namespace Blockchain

/-- The blocks that a locator names. -/
def locatorBlocks (s : Blockchain) : List Block :=
  (locatorHeights s.height).filterMap (s.blocks[·]?)

variable {magic : UInt32} {T : Set ℕ} {g : Block} {hist : List Block} {s : Blockchain}

theorem mem_blocks_of_mem_locatorBlocks {b : Block} (h : b ∈ s.locatorBlocks) : b ∈ s.blocks := by
  obtain ⟨i, -, hb⟩ := List.mem_filterMap.mp h
  exact List.mem_of_getElem? hb

namespace Inv

theorem getElem?_height (hg : g.height = 0) (hi : Inv C magic T g hist s) {b : Block}
    (hb : b ∈ s.blocks) : s.blocks[b.height]? = some b := by
  obtain ⟨i, hget⟩ := List.getElem?_of_mem hb
  rw [hi.active.height_eq hg hget]
  exact hget

theorem height_le (hg : g.height = 0) (hi : Inv C magic T g hist s) {b : Block}
    (hb : b ∈ s.blocks) : b.height ≤ s.height := by
  obtain ⟨hlt, -⟩ := List.getElem?_eq_some_iff.mp (hi.getElem?_height hg hb)
  rw [hi.length_blocks hg] at hlt
  omega

theorem getElem?_zero (hi : Inv C magic T g hist s) : s.blocks[0]? = some g := by
  rw [← List.head?_eq_getElem?]
  exact hi.active.head?_eq

/-- The loop ends with what the offsets say. -/
theorem locatorLoop_blocks (hg : g.height = 0) (hi : Inv C magic T g hist s) :
    LocatorLoop C s.blocks s.height 1 []
      (((locatorAbove s.height ++ if s.height ≤ locatorOffset 31 then [0] else []).filterMap
        (s.blocks[·]?)).map (Block.hashHex C)) := by
  rw [locatorAbove, List.range_eq_range']
  exact locatorLoop_run (k := 0) (hi.length_blocks hg) (Nat.succ_pos 31) rfl rfl

theorem locatorLoop_blocks_eq (hg : g.height = 0) (hi : Inv C magic T g hist s) :
    LocatorLoop C s.blocks s.height 1 []
      (Node.locatorLoop C s.blocks (s.height + 1) s.height 1 []) := by
  have hloop := hi.locatorLoop_blocks hg
  rw [locatorLoop_eq hloop (Nat.lt_succ_self _) Nat.one_pos]
  exact hloop

/-- **What a locator names.** The last step adds genesis where the cap cut it off. -/
theorem blockLocator_eq (hg : g.height = 0) (hi : Inv C magic T g hist s) :
    Node.blockLocator C s = s.locatorBlocks.map (Block.hashHex C) := by
  have hhead : s.blocks.head s.blocks_ne_nil = g := by
    have hsome := hi.active.head?_eq
    rw [List.head?_eq_some_head s.blocks_ne_nil] at hsome
    exact Option.some.inj hsome
  have hgenesis : ([0].filterMap (s.blocks[·]?)).map (Block.hashHex C) = [g.hashHex C] := by
    rw [List.filterMap_cons_some hi.getElem?_zero]
    rfl
  rw [Node.blockLocator, locatorLoop_eq (hi.locatorLoop_blocks hg) (Nat.lt_succ_self _) Nat.one_pos,
    hhead, locatorBlocks, locatorHeights]
  by_cases hreached : s.height ≤ locatorOffset 31
  · rw [if_pos hreached, List.filterMap_append, List.map_append, hgenesis]
    exact if_pos (List.getLast?_concat ..)
  · -- everything named so far is above genesis
    rw [if_neg hreached, List.append_nil, List.filterMap_append, List.map_append, hgenesis]
    refine if_neg fun hlast => ?_
    obtain ⟨b, hb, hhash⟩ := List.mem_map.mp (List.mem_of_getLast? hlast)
    obtain ⟨h, hh, hget⟩ := List.mem_filterMap.mp hb
    have hmem := List.mem_of_getElem? hget
    obtain rfl := hi.separated b (hi.mem_hist hmem) g (hi.mem_hist hi.genesis_mem) hhash
    have hheight := hi.active.height_eq hg hget
    have hpos := pos_of_mem_locatorAbove hh
    omega

/-- The blocks a locator names are at the heights it says. -/
theorem map_height_locatorBlocks (hg : g.height = 0) (hi : Inv C magic T g hist s) :
    s.locatorBlocks.map Block.height = locatorHeights s.height := by
  refine map_height_filterMap fun i hmem => ?_
  have hle : i ≤ s.height := by
    rcases mem_locatorHeights.mp hmem with ⟨k, -, -, rfl⟩ | rfl
    · exact Nat.sub_le _ _
    · exact Nat.zero_le _
  have hlt : i < s.blocks.length := by
    rw [hi.length_blocks hg]
    omega
  have hget := List.getElem?_eq_getElem hlt
  exact ⟨_, hget, hi.active.height_eq hg hget⟩

/-- The block of a chain at a height is one. -/
theorem eq_of_height_eq (hg : g.height = 0) (hi : Inv C magic T g hist s) {a b : Block}
    (ha : a ∈ s.blocks) (hb : b ∈ s.blocks) (h : a.height = b.height) : a = b := by
  have hget := hi.getElem?_height hg ha
  rw [h, hi.getElem?_height hg hb] at hget
  exact (Option.some.inj hget).symm

theorem head?_locatorBlocks (hg : g.height = 0) (hi : Inv C magic T g hist s) :
    s.locatorBlocks.head? = some s.tip := by
  have hheads := congrArg List.head? (hi.map_height_locatorBlocks hg)
  rw [head?_locatorHeights, List.head?_map] at hheads
  obtain ⟨b, hb, hheight⟩ := Option.map_eq_some_iff.mp hheads
  have hmem := mem_blocks_of_mem_locatorBlocks (List.mem_of_head? hb)
  rw [hb, hi.eq_of_height_eq hg hmem s.tip_mem hheight]

theorem getLast?_locatorBlocks (hg : g.height = 0) (hi : Inv C magic T g hist s) :
    s.locatorBlocks.getLast? = some g := by
  have hlasts := congrArg List.getLast? (hi.map_height_locatorBlocks hg)
  rw [getLast?_locatorHeights, List.getLast?_map] at hlasts
  obtain ⟨b, hb, hheight⟩ := Option.map_eq_some_iff.mp hlasts
  have hmem := mem_blocks_of_mem_locatorBlocks (List.mem_of_getLast? hb)
  rw [hb, hi.eq_of_height_eq hg hmem hi.genesis_mem (hheight.trans hg.symm)]

end Inv

end Blockchain

/-! ### Two chains -/

/-- The last block that two chains have in common is at height `f`. -/
def LastCommon (as bs : List Block) (f : ℕ) : Prop :=
  (∃ c ∈ as, c ∈ bs ∧ c.height = f) ∧ ∀ c ∈ as, c ∈ bs → c.height ≤ f

/-- A search that fails on the keys above `f` and not on those below ends at a key at least as large
as any that is not above `f`, if the keys go down. -/
theorem exists_findSome?_eq {α β : Type*} {key : α → ℕ} {F : α → Option β} {f : ℕ} {l : List α}
    (hpair : l.Pairwise fun x y => key y < key x) (hnone : ∀ x ∈ l, f < key x → F x = none)
    (hsome : ∀ x ∈ l, key x ≤ f → (F x).isSome) {a : α} (ha : a ∈ l) (haf : key a ≤ f) :
    ∃ x ∈ l, key a ≤ key x ∧ key x ≤ f ∧ l.findSome? F = F x := by
  induction l with
  | nil => exact absurd ha List.not_mem_nil
  | cons y l ih =>
    obtain ⟨hy, hpair⟩ := List.pairwise_cons.mp hpair
    by_cases hyf : key y ≤ f
    · obtain ⟨b, hb⟩ := Option.isSome_iff_exists.mp (hsome y List.mem_cons_self hyf)
      refine ⟨y, List.mem_cons_self, ?_, hyf, ?_⟩
      · rcases List.mem_cons.mp ha with rfl | ha
        · exact le_rfl
        · exact (hy a ha).le
      · rw [List.findSome?_cons, hb]
    · have hya : a ∈ l := (List.mem_cons.mp ha).resolve_left fun heq => hyf (heq ▸ haf)
      obtain ⟨x, hx, hax, hxf, hfind⟩ := ih hpair (fun x hx => hnone x (List.mem_cons_of_mem _ hx))
        (fun x hx => hsome x (List.mem_cons_of_mem _ hx)) hya
      refine ⟨x, List.mem_cons_of_mem _ hx, hax, hxf, ?_⟩
      rw [List.findSome?_cons, hnone y List.mem_cons_self (Nat.lt_of_not_le hyf)]
      exact hfind

namespace Blockchain

section

variable {magic magic' : UInt32} {T T' : Set ℕ} {g : Block} {hist hist' : List Block}
  {a b : Blockchain} (hg : g.height = 0) (ha : Inv C magic T g hist a)
  (hb : Inv C magic' T' g hist' b) (hsep : Separated C (hist ++ hist'))

include hg ha hb hsep

/-- Down from a common block all blocks are common. -/
theorem mem_of_lastCommon {f : ℕ} (hf : LastCommon a.blocks b.blocks f) {x : Block}
    (hx : x ∈ a.blocks) (hxf : x.height ≤ f) : x ∈ b.blocks := by
  obtain ⟨⟨c, hca, hcb, hcf⟩, -⟩ := hf
  obtain ⟨d, hd⟩ := Nat.exists_eq_add_of_le hxf
  -- by induction on the distance from the last common block
  induction d generalizing x with
  | zero => rwa [ha.eq_of_height_eq hg hx hca (by omega)]
  | succ d ih =>
    have hxget := ha.getElem?_height hg hx
    have hlast := ha.height_le hg hca
    obtain ⟨y, hyget⟩ : ∃ y, a.blocks[x.height + 1]? = some y := by
      refine ⟨_, List.getElem?_eq_getElem ?_⟩
      rw [ha.length_blocks hg]
      omega
    have hyheight := ha.active.height_eq hg hyget
    have hyb : y ∈ b.blocks := ih (List.mem_of_getElem? hyget) (by omega) (by omega)
    have hyget' := hb.getElem?_height hg hyb
    rw [hyheight] at hyget'
    obtain ⟨z, hzget⟩ : ∃ z, b.blocks[x.height]? = some z := by
      obtain ⟨hlt, -⟩ := List.getElem?_eq_some_iff.mp hyget'
      exact ⟨_, List.getElem?_eq_getElem (by omega)⟩
    -- both chains link the block above to the one at this height
    have hlink := ha.active.prevHash_eq hxget hyget
    rw [hb.active.prevHash_eq hzget hyget'] at hlink
    have hzb := List.mem_of_getElem? hzget
    rwa [← hsep z (List.mem_append_right _ (hb.mem_hist hzb)) x
      (List.mem_append_left _ (ha.mem_hist hx)) hlink]

/-- What the index of one chain says of a block of the other. -/
theorem lookup_blockIndex_of_mem {x : Block} (hx : x ∈ a.blocks) :
    b.blockIndex.lookup (x.hashHex C) = if x ∈ b.blocks then some x.height else none := by
  have hindex := (hb.stateEqualsReplay hg).index_iff (x.hashHex C)
  split
  · next hxb => exact (hindex _).mpr ⟨x, hb.getElem?_height hg hxb, rfl⟩
  · next hxb =>
    refine Option.eq_none_iff_forall_ne_some.mpr fun i hi => hxb ?_
    obtain ⟨y, hy, hhash⟩ := (hindex i).mp hi
    have hyb := List.mem_of_getElem? hy
    rwa [← hsep y (List.mem_append_right _ (hb.mem_hist hyb)) x
      (List.mem_append_left _ (ha.mem_hist hx)) hhash]

/-- **Where the answer starts**: after a common block at most as far below the last one as this is
below the tip. -/
theorem exists_locatorStart_eq {f : ℕ} (hf : LastCommon a.blocks b.blocks f)
    (hdepth : a.height - f ≤ locatorOffset 31) :
    ∃ x ∈ a.blocks, x ∈ b.blocks ∧ x.height ≤ f ∧ f ≤ x.height + (a.height - f) ∧
      Node.locatorStart b (Node.blockLocator C a) = x.height + 1 := by
  have hfle : f ≤ a.height := by
    obtain ⟨⟨c, hca, -, rfl⟩, -⟩ := hf
    exact ha.height_le hg hca
  obtain ⟨l, hl, hlf, hgap⟩ := exists_locatorHeight hfle hdepth
  rw [← ha.map_height_locatorBlocks hg] at hl
  obtain ⟨c, hc, rfl⟩ := List.mem_map.mp hl
  have hpair := pairwise_locatorHeights a.height
  rw [← ha.map_height_locatorBlocks hg, List.pairwise_map] at hpair
  have hlook := fun x hx => lookup_blockIndex_of_mem hg ha hb hsep (x := x)
    (mem_blocks_of_mem_locatorBlocks hx)
  have hnone : ∀ x ∈ a.locatorBlocks, f < x.height →
      b.blockIndex.lookup (x.hashHex C) = none := by
    intro x hx hxf
    have hxa := mem_blocks_of_mem_locatorBlocks hx
    rw [hlook x hx, if_neg fun hxb => absurd (hf.2 x hxa hxb) (Nat.not_le.mpr hxf)]
  have hsome : ∀ x ∈ a.locatorBlocks, x.height ≤ f →
      (b.blockIndex.lookup (x.hashHex C)).isSome := by
    intro x hx hxf
    rw [hlook x hx, if_pos (mem_of_lastCommon hg ha hb hsep hf
      (mem_blocks_of_mem_locatorBlocks hx) hxf)]
    rfl
  obtain ⟨x, hx, hcx, hxf, hfind⟩ := exists_findSome?_eq hpair hnone hsome hc hlf
  have hxa := mem_blocks_of_mem_locatorBlocks hx
  have hxb := mem_of_lastCommon hg ha hb hsep hf hxa hxf
  refine ⟨x, hxa, hxb, hxf, by omega, ?_⟩
  rw [Node.locatorStart, ha.blockLocator_eq hg, List.findSome?_map]
  show ((a.locatorBlocks.findSome? fun x => b.blockIndex.lookup (x.hashHex C)).map (· + 1)).getD 0 =
    x.height + 1
  rw [hfind, hlook x hx, if_pos hxb]
  rfl

end

end Blockchain

namespace Node

open Blockchain

/-- What the answer to a locator is when it starts within the chain. -/
theorem sent_handleGetHeaders {n : Node} {locatorHashes : List String}
    (hstart : locatorStart n.chain locatorHashes < n.chain.blocks.length) :
    (n.handleGetHeaders locatorHashes).sent =
      [.headers (((n.chain.blocks.drop (locatorStart n.chain locatorHashes)).take
        maxHeadersPerResponse).map Block.header)] := by
  rw [handleGetHeaders, if_neg]
  · rfl
  · intro hnil
    have hlen := congrArg List.length hnil
    rw [List.length_map, List.length_take, List.length_drop, maxHeadersPerResponse] at hlen
    rw [List.length_nil] at hlen
    omega

/-- An answer from above a block of the chain continues that block, and reaches every block of the
chain less than a batch above it. -/
theorem headers_above {magic : UInt32} {T : Set ℕ} {g : Block} {hist : List Block}
    {s : Blockchain} (hg : g.height = 0) (hi : Inv C magic T g hist s) {x : Block}
    (hx : x ∈ s.blocks) {f : ℕ} (hxf : x.height ≤ f) (hfs : f < s.height)
    (hgap : f < x.height + maxHeadersPerResponse) {headers : List BlockHeader}
    (hheaders : headers =
      ((s.blocks.drop (x.height + 1)).take maxHeadersPerResponse).map Block.header) :
    headers ≠ [] ∧ headers <:+: s.blocks.map Block.header ∧
      headers.head?.map BlockHeader.prevHash = some (x.hashHex C) ∧
      ∃ z, s.blocks[f + 1]? = some z ∧ z.header ∈ headers := by
  subst hheaders
  have hlen := hi.length_blocks hg
  obtain ⟨y, hy⟩ : ∃ y, s.blocks[x.height + 1]? = some y :=
    ⟨_, List.getElem?_eq_getElem (by omega)⟩
  obtain ⟨z, hz⟩ : ∃ z, s.blocks[f + 1]? = some z := ⟨_, List.getElem?_eq_getElem (by omega)⟩
  have hhead : (((s.blocks.drop (x.height + 1)).take maxHeadersPerResponse).map
      Block.header).head? = some y.header := by
    rw [List.head?_map, List.head?_take, if_neg (by decide), List.head?_drop, hy]
    rfl
  refine ⟨fun hnil => ?_, ?_, ?_, z, hz, ?_⟩
  · rw [hnil] at hhead
    cases hhead
  · exact ((List.take_prefix _ _).isInfix.trans (List.drop_suffix _ _).isInfix).map _
  · rw [hhead, Option.map_some, hi.active.prevHash_eq (hi.getElem?_height hg hx) hy]
  · refine List.mem_map_of_mem (List.mem_of_getElem? (i := f - x.height) ?_)
    rw [List.getElem?_take_of_lt (by omega), List.getElem?_drop, ← hz]
    congr 1
    omega

/-- **A locator finds the fork.** It names at most 33 blocks of its chain, from the tip down to
genesis. And a node whose chain leaves this one at most 200 blocks below the tip, and goes on,
answers with a run of its headers that continues a common block and has the first one of its
own. -/
theorem locator_finds_fork (C : Crypto) (g : Block) (hg : g.height = 0)
    (storeA storeB : Option BlockStore) (magicA magicB : UInt32)
    (evsA evsB : List Arkos.Event)
    (hsep : Separated C (g :: (recorded C (fromGenesisWithMagic C g storeA magicA) evsA ++
      recorded C (fromGenesisWithMagic C g storeB magicB) evsB))) :
    let a := Blockchain.run C (fromGenesisWithMagic C g storeA magicA) evsA
    let b := Blockchain.run C (fromGenesisWithMagic C g storeB magicB) evsB
    LocatorLoop C a.blocks a.height 1 [] (locatorLoop C a.blocks (a.height + 1) a.height 1 []) ∧
    (∃ named : List Block, blockLocator C a = named.map (Block.hashHex C) ∧ named.length ≤ 33 ∧
      (∀ x ∈ named, x ∈ a.blocks) ∧ (named.map Block.height).Pairwise (· > ·) ∧
      named.head? = some a.tip ∧ named.getLast? = some g) ∧
    ∀ (n : Node) (f : ℕ), n.chain = b → LastCommon a.blocks b.blocks f → a.height ≤ f + 200 →
      f < b.height →
      ∃ headers, (n.handleGetHeaders (blockLocator C a)).sent = [.headers headers] ∧
        headers ≠ [] ∧ headers <:+: b.blocks.map Block.header ∧
        (∃ x ∈ a.blocks, x ∈ b.blocks ∧
          headers.head?.map BlockHeader.prevHash = some (x.hashHex C)) ∧
        ∃ x, b.blocks[f + 1]? = some x ∧ x.header ∈ headers := by
  intro a b
  have hsepA : Separated C (g :: recorded C (fromGenesisWithMagic C g storeA magicA) evsA) :=
    hsep.mono fun x hx => by
      rcases List.mem_cons.mp hx with rfl | hx
      · exact List.mem_cons_self
      · exact List.mem_cons_of_mem _ (List.mem_append_left _ hx)
  have hsepB : Separated C (g :: recorded C (fromGenesisWithMagic C g storeB magicB) evsB) :=
    hsep.mono fun x hx => by
      rcases List.mem_cons.mp hx with rfl | hx
      · exact List.mem_cons_self
      · exact List.mem_cons_of_mem _ (List.mem_append_right _ hx)
  have ha : Inv C magicA Set.univ g _ a := inv_run_of_separated hg storeA magicA evsA hsepA
  have hb : Inv C magicB Set.univ g _ b := inv_run_of_separated hg storeB magicB evsB hsepB
  refine ⟨ha.locatorLoop_blocks_eq hg, ⟨a.locatorBlocks, ha.blockLocator_eq hg, ?_,
    fun x hx => mem_blocks_of_mem_locatorBlocks hx, ?_, ha.head?_locatorBlocks hg,
    ha.getLast?_locatorBlocks hg⟩, fun n f hn hf hdepth hfb => ?_⟩
  · rw [← List.length_map (f := Block.height), ha.map_height_locatorBlocks hg]
    exact length_locatorHeights_le _
  · rw [ha.map_height_locatorBlocks hg]
    exact pairwise_locatorHeights _
  · have hsepAB : Separated C ((g :: recorded C (fromGenesisWithMagic C g storeA magicA) evsA) ++
        (g :: recorded C (fromGenesisWithMagic C g storeB magicB) evsB)) :=
      hsep.mono fun x hx => by
        simp only [List.mem_append, List.mem_cons] at hx ⊢
        tauto
    have hdeep : a.height - f ≤ locatorOffset 31 := by
      have hroom : 200 ≤ locatorOffset 31 := by decide
      omega
    obtain ⟨x, hxa, hxb, hxf, hgap, hstart⟩ :=
      exists_locatorStart_eq hg ha hb hsepAB hf hdeep
    have hlen := hb.length_blocks hg
    -- the gap is smaller than a batch
    have hbatch : f < x.height + maxHeadersPerResponse := by
      rw [maxHeadersPerResponse]
      omega
    refine ⟨_, sent_handleGetHeaders (by rw [hn, hstart]; omega), ?_⟩
    obtain ⟨hne, hinfix, hprev, hmem⟩ := headers_above hg hb hxb hxf hfb hbatch rfl
    rw [hn, hstart]
    exact ⟨hne, hinfix, ⟨x, hxa, hxb, hprev⟩, hmem⟩

/-- Two nodes whose blocks of height 1 differ: the one answers the other with its own. -/
theorem locator_finds_fork_rivalBlock :
    ∃ headers, ((Node.new (Blockchain.run Crypto.sample
        (fromGenesisWithMagic Crypto.sample sampleGenesis none regtestMagic)
        (deliver (fun _ => sampleNow) 0 [idleBlock 0])) regtestMagic).handleGetHeaders
          (blockLocator Crypto.sample (Blockchain.run Crypto.sample
            (fromGenesisWithMagic Crypto.sample sampleGenesis none regtestMagic)
            (deliver (fun _ => sampleNow) 0 [rivalBlock])))).sent = [.headers headers] ∧
      (idleBlock 0).header ∈ headers := by
  have hblocks : ∀ b ∈ [idleBlock 0, rivalBlock], (Blockchain.run Crypto.sample
      (fromGenesisWithMagic Crypto.sample sampleGenesis none regtestMagic)
      (deliver (fun _ => sampleNow) 0 [b])).blocks = [sampleGenesis, b] := by
    decide +kernel
  have hidle := hblocks (idleBlock 0) (by simp)
  have hrival := hblocks rivalBlock (by simp)
  have hheight : ∀ {s : Blockchain} {b : Block}, s.blocks = [sampleGenesis, b] →
      s.height = b.height := fun {s b} hs => by
    have htip := s.getLast?_blocks
    rw [hs] at htip
    exact congrArg Block.height (Option.some.inj htip).symm
  have hsep : Separated Crypto.sample [sampleGenesis, rivalBlock, idleBlock 0] := by
    rw [Separated]
    decide +kernel
  have hrecorded : ∀ b, ∀ x ∈ recorded Crypto.sample
      (fromGenesisWithMagic Crypto.sample sampleGenesis none regtestMagic)
      (deliver (fun _ => sampleNow) 0 [b]), x = b := by
    intro b x hx
    obtain ⟨now, hev⟩ := exists_event_of_mem_recorded hx
    simpa using mem_of_mem_deliver hev
  have hfork : LastCommon [sampleGenesis, rivalBlock] [sampleGenesis, idleBlock 0] 0 := by
    rw [LastCommon]
    decide +kernel
  have hmain := (locator_finds_fork Crypto.sample sampleGenesis rfl none none regtestMagic
    regtestMagic (deliver (fun _ => sampleNow) 0 [rivalBlock])
    (deliver (fun _ => sampleNow) 0 [idleBlock 0])
    (hsep.mono fun x hx => by
      rcases List.mem_cons.mp hx with rfl | hx
      · exact List.mem_cons_self
      · rcases List.mem_append.mp hx with hx | hx
        · rw [hrecorded _ x hx]
          simp
        · rw [hrecorded _ x hx]
          simp)).2.2
  obtain ⟨headers, hsent, -, -, -, x, hx, hmem⟩ := hmain (Node.new _ regtestMagic) 0
    (chain_new _ _) (by rw [hrival, hidle]; exact hfork) (by rw [hheight hrival]; decide)
    (by rw [hheight hidle]; decide)
  rw [hidle] at hx
  obtain rfl : idleBlock 0 = x := Option.some.inj hx
  exact ⟨headers, hsent, hmem⟩

end Node

end Arkos
