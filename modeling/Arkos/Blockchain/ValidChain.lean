import Arkos.Blockchain.Chain

/-!
# Valid chains

What it means for a list of blocks to be a chain the rules accept, said without any node: it starts
at the genesis, and every further block is well formed, links to the one before it and is valid in
the context that replaying its ancestors yields. A node is correct when what it keeps are valid
chains, and this is the notion it is compared with.

`T` is the set of clock readings at which the blocks were checked. The clock enters a check only
through the upper bound on a timestamp, so a chain valid for readings up to `now` is valid at
`now`.

## Main definitions

* `Extends`, `ValidChain`, `workOf`

## Main results

* `ValidChain.height_eq`, `ValidChain.prevHash_eq` — positions are heights, neighbours are linked
* `ValidChain.eq_of_getLast?` — among separated blocks, a block has one valid chain
* `chainToHashLoop_eq`, `chainToHashLoop_of_stored` — the walk back finds this chain or fails
-/

namespace Arkos

/-- The work of a chain. -/
def workOf (bs : List Block) : ℕ := (bs.map fun b => blockWork b.header.bits).sum

theorem workOf_append (bs ds : List Block) : workOf (bs ++ ds) = workOf bs + workOf ds := by
  simp [workOf]

@[simp] theorem workOf_append_singleton (bs : List Block) (b : Block) :
    workOf (bs ++ [b]) = workOf bs + blockWork b.header.bits := by
  simp [workOf]

/-- `b` may follow the chain `bs` at the time `now`. -/
structure Extends (C : Crypto) (magic : UInt32) (now : ℕ) (bs : List Block) (b : Block) : Prop where
  parent : ∃ p, bs.getLast? = some p ∧ b.WellFormed C (p.hashHex C) ∧ b.height = p.height + 1
  context : ∃ u m, replay C bs = .ok (u, m) ∧ ContextOk C magic now bs u m b
  work_lt : workOf bs + blockWork b.header.bits < 2 ^ 128

/-- A chain from `g` on in which every block was valid after the ones before it. No later block has
the hash of the genesis. -/
inductive ValidChain (C : Crypto) (magic : UInt32) (T : Set ℕ) (g : Block) : List Block → Prop
  | genesis : ValidChain C magic T g [g]
  | snoc {bs b now} : ValidChain C magic T g bs → now ∈ T → b.hashHex C ≠ g.hashHex C →
      Extends C magic now bs b → ValidChain C magic T g (bs ++ [b])

variable {C : Crypto} {magic : UInt32} {T : Set ℕ} {g : Block}

/-- The clock only bounds the timestamp. -/
theorem Extends.at_time {now now' : ℕ} {bs : List Block} {b : Block}
    (h : Extends C magic now bs b) (htime : b.header.timestamp.toNat ≤ now' + 7200) :
    Extends C magic now' bs b := by
  obtain ⟨hp, ⟨u, m, hrep, hctx⟩, hw⟩ := h
  exact ⟨hp, ⟨u, m, hrep, { hctx with timestamp_le := htime }⟩, hw⟩

theorem Extends.mono {now now' : ℕ} {bs : List Block} {b : Block} (hle : now ≤ now')
    (h : Extends C magic now bs b) : Extends C magic now' bs b := by
  obtain ⟨u, m, -, hctx⟩ := h.context
  exact h.at_time (hctx.timestamp_le.trans (Nat.add_le_add_right hle 7200))

/-- Two blocks on top of one chain weigh the same. -/
theorem Extends.blockWork_eq {now now' : ℕ} {bs : List Block} {b b' : Block}
    (h : Extends C magic now bs b) (h' : Extends C magic now' bs b') :
    blockWork b.header.bits = blockWork b'.header.bits := by
  obtain ⟨u, m, -, hctx⟩ := h.context
  obtain ⟨u', m', -, hctx'⟩ := h'.context
  rw [hctx.bits_eq, hctx'.bits_eq]

/-! ### The shape of a valid chain -/

namespace ValidChain

theorem ne_nil {bs : List Block} (h : ValidChain C magic T g bs) : bs ≠ [] := by
  cases h with
  | genesis => exact List.cons_ne_nil _ _
  | snoc _ _ _ _ => simp

/-- A chain checked at some readings is one checked at more of them. -/
theorem mono {T' : Set ℕ} (hT : T ⊆ T') {bs : List Block} (h : ValidChain C magic T g bs) :
    ValidChain C magic T' g bs := by
  induction h with
  | genesis => exact .genesis
  | snoc _ hnow hne hext ih => exact .snoc ih (hT hnow) hne hext

theorem head?_eq {bs : List Block} (h : ValidChain C magic T g bs) : bs.head? = some g := by
  induction h with
  | genesis => rfl
  | @snoc bs b now hbs _ _ _ ih =>
    rw [List.head?_append, ih]
    rfl

theorem getLast?_append_singleton (bs : List Block) (b : Block) :
    (bs ++ [b]).getLast? = some b := by
  simp

/-- Every nonempty beginning of a valid chain is valid. -/
theorem take {bs : List Block} (h : ValidChain C magic T g bs) {i : ℕ} (hi : i < bs.length) :
    ValidChain C magic T g (bs.take (i + 1)) := by
  induction h with
  | genesis =>
    rw [List.take_of_length_le (by simp)]
    exact .genesis
  | @snoc bs b now hbs hnow hne hext ih =>
    by_cases hlt : i < bs.length
    · rw [List.take_append_of_le_length hlt]
      exact ih hlt
    · rw [List.take_of_length_le (by simp; omega)]
      exact .snoc hbs hnow hne hext

variable (hg : g.height = 0)

include hg

/-- The last block's height is one less than the length. -/
theorem height_getLast? {bs : List Block} (h : ValidChain C magic T g bs) {b : Block}
    (hb : bs.getLast? = some b) : b.height + 1 = bs.length := by
  induction h generalizing b with
  | genesis =>
    obtain rfl : g = b := by simpa using hb
    simp [hg]
  | @snoc bs b' now hbs _ _ hext ih =>
    obtain rfl : b' = b := by simpa using hb
    obtain ⟨p, hp, -, hheight⟩ := hext.parent
    rw [List.length_append, List.length_singleton, ← ih hp, hheight]

theorem height_eq {bs : List Block} (h : ValidChain C magic T g bs) {i : ℕ} {b : Block}
    (hb : bs[i]? = some b) : b.height = i := by
  induction h generalizing i b with
  | genesis =>
    obtain ⟨hi, rfl⟩ := List.getElem?_eq_some_iff.mp hb
    have : i = 0 := by simpa using hi
    subst this
    exact hg
  | @snoc bs b' now hbs hnow hne hext ih =>
    by_cases hi : i < bs.length
    · rw [List.getElem?_append_left hi] at hb
      exact ih hb
    · have hlast := height_getLast? hg (.snoc hbs hnow hne hext) (getLast?_append_singleton bs b')
      obtain ⟨hlt, -⟩ := List.getElem?_eq_some_iff.mp hb
      rw [List.length_append, List.length_singleton] at hlast hlt
      have hieq : i = bs.length := by omega
      subst hieq
      obtain rfl : b' = b := by simpa using hb
      omega

omit hg in
theorem prevHash_eq {bs : List Block} (h : ValidChain C magic T g bs) {i : ℕ} {a b : Block}
    (ha : bs[i]? = some a) (hb : bs[i + 1]? = some b) : b.header.prevHash = a.hashHex C := by
  induction h generalizing i a b with
  | genesis => simp at hb
  | @snoc bs b' now hbs _ _ hext ih =>
    by_cases hi : i + 1 < bs.length
    · rw [List.getElem?_append_left hi] at hb
      rw [List.getElem?_append_left (by omega)] at ha
      exact ih ha hb
    · obtain ⟨hlt, -⟩ := List.getElem?_eq_some_iff.mp hb
      rw [List.length_append, List.length_singleton] at hlt
      have hlen : bs.length = i + 1 := by omega
      have hb' : b' = b := by
        rw [List.getElem?_append_right (by omega), ← hlen] at hb
        simpa using hb
      obtain ⟨p, hp, hwf, -⟩ := hext.parent
      rw [List.getElem?_append_left (by omega)] at ha
      have hpa : p = a := by
        rw [List.getLast?_eq_getElem?, hlen, Nat.add_sub_cancel, ha] at hp
        exact (Option.some.inj hp).symm
      rw [← hb', hwf.prevHash_eq, hpa]

/-- Different positions hold different blocks. -/
theorem nodup {bs : List Block} (h : ValidChain C magic T g bs) : bs.Nodup := by
  rw [List.nodup_iff_getElem?_ne_getElem?]
  intro i j hij hj heq
  have hjget : bs[j]? = some bs[j] := List.getElem?_eq_getElem hj
  have hi := height_eq hg h (heq.trans hjget)
  have hj' := height_eq hg h hjget
  omega

theorem nodup_hashHex {bs hist : List Block} (h : ValidChain C magic T g bs)
    (hsub : ∀ x ∈ bs, x ∈ hist) (hsep : Separated C hist) : (bs.map (Block.hashHex C)).Nodup :=
  (nodup hg h).map_on fun _ ha _ hb heq => hsep _ (hsub _ ha) _ (hsub _ hb) heq

omit hg in
/-- Among separated blocks a hash determines the whole chain behind it. -/
theorem eq_of_getLast? {bs bs' hist : List Block} (h : ValidChain C magic T g bs)
    (h' : ValidChain C magic T g bs') (hsub : ∀ x ∈ bs, x ∈ hist) (hsub' : ∀ x ∈ bs', x ∈ hist)
    (hsep : Separated C hist) {b : Block} (hb : bs.getLast? = some b)
    (hb' : bs'.getLast? = some b) : bs = bs' := by
  induction h generalizing bs' b with
  | genesis =>
    obtain rfl : g = b := by simpa using hb
    cases h' with
    | genesis => rfl
    | @snoc ds d _ _ _ hne _ =>
      obtain rfl : d = g := by simpa using hb'
      exact absurd rfl hne
  | @snoc cs c _ hcs _ hne hext ih =>
    obtain rfl : c = b := by simpa using hb
    cases h' with
    | genesis =>
      obtain rfl : g = c := by simpa using hb'
      exact absurd rfl hne
    | @snoc ds d _ hds _ _ hext' =>
      obtain rfl : d = c := by simpa using hb'
      obtain ⟨p, hp, hwf, -⟩ := hext.parent
      obtain ⟨p', hp', hwf', -⟩ := hext'.parent
      have hsubc : ∀ x ∈ cs, x ∈ hist := fun x hx => hsub x (List.mem_append_left _ hx)
      have hsubd : ∀ x ∈ ds, x ∈ hist := fun x hx => hsub' x (List.mem_append_left _ hx)
      have hpp : p = p' := hsep p (hsubc p (List.mem_of_getLast? hp)) p'
        (hsubd p' (List.mem_of_getLast? hp')) (hwf.prevHash_eq.symm.trans hwf'.prevHash_eq)
      rw [ih hds hsubc hsubd hp (hpp ▸ hp')]

end ValidChain

/-! ### Walking back -/

namespace Blockchain

/-- **A walk that ends has found the valid chain.** The table holds blocks under their own hash. -/
theorem chainToHashLoop_eq {table : Table Block} {hist : List Block} (hg : g.height = 0)
    (hown : ∀ h b, table.lookup h = some b → b.hashHex C = h ∧ b ∈ hist) (hsep : Separated C hist)
    {bs : List Block} (hbs : ValidChain C magic T g bs) (hsub : ∀ x ∈ bs, x ∈ hist) {b : Block}
    (hb : bs.getLast? = some b) {fuel : ℕ} {acc r : List Block}
    (h : chainToHashLoop table fuel (b.hashHex C) acc = .ok r) : r = bs ++ acc := by
  -- what the table holds under the hash of a known block is that block
  have hfind : ∀ x ∈ hist, ∀ y, table.lookup (x.hashHex C) = some y → y = x := fun x hx y hy =>
    hsep y (hown _ _ hy).2 x hx (hown _ _ hy).1
  induction hbs generalizing fuel acc b with
  | genesis =>
    obtain rfl : g = b := by simpa using hb
    cases fuel with
    | zero => cases h
    | succ fuel =>
      rw [chainToHashLoop] at h
      split at h
      · cases h
      next y hy =>
        obtain rfl := hfind g (hsub g (by simp)) y hy
        rw [if_pos hg] at h
        cases h
        rfl
  | @snoc bs c now _ _ _ hext ih =>
    obtain rfl : c = b := by simpa using hb
    obtain ⟨p, hp, hwf, hheight⟩ := hext.parent
    cases fuel with
    | zero => cases h
    | succ fuel =>
      rw [chainToHashLoop] at h
      split at h
      · cases h
      next y hy =>
        obtain rfl := hfind c (hsub c (by simp)) y hy
        rw [if_neg (by omega), hwf.prevHash_eq] at h
        have hrest := ih (fun x hx => hsub x (List.mem_append_left _ hx)) hp h
        rw [hrest, List.append_assoc]
        rfl

/-- A walk along blocks that are all there ends. -/
theorem chainToHashLoop_of_stored {table : Table Block} (hg : g.height = 0) {bs : List Block}
    (hbs : ValidChain C magic T g bs)
    (hstored : ∀ x ∈ bs, table.lookup (x.hashHex C) = some x) {b : Block}
    (hb : bs.getLast? = some b) {fuel : ℕ} (hfuel : bs.length ≤ fuel) (acc : List Block) :
    chainToHashLoop table fuel (b.hashHex C) acc = .ok (bs ++ acc) := by
  induction hbs generalizing fuel acc b with
  | genesis =>
    obtain rfl : g = b := by simpa using hb
    obtain ⟨fuel, rfl⟩ := Nat.exists_eq_add_of_le' hfuel
    rw [List.length_singleton, chainToHashLoop, hstored g (by simp)]
    simp [hg]
  | @snoc bs c now _ _ _ hext ih =>
    obtain rfl : c = b := by simpa using hb
    obtain ⟨p, hp, hwf, hheight⟩ := hext.parent
    rw [List.length_append, List.length_singleton] at hfuel
    obtain ⟨fuel, rfl⟩ := Nat.exists_eq_add_of_le' (Nat.le_of_add_left_le hfuel)
    rw [chainToHashLoop, hstored c (by simp)]
    dsimp only
    rw [if_neg (by omega), hwf.prevHash_eq,
      ih (fun x hx => hstored x (List.mem_append_left _ hx)) hp (by omega), List.append_assoc]
    rfl

theorem chainToHash_of_stored {s : Blockchain} {hist : List Block} (hg : g.height = 0)
    {bs : List Block} (hbs : ValidChain C magic T g bs) (hsub : ∀ x ∈ bs, x ∈ hist)
    (hsep : Separated C hist) (hstored : ∀ x ∈ bs, s.allBlocks.lookup (x.hashHex C) = some x)
    {b : Block} (hb : bs.getLast? = some b) : s.chainToHash (b.hashHex C) = .ok bs := by
  -- the chain's hashes are distinct keys of the table, so the walk has enough steps
  have hlen : bs.length ≤ s.allBlocks.keys.card := by
    have hnodup := ValidChain.nodup_hashHex hg hbs hsub hsep
    calc bs.length = (bs.map (Block.hashHex C)).toFinset.card := by
          rw [List.toFinset_card_of_nodup hnodup, List.length_map]
      _ ≤ s.allBlocks.keys.card := by
          refine Finset.card_le_card fun h hh => ?_
          obtain ⟨x, hx, rfl⟩ := List.mem_map.mp (List.mem_toFinset.mp hh)
          exact Finmap.mem_keys.mpr (Finmap.mem_of_lookup (hstored x hx))
  have hwalk := chainToHashLoop_of_stored hg hbs hstored hb (Nat.le_succ_of_le hlen) []
  rwa [List.append_nil] at hwalk

end Blockchain

end Arkos
