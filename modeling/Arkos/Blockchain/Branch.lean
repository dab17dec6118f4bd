import Arkos.Blockchain.Ledger
import Arkos.Blockchain.Replay
import Arkos.Lib.Prefix

/-!
# Branches

The blocks a node has recorded form a tree. A `Branch` is one path in it: blocks linked by parent
hashes from the genesis on, each at the height of its position. Nothing is asked of their contents,
and nothing of their being active. That every branch is a valid chain all the same is what makes
validity a property of the blocks behind a block and not of the moment it was checked at.

Two valid chains share their blocks up to where they part and none after it, since a block that
lies on both brings everything behind it along. `ValidChain.fork` states this, and reorganisations
are described in its terms.

## Main definitions

* `Branch` — a path of recorded blocks
* `Authorised` — every spend of a block, justified by the blocks behind it

## Main results

* `Branch.validChain`, `ValidChain.fork`
* `Blockchain.every_spend_authorised` — on every branch, spends are authorised by the branch
* `Blockchain.block_hash_commits` — blocks on one parent with one hash are one block
-/

namespace Arkos

variable {C : Crypto} {magic : UInt32} {T : Set ℕ} {g : Block} {hist bs ds : List Block}

/-- Recorded blocks linked from the genesis `g` on, at the heights `0, 1, 2, …`. -/
structure Branch (C : Crypto) (g : Block) (hist bs : List Block) : Prop where
  mem : ∀ x ∈ bs, x ∈ hist
  head?_eq : bs.head? = some g
  height_eq : ∀ (i : ℕ) (b : Block), bs[i]? = some b → b.height = i
  prevHash_eq : ∀ (i : ℕ) (a b : Block), bs[i]? = some a → bs[i + 1]? = some b →
    b.header.prevHash = a.hashHex C

theorem ValidChain.branch (hg : g.height = 0) (h : ValidChain C magic T g bs)
    (hsub : ∀ x ∈ bs, x ∈ hist) : Branch C g hist bs :=
  ⟨hsub, h.head?_eq, fun _ _ hb => h.height_eq hg hb, fun _ _ _ ha hb => h.prevHash_eq ha hb⟩

/-- Every recorded block ends a branch. -/
theorem History.exists_branch (hg : g.height = 0) (hh : History C magic T g hist) {b : Block}
    (hb : b ∈ hist) : ∃ bs, Branch C g hist (bs ++ [b]) := by
  obtain ⟨bs, hbs, hlast, hsub⟩ := hh b hb
  obtain ⟨cs, rfl⟩ := List.getLast?_eq_some_iff.mp hlast
  exact ⟨cs, hbs.branch hg hsub⟩

namespace Branch

/-- A branch without its last block is a branch, if anything is left. -/
theorem dropLast {b : Block} (h : Branch C g hist (bs ++ [b])) (hne : bs ≠ []) :
    Branch C g hist bs := by
  have hget : ∀ (i : ℕ) (x : Block), bs[i]? = some x → (bs ++ [b])[i]? = some x := by
    intro i x hx
    rw [List.getElem?_append_left (List.getElem?_eq_some_iff.mp hx).1, hx]
  refine ⟨fun x hx => h.mem x (List.mem_append_left _ hx), ?_, fun i x hx => ?_,
    fun i x y hx hy => ?_⟩
  · rw [← h.head?_eq, List.head?_append_of_ne_nil _ hne]
  · exact h.height_eq i x (hget i x hx)
  · exact h.prevHash_eq i x y (hget i x hx) (hget (i + 1) y hy)

/-- The last block links to the one before it and is one higher. -/
theorem getLast?_linked {b p : Block} (h : Branch C g hist (bs ++ [b]))
    (hp : bs.getLast? = some p) : b.header.prevHash = p.hashHex C ∧ b.height = p.height + 1 := by
  obtain ⟨cs, rfl⟩ := List.getLast?_eq_some_iff.mp hp
  have hpget : (cs ++ [p] ++ [b])[cs.length]? = some p := by simp
  have hbget : (cs ++ [p] ++ [b])[cs.length + 1]? = some b := by simp
  refine ⟨h.prevHash_eq _ _ _ hpget hbget, ?_⟩
  rw [h.height_eq _ _ hpget, h.height_eq _ _ hbget]

/-- **Every branch is a valid chain.** The chain a block was recorded on and the branch it ends are
found by the same parent hashes. -/
theorem validChain (hg : g.height = 0) (hh : History C magic T g hist) (hsep : Separated C hist)
    (h : Branch C g hist bs) : ValidChain C magic T g bs := by
  induction bs using List.reverseRecOn with
  | nil =>
    have hhead := h.head?_eq
    cases hhead
  | append_singleton bs b ih =>
    rcases List.eq_nil_or_concat bs with rfl | ⟨cs, p, rfl⟩
    · obtain rfl : b = g := Option.some.inj h.head?_eq
      exact .genesis
    · rw [List.concat_eq_append] at h ih ⊢
      have hp : (cs ++ [p]).getLast? = some p := ValidChain.getLast?_append_singleton _ _
      obtain ⟨hlink, hheight⟩ := h.getLast?_linked hp
      have hbegins := h.dropLast (by simp)
      have hchain := ih hbegins
      obtain ⟨ds, hds, hlast, hsub⟩ := hh b (h.mem b (by simp))
      cases hds with
      | genesis =>
        obtain rfl : g = b := by simpa using hlast
        omega
      | @snoc es e now hes hnow hne hext =>
        rw [ValidChain.getLast?_append_singleton] at hlast
        obtain rfl := Option.some.inj hlast
        obtain ⟨p', hp', hwf, -⟩ := hext.parent
        have hsub' : ∀ x ∈ es, x ∈ hist := fun x hx => hsub x (List.mem_append_left _ hx)
        have hpp : p' = p := hsep p' (hsub' p' (List.mem_of_getLast? hp')) p
          (hbegins.mem p (by simp)) (hwf.prevHash_eq.symm.trans hlink)
        have hsame := hes.eq_of_getLast? hchain hsub' hbegins.mem hsep hp' (hpp ▸ hp)
        rw [← hsame]
        exact .snoc hes hnow hne hext

end Branch

/-! ### Where two chains part -/

/-- Two valid chains that have a block in common agree up to it. -/
theorem ValidChain.take_eq_of_mem (hg : g.height = 0) (hsep : Separated C hist)
    (h : ValidChain C magic T g bs) (h' : ValidChain C magic T g ds) (hsub : ∀ x ∈ bs, x ∈ hist)
    (hsub' : ∀ x ∈ ds, x ∈ hist) {i : ℕ} {x : Block} (hi : bs[i]? = some x) (hx : x ∈ ds) :
    ds[i]? = some x ∧ bs.take (i + 1) = ds.take (i + 1) := by
  obtain ⟨j, hj⟩ := List.mem_iff_getElem?.mp hx
  obtain rfl : i = j := (h.height_eq hg hi).symm.trans (h'.height_eq hg hj)
  have hlast : ∀ cs : List Block, cs[i]? = some x → (cs.take (i + 1)).getLast? = some x := by
    intro cs hcs
    rw [List.getLast?_take, Nat.add_sub_cancel, hcs]
    simp
  exact ⟨hj, (h.take (List.getElem?_eq_some_iff.mp hi).1).eq_of_getLast?
    (h'.take (List.getElem?_eq_some_iff.mp hj).1) (fun y hy => hsub y (List.mem_of_mem_take hy))
    (fun y hy => hsub' y (List.mem_of_mem_take hy)) hsep (hlast bs hi) (hlast ds hj)⟩

/-- **Two valid chains share a beginning and nothing after it.** -/
theorem ValidChain.fork (hg : g.height = 0) (hsep : Separated C hist)
    (h : ValidChain C magic T g bs) (h' : ValidChain C magic T g ds) (hsub : ∀ x ∈ bs, x ∈ hist)
    (hsub' : ∀ x ∈ ds, x ∈ hist) : ∃ common left right, common ≠ [] ∧ bs = common ++ left ∧
      ds = common ++ right ∧ (∀ x ∈ left, x ∉ ds) ∧ ∀ x ∈ right, x ∉ bs := by
  obtain ⟨c, a, a', rfl, rfl, hne⟩ := exists_common_prefix bs ds
  -- a block on one rest that lies on the other chain would make the rests begin alike
  have hdisj : ∀ (l l' : List Block), ValidChain C magic T g (c ++ l) →
      ValidChain C magic T g (c ++ l') → (∀ x ∈ c ++ l, x ∈ hist) → (∀ x ∈ c ++ l', x ∈ hist) →
      (∀ x ∈ l.head?, ∀ y ∈ l'.head?, x ≠ y) → ∀ x ∈ l, x ∉ c ++ l' := by
    intro l l' hl hl' hls hls' hheads x hx hmem
    obtain ⟨i, hi⟩ := List.mem_iff_getElem?.mp hx
    have hget : (c ++ l)[c.length + i]? = some x := by
      rw [List.getElem?_append_right (Nat.le_add_right _ _), Nat.add_sub_cancel_left, hi]
    obtain ⟨-, htake⟩ := hl.take_eq_of_mem hg hsep hl' hls hls' hget hmem
    have hhead : l.head? = l'.head? := by
      have hat := congrArg (fun m : List Block => m[c.length]?) htake
      rw [List.getElem?_take, List.getElem?_take, if_pos (by omega), if_pos (by omega),
        List.getElem?_append_right le_rfl, List.getElem?_append_right le_rfl, Nat.sub_self] at hat
      rwa [List.head?_eq_getElem?, List.head?_eq_getElem?]
    cases l with
    | nil => cases hx
    | cons y l => exact hheads y rfl y (hhead ▸ rfl) rfl
  refine ⟨c, a, a', ?_, rfl, rfl, hdisj a a' h h' hsub hsub' hne,
    hdisj a' a h' h hsub' hsub fun x hx y hy heq => hne y hy x hx heq.symm⟩
  rintro rfl
  have hhead := h.head?_eq
  have hhead' := h'.head?_eq
  rw [List.nil_append] at hhead hhead'
  exact hne g hhead g hhead' rfl

/-! ### Spends are authorised by the branch -/

/-- What a block spends is authorised by the blocks `bs` behind it: it has one coinbase, its first
transaction, and every other input names an output that an earlier block created, that is unspent
when these blocks are replayed and whose script accepts the input. -/
structure Authorised (C : Crypto) (magic : UInt32) (bs : List Block) (b : Block) : Prop where
  coinbase : ∃ cb rest, b.transactions = cb :: rest ∧ cb.isCoinbase = true ∧
    ∀ tx ∈ rest, tx.isCoinbase = false
  spends : ∀ tx ∈ b.transactions.tail, ∀ i ∈ tx.inputs, ∃ u m out, replay C bs = .ok (u, m) ∧
    u.get i.prevTxHash i.prevIndex = some out ∧
    (∃ x ∈ bs, ∃ t ∈ x.transactions, t.txidHex C = i.prevTxHash ∧
      t.outputs[i.prevIndex.toNat]? = some out) ∧
    evaluateScript C out.effectiveScript i (tx.sigHash C magic) (approxBlockTime b.height) = .ok ()

theorem FeesOf.exists_txOk {u : UtxoSet} {h : ℕ} {txs : List Transaction} {fees : List ℕ}
    (hf : FeesOf C u magic h txs fees) : ∀ tx ∈ txs, ∃ fee, TxOk C tx u magic h fee := by
  induction hf with
  | nil => simp
  | cons htx _ ih => exact List.forall_mem_cons.mpr ⟨⟨_, htx⟩, ih⟩

/-- The last step of a valid chain. -/
theorem ValidChain.extends_of_append {b : Block} (h : ValidChain C magic T g (bs ++ [b]))
    (hne : bs ≠ []) : ValidChain C magic T g bs ∧ ∃ now ∈ T, Extends C magic now bs b := by
  generalize hcs : bs ++ [b] = cs at h
  cases h with
  | genesis =>
    obtain ⟨hnil, -⟩ := List.append_eq_singleton_iff.mp hcs |>.resolve_right fun h => by simp at h
    exact absurd hnil hne
  | @snoc es e now hes hnow _ hext =>
    obtain ⟨rfl, hb⟩ := List.append_inj' hcs rfl
    obtain rfl := List.singleton_injective hb
    exact ⟨hes, now, hnow, hext⟩

/-- The outputs unspent on a branch were created on it. -/
theorem originates_replay {u : UtxoSet} {m : ℕ} (h : replay C bs = .ok (u, m)) :
    Originates C (chainTxs bs) u := by
  rw [replay_utxoSet h]
  exact Ledger.originates_foldl (originates_empty _) fun _ htx => htx

/-- **A block on top of a valid chain spends what that chain created.** -/
theorem Extends.authorised (hledger : Ledger C (chainTxs bs)) {now : ℕ} {b : Block}
    (hext : Extends C magic now bs b) : Authorised C magic bs b := by
  obtain ⟨p, -, hwf, -⟩ := hext.parent
  obtain ⟨u, m, hrep, hctx⟩ := hext.context
  obtain ⟨fees, hfees, -⟩ := hctx.subsidy_ok
  have horig := originates_replay hrep
  -- the fee loop has looked at every transaction with the outputs before the block
  have hok := hfees.exists_txOk
  obtain ⟨cb, rest, hb, hcb⟩ := hwf.coinbase
  refine ⟨⟨cb, rest, hb, hcb, fun tx htx => ?_⟩, fun tx htx i hi => ?_⟩
  · obtain ⟨fee, htxok⟩ := hok tx (by rwa [hb])
    exact hledger.not_isCoinbase horig htxok
  · obtain ⟨fee, htxok⟩ := hok tx htx
    obtain ⟨out, hin⟩ := htxok.inputs_ok i hi
    obtain ⟨t, ht, hcreated⟩ := horig _ _ hin.lookup_eq
    obtain ⟨x, hx, htx'⟩ := mem_chainTxs.mp ht
    obtain ⟨j, hj, hkey⟩ := UtxoSet.mem_createdEntries.mp hcreated
    obtain ⟨hid, hidx⟩ := UtxoSet.key_inj hkey
    refine ⟨u, m, out, hrep, hin.lookup_eq, ⟨x, hx, t, htx', hid.symm, ?_⟩, hin.script_ok⟩
    rw [hidx, toNat_ofNat_of_le (List.getElem?_eq_some_iff.mp hj).1 (hledger.bounded t ht)]
    exact hj

/-- A genesis spends nothing. -/
theorem authorised_genesis (hg : g.transactions = [genesisCoinbase]) : Authorised C magic bs g := by
  refine ⟨⟨genesisCoinbase, [], hg, rfl, by simp⟩, fun tx htx => ?_⟩
  rw [hg] at htx
  cases htx

theorem Ledger.mono {E E' : List Transaction} (h : Ledger C E') (hsub : ∀ tx ∈ E, tx ∈ E') :
    Ledger C E :=
  ⟨fun tx htx => h.bounded tx (hsub tx htx), fun tx htx tx' htx' =>
    h.consistent tx (hsub tx htx) tx' (hsub tx' htx')⟩

theorem mem_chainTxs_of_subset (hsub : ∀ x ∈ bs, x ∈ ds) {tx : Transaction}
    (htx : tx ∈ chainTxs bs) : tx ∈ chainTxs ds := by
  obtain ⟨b, hb, htxb⟩ := mem_chainTxs.mp htx
  exact mem_chainTxs.mpr ⟨b, hsub b hb, htxb⟩

namespace Blockchain

/-- **Every spend is authorised by its own branch.** In every state a run reaches, whatever was
accepted on whichever branch ends a branch of accepted blocks, and on each such branch it spends
what the blocks before it created and left unspent, under the state's network magic. -/
theorem every_spend_authorised (C : Crypto) (fuel : ℕ) (bits : UInt32) (g : Block)
    (hgen : genesisBlockWithBits C fuel bits = some g) (store : Option BlockStore) (magic : UInt32)
    (evs : List Event)
    (hnc : NoCollision C (g :: recorded C (fromGenesisWithMagic C g store magic) evs)) :
    ∀ b ∈ g :: recorded C (fromGenesisWithMagic C g store magic) evs,
      (∃ bs, Branch C g (g :: recorded C (fromGenesisWithMagic C g store magic) evs) (bs ++ [b])) ∧
      ∀ bs, Branch C g (g :: recorded C (fromGenesisWithMagic C g store magic) evs) (bs ++ [b]) →
        Authorised C (run C (fromGenesisWithMagic C g store magic) evs).networkMagic bs b := by
  obtain ⟨hg, hgtxs⟩ := genesisBlockWithBits_spec hgen
  have hinv := inv_run hg store magic evs hnc
  rw [hinv.magic_eq]
  intro b hb
  refine ⟨hinv.history.exists_branch hg hb, fun bs hbranch => ?_⟩
  by_cases hne : bs = []
  · subst hne
    obtain rfl : b = g := Option.some.inj hbranch.head?_eq
    exact authorised_genesis hgtxs
  · obtain ⟨-, now, -, hext⟩ :=
      (hbranch.validChain hg hinv.history hinv.separated).extends_of_append hne
    refine hext.authorised ((hinv.history.ledger hgtxs hnc).mono fun tx htx => ?_)
    exact mem_chainTxs_of_subset (fun x hx => hbranch.mem x (List.mem_append_left _ hx)) htx

/-- The payment at height 101 is authorised by the hundred blocks before it. -/
theorem every_spend_authorised_feeBlock :
    Authorised Crypto.sample regtestMagic (idleChain 99) feeBlock := by
  obtain ⟨s, -, hrun, -, hblocks, -⟩ := sampleChain_feeChain.run_deliver (by decide)
  have hnc := sampleChain_feeChain.noCollision_recorded noCollision_feeChain
  have hinv := inv_run rfl none regtestMagic _ hnc
  rw [hrun] at hinv
  have hsub : ∀ x ∈ feeChain, x ∈ sampleGenesis :: recorded Crypto.sample
      (fromGenesisWithMagic Crypto.sample sampleGenesis none regtestMagic)
        (deliver (fun _ => sampleNow) 0 feeChain.tail) := fun x hx => hinv.mem_hist (hblocks ▸ hx)
  have hbranch := sampleChain_feeChain.valid.branch rfl hsub
  have hauth := (every_spend_authorised Crypto.sample 1 regtestGenesisBits sampleGenesis
    genesisBlockWithBits_sample none regtestMagic _ hnc feeBlock (hsub _ (by simp [feeChain]))).2 _
      hbranch
  rwa [hrun, hinv.magic_eq] at hauth

/-! ### One hash, one block -/

/-- **The hash of a block commits to the whole block.** Two blocks that pass both validators on one
parent of one state are equal if their hashes are, and carry the same transactions if their Merkle
roots agree, or else two of the strings hashed on the way collide. -/
theorem block_hash_commits (C : Crypto) (s : Blockchain) (parent b b' : Block) (now now' : ℕ)
    (hb : b.validate C (parent.hashHex C) = .ok ())
    (hb' : b'.validate C (parent.hashHex C) = .ok ())
    (hctx : s.validateBlockAgainstParent C now b parent = .ok ())
    (hctx' : s.validateBlockAgainstParent C now' b' parent = .ok ()) :
    (b.hashHex C = b'.hashHex C → b = b' ∨
      ∃ x ∈ b.hashedStrings C ++ b'.hashedStrings C, ∃ y ∈ b.hashedStrings C ++ b'.hashedStrings C,
        x ≠ y ∧ C.hash256 x = C.hash256 y) ∧
    (merkleRoot C b.transactions = merkleRoot C b'.transactions → b.transactions = b'.transactions ∨
      ∃ x ∈ merkleStrings C b.transactions ++ merkleStrings C b'.transactions,
        ∃ y ∈ merkleStrings C b.transactions ++ merkleStrings C b'.transactions,
          x ≠ y ∧ C.hash256 x = C.hash256 y) := by
  have hwf := Block.validate_eq_ok_iff.mp hb
  have hwf' := Block.validate_eq_ok_iff.mp hb'
  obtain ⟨hheight, bs, u, m, -, hok⟩ := validateBlockAgainstParent_eq_ok_iff.mp hctx
  obtain ⟨hheight', bs', u', m', -, hok'⟩ := validateBlockAgainstParent_eq_ok_iff.mp hctx'
  -- without a collision the strings at hand are hashed injectively
  have hinj : ∀ l : List Bytes, (¬ ∃ x ∈ l, ∃ y ∈ l, x ≠ y ∧ C.hash256 x = C.hash256 y) →
      Set.InjOn C.hash256 {x | x ∈ l} := by
    intro l hl x hx y hy heq
    by_contra hne
    exact hl ⟨x, hx, y, hy, hne, heq⟩
  refine ⟨fun heq => ?_, fun heq => ?_⟩
  · by_cases hcol : ∃ x ∈ b.hashedStrings C ++ b'.hashedStrings C,
        ∃ y ∈ b.hashedStrings C ++ b'.hashedStrings C, x ≠ y ∧ C.hash256 x = C.hash256 y
    · exact Or.inr hcol
    · exact Or.inl (Block.eq_of_hashHex_eq (hinj _ hcol) (fun x hx => List.mem_append_left _ hx)
        (fun x hx => List.mem_append_right _ hx) hwf hwf' (hok.funded hwf) (hok'.funded hwf')
        (hheight.trans hheight'.symm) heq)
  · by_cases hcol : ∃ x ∈ merkleStrings C b.transactions ++ merkleStrings C b'.transactions,
        ∃ y ∈ merkleStrings C b.transactions ++ merkleStrings C b'.transactions,
          x ≠ y ∧ C.hash256 x = C.hash256 y
    · exact Or.inr hcol
    · exact Or.inl (merkleRoot_inj (hinj _ hcol) (fun x hx => List.mem_append_left _ hx)
        (fun x hx => List.mem_append_right _ hx) hwf.transactions_ne_nil hwf'.transactions_ne_nil
        (hok.funded hwf) (hok'.funded hwf') hwf.serializedSize_tx_lt heq)

/-- Two blocks on the genesis, which differ and have different hashes. -/
theorem block_hash_commits_rivalBlock :
    (idleBlock 0).hashHex Crypto.sample ≠ rivalBlock.hashHex Crypto.sample := by
  intro heq
  have hcommits := (block_hash_commits Crypto.sample
    (fromGenesisWithMagic Crypto.sample sampleGenesis none regtestMagic) sampleGenesis (idleBlock 0)
    rivalBlock sampleNow sampleNow (by decide +kernel) (by decide +kernel) (by decide +kernel)
    (by decide +kernel)).1 heq
  rcases hcommits with hsame | ⟨x, hx, y, hy, hne, hcol⟩
  · exact absurd hsame (by decide +kernel)
  · have hnc : NoCollision Crypto.sample [idleBlock 0, rivalBlock] := by
      rw [NoCollision]
      decide +kernel
    exact hne (hnc x (by simpa [List.flatMap] using hx) y (by simpa [List.flatMap] using hy) hcol)

end Blockchain

end Arkos
