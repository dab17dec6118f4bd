import Arkos.Blockchain.Growth

/-!
# What a valid chain does to the unspent outputs

A chain is a sequence of applications, and this module keeps its books: the sum of all unspent
values, and how often a key was spent and created. Both accounts need that no transaction names an
outpoint twice, which the validator does not check: it adds up the value once per mention and
removes the output once.

The supply argument follows a block through three sets of outputs: `u` before the block, against
which the fees are computed; `P`, which the validation loop builds from it; and `S`, which the
replay builds, the coinbase first. Every key of `P` is a key of `S`, and a key that is in two of
them holds the same output in both, because an output is found under the hash of the transaction
that created it.

## Main definitions

* `chainTxs` — the transactions of a chain
* `Ledger`, `TxidInj` — a list of transactions among which a key names one output, a txid one
  transaction
* `Originates` — every unspent output was created by a listed transaction
* `Block.DistinctInputs` — no transaction of the block names an outpoint twice
* `spendsOf`, `creationsOf` — how often an outpoint is spent and created

## Main results

* `TxsOk.totalValue_le`, `ContextOk.supply`, `ValidChain.supply`
* `TxsOk.spends_le`, `ValidChain.spends_le`
* `History.txid_inj`, `History.ledger` — what holds of the transactions of recorded blocks
-/

namespace Arkos

variable {C : Crypto}

/-! ### The transactions of a chain -/

/-- The transactions of a chain, in the order they are applied. -/
def chainTxs (bs : List Block) : List Transaction := bs.flatMap Block.transactions

theorem chainTxs_append_singleton (bs : List Block) (b : Block) :
    chainTxs (bs ++ [b]) = chainTxs bs ++ b.transactions := by
  simp [chainTxs]

theorem mem_chainTxs {bs : List Block} {tx : Transaction} :
    tx ∈ chainTxs bs ↔ ∃ b ∈ bs, tx ∈ b.transactions := List.mem_flatMap

/-- Replaying a chain applies its transactions to the empty set. -/
theorem replay_utxoSet {bs : List Block} {u : UtxoSet} {m : ℕ} (h : replay C bs = .ok (u, m)) :
    u = (chainTxs bs).foldl (UtxoSet.applyTransaction C) UtxoSet.empty := by
  suffices hgen : ∀ (st : UtxoSet × ℕ), bs.foldlM (replayBlock C) st = .ok (u, m) →
      u = (chainTxs bs).foldl (UtxoSet.applyTransaction C) st.1 from hgen _ h
  clear h
  induction bs with
  | nil =>
    intro st h
    cases h
    rfl
  | cons b bs ih =>
    intro st h
    rw [List.foldlM_cons] at h
    cases hs : replayBlock C st b with
    | error e =>
      rw [hs] at h
      cases h
    | ok st' =>
      rw [hs] at h
      rw [chainTxs, List.flatMap_cons, List.foldl_append]
      have hrest := ih st' h
      rw [replayBlock] at hs
      split at hs
      · cases hs
      · cases hs
        exact hrest

/-! ### A key names one output -/

/-- Transactions with few outputs among which a key names one output. -/
structure Ledger (C : Crypto) (E : List Transaction) : Prop where
  bounded : ∀ tx ∈ E, tx.outputs.length ≤ maxBlockUtxoOps
  consistent : ∀ tx ∈ E, ∀ tx' ∈ E, ∀ k o o', (k, o) ∈ tx.createdEntries C →
    (k, o') ∈ tx'.createdEntries C → o = o'

/-- Every unspent output was created by one of the transactions `E`. -/
def Originates (C : Crypto) (E : List Transaction) (u : UtxoSet) : Prop :=
  ∀ k o, u.utxos.lookup k = some o → ∃ tx ∈ E, (k, o) ∈ tx.createdEntries C

theorem toNat_ofNat_of_le {i n : ℕ} (hi : i < n) (hn : n ≤ maxBlockUtxoOps) :
    (UInt32.ofNat i).toNat = i := by
  rw [UInt32.toNat_ofNat', Nat.mod_eq_of_lt]
  rw [maxBlockUtxoOps] at hn
  omega

/-- Transactions with different txids form a ledger. -/
theorem ledger_of_txid_inj {E : List Transaction}
    (hbounded : ∀ tx ∈ E, tx.outputs.length ≤ maxBlockUtxoOps) (hinj : TxidInj C E) :
    Ledger C E := by
  refine ⟨hbounded, fun tx htx tx' htx' k o o' hk hk' => ?_⟩
  obtain ⟨i, hi, rfl⟩ := UtxoSet.mem_createdEntries.mp hk
  obtain ⟨i', hi', heq⟩ := UtxoSet.mem_createdEntries.mp hk'
  obtain ⟨hid, hidx⟩ := UtxoSet.key_inj heq
  obtain rfl := hinj tx htx tx' htx' hid
  have hii : i = i' := by
    have h := congrArg UInt32.toNat hidx
    rwa [toNat_ofNat_of_le (List.getElem?_eq_some_iff.mp hi).1 (hbounded tx htx),
      toNat_ofNat_of_le (List.getElem?_eq_some_iff.mp hi').1 (hbounded tx htx)] at h
  subst hii
  exact Option.some.inj (hi.symm.trans hi')

namespace Ledger

variable {E : List Transaction} (hE : Ledger C E)

include hE

/-- A key that is present twice holds the same value twice. -/
theorem valueAt_eq {u u' : UtxoSet} (hu : Originates C E u) (hu' : Originates C E u') {k : String}
    (hk : k ∈ u.utxos) (hk' : k ∈ u'.utxos) : u.valueAt k = u'.valueAt k := by
  obtain ⟨o, ho⟩ := Finmap.mem_iff.mp hk
  obtain ⟨o', ho'⟩ := Finmap.mem_iff.mp hk'
  obtain ⟨tx, htx, hc⟩ := hu k o ho
  obtain ⟨tx', htx', hc'⟩ := hu' k o' ho'
  obtain rfl := hE.consistent tx htx tx' htx' k o o' hc hc'
  rw [UtxoSet.valueAt_of_lookup ho, UtxoSet.valueAt_of_lookup ho']

/-- No transaction creates the outpoint a coinbase input names. -/
theorem coinbase_outpoint_notMem {u : UtxoSet} (hu : Originates C E u) (h : String) :
    UtxoSet.key h 4294967295 ∉ u.utxos := by
  intro hk
  obtain ⟨o, ho⟩ := Finmap.mem_iff.mp hk
  obtain ⟨tx, htx, hc⟩ := hu _ o ho
  obtain ⟨i, hi, heq⟩ := UtxoSet.mem_createdEntries.mp hc
  have hidx := congrArg UInt32.toNat (UtxoSet.key_inj heq).2
  have hb := hE.bounded tx htx
  rw [toNat_ofNat_of_le (List.getElem?_eq_some_iff.mp hi).1 hb] at hidx
  have hlt := (List.getElem?_eq_some_iff.mp hi).1
  rw [maxBlockUtxoOps] at hb
  have hmax : (4294967295 : UInt32).toNat = 4294967295 := rfl
  omega

/-- Hence a valid transaction is not a coinbase. -/
theorem not_isCoinbase {u : UtxoSet} (hu : Originates C E u) {tx : Transaction} {magic : UInt32}
    {h fee : ℕ} (hok : TxOk C tx u magic h fee) : tx.isCoinbase = false := by
  by_contra hcb
  rw [Bool.not_eq_false, Transaction.isCoinbase] at hcb
  split at hcb
  · next i hi =>
    rw [Bool.and_eq_true, beq_iff_eq, beq_iff_eq] at hcb
    have hmem := hok.mem (i := i) (by rw [hi]; exact List.mem_cons_self)
    rw [TxInput.outpoint, hcb.2] at hmem
    exact hE.coinbase_outpoint_notMem hu _ hmem
  · cases hcb

omit hE in
theorem originates_applyTransaction {u : UtxoSet} (hu : Originates C E u) {tx : Transaction}
    (htx : tx ∈ E) : Originates C E (u.applyTransaction C tx) := by
  intro k o ho
  rcases UtxoSet.lookup_applyTransaction_cases ho with hc | ⟨hold, -⟩
  · exact ⟨tx, htx, hc⟩
  · exact hu k o hold

omit hE in
theorem originates_foldl {u : UtxoSet} (hu : Originates C E u) {txs : List Transaction}
    (htxs : ∀ tx ∈ txs, tx ∈ E) :
    Originates C E (txs.foldl (UtxoSet.applyTransaction C) u) := by
  induction txs generalizing u with
  | nil => exact hu
  | cons tx txs ih =>
    exact ih (originates_applyTransaction hu (htxs tx List.mem_cons_self)) fun t ht =>
      htxs t (List.mem_cons_of_mem _ ht)

end Ledger

theorem originates_empty (E : List Transaction) : Originates C E UtxoSet.empty := by
  intro k o ho
  rw [UtxoSet.empty, Finmap.lookup_empty] at ho
  cases ho

/-- **The recorded height of a coinbase is the one it states**, however often and wherever it was
applied. -/
theorem lookup_coinbaseHeights_foldl {E : List Transaction} (hE : TxidInj C E)
    {txs : List Transaction} (htxs : ∀ tx ∈ txs, tx ∈ E) (txid : String) (height : ℕ) :
    (txs.foldl (UtxoSet.applyTransaction C) UtxoSet.empty).coinbaseHeights.lookup txid =
        some height ↔
      ∃ cb ∈ txs, cb.isCoinbase = true ∧ cb.txidHex C = txid ∧ cb.coinbaseHeight = height := by
  induction txs using List.reverseRecOn with
  | nil => simp [UtxoSet.empty]
  | append_singleton txs tx ih =>
    have hsub : ∀ t ∈ txs, t ∈ E := fun t ht => htxs t (List.mem_append_left _ ht)
    rw [List.foldl_append, List.foldl_cons, List.foldl_nil]
    cases hcb : tx.isCoinbase with
    | false =>
      rw [UtxoSet.coinbaseHeights_applyTransaction_of_not_isCoinbase _ hcb, ih hsub]
      simp [or_and_right, exists_or, hcb]
    | true =>
      rw [UtxoSet.applyTransaction, if_pos hcb, Finmap.lookup_insert_eq]
      split
      · next hid =>
        constructor
        · intro h
          exact ⟨tx, by simp, hcb, hid.symm, Option.some.inj h⟩
        · rintro ⟨cb, hmem, -, hcbid, rfl⟩
          rw [hE cb (htxs cb hmem) tx (htxs tx (by simp)) (hcbid.trans hid)]
      · next hid =>
        rw [ih hsub]
        constructor
        · rintro ⟨cb, hmem, h⟩
          exact ⟨cb, List.mem_append_left _ hmem, h⟩
        · rintro ⟨cb, hmem, h, rfl, hheight⟩
          rcases List.mem_append.mp hmem with hmem | hmem
          · exact ⟨cb, hmem, h, rfl, hheight⟩
          · exact absurd (by rw [List.mem_singleton.mp hmem]) hid

/-! ### One transaction -/

/-- No outpoint is named twice. -/
def Transaction.DistinctInputs (tx : Transaction) : Prop := (tx.inputs.map TxInput.outpoint).Nodup

/-- No transaction of the block names an outpoint twice. -/
def Block.DistinctInputs (b : Block) : Prop := ∀ tx ∈ b.transactions, tx.DistinctInputs

instance (tx : Transaction) : Decidable tx.DistinctInputs :=
  inferInstanceAs (Decidable (List.Nodup _))

instance (b : Block) : Decidable b.DistinctInputs :=
  inferInstanceAs (Decidable (∀ tx ∈ b.transactions, tx.DistinctInputs))

theorem Transaction.DistinctInputs.spentKeys_nodup {tx : Transaction} (h : tx.DistinctInputs) :
    tx.spentKeys.Nodup := by
  rw [Transaction.spentKeys]
  split
  · exact List.nodup_nil
  · exact h

/-- What an application does to the sum of all values, in terms of the values named. -/
theorem UtxoSet.totalValue_applyTransaction_valueAt (u : UtxoSet) {tx : Transaction}
    (hnodup : tx.spentKeys.Nodup) (hmem : ∀ k ∈ tx.spentKeys, k ∈ u.utxos) :
    (u.applyTransaction C tx).totalValue + (tx.spentKeys.map u.valueAt).sum ≤
      u.totalValue + tx.outputSum := by
  have hlook : ∀ k ∈ tx.spentKeys,
      u.utxos.lookup k = some ((u.utxos.lookup k).getD ⟨0, none, ""⟩) := by
    intro k hk
    obtain ⟨o, ho⟩ := Finmap.mem_iff.mp (hmem k hk)
    rw [ho]
    rfl
  have hle := UtxoSet.totalValue_applyTransaction_le (C := C) hnodup _ hlook
  have hsum : (tx.spentKeys.map fun k =>
      ((u.utxos.lookup k).getD ⟨0, none, ""⟩).value.toNat).sum =
        (tx.spentKeys.map u.valueAt).sum := by
    congr 1
    refine List.map_congr_left fun k hk => ?_
    rw [UtxoSet.valueAt_of_lookup (hlook k hk)]
  rw [hsum] at hle
  exact hle

/-- A coinbase adds at most its outputs. -/
theorem UtxoSet.totalValue_applyTransaction_le_of_isCoinbase (u : UtxoSet) {tx : Transaction}
    (h : tx.isCoinbase = true) :
    (u.applyTransaction C tx).totalValue ≤ u.totalValue + tx.outputSum := by
  have hspent := UtxoSet.spentKeys_of_isCoinbase h
  have hle := u.totalValue_applyTransaction_valueAt (C := C) (hspent ▸ List.nodup_nil)
    (hspent ▸ fun _ hk => absurd hk List.not_mem_nil)
  omega

/-- Keys present before and not spent, or created, are present after; this is monotone in the
set. -/
theorem UtxoSet.mem_applyTransaction_mono {u u' : UtxoSet}
    (h : ∀ k ∈ u.utxos, k ∈ u'.utxos) (tx : Transaction) :
    ∀ k ∈ (u.applyTransaction C tx).utxos, k ∈ (u'.applyTransaction C tx).utxos := by
  intro k hk
  rw [UtxoSet.mem_applyTransaction] at hk ⊢
  exact hk.imp id fun ⟨hmem, hns⟩ => ⟨h k hmem, hns⟩

/-! ### The transactions of a block -/

/-- **The fees of a block leave the sum of all values.** `u` is where the fees are computed, `P`
where the transactions are validated and `S` where they are applied. -/
theorem TxsOk.totalValue_le {E : List Transaction} (hE : Ledger C E) {magic : UInt32} {h : ℕ}
    {u P P' S : UtxoSet} {txs : List Transaction} {fees : List ℕ} (hu : Originates C E u)
    (hP : Originates C E P) (hS : Originates C E S) (hPS : ∀ k ∈ P.utxos, k ∈ S.utxos)
    (htxs : ∀ tx ∈ txs, tx ∈ E) (hdist : ∀ tx ∈ txs, tx.DistinctInputs)
    (hfees : FeesOf C u magic h txs fees) (hok : TxsOk C magic h P txs P') :
    (txs.foldl (UtxoSet.applyTransaction C) S).totalValue + fees.sum ≤ S.totalValue := by
  induction hok generalizing S fees with
  | nil =>
    cases hfees
    simp
  | @cons P tx txs P' fee' htx hrest ih =>
    cases hfees with
    | @cons _ _ fee fees hfee hfees =>
      have htxE := htxs tx List.mem_cons_self
      have hsub := fun t ht => htxs t (List.mem_cons_of_mem _ ht)
      have hspent : tx.spentKeys = tx.inputs.map TxInput.outpoint :=
        UtxoSet.spentKeys_of_not_isCoinbase (hE.not_isCoinbase hP htx)
      have hmem : ∀ k ∈ tx.spentKeys, k ∈ S.utxos := by
        intro k hk
        rw [hspent] at hk
        obtain ⟨i, hi, rfl⟩ := List.mem_map.mp hk
        exact hPS _ (htx.mem hi)
      have happly := S.totalValue_applyTransaction_valueAt (C := C)
        (hdist tx List.mem_cons_self).spentKeys_nodup hmem
      -- the inputs are worth in `S` what the fee was computed from in `u`
      have hsum : (tx.spentKeys.map S.valueAt).sum = tx.inputSum u := by
        rw [hspent, List.map_map, Transaction.inputSum]
        congr 1
        refine List.map_congr_left fun i hi => ?_
        exact hE.valueAt_eq hS hu (hPS _ (htx.mem hi)) (hfee.mem hi)
      have hih := ih (Ledger.originates_applyTransaction hP htxE)
        (Ledger.originates_applyTransaction hS htxE) (UtxoSet.mem_applyTransaction_mono hPS tx)
        hsub (fun t ht => hdist t (List.mem_cons_of_mem _ ht)) hfees
      have hfee_eq := hfee.fee_eq
      rw [List.foldl_cons, List.sum_cons]
      omega

/-- Once an output is spent, another payment of it is valid only if the first
one created it anew. -/
theorem TxsOk.mem_created_of_pair {magic : UInt32} {h : ℕ} {u u' : UtxoSet} {a b : Transaction}
    (hok : TxsOk C magic h u [a, b] u') (ha : a.isCoinbase = false) {k : String}
    (hk : k ∈ a.inputs.map TxInput.outpoint) (hk' : k ∈ b.inputs.map TxInput.outpoint) :
    k ∈ (a.createdEntries C).map Prod.fst := by
  rcases hok with _ | ⟨-, _ | ⟨hb, -⟩⟩
  obtain ⟨i, hi, rfl⟩ := List.mem_map.mp hk'
  refine (UtxoSet.mem_applyTransaction.mp (hb.mem hi)).resolve_right fun hold => hold.2 ?_
  rwa [UtxoSet.spentKeys_of_not_isCoinbase ha]

/-- A coinbase value below the largest word is the exact sum of the coinbase's outputs. -/
theorem coinbaseValue_eq_outputSum {b : Block} {cb : Transaction} {rest : List Transaction}
    (hb : b.transactions = cb :: rest) (hlt : coinbaseValue b < 2 ^ 64 - 1) :
    coinbaseValue b = cb.outputSum := by
  rw [coinbaseValue, hb] at hlt ⊢
  dsimp only at hlt ⊢
  cases hs : checkedSum 64 (cb.outputs.map fun o => o.value.toNat) with
  | none =>
    rw [hs] at hlt
    exact absurd hlt (lt_irrefl _)
  | some t =>
    obtain ⟨rfl, -⟩ := checkedSum_eq_some_iff.mp hs
    rfl

/-- **One block.** Below the cap and below what was minted, a valid block stays below both. -/
theorem ContextOk.supply {E : List Transaction} (hE : Ledger C E) {magic : UInt32} {now : ℕ}
    {bs : List Block} {u : UtxoSet} {m : ℕ} {b : Block} (hctx : ContextOk C magic now bs u m b)
    {cb : Transaction} {rest : List Transaction} (hb : b.transactions = cb :: rest)
    (hcb : cb.isCoinbase = true) (hbE : ∀ tx ∈ b.transactions, tx ∈ E)
    (hdist : b.DistinctInputs) (hu : Originates C E u) (hm : u.totalValue ≤ m)
    (hcap : u.totalValue ≤ maxSupplyArkes) :
    (applyBlock C u b).totalValue ≤ m + coinbaseValue b ∧
      (applyBlock C u b).totalValue ≤ maxSupplyArkes := by
  obtain ⟨fees, hfees, -, hsubsidy⟩ := hctx.subsidy_ok
  obtain ⟨u', hok⟩ := hctx.txs_ok
  have htail : b.transactions.tail = rest := by rw [hb]; rfl
  rw [htail] at hfees hok
  have hrestE : ∀ tx ∈ rest, tx ∈ E := fun tx htx => hbE tx (hb ▸ List.mem_cons_of_mem _ htx)
  have hrestD : ∀ tx ∈ rest, tx.DistinctInputs := fun tx htx =>
    hdist tx (hb ▸ List.mem_cons_of_mem _ htx)
  -- the fees come out of what was there before the block
  have hfeesle := hok.totalValue_le hE hu hu hu (fun _ hk => hk) hrestE hrestD hfees
  -- so the allowed reward is far from the largest word, and the coinbase value is exact
  have hcapped : cappedReward b.height m ≤ maxSupplyArkes - m := Nat.min_le_right _ _
  have hsat := saturatingAdd_le (w := 64) (a := cappedReward b.height m) (b := fees.sum)
  have hmax : maxSupplyArkes = 31415926000000000 := rfl
  have hexact := coinbaseValue_eq_outputSum hb (by omega)
  -- the coinbase creates its outputs and spends nothing
  have hcbE : cb ∈ E := hbE cb (hb ▸ List.mem_cons_self)
  have hspent : cb.spentKeys = [] := UtxoSet.spentKeys_of_isCoinbase hcb
  have hS₀ := u.totalValue_applyTransaction_le_of_isCoinbase (C := C) hcb
  have hPS : ∀ k ∈ u.utxos, k ∈ (u.applyTransaction C cb).utxos := fun k hk =>
    UtxoSet.mem_applyTransaction.mpr (Or.inr ⟨hk, by rw [hspent]; simp⟩)
  have hS := hok.totalValue_le hE hu hu (Ledger.originates_applyTransaction hu hcbE) hPS hrestE
    hrestD hfees
  have happly : applyBlock C u b =
      rest.foldl (UtxoSet.applyTransaction C) (u.applyTransaction C cb) := by
    rw [applyBlock, hb, List.foldl_cons]
  rw [happly]
  omega

/-! ### Whole chains -/

variable {magic : UInt32} {T : Set ℕ} {g : Block}

/-- What a replay that got past a further block had computed before it. -/
theorem replay_append_singleton_eq_ok {bs : List Block} {b : Block} {u : UtxoSet} {m : ℕ}
    (h : replay C (bs ++ [b]) = .ok (u, m)) {u₀ : UtxoSet} {m₀ : ℕ}
    (h₀ : replay C bs = .ok (u₀, m₀)) :
    u = applyBlock C u₀ b ∧ m = m₀ + coinbaseValue b := by
  rw [replay_append_singleton h₀, replayBlock] at h
  split at h
  · cases h
  next t ht =>
    obtain ⟨rfl, -⟩ := checkedAdd_eq_some_iff.mp ht
    cases h
    exact ⟨rfl, rfl⟩

/-- **The supply of a valid chain** stays below the cap and below what its coinbases paid, if that
holds of its genesis. -/
theorem ValidChain.supply {E : List Transaction} (hE : Ledger C E) {bs : List Block}
    (hbs : ValidChain C magic T g bs) (htxs : ∀ tx ∈ chainTxs bs, tx ∈ E)
    (hdist : ∀ b ∈ bs, b.DistinctInputs)
    (hgm : (applyBlock C UtxoSet.empty g).totalValue ≤ coinbaseValue g)
    (hgcap : (applyBlock C UtxoSet.empty g).totalValue ≤ maxSupplyArkes) {u : UtxoSet} {m : ℕ}
    (hrep : replay C bs = .ok (u, m)) :
    u.totalValue ≤ m ∧ u.totalValue ≤ maxSupplyArkes := by
  induction hbs generalizing u m with
  | genesis =>
    rw [Blockchain.replay_singleton] at hrep
    cases hrep
    exact ⟨hgm, hgcap⟩
  | @snoc bs b now hbs _ _ hext ih =>
    rw [chainTxs_append_singleton] at htxs
    obtain ⟨u₀, m₀, hrep₀, hctx⟩ := hext.context
    obtain ⟨hm₀, hcap₀⟩ := ih (fun tx htx => htxs tx (List.mem_append_left _ htx))
      (fun c hc => hdist c (List.mem_append_left _ hc)) hrep₀
    obtain ⟨rfl, rfl⟩ := replay_append_singleton_eq_ok hrep hrep₀
    obtain ⟨p, -, hwf, -⟩ := hext.parent
    obtain ⟨cb, rest, hb, hcb⟩ := hwf.coinbase
    have hu₀ : Originates C E u₀ := by
      rw [replay_utxoSet hrep₀]
      exact Ledger.originates_foldl (originates_empty E) fun tx htx =>
        htxs tx (List.mem_append_left _ htx)
    exact hctx.supply hE hb hcb (fun tx htx => htxs tx (List.mem_append_right _ htx))
      (hdist b (by simp)) hu₀ hm₀ hcap₀

/-! ### Counting spends -/

/-- How often the non-coinbase inputs of `txs` name the outpoint, with repetition. -/
def spendsOf (txs : List Transaction) (txHash : String) (index : UInt32) : ℕ :=
  ((txs.filter fun tx => !tx.isCoinbase).flatMap Transaction.inputs).countP fun i =>
    decide (i.prevTxHash = txHash ∧ i.prevIndex = index)

/-- How many of `txs` create the outpoint: those with that txid and enough outputs. -/
def creationsOf (C : Crypto) (txs : List Transaction) (txHash : String) (index : UInt32) : ℕ :=
  txs.countP fun tx => decide (tx.txidHex C = txHash ∧ index.toNat < tx.outputs.length)

/-- The same two counts in terms of what an application erases and writes. -/
def keySpends (txs : List Transaction) (k : String) : ℕ :=
  (txs.flatMap Transaction.spentKeys).count k

/-- See `keySpends`. -/
def keyCreations (C : Crypto) (txs : List Transaction) (k : String) : ℕ :=
  txs.countP fun tx => decide (k ∈ (tx.createdEntries C).map Prod.fst)

theorem keySpends_append (txs txs' : List Transaction) (k : String) :
    keySpends (txs ++ txs') k = keySpends txs k + keySpends txs' k := by
  simp [keySpends]

theorem keyCreations_append (txs txs' : List Transaction) (k : String) :
    keyCreations C (txs ++ txs') k = keyCreations C txs k + keyCreations C txs' k := by
  simp [keyCreations]

theorem keySpends_eq_spendsOf (txs : List Transaction) (txHash : String) (index : UInt32) :
    keySpends txs (UtxoSet.key txHash index) = spendsOf txs txHash index := by
  have hcount : ∀ is : List TxInput, (is.map TxInput.outpoint).count (UtxoSet.key txHash index) =
      is.countP fun i => decide (i.prevTxHash = txHash ∧ i.prevIndex = index) := by
    intro is
    rw [List.count, List.countP_map]
    refine List.countP_congr fun i _ => ?_
    simp only [Function.comp_apply, TxInput.outpoint, beq_iff_eq, decide_eq_true_eq]
    exact ⟨UtxoSet.key_inj, fun ⟨h₁, h₂⟩ => by rw [h₁, h₂]⟩
  rw [keySpends, spendsOf]
  induction txs with
  | nil => rfl
  | cons tx txs ih =>
    rw [List.flatMap_cons, List.count_append, ih, List.filter_cons]
    cases hcb : tx.isCoinbase with
    | true =>
      rw [UtxoSet.spentKeys_of_isCoinbase hcb]
      simp
    | false =>
      rw [UtxoSet.spentKeys_of_not_isCoinbase hcb, hcount]
      simp

theorem keyCreations_eq_creationsOf {txs : List Transaction}
    (hbounded : ∀ tx ∈ txs, tx.outputs.length ≤ maxBlockUtxoOps) (txHash : String)
    (index : UInt32) :
    keyCreations C txs (UtxoSet.key txHash index) = creationsOf C txs txHash index := by
  refine List.countP_congr fun tx htx => ?_
  rw [decide_eq_true_iff, decide_eq_true_iff, UtxoSet.mem_createdKeys]
  constructor
  · rintro ⟨i, hi, heq⟩
    obtain ⟨hid, hidx⟩ := UtxoSet.key_inj heq
    have hnat := congrArg UInt32.toNat hidx
    rw [toNat_ofNat_of_le hi (hbounded tx htx)] at hnat
    exact ⟨hid.symm, by omega⟩
  · rintro ⟨hid, hlt⟩
    exact ⟨index.toNat, hlt, by rw [hid, UInt32.ofNat_toNat]⟩

/-- One, if the key is unspent. -/
def UtxoSet.present (u : UtxoSet) (k : String) : ℕ := if k ∈ u.utxos then 1 else 0

/-- **One application** spends a present key at most once and adds it at most once. -/
theorem UtxoSet.present_applyTransaction (u : UtxoSet) {tx : Transaction}
    (hnodup : tx.spentKeys.Nodup) (hmem : ∀ k ∈ tx.spentKeys, k ∈ u.utxos) (k : String) :
    keySpends [tx] k + (u.applyTransaction C tx).present k ≤
      u.present k + keyCreations C [tx] k := by
  have hspends : keySpends [tx] k = if k ∈ tx.spentKeys then 1 else 0 := by
    rw [keySpends, List.flatMap_singleton]
    split
    · next hk => exact List.count_eq_one_of_mem hnodup hk
    · next hk => exact List.count_eq_zero_of_not_mem hk
  have hcreations : keyCreations C [tx] k =
      if k ∈ (tx.createdEntries C).map Prod.fst then 1 else 0 := by
    rw [keyCreations, List.countP_singleton]
    exact if_congr decide_eq_true_iff rfl rfl
  rw [hspends, hcreations, UtxoSet.present, UtxoSet.present]
  have hiff : k ∈ (u.applyTransaction C tx).utxos ↔ _ := UtxoSet.mem_applyTransaction
  by_cases hk : k ∈ tx.spentKeys
  · have hku := hmem k hk
    by_cases hc : k ∈ (tx.createdEntries C).map Prod.fst <;> simp [hiff, hk, hku, hc]
  · by_cases hku : k ∈ u.utxos <;>
      by_cases hc : k ∈ (tx.createdEntries C).map Prod.fst <;> simp [hiff, hk, hku, hc]

/-- The transactions of a block, after its coinbase. -/
theorem TxsOk.spends_le {magic : UInt32} {h : ℕ} {P P' S : UtxoSet} {txs : List Transaction}
    (hPS : ∀ k ∈ P.utxos, k ∈ S.utxos) (hdist : ∀ tx ∈ txs, tx.DistinctInputs)
    (hok : TxsOk C magic h P txs P') (k : String) :
    keySpends txs k + (txs.foldl (UtxoSet.applyTransaction C) S).present k ≤
      S.present k + keyCreations C txs k := by
  induction hok generalizing S with
  | nil => simp [keySpends, keyCreations]
  | @cons P tx txs P' fee htx hrest ih =>
    have hmem : ∀ k ∈ tx.spentKeys, k ∈ S.utxos := by
      intro k hk
      rw [Transaction.spentKeys] at hk
      split at hk
      · cases hk
      · obtain ⟨i, hi, rfl⟩ := List.mem_map.mp hk
        exact hPS _ (htx.mem hi)
    have hone := S.present_applyTransaction (C := C)
      (hdist tx List.mem_cons_self).spentKeys_nodup hmem k
    have hih := ih (UtxoSet.mem_applyTransaction_mono hPS tx) fun t ht =>
      hdist t (List.mem_cons_of_mem _ ht)
    have hs := keySpends_append [tx] txs k
    have hc := keyCreations_append (C := C) [tx] txs k
    rw [List.singleton_append] at hs hc
    rw [hs, hc, List.foldl_cons]
    omega

/-- A list of coinbases spends nothing. -/
theorem present_foldl_of_coinbases {txs : List Transaction}
    (hcb : ∀ tx ∈ txs, tx.isCoinbase = true) (u : UtxoSet) (k : String) :
    keySpends txs k + (txs.foldl (UtxoSet.applyTransaction C) u).present k ≤
      u.present k + keyCreations C txs k := by
  induction txs generalizing u with
  | nil => simp [keySpends, keyCreations]
  | cons tx txs ih =>
    have hspent := UtxoSet.spentKeys_of_isCoinbase (hcb tx List.mem_cons_self)
    have hone := u.present_applyTransaction (C := C) (hspent ▸ List.nodup_nil)
      (hspent ▸ fun _ hk => absurd hk List.not_mem_nil) k
    have hih := ih (fun t ht => hcb t (List.mem_cons_of_mem _ ht)) (u.applyTransaction C tx)
    have hs := keySpends_append [tx] txs k
    have hc := keyCreations_append (C := C) [tx] txs k
    rw [List.singleton_append] at hs hc
    rw [hs, hc, List.foldl_cons]
    omega

/-- **Spends along a valid chain**: what was spent and what is still unspent was created. -/
theorem ValidChain.spends_le {bs : List Block} (hbs : ValidChain C magic T g bs)
    (hdist : ∀ b ∈ bs, b.DistinctInputs) (hgcb : ∀ tx ∈ g.transactions, tx.isCoinbase = true)
    {u : UtxoSet} {m : ℕ} (hrep : replay C bs = .ok (u, m)) (k : String) :
    keySpends (chainTxs bs) k + u.present k ≤ keyCreations C (chainTxs bs) k := by
  induction hbs generalizing u m with
  | genesis =>
    have hempty : UtxoSet.empty.present k = 0 := if_neg Finmap.notMem_empty
    have hgen := present_foldl_of_coinbases (C := C) hgcb UtxoSet.empty k
    have htxs : chainTxs [g] = g.transactions := by simp [chainTxs]
    rw [replay_utxoSet hrep, htxs]
    omega
  | @snoc bs b now hbs _ _ hext ih =>
    obtain ⟨u₀, m₀, hrep₀, hctx⟩ := hext.context
    have hih := ih (fun c hc => hdist c (List.mem_append_left _ hc)) hrep₀
    obtain ⟨rfl, -⟩ := replay_append_singleton_eq_ok hrep hrep₀
    obtain ⟨p, -, hwf, -⟩ := hext.parent
    obtain ⟨cb, rest, hb, hcb⟩ := hwf.coinbase
    obtain ⟨u', hok⟩ := hctx.txs_ok
    have htail : b.transactions.tail = rest := by rw [hb]; rfl
    rw [htail] at hok
    have hspent : cb.spentKeys = [] := UtxoSet.spentKeys_of_isCoinbase hcb
    have hPS : ∀ k ∈ u₀.utxos, k ∈ (u₀.applyTransaction C cb).utxos := fun k hk =>
      UtxoSet.mem_applyTransaction.mpr (Or.inr ⟨hk, by rw [hspent]; simp⟩)
    have hcbs : ∀ tx ∈ [cb], tx.isCoinbase = true := by simpa using hcb
    have hfirst := present_foldl_of_coinbases (C := C) hcbs u₀ k
    have hrest := hok.spends_le hPS (fun tx htx =>
      hdist b (by simp) tx (hb ▸ List.mem_cons_of_mem _ htx)) k
    rw [List.foldl_cons, List.foldl_nil] at hfirst
    have hs := keySpends_append [cb] rest k
    have hc := keyCreations_append (C := C) [cb] rest k
    rw [List.singleton_append] at hs hc
    rw [chainTxs_append_singleton, keySpends_append, keyCreations_append, hb, hs, hc,
      applyBlock, hb, List.foldl_cons]
    omega

/-! ### Recorded blocks -/

theorem genesis_distinctInputs {g : Block} (hg : g.transactions = [genesisCoinbase]) :
    g.DistinctInputs := by
  intro tx htx
  rw [hg, List.mem_singleton] at htx
  rw [htx]
  exact List.nodup_singleton _

/-- Every block of the history but the genesis is well formed. -/
theorem History.wellFormed {hist : List Block} (hh : History C magic T g hist) {b : Block}
    (hb : b ∈ hist) (hne : b ≠ g) : ∃ h, b.WellFormed C h := by
  obtain ⟨bs, hbs, hlast, -⟩ := hh b hb
  cases hbs with
  | genesis => exact absurd (by simpa using hlast.symm) hne
  | snoc _ _ _ hext =>
    rw [ValidChain.getLast?_append_singleton] at hlast
    obtain rfl := Option.some.inj hlast
    obtain ⟨p, -, hwf, -⟩ := hext.parent
    exact ⟨_, hwf⟩

theorem outputs_length_le_utxoOps {b : Block} {tx : Transaction} (h : tx ∈ b.transactions) :
    tx.outputs.length ≤ b.utxoOps := by
  have hle : tx.inputs.length + tx.outputs.length ≤ b.utxoOps :=
    List.single_le_sum (fun _ _ => Nat.zero_le _) _ (List.mem_map_of_mem h)
  omega

/-- The transactions of a history do not have too many outputs. -/
theorem History.outputs_le {hist : List Block} (hh : History C magic T g hist)
    (hg : g.transactions = [genesisCoinbase]) {tx : Transaction} (htx : tx ∈ chainTxs hist) :
    tx.outputs.length ≤ maxBlockUtxoOps := by
  obtain ⟨b, hb, htxb⟩ := mem_chainTxs.mp htx
  by_cases hbg : b = g
  · rw [hbg, hg, List.mem_singleton] at htxb
    rw [htxb]
    decide
  · obtain ⟨h, hwf⟩ := hh.wellFormed hb hbg
    exact (outputs_length_le_utxoOps htxb).trans hwf.ops_le

theorem History.serializedSize_lt {hist : List Block} (hh : History C magic T g hist)
    (hg : g.transactions = [genesisCoinbase]) {tx : Transaction} (htx : tx ∈ chainTxs hist) :
    tx.serializedSize < 2 ^ 64 := by
  obtain ⟨b, hb, htxb⟩ := mem_chainTxs.mp htx
  by_cases hbg : b = g
  · rw [hbg, hg, List.mem_singleton] at htxb
    rw [htxb]
    decide +kernel
  · obtain ⟨h, hwf⟩ := hh.wellFormed hb hbg
    have hle := (Block.serializedSize_tx_le htxb).trans hwf.size_le
    rw [maxBlockBytes] at hle
    omega

/-- The transactions of a history whose strings do not collide have different txids. -/
theorem History.txid_inj {hist : List Block} (hh : History C magic T g hist)
    (hg : g.transactions = [genesisCoinbase]) (hnc : NoCollision C hist) :
    TxidInj C (chainTxs hist) := by
  have hmem : ∀ tx ∈ chainTxs hist, tx.encode ∈ hist.flatMap (Block.hashedStrings C) := by
    intro tx htx
    obtain ⟨b, hb, htxb⟩ := mem_chainTxs.mp htx
    exact List.mem_flatMap.mpr ⟨b, hb,
      List.mem_cons_of_mem _ (List.mem_append_left _ (List.mem_map_of_mem htxb))⟩
  intro tx htx tx' htx' heq
  exact Transaction.encode_inj (hh.serializedSize_lt hg htx)
    (hnc _ (hmem tx htx) _ (hmem tx' htx') (hashToHex_injective heq))

/-- They form a ledger. -/
theorem History.ledger {hist : List Block} (hh : History C magic T g hist)
    (hg : g.transactions = [genesisCoinbase]) (hnc : NoCollision C hist) :
    Ledger C (chainTxs hist) :=
  ledger_of_txid_inj (fun _ htx => hh.outputs_le hg htx) (hh.txid_inj hg hnc)

namespace Blockchain

/-- What starting a network gives. -/
theorem newForNetwork_eq_some {fuel : ℕ} {network : String} {s₀ : Blockchain}
    (h : newForNetwork C fuel network = some s₀) :
    ∃ g, g.height = 0 ∧ g.transactions = [genesisCoinbase] ∧
      s₀ = fromGenesisWithMagic C g none (magicForNetwork network) := by
  obtain ⟨g, hg, rfl⟩ := Option.map_eq_some_iff.mp h
  obtain ⟨hheight, htxs⟩ := genesisBlockWithBits_spec hg
  exact ⟨g, hheight, htxs, rfl⟩

end Blockchain

end Arkos
