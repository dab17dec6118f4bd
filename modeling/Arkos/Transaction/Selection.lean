import Arkos.Transaction.Accounting
import Mathlib.Algebra.Order.Field.Basic
import Mathlib.Data.List.Sort
import Mathlib.Data.Prod.Lex
import Mathlib.Data.Rat.Cast.Order
import Mathlib.Data.String.Basic

/-!
# Which transactions a block takes

`Mempool.take` is documented to order by fee rate, and by txid among equal rates. The rate is a
quotient; the code compares two of them by cross-multiplying, in 64 bits that saturate. Two products
that both saturate compare as equal, and the txids then decide between transactions of different
rates.

The order asked for is `RanksAbove`, on exact rates. It leaves one list for any contents
(`ByFeeRate`), and `take` returns its beginning for every iteration order of the table exactly when
no saturated comparison is decided the wrong way (`selection_exact_iff`). The hard half is that one
wrong pair is enough: a table that yields the two first has them sorted against each other before
anything else is looked at, and merging never exchanges them again.

## Main definitions

* `Mempool.feeRate`, `Mempool.RanksAbove`, `Mempool.ByFeeRate`
* `Mempool.ExactSelection`, `Mempool.RatesResolved`

## Main results

* `pair_sublist_mergeSort_cons_cons` — for any comparison
* `Mempool.selection_exact_iff`, and the inverted pair `Mempool.not_selection_exact`
-/

namespace Arkos

/-! ### Sorting with any comparison -/

section

variable {α : Type*} (le : α → α → Bool)

/-- Merging keeps the order of its first argument. -/
theorem sublist_merge (xs ys : List α) : xs.Sublist (xs.merge ys le) := by
  induction xs generalizing ys with
  | nil => exact List.nil_sublist _
  | cons x xs ih =>
    induction ys with
    | nil => simp
    | cons y ys ihy =>
      rw [List.cons_merge_cons]
      split
      · exact (ih _).cons_cons x
      · exact ihy.cons y

/-- The first two entries of a list are compared with each other, and stay in that order. Nothing
is asked of the comparison. -/
theorem pair_sublist_mergeSort_cons_cons {a b : α} (hab : le a b = true) :
    ∀ l : List α, [a, b].Sublist ((a :: b :: l).mergeSort le) := by
  intro l
  induction hn : l.length using Nat.strong_induction_on generalizing l with
  | _ n ih =>
    rw [List.mergeSort]
    simp only [List.MergeSort.Internal.splitInTwo_fst, List.MergeSort.Internal.splitInTwo_snd]
    cases l with
    | nil => simp [hab]
    | cons c l =>
      refine List.Sublist.trans ?_ (sublist_merge le _ _)
      have hhalf : ((a :: b :: c :: l).length + 1) / 2 = l.length / 2 + 1 + 1 := by
        simp only [List.length_cons]
        omega
      rw [hhalf, List.take_succ_cons, List.take_succ_cons]
      refine ih _ ?_ _ rfl
      rw [← hn, List.length_take, List.length_cons]
      omega

end

namespace Mempool

/-! ### The order asked for -/

section

variable (C : Crypto) (m : Mempool)

/-- The transaction is in the mempool. -/
def Held (tx : Transaction) : Prop := m.txs.lookup (tx.txidHex C) = some tx

/-- The exact fee rate: arkes per byte. -/
def feeRate (tx : Transaction) : ℚ := m.feeFor (tx.txidHex C) / tx.serializedSize

/-- A higher fee rate, or the same and a smaller txid. -/
def RanksAbove (tx tx' : Transaction) : Prop :=
  m.feeRate C tx' < m.feeRate C tx ∨
    m.feeRate C tx' = m.feeRate C tx ∧ tx.txidHex C < tx'.txidHex C

/-- The list of all held transactions by rank. -/
structure ByFeeRate (l : List Transaction) : Prop where
  mem_iff : ∀ tx, tx ∈ l ↔ m.Held C tx
  sorted : l.Pairwise (m.RanksAbove C)

/-- What `take` is documented to do, for every iteration order of the table and every limit. -/
structure ExactSelection : Prop where
  /-- It returns the beginning of the one list sorted by rank. -/
  exact : ∃ l, m.ByFeeRate C l ∧ (∀ l', m.ByFeeRate C l' → l' = l) ∧
    ∀ order, m.IterOrder order → ∀ limit, m.take order limit = l.take limit
  /-- No omitted transaction has a higher fee rate than an included one. -/
  best : ∀ order, m.IterOrder order → ∀ limit, ∀ tx ∈ m.take order limit, ∀ tx', m.Held C tx' →
    tx' ∉ m.take order limit → m.feeRate C tx' ≤ m.feeRate C tx
  /-- It does not depend on the iteration order. -/
  deterministic : ∀ order, m.IterOrder order → ∀ order', m.IterOrder order' → ∀ limit,
    m.take order limit = m.take order' limit

/-- No saturated comparison is decided the wrong way: when the transaction with the lower rate has
the smaller txid, the smaller of the two products is below the largest word. -/
def RatesResolved : Prop :=
  ∀ tx tx', m.Held C tx → m.Held C tx' → m.feeRate C tx < m.feeRate C tx' →
    tx.txidHex C < tx'.txidHex C →
    m.feeFor (tx.txidHex C) * tx'.serializedSize < 2 ^ 64 - 1

end

variable {C : Crypto} {m : Mempool}

theorem serializedSize_pos (tx : Transaction) : 0 < tx.serializedSize := by
  simp only [Transaction.serializedSize, Transaction.encode, List.length_append, length_leBytes]
  omega

theorem feeRate_lt_iff {tx tx' : Transaction} :
    m.feeRate C tx < m.feeRate C tx' ↔
      m.feeFor (tx.txidHex C) * tx'.serializedSize <
        m.feeFor (tx'.txidHex C) * tx.serializedSize := by
  have hpos : (0 : ℚ) < tx.serializedSize := Nat.cast_pos.mpr (serializedSize_pos tx)
  have hpos' : (0 : ℚ) < tx'.serializedSize := Nat.cast_pos.mpr (serializedSize_pos tx')
  rw [feeRate, feeRate, div_lt_div_iff₀ hpos hpos']
  exact_mod_cast Iff.rfl

theorem feeRate_eq_iff {tx tx' : Transaction} :
    m.feeRate C tx = m.feeRate C tx' ↔
      m.feeFor (tx.txidHex C) * tx'.serializedSize =
        m.feeFor (tx'.txidHex C) * tx.serializedSize := by
  have hlt : m.feeRate C tx < m.feeRate C tx' ↔ _ := feeRate_lt_iff
  have hgt : m.feeRate C tx' < m.feeRate C tx ↔ _ := feeRate_lt_iff
  constructor
  · intro h
    have := hlt.not.mp h.not_lt
    have := hgt.not.mp h.not_gt
    omega
  · intro h
    exact le_antisymm (not_lt.mp (hgt.not.mpr (by omega))) (not_lt.mp (hlt.not.mpr (by omega)))

/-- The rank as one value of a linear order, highest rank first. -/
def rank (C : Crypto) (m : Mempool) (tx : Transaction) : ℚᵒᵈ ×ₗ String :=
  toLex (OrderDual.toDual (m.feeRate C tx), tx.txidHex C)

theorem ranksAbove_iff {a b : Transaction} : m.RanksAbove C a b ↔ m.rank C a < m.rank C b := by
  rw [Prod.Lex.lt_iff]
  show _ ↔ m.feeRate C b < m.feeRate C a ∨ m.feeRate C a = m.feeRate C b ∧ _
  rw [RanksAbove, eq_comm (a := m.feeRate C b)]
  rfl

theorem rank_le_iff {a b : Transaction} :
    m.rank C a ≤ m.rank C b ↔ m.feeRate C b < m.feeRate C a ∨
      m.feeRate C b = m.feeRate C a ∧ a.txidHex C ≤ b.txidHex C := by
  rw [Prod.Lex.le_iff]
  show m.feeRate C b < m.feeRate C a ∨ m.feeRate C a = m.feeRate C b ∧ _ ↔ _
  rw [eq_comm (a := m.feeRate C b)]
  rfl

theorem RanksAbove.asymm {a b : Transaction} (hab : m.RanksAbove C a b) : ¬ m.RanksAbove C b a := by
  rw [ranksAbove_iff] at hab ⊢
  exact hab.not_gt

theorem RanksAbove.feeRate_le {a b : Transaction} (hab : m.RanksAbove C a b) :
    m.feeRate C b ≤ m.feeRate C a := by
  rcases hab with h | ⟨h, -⟩
  · exact h.le
  · exact h.le

theorem ranksAbove_of_rank_le {a b : Transaction} (hle : m.rank C a ≤ m.rank C b)
    (hne : a.txidHex C ≠ b.txidHex C) : m.RanksAbove C a b := by
  refine ranksAbove_iff.mpr (lt_of_le_of_ne hle fun heq => hne ?_)
  exact congrArg (fun r => (ofLex r).2) heq

theorem ByFeeRate.nodup {l : List Transaction} (h : m.ByFeeRate C l) : l.Nodup :=
  h.sorted.imp fun hab heq => by
    subst heq
    exact hab.asymm hab

/-- There is at most one such list. -/
theorem ByFeeRate.unique {l l' : List Transaction} (h : m.ByFeeRate C l) (h' : m.ByFeeRate C l') :
    l' = l :=
  List.Perm.eq_of_pairwise (fun _ _ _ _ hab hba => absurd hba hab.asymm) h'.sorted h.sorted
    ((List.perm_ext_iff_of_nodup h'.nodup h.nodup).mpr fun tx => by rw [h'.mem_iff, h.mem_iff])

/-! ### The comparison of the code -/

theorem max_serializedSize_one (tx : Transaction) : max tx.serializedSize 1 = tx.serializedSize :=
  Nat.max_eq_left (serializedSize_pos tx)

/-- The comparison, on the products it makes of two held transactions. -/
theorem takeLe_iff {tx tx' : Transaction} :
    m.takeLe (tx.txidHex C, tx) (tx'.txidHex C, tx') = true ↔
      let p := min (m.feeFor (tx.txidHex C) * tx'.serializedSize) (2 ^ 64 - 1)
      let q := min (m.feeFor (tx'.txidHex C) * tx.serializedSize) (2 ^ 64 - 1)
      q < p ∨ q = p ∧ tx.txidHex C ≤ tx'.txidHex C := by
  rw [takeLe]
  simp only [max_serializedSize_one]
  split_ifs with h₁ h₂
  · exact iff_of_true rfl (Or.inl h₁)
  · refine iff_of_false (by simp) ?_
    omega
  · rw [decide_eq_true_iff]
    constructor
    · intro h
      exact Or.inr ⟨by omega, h⟩
    · rintro (h | ⟨-, h⟩)
      · exact absurd h h₁
      · exact h

/-- Where the rates are resolved, the code compares ranks. -/
theorem takeLe_iff_rank_le (hres : m.RatesResolved C) {tx tx' : Transaction} (h : m.Held C tx)
    (h' : m.Held C tx') :
    m.takeLe (tx.txidHex C, tx) (tx'.txidHex C, tx') = true ↔ m.rank C tx ≤ m.rank C tx' := by
  have hlow := fun hlt => hres tx tx' h h' (feeRate_lt_iff.mpr hlt)
  have hhigh := fun hlt => hres tx' tx h' h (feeRate_lt_iff.mpr hlt)
  rw [takeLe_iff, rank_le_iff, feeRate_lt_iff, feeRate_eq_iff]
  dsimp only
  rcases lt_trichotomy (tx.txidHex C) (tx'.txidHex C) with hk | hk | hk
  · have := fun hlt => hlow hlt hk
    simp only [hk.le, and_true]
    omega
  · obtain rfl : tx = tx' := by
      rw [Held, ← hk] at h'
      exact Option.some.inj (h.symm.trans h')
    simp
  · have := fun hlt => hhigh hlt hk
    simp only [hk.not_ge, and_false, or_false]
    omega

/-- A saturated comparison that is decided the wrong way. -/
theorem takeLe_of_saturated {tx tx' : Transaction} (hrate : m.feeRate C tx < m.feeRate C tx')
    (hk : tx.txidHex C < tx'.txidHex C)
    (hsat : 2 ^ 64 - 1 ≤ m.feeFor (tx.txidHex C) * tx'.serializedSize) :
    m.takeLe (tx.txidHex C, tx) (tx'.txidHex C, tx') = true := by
  rw [feeRate_lt_iff] at hrate
  rw [takeLe_iff]
  exact Or.inr ⟨by omega, hk.le⟩

/-! ### Iteration orders -/

/-- A table can be iterated. -/
theorem exists_iterOrder (m : Mempool) : ∃ order, m.IterOrder order := by
  obtain ⟨l, hl⟩ := Quot.exists_rep m.txs.entries
  have hl : (l : Multiset _) = m.txs.entries := hl
  refine ⟨l.map fun e => (e.1, e.2), ?_, fun txid tx => ?_⟩
  · have hnodup := m.txs.nodupKeys
    rw [← hl, Multiset.coe_nodupKeys] at hnodup
    rw [List.map_map]
    exact hnodup
  · rw [Finmap.lookup_eq_some_iff, ← hl, Multiset.mem_coe, List.mem_map]
    constructor
    · rintro ⟨⟨k, v⟩, hmem, heq⟩
      cases heq
      exact hmem
    · intro hmem
      exact ⟨⟨txid, tx⟩, hmem, rfl⟩

theorem IterOrder.perm {order order' : List (String × Transaction)} (h : m.IterOrder order)
    (hperm : order'.Perm order) : m.IterOrder order' :=
  ⟨(hperm.map Prod.fst).nodup_iff.mpr h.1, fun txid tx => by rw [hperm.mem_iff, h.2]⟩

/-- Any two entries can come first. -/
theorem IterOrder.exists_cons_cons {order : List (String × Transaction)} (h : m.IterOrder order)
    {a b : String × Transaction} (ha : a ∈ order) (hb : b ∈ order) (hne : a ≠ b) :
    ∃ rest, m.IterOrder (a :: b :: rest) := by
  have hb' : b ∈ order.erase a := (List.mem_erase_of_ne hne.symm).mpr hb
  refine ⟨(order.erase a).erase b, h.perm ?_⟩
  exact ((List.perm_cons_erase hb').symm.cons a).trans (List.perm_cons_erase ha).symm

theorem IterOrder.eq_txidHex {order : List (String × Transaction)} (h : m.IterOrder order)
    (hk : m.Keyed C) {a : String × Transaction} (ha : a ∈ order) : a = (a.2.txidHex C, a.2) := by
  have hlook := (h.2 a.1 a.2).mp ha
  rw [hk a.1 a.2 hlook]

theorem IterOrder.held {order : List (String × Transaction)} (h : m.IterOrder order)
    (hk : m.Keyed C) {a : String × Transaction} (ha : a ∈ order) : m.Held C a.2 := by
  rw [h.eq_txidHex hk ha] at ha
  exact (h.2 _ _).mp ha

theorem IterOrder.mem_of_held {order : List (String × Transaction)} (h : m.IterOrder order)
    {tx : Transaction} (htx : m.Held C tx) : (tx.txidHex C, tx) ∈ order :=
  (h.2 _ _).mpr htx

/-! ### Selection -/

/-- Where the rates are resolved, the sorted table is the list by rank. -/
theorem IterOrder.byFeeRate {order : List (String × Transaction)} (h : m.IterOrder order)
    (hk : m.Keyed C) (hres : m.RatesResolved C) :
    m.ByFeeRate C ((order.mergeSort m.takeLe).map Prod.snd) := by
  have hperm := List.mergeSort_perm order m.takeLe
  -- on the entries of the table the comparison is that of a linear order
  have hcongr : order.mergeSort m.takeLe =
      order.mergeSort fun a b => decide (m.rank C a.2 ≤ m.rank C b.2) := by
    have hmap := List.map_mergeSort (f := id) (l := order) (r := m.takeLe)
      (s := fun a b => decide (m.rank C a.2 ≤ m.rank C b.2)) fun a ha b hb => by
        rw [h.eq_txidHex hk ha, h.eq_txidHex hk hb, Bool.eq_iff_iff, decide_eq_true_iff]
        exact takeLe_iff_rank_le hres (h.held hk ha) (h.held hk hb)
    simpa using hmap
  refine ⟨fun tx => ?_, ?_⟩
  · rw [(hperm.map Prod.snd).mem_iff, List.mem_map]
    constructor
    · rintro ⟨a, ha, rfl⟩
      exact h.held hk ha
    · intro htx
      exact ⟨_, h.mem_of_held htx, rfl⟩
  · have hsorted : (order.mergeSort m.takeLe).Pairwise fun a b => m.rank C a.2 ≤ m.rank C b.2 := by
      rw [hcongr]
      refine (List.pairwise_mergeSort ?_ ?_ order).imp fun hab => of_decide_eq_true hab
      · intro a b c hab hbc
        exact decide_eq_true ((of_decide_eq_true hab).trans (of_decide_eq_true hbc))
      · intro a b
        simpa using le_total (m.rank C a.2) (m.rank C b.2)
    have hdistinct : (order.mergeSort m.takeLe).Pairwise fun a b => a.1 ≠ b.1 :=
      List.pairwise_map.mp ((hperm.map Prod.fst).nodup_iff.mpr h.1)
    rw [List.pairwise_map]
    refine (hsorted.and hdistinct).imp_of_mem fun {a b} ha hb hab => ?_
    refine ranksAbove_of_rank_le hab.1 fun heq => hab.2 ?_
    rw [h.eq_txidHex hk (hperm.mem_iff.mp ha), h.eq_txidHex hk (hperm.mem_iff.mp hb), heq]

theorem take_eq_take (m : Mempool) (order : List (String × Transaction)) (limit : ℕ) :
    m.take order limit = ((order.mergeSort m.takeLe).map Prod.snd).take limit :=
  List.map_take

/-- Resolved rates are enough. -/
theorem RatesResolved.exactSelection (hres : m.RatesResolved C) (hk : m.Keyed C) :
    m.ExactSelection C := by
  obtain ⟨order₀, h₀⟩ := m.exists_iterOrder
  have hl := h₀.byFeeRate hk hres
  have htake : ∀ order, m.IterOrder order → ∀ limit, m.take order limit =
      ((order₀.mergeSort m.takeLe).map Prod.snd).take limit := by
    intro order horder limit
    rw [take_eq_take, hl.unique (horder.byFeeRate hk hres)]
  refine ⟨⟨_, hl, fun l' hl' => hl.unique hl', htake⟩, ?_, ?_⟩
  · intro order horder limit tx htx tx' hheld hnot
    rw [htake order horder limit] at htx hnot
    have hmem := (hl.mem_iff tx').mpr hheld
    have hsorted := hl.sorted
    rw [← List.take_append_drop limit ((order₀.mergeSort m.takeLe).map Prod.snd)] at hmem hsorted
    have hdrop := (List.mem_append.mp hmem).resolve_left hnot
    exact ((List.pairwise_append.mp hsorted).2.2 tx htx tx' hdrop).feeRate_le
  · intro order horder order' horder' limit
    rw [htake order horder, htake order' horder']

/-- And one unresolved pair is too many: a table that yields it first has it in the wrong order. -/
theorem ExactSelection.ratesResolved (h : m.ExactSelection C) : m.RatesResolved C := by
  intro tx tx' htx htx' hrate hlt
  by_contra hsat
  have hle := takeLe_of_saturated hrate hlt (Nat.not_lt.mp hsat)
  obtain ⟨order₀, h₀⟩ := m.exists_iterOrder
  have hne : (tx.txidHex C, tx) ≠ (tx'.txidHex C, tx') := fun heq =>
    hlt.ne (congrArg Prod.fst heq)
  obtain ⟨rest, horder⟩ := h₀.exists_cons_cons (h₀.mem_of_held htx) (h₀.mem_of_held htx') hne
  obtain ⟨l, hl, -, htake⟩ := h.exact
  have hpair := (pair_sublist_mergeSort_cons_cons m.takeLe hle rest).map Prod.snd
  -- a limit that cuts nothing off
  have hall := htake _ horder (rest.length + 2)
  rw [take_eq_take, List.take_of_length_le (by simp)] at hall
  have hsub : [tx, tx'].Sublist l := by
    rw [hall] at hpair
    exact hpair.trans (List.take_sublist _ _)
  have habove := List.pairwise_pair.mp (hl.sorted.sublist hsub)
  exact absurd habove.feeRate_le hrate.not_ge

/-- **When fee-rate selection is exact and order-free.** For every mempool reached by a sequence of
calls: exactly when no saturated comparison is decided the wrong way. -/
theorem selection_exact_iff (C : Crypto) (ops : List Op) :
    (new.runOps C ops).ExactSelection C ↔ (new.runOps C ops).RatesResolved C :=
  ⟨ExactSelection.ratesResolved, fun hres => hres.exactSelection (keyed_runOps ops)⟩

/-! ### An inverted pair -/

/-- Two transactions of one size, admitted with fees of half the word and one more. -/
def saturatedOps : List Op :=
  [.addWithFee (bareTx 1) 9223372036854775808, .addWithFee (bareTx 2) 9223372036854775809]

theorem runOps_saturatedOps :
    let m := new.runOps Crypto.sample saturatedOps
    m.Held Crypto.sample (bareTx 1) ∧ m.Held Crypto.sample (bareTx 2) ∧
      m.feeFor ((bareTx 1).txidHex Crypto.sample) = 9223372036854775808 ∧
      m.feeFor ((bareTx 2).txidHex Crypto.sample) = 9223372036854775809 ∧
      (bareTx 1).txidHex Crypto.sample < (bareTx 2).txidHex Crypto.sample := by
  unfold Held
  decide +kernel

/-- The second pays more for the same bytes, and `take` may return the first of the two. -/
theorem not_selection_exact :
    ¬ (new.runOps Crypto.sample saturatedOps).ExactSelection Crypto.sample := by
  intro h
  obtain ⟨h₁, h₂, hfee₁, hfee₂, hlt⟩ := runOps_saturatedOps
  have hres := h.ratesResolved (bareTx 1) (bareTx 2) h₁ h₂ (by
    rw [feeRate_lt_iff, hfee₁, hfee₂, serializedSize_bareTx, serializedSize_bareTx]
    norm_num) hlt
  rw [hfee₁, serializedSize_bareTx] at hres
  omega

end Mempool

end Arkos
