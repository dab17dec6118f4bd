import Arkos.Network.Node
import Arkos.Blockchain.IdleChain

/-!
# Headers before blocks

A node that is behind asks for headers and fetches the blocks of those it does not have. The loop
over a batch walks its longest linked front part: the first header stands on a known block, every
other one on the header before it, and each meets the target its own bits state. That these bits
are the ones the chain requires is not looked at, because `validate_header_only` is called without
expected bits. A header that states an easy target is fetched for free.

So what is fetched has the work a block would need exactly when the unknown headers of that front
part state the required bits.

## Main definitions

* `Node.Linked` — the front parts of a batch the loop walks
* `Node.requiredBits` — the difficulty at a position of a batch
* `Node.FetchesWork` — everything fetched has the required work

## Main results

* `Node.mem_toFetch` — what is fetched
* `Node.fetches_work_iff`
-/

namespace Arkos

namespace Node

variable {C : Crypto} {s : Blockchain}

/-! ### Chunks -/

/-- The chunks of a list hold what the list holds. -/
theorem mem_chunks {α : Type} {size : ℕ} (hsize : 0 < size) {l : List α} {x : α} :
    (∃ c ∈ chunks size l, x ∈ c) ↔ x ∈ l := by
  constructor
  · rintro ⟨c, hc, hx⟩
    obtain ⟨i, -, rfl⟩ := List.mem_map.mp hc
    exact List.mem_of_mem_drop (List.mem_of_mem_take hx)
  · intro hx
    obtain ⟨j, hj, rfl⟩ := List.getElem_of_mem hx
    have hmod := Nat.mod_lt j hsize
    have hdiv := Nat.div_add_mod j size
    refine ⟨(l.drop (j / size * size)).take size, List.mem_map.mpr ⟨j / size, ?_, rfl⟩, ?_⟩
    · rw [List.mem_range, Nat.div_lt_iff_lt_mul hsize]
      have := Nat.div_mul_le_self (l.length + size - 1) size
      have := Nat.lt_div_mul_add (a := l.length + size - 1) hsize
      omega
    · rw [List.mem_take_iff_getElem]
      refine ⟨j % size, ?_, ?_⟩
      · rw [List.length_drop, Nat.mul_comm]
        omega
      · rw [List.getElem_drop]
        congr 1
        rw [Nat.mul_comm]
        omega

/-! ### The loop -/

/-- The header stands on the one before it, or on a known block when it is the first. -/
def Follows (s : Blockchain) : Option String → BlockHeader → Prop
  | none, h => h.prevHash ∈ s.allBlocks
  | some prev, h => h.prevHash = prev

/-- Every header follows the one before it and meets its own target. -/
def Linked (C : Crypto) (s : Blockchain) : Option String → List BlockHeader → Prop
  | _, [] => True
  | prev, h :: hs =>
    Follows s prev h ∧ h.meetsTarget C = true ∧ Linked C s (some (h.hashHex C)) hs

/-- The check of the loop, in one. -/
theorem toFetch_cons (prev : Option String) (h : BlockHeader) (hs : List BlockHeader)
    [Decidable (Follows s prev h ∧ h.meetsTarget C = true)] :
    toFetch C s prev (h :: hs) =
      if Follows s prev h ∧ h.meetsTarget C = true then
        (if h.hashHex C ∈ s.allBlocks then [] else [⟨.block, h.hashHex C⟩]) ++
          toFetch C s (some (h.hashHex C)) hs
      else [] := by
  have hcheck : ((prev.map fun prevHash => decide (h.prevHash = prevHash)).getD
        (decide (h.prevHash ∈ s.allBlocks)) = true ∧
      h.validateHeaderOnly C (prev.getD h.prevHash) none = .ok ()) ↔
      Follows s prev h ∧ h.meetsTarget C = true := by
    rw [BlockHeader.validateHeaderOnly_none]
    cases prev with
    | none => simp [Follows]
    | some prev =>
      simp only [Follows, Option.map_some, Option.getD_some, decide_eq_true_eq]
      tauto
  rw [toFetch]
  by_cases hok : Follows s prev h ∧ h.meetsTarget C = true
  · rw [if_pos (hcheck.mpr hok), if_pos hok]
    dsimp only
    split <;> rfl
  · rw [if_neg (fun h => hok (hcheck.mp h)), if_neg hok]

/-- **What is fetched**: the unknown headers of the linked front part. -/
theorem mem_toFetch {prev : Option String} {headers : List BlockHeader} {item : InvItem} :
    item ∈ toFetch C s prev headers ↔
      ∃ pre h, pre ++ [h] <+: headers ∧ Linked C s prev (pre ++ [h]) ∧
        h.hashHex C ∉ s.allBlocks ∧ item = ⟨.block, h.hashHex C⟩ := by
  classical
  induction headers generalizing prev with
  | nil => simp [toFetch]
  | cons x xs ih =>
    rw [toFetch_cons]
    by_cases hok : Follows s prev x ∧ x.meetsTarget C = true
    · rw [if_pos hok, List.mem_append, ih]
      constructor
      · rintro (hitem | ⟨pre, h, hpre, hlinked, hnew, rfl⟩)
        · -- the header itself
          have hx : x.hashHex C ∉ s.allBlocks ∧ item = ⟨.block, x.hashHex C⟩ := by
            split at hitem
            · cases hitem
            · next hnew => exact ⟨hnew, List.mem_singleton.mp hitem⟩
          refine ⟨[], x, ?_, ⟨hok.1, hok.2, trivial⟩, hx.1, hx.2⟩
          simp
        · refine ⟨x :: pre, h, ?_, ⟨hok.1, hok.2, hlinked⟩, hnew, rfl⟩
          exact List.cons_prefix_cons.mpr ⟨rfl, hpre⟩
      · rintro ⟨pre, h, hpre, hlinked, hnew, rfl⟩
        rcases pre with _ | ⟨y, pre⟩
        · obtain rfl := (List.cons_prefix_cons.mp hpre).1
          exact Or.inl (by simp [hnew])
        · obtain ⟨rfl, hrest⟩ := List.cons_prefix_cons.mp hpre
          exact Or.inr ⟨pre, h, hrest, hlinked.2.2, hnew, rfl⟩
    · rw [if_neg hok]
      refine iff_of_false (by simp) ?_
      rintro ⟨pre, h, hpre, hlinked, -, -⟩
      rcases pre with _ | ⟨y, pre⟩
      · obtain rfl := (List.cons_prefix_cons.mp hpre).1
        exact hok ⟨hlinked.1, hlinked.2.1⟩
      · obtain rfl := (List.cons_prefix_cons.mp hpre).1
        exact hok ⟨hlinked.1, hlinked.2.1⟩

/-- A linked batch of headers nobody knows is fetched as a whole. -/
theorem toFetch_of_linked {prev : Option String} {bs : List Block}
    (h : Linked C s prev (bs.map Block.header)) (hnew : ∀ b ∈ bs, b.hashHex C ∉ s.allBlocks) :
    toFetch C s prev (bs.map Block.header) = bs.map fun b => ⟨.block, b.hashHex C⟩ := by
  classical
  induction bs generalizing prev with
  | nil => rfl
  | cons b bs ih =>
    obtain ⟨hfollows, hmeets, hrest⟩ := h
    have hb : b.header.hashHex C ∉ s.allBlocks := hnew b List.mem_cons_self
    rw [List.map_cons, toFetch_cons, if_pos ⟨hfollows, hmeets⟩, if_neg hb,
      ih hrest fun x hx => hnew x (List.mem_cons_of_mem _ hx)]
    rfl

/-- The requests a batch leads to, when it comes through the limiter. -/
theorem getData_mem_sent_iff {clock : Clock} {addr : String} {n : Node} {headers : List BlockHeader}
    {item : InvItem} :
    (∃ items, .getData items ∈ (n.handleMessage C clock addr (.headers headers)).sent ∧
      item ∈ items) ↔
    n.mayMessage clock addr = true ∧ item ∈ toFetch C n.chain none headers := by
  unfold handleMessage
  cases hmay : n.mayMessage clock addr with
  | false => simp [bail]
  | true =>
    rw [← mem_chunks (show 0 < maxGetdataInflight by decide)]
    simp [dispatch, handleHeaders, reply, countMessage]

/-! ### The difficulty a batch has to state -/

/-- Headers as blocks, from the given height on. -/
def headerBlocks (height : ℕ) (hs : List BlockHeader) : List Block :=
  (hs.zipIdx height).map fun hi => ⟨hi.1, [], hi.2⟩

/-- What `next_bits_for_blocks` requires of the next header: over the known blocks up to the parent
of the first header of the batch, followed by the headers `pre` of the batch. -/
def requiredBits (s : Blockchain) (parent : String) (pre : List BlockHeader) : Option UInt32 :=
  match s.chainToHash parent with
  | .error _ => none
  | .ok ancestors =>
    let height := ((ancestors.getLast?.map Block.height).getD 0) + 1
    some (nextBitsForBlocks (ancestors ++ headerBlocks height pre))

/-- The header that comes after `pre` in a batch states the required bits. -/
def StatesRequired (s : Blockchain) (pre : List BlockHeader) (h : BlockHeader) : Prop :=
  ∀ first, (pre ++ [h]).head? = some first → requiredBits s first.prevHash pre = some h.bits

/-- **Everything fetched has the required work**: each requested hash is the hash of a header of the
linked front part that states the required bits and meets their target, and no header of that part
has the hash without stating and meeting them. -/
def FetchesWork (C : Crypto) (clock : Clock) (addr : String) (n : Node)
    (headers : List BlockHeader) : Prop :=
  ∀ items, .getData items ∈ (n.handleMessage C clock addr (.headers headers)).sent →
    ∀ item ∈ items,
      (∃ pre h, pre ++ [h] <+: headers ∧ Linked C n.chain none (pre ++ [h]) ∧
        h.hashHex C = item.hash ∧ StatesRequired n.chain pre h ∧ h.meetsTarget C = true) ∧
      ∀ pre h, pre ++ [h] <+: headers → Linked C n.chain none (pre ++ [h]) →
        h.hashHex C = item.hash → StatesRequired n.chain pre h ∧ h.meetsTarget C = true

theorem Linked.meetsTarget {prev : Option String} {hs : List BlockHeader}
    (h : Linked C s prev hs) {x : BlockHeader} (hx : x ∈ hs) : x.meetsTarget C = true := by
  induction hs generalizing prev with
  | nil => cases hx
  | cons y hs ih =>
    rcases List.mem_cons.mp hx with rfl | hx
    · exact h.2.1
    · exact ih h.2.2 hx

/-- **What is fetched has the required work exactly when the unknown headers of the linked front
part state the required bits**, or nothing is fetched because the peer is over its limit. -/
theorem fetches_work_iff (C : Crypto) (clock : Clock) (addr : String) (n : Node)
    (headers : List BlockHeader) :
    FetchesWork C clock addr n headers ↔
      (n.mayMessage clock addr = true → ∀ pre h, pre ++ [h] <+: headers →
        Linked C n.chain none (pre ++ [h]) → h.hashHex C ∉ n.chain.allBlocks →
          StatesRequired n.chain pre h) := by
  constructor
  · intro hwork hmay pre h hpre hlinked hnew
    obtain ⟨items, hsent, hitem⟩ := getData_mem_sent_iff.mpr
      ⟨hmay, mem_toFetch.mpr ⟨pre, h, hpre, hlinked, hnew, rfl⟩⟩
    exact ((hwork items hsent _ hitem).2 pre h hpre hlinked rfl).1
  · intro hstates items hsent item hitem
    obtain ⟨hmay, hfetch⟩ := getData_mem_sent_iff.mp ⟨items, hsent, hitem⟩
    obtain ⟨pre, h, hpre, hlinked, hnew, rfl⟩ := mem_toFetch.mp hfetch
    -- what the condition says of any header of the front part with the requested hash
    have hwork : ∀ pre' h', pre' ++ [h'] <+: headers → Linked C n.chain none (pre' ++ [h']) →
        h'.hashHex C = h.hashHex C → StatesRequired n.chain pre' h' ∧ h'.meetsTarget C = true :=
      fun pre' h' hpre' hlinked' hhash => ⟨hstates hmay pre' h' hpre' hlinked' (hhash ▸ hnew),
        hlinked'.meetsTarget (by simp)⟩
    exact ⟨⟨pre, h, hpre, hlinked, rfl, hwork pre h hpre hlinked rfl⟩, hwork⟩

/-! ### A header without work -/

/-- A header on the genesis of the regression-test network that states twice the target required of
it: three bytes of ones, which no hash misses but by chance. -/
def weakHeader : BlockHeader := { (idleBlock 0).header with bits := 0x20ffffff }

/-- **A header with less work than a block needs is fetched.** -/
theorem not_fetchesWork_weakHeader :
    ¬ FetchesWork Crypto.sample ⟨0, 0, sampleNow⟩ "203.0.113.7:8333"
      (.new (.fromGenesisWithMagic Crypto.sample sampleGenesis none regtestMagic) regtestMagic)
      [weakHeader] := by
  rw [fetches_work_iff]
  intro h
  have hknown : weakHeader.prevHash ∈ (Blockchain.fromGenesisWithMagic Crypto.sample sampleGenesis
      none regtestMagic).allBlocks := by decide +kernel
  have hstates := h (by decide +kernel) [] weakHeader List.prefix_rfl
    ⟨hknown, by decide +kernel, trivial⟩ (by decide +kernel) weakHeader rfl
  have hrequired : requiredBits
      (.fromGenesisWithMagic Crypto.sample sampleGenesis none regtestMagic)
      weakHeader.prevHash [] = some regtestGenesisBits := by decide +kernel
  exact absurd (hrequired.symm.trans hstates) (by decide)

end Node

end Arkos
