import Arkos.Blockchain.ValidChain

/-!
# A block hash commits to the block and to everything behind it

Only the header is hashed, so that two blocks with one hash are one block takes three steps: equal
hashes are equal header bytes, equal header bytes are equal Merkle roots and parents, and equal
Merkle roots are equal transaction lists. Each step needs that `hash256` does not collide on the
strings that were hashed, which is the hypothesis `NoCollision`; nothing is assumed of other
strings.

A Merkle tree of this kind is only as good as the gap between its levels: a hash of a leaf must not
be read as a hash of two hashes. Inner nodes hash 64 bytes and the padding hashes 8, while a
transaction that validates is encoded in 28 bytes or in at least 88.

## Main definitions

* `Block.hashedStrings`, `NoCollision`
* `MerkleNode` — a hash at a known distance from the leaves

## Main results

* `merkleRoot_inj`
* `Block.eq_of_hashHex_eq` — one hash, one block
* `ValidChain.eq_of_hashHex_eq`, `separated_of_noCollision`
-/

namespace Arkos

/-! ### What is hashed -/

section

variable (C : Crypto)

/-- The strings `merklePairs` hashes. -/
def merklePairStrings : List Hash → List Bytes
  | a :: b :: rest => (a.toList ++ b.toList) :: merklePairStrings rest
  | _ => []

/-- The strings one turn of the Merkle loop hashes. -/
def merkleLevelStrings (hashes : List Hash) : List Bytes :=
  (if hashes.length % 2 ≠ 0 then [leBytes 8 hashes.length] else []) ++
    merklePairStrings (merklePad C hashes)

/-- The strings the Merkle loop hashes. -/
def merkleLoopStrings : ℕ → List Hash → List Bytes
  | 0, _ => []
  | fuel + 1, hashes =>
    if 1 < hashes.length then
      merkleLevelStrings C hashes ++ merkleLoopStrings fuel (merkleLevel C hashes)
    else []

/-- The strings hashed to compute the Merkle root of a list of transactions. -/
def merkleStrings (txs : List Transaction) : List Bytes :=
  txs.map Transaction.encode ++ merkleLoopStrings C txs.length (txs.map (Transaction.txid C))

/-- The strings hashed to check a block: its header, its transactions, its Merkle tree. -/
def Block.hashedStrings (b : Block) : List Bytes :=
  b.header.powBytes :: (b.transactions.map Transaction.encode ++
    merkleLoopStrings C b.transactions.length (b.transactions.map (Transaction.txid C)))

/-- `hash256` does not collide on the strings hashed for the given blocks. -/
def NoCollision (blocks : List Block) : Prop :=
  ∀ x ∈ blocks.flatMap (Block.hashedStrings C), ∀ y ∈ blocks.flatMap (Block.hashedStrings C),
    C.hash256 x = C.hash256 y → x = y

end

variable {C : Crypto}

theorem NoCollision.mono {bs bs' : List Block} (h : NoCollision C bs')
    (hsub : ∀ b ∈ bs, b ∈ bs') : NoCollision C bs := by
  have hmem : ∀ x ∈ bs.flatMap (Block.hashedStrings C),
      x ∈ bs'.flatMap (Block.hashedStrings C) := by
    intro x hx
    obtain ⟨b, hb, hxb⟩ := List.mem_flatMap.mp hx
    exact List.mem_flatMap.mpr ⟨b, hsub b hb, hxb⟩
  exact fun x hx y hy => h x (hmem x hx) y (hmem y hy)

/-! ### The Merkle tree -/

section Merkle

variable {S : Set Bytes}

/-- A hash `k` levels above the leaves. A leaf is the hash of a string that is neither a pair of
hashes nor a padding; the left child of an inner node is never a padding. -/
inductive MerkleNode (C : Crypto) (S : Set Bytes) : ℕ → Hash → Prop
  | leaf {x} : x ∈ S → x.length ≠ 64 → x.length ≠ 8 → MerkleNode C S 0 (C.hash256 x)
  | node {k} {a b : Hash} : MerkleNode C S k a → a.toList ++ b.toList ∈ S →
      MerkleNode C S (k + 1) (C.hash256 (a.toList ++ b.toList))

theorem length_pairString (a b : Hash) : (a.toList ++ b.toList).length = 64 := by
  simp

/-- Two hashes laid end to end can be told apart. -/
theorem pairString_inj {a b a' b' : Hash} (h : a.toList ++ b.toList = a'.toList ++ b'.toList) :
    a = a' ∧ b = b' := by
  obtain ⟨h₁, h₂⟩ := List.append_inj h (by simp)
  exact ⟨List.Vector.eq _ _ h₁, List.Vector.eq _ _ h₂⟩

variable (hS : Set.InjOn C.hash256 S)

include hS

/-- **The level of a hash is unique.** -/
theorem MerkleNode.level_unique {i j : ℕ} {h : Hash} (hi : MerkleNode C S i h)
    (hj : MerkleNode C S j h) : i = j := by
  induction hi generalizing j with
  | @leaf x hx h64 _ =>
    generalize hh : C.hash256 x = h at hj
    cases hj with
    | leaf => rfl
    | @node k a b _ hab =>
      have hxab := hS hx hab hh
      exact absurd (hxab ▸ length_pairString a b) h64
  | @node k a b _ hab ih =>
    generalize hh : C.hash256 (a.toList ++ b.toList) = h at hj
    cases hj with
    | @leaf x hx h64 _ =>
      have hxab := hS hab hx hh
      exact absurd (hxab ▸ length_pairString a b) h64
    | @node k' a' b' ha' hab' =>
      obtain ⟨rfl, -⟩ := pairString_inj (hS hab hab' hh)
      rw [ih ha']

/-- A padding is not a node. -/
theorem MerkleNode.ne_pad {k n : ℕ} {h : Hash} (hk : MerkleNode C S k h) (hn : leBytes 8 n ∈ S) :
    h ≠ C.hash256 (leBytes 8 n) := by
  intro heq
  cases hk with
  | leaf hx _ h8 =>
    have hxn := hS hx hn heq
    exact h8 (hxn ▸ length_leBytes 8 n)
  | @node k a b _ hab =>
    have habn := hS hab hn heq
    have hlen := length_pairString a b
    rw [habn, length_leBytes] at hlen
    omega

omit hS in
theorem mem_merklePairs : ∀ {P : List Hash} {h : Hash}, h ∈ merklePairs C P →
    ∃ a b : Hash, a ∈ P.dropLast ∧ a.toList ++ b.toList ∈ merklePairStrings P ∧
      h = C.hash256 (a.toList ++ b.toList)
  | a :: b :: rest, h, hh => by
    rw [merklePairs, List.mem_cons] at hh
    rcases hh with rfl | hh
    · refine ⟨a, b, ?_, ?_, rfl⟩
      · rw [List.dropLast_cons_of_ne_nil (List.cons_ne_nil _ _)]
        exact List.mem_cons_self
      · rw [merklePairStrings]
        exact List.mem_cons_self
    · obtain ⟨a', b', ha', hab', rfl⟩ := mem_merklePairs hh
      refine ⟨a', b', ?_, ?_, rfl⟩
      · have hrest : rest ≠ [] := by
          rintro rfl
          simp at ha'
        rw [List.dropLast_cons_of_ne_nil (List.cons_ne_nil _ _),
          List.dropLast_cons_of_ne_nil hrest]
        exact List.mem_cons_of_mem _ (List.mem_cons_of_mem _ ha')
      · rw [merklePairStrings]
        exact List.mem_cons_of_mem _ hab'
  | [], h, hh => by simp [merklePairs] at hh
  | [_], h, hh => by simp [merklePairs] at hh

theorem merklePairs_inj : ∀ {P P' : List Hash}, P.length % 2 = 0 → P'.length % 2 = 0 →
    (∀ x ∈ merklePairStrings P, x ∈ S) → (∀ x ∈ merklePairStrings P', x ∈ S) →
    merklePairs C P = merklePairs C P' → P = P'
  | [], [], _, _, _, _, _ => rfl
  | [], a' :: b' :: rest', _, _, _, _, h => by simp [merklePairs] at h
  | a :: b :: rest, [], _, _, _, _, h => by simp [merklePairs] at h
  | [_], _, hodd, _, _, _, _ => by simp at hodd
  | _, [_], _, hodd, _, _, _ => by simp at hodd
  | a :: b :: rest, a' :: b' :: rest', hP, hP', hs, hs', h => by
    rw [merklePairs, merklePairs, List.cons.injEq] at h
    rw [merklePairStrings] at hs hs'
    have hpair := hS (hs _ List.mem_cons_self) (hs' _ List.mem_cons_self) h.1
    obtain ⟨rfl, rfl⟩ := pairString_inj hpair
    rw [List.length_cons, List.length_cons] at hP hP'
    have heven : rest.length % 2 = 0 := by omega
    have heven' : rest'.length % 2 = 0 := by omega
    have hrest := merklePairs_inj heven heven'
      (fun x hx => hs x (List.mem_cons_of_mem _ hx))
      (fun x hx => hs' x (List.mem_cons_of_mem _ hx)) h.2
    rw [hrest]

omit hS in
theorem length_merklePad_even (L : List Hash) : (merklePad C L).length % 2 = 0 := by
  rw [merklePad]
  split
  · simp only [List.length_append, List.length_singleton]
    omega
  · omega

omit hS in
theorem merklePad_dropLast {L : List Hash} {h : Hash} (hh : h ∈ (merklePad C L).dropLast) :
    h ∈ L := by
  rw [merklePad] at hh
  split at hh
  · rwa [List.dropLast_concat] at hh
  · exact List.mem_of_mem_dropLast hh

theorem merklePad_inj {k : ℕ} {L L' : List Hash} (hL : ∀ h ∈ L, MerkleNode C S k h)
    (hL' : ∀ h ∈ L', MerkleNode C S k h)
    (hs : ∀ x ∈ merkleLevelStrings C L, x ∈ S) (hs' : ∀ x ∈ merkleLevelStrings C L', x ∈ S)
    (h : merklePad C L = merklePad C L') : L = L' := by
  rw [merkleLevelStrings] at hs hs'
  rw [merklePad, merklePad] at h
  by_cases hodd : L.length % 2 ≠ 0 <;> by_cases hodd' : L'.length % 2 ≠ 0
  · rw [if_pos hodd, if_pos hodd'] at h
    exact (List.append_inj' h rfl).1
  · rw [if_pos hodd, if_neg hodd'] at h
    have hpad : leBytes 8 L.length ∈ S := hs _ (by rw [if_pos hodd]; simp)
    exact absurd rfl ((hL' _ (h ▸ by simp)).ne_pad hS hpad)
  · rw [if_neg hodd, if_pos hodd'] at h
    have hpad : leBytes 8 L'.length ∈ S := hs' _ (by rw [if_pos hodd']; simp)
    exact absurd rfl ((hL _ (h ▸ by simp)).ne_pad hS hpad)
  · rwa [if_neg hodd, if_neg hodd'] at h

omit hS in
theorem mem_merkleLevel {k : ℕ} {L : List Hash} (hL : ∀ h ∈ L, MerkleNode C S k h)
    (hs : ∀ x ∈ merkleLevelStrings C L, x ∈ S) {h : Hash} (hh : h ∈ merkleLevel C L) :
    MerkleNode C S (k + 1) h := by
  obtain ⟨a, b, ha, hab, rfl⟩ := mem_merklePairs hh
  exact .node (hL a (merklePad_dropLast ha)) (hs _ (List.mem_append_right _ hab))

omit hS in
theorem mem_merkleLoop {fuel k : ℕ} {L : List Hash} (hL : ∀ h ∈ L, MerkleNode C S k h)
    (hs : ∀ x ∈ merkleLoopStrings C fuel L, x ∈ S) {h : Hash} (hh : h ∈ merkleLoop C fuel L) :
    ∃ j, MerkleNode C S (k + j) h := by
  induction fuel generalizing k L with
  | zero => exact ⟨0, hL h hh⟩
  | succ fuel ih =>
    rw [merkleLoop] at hh
    rw [merkleLoopStrings] at hs
    split at hh
    · next hlen =>
      rw [if_pos hlen] at hs
      obtain ⟨j, hj⟩ := ih
        (fun h' hh' => mem_merkleLevel hL (fun x hx => hs x (List.mem_append_left _ hx)) hh')
        (fun x hx => hs x (List.mem_append_right _ hx)) hh
      exact ⟨1 + j, by rwa [← Nat.add_assoc]⟩
    · exact ⟨0, hL h hh⟩

/-- A loop that ended in one hash either started there or took a turn. -/
theorem merkleLoop_eq_singleton {fuel k : ℕ} {L : List Hash} {x : Hash}
    (hL : ∀ h ∈ L, MerkleNode C S k h) (hs : ∀ x ∈ merkleLoopStrings C fuel L, x ∈ S)
    (h : merkleLoop C fuel L = [x]) :
    (L = [x] ∧ MerkleNode C S k x) ∨
      ∃ fuel', fuel = fuel' + 1 ∧ merkleLoop C fuel' (merkleLevel C L) = [x] ∧
        (∀ y ∈ merkleLevelStrings C L, y ∈ S) ∧
        (∀ y ∈ merkleLoopStrings C fuel' (merkleLevel C L), y ∈ S) ∧ ¬ MerkleNode C S k x := by
  cases fuel with
  | zero =>
    rw [merkleLoop] at h
    exact Or.inl ⟨h, hL x (by simp [h])⟩
  | succ fuel =>
    rw [merkleLoop] at h
    rw [merkleLoopStrings] at hs
    split at h
    · next hlen =>
      rw [if_pos hlen] at hs
      have hlevel := fun y hy => hs y (List.mem_append_left _ hy)
      have hloop := fun y hy => hs y (List.mem_append_right _ hy)
      refine Or.inr ⟨fuel, rfl, h, hlevel, hloop, fun hx => ?_⟩
      obtain ⟨j, hj⟩ := mem_merkleLoop (fun h' hh' => mem_merkleLevel hL hlevel hh') hloop
        (h := x) (by simp [h])
      have := hj.level_unique hS hx
      omega
    · exact Or.inl ⟨h, hL x (by simp [h])⟩

/-- **Two trees with one root have the same leaves.** -/
theorem merkleLoop_inj {n m k : ℕ} {L L' : List Hash} {x : Hash}
    (hL : ∀ h ∈ L, MerkleNode C S k h) (hL' : ∀ h ∈ L', MerkleNode C S k h)
    (hs : ∀ x ∈ merkleLoopStrings C n L, x ∈ S) (hs' : ∀ x ∈ merkleLoopStrings C m L', x ∈ S)
    (h : merkleLoop C n L = [x]) (h' : merkleLoop C m L' = [x]) : L = L' := by
  induction n generalizing m k L L' with
  | zero =>
    rw [merkleLoop] at h
    have hx := hL x (by simp [h])
    rcases merkleLoop_eq_singleton hS hL' hs' h' with ⟨heq, -⟩ | ⟨_, -, -, -, -, hnot⟩
    · rw [h, heq]
    · exact absurd hx hnot
  | succ n ih =>
    rcases merkleLoop_eq_singleton hS hL hs h with ⟨heq, hx⟩ | ⟨n', hn, hloop, hlev, hstr, hnot⟩ <;>
    rcases merkleLoop_eq_singleton hS hL' hs' h' with
      ⟨heq', hx'⟩ | ⟨m', -, hloop', hlev', hstr', hnot'⟩
    · rw [heq, heq']
    · exact absurd hx hnot'
    · exact absurd hx' hnot
    · obtain rfl : n = n' := by omega
      have hlevel := ih (fun h hh => mem_merkleLevel hL hlev hh)
        (fun h hh => mem_merkleLevel hL' hlev' hh) hstr hstr' hloop hloop'
      have hpad := merklePairs_inj hS (length_merklePad_even L) (length_merklePad_even L')
        (fun y hy => hlev y (List.mem_append_right _ hy))
        (fun y hy => hlev' y (List.mem_append_right _ hy)) hlevel
      exact merklePad_inj hS hL hL' hlev hlev' hpad

end Merkle

theorem length_merklePairs : ∀ P : List Hash, (merklePairs C P).length = P.length / 2
  | a :: b :: rest => by
    rw [merklePairs, List.length_cons, length_merklePairs rest, List.length_cons, List.length_cons]
    omega
  | [] => rfl
  | [_] => by simp [merklePairs]

theorem length_merkleLevel (L : List Hash) : (merkleLevel C L).length = (L.length + 1) / 2 := by
  rw [merkleLevel, length_merklePairs, merklePad]
  split
  · rw [List.length_append, List.length_singleton]
  · omega

/-- The loop ends in one hash. -/
theorem exists_merkleLoop_eq_singleton {n : ℕ} {L : List Hash} (hne : L ≠ [])
    (hn : L.length ≤ n) : ∃ x, merkleLoop C n L = [x] := by
  induction n generalizing L with
  | zero => exact absurd (List.length_eq_zero_iff.mp (Nat.le_zero.mp hn)) hne
  | succ n ih =>
    have hpos := List.length_pos_iff.mpr hne
    rw [merkleLoop]
    split
    · next hlen =>
      have hl := length_merkleLevel (C := C) L
      exact ih (List.ne_nil_of_length_pos (by omega)) (by omega)
    · exact List.length_eq_one_iff.mp (by omega)

/-! ### Transactions and headers -/

/-- A transaction without inputs has no outputs either. Every valid one is like that. -/
def Transaction.Funded (tx : Transaction) : Prop := tx.inputs = [] → tx.outputs = []

theorem Transaction.length_encode_of_funded {tx : Transaction} (h : tx.Funded) :
    tx.encode.length ≠ 64 ∧ tx.encode.length ≠ 8 := by
  have hlen : tx.encode.length = 28 + (tx.inputs.flatMap TxInput.encode).length +
      (tx.outputs.flatMap TxOutput.encode).length := by
    simp only [Transaction.encode, encList, List.length_append, length_leBytes]
    omega
  rcases hi : tx.inputs with _ | ⟨i, rest⟩
  · rw [hlen, hi, h hi]
    simp
  · have hin : 60 ≤ i.encode.length := by
      simp only [TxInput.encode, HybridSignature.encode, HybridPublicKey.encode, List.length_append,
        length_encBytes, length_leBytes, encList]
      omega
    rw [hlen, hi, List.flatMap_cons, List.length_append]
    omega

theorem TxOk.funded {tx : Transaction} {u : UtxoSet} {magic : UInt32} {h fee : ℕ}
    (hok : TxOk C tx u magic h fee) : tx.Funded := by
  intro hin
  have hsum := hok.fee_eq
  rw [Transaction.inputSum, hin, List.map_nil, List.sum_nil] at hsum
  rcases ho : tx.outputs with _ | ⟨o, rest⟩
  · rfl
  · have hdust := hok.dust o (by rw [ho]; exact List.mem_cons_self)
    rw [Transaction.outputSum, ho, List.map_cons, List.sum_cons] at hsum
    rw [dustLimitArkes] at hdust
    omega

theorem Transaction.funded_of_isCoinbase {tx : Transaction} (h : tx.isCoinbase = true) :
    tx.Funded := by
  intro hin
  rw [Transaction.isCoinbase, hin] at h
  cases h

theorem TxsOk.funded {magic : UInt32} {h : ℕ} {u u' : UtxoSet} {txs : List Transaction}
    (hok : TxsOk C magic h u txs u') : ∀ tx ∈ txs, tx.Funded := by
  induction hok with
  | nil => simp
  | cons htx _ ih => exact List.forall_mem_cons.mpr ⟨htx.funded, ih⟩

theorem Transaction.length_encode_le {txs : List Transaction} {tx : Transaction} (h : tx ∈ txs) :
    tx.serializedSize ≤ (encList Transaction.encode txs).length := by
  rw [encList, List.length_append]
  have hmem : tx.encode.length ≤ (txs.flatMap Transaction.encode).length := by
    rw [List.length_flatMap]
    exact List.single_le_sum (fun _ _ => Nat.zero_le _) _ (List.mem_map_of_mem h)
  exact hmem.trans (Nat.le_add_left _ _)

theorem Block.serializedSize_tx_le {b : Block} {tx : Transaction} (h : tx ∈ b.transactions) :
    tx.serializedSize ≤ b.serializedSize := by
  have := Transaction.length_encode_le h
  simp only [Block.serializedSize, Block.encode, List.length_append]
  omega

theorem Block.WellFormed.transactions_ne_nil {b : Block} {prevHash : String}
    (h : b.WellFormed C prevHash) : b.transactions ≠ [] := by
  obtain ⟨cb, rest, htxs, -⟩ := h.coinbase
  rw [htxs]
  exact List.cons_ne_nil _ _

theorem Block.WellFormed.serializedSize_tx_lt {b : Block} {prevHash : String}
    (h : b.WellFormed C prevHash) : ∀ tx ∈ b.transactions, tx.serializedSize < 2 ^ 64 := by
  intro tx htx
  have hle := (Block.serializedSize_tx_le htx).trans h.size_le
  rw [maxBlockBytes] at hle
  omega

/-- **Equal Merkle roots, equal transactions**, among the strings that do not collide. -/
theorem merkleRoot_inj {S : Set Bytes} (hS : Set.InjOn C.hash256 S) {txs txs' : List Transaction}
    (hs : ∀ x ∈ merkleStrings C txs, x ∈ S) (hs' : ∀ x ∈ merkleStrings C txs', x ∈ S)
    (hne : txs ≠ []) (hne' : txs' ≠ []) (hf : ∀ tx ∈ txs, tx.Funded) (hf' : ∀ tx ∈ txs', tx.Funded)
    (hsize : ∀ tx ∈ txs, tx.serializedSize < 2 ^ 64) (h : merkleRoot C txs = merkleRoot C txs') :
    txs = txs' := by
  have hmem : ∀ ts : List Transaction, (∀ x ∈ merkleStrings C ts, x ∈ S) → ∀ tx ∈ ts,
      tx.encode ∈ S := fun ts hts tx htx => hts _ (List.mem_append_left _ (List.mem_map_of_mem htx))
  have hleaf : ∀ ts : List Transaction, (∀ x ∈ merkleStrings C ts, x ∈ S) →
      (∀ tx ∈ ts, tx.Funded) → ∀ h ∈ ts.map (Transaction.txid C), MerkleNode C S 0 h := by
    intro ts hts hfts h hh
    obtain ⟨tx, htx, rfl⟩ := List.mem_map.mp hh
    obtain ⟨h64, h8⟩ := Transaction.length_encode_of_funded (hfts tx htx)
    exact .leaf (hmem ts hts tx htx) h64 h8
  obtain ⟨x, hx⟩ := exists_merkleLoop_eq_singleton (C := C) (n := txs.length)
    (L := txs.map (Transaction.txid C)) (by simpa using hne) (by simp)
  obtain ⟨x', hx'⟩ := exists_merkleLoop_eq_singleton (C := C) (n := txs'.length)
    (L := txs'.map (Transaction.txid C)) (by simpa using hne') (by simp)
  rw [merkleRoot, merkleRoot, hx, hx'] at h
  obtain rfl := hashToHex_injective h
  have hids := merkleLoop_inj hS (hleaf txs hs hf) (hleaf txs' hs' hf')
    (fun y hy => hs y (List.mem_append_right _ hy)) (fun y hy => hs' y (List.mem_append_right _ hy))
    hx hx'
  -- equal txids are equal transactions, one by one
  refine eq_of_map_eq (fun tx htx tx' htx' heq => ?_) hids
  exact Transaction.encode_inj (hsize tx htx) (hS (hmem txs hs tx htx) (hmem txs' hs' tx' htx') heq)

/-- The bytes of a header give back every field but the two hashes, and of these what they
decode to. -/
theorem BlockHeader.powBytes_inj {h h' : BlockHeader} (heq : h.powBytes = h'.powBytes) :
    h.version = h'.version ∧ hex32OrBytes h.prevHash = hex32OrBytes h'.prevHash ∧
      hex32OrBytes h.merkleRoot = hex32OrBytes h'.merkleRoot ∧ h.timestamp = h'.timestamp ∧
      h.bits = h'.bits ∧ h.nonce = h'.nonce := by
  rw [BlockHeader.powBytes, BlockHeader.powBytes] at heq
  obtain ⟨hversion, heq⟩ := List.append_inj heq (by simp)
  obtain ⟨hprev, heq⟩ := List.append_inj heq (by simp)
  obtain ⟨hmerkle, heq⟩ := List.append_inj heq (by simp)
  obtain ⟨htime, heq⟩ := List.append_inj heq (by simp)
  obtain ⟨hbits, heq⟩ := List.append_inj heq (by simp)
  obtain ⟨hnonce, -⟩ := List.append_inj heq (by simp)
  have h32 : ∀ a b : UInt32, leBytes 4 a.toNat = leBytes 4 b.toNat → a = b := fun a b hab =>
    UInt32.toNat_inj.mp (leBytes_inj a.toNat_lt b.toNat_lt hab)
  have h64 : ∀ a b : UInt64, leBytes 8 a.toNat = leBytes 8 b.toNat → a = b := fun a b hab =>
    UInt64.toNat_inj.mp (leBytes_inj a.toNat_lt b.toNat_lt hab)
  exact ⟨h32 _ _ hversion, hprev, hmerkle, h64 _ _ htime, h32 _ _ hbits, h64 _ _ hnonce⟩

/-! ### The strings of small blocks -/

theorem hashedStrings_of_singleton {b : Block} {tx : Transaction} (h : b.transactions = [tx]) :
    b.hashedStrings C = [b.header.powBytes, tx.encode] := by
  rw [Block.hashedStrings, h]
  rfl

theorem merkleStrings_pair (tx tx' : Transaction) :
    merkleStrings C [tx, tx'] =
      [tx.encode, tx'.encode, (tx.txid C).toList ++ (tx'.txid C).toList] := by
  simp [merkleStrings, merkleLoopStrings, merkleLevelStrings, merklePad, merklePairStrings,
    merkleLevel, merklePairs]

theorem hashedStrings_of_pair {b : Block} {tx tx' : Transaction} (h : b.transactions = [tx, tx']) :
    b.hashedStrings C = [b.header.powBytes, tx.encode, tx'.encode,
      (tx.txid C).toList ++ (tx'.txid C).toList] := by
  show b.header.powBytes :: merkleStrings C b.transactions = _
  rw [h, merkleStrings_pair]

/-! ### Blocks and chains -/

/-- Every transaction of a block that is valid in some context is funded. -/
theorem ContextOk.funded {magic : UInt32} {now : ℕ} {bs : List Block} {u : UtxoSet} {m : ℕ}
    {b : Block} (hctx : ContextOk C magic now bs u m b) {prevHash : String}
    (hwf : b.WellFormed C prevHash) : ∀ tx ∈ b.transactions, tx.Funded := by
  obtain ⟨cb, rest, htxs, hcb⟩ := hwf.coinbase
  obtain ⟨u', hok⟩ := hctx.txs_ok
  rw [htxs] at hok ⊢
  exact List.forall_mem_cons.mpr ⟨Transaction.funded_of_isCoinbase hcb, hok.funded⟩

theorem Extends.funded {magic : UInt32} {now : ℕ} {bs : List Block} {b : Block}
    (h : Extends C magic now bs b) : ∀ tx ∈ b.transactions, tx.Funded := by
  obtain ⟨p, -, hwf, -⟩ := h.parent
  obtain ⟨u, m, -, hctx⟩ := h.context
  exact hctx.funded hwf

theorem exists_merkleRoot_eq {txs : List Transaction} (hne : txs ≠ []) :
    ∃ x, merkleRoot C txs = hashToHex x := by
  obtain ⟨x, hx⟩ := exists_merkleLoop_eq_singleton (C := C) (n := txs.length)
    (L := txs.map (Transaction.txid C)) (by simpa using hne) (by simp)
  exact ⟨x, by rw [merkleRoot, hx]⟩

/-- **A block hash commits to the block**, once the parent and the height are known. -/
theorem Block.eq_of_hashHex_eq {S : Set Bytes} (hS : Set.InjOn C.hash256 S) {b b' : Block}
    (hs : ∀ x ∈ b.hashedStrings C, x ∈ S) (hs' : ∀ x ∈ b'.hashedStrings C, x ∈ S)
    {prevHash : String} (hwf : b.WellFormed C prevHash) (hwf' : b'.WellFormed C prevHash)
    (hf : ∀ tx ∈ b.transactions, tx.Funded) (hf' : ∀ tx ∈ b'.transactions, tx.Funded)
    (hheight : b.height = b'.height) (heq : b.hashHex C = b'.hashHex C) : b = b' := by
  have hpow : b.header.powBytes = b'.header.powBytes :=
    hS (hs _ List.mem_cons_self) (hs' _ List.mem_cons_self) (hashToHex_injective heq)
  obtain ⟨hversion, -, hmerkle, htime, hbits, hnonce⟩ := BlockHeader.powBytes_inj hpow
  have hne := hwf.transactions_ne_nil
  have hne' := hwf'.transactions_ne_nil
  have hroot : merkleRoot C b.transactions = merkleRoot C b'.transactions := by
    obtain ⟨x, hx⟩ := exists_merkleRoot_eq (C := C) hne
    obtain ⟨y, hy⟩ := exists_merkleRoot_eq (C := C) hne'
    rw [← hwf.merkleRoot_eq, ← hwf'.merkleRoot_eq, hx, hy, hex32OrBytes_hashToHex,
      hex32OrBytes_hashToHex] at hmerkle
    rw [hx, hy, List.Vector.eq _ _ hmerkle]
  have htxs := merkleRoot_inj hS (fun x hx => hs x (List.mem_cons_of_mem _ hx))
    (fun x hx => hs' x (List.mem_cons_of_mem _ hx)) hne hne' hf hf' hwf.serializedSize_tx_lt hroot
  have hheader : b.header = b'.header := BlockHeader.ext hversion
    (hwf.prevHash_eq.trans hwf'.prevHash_eq.symm)
    (hwf.merkleRoot_eq.symm.trans (hroot.trans hwf'.merkleRoot_eq)) htime hbits hnonce
  exact Block.ext hheader htxs hheight

/-- The header bytes name the parent. -/
theorem BlockHeader.prevHash_eq_of_powBytes_eq {h h' : BlockHeader} {p p' : Block}
    (hp : h.prevHash = p.hashHex C) (hp' : h'.prevHash = p'.hashHex C)
    (heq : h.powBytes = h'.powBytes) : p.hashHex C = p'.hashHex C := by
  obtain ⟨-, hprev, -⟩ := BlockHeader.powBytes_inj heq
  rw [hp, hp', Block.hashHex, Block.hashHex, BlockHeader.hashHex, BlockHeader.hashHex,
    hex32OrBytes_hashToHex, hex32OrBytes_hashToHex] at hprev
  rw [Block.hashHex, Block.hashHex, BlockHeader.hashHex, BlockHeader.hashHex,
    List.Vector.eq _ _ hprev]

variable {magic : UInt32} {T : Set ℕ} {g : Block}

/-- **A block hash commits to the chain behind it.** -/
theorem ValidChain.eq_of_hashHex_eq {bs bs' hist : List Block} (hnc : NoCollision C hist)
    (h : ValidChain C magic T g bs) (h' : ValidChain C magic T g bs')
    (hsub : ∀ x ∈ bs, x ∈ hist) (hsub' : ∀ x ∈ bs', x ∈ hist) {b b' : Block}
    (hb : bs.getLast? = some b) (hb' : bs'.getLast? = some b')
    (heq : b.hashHex C = b'.hashHex C) : bs = bs' := by
  have hS : Set.InjOn C.hash256 {x | x ∈ hist.flatMap (Block.hashedStrings C)} :=
    fun x hx y hy => hnc x hx y hy
  have hstr : ∀ c ∈ hist, ∀ x ∈ c.hashedStrings C, x ∈ hist.flatMap (Block.hashedStrings C) :=
    fun c hc x hx => List.mem_flatMap.mpr ⟨c, hc, hx⟩
  induction h generalizing bs' b b' with
  | genesis =>
    obtain rfl : g = b := by simpa using hb
    cases h' with
    | genesis => rfl
    | @snoc ds d _ _ _ hne _ =>
      obtain rfl : d = b' := by simpa using hb'
      exact absurd heq.symm hne
  | @snoc cs c _ hcs _ hne hext ih =>
    obtain rfl : c = b := by simpa using hb
    cases h' with
    | genesis =>
      obtain rfl : g = b' := by simpa using hb'
      exact absurd heq hne
    | @snoc ds d _ hds _ _ hext' =>
      obtain rfl : d = b' := by simpa using hb'
      have hc : c ∈ hist := hsub c (by simp)
      have hd : d ∈ hist := hsub' d (by simp)
      obtain ⟨p, hp, hwf, hheight⟩ := hext.parent
      obtain ⟨p', hp', hwf', hheight'⟩ := hext'.parent
      -- the header bytes agree, hence the parents and with them the chains behind
      have hpow : c.header.powBytes = d.header.powBytes :=
        hnc _ (hstr c hc _ List.mem_cons_self) _ (hstr d hd _ List.mem_cons_self)
          (hashToHex_injective heq)
      have hchain : cs = ds := ih hds (fun x hx => hsub x (List.mem_append_left _ hx))
        (fun x hx => hsub' x (List.mem_append_left _ hx)) hp hp'
        (BlockHeader.prevHash_eq_of_powBytes_eq hwf.prevHash_eq hwf'.prevHash_eq hpow)
      subst hchain
      obtain rfl : p = p' := Option.some.inj (hp.symm.trans hp')
      rw [Block.eq_of_hashHex_eq hS (hstr c hc) (hstr d hd) hwf hwf' hext.funded hext'.funded
        (hheight.trans hheight'.symm) heq]

/-- Every one of the given blocks has a valid chain among them. -/
def History (C : Crypto) (magic : UInt32) (T : Set ℕ) (g : Block) (hist : List Block) : Prop :=
  ∀ b ∈ hist, ∃ bs, ValidChain C magic T g bs ∧ bs.getLast? = some b ∧ ∀ x ∈ bs, x ∈ hist

theorem separated_of_noCollision {hist : List Block} (hh : History C magic T g hist)
    (hnc : NoCollision C hist) : Separated C hist := by
  intro b hb b' hb' heq
  obtain ⟨bs, hbs, hlast, hsub⟩ := hh b hb
  obtain ⟨bs', hbs', hlast', hsub'⟩ := hh b' hb'
  have hchain := hbs.eq_of_hashHex_eq hnc hbs' hsub hsub' hlast hlast' heq
  rw [hchain] at hlast
  exact Option.some.inj (hlast.symm.trans hlast')

end Arkos
