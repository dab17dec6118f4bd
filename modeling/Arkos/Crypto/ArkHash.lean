import Arkos.Crypto
import Arkos.Lib.Accumulator

/-!
# ArkHash

A hash that is computed by a small neural network: the digest of the input is stretched to a vector
of signed bytes, sixteen fully connected layers are applied to it, and the result is hashed. The
weights are a stretched digest too. `fillTable` is the loop all three tables are filled by.

The layers are meant to be handed to the accelerator of a phone, which adds products in an order and
in registers of its own. That is safe: the bias and the 256 products of a row add up to less than
2²³ in magnitude, so no register of 24 bits or more can tell one order from another, and the index
checks and overflow checks of the code never fail. What is computed is the network over the
integers.

SHA-256 is a parameter, and the cache of the weights is left out.

## Main definitions

* `ArkHash.buildNet`, `ArkHash.expandSeed`, `ArkHash.int8FcLayer`, `arkhash`
* `ArkHash.arkhashOn` — the same with the sums of a backend
* `ArkHash.activation`, `ArkHash.networkHash` — the network over the integers

## Main results

* `ArkHash.fillTable_eq` — a table is filled, and never written outside
* `ArkHash.magnitude_terms_lt` — no row can overflow a register of 24 bits
* `ArkHash.arkhash_exact`
-/

namespace Arkos

namespace ArkHash

/-- `D`: the neurons of a layer. -/
def d : ℕ := 256

/-- `L`: the layers. -/
def layers : ℕ := 16

/-- `Q_SHIFT`. -/
def qShift : ℕ := 12

/-- `WEIGHT_SEED`. -/
def weightSeed : Bytes := utf8 "ARKOS_NEUROPOW_V1"

/-! ### Tables -/

section

variable {α : Type*} {n : ℕ}

/-- The values are written from index `i` on. An index outside of the table is a panic. -/
def writeFrom (table : Vector α n) : ℕ → List α → Option (Vector α n)
  | _, [] => some table
  | i, v :: vs => if h : i < n then writeFrom (table.set i v h) (i + 1) vs else none

/-- The chunks of a table, `c` entries each and the last one cut short. -/
def fillTable (n c : ℕ) (zero : α) (block : ℕ → List α) : Option (Vector α n) :=
  (List.range ((n + c - 1) / c)).foldlM
    (fun table chunk =>
      let start := chunk * c
      let stop := min (start + c) n
      writeFrom table start ((block chunk).take (stop - start)))
    (Vector.replicate n zero)

end

/-- `Net`. -/
structure Net where
  w : Vector Int8 (layers * d * d)
  b : Vector Int16 (layers * d)

/-- `chunks_exact(2)`, read as little-endian words. -/
def le16 : Bytes → List Int16
  | lo :: hi :: rest => (UInt16.ofNat (lo.toNat + 256 * hi.toNat)).toInt16 :: le16 rest
  | _ => []

section

variable (sha256 : Bytes → Hash)

/-- The chunk of a table of the network: the digest of the master key, a letter and a counter. -/
def netBlock (letter : String) (chunk : ℕ) : Bytes :=
  (sha256 ((sha256 weightSeed).toList ++ utf8 letter ++ leBytes 4 chunk)).toList

/-- The weights a chunk holds. -/
def weightBlock (chunk : ℕ) : List Int8 :=
  (netBlock sha256 "W" chunk).map fun byte => max byte.toInt8 (-127)

/-- The biases a chunk holds. -/
def biasBlock (chunk : ℕ) : List Int16 :=
  (le16 (netBlock sha256 "B" chunk)).map fun raw => max (-64) (min raw 64)

/-- `build_net`. -/
def buildNet : Option Net := do
  let w ← fillTable (layers * d * d) 32 0 (weightBlock sha256)
  let b ← fillTable (layers * d) 16 0 (biasBlock sha256)
  return ⟨w, b⟩

/-- The activations a chunk holds. -/
def seedBlock (seed : Hash) (chunk : ℕ) : List Int8 :=
  (sha256 (seed.toList ++ [UInt8.ofNat chunk])).toList.map UInt8.toInt8

/-- `expand_seed`. -/
def expandSeed (seed : Hash) : Option (Vector Int8 d) := fillTable d 32 0 (seedBlock sha256 seed)

end

/-! ### Layers -/

/-- What becomes of a sum: it is scaled down and clamped to a signed byte. -/
def settle (acc : ℤ) : Int8 := Int8.ofInt (max (-127) (min (acc >>> qShift) 127))

/-- `int8_fc_layer`. Indices and 32-bit arithmetic are checked. -/
def int8FcLayer (net : Net) (l : ℕ) (x : Vector Int8 d) : Option (Vector Int8 d) :=
  Vector.ofFnM fun row => do
    let bias ← net.b[l * d + row]?
    let acc ← x.toList.zipIdx.foldlM
      (fun acc p => do
        let weight ← net.w[l * d * d + row * d + p.2]?
        let product ← checkSigned 32 (weight.toInt * p.1.toInt)
        checkSigned 32 (acc + product))
      bias.toInt
    return settle acc

/-- `arkhash`. -/
def arkhash (sha256 : Bytes → Hash) (input : Bytes) : Option Hash := do
  let net ← buildNet sha256
  let x ← expandSeed sha256 (sha256 input)
  let x ← (List.range layers).foldlM (fun x l => int8FcLayer net l x) x
  return sha256 (x.toList.map Int8.toUInt8)

/-! ### A backend -/

/-- What the sum of a row is made of: the bias and the products. -/
def terms (net : Net) (l : ℕ) (x : Vector Int8 d) (row : ℕ) : Option (List ℤ) := do
  let bias ← net.b[l * d + row]?
  let products ← x.toList.zipIdx.mapM fun p =>
    (net.w[l * d * d + row * d + p.2]?).map fun weight => weight.toInt * p.1.toInt
  return bias.toInt :: products

/-- A layer as a backend computes it, with a way of adding of its own for each row. -/
def layerOn (add : ℕ → List ℤ → Option ℤ) (net : Net) (l : ℕ) (x : Vector Int8 d) :
    Option (Vector Int8 d) :=
  Vector.ofFnM fun row => do
    let acc ← add row (← terms net l x row)
    return settle acc

/-- `arkhash`, with the layers computed by a backend. -/
def arkhashOn (add : ℕ → ℕ → List ℤ → Option ℤ) (sha256 : Bytes → Hash) (input : Bytes) :
    Option Hash := do
  let net ← buildNet sha256
  let x ← expandSeed sha256 (sha256 input)
  let x ← (List.range layers).foldlM (fun x l => layerOn (add l) net l x) x
  return sha256 (x.toList.map Int8.toUInt8)

/-! ### The network over the integers -/

section

variable (sha256 : Bytes → Hash)

/-- The weights of layer `l`: bytes of the stretched master key, but for the smallest. -/
def weight (l : ℕ) : Fin d → Fin d → ℤ := fun row col =>
  let k := l * d * d + row * d + col
  (((weightBlock sha256 (k / 32))[k % 32]?).getD 0).toInt

/-- The biases of layer `l`. -/
def bias (l : ℕ) : Fin d → ℤ := fun row =>
  let k := l * d + row
  (((biasBlock sha256 (k / 16))[k % 16]?).getD 0).toInt

/-- What comes out of the first `l` layers. -/
def activation (input : Bytes) : ℕ → Fin d → ℤ
  | 0 => fun i => (((seedBlock sha256 (sha256 input) (i / 32))[(i : ℕ) % 32]?).getD 0).toInt
  | l + 1 => quantizedLayer qShift 127 (weight sha256 l) (bias sha256 l) (activation input l)

/-- The digest of what comes out of the last layer. -/
def networkHash (input : Bytes) : Hash :=
  sha256 (List.ofFn fun i => (Int8.ofInt (activation sha256 input layers i)).toUInt8)

end

/-! ### Filling a table -/

section

variable {α : Type*} {n : ℕ}

/-- Values that fit are written, and nothing else changes. -/
theorem exists_writeFrom (table : Vector α n) {i : ℕ} {vs : List α} (h : i + vs.length ≤ n) :
    ∃ table', writeFrom table i vs = some table' ∧ ∀ k, table'[k]? =
      if i ≤ k ∧ k < i + vs.length then vs[k - i]? else table[k]? := by
  induction vs generalizing table i with
  | nil => exact ⟨table, rfl, fun k => (if_neg fun hk => by simp at hk; omega).symm⟩
  | cons v vs ih =>
    rw [List.length_cons] at h
    obtain ⟨table', hwrite, hget⟩ := ih (table.set i v (by omega)) (i := i + 1) (by omega)
    refine ⟨table', by rw [writeFrom, dif_pos (by omega), hwrite], fun k => ?_⟩
    rw [hget, List.length_cons, Vector.getElem?_set]
    rcases Nat.lt_trichotomy k i with hlt | rfl | hgt
    · rw [if_neg (by omega), if_neg (by omega), if_neg (by omega)]
    · rw [if_neg (by omega), if_pos rfl, if_pos (by omega), Nat.sub_self, List.getElem?_cons_zero]
    · by_cases hk : k < i + 1 + vs.length
      · rw [if_pos (by omega), if_pos (by omega), show k - i = k - (i + 1) + 1 by omega,
          List.getElem?_cons_succ]
      · rw [if_neg (by omega), if_neg (by omega), if_neg (by omega)]

/-- **A table is filled chunk by chunk**: no index is outside, and no entry is left out. -/
theorem fillTable_eq {c : ℕ} (hc : 0 < c) (zero : α) {block : ℕ → List α}
    (hblock : ∀ chunk, (block chunk).length = c) :
    ∃ table, fillTable n c zero block = some table ∧
      ∀ k < n, table[k]? = (block (k / c))[k % c]? := by
  -- by induction on the chunks that are written
  suffices hchunks : ∀ m ≤ (n + c - 1) / c, ∃ table : Vector α n,
      (List.range m).foldlM (fun table chunk =>
        writeFrom table (chunk * c) ((block chunk).take (min (chunk * c + c) n - chunk * c)))
        (Vector.replicate n zero) = some table ∧
      ∀ k < n, k < m * c → table[k]? = (block (k / c))[k % c]? by
    obtain ⟨table, hfold, hget⟩ := hchunks _ le_rfl
    refine ⟨table, hfold, fun k hk => hget k hk ?_⟩
    have hlt : k / c < (n + c - 1) / c := by
      rw [Nat.div_lt_iff_lt_mul hc]
      have := Nat.lt_div_mul_add hc (a := n + c - 1)
      omega
    exact (Nat.div_lt_iff_lt_mul hc).mp hlt
  intro m
  induction m with
  | zero => exact fun _ => ⟨Vector.replicate n zero, rfl, fun k _ hk => absurd hk (by omega)⟩
  | succ m ih =>
    intro hm
    obtain ⟨table, hfold, hget⟩ := ih (by omega)
    have hstart : m * c < n := by
      have hlt : m < (n + c - 1) / c := hm
      have := (Nat.lt_div_iff_mul_lt hc).mp hlt
      omega
    have hlength : ((block m).take (min (m * c + c) n - m * c)).length =
        min (m * c + c) n - m * c := by
      rw [List.length_take, hblock]
      omega
    obtain ⟨table', hwrite, hget'⟩ := exists_writeFrom table
      (show m * c + ((block m).take (min (m * c + c) n - m * c)).length ≤ n by omega)
    refine ⟨table', ?_, fun k hk hkm => ?_⟩
    · rw [List.range_succ, List.foldlM_append, hfold]
      simpa using hwrite
    · rw [Nat.succ_mul] at hkm
      rw [hget' k, hlength]
      by_cases hold : k < m * c
      · rw [if_neg (by omega), hget k hk hold]
      · have hdiv : k / c = m := Nat.div_eq_of_lt_le (by omega) (by rw [Nat.succ_mul]; omega)
        have hmod : k % c = k - m * c := by
          have := Nat.div_add_mod' k c
          rw [hdiv] at this
          omega
        rw [if_pos (by omega), hdiv, hmod, List.getElem?_take_of_lt (by omega)]

end

/-! ### The weights -/

section

variable (sha256 : Bytes → Hash)

theorem length_netBlock (letter : String) (chunk : ℕ) :
    (netBlock sha256 letter chunk).length = 32 :=
  List.Vector.toList_length _

theorem length_weightBlock (chunk : ℕ) : (weightBlock sha256 chunk).length = 32 := by
  rw [weightBlock, List.length_map, length_netBlock]

theorem length_le16 : ∀ bs : Bytes, (le16 bs).length = bs.length / 2
  | [] => rfl
  | [_] => by simp [le16]
  | _ :: _ :: rest => by
    rw [le16, List.length_cons, length_le16 rest, List.length_cons, List.length_cons]
    omega

theorem length_biasBlock (chunk : ℕ) : (biasBlock sha256 chunk).length = 16 := by
  rw [biasBlock, List.length_map, length_le16, length_netBlock]

theorem length_seedBlock (seed : Hash) (chunk : ℕ) : (seedBlock sha256 seed chunk).length = 32 := by
  rw [seedBlock, List.length_map, List.Vector.toList_length]

theorem toInt_max_int8 (a b : Int8) : (max a b).toInt = max a.toInt b.toInt := by
  show (if a ≤ b then b else a).toInt = _
  split
  · next h => rw [max_eq_right (Int8.le_iff_toInt_le.mp h)]
  · next h =>
    rw [Int8.le_iff_toInt_le] at h
    rw [max_eq_left (by omega)]

theorem toInt_max_int16 (a b : Int16) : (max a b).toInt = max a.toInt b.toInt := by
  show (if a ≤ b then b else a).toInt = _
  split
  · next h => rw [max_eq_right (Int16.le_iff_toInt_le.mp h)]
  · next h =>
    rw [Int16.le_iff_toInt_le] at h
    rw [max_eq_left (by omega)]

theorem toInt_min_int16 (a b : Int16) : (min a b).toInt = min a.toInt b.toInt := by
  show (if a ≤ b then a else b).toInt = _
  split
  · next h => rw [min_eq_left (Int16.le_iff_toInt_le.mp h)]
  · next h =>
    rw [Int16.le_iff_toInt_le] at h
    rw [min_eq_right (by omega)]

/-- The smallest byte is skipped, so that a weight and its negative are both bytes. -/
theorem natAbs_weight_le (l : ℕ) (row col : Fin d) : (weight sha256 l row col).natAbs ≤ 127 := by
  have hmax : ∀ x : Int8, (max x (-127)).toInt.natAbs ≤ 127 := fun x => by
    have hlt := x.toInt_lt
    have hbottom : (-127 : Int8).toInt = -127 := rfl
    rw [toInt_max_int8, hbottom]
    omega
  simp only [weight, weightBlock, List.getElem?_map]
  cases
    (netBlock sha256 "W" ((l * d * d + row * d + col) / 32))[(l * d * d + row * d + col) % 32]? with
  | none => exact Nat.zero_le _
  | some byte => exact hmax byte.toInt8

theorem natAbs_bias_le (l : ℕ) (row : Fin d) : (bias sha256 l row).natAbs ≤ 64 := by
  have hclamp : ∀ x : Int16, (max (-64) (min x 64)).toInt.natAbs ≤ 64 := fun x => by
    have hbottom : (-64 : Int16).toInt = -64 := rfl
    have htop : (64 : Int16).toInt = 64 := rfl
    rw [toInt_max_int16, toInt_min_int16, hbottom, htop]
    omega
  simp only [bias, biasBlock, List.getElem?_map]
  cases (le16 (netBlock sha256 "B" ((l * d + row) / 16)))[(l * d + row) % 16]? with
  | none => exact Nat.zero_le _
  | some raw => exact hclamp raw

end

/-- The tables of the network hold the weights and biases of its layers. -/
structure Net.Holds (sha256 : Bytes → Hash) (net : Net) : Prop where
  weights : ∀ l < layers, ∀ row col : Fin d,
    ∃ w, net.w[l * d * d + row * d + col]? = some w ∧ w.toInt = weight sha256 l row col
  biases : ∀ l < layers, ∀ row : Fin d,
    ∃ b, net.b[l * d + row]? = some b ∧ b.toInt = bias sha256 l row

/-- **The network is built**, and its tables are those of the specification. -/
theorem exists_buildNet (sha256 : Bytes → Hash) :
    ∃ net, buildNet sha256 = some net ∧ net.Holds sha256 := by
  obtain ⟨w, hw, hweights⟩ := fillTable_eq (n := layers * d * d) (by norm_num) (0 : Int8)
    (length_weightBlock sha256)
  obtain ⟨b, hb, hbiases⟩ := fillTable_eq (n := layers * d) (by norm_num) (0 : Int16)
    (length_biasBlock sha256)
  refine ⟨⟨w, b⟩, by rw [buildNet, hw, hb]; rfl, fun l hl row col => ?_, fun l hl row => ?_⟩
  · have hrow := row.isLt
    have hcol := col.isLt
    have hk : l * d * d + row * d + col < layers * d * d := by
      unfold layers d at *
      omega
    have hget := hweights _ hk
    have hlt : (l * d * d + row * d + col) % 32 <
        (weightBlock sha256 ((l * d * d + row * d + col) / 32)).length := by
      rw [length_weightBlock]
      exact Nat.mod_lt _ (by norm_num)
    rw [List.getElem?_eq_getElem hlt] at hget
    exact ⟨_, hget, by rw [weight]; simp only [List.getElem?_eq_getElem hlt, Option.getD_some]⟩
  · have hrow := row.isLt
    have hk : l * d + row < layers * d := by
      unfold layers d at *
      omega
    have hget := hbiases _ hk
    have hlt : (l * d + row) % 16 < (biasBlock sha256 ((l * d + row) / 16)).length := by
      rw [length_biasBlock]
      exact Nat.mod_lt _ (by norm_num)
    rw [List.getElem?_eq_getElem hlt] at hget
    exact ⟨_, hget, by rw [bias]; simp only [List.getElem?_eq_getElem hlt, Option.getD_some]⟩

/-! ### Rows -/

/-- The bytes stand for integers. -/
def Represents (x : Vector Int8 d) (v : Fin d → ℤ) : Prop := ∀ i : Fin d, x[i].toInt = v i

section

variable {sha256 : Bytes → Hash} {net : Net} {l : ℕ} {x : Vector Int8 d} {v : Fin d → ℤ}

/-- The terms of a row, over the integers. -/
def rowTerms (sha256 : Bytes → Hash) (l : ℕ) (v : Fin d → ℤ) (row : Fin d) : List ℤ :=
  bias sha256 l row :: List.ofFn fun col => weight sha256 l row col * v col

theorem sum_rowTerms (sha256 : Bytes → Hash) (l : ℕ) (v : Fin d → ℤ) (row : Fin d) :
    (rowTerms sha256 l v row).sum = bias sha256 l row + ∑ col, weight sha256 l row col * v col := by
  rw [rowTerms, List.sum_cons, List.sum_ofFn]

/-- **A row fits a register of 24 bits**, with every partial sum of every order. -/
theorem magnitude_terms_lt (sha256 : Bytes → Hash) (l : ℕ) {v : Fin d → ℤ}
    (hv : ∀ i, (v i).natAbs ≤ 128) (row : Fin d) :
    magnitude (rowTerms sha256 l v row) < 2 ^ (24 - 1) := by
  have hproducts : magnitude (List.ofFn fun col => weight sha256 l row col * v col) ≤
      d * (127 * 128) := by
    refine (magnitude_le fun z hz => ?_).trans_eq (by rw [List.length_ofFn])
    obtain ⟨col, rfl⟩ := List.mem_ofFn.mp hz
    rw [Int.natAbs_mul]
    exact Nat.mul_le_mul (natAbs_weight_le sha256 l row col) (hv col)
  have hbias := natAbs_bias_le sha256 l row
  rw [rowTerms, magnitude_cons]
  unfold d at *
  omega

theorem natAbs_toInt_le (x : Int8) : x.toInt.natAbs ≤ 128 := by
  have hlt := x.toInt_lt
  have hle := x.le_toInt
  omega

theorem natAbs_le_of_represents (h : Represents x v) (i : Fin d) : (v i).natAbs ≤ 128 :=
  h i ▸ natAbs_toInt_le x[i]

/-- What the loop over the columns reads. -/
theorem forall_zipIdx (hnet : net.Holds sha256) (hl : l < layers) (h : Represents x v)
    (row : Fin d) : List.Forall₂
      (fun p z => ∃ w, net.w[l * d * d + row * d + p.2]? = some w ∧ w.toInt * p.1.toInt = z)
      x.toList.zipIdx (List.ofFn fun col => weight sha256 l row col * v col) := by
  rw [List.forall₂_iff_get]
  refine ⟨by simp, fun i hi _ => ?_⟩
  have hcol : i < d := by simpa using hi
  obtain ⟨w, hw, hweight⟩ := hnet.weights l hl row ⟨i, hcol⟩
  have hx := h ⟨i, hcol⟩
  simp only [Fin.getElem_fin] at hx
  refine ⟨w, by simpa using hw, ?_⟩
  simp [hweight, ← hx]

/-- The terms a backend is handed. -/
theorem terms_eq (hnet : net.Holds sha256) (hl : l < layers) (h : Represents x v) (row : Fin d) :
    terms net l x row = some (rowTerms sha256 l v row) := by
  obtain ⟨b, hb, hbias⟩ := hnet.biases l hl row
  have hproducts : ∀ {ps : List (Int8 × ℕ)} {zs : List ℤ}, List.Forall₂
      (fun p z => ∃ w, net.w[l * d * d + row * d + p.2]? = some w ∧ w.toInt * p.1.toInt = z) ps zs →
      (ps.mapM fun p => (net.w[l * d * d + row * d + p.2]?).map fun weight =>
        weight.toInt * p.1.toInt) = some zs := fun hforall => by
    induction hforall with
    | nil => rfl
    | cons hp _ ih =>
      obtain ⟨w, hw, rfl⟩ := hp
      rw [List.mapM_cons, ih, hw]
      rfl
  rw [terms, hb, hproducts (forall_zipIdx hnet hl h row), rowTerms, ← hbias]
  rfl

/-- The loop over the columns adds the products up in a register of 32 bits. -/
theorem foldlM_products {row : ℕ} {ps : List (Int8 × ℕ)} {zs : List ℤ} (hforall : List.Forall₂
      (fun p z => ∃ w, net.w[l * d * d + row * d + p.2]? = some w ∧ w.toInt * p.1.toInt = z) ps zs)
    (acc : ℤ) :
    ps.foldlM (fun acc p => do
        let weight ← net.w[l * d * d + row * d + p.2]?
        let product ← checkSigned 32 (weight.toInt * p.1.toInt)
        checkSigned 32 (acc + product)) acc =
      zs.foldlM (fun acc z => checkSigned 32 (acc + z)) acc := by
  induction hforall generalizing acc with
  | nil => rfl
  | @cons p z ps zs hp _ ih =>
    obtain ⟨w, hw, rfl⟩ := hp
    -- the product of two bytes is small
    have hproduct : (w.toInt * p.1.toInt).natAbs < 2 ^ (32 - 1) := by
      rw [Int.natAbs_mul]
      exact (Nat.mul_le_mul (natAbs_toInt_le w) (natAbs_toInt_le p.1)).trans_lt (by norm_num)
    rw [List.foldlM_cons, List.foldlM_cons, hw]
    simp only [Option.bind_eq_bind, Option.bind_some, checkSigned_of_natAbs hproduct]
    exact congrArg (Option.bind _) (funext ih)

/-- A settled sum is that of the quantised layer. -/
theorem toInt_settle (sha256 : Bytes → Hash) (l : ℕ) (v : Fin d → ℤ) (row : Fin d) :
    (settle (rowTerms sha256 l v row).sum).toInt =
      quantizedLayer qShift 127 (weight sha256 l) (bias sha256 l) v row := by
  rw [settle, sum_rowTerms, Int.shiftRight_eq_div_pow,
    Int8.toInt_ofInt_of_le (by omega) (by omega), Nat.cast_pow]
  rfl

/-- The activations behind a layer. -/
def nextActivations (sha256 : Bytes → Hash) (l : ℕ) (v : Fin d → ℤ) : Vector Int8 d :=
  Vector.ofFn fun row => settle (rowTerms sha256 l v row).sum

theorem represents_nextActivations (sha256 : Bytes → Hash) (l : ℕ) (v : Fin d → ℤ) :
    Represents (nextActivations sha256 l v)
      (quantizedLayer qShift 127 (weight sha256 l) (bias sha256 l) v) := fun i => by
  rw [nextActivations, Fin.getElem_fin, Vector.getElem_ofFn]
  exact toInt_settle sha256 l v i

/-- **A layer of the source** is that of a backend with checked registers of 32 bits. -/
theorem int8FcLayer_eq (hnet : net.Holds sha256) (hl : l < layers) (h : Represents x v) :
    int8FcLayer net l x = layerOn (fun _ => checkedRegister 32) net l x := by
  rw [int8FcLayer, layerOn]
  congr 1
  funext row
  obtain ⟨b, hb, hbias⟩ := hnet.biases l hl row
  have hsmall : b.toInt.natAbs < 2 ^ (32 - 1) :=
    (hbias ▸ natAbs_bias_le sha256 l row).trans_lt (by norm_num)
  have hregister : checkedRegister 32 (rowTerms sha256 l v row) =
      (List.ofFn fun col => weight sha256 l row col * v col).foldlM
        (fun acc z => checkSigned 32 (acc + z)) b.toInt := by
    rw [checkedRegister, rowTerms, List.foldlM_cons, zero_add, ← hbias,
      checkSigned_of_natAbs hsmall]
    rfl
  rw [terms_eq hnet hl h row, hb, Option.bind_eq_bind, Option.bind_some,
    foldlM_products (forall_zipIdx hnet hl h row), ← hregister]
  rfl

/-- **A layer of a backend** is a layer over the integers, when its registers have 24 bits. -/
theorem layerOn_eq (hnet : net.Holds sha256) (hl : l < layers) (h : Represents x v)
    {add : ℕ → List ℤ → Option ℤ} (hadd : ∀ row, ExactAdder 24 (add row)) :
    layerOn add net l x = some (nextActivations sha256 l v) := by
  rw [layerOn, nextActivations, ← Option.pure_def, ← Vector.ofFnM_pure]
  congr 1
  funext row
  rw [terms_eq hnet hl h row, Option.bind_eq_bind, Option.bind_some,
    hadd row _ (magnitude_terms_lt sha256 l (natAbs_le_of_represents h) row)]
  rfl

end

/-! ### The hash -/

section

variable (sha256 : Bytes → Hash)

/-- The stretched digest of the input. -/
theorem exists_expandSeed (input : Bytes) :
    ∃ x, expandSeed sha256 (sha256 input) = some x ∧ Represents x (activation sha256 input 0) := by
  obtain ⟨x, hx, hget⟩ := fillTable_eq (n := d) (by norm_num) (0 : Int8)
    (length_seedBlock sha256 (sha256 input))
  refine ⟨x, hx, fun i => ?_⟩
  have hi := hget i i.isLt
  rw [Vector.getElem?_eq_getElem i.isLt] at hi
  show x[(i : ℕ)].toInt = (((seedBlock sha256 (sha256 input) (i / 32))[(i : ℕ) % 32]?).getD 0).toInt
  rw [← hi, Option.getD_some]

/-- Layer after layer, whoever computes them. -/
theorem exists_foldlM_layers (step : Vector Int8 d → ℕ → Option (Vector Int8 d))
    (hstep : ∀ l < layers, ∀ x v, Represents x v → step x l = some (nextActivations sha256 l v))
    (input : Bytes) {x : Vector Int8 d} (hx : Represents x (activation sha256 input 0)) :
    ∀ m ≤ layers, ∃ y, (List.range m).foldlM step x = some y ∧
      Represents y (activation sha256 input m) := by
  intro m
  induction m with
  | zero => exact fun _ => ⟨x, rfl, hx⟩
  | succ m ih =>
    intro hm
    obtain ⟨y, hy, hrep⟩ := ih (by omega)
    refine ⟨nextActivations sha256 m (activation sha256 input m), ?_,
      represents_nextActivations sha256 m _⟩
    rw [List.range_succ, List.foldlM_append, hy]
    simp [hstep m (by omega) y _ hrep]

/-- The bytes that are hashed at the end. -/
theorem map_toUInt8 {x : Vector Int8 d} {v : Fin d → ℤ} (h : Represents x v) :
    x.toList.map Int8.toUInt8 = List.ofFn fun i => (Int8.ofInt (v i)).toUInt8 := by
  refine List.ext_getElem (by simp) fun i hi _ => ?_
  have hlt : i < d := by simpa using hi
  have hx := h ⟨i, hlt⟩
  simp only [Fin.getElem_fin] at hx
  simp [← hx]

/-- **ArkHash is a network over the integers.** The code computes it without an index outside of a
table and without an overflow, and so does every backend that adds the terms of a row in an order of
its own, in registers of at least 24 bits that wrap, saturate or refuse. -/
theorem arkhash_exact (sha256 : Bytes → Hash) (input : Bytes) (add : ℕ → ℕ → List ℤ → Option ℤ)
    (hadd : ∀ l row, ExactAdder 24 (add l row)) :
    arkhash sha256 input = some (networkHash sha256 input) ∧
      arkhashOn add sha256 input = some (networkHash sha256 input) := by
  obtain ⟨net, hbuild, hnet⟩ := exists_buildNet sha256
  obtain ⟨x, hexpand, hx⟩ := exists_expandSeed sha256 input
  -- the code is a backend of its own
  have hcode : ∀ row : ℕ, ExactAdder 24 (checkedRegister 32) := fun _ =>
    (exactAdder_checked 32).mono (by norm_num)
  constructor
  · obtain ⟨y, hfold, hy⟩ := exists_foldlM_layers sha256 (fun x l => int8FcLayer net l x)
      (fun l hl x v h => (int8FcLayer_eq hnet hl h).trans (layerOn_eq hnet hl h hcode)) input hx
      layers le_rfl
    rw [arkhash, hbuild, hexpand]
    simp only [Option.bind_eq_bind, Option.bind_some, hfold, map_toUInt8 hy]
    rfl
  · obtain ⟨y, hfold, hy⟩ := exists_foldlM_layers sha256 (fun x l => layerOn (add l) net l x)
      (fun l hl x v h => layerOn_eq hnet hl h (hadd l)) input hx layers le_rfl
    rw [arkhashOn, hbuild, hexpand]
    simp only [Option.bind_eq_bind, Option.bind_some, hfold, map_toUInt8 hy]
    rfl

end

/-- The registers of an accelerator: the first half of a row saturates, the second half is added up
backwards and wraps. -/
def halves (zs : List ℤ) : Option ℤ := do
  let x ← saturatingRegister 24 (zs.take 128)
  let y ← wrappingRegister 24 (zs.drop 128).reverse
  checkSigned 24 (x + y)

/-- It computes the hash of an empty header. -/
theorem arkhash_exact_halves :
    arkhashOn (fun _ _ => halves) sampleDigest [] = arkhash sampleDigest [] := by
  obtain ⟨hcode, hbackend⟩ := arkhash_exact sampleDigest [] (fun _ _ => halves) fun _ _ =>
    (exactAdder_saturating 24).split
      ((exactAdder_wrapping (by norm_num)).reorder List.reverse_perm) 128
  rw [hcode, hbackend]

end ArkHash

end Arkos
