import Arkos.Blockchain.Consensus
import Arkos.Blockchain.Script
import Arkos.Storage.Db
import Arkos.Transaction.Mempool

/-!
# Validating a transaction, and a block in the context of its ancestors

Everything in this module is a function of a block and of what its ancestors left behind: the
ancestor list, the unspent outputs and the sum of all coinbase values. No chain state appears, so
whatever is proved here holds on every branch.

A block is walked twice. `validateCoinbaseSubsidyWithState` validates every transaction against the
outputs *before* the block and adds up the fees; `validateTransactions` then validates and applies
them one by one. The first walk is why a transaction cannot spend an output of its own block.

## Main definitions

* `TxError`, `validateInput`, `validateTxWithUtxo`
* `coinbaseValue`, `totalFees`, `validateCoinbaseSubsidyWithState`, `validateTransactions`
* `ChainError`, `validateInContext`
* `BlockHeader.validateHeaderOnly`

## Main results

* `validateTxWithUtxo_eq_ok_iff` — what an accepted transaction satisfies
* `validateInContext_eq_ok_iff` — what a block accepted in its context satisfies
-/

namespace Arkos

/-! ### Transactions -/

/-- Why a transaction is rejected. -/
inductive TxError where
  | coinbaseImmature (txHash : String) (index : UInt32)
  | utxoNotFound (txHash : String) (index : UInt32)
  | inputSumOverflow
  | scriptFailed (txHash : String) (index : UInt32) (e : ScriptError)
  | belowDust (value : ℕ)
  | outputSumOverflow
  | outputsExceedInputs
  deriving DecidableEq, Repr

/-- The text of the error. -/
def TxError.message : TxError → String
  | .coinbaseImmature txHash index =>
    "coinbase output " ++ UtxoSet.key txHash index ++ " has not matured (requires " ++
      toString coinbaseMaturity ++ " confirmations)"
  | .utxoNotFound txHash index => "UTXO not found: " ++ UtxoSet.key txHash index
  | .inputSumOverflow => "input sum overflow"
  | .scriptFailed txHash index e =>
    "script evaluation failed for " ++ UtxoSet.key txHash index ++ ": " ++ e.message
  | .belowDust value =>
    "output value " ++ toString value ++ " arkes is below dust limit " ++
      toString dustLimitArkes ++ " arkes"
  | .outputSumOverflow => "output value sum overflow"
  | .outputsExceedInputs => "transaction outputs exceed inputs"

/-- Did a 64-bit sum not fit? -/
def TxError.isOverflow : TxError → Bool
  | .inputSumOverflow | .outputSumOverflow => true
  | _ => false

/-- The block time a time lock is compared with: ten minutes per block, in 64 bits. -/
def approxBlockTime (currentHeight : ℕ) : ℕ := currentHeight * 600 % 2 ^ 64

/-- The exact sum of the output values. -/
def Transaction.outputSum (tx : Transaction) : ℕ := (tx.outputs.map fun o => o.value.toNat).sum

section

variable (C : Crypto)

/-- The body of the loop over the inputs in `validate_tx_with_utxo`. -/
def validateInput (u : UtxoSet) (sigHash : Hash) (currentHeight inputSum : ℕ) (input : TxInput) :
    Except TxError ℕ :=
  if u.isImmatureCoinbase input.prevTxHash currentHeight then
    .error (.coinbaseImmature input.prevTxHash input.prevIndex)
  else
    match u.get input.prevTxHash input.prevIndex with
    | none => .error (.utxoNotFound input.prevTxHash input.prevIndex)
    | some utxo =>
      match checkedAdd 64 inputSum utxo.value.toNat with
      | none => .error .inputSumOverflow
      | some inputSum =>
        match evaluateScript C utxo.effectiveScript input sigHash
          (approxBlockTime currentHeight) with
        | .error e => .error (.scriptFailed input.prevTxHash input.prevIndex e)
        | .ok () => .ok inputSum

/-- The checks on the outputs in `validate_tx_with_utxo`: dust, the sum, and the balance. -/
def validateOutputs (tx : Transaction) (inputSum : ℕ) : Except TxError ℕ :=
  match tx.outputs.find? fun o => decide (o.value.toNat < dustLimitArkes) with
  | some o => .error (.belowDust o.value.toNat)
  | none =>
    match checkedSum 64 (tx.outputs.map fun o => o.value.toNat) with
    | none => .error .outputSumOverflow
    | some outputSum =>
      if inputSum < outputSum then .error .outputsExceedInputs else .ok (inputSum - outputSum)

/-- `validate_tx_with_utxo`: the fee of a valid transaction. -/
def validateTxWithUtxo (tx : Transaction) (u : UtxoSet) (networkMagic : UInt32)
    (currentHeight : ℕ) : Except TxError ℕ :=
  match tx.inputs.foldlM (validateInput C u (tx.sigHash C networkMagic) currentHeight) 0 with
  | .error e => .error e
  | .ok inputSum => validateOutputs tx inputSum

end

variable {C : Crypto}

/-- What the loop asks of one input. -/
structure InputOk (C : Crypto) (u : UtxoSet) (sigHash : Hash) (currentHeight : ℕ) (input : TxInput)
    (utxo : TxOutput) : Prop where
  mature : u.isImmatureCoinbase input.prevTxHash currentHeight = false
  lookup_eq : u.utxos.lookup input.outpoint = some utxo
  script_ok : evaluateScript C utxo.effectiveScript input sigHash (approxBlockTime currentHeight) =
    .ok ()

theorem validateInput_eq_ok_iff {u : UtxoSet} {sigHash : Hash} {h acc t : ℕ} {input : TxInput} :
    validateInput C u sigHash h acc input = .ok t ↔
      ∃ utxo, InputOk C u sigHash h input utxo ∧ acc + utxo.value.toNat = t ∧ t < 2 ^ 64 := by
  rw [validateInput]
  constructor
  · intro hok
    split at hok
    · cases hok
    next hm =>
      split at hok
      · cases hok
      next utxo hget =>
        split at hok
        · cases hok
        next s hs =>
          split at hok
          · cases hok
          next hscript =>
            cases hok
            exact ⟨utxo, ⟨by simpa using hm, hget, hscript⟩, checkedAdd_eq_some_iff.mp hs⟩
  · rintro ⟨utxo, ⟨hm, hget, hscript⟩, hsum⟩
    have hget' : u.get input.prevTxHash input.prevIndex = some utxo := hget
    rw [hm, if_neg (by simp), hget']
    simp only [checkedAdd_eq_some_iff.mpr hsum, hscript]

/-- The value an input brings: that of the output it names, or zero. -/
def UtxoSet.valueAt (u : UtxoSet) (k : String) : ℕ :=
  ((u.utxos.lookup k).map fun o => o.value.toNat).getD 0

theorem UtxoSet.valueAt_of_lookup {u : UtxoSet} {k : String} {o : TxOutput}
    (h : u.utxos.lookup k = some o) : u.valueAt k = o.value.toNat := by
  rw [UtxoSet.valueAt, h]
  rfl

/-- The sum of the values a transaction's inputs name. -/
def Transaction.inputSum (tx : Transaction) (u : UtxoSet) : ℕ :=
  (tx.inputs.map fun i => u.valueAt i.outpoint).sum

theorem foldlM_validateInput_eq_ok_iff {u : UtxoSet} {sigHash : Hash} {h : ℕ}
    (inputs : List TxInput) {acc t : ℕ} (hacc : acc < 2 ^ 64) :
    inputs.foldlM (validateInput C u sigHash h) acc = .ok t ↔
      (∀ i ∈ inputs, ∃ utxo, InputOk C u sigHash h i utxo) ∧
        acc + (inputs.map fun i => u.valueAt i.outpoint).sum = t ∧ t < 2 ^ 64 := by
  induction inputs generalizing acc with
  | nil =>
    simp only [List.foldlM_nil, List.map_nil, List.sum_nil, Nat.add_zero, List.not_mem_nil,
      false_implies, implies_true, true_and]
    constructor
    · intro hok
      cases hok
      exact ⟨rfl, hacc⟩
    · rintro ⟨rfl, -⟩
      rfl
  | cons i inputs ih =>
    rw [List.foldlM_cons, List.map_cons, List.sum_cons, List.forall_mem_cons]
    constructor
    · intro hok
      cases hi : validateInput C u sigHash h acc i with
      | error e =>
        rw [hi] at hok
        cases hok
      | ok s =>
        rw [hi] at hok
        obtain ⟨utxo, hin, rfl, hs⟩ := validateInput_eq_ok_iff.mp hi
        obtain ⟨hall, rfl, ht⟩ := (ih hs).mp hok
        refine ⟨⟨⟨utxo, hin⟩, hall⟩, ?_, ht⟩
        rw [UtxoSet.valueAt_of_lookup hin.lookup_eq]
        omega
    · rintro ⟨⟨⟨utxo, hin⟩, hall⟩, hsum, ht⟩
      rw [UtxoSet.valueAt_of_lookup hin.lookup_eq] at hsum
      have hs : acc + utxo.value.toNat < 2 ^ 64 := by omega
      have hi : validateInput C u sigHash h acc i = .ok (acc + utxo.value.toNat) :=
        validateInput_eq_ok_iff.mpr ⟨utxo, hin, rfl, hs⟩
      rw [hi]
      exact (ih hs).mpr ⟨hall, by omega, ht⟩

theorem validateOutputs_eq_ok_iff {tx : Transaction} {inputSum fee : ℕ}
    (hin : inputSum < 2 ^ 64) :
    validateOutputs tx inputSum = .ok fee ↔
      (∀ o ∈ tx.outputs, dustLimitArkes ≤ o.value.toNat) ∧ fee + tx.outputSum = inputSum := by
  rw [validateOutputs]
  constructor
  · intro hok
    split at hok
    · cases hok
    next hdust =>
      split at hok
      · cases hok
      next outputSum hs =>
        obtain ⟨rfl, -⟩ := checkedSum_eq_some_iff.mp hs
        split at hok
        · cases hok
        next hle =>
          cases hok
          refine ⟨fun o ho => ?_, ?_⟩
          · have := List.find?_eq_none.mp hdust o ho
            simpa using this
          · rw [Transaction.outputSum]
            omega
  · rintro ⟨hdust, rfl⟩
    have hnone : tx.outputs.find? (fun o => decide (o.value.toNat < dustLimitArkes)) = none :=
      List.find?_eq_none.mpr fun o ho => by simpa using hdust o ho
    have hs : checkedSum 64 (tx.outputs.map fun o => o.value.toNat) = some tx.outputSum :=
      checkedSum_eq_some_iff.mpr ⟨rfl, by omega⟩
    simp only [hnone, hs]
    rw [if_neg (by omega), Nat.add_sub_cancel]

/-- What a valid transaction satisfies against a set of unspent outputs. -/
structure TxOk (C : Crypto) (tx : Transaction) (u : UtxoSet) (magic : UInt32) (h fee : ℕ) :
    Prop where
  inputs_ok : ∀ i ∈ tx.inputs, ∃ utxo, InputOk C u (tx.sigHash C magic) h i utxo
  inputSum_lt : tx.inputSum u < 2 ^ 64
  dust : ∀ o ∈ tx.outputs, dustLimitArkes ≤ o.value.toNat
  fee_eq : fee + tx.outputSum = tx.inputSum u

/-- **An accepted transaction names present, mature, unlocked outputs and pays its fee out of
them.** The sum runs over the input list: an output named twice counts twice. -/
theorem validateTxWithUtxo_eq_ok_iff {tx : Transaction} {u : UtxoSet} {magic : UInt32}
    {h fee : ℕ} :
    validateTxWithUtxo C tx u magic h = .ok fee ↔ TxOk C tx u magic h fee := by
  rw [validateTxWithUtxo]
  have hfold : ∀ t, tx.inputs.foldlM (validateInput C u (tx.sigHash C magic) h) 0 = .ok t ↔ _ :=
    fun t => foldlM_validateInput_eq_ok_iff tx.inputs (Nat.two_pow_pos 64)
  constructor
  · intro hok
    split at hok
    · cases hok
    next inputSum hsum =>
      obtain ⟨hall, rfl, hlt⟩ := (hfold inputSum).mp hsum
      obtain ⟨hdust, hfee⟩ := (validateOutputs_eq_ok_iff hlt).mp hok
      exact ⟨hall, by rw [Transaction.inputSum]; omega, hdust, by
        rw [Transaction.inputSum]; omega⟩
  · rintro ⟨hall, hlt, hdust, hfee⟩
    have hsum := (hfold (tx.inputSum u)).mpr ⟨hall, by rw [Transaction.inputSum]; omega, hlt⟩
    rw [hsum]
    exact (validateOutputs_eq_ok_iff hlt).mpr ⟨hdust, hfee⟩

/-- An accepted transaction names outputs that are there. -/
theorem TxOk.mem {tx : Transaction} {u : UtxoSet} {magic : UInt32} {h fee : ℕ}
    (hok : TxOk C tx u magic h fee) {i : TxInput} (hi : i ∈ tx.inputs) : i.outpoint ∈ u.utxos := by
  obtain ⟨utxo, hin⟩ := hok.inputs_ok i hi
  exact Finmap.mem_of_lookup hin.lookup_eq

/-! ### Blocks -/

/-- `MAX_COINBASE_OUTPUTS`. -/
def maxCoinbaseOutputs : ℕ := 16

/-- Why a block, a transaction or a stored chain is refused. -/
inductive ChainError where
  | unknownParent (hash : String)
  | block (e : BlockError)
  | heightMismatch (expected got : ℕ)
  | bitsMismatch (expected got : UInt32)
  | timestampOutOfRange (timestamp : ℕ)
  | tooManyCoinbaseOutputs (count : ℕ)
  | tx (e : TxError)
  | totalFeesOverflow
  | coinbaseExceedsAllowed (minted allowed subsidy fees : ℕ)
  | totalMintedOverflow
  | missingParentWork
  | chainWorkOverflow
  | missingTipWork
  | unknownBlock (hash : String)
  | emptyActivation
  | emptyChain
  | mempool (e : MempoolError)
  | storedTipMissing (hash : String)
  | storedBlockMissing (height : ℕ)
  | store (e : StoreError)
  /-- No text of the source: the walk of `chain_to_hash` runs in a circle and does not return. -/
  | circularAncestry
  /-- No text of the source: the proof-of-work search of a genesis block has not ended yet. -/
  | searchUnfinished
  deriving DecidableEq, Repr

/-- A compact difficulty as eight hexadecimal digits. -/
def bitsHex (bits : UInt32) : String := "0x" ++ hexEncode (beBytes 4 bits.toNat)

/-- The text of the error. -/
def ChainError.message : ChainError → String
  | .unknownParent hash => "unknown parent block " ++ hash
  | .block e => e.message
  | .heightMismatch expected got =>
    "block height mismatch: expected " ++ toString expected ++ ", got " ++ toString got
  | .bitsMismatch expected got =>
    "block difficulty bits mismatch: expected " ++ bitsHex expected ++ ", got " ++ bitsHex got
  | .timestampOutOfRange timestamp =>
    "block timestamp " ++ toString timestamp ++ " is outside the allowed range"
  | .tooManyCoinbaseOutputs count =>
    "coinbase has " ++ toString count ++ " outputs, exceeding limit of " ++
      toString maxCoinbaseOutputs
  | .tx e => e.message
  | .totalFeesOverflow => "total fees overflow"
  | .coinbaseExceedsAllowed minted allowed subsidy fees =>
    "coinbase value " ++ toString minted ++ " exceeds allowed reward " ++ toString allowed ++
      " (subsidy " ++ toString subsidy ++ " + fees " ++ toString fees ++ ")"
  | .totalMintedOverflow => "total minted supply overflow"
  | .missingParentWork => "missing parent chain work"
  | .chainWorkOverflow => "chain work overflow"
  | .missingTipWork => "missing tip chain work"
  | .unknownBlock hash => "unknown block " ++ hash
  | .emptyActivation => "cannot activate an empty chain"
  | .emptyChain => "cannot load an empty chain"
  | .mempool e => e.message
  | .storedTipMissing hash => "stored tip block " ++ hash ++ " is missing"
  | .storedBlockMissing height => "stored block at height " ++ toString height ++ " is missing"
  | .store e => e.message
  | .circularAncestry => ""
  | .searchUnfinished => ""

/-! ### A header on its own -/

/-- Why a header is not accepted before its block is there. -/
inductive HeaderError where
  | prevHashMismatch
  | bitsMismatch (bits expected : UInt32)
  | targetNotMet
  deriving DecidableEq, Repr

/-- The text of the error. -/
def HeaderError.message : HeaderError → String
  | .prevHashMismatch => "header prev_hash mismatch"
  | .bitsMismatch bits expected =>
    "header bits " ++ bitsHex bits ++ " does not match expected " ++ bitsHex expected
  | .targetNotMet => "header hash does not meet difficulty target"

/-- `BlockHeader::validate_header_only`: without expected bits the difficulty goes unchecked. -/
def BlockHeader.validateHeaderOnly (C : Crypto) (h : BlockHeader) (prevHash : String)
    (expectedBits : Option UInt32) : Except HeaderError Unit :=
  if h.prevHash ≠ prevHash then .error .prevHashMismatch
  else
    match expectedBits.filter (h.bits ≠ ·) with
    | some expected => .error (.bitsMismatch h.bits expected)
    | none => if h.meetsTarget C = false then .error .targetNotMet else .ok ()

theorem BlockHeader.validateHeaderOnly_none {C : Crypto} {h : BlockHeader} {prevHash : String} :
    h.validateHeaderOnly C prevHash none = .ok () ↔
      h.prevHash = prevHash ∧ h.meetsTarget C = true := by
  rw [validateHeaderOnly]
  by_cases hprev : h.prevHash = prevHash
  · cases hmeets : h.meetsTarget C <;> simp [hprev]
  · simp [hprev]

/-- Did a sum of values, fees or work not fit its word? -/
def ChainError.isOverflow : ChainError → Bool
  | .tx e => e.isOverflow
  | .totalFeesOverflow | .totalMintedOverflow | .chainWorkOverflow => true
  | _ => false

/-- `coinbase_value`: the sum of the first transaction's outputs, or the largest word. -/
def coinbaseValue (b : Block) : ℕ :=
  match b.transactions with
  | [] => 0
  | tx :: _ => (checkedSum 64 (tx.outputs.map fun o => o.value.toNat)).getD (2 ^ 64 - 1)

theorem coinbaseValue_lt (b : Block) : coinbaseValue b < 2 ^ 64 := by
  rw [coinbaseValue]
  split
  · exact Nat.two_pow_pos 64
  · next tx _ _ =>
    cases hs : checkedSum 64 (tx.outputs.map fun o => o.value.toNat) with
    | none => exact Nat.sub_lt (Nat.two_pow_pos 64) Nat.one_pos
    | some t => exact (checkedSum_eq_some_iff.mp hs).2

section

variable (C : Crypto)

/-- The body of the fee loop: every transaction is validated against the same outputs. -/
def addFee (u : UtxoSet) (magic : UInt32) (h acc : ℕ) (tx : Transaction) : Except ChainError ℕ :=
  match validateTxWithUtxo C tx u magic h with
  | .error e => .error (.tx e)
  | .ok fee =>
    match checkedAdd 64 acc fee with
    | none => .error .totalFeesOverflow
    | some acc => .ok acc

/-- The fee loop of `validate_coinbase_subsidy_with_state`. -/
def totalFees (u : UtxoSet) (magic : UInt32) (h : ℕ) (txs : List Transaction) :
    Except ChainError ℕ :=
  txs.foldlM (addFee C u magic h) 0

/-- What a coinbase may claim beyond the fees. -/
def cappedReward (height totalMinted : ℕ) : ℕ :=
  min (Block.blockReward height) (maxSupplyArkes - totalMinted)

/-- `validate_coinbase_subsidy_with_state`. -/
def validateCoinbaseSubsidyWithState (magic : UInt32) (b : Block) (totalMinted : ℕ) (u : UtxoSet) :
    Except ChainError Unit :=
  let coinbaseOutputs := (b.transactions.head?.map fun tx => tx.outputs.length).getD 0
  if maxCoinbaseOutputs < coinbaseOutputs then .error (.tooManyCoinbaseOutputs coinbaseOutputs)
  else
    match totalFees C u magic b.height b.transactions.tail with
    | .error e => .error e
    | .ok fees =>
      let subsidy := cappedReward b.height totalMinted
      let allowed := saturatingAdd 64 subsidy fees
      if allowed < coinbaseValue b then
        .error (.coinbaseExceedsAllowed (coinbaseValue b) allowed subsidy fees)
      else .ok ()

/-- The body of the second loop of `validate_block_against_parent`: validate, then apply. -/
def applyValid (magic : UInt32) (h : ℕ) (u : UtxoSet) (tx : Transaction) :
    Except ChainError UtxoSet :=
  match validateTxWithUtxo C tx u magic h with
  | .error e => .error (.tx e)
  | .ok _ => .ok (u.applyTransaction C tx)

/-- The second loop of `validate_block_against_parent`. -/
def validateTransactions (magic : UInt32) (h : ℕ) (u : UtxoSet) (txs : List Transaction) :
    Except ChainError UtxoSet :=
  txs.foldlM (applyValid C magic h) u

/-- `validate_block_against_parent` once the context of the parent is there: difficulty, timestamp,
coinbase, transactions. -/
def validateInContext (magic : UInt32) (now : ℕ) (parentChain : List Block) (u : UtxoSet)
    (totalMinted : ℕ) (b : Block) : Except ChainError Unit :=
  if b.header.bits ≠ nextBitsForBlocks parentChain then
    .error (.bitsMismatch (nextBitsForBlocks parentChain) b.header.bits)
  else if validateTimestamp b.header.timestamp.toNat
    (medianPastTimeForBlocks parentChain) now = false
  then .error (.timestampOutOfRange b.header.timestamp.toNat)
  else
    match validateCoinbaseSubsidyWithState C magic b totalMinted u with
    | .error e => .error e
    | .ok () =>
      match validateTransactions C magic b.height u b.transactions.tail with
      | .error e => .error e
      | .ok _ => .ok ()

end

/-- The two loops stripped to what they ask: each transaction is valid against `u`, and the fees are
`fees`. -/
inductive FeesOf (C : Crypto) (u : UtxoSet) (magic : UInt32) (h : ℕ) :
    List Transaction → List ℕ → Prop
  | nil : FeesOf C u magic h [] []
  | cons {tx txs fee fees} : TxOk C tx u magic h fee → FeesOf C u magic h txs fees →
      FeesOf C u magic h (tx :: txs) (fee :: fees)

theorem addFee_eq_ok_iff {u : UtxoSet} {magic : UInt32} {h acc t : ℕ} {tx : Transaction} :
    addFee C u magic h acc tx = .ok t ↔
      ∃ fee, TxOk C tx u magic h fee ∧ acc + fee = t ∧ t < 2 ^ 64 := by
  rw [addFee]
  constructor
  · intro hok
    split at hok
    · cases hok
    next fee hfee =>
      split at hok
      · cases hok
      next s hs =>
        cases hok
        exact ⟨fee, validateTxWithUtxo_eq_ok_iff.mp hfee, checkedAdd_eq_some_iff.mp hs⟩
  · rintro ⟨fee, htx, hsum⟩
    rw [validateTxWithUtxo_eq_ok_iff.mpr htx]
    simp only [checkedAdd_eq_some_iff.mpr hsum]

theorem foldlM_addFee_eq_ok_iff {u : UtxoSet} {magic : UInt32} {h : ℕ} (txs : List Transaction)
    {acc t : ℕ} (hacc : acc < 2 ^ 64) :
    txs.foldlM (addFee C u magic h) acc = .ok t ↔
      ∃ fees, FeesOf C u magic h txs fees ∧ acc + fees.sum = t ∧ t < 2 ^ 64 := by
  induction txs generalizing acc with
  | nil =>
    constructor
    · intro hok
      cases hok
      exact ⟨[], .nil, rfl, hacc⟩
    · rintro ⟨fees, ⟨⟩, rfl, -⟩
      rfl
  | cons tx txs ih =>
    rw [List.foldlM_cons]
    constructor
    · intro hok
      cases hs : addFee C u magic h acc tx with
      | error e =>
        rw [hs] at hok
        cases hok
      | ok s =>
        rw [hs] at hok
        obtain ⟨fee, htx, rfl, hlt⟩ := addFee_eq_ok_iff.mp hs
        obtain ⟨fees, hf, rfl, ht⟩ := (ih hlt).mp hok
        exact ⟨fee :: fees, .cons htx hf, by rw [List.sum_cons]; omega, ht⟩
    · rintro ⟨_, hfees, hsum, ht⟩
      cases hfees with
      | @cons _ _ fee fees htx hrest =>
        rw [List.sum_cons] at hsum
        have hlt : acc + fee < 2 ^ 64 := by omega
        have hs : addFee C u magic h acc tx = .ok (acc + fee) :=
          addFee_eq_ok_iff.mpr ⟨fee, htx, rfl, hlt⟩
        rw [hs]
        exact (ih hlt).mpr ⟨fees, hrest, by omega, ht⟩

theorem totalFees_eq_ok_iff {u : UtxoSet} {magic : UInt32} {h : ℕ} {txs : List Transaction}
    {t : ℕ} :
    totalFees C u magic h txs = .ok t ↔
      ∃ fees, FeesOf C u magic h txs fees ∧ fees.sum = t ∧ t < 2 ^ 64 := by
  rw [totalFees, foldlM_addFee_eq_ok_iff txs (Nat.two_pow_pos 64)]
  simp only [Nat.zero_add]

/-- Each transaction is valid against the outputs the ones before it left. -/
inductive TxsOk (C : Crypto) (magic : UInt32) (h : ℕ) :
    UtxoSet → List Transaction → UtxoSet → Prop
  | nil {u} : TxsOk C magic h u [] u
  | cons {u tx txs u' fee} : TxOk C tx u magic h fee →
      TxsOk C magic h (u.applyTransaction C tx) txs u' → TxsOk C magic h u (tx :: txs) u'

theorem applyValid_eq_ok_iff {magic : UInt32} {h : ℕ} {u u' : UtxoSet} {tx : Transaction} :
    applyValid C magic h u tx = .ok u' ↔
      u' = u.applyTransaction C tx ∧ ∃ fee, TxOk C tx u magic h fee := by
  rw [applyValid]
  constructor
  · intro hok
    split at hok
    · cases hok
    next fee hfee =>
      cases hok
      exact ⟨rfl, fee, validateTxWithUtxo_eq_ok_iff.mp hfee⟩
  · rintro ⟨rfl, fee, htx⟩
    rw [validateTxWithUtxo_eq_ok_iff.mpr htx]

theorem validateTransactions_eq_ok_iff {magic : UInt32} {h : ℕ} {u u' : UtxoSet}
    {txs : List Transaction} :
    validateTransactions C magic h u txs = .ok u' ↔ TxsOk C magic h u txs u' := by
  rw [validateTransactions]
  induction txs generalizing u with
  | nil =>
    constructor
    · intro hok
      cases hok
      exact .nil
    · rintro ⟨⟩
      rfl
  | cons tx txs ih =>
    rw [List.foldlM_cons]
    constructor
    · intro hok
      cases hs : applyValid C magic h u tx with
      | error e =>
        rw [hs] at hok
        cases hok
      | ok s =>
        rw [hs] at hok
        obtain ⟨rfl, fee, htx⟩ := applyValid_eq_ok_iff.mp hs
        exact .cons htx (ih.mp hok)
    · rintro (_ | ⟨htx, hrest⟩)
      rw [applyValid_eq_ok_iff.mpr ⟨rfl, _, htx⟩]
      exact ih.mpr hrest

/-- What a block satisfies in the context its ancestors left. -/
structure ContextOk (C : Crypto) (magic : UInt32) (now : ℕ) (parentChain : List Block)
    (u : UtxoSet) (totalMinted : ℕ) (b : Block) : Prop where
  bits_eq : b.header.bits = nextBitsForBlocks parentChain
  median_lt : medianPastTimeForBlocks parentChain < b.header.timestamp.toNat
  timestamp_le : b.header.timestamp.toNat ≤ now + 7200
  coinbaseOutputs_le : (b.transactions.head?.map fun tx => tx.outputs.length).getD 0 ≤
    maxCoinbaseOutputs
  subsidy_ok : ∃ fees, FeesOf C u magic b.height b.transactions.tail fees ∧ fees.sum < 2 ^ 64 ∧
    coinbaseValue b ≤ saturatingAdd 64 (cappedReward b.height totalMinted) fees.sum
  txs_ok : ∃ u', TxsOk C magic b.height u b.transactions.tail u'

theorem validateCoinbaseSubsidyWithState_eq_ok_iff {magic : UInt32} {b : Block} {m : ℕ}
    {u : UtxoSet} :
    validateCoinbaseSubsidyWithState C magic b m u = .ok () ↔
      (b.transactions.head?.map fun tx => tx.outputs.length).getD 0 ≤ maxCoinbaseOutputs ∧
        ∃ fees, FeesOf C u magic b.height b.transactions.tail fees ∧ fees.sum < 2 ^ 64 ∧
          coinbaseValue b ≤ saturatingAdd 64 (cappedReward b.height m) fees.sum := by
  rw [validateCoinbaseSubsidyWithState]
  dsimp only
  constructor
  · intro hok
    split at hok
    · cases hok
    next hout =>
      split at hok
      · cases hok
      next t ht =>
        split at hok
        · cases hok
        next hle =>
          obtain ⟨fees, hf, rfl, hlt⟩ := totalFees_eq_ok_iff.mp ht
          exact ⟨Nat.not_lt.mp hout, fees, hf, hlt, Nat.not_lt.mp hle⟩
  · rintro ⟨hout, fees, hf, hlt, hle⟩
    have ht := totalFees_eq_ok_iff.mpr ⟨fees, hf, rfl, hlt⟩
    rw [if_neg (Nat.not_lt.mpr hout), ht]
    exact if_neg (Nat.not_lt.mpr hle)

theorem validateInContext_eq_ok_iff {magic : UInt32} {now : ℕ} {bs : List Block} {u : UtxoSet}
    {m : ℕ} {b : Block} :
    validateInContext C magic now bs u m b = .ok () ↔ ContextOk C magic now bs u m b := by
  rw [validateInContext]
  constructor
  · intro hok
    split at hok
    · cases hok
    next hbits =>
      split at hok
      · cases hok
      next hts =>
        split at hok
        · cases hok
        next hsub =>
          split at hok
          · cases hok
          next u' hu =>
            obtain ⟨hmed, hle⟩ := validateTimestamp_iff.mp (by simpa using hts)
            obtain ⟨hout, hfees⟩ := validateCoinbaseSubsidyWithState_eq_ok_iff.mp hsub
            exact ⟨not_not.mp hbits, hmed, hle, hout, hfees, u',
              validateTransactions_eq_ok_iff.mp hu⟩
  · rintro ⟨hbits, hmed, hle, hout, hfees, u', hu⟩
    have hts := validateTimestamp_iff.mpr ⟨hmed, hle⟩
    rw [if_neg (not_not.mpr hbits), hts, if_neg (by simp),
      validateCoinbaseSubsidyWithState_eq_ok_iff.mpr ⟨hout, hfees⟩]
    dsimp only
    rw [validateTransactions_eq_ok_iff.mpr hu]

end Arkos
