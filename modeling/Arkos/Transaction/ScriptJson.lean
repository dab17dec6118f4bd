import Arkos.Lib.PrefixCode
import Arkos.Transaction.Tx

/-!
# The JSON of a script can be read in one way only

`Script.toBytes` is compact JSON: no blanks, members in a fixed order, numbers in decimal. A number
ends at the comma or bracket behind it and everything else at a bracket or quote of its own, so the
text of a script is a prefix code. It is injective in particular, and a list of scripts written one
after the other could be read back even without the lengths `sig_hash` puts before them.

## Main definitions

* `readEscape` — one byte of a JSON string, read back

## Main results

* `prefixCode_jsonString`, `delimitedBy_jsonNat`, `prefixCode_jsonArray`
* `Script.prefixCode_toBytes`, `Script.toBytes_injective`
-/

namespace Arkos

/-! ### Strings -/

/-- What stands behind a backslash. -/
def readEscaped : Bytes → Option (UInt8 × Bytes)
  | [] => none
  | c :: rest =>
    if c = 34 then some (34, rest)
    else if c = 92 then some (92, rest)
    else if c = 98 then some (8, rest)
    else if c = 116 then some (9, rest)
    else if c = 110 then some (10, rest)
    else if c = 102 then some (12, rest)
    else if c = 114 then some (13, rest)
    else
      match rest with
      | _ :: _ :: hi :: lo :: rest => do
        let hi ← hexValue hi
        let lo ← hexValue lo
        return (UInt8.ofNat (hi * 16 + lo), rest)
      | _ => none

/-- One byte of a JSON string, and what is behind it. -/
def readEscape : Bytes → Option (UInt8 × Bytes)
  | [] => none
  | b :: rest => if b = 92 then readEscaped rest else some (b, rest)

theorem readEscape_jsonEscape (b : UInt8) (r : Bytes) :
    readEscape (jsonEscape b ++ r) = some (b, r) := by
  rw [jsonEscape]
  split_ifs with h₁ h₂ h₃ h₄ h₅ h₆ h₇ h₈
  · rw [h₁]; rfl
  · rw [h₂]; rfl
  · rw [h₃]; rfl
  · rw [h₄]; rfl
  · rw [h₅]; rfl
  · rw [h₆]; rfl
  · rw [h₇]; rfl
  · have hb := b.toNat_lt
    obtain ⟨c, hc, hcv⟩ := utf8EncodeChar_hexDigit (n := b.toNat / 16) (by omega)
    obtain ⟨d, hd, hdv⟩ := utf8EncodeChar_hexDigit (n := b.toNat % 16) (by omega)
    have hhex : utf8 (hexEncode [b]) = [c, d] := by
      rw [hexEncode, utf8_ofList]
      simp [hexChars, hc, hd]
    have hopen : utf8 "\\u00" = [92, 117, 48, 48] := rfl
    rw [hhex, hopen]
    show readEscaped (117 :: 48 :: 48 :: c :: d :: r) = _
    simp only [readEscaped, hcv, hdv, Option.bind_eq_bind, Option.bind_some, Nat.div_add_mod',
      UInt8.ofNat_toNat]
    rfl
  · show (if b = 92 then readEscaped r else some (b, r)) = _
    rw [if_neg h₂]

theorem prefixCode_jsonEscape : PrefixCode jsonEscape :=
  prefixCode_of_reader readEscape readEscape_jsonEscape

/-- No byte is written with a quote in front. -/
theorem exists_jsonEscape (b : UInt8) : ∃ c t, jsonEscape b = c :: t ∧ c ≠ 34 := by
  rw [jsonEscape]
  split_ifs with hquote
  all_goals first
    | exact ⟨92, _, rfl, by decide⟩
    | exact ⟨b, [], rfl, hquote⟩

theorem prefixCode_jsonString : PrefixCode jsonString := by
  intro s t r r' h
  have hquote : utf8 "\"" = [34] := rfl
  simp only [jsonString, hquote, List.append_assoc, List.cons_append, List.nil_append,
    List.cons.injEq, true_and] at h
  obtain ⟨hst, hrest⟩ := prefixCode_jsonEscape.flatMap_stop_inj exists_jsonEscape h
  exact ⟨utf8_injective hst, hrest⟩

/-! ### Numbers and arrays -/

/-- A comma or a closing bracket. -/
def IsStop (c : UInt8) : Prop := c = 44 ∨ c = 93

/-- An ASCII digit. -/
def IsAsciiDigit (c : UInt8) : Prop := 48 ≤ c.toNat ∧ c.toNat ≤ 57

theorem utf8EncodeChar_digit {c : Char} (h : c.isDigit = true) :
    ∃ b, String.utf8EncodeChar c = [b] ∧ IsAsciiDigit b := by
  obtain ⟨n, hn, rfl⟩ : ∃ n < 10, c = Char.ofNat (48 + n) := by
    simp only [Char.isDigit, Bool.and_eq_true, decide_eq_true_eq] at h
    refine ⟨c.toNat - 48, ?_, ?_⟩
    · have h2 : c.val.toNat ≤ 57 := UInt32.le_iff_toNat_le.mp h.2
      have : c.toNat = c.val.toNat := rfl
      omega
    · have h1 : 48 ≤ c.val.toNat := UInt32.le_iff_toNat_le.mp h.1
      have : c.toNat = c.val.toNat := rfl
      rw [show 48 + (c.toNat - 48) = c.toNat by omega, Char.ofNat_toNat]
  interval_cases n <;> exact ⟨_, rfl, by unfold IsAsciiDigit; decide⟩

theorem isAsciiDigit_of_mem_jsonNat {n : ℕ} {b : UInt8} (h : b ∈ jsonNat n) : IsAsciiDigit b := by
  rw [jsonNat, Nat.toString_eq_ofList_toDigits, utf8_ofList] at h
  obtain ⟨c, hc, hb⟩ := List.mem_flatMap.mp h
  obtain ⟨d, hd, hdigit⟩ := utf8EncodeChar_digit
    (Nat.isDigit_of_mem_toDigits (by decide) (by decide) hc)
  rw [hd, List.mem_singleton] at hb
  exact hb ▸ hdigit

theorem delimitedBy_jsonNat : DelimitedBy IsStop jsonNat := by
  refine delimitedBy_of_forall (fun m n h => decimal_injective (utf8_injective h))
    (fun n b hb => isAsciiDigit_of_mem_jsonNat hb) fun c hc hdigit => ?_
  rcases hc with rfl | rfl
  · exact absurd hdigit (by unfold IsAsciiDigit; decide)
  · exact absurd hdigit (by unfold IsAsciiDigit; decide)

theorem exists_jsonNat (n : ℕ) : ∃ b t, jsonNat n = b :: t ∧ b ≠ 93 := by
  cases hn : jsonNat n with
  | nil =>
    have hempty : toString n = "" := utf8_injective hn
    rw [Nat.toString_eq_ofList_toDigits, ← String.toList_inj, String.toList_ofList] at hempty
    exact absurd hempty Nat.toDigits_ne_nil
  | cons b t =>
    refine ⟨b, t, rfl, ?_⟩
    rintro rfl
    exact absurd (isAsciiDigit_of_mem_jsonNat (hn ▸ List.mem_cons_self))
      (by unfold IsAsciiDigit; decide)

/-- An array is closed by a bracket that none of its elements begins with. -/
theorem prefixCode_jsonArray {α : Type*} {enc : α → Bytes} (h : DelimitedBy IsStop enc)
    (hne : ∀ x, ∃ b t, enc x = b :: t ∧ b ≠ 93) :
    PrefixCode fun xs : List α => jsonArray (xs.map enc) := by
  intro xs ys r s he
  have hopen : utf8 "[" = [91] := rfl
  have hsep : utf8 "," = [44] := rfl
  have hclose : utf8 "]" = [93] := rfl
  simp only [jsonArray, hopen, hsep, hclose, List.append_assoc, List.cons_append, List.nil_append,
    List.cons.injEq, true_and] at he
  exact DelimitedBy.intercalate_inj (by decide) h hne he

/-- A byte string as an array of numbers. -/
theorem prefixCode_jsonBytes :
    PrefixCode fun bs : Bytes => jsonArray (bs.map fun b => jsonNat b.toNat) := by
  refine prefixCode_jsonArray (fun x y c d r s hc hd h => ?_) fun b => exists_jsonNat b.toNat
  obtain ⟨hxy, hrest⟩ := delimitedBy_jsonNat hc hd h
  exact ⟨UInt8.toNat_inj.mp hxy, hrest⟩

/-! ### Keys and scripts -/

theorem HybridPublicKey.toJson_eq (k : HybridPublicKey) :
    k.toJson = (utf8 "\x7b" ++ jsonString "ecdsa_pubkey" ++ utf8 ":") ++
      (jsonArray (k.ecdsaPubkey.map fun b => jsonNat b.toNat) ++
        ((utf8 "," ++ jsonString "dilithium_pubkey" ++ utf8 ":") ++
          (jsonArray (k.dilithiumPubkey.map fun b => jsonNat b.toNat) ++ utf8 "\x7d"))) := by
  simp [HybridPublicKey.toJson, jsonObject, List.intercalate]

theorem HybridPublicKey.prefixCode_toJson : PrefixCode HybridPublicKey.toJson := by
  rintro ⟨e, d⟩ ⟨e', d'⟩ r s h
  simp only [HybridPublicKey.toJson_eq] at h
  simp only [List.append_assoc, List.append_cancel_left_eq] at h
  obtain ⟨rfl, h₁⟩ := prefixCode_jsonBytes h
  simp only [List.append_cancel_left_eq] at h₁
  obtain ⟨rfl, h₂⟩ := prefixCode_jsonBytes h₁
  exact ⟨rfl, List.append_cancel_left h₂⟩

/-- The text of a script in front of its first field. -/
def Script.opening : Script → Bytes
  | .p2pkh _ =>
    utf8 "\x7b" ++ jsonString "P2PKH" ++ utf8 ":\x7b" ++ jsonString "address" ++ utf8 ":"
  | .p2ms _ _ => utf8 "\x7b" ++ jsonString "P2MS" ++ utf8 ":\x7b" ++ jsonString "m" ++ utf8 ":"
  | .timeLocked _ _ =>
    utf8 "\x7b" ++ jsonString "TimeLocked" ++ utf8 ":\x7b" ++ jsonString "lock_until" ++ utf8 ":"

theorem Script.toBytes_p2pkh (a : String) :
    (Script.p2pkh a).toBytes = (Script.p2pkh a).opening ++ (jsonString a ++ utf8 "\x7d\x7d") := by
  have hopen : utf8 ":\x7b" = utf8 ":" ++ utf8 "\x7b" := rfl
  have hclose : utf8 "\x7d\x7d" = utf8 "\x7d" ++ utf8 "\x7d" := rfl
  simp [Script.toBytes, Script.opening, jsonObject, List.intercalate, hopen, hclose]

theorem Script.toBytes_p2ms (m : UInt8) (ks : List HybridPublicKey) :
    (Script.p2ms m ks).toBytes = (Script.p2ms m ks).opening ++ (jsonNat m.toNat ++
      44 :: ((jsonString "pubkeys" ++ utf8 ":") ++
        (jsonArray (ks.map HybridPublicKey.toJson) ++ utf8 "\x7d\x7d"))) := by
  have hopen : utf8 ":\x7b" = utf8 ":" ++ utf8 "\x7b" := rfl
  have hclose : utf8 "\x7d\x7d" = utf8 "\x7d" ++ utf8 "\x7d" := rfl
  have hsep : utf8 "," = [44] := rfl
  simp [Script.toBytes, Script.opening, jsonObject, List.intercalate, hopen, hclose, hsep]

theorem Script.toBytes_timeLocked (l : UInt64) (inner : Script) :
    (Script.timeLocked l inner).toBytes = (Script.timeLocked l inner).opening ++ (jsonNat l.toNat ++
      44 :: ((jsonString "inner" ++ utf8 ":") ++ (inner.toBytes ++ utf8 "\x7d\x7d"))) := by
  have hopen : utf8 ":\x7b" = utf8 ":" ++ utf8 "\x7b" := rfl
  have hclose : utf8 "\x7d\x7d" = utf8 "\x7d" ++ utf8 "\x7d" := rfl
  have hsep : utf8 "," = [44] := rfl
  simp [Script.toBytes, Script.opening, jsonObject, List.intercalate, hopen, hclose, hsep]

theorem Script.exists_toBytes_eq (x : Script) : ∃ rest, x.toBytes = x.opening ++ rest := by
  cases x with
  | p2pkh a => exact ⟨_, Script.toBytes_p2pkh a⟩
  | p2ms m ks => exact ⟨_, Script.toBytes_p2ms m ks⟩
  | timeLocked l inner => exact ⟨_, Script.toBytes_timeLocked l inner⟩

/-- The position of the variant. -/
def Script.variant : Script → ℕ
  | .p2pkh _ => 0
  | .p2ms _ _ => 1
  | .timeLocked _ _ => 2

/-- The five characters at the front tell the variants apart. -/
theorem Script.variant_eq {x y : Script} {r s : Bytes} (h : x.toBytes ++ r = y.toBytes ++ s) :
    x.variant = y.variant := by
  have hlen : ∀ x : Script, 5 ≤ x.opening.length := by
    rintro (_ | _ | _) <;> simp only [Script.opening] <;> decide +kernel
  obtain ⟨rest, hx⟩ := x.exists_toBytes_eq
  obtain ⟨rest', hy⟩ := y.exists_toBytes_eq
  rw [hx, hy, List.append_assoc, List.append_assoc] at h
  have htake := congrArg (List.take 5) h
  rw [List.take_append_of_le_length (hlen x), List.take_append_of_le_length (hlen y)] at htake
  revert htake
  cases x <;> cases y <;> simp only [Script.opening, Script.variant] <;> decide +kernel

/-- **The JSON of a script is a prefix code.** -/
theorem Script.prefixCode_toBytes : PrefixCode Script.toBytes := by
  intro x
  induction x with
  | p2pkh a =>
    rintro (b | ⟨m, ks⟩ | ⟨l, i⟩) r s h
    · simp only [Script.toBytes_p2pkh, Script.opening, List.append_assoc,
        List.append_cancel_left_eq] at h
      obtain ⟨rfl, hrest⟩ := prefixCode_jsonString h
      exact ⟨rfl, List.append_cancel_left hrest⟩
    · exact absurd (Script.variant_eq h) (by simp [Script.variant])
    · exact absurd (Script.variant_eq h) (by simp [Script.variant])
  | p2ms m ks =>
    rintro (b | ⟨m', ks'⟩ | ⟨l, i⟩) r s h
    · exact absurd (Script.variant_eq h) (by simp [Script.variant])
    · simp only [Script.toBytes_p2ms, Script.opening, List.append_assoc, List.cons_append,
        List.append_cancel_left_eq] at h
      obtain ⟨hm, hrest⟩ := delimitedBy_jsonNat (Or.inl rfl) (Or.inl rfl) h
      simp only [List.cons.injEq, true_and, List.append_cancel_left_eq] at hrest
      obtain ⟨rfl, hend⟩ := prefixCode_jsonArray (HybridPublicKey.prefixCode_toJson.delimitedBy _)
        (fun k => ⟨123, _, rfl, by decide⟩) hrest
      exact ⟨by rw [UInt8.toNat_inj.mp hm], List.append_cancel_left hend⟩
    · exact absurd (Script.variant_eq h) (by simp [Script.variant])
  | timeLocked l i ih =>
    rintro (b | ⟨m, ks⟩ | ⟨l', i'⟩) r s h
    · exact absurd (Script.variant_eq h) (by simp [Script.variant])
    · exact absurd (Script.variant_eq h) (by simp [Script.variant])
    · simp only [Script.toBytes_timeLocked, Script.opening, List.append_assoc, List.cons_append,
        List.append_cancel_left_eq] at h
      obtain ⟨hl, hrest⟩ := delimitedBy_jsonNat (Or.inl rfl) (Or.inl rfl) h
      simp only [List.cons.injEq, true_and, List.append_cancel_left_eq] at hrest
      obtain ⟨rfl, hend⟩ := ih hrest
      exact ⟨by rw [UInt64.toNat_inj.mp hl], List.append_cancel_left hend⟩

theorem Script.toBytes_injective : Function.Injective Script.toBytes :=
  Script.prefixCode_toBytes.injective

end Arkos
