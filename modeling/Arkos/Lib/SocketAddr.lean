import Mathlib.Data.UInt
import Mathlib.Data.List.Basic

/-!
# Socket addresses

The textual form of a socket address, read and written the way `core::net` does: an IPv4 address and
a port, or an IPv6 address in brackets with an optional scope and a port. A reader takes the front
of the text and hands back the rest; one that fails takes nothing.

A number has a bound on its digits or on its value, and a decimal octet has no leading zero. An
IPv6 address is a run of groups, the whole eight of them or two runs around `::`, and the last two
groups of a run may be written as an IPv4 address.

## Main definitions

* `SocketAddr`, `SocketAddr.parse`, `SocketAddr.display`

## Main results

* `SocketAddr.parse_v4` — what is written with four decimal octets and a decimal port
-/

/-- `SocketAddr`. -/
inductive SocketAddr where
  | v4 (octets : List UInt8) (port : UInt16)
  | v6 (segments : List UInt16) (scopeId : UInt32) (port : UInt16)
  deriving DecidableEq, Repr

namespace SocketAddr

/-- `char::to_digit`. -/
def toDigit (radix : ℕ) (c : Char) : Option ℕ :=
  let digit :=
    if '0' ≤ c ∧ c ≤ '9' then c.toNat - '0'.toNat
    else if 'a' ≤ c ∧ c ≤ 'z' then c.toNat - 'a'.toNat + 10
    else if 'A' ≤ c ∧ c ≤ 'Z' then c.toNat - 'A'.toNat + 10
    else radix
  if digit < radix then some digit else none

/-- The digits at the front of a text, and what follows them. -/
def readDigits (radix : ℕ) : List Char → List ℕ × List Char
  | [] => ([], [])
  | c :: cs =>
    match toDigit radix c with
    | none => ([], c :: cs)
    | some digit => (digit :: (readDigits radix cs).1, (readDigits radix cs).2)

/-- `read_number` for an unsigned number below `bound`. -/
def readNumber (radix bound : ℕ) (maxDigits : Option ℕ) (allowZeroPrefix : Bool) (cs : List Char) :
    Option (ℕ × List Char) :=
  let digits := (readDigits radix cs).1
  let number := digits.foldl (fun n digit => n * radix + digit) 0
  if digits = [] then none
  else if maxDigits.any (· < digits.length) then none
  else if allowZeroPrefix = false ∧ cs.head? = some '0' ∧ 1 < digits.length then none
  else if number < bound then some (number, (readDigits radix cs).2)
  else none

/-- `read_given_char`. -/
def readGivenChar (c : Char) : List Char → Option (List Char)
  | [] => none
  | c' :: cs => if c' = c then some cs else none

/-- `read_separator`: the separator stands before every part but the first. -/
def readSeparator {α : Type} (sep : Char) (first : Bool)
    (inner : List Char → Option (α × List Char)) (cs : List Char) : Option (α × List Char) :=
  if first then inner cs else (readGivenChar sep cs).bind inner

/-- One octet of an IPv4 address. -/
def readOctet (first : Bool) (cs : List Char) : Option (UInt8 × List Char) :=
  (readSeparator '.' first (readNumber 10 256 (some 3) false) cs).map fun r =>
    (UInt8.ofNat r.1, r.2)

/-- `read_ipv4_addr`. -/
def readIpv4Addr (cs : List Char) : Option ((UInt8 × UInt8 × UInt8 × UInt8) × List Char) := do
  let (one, cs) ← readOctet true cs
  let (two, cs) ← readOctet false cs
  let (three, cs) ← readOctet false cs
  let (four, cs) ← readOctet false cs
  return ((one, two, three, four), cs)

/-- `u16::from_be_bytes`. -/
def ofOctets (hi lo : UInt8) : UInt16 := UInt16.ofNat (hi.toNat * 256 + lo.toNat)

/-- `read_groups` with the given number of groups left: the groups, whether the last two of them
were written as an IPv4 address, and the rest. -/
def readGroups : ℕ → Bool → List Char → List UInt16 × Bool × List Char
  | 0, _, cs => ([], false, cs)
  | left + 1, first, cs =>
    -- an IPv4 address takes two groups
    match if 0 < left then readSeparator ':' first readIpv4Addr cs else none with
    | some ((one, two, three, four), rest) => ([ofOctets one two, ofOctets three four], true, rest)
    | none =>
      match readSeparator ':' first (readNumber 16 65536 (some 4) true) cs with
      | none => ([], false, cs)
      | some (group, rest) =>
        let (groups, ipv4, rest) := readGroups left false rest
        (UInt16.ofNat group :: groups, ipv4, rest)

/-- `read_ipv6_addr`. -/
def readIpv6Addr (cs : List Char) : Option (List UInt16 × List Char) :=
  let (head, headIpv4, cs) := readGroups 8 true cs
  if head.length = 8 then some (head, cs)
  else if headIpv4 then none
  else do
    let cs ← readGivenChar ':' cs
    let cs ← readGivenChar ':' cs
    let (tail, _, cs) := readGroups (8 - (head.length + 1)) true cs
    return (head ++ List.replicate (8 - head.length - tail.length) 0 ++ tail, cs)

/-- `read_port`. -/
def readPort (cs : List Char) : Option (UInt16 × List Char) := do
  let cs ← readGivenChar ':' cs
  let (port, cs) ← readNumber 10 65536 none true cs
  return (UInt16.ofNat port, cs)

/-- `read_scope_id`. -/
def readScopeId (cs : List Char) : Option (UInt32 × List Char) := do
  let cs ← readGivenChar '%' cs
  let (scopeId, cs) ← readNumber 10 (2 ^ 32) none true cs
  return (UInt32.ofNat scopeId, cs)

/-- `read_socket_addr_v4`. -/
def readSocketAddrV4 (cs : List Char) : Option (SocketAddr × List Char) := do
  let ((one, two, three, four), cs) ← readIpv4Addr cs
  let (port, cs) ← readPort cs
  return (.v4 [one, two, three, four] port, cs)

/-- `read_socket_addr_v6`. -/
def readSocketAddrV6 (cs : List Char) : Option (SocketAddr × List Char) := do
  let cs ← readGivenChar '[' cs
  let (segments, cs) ← readIpv6Addr cs
  let (scopeId, cs) := (readScopeId cs).getD (0, cs)
  let cs ← readGivenChar ']' cs
  let (port, cs) ← readPort cs
  return (.v6 segments scopeId port, cs)

/-- `read_socket_addr`. -/
def readSocketAddr (cs : List Char) : Option (SocketAddr × List Char) :=
  (readSocketAddrV4 cs).or (readSocketAddrV6 cs)

/-- `str::parse::<SocketAddr>`: the whole text has to be read. -/
def parse (text : String) : Option SocketAddr :=
  match readSocketAddr text.toList with
  | some (addr, []) => some addr
  | _ => none

/-! ### Writing an address -/

/-- `IpAddr`. -/
inductive Ip where
  | v4 (octets : List UInt8)
  | v6 (segments : List UInt16)
  deriving DecidableEq, Repr

/-- `SocketAddr::ip`: the address of the host. -/
def ip : SocketAddr → Ip
  | .v4 octets _ => .v4 octets
  | .v6 segments _ _ => .v6 segments

/-- `SocketAddr::port`. -/
def port : SocketAddr → UInt16
  | .v4 _ port => port
  | .v6 _ _ port => port

/-- `Display for Ipv4Addr`. -/
def displayIpv4 (octets : List UInt8) : String :=
  String.intercalate "." (octets.map fun octet => toString octet.toNat)

/-- A segment in lower-case hexadecimal, without leading zeros. -/
def displaySegment (segment : UInt16) : String := String.ofList (Nat.toDigits 16 segment.toNat)

/-- `fmt_subslice`. -/
def displaySegments (segments : List UInt16) : String :=
  String.intercalate ":" (segments.map displaySegment)

/-- A run of zero segments. -/
structure Span where
  start : ℕ
  len : ℕ
  deriving DecidableEq, Repr

/-- The first of the longest runs of zero segments. -/
def zeroSpan (segments : List UInt16) : Span :=
  (segments.zipIdx.foldl (fun (longest, current) (segment, i) =>
    if segment = 0 then
      let current : Span := ⟨if current.len = 0 then i else current.start, current.len + 1⟩
      (if current.len > longest.len then current else longest, current)
    else (longest, ⟨0, 0⟩)) ((⟨0, 0⟩ : Span), (⟨0, 0⟩ : Span))).1

/-- `Display for Ipv6Addr`. -/
def displayIpv6 (segments : List UInt16) : String :=
  match segments with
  | [0, 0, 0, 0, 0, 0xffff, hi, lo] =>
    -- an IPv4 address in disguise
    "::ffff:" ++ displayIpv4 [(hi >>> 8).toUInt8, hi.toUInt8, (lo >>> 8).toUInt8, lo.toUInt8]
  | _ =>
    let zeroes := zeroSpan segments
    if 1 < zeroes.len then
      displaySegments (segments.take zeroes.start) ++ "::" ++
        displaySegments (segments.drop (zeroes.start + zeroes.len))
    else displaySegments segments

/-- `Display for SocketAddr`. -/
def display : SocketAddr → String
  | .v4 octets port => displayIpv4 octets ++ ":" ++ toString port.toNat
  | .v6 segments scopeId port =>
    if scopeId = 0 then "[" ++ displayIpv6 segments ++ "]:" ++ toString port.toNat
    else "[" ++ displayIpv6 segments ++ "%" ++ toString scopeId.toNat ++ "]:" ++ toString port.toNat

example : display (.v6 [0x2001, 0xdb8, 0, 0, 1, 0, 0, 1] 0 8333) = "[2001:db8::1:0:0:1]:8333" := by
  decide +kernel

/-! ### Decimal numbers -/

/-- A number of three decimal digits, written out. -/
def decimal3 (n : ℕ) : List Char :=
  [Nat.digitChar (n / 100), Nat.digitChar (n / 10 % 10), Nat.digitChar (n % 10)]

theorem toDigit_digitChar {digit : ℕ} (h : digit < 10) :
    toDigit 10 (Nat.digitChar digit) = some digit := by
  revert digit
  decide

theorem digitChar_ne_zero {digit : ℕ} (h : digit < 10) (hpos : 0 < digit) :
    Nat.digitChar digit ≠ '0' := by
  revert digit
  decide

theorem readDigits_decimal3 {n : ℕ} (h : n < 1000) {c : Char} (hc : toDigit 10 c = none)
    (cs : List Char) :
    readDigits 10 (decimal3 n ++ c :: cs) = ([n / 100, n / 10 % 10, n % 10], c :: cs) := by
  have hhundreds : n / 100 < 10 := by omega
  have htens : n / 10 % 10 < 10 := by omega
  have hones : n % 10 < 10 := by omega
  simp [decimal3, readDigits, toDigit_digitChar, hhundreds, htens, hones, hc]

/-- An octet of three digits is read as it is written. -/
theorem readNumber_decimal3 {n : ℕ} (hlo : 100 ≤ n) (hhi : n < 256) {c : Char}
    (hc : toDigit 10 c = none) (cs : List Char) :
    readNumber 10 256 (some 3) false (decimal3 n ++ c :: cs) = some (n, c :: cs) := by
  have hhead : (decimal3 n ++ c :: cs).head? ≠ some '0' := by
    have hne : Nat.digitChar (n / 100) ≠ '0' := digitChar_ne_zero (by omega) (by omega)
    simpa [decimal3] using hne
  have hvalue : (n / 100 * 10 + n / 10 % 10) * 10 + n % 10 = n := by omega
  rw [readNumber, readDigits_decimal3 (by omega) hc]
  simp only [hhead, List.foldl_cons, List.foldl_nil, Nat.zero_mul, Nat.zero_add, hvalue, hhi]
  simp

/-- **An IPv4 address with two octets of three digits.** -/
theorem parse_v4 {a b : ℕ} (ha : 100 ≤ a) (ha' : a < 256) (hb : 100 ≤ b) (hb' : b < 256) :
    parse (String.ofList (decimal3 a ++ '.' :: (decimal3 b ++ ".0.1:8333".toList))) =
      some (.v4 [UInt8.ofNat a, UInt8.ofNat b, 0, 1] 8333) := by
  have hdot : toDigit 10 '.' = none := by decide
  have htail : ".0.1:8333".toList = '.' :: "0.1:8333".toList := by decide
  have hfirst : readOctet true (decimal3 a ++ '.' :: (decimal3 b ++ ".0.1:8333".toList)) =
      some (UInt8.ofNat a, '.' :: (decimal3 b ++ ".0.1:8333".toList)) := by
    rw [readOctet, readSeparator, if_pos rfl, readNumber_decimal3 ha ha' hdot]
    rfl
  have hsecond : readOctet false ('.' :: (decimal3 b ++ ".0.1:8333".toList)) =
      some (UInt8.ofNat b, ".0.1:8333".toList) := by
    rw [readOctet, readSeparator, htail]
    show ((readNumber 10 256 (some 3) false _).map _) = _
    rw [readNumber_decimal3 hb hb' hdot]
    rfl
  have hrest : ∀ one two : UInt8, (do
      let (three, cs) ← readOctet false ".0.1:8333".toList
      let (four, cs) ← readOctet false cs
      return ((one, two, three, four), cs)) = some ((one, two, 0, 1), ":8333".toList) :=
    fun one two => rfl
  have hip : readIpv4Addr (decimal3 a ++ '.' :: (decimal3 b ++ ".0.1:8333".toList)) =
      some ((UInt8.ofNat a, UInt8.ofNat b, 0, 1), ":8333".toList) := by
    rw [readIpv4Addr, hfirst]
    show (readOctet false _).bind _ = _
    rw [hsecond]
    exact hrest _ _
  have hport : readPort ":8333".toList = some (8333, []) := by decide
  have hread : readSocketAddrV4 (decimal3 a ++ '.' :: (decimal3 b ++ ".0.1:8333".toList)) =
      some (.v4 [UInt8.ofNat a, UInt8.ofNat b, 0, 1] 8333, []) := by
    rw [readSocketAddrV4, hip]
    show ((readPort ":8333".toList).bind fun r =>
      some (SocketAddr.v4 [UInt8.ofNat a, UInt8.ofNat b, 0, 1] r.1, r.2)) = _
    rw [hport]
    rfl
  rw [parse, readSocketAddr, String.toList_ofList, hread]
  rfl

end SocketAddr
