import Arkos.Lib.FinMap
import Arkos.Lib.SocketAddr
import Mathlib.Data.Finset.Card

/-!
# The peer store

The addresses a node knows, in buckets by the first two bytes of the address. A bucket holds at
most `bucketLimit` of them; nothing in the store bounds their sum, which is left to the callers.
An address that does not parse goes to the bucket of `0.0.0.0/16`.

Beside them are the addresses of the open connections, which may be any text a dialler was given.

## Main definitions

* `PeerStore`, `PeerStore.addKnown`, `PeerStore.removeKnown`, `PeerStore.knownCount`
* `PeerStore.Takes` — the addresses `addKnown` takes

## Main results

* `PeerStore.knownCount_addKnown`, `PeerStore.knownCount_removeKnown_le`
* `PeerStore.addKnown_of_not_takes` — an address that is not taken changes nothing
-/

namespace Arkos

/-- `BUCKET_LIMIT`. -/
def bucketLimit : ℕ := 8

/-- `PeerStore`. -/
structure PeerStore where
  buckets : Finmap fun _ : UInt8 × UInt8 => Finset String
  outbound : Finset String
  inbound : Finset String

namespace PeerStore

/-- `PeerStore::new`. -/
def new : PeerStore := ⟨∅, ∅, ∅⟩

/-- `PeerStore::subnet`. -/
def subnet (addr : String) : UInt8 × UInt8 :=
  match SocketAddr.parse addr with
  | some (.v4 octets _) => (octets.getD 0 0, octets.getD 1 0)
  | some (.v6 segments _ _) =>
    let segment := (segments.getD 0 0).toNat
    (UInt8.ofNat (segment / 256), UInt8.ofNat (segment % 256))
  | none => (0, 0)

/-- The bucket an address belongs to, empty while there is none. -/
def bucket (p : PeerStore) (addr : String) : Finset String :=
  (p.buckets.lookup (subnet addr)).getD ∅

/-- The store with another bucket in the place an address belongs to. -/
def setBucket (p : PeerStore) (addr : String) (b : Finset String) : PeerStore :=
  { p with buckets := p.buckets.insert (subnet addr) b }

/-- `PeerStore::add_known`. -/
def addKnown (p : PeerStore) (addr : String) : Bool × PeerStore :=
  if bucketLimit ≤ (p.bucket addr).card then (false, p.setBucket addr (p.bucket addr))
  else (decide (addr ∉ p.bucket addr), p.setBucket addr (insert addr (p.bucket addr)))

/-- `PeerStore::remove_known`. -/
def removeKnown (p : PeerStore) (addr : String) : PeerStore :=
  match p.buckets.lookup (subnet addr) with
  | none => p
  | some bucket => p.setBucket addr (bucket.erase addr)

/-- `PeerStore::contains_known`. -/
def containsKnown (p : PeerStore) (addr : String) : Bool := decide (addr ∈ p.bucket addr)

/-- `PeerStore::known_count`. -/
def knownCount (p : PeerStore) : ℕ := p.buckets.total Finset.card

/-- `PeerStore::all_known`, in whatever order the hash maps give. -/
def allKnown (p : PeerStore) : Multiset String := p.buckets.members

/-- `PeerStore::mark_outbound`. -/
def markOutbound (p : PeerStore) (addr : String) : PeerStore :=
  { p with outbound := insert addr p.outbound }

/-- `PeerStore::unmark_outbound`. -/
def unmarkOutbound (p : PeerStore) (addr : String) : PeerStore :=
  { p with outbound := p.outbound.erase addr }

/-- `PeerStore::mark_inbound`. -/
def markInbound (p : PeerStore) (addr : String) : PeerStore :=
  { p with inbound := insert addr p.inbound }

/-- `PeerStore::unmark_inbound`. -/
def unmarkInbound (p : PeerStore) (addr : String) : PeerStore :=
  { p with inbound := p.inbound.erase addr }

/-- `connected`. -/
def connected (p : PeerStore) : Finset String := p.outbound ∪ p.inbound

/-- `PeerStore::outbound_candidates`. -/
def outboundCandidates (p : PeerStore) : Multiset String :=
  p.allKnown.filter fun addr => addr ∉ p.connected

/-- The address is new and its bucket has room. -/
def Takes (p : PeerStore) (addr : String) : Prop :=
  addr ∉ p.bucket addr ∧ (p.bucket addr).card < bucketLimit

instance (p : PeerStore) (addr : String) : Decidable (p.Takes addr) :=
  inferInstanceAs (Decidable (_ ∧ _))

variable {p : PeerStore} {addr : String}

@[simp] theorem knownCount_markOutbound : (p.markOutbound addr).knownCount = p.knownCount := rfl

@[simp] theorem knownCount_unmarkOutbound : (p.unmarkOutbound addr).knownCount = p.knownCount := rfl

@[simp] theorem knownCount_markInbound : (p.markInbound addr).knownCount = p.knownCount := rfl

@[simp] theorem knownCount_unmarkInbound : (p.unmarkInbound addr).knownCount = p.knownCount := rfl

@[simp] theorem knownCount_new : new.knownCount = 0 := rfl

/-- What replacing a bucket does to the count. -/
theorem knownCount_setBucket (p : PeerStore) (addr : String) (b : Finset String) :
    (p.setBucket addr b).knownCount + (p.bucket addr).card = p.knownCount + b.card := by
  show (p.buckets.insert (subnet addr) b).total Finset.card + _ = _
  have hinsert := Finmap.total_insert_of_notMem Finset.card (m := p.buckets.erase (subnet addr))
    Finmap.notMem_erase_self b
  rw [Finmap.insert_erase] at hinsert
  cases hlook : p.buckets.lookup (subnet addr) with
  | some old =>
    have hold := Finmap.total_erase_add Finset.card hlook
    rw [bucket, hlook, Option.getD_some, hinsert, knownCount, ← hold]
    omega
  | none =>
    have hnone := Finmap.total_insert_of_notMem Finset.card (Finmap.lookup_eq_none.mp hlook) b
    rw [bucket, hlook, Option.getD_none, hnone, knownCount, Finset.card_empty]
    omega

/-- **One address more, if it is taken.** -/
theorem knownCount_addKnown (p : PeerStore) (addr : String) :
    (p.addKnown addr).2.knownCount = p.knownCount + if p.Takes addr then 1 else 0 := by
  by_cases hfull : bucketLimit ≤ (p.bucket addr).card
  · have hnot : ¬ p.Takes addr := fun h => absurd h.2 (Nat.not_lt.mpr hfull)
    have htotal := p.knownCount_setBucket addr (p.bucket addr)
    rw [addKnown, if_pos hfull, if_neg hnot]
    show (p.setBucket addr (p.bucket addr)).knownCount = _
    omega
  · have htotal := p.knownCount_setBucket addr (insert addr (p.bucket addr))
    rw [addKnown, if_neg hfull]
    show (p.setBucket addr (insert addr (p.bucket addr))).knownCount = _
    by_cases hmem : addr ∈ p.bucket addr
    · have hnot : ¬ p.Takes addr := fun h => h.1 hmem
      rw [Finset.insert_eq_of_mem hmem] at htotal ⊢
      rw [if_neg hnot]
      omega
    · have htakes : p.Takes addr := ⟨hmem, Nat.lt_of_not_le hfull⟩
      rw [Finset.card_insert_of_notMem hmem] at htotal
      rw [if_pos htakes]
      omega

theorem knownCount_removeKnown_le (p : PeerStore) (addr : String) :
    (p.removeKnown addr).knownCount ≤ p.knownCount := by
  unfold removeKnown
  split
  · exact le_rfl
  · next b hb =>
    have htotal := p.knownCount_setBucket addr (b.erase addr)
    have hle := Finset.card_erase_le (s := b) (a := addr)
    rw [bucket, hb, Option.getD_some] at htotal
    omega

/-- **An address that is not taken leaves the store as it is.** -/
theorem addKnown_of_not_takes (h : ¬ p.Takes addr) : (p.addKnown addr).2 = p := by
  cases hlook : p.buckets.lookup (subnet addr) with
  | none =>
    -- an empty bucket takes every address
    refine absurd ⟨?_, ?_⟩ h
    · simp [bucket, hlook]
    · simp [bucket, hlook, bucketLimit]
  | some b =>
    have hbucket : p.bucket addr = b := by rw [bucket, hlook, Option.getD_some]
    have hsame : p.setBucket addr b = p := by rw [setBucket, Finmap.insert_eq_self hlook]
    unfold addKnown
    rw [hbucket]
    split
    · exact hsame
    · next hroom =>
      have hmem : addr ∈ b := by
        by_contra hnot
        exact h ⟨hbucket ▸ hnot, hbucket ▸ Nat.lt_of_not_le hroom⟩
      rw [Finset.insert_eq_of_mem hmem]
      exact hsame

/-- A store keeps the buckets an address does not belong to. -/
theorem bucket_addKnown_of_ne {q : String} (h : subnet q ≠ subnet addr) :
    (p.addKnown addr).2.bucket q = p.bucket q := by
  unfold addKnown
  split <;> simp only [bucket, setBucket, Finmap.lookup_insert_of_ne _ h]

end PeerStore

end Arkos
