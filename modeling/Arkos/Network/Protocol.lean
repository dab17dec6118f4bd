import Mathlib.Data.UInt

/-!
# Network names and magics

The three networks and the four bytes each of them signs under. Every name that is not one of the
other two is the regression-test network.

## Main definitions

* `mainnetMagic`, `testnetMagic`, `regtestMagic`, `magicForNetwork`

## Main results

* `magicForNetwork_eq_regtestMagic_iff` — which names share the regression-test magic
-/

namespace Arkos

/-- `MAINNET_MAGIC`, "ARKS". -/
def mainnetMagic : UInt32 := 0x41524b53

/-- `TESTNET_MAGIC`, "ARKT". -/
def testnetMagic : UInt32 := 0x41524b54

/-- `REGTEST_MAGIC`, "ARKR". -/
def regtestMagic : UInt32 := 0x41524b52

/-- `magic_for_network`. -/
def magicForNetwork (network : String) : UInt32 :=
  if network = "mainnet" then mainnetMagic
  else if network = "testnet" then testnetMagic
  else regtestMagic

theorem magicForNetwork_eq_regtestMagic_iff {network : String} :
    magicForNetwork network = regtestMagic ↔ network ≠ "mainnet" ∧ network ≠ "testnet" := by
  rw [magicForNetwork]
  by_cases hm : network = "mainnet"
  · rw [if_pos hm]
    simp [hm, mainnetMagic, regtestMagic]
  · rw [if_neg hm]
    by_cases ht : network = "testnet"
    · rw [if_pos ht]
      simp [ht, testnetMagic, regtestMagic]
    · rw [if_neg ht]
      simp [hm, ht]

end Arkos
