import SmlNj.Lib.Binary64

/-!
# The fields of 64-bit reals

The masks with which the operations on 64-bit reals take their representation apart.  A real is its
representation, so that `R64.toBits` and `R64.fromBits` do nothing.

## Main results

* `getExponent_eq`, `andb_kMantMask`, `andb_kSignBit`, `lshift_one` — what they select.
-/

namespace SmlNj.Real64

open Binary64

def kSignBit : BitVec 64 := 1#64 <<< 63

def kMantBits : ℕ := 52

def kMantIntBit : BitVec 64 := 1#64 <<< kMantBits

def kMantMask : BitVec 64 := kMantIntBit - 1#64

def kExpBits : ℕ := 11

def kExpBias : BitVec 64 := (1#64 <<< kExpBits) - 1#64

def kExpMask : BitVec 64 := kExpBias <<< kMantBits

def getExponent (bits : BitVec 64) : ℤ := ((bits >>> kMantBits) &&& kExpBias).toInt

variable (b c : BitVec 64)

theorem toNat_expBits : ((b >>> kMantBits) &&& kExpBias).toNat = exponent b := by
  rw [BitVec.toNat_and, BitVec.toNat_ushiftRight, Nat.shiftRight_eq_div_pow]
  exact Nat.and_two_pow_sub_one_eq_mod _ 11

theorem getExponent_eq : getExponent b = exponent b := by
  have h := toNat_expBits b
  have hlt : exponent b < 2 ^ 11 := Nat.mod_lt _ (by decide)
  rw [getExponent, BitVec.toInt_eq_toNat_of_lt (by omega), h]

theorem getExponent_eq_max : getExponent b = 2047 ↔ exponent b = 2047 := by
  rw [getExponent_eq]
  omega

theorem toNat_andb_kMantMask : (b &&& kMantMask).toNat = fraction b := by
  rw [BitVec.toNat_and]
  exact Nat.and_two_pow_sub_one_eq_mod _ 52

theorem andb_kMantMask : b &&& kMantMask = 0 ↔ fraction b = 0 := by
  rw [← BitVec.toNat_inj, toNat_andb_kMantMask]
  rfl

theorem toNat_lshift_one : (b <<< 1).toNat = 2 * body b := by
  rw [BitVec.toNat_shiftLeft, Nat.shiftLeft_eq, body]
  omega

theorem lshift_one : b <<< 1 = 0 ↔ body b = 0 := by
  rw [← BitVec.toNat_inj, toNat_lshift_one]
  exact mul_eq_zero_iff_left two_ne_zero

theorem kSignBit_eq : kSignBit = BitVec.twoPow 64 63 := by decide

theorem toNat_andb_kSignBit : (b &&& kSignBit).toNat = if sign b then 2 ^ 63 else 0 := by
  rw [kSignBit_eq, BitVec.and_twoPow, sign, BitVec.msb_eq_getLsbD_last]
  split <;> rfl

theorem andb_kSignBit : b &&& kSignBit = 0 ↔ sign b = false := by
  rw [← BitVec.toNat_inj, toNat_andb_kSignBit]
  cases sign b <;> decide

/-- Copy the sign to a number without one. -/
theorem toNat_orb_sign (hc : c.toNat < 2 ^ 63) :
    ((b &&& kSignBit) ||| c).toNat = (if sign b then 2 ^ 63 else 0) + c.toNat := by
  rw [BitVec.toNat_or, toNat_andb_kSignBit]
  split
  · exact (Nat.two_pow_add_eq_or_of_lt hc 1).symm
  · rw [Nat.zero_or, zero_add]

theorem andb_kExpMask : b &&& kExpMask = kExpMask ↔ exponent b = 2047 := by
  have hand : ∀ n m k : ℕ, n &&& (m <<< k) = ((n >>> k) &&& m) <<< k := by
    intro n m k
    refine Nat.eq_of_testBit_eq fun i => ?_
    simp only [Nat.testBit_and, Nat.testBit_shiftLeft, Nat.testBit_shiftRight]
    by_cases h : k ≤ i
    · rw [Nat.add_sub_cancel' h, Bool.and_left_comm]
    · simp [h]
  have hmask : kExpMask.toNat = 2047 <<< 52 := by decide
  rw [← BitVec.toNat_inj, BitVec.toNat_and, hmask, hand, ← toNat_expBits, BitVec.toNat_and,
    BitVec.toNat_ushiftRight, Nat.shiftLeft_eq _ 52, Nat.shiftLeft_eq _ 52]
  exact mul_left_inj' (pow_ne_zero 52 two_ne_zero)

end SmlNj.Real64
