import SmlNj.Lib.IntBitwise

/-!
# Two readings of a bit pattern

An `n`-bit pattern is an integer in `[0, 2 ^ n)`.  Machine code reads the same
pattern as an unsigned or as a signed number, widens it by zeroes or by copies
of the sign bit, and narrows it by dropping high bits.  This file fixes the two
readings over arbitrary integers and the lemmas that relate them across widths.

A tagged word is an `n`-bit pattern with a one below it, a pattern of `n + 1` bits.  This file
relates the operations on the longer pattern to those on the shorter one.

## Main definitions

* `unsigned n x` — the `n`-bit pattern of `x`, read as a number in `[0, 2 ^ n)`.
* `signed n x` — the same pattern read in two's complement.
* `Pattern n x` — `x` is an `n`-bit pattern.

## Main results

* `unsigned_unsigned`, `signed_unsigned` — narrowing forgets only high bits.
* `unsigned_signed`, `signed_signed` — the signed reading keeps the pattern.
* `signed_eq_self`, `signed_eq_sub` — the two cases of the sign bit.
* `unsigned_tag`, `signed_tag` — the two readings of a tagged word.
* `lor_one` — setting the tag.
* `lor_tag`, `land_tag`, `xor_tag` — bitwise operations.
-/

namespace TwosComplement

/-- The `n`-bit pattern of `x`, read as an unsigned number. -/
def unsigned (n : ℕ) (x : ℤ) : ℤ := x % 2 ^ n

/-- The `n`-bit pattern of `x`, read in two's complement. -/
def signed (n : ℕ) (x : ℤ) : ℤ := x.bmod (2 ^ n)

/-- `x` is an `n`-bit pattern. -/
def Pattern (n : ℕ) (x : ℤ) : Prop := 0 ≤ x ∧ x < 2 ^ n

instance (n : ℕ) (x : ℤ) : Decidable (Pattern n x) := inferInstanceAs (Decidable (_ ∧ _))

theorem pow_pos' (n : ℕ) : (0 : ℤ) < 2 ^ n := by positivity

theorem two_pow_eq_double {n : ℕ} (hn : 0 < n) : (2 : ℤ) ^ n = 2 * 2 ^ (n - 1) := by
  obtain ⟨k, rfl⟩ : ∃ k, n = k + 1 := ⟨n - 1, by omega⟩
  rw [Nat.add_sub_cancel, pow_succ, mul_comm]

theorem two_pow_le {m n : ℕ} (h : m ≤ n) : (2 : ℤ) ^ m ≤ 2 ^ n :=
  pow_le_pow_right₀ (by norm_num) h

theorem two_pow_dvd {m n : ℕ} (h : m ≤ n) : (2 : ℤ) ^ m ∣ 2 ^ n := pow_dvd_pow 2 h

theorem pattern_unsigned (n : ℕ) (x : ℤ) : Pattern n (unsigned n x) :=
  ⟨Int.emod_nonneg _ (pow_pos' n).ne', Int.emod_lt_of_pos _ (pow_pos' n)⟩

theorem unsigned_of_pattern {n : ℕ} {x : ℤ} (h : Pattern n x) : unsigned n x = x :=
  Int.emod_eq_of_lt h.1 h.2

theorem Pattern.mono {m n : ℕ} {x : ℤ} (h : Pattern m x) (hmn : m ≤ n) : Pattern n x :=
  ⟨h.1, lt_of_lt_of_le h.2 (two_pow_le hmn)⟩

theorem unsigned_unsigned {m n : ℕ} (h : m ≤ n) (x : ℤ) :
    unsigned m (unsigned n x) = unsigned m x :=
  Int.emod_emod_of_dvd x (two_pow_dvd h)

/-! ### The signed reading -/

theorem signed_emod (n : ℕ) (x : ℤ) : signed n (unsigned n x) = signed n x := by
  have h : ((2 ^ n : ℕ) : ℤ) = 2 ^ n := by push_cast; rfl
  rw [signed, unsigned, ← h, Int.emod_bmod, signed]

theorem signed_eq_self {n : ℕ} {x : ℤ} (h0 : 0 ≤ x) (h1 : x < 2 ^ (n - 1)) (hn : 0 < n) :
    signed n x = x := by
  have hd := two_pow_eq_double hn
  have hc : ((2 ^ n : ℕ) : ℤ) = 2 ^ n := by push_cast; rfl
  have hx : x % 2 ^ n = x := Int.emod_eq_of_lt h0 (by omega)
  rw [signed, Int.bmod_def, hc, hx]
  split
  · rfl
  · omega

theorem signed_eq_sub {n : ℕ} {x : ℤ} (h0 : 2 ^ (n - 1) ≤ x) (h1 : x < 2 ^ n) (hn : 0 < n) :
    signed n x = x - 2 ^ n := by
  have hd := two_pow_eq_double hn
  have hp := pow_pos' (n - 1)
  have hc : ((2 ^ n : ℕ) : ℤ) = 2 ^ n := by push_cast; rfl
  have hx : x % 2 ^ n = x := Int.emod_eq_of_lt (by omega) h1
  rw [signed, Int.bmod_def, hc, hx]
  split
  · omega
  · rfl

theorem signed_of_pattern {n : ℕ} {x : ℤ} (h : Pattern n x) (hn : 0 < n) :
    signed n x = if x < 2 ^ (n - 1) then x else x - 2 ^ n := by
  split
  · next hlt => exact signed_eq_self h.1 hlt hn
  · next hge => exact signed_eq_sub (not_lt.mp hge) h.2 hn

theorem signed_bounds {n : ℕ} (hn : 0 < n) (x : ℤ) :
    -2 ^ (n - 1) ≤ signed n x ∧ signed n x < 2 ^ (n - 1) := by
  have hd := two_pow_eq_double hn
  have hp := pattern_unsigned n x
  have h1 := hp.1
  have h2 := hp.2
  rw [← signed_emod, signed_of_pattern hp hn]
  split <;> constructor <;> omega

theorem signed_of_bounds {n : ℕ} (hn : 0 < n) {x : ℤ} (h0 : -2 ^ (n - 1) ≤ x)
    (h1 : x < 2 ^ (n - 1)) : signed n x = x := by
  have hd := two_pow_eq_double hn
  have hc : ((2 ^ n : ℕ) : ℤ) = 2 ^ n := by push_cast; rfl
  rw [signed]
  refine Int.bmod_eq_of_le_mul_two ?_ ?_
  · rw [hc]; omega
  · rw [hc]; omega

theorem unsigned_signed {m n : ℕ} (h : m ≤ n) (x : ℤ) :
    unsigned m (signed n x) = unsigned m x := by
  have hc : ((2 ^ n : ℕ) : ℤ) = 2 ^ n := by push_cast; rfl
  have hn : unsigned n (signed n x) = unsigned n x := by
    rw [signed, unsigned, unsigned, ← hc, Int.bmod_emod]
  rw [← unsigned_unsigned h (signed n x), hn, unsigned_unsigned h]

theorem signed_signed {m n : ℕ} (hm : 0 < m) (h : m ≤ n) (x : ℤ) :
    signed n (signed m x) = signed m x := by
  have hb := signed_bounds hm x
  have hle := two_pow_le (show m - 1 ≤ n - 1 by omega)
  exact signed_of_bounds (by omega) (by omega) (by omega)

theorem signed_of_pattern_lt {m n : ℕ} {x : ℤ} (h : Pattern m x) (hmn : m < n) :
    signed n x = x := by
  have hle := two_pow_le (show m ≤ n - 1 by omega)
  exact signed_eq_self h.1 (lt_of_lt_of_le h.2 hle) (by omega)

/-! ## Words with a tag bit -/

variable {n : ℕ}

theorem unsigned_double (n : ℕ) (x : ℤ) : unsigned (n + 1) (2 * x) = 2 * unsigned n x := by
  rw [unsigned, unsigned, pow_succ, mul_comm (2 ^ n : ℤ) 2, Int.mul_emod_mul_of_pos _ _ two_pos]

theorem unsigned_tag (n : ℕ) (x : ℤ) : unsigned (n + 1) (2 * x + 1) = 2 * unsigned n x + 1 := by
  have hx : 2 * unsigned n x + 1 = (2 * x + 1) - 2 ^ (n + 1) * (x / 2 ^ n) := by
    have h := Int.emod_add_mul_ediv x (2 ^ n)
    rw [pow_succ, unsigned]
    linear_combination 2 * h
  have hpat := pattern_unsigned n x
  rw [unsigned, ← Int.sub_mul_emod_self_left (2 * x + 1) (2 ^ (n + 1)) (x / 2 ^ n), ← hx]
  refine Int.emod_eq_of_lt ?_ ?_
  · have := hpat.1
    omega
  · have := hpat.2
    rw [pow_succ]
    omega

theorem signed_congr {x y : ℤ} (h : unsigned n x = unsigned n y) : signed n x = signed n y := by
  rw [← signed_emod, h, signed_emod]

theorem signed_double (hn : 0 < n) (x : ℤ) : signed (n + 1) (2 * x) = 2 * signed n x := by
  have hb := signed_bounds hn x
  have hd := two_pow_eq_double hn
  have hpat : unsigned (n + 1) (2 * x) = unsigned (n + 1) (2 * signed n x) := by
    rw [unsigned_double, unsigned_double, unsigned_signed le_rfl]
  rw [signed_congr hpat]
  refine signed_of_bounds (Nat.add_one_pos n) ?_ ?_
  · rw [Nat.add_sub_cancel]
    omega
  · rw [Nat.add_sub_cancel]
    omega

theorem signed_tag (hn : 0 < n) (x : ℤ) : signed (n + 1) (2 * x + 1) = 2 * signed n x + 1 := by
  have hb := signed_bounds hn x
  have hd := two_pow_eq_double hn
  have hpat : unsigned (n + 1) (2 * x + 1) = unsigned (n + 1) (2 * signed n x + 1) := by
    rw [unsigned_tag, unsigned_tag, unsigned_signed le_rfl]
  rw [signed_congr hpat]
  refine signed_of_bounds (Nat.add_one_pos n) ?_ ?_
  · rw [Nat.add_sub_cancel]
    omega
  · rw [Nat.add_sub_cancel]
    omega

theorem Pattern.tag {x : ℤ} (h : Pattern n x) : Pattern (n + 1) (2 * x + 1) := by
  obtain ⟨h0, h1⟩ := h
  refine ⟨by omega, ?_⟩
  rw [pow_succ]
  omega

theorem Pattern.double {x : ℤ} (h : Pattern n x) : Pattern (n + 1) (2 * x) := by
  obtain ⟨h0, h1⟩ := h
  refine ⟨by omega, ?_⟩
  rw [pow_succ]
  omega

theorem two_mul_add_one_eq_bit (x : ℤ) : 2 * x + 1 = Int.bit true x := by
  rw [Int.bit_val]
  rfl

theorem two_mul_eq_bit (x : ℤ) : 2 * x = Int.bit false x := by
  rw [Int.bit_val]
  exact (add_zero _).symm

theorem lor_tag (x y : ℤ) : Int.lor (2 * x + 1) (2 * y + 1) = 2 * Int.lor x y + 1 := by
  rw [two_mul_add_one_eq_bit, two_mul_add_one_eq_bit, two_mul_add_one_eq_bit, Int.lor_bit]
  rfl

theorem land_tag (x y : ℤ) : Int.land (2 * x + 1) (2 * y + 1) = 2 * Int.land x y + 1 := by
  rw [two_mul_add_one_eq_bit, two_mul_add_one_eq_bit, two_mul_add_one_eq_bit, Int.land_bit]
  rfl

theorem xor_tag (x y : ℤ) : Int.xor (2 * x + 1) (2 * y + 1) = 2 * Int.xor x y := by
  rw [two_mul_add_one_eq_bit, two_mul_add_one_eq_bit, two_mul_eq_bit, Int.lxor_bit]
  rfl

theorem xor_tag_double (x y : ℤ) : Int.xor (2 * x + 1) (2 * y) = 2 * Int.xor x y + 1 := by
  rw [two_mul_add_one_eq_bit, two_mul_add_one_eq_bit, two_mul_eq_bit, Int.lxor_bit]
  rfl

theorem xor_double_tag (x y : ℤ) : Int.xor (2 * x) (2 * y + 1) = 2 * Int.xor x y + 1 := by
  rw [two_mul_add_one_eq_bit, two_mul_add_one_eq_bit, two_mul_eq_bit, Int.lxor_bit]
  rfl

theorem lor_one (z : ℤ) : Int.lor z 1 = 2 * (z / 2) + 1 := by
  have h : (1 : ℤ) = Int.bit true 0 := rfl
  conv_lhs => rw [← Int.bit_decomp z, h, Int.lor_bit, IntBitwise.lor_zero, Bool.or_true]
  rw [← two_mul_add_one_eq_bit, Int.div2_val]

end TwosComplement
