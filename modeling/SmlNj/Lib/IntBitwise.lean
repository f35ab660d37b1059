import Mathlib.Data.Int.Bitwise
import Mathlib.Tactic

/-!
# The low bits of an integer

An integer is an infinite sequence of bits.  Dividing it by a power of two separates the low bits
from the others, and the bitwise operations respect the separation.

## Main results

* `bitwise_emod_ediv` — a bitwise operation on the low bits and on the others.
* `emod_two_pow_eq_zero_iff` — when all low bits are zero.
* `land_two_pow_sub_one` — the conjunction with a mask is a remainder.
* `xor_mask_emod` — the exclusive disjunction with a mask is a complement.
* `lor_mul_two_pow` — the disjunction of numbers without common bits is their sum.
* `land_sub_one_eq_zero_iff` — the numbers with one bit.
-/

namespace IntBitwise

theorem bit_emod_ediv (b : Bool) (n : ℤ) (k : ℕ) :
    Int.bit b n % 2 ^ (k + 1) = Int.bit b (n % 2 ^ k) ∧ Int.bit b n / 2 ^ (k + 1) = n / 2 ^ k := by
  have hpos : (0 : ℤ) < 2 ^ k := by positivity
  have hdiv := Int.mul_ediv_add_emod n (2 ^ k)
  have hlt := Int.emod_lt_of_pos n hpos
  have hnn := Int.emod_nonneg n hpos.ne'
  rw [Int.bit_val, Int.bit_val, pow_succ]
  generalize (2 : ℤ) ^ k = p at *
  have hc : (0 : ℤ) ≤ cond b 1 0 ∧ cond b (1 : ℤ) 0 < 2 := by cases b <;> decide
  generalize cond b (1 : ℤ) 0 = c at *
  have hval : 2 * n + c = 2 * (n % p) + c + p * 2 * (n / p) := by linear_combination -2 * hdiv
  constructor
  · rw [hval, Int.add_mul_emod_self_left]
    exact Int.emod_eq_of_lt (by omega) (by omega)
  · rw [hval, Int.add_mul_ediv_left _ _ (by omega), Int.ediv_eq_zero_of_lt (by omega) (by omega),
      zero_add]

variable {h : Bool → Bool → Bool}

/-- **A bitwise operation on integers can be done on the low bits and on the others.** -/
theorem bitwise_emod_ediv (hf : h false false = false) (x y : ℤ) (k : ℕ) :
    Int.bitwise h x y % 2 ^ k = Nat.bitwise h (x % 2 ^ k).toNat (y % 2 ^ k).toNat ∧
      Int.bitwise h x y / 2 ^ k = Int.bitwise h (x / 2 ^ k) (y / 2 ^ k) := by
  induction k generalizing x y with
  | zero => simp
  | succ k ih =>
    obtain ⟨hmod, hdiv⟩ := ih (Int.div2 x) (Int.div2 y)
    rw [← Int.bit_decomp x, ← Int.bit_decomp y, Int.bitwise_bit, (bit_emod_ediv _ _ k).1,
      (bit_emod_ediv _ _ k).1, (bit_emod_ediv _ _ k).1, (bit_emod_ediv _ _ k).2,
      (bit_emod_ediv _ _ k).2, (bit_emod_ediv _ _ k).2, hmod]
    refine ⟨?_, hdiv⟩
    have hnat : ∀ n : ℤ, ((n % 2 ^ k).toNat : ℤ) = n % 2 ^ k := fun n =>
      Int.toNat_of_nonneg (Int.emod_nonneg n (by positivity))
    rw [← hnat (Int.div2 x), ← hnat (Int.div2 y), Int.bit_coe_nat, Int.bit_coe_nat, Int.bit_coe_nat,
      Int.toNat_natCast, Int.toNat_natCast, Int.toNat_natCast, Int.toNat_natCast,
      Nat.bitwise_bit hf]

theorem bitwise_signs (a b : Bool) :
    Int.bitwise h (if a then -1 else 0) (if b then -1 else 0) = if h a b then -1 else 0 := by
  cases a <;> cases b
  · change Int.natBitwise h 0 0 = _
    simp [Int.natBitwise]
  · change Int.natBitwise (fun x y => h x !y) 0 0 = _
    simp [Int.natBitwise]
  · change Int.natBitwise (fun x y => h (!x) y) 0 0 = _
    simp [Int.natBitwise]
  · change Int.natBitwise (fun x y => h (!x) !y) 0 0 = _
    simp [Int.natBitwise]

theorem emod_two_pow_eq_zero_iff (z : ℤ) (m : ℕ) :
    z % 2 ^ m = 0 ↔ ∀ k < m, Int.testBit z k = false := by
  induction m generalizing z with
  | zero => simp
  | succ m ih =>
    obtain ⟨hmod, -⟩ := bit_emod_ediv (Int.bodd z) (Int.div2 z) m
    rw [← Int.bit_decomp z, hmod, Int.bit_val, Nat.forall_lt_succ_left, Int.testBit_bit_zero]
    simp only [Int.testBit_bit_succ]
    rw [← ih]
    cases Int.bodd z with
    | false => simp
    | true =>
      simp only [cond_true, Bool.true_eq_false, false_and, iff_false]
      omega

theorem emod_add_mul_emod (w : ℤ) {b m : ℤ} (hb : 0 < b) (hm : 0 < m) :
    w % b + b * (w / b % m) = w % (b * m) := by
  have hlow := Int.emod_lt_of_pos w hb
  have hhigh := Int.emod_lt_of_pos (w / b) hm
  refine ((Int.ediv_emod_unique (q := w / b / m) (mul_pos hb hm)).2 ⟨?_, ?_, ?_⟩).2.symm
  · have hw := Int.emod_add_mul_ediv w b
    have hq := Int.emod_add_mul_ediv (w / b) m
    linear_combination hw + b * hq
  · have hlow' := Int.emod_nonneg w hb.ne'
    have hhigh' := Int.emod_nonneg (w / b) hm.ne'
    positivity
  · nlinarith

/-! ### Masks -/

theorem land_zero (x : ℤ) : Int.land x 0 = 0 := by
  cases x with
  | ofNat n => simp [Int.land]
  | negSucc n =>
    change ((Nat.ldiff 0 n : ℕ) : ℤ) = 0
    simp [Nat.ldiff]

theorem lor_zero (x : ℤ) : Int.lor x 0 = x := by
  cases x with
  | ofNat n => simp [Int.lor]
  | negSucc n =>
    change Int.negSucc (Nat.ldiff n 0) = _
    simp [Nat.ldiff]

theorem eq_of_emod_ediv {x y b : ℤ} (hmod : x % b = y % b) (hdiv : x / b = y / b) : x = y := by
  rw [← Int.emod_add_mul_ediv x b, ← Int.emod_add_mul_ediv y b, hmod, hdiv]

theorem land_two_pow_sub_one (z : ℤ) (k : ℕ) : Int.land z (2 ^ k - 1) = z % 2 ^ k := by
  have hpos : (0 : ℤ) < 2 ^ k := by positivity
  obtain ⟨hmod, hdiv⟩ := bitwise_emod_ediv (h := and) rfl z (2 ^ k - 1) k
  rw [Int.bitwise_and] at hmod hdiv
  have hmask : ((2 : ℤ) ^ k - 1).toNat = 2 ^ k - 1 := by
    have := Nat.one_le_two_pow (n := k)
    zify [this]
    omega
  refine eq_of_emod_ediv (b := 2 ^ k) ?_ ?_
  · rw [hmod, Int.emod_eq_of_lt (a := 2 ^ k - 1) (by omega) (by omega), hmask, Int.emod_emod]
    change (((z % 2 ^ k).toNat &&& (2 ^ k - 1) : ℕ) : ℤ) = _
    have hnn := Int.emod_nonneg z hpos.ne'
    have hlt := Int.emod_lt_of_pos z hpos
    rw [Nat.and_two_pow_sub_one_eq_mod, Nat.mod_eq_of_lt (by zify; omega), Int.toNat_of_nonneg hnn]
  · rw [hdiv, Int.ediv_eq_zero_of_lt (a := 2 ^ k - 1) (by omega) (by omega),
      land_zero, Int.ediv_eq_zero_of_lt (Int.emod_nonneg z hpos.ne') (Int.emod_lt_of_pos z hpos)]

theorem land_comm (x y : ℤ) : Int.land x y = Int.land y x := by
  cases x with
  | ofNat m =>
    cases y with
    | ofNat n => exact congrArg Int.ofNat (Nat.land_comm m n)
    | negSucc n => rfl
  | negSucc m =>
    cases y with
    | ofNat n => rfl
    | negSucc n => exact congrArg Int.negSucc (Nat.lor_comm m n)

theorem lor_comm (x y : ℤ) : Int.lor x y = Int.lor y x := by
  cases x with
  | ofNat m =>
    cases y with
    | ofNat n => exact congrArg Int.ofNat (Nat.lor_comm m n)
    | negSucc n => rfl
  | negSucc m =>
    cases y with
    | ofNat n => rfl
    | negSucc n => exact congrArg Int.negSucc (Nat.land_comm m n)

theorem bitwise_emod (hf : h false false = false) (x y : ℤ) (k : ℕ) :
    Int.bitwise h (x % 2 ^ k) (y % 2 ^ k) % 2 ^ k = Int.bitwise h x y % 2 ^ k := by
  rw [(bitwise_emod_ediv hf x y k).1, (bitwise_emod_ediv hf _ _ k).1, Int.emod_emod,
    Int.emod_emod]

theorem zero_lor (x : ℤ) : Int.lor 0 x = x := by
  cases x with
  | ofNat n => exact congrArg Int.ofNat (Nat.zero_or n)
  | negSucc n =>
    change Int.negSucc (Nat.ldiff n 0) = _
    rw [show Nat.ldiff n 0 = n from by simp [Nat.ldiff]]

theorem xor_zero (x : ℤ) : Int.xor x 0 = x := by
  cases x with
  | ofNat n => exact congrArg Int.ofNat (Nat.xor_zero n)
  | negSucc n => exact congrArg Int.negSucc (Nat.xor_zero n)

theorem zero_xor (x : ℤ) : Int.xor 0 x = x := by
  cases x with
  | ofNat n => exact congrArg Int.ofNat (Nat.zero_xor n)
  | negSucc n => exact congrArg Int.negSucc (Nat.zero_xor n)

theorem two_pow_land_ne_zero_iff {x : ℤ} {k : ℕ} (h : 0 ≤ x) (h' : x < 2 ^ (k + 1)) :
    Int.land (2 ^ k) x ≠ 0 ↔ 2 ^ k ≤ x := by
  obtain ⟨n, rfl⟩ := Int.eq_ofNat_of_zero_le h
  have hlt : n < 2 ^ (k + 1) := by exact_mod_cast h'
  have hland : Int.land (2 ^ k) n = ((2 ^ k &&& n : ℕ) : ℤ) := by
    have hcast : ((2 : ℤ) ^ k) = ((2 ^ k : ℕ) : ℤ) := by push_cast; rfl
    rw [hcast]
    rfl
  rw [hland, Nat.two_pow_and]
  rcases lt_or_ge n (2 ^ k) with hn | hn
  · rw [Nat.testBit_lt_two_pow hn]
    have : (n : ℤ) < 2 ^ k := by exact_mod_cast hn
    simp [not_le.2 this]
  · rw [Nat.testBit_of_two_pow_le_and_two_pow_add_one_gt hn hlt]
    have : (2 : ℤ) ^ k ≤ n := by exact_mod_cast hn
    simp [this]

theorem land_emod {y : ℤ} {k : ℕ} (h : 0 ≤ y) (h' : y < 2 ^ k) (x : ℤ) :
    Int.land x y = Int.land (x % 2 ^ k) y := by
  have hpos : (0 : ℤ) < 2 ^ k := by positivity
  have hy : y / 2 ^ k = 0 := Int.ediv_eq_zero_of_lt h h'
  obtain ⟨hmod, hdiv⟩ := bitwise_emod_ediv (h := and) rfl x y k
  obtain ⟨hmod', hdiv'⟩ := bitwise_emod_ediv (h := and) rfl (x % 2 ^ k) y k
  rw [Int.bitwise_and, hy, land_zero] at hdiv hdiv'
  rw [Int.bitwise_and] at hmod hmod'
  refine eq_of_emod_ediv (b := 2 ^ k) ?_ (hdiv.trans hdiv'.symm)
  rw [hmod, hmod', Int.emod_emod]

theorem land_two_pow_ne_zero_iff (x : ℤ) (k : ℕ) :
    Int.land x (2 ^ k) ≠ 0 ↔ 2 ^ k ≤ x % 2 ^ (k + 1) := by
  have hpos : (0 : ℤ) < 2 ^ (k + 1) := by positivity
  have hlt : (2 : ℤ) ^ k < 2 ^ (k + 1) := pow_lt_pow_right₀ (by norm_num) (Nat.lt_succ_self k)
  rw [land_emod (by positivity) hlt, land_comm,
    two_pow_land_ne_zero_iff (Int.emod_nonneg x hpos.ne') (Int.emod_lt_of_pos x hpos)]

theorem xor_neg_one (x : ℤ) : Int.xor x (-1) = -1 - x := by
  cases x with
  | ofNat n =>
    change Int.negSucc (n ^^^ 0) = -1 - (n : ℤ)
    rw [Nat.xor_zero]
    omega
  | negSucc n =>
    change ((n ^^^ 0 : ℕ) : ℤ) = _
    rw [Nat.xor_zero]
    omega

theorem neg_one_xor (x : ℤ) : Int.xor (-1) x = -1 - x := by
  cases x with
  | ofNat n =>
    change Int.negSucc (0 ^^^ n) = -1 - (n : ℤ)
    rw [Nat.zero_xor]
    omega
  | negSucc n =>
    change ((0 ^^^ n : ℕ) : ℤ) = _
    rw [Nat.zero_xor]
    omega

theorem mask_emod (k : ℕ) : (2 ^ k - 1 : ℤ) % 2 ^ k = -1 % 2 ^ k := by
  rw [← Int.add_emod_right (a := -1), neg_add_eq_sub]

theorem xor_mask_emod (x : ℤ) (k : ℕ) :
    Int.xor x (2 ^ k - 1) % 2 ^ k = (-1 - x) % 2 ^ k := by
  rw [← xor_neg_one, ← Int.bitwise_xor, ← bitwise_emod rfl, mask_emod, bitwise_emod rfl]

theorem mask_xor_emod (x : ℤ) (k : ℕ) :
    Int.xor (2 ^ k - 1) x % 2 ^ k = (-1 - x) % 2 ^ k := by
  rw [← neg_one_xor, ← Int.bitwise_xor, ← bitwise_emod rfl, mask_emod, bitwise_emod rfl]

theorem lor_mul_two_pow {a b : ℤ} {k : ℕ} (hb : 0 ≤ b) (hb' : b < 2 ^ k) :
    Int.lor (a * 2 ^ k) b = a * 2 ^ k + b := by
  have hpos : (0 : ℤ) < 2 ^ k := by positivity
  obtain ⟨hmod, hdiv⟩ := bitwise_emod_ediv (h := or) rfl (a * 2 ^ k) b k
  rw [Int.bitwise_or] at hmod hdiv
  refine eq_of_emod_ediv (b := 2 ^ k) ?_ ?_
  · rw [hmod, Int.mul_emod_left, Int.emod_eq_of_lt hb hb', add_comm, Int.add_mul_emod_self_right,
      Int.emod_eq_of_lt hb hb']
    change ((0 ||| b.toNat : ℕ) : ℤ) = b
    rw [Nat.zero_or, Int.toNat_of_nonneg hb]
  · rw [hdiv, Int.mul_ediv_cancel _ hpos.ne', Int.ediv_eq_zero_of_lt hb hb',
      lor_zero, add_comm, Int.add_mul_ediv_right _ _ hpos.ne', Int.ediv_eq_zero_of_lt hb hb',
      zero_add]

/-- **The lowest bit of a power of two is its only one.** -/
theorem land_sub_one_eq_zero_iff (x : ℤ) :
    x ≠ 0 ∧ Int.land x (x - 1) = 0 ↔ ∃ k : ℕ, x = 2 ^ k := by
  rcases x with n | n
  · have hpow : (∃ k : ℕ, Int.ofNat n = 2 ^ k) ↔ n.isPowerOfTwo := by
      simp only [Nat.isPowerOfTwo, Int.ofNat_eq_natCast]
      exact exists_congr fun k => by exact_mod_cast Iff.rfl
    rw [hpow, ← Nat.ne_zero_and_sub_one_eq_zero_iff_isPowerOfTwo]
    cases n with
    | zero => simp
    | succ n =>
      have hsub : Int.ofNat (n + 1) - 1 = Int.ofNat n := by
        rw [Int.ofNat_eq_natCast, Int.ofNat_eq_natCast]
        omega
      rw [hsub, Nat.add_sub_cancel]
      refine and_congr (by rw [Int.ofNat_eq_natCast]; omega) ?_
      change ((((n + 1) &&& n : ℕ) : ℤ) = 0) ↔ _
      exact Int.natCast_eq_zero
  · -- a conjunction of negative numbers is negative
    refine iff_of_false ?_ ?_
    · rintro ⟨-, h⟩
      cases h
    · rintro ⟨k, hk⟩
      have : (0 : ℤ) < 2 ^ k := by positivity
      have := Int.negSucc_lt_zero n
      omega

end IntBitwise
