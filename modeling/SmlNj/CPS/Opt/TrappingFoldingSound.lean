import SmlNj.CPS.Opt.PureFoldingArith

/-!
# Where the contraction of trapping arithmetic is faithful

The literals that are computed for two literal operands are those of the numbers that the operands
stand for, unless an operand is an unsigned literal of a negative number: then the sum, the product
or the quotient is that of another number.

## Main definitions

* `reading` — the number that a literal stands for.

## Main results

* `arith_faithful_iff` — a contraction is faithful exactly off `MisfoldedTrapping`.
* `not_faithful_div` — a division of two literals that has another quotient.
-/

namespace SmlNj.ContractPrim

open CPS TwosComplement

/-- The number that a literal stands for, where `p` is the value of the sign bit. -/
def reading (p i : ℤ) : ℤ := if p ≤ i then i - 2 * p else i

theorem reading_of_le {p i : ℤ} (h : p ≤ i) : reading p i = i - 2 * p := if_pos h

theorem reading_of_lt {p i : ℤ} (h : i < p) : reading p i = i := if_neg (not_le.2 h)

def Fits (p n : ℤ) : Prop := -p ≤ n ∧ n < p

section

variable {ρ : Lvar → ℤ} {sz : ℕ} {oper : P.ArithOp} {args : List Value} {u v w : Value}

variable {n : IntConst} {t p i j x y : ℤ} {ty : IntTy} {k : ℕ} {f : ℤ → ℤ → ℤ}

theorem signedValue_num (hsz : 0 < sz) (h : Literal sz n.ival) :
    signedValue ρ sz (.num n) = reading (2 ^ (sz - 1)) n.ival := by
  have hd := two_pow_eq_double hsz
  have hlit := h
  rw [signedValue, value_num, signed_emod]
  rcases lt_or_ge n.ival (2 ^ (sz - 1)) with hlt | hge
  · rw [reading_of_lt hlt, signed_of_bounds hsz hlit.1 hlt]
  · rw [reading_of_le hge, signed_eq_sub hge hlit.2 hsz, hd]

theorem fits_signedValue (hsz : 0 < sz) : Fits (2 ^ (sz - 1)) (signedValue ρ sz v) :=
  signed_bounds hsz _

theorem checked_of_fits {n : ℤ} (h : Fits (2 ^ (sz - 1)) n) :
    Conv.checked sz n = some (unsigned sz n) := by
  rw [Conv.checked, if_pos ⟨h.1, Int.le_sub_one_of_lt h.2⟩]

theorem checked_eq_none {n : ℤ} : Conv.checked sz n = none ↔ ¬Fits (2 ^ (sz - 1)) n := by
  rw [Conv.checked, Fits]
  split
  · next h => exact iff_of_false (by simp) (fun hn => hn ⟨h.1, by omega⟩)
  · next h => exact iff_of_true rfl (fun hn => h ⟨hn.1, by omega⟩)

theorem eq_of_unsigned_eq {m n : ℤ} (hsz : 0 < sz) (hm : Fits (2 ^ (sz - 1)) m)
    (hn : Fits (2 ^ (sz - 1)) n) (h : unsigned sz m = unsigned sz n) : m = n := by
  rw [← signed_of_bounds hsz hm.1 hm.2, ← signed_of_bounds hsz hn.1 hn.2, ← signed_emod, h,
    signed_emod]

theorem checked_eq_some_iff {n : ℤ} (hsz : 0 < sz) (hn : Fits (2 ^ (sz - 1)) n) :
    Conv.checked sz t = some (unsigned sz n) ↔ t = n := by
  constructor
  · intro h
    have ht : Fits (2 ^ (sz - 1)) t := by
      by_contra hnot
      rw [checked_eq_none.2 hnot] at h
      cases h
    rw [checked_of_fits ht, Option.some_inj] at h
    exact eq_of_unsigned_eq hsz ht hn h
  · rintro rfl
    exact checked_of_fits hn

theorem reading_add_iff (hi : -p ≤ i) (hj : -p ≤ j) :
    (-p ≤ i + j ∧ i + j < p → reading p i + reading p j = i + j) ↔
      ¬((p ≤ i ∨ p ≤ j) ∧ i + j < p) := by
  unfold reading
  split_ifs <;> omega

theorem reading_sub_iff (hp : 0 < p) :
    (-p ≤ i - j ∧ i - j < p → reading p i - reading p j = i - j) ↔
      ¬((p ≤ i ↔ ¬p ≤ j) ∧ -p ≤ i - j ∧ i - j < p) := by
  unfold reading
  split_ifs <;> omega

theorem reading_neg_iff (hp : 0 < p) : (-p ≤ -i ∧ -i < p → -reading p i = -i) ↔ i ≠ p := by
  unfold reading
  split_ifs <;> omega

theorem mul_fits_of_le (hi : p ≤ i) (hzero : j ≠ 0) (hone : j ≠ 1) (hfit : -p ≤ i * j ∧ i * j < p) :
    i = p ∧ j = -1 := by
  have hneg : j < 0 := by
    by_contra hnn
    have hprod : p * 2 ≤ i * j := mul_le_mul hi (by omega) (by omega) (by omega)
    omega
  have hminus : j = -1 := by
    by_contra hne
    have hprod : p * 2 ≤ i * -j := mul_le_mul hi (by omega) (by omega) (by omega)
    rw [mul_neg] at hprod
    omega
  subst hminus
  exact ⟨by omega, rfl⟩

theorem reading_mul_iff (hp : 2 ≤ p) (hi : i ≠ 0 ∧ i ≠ 1) (hj : j ≠ 0 ∧ j ≠ 1) :
    (-p ≤ i * j ∧ i * j < p → reading p i * reading p j = i * j) ↔
      ¬(i = p ∧ j = -1 ∨ i = -1 ∧ j = p) := by
  constructor
  · rintro h (⟨rfl, rfl⟩ | ⟨rfl, rfl⟩)
    · rw [reading_of_le le_rfl, reading_of_lt (by omega)] at h
      omega
    · rw [reading_of_le le_rfl, reading_of_lt (by omega)] at h
      omega
  · intro h hfit
    have hi' : i < p := by
      by_contra hge
      exact h (Or.inl (mul_fits_of_le (not_lt.1 hge) hj.1 hj.2 hfit))
    have hj' : j < p := by
      by_contra hge
      rw [mul_comm] at hfit
      exact h (Or.inr (mul_fits_of_le (not_lt.1 hge) hi.1 hi.2 hfit).symm)
    rw [reading_of_lt hi', reading_of_lt hj']

/-! ### Quotients -/

/-- What is computed for a quotient that is `n` agrees with the quotient `t`: the same number, or
none that fits. -/
def Agrees (p n t : ℤ) : Prop := (Fits p n → t = n) ∧ (¬Fits p n → ¬Fits p t)

theorem agrees_refl (p n : ℤ) : Agrees p n n := ⟨fun _ => rfl, id⟩

theorem not_agrees_of_fits {n : ℤ} (hn : Fits p n) (hne : t ≠ n) : ¬Agrees p n t :=
  fun h => hne (h.1 hn)

theorem not_agrees_neg (hi : p ≤ i) (hi' : i < 2 * p) : ¬Agrees p (-i) (-(i - 2 * p)) := by
  rintro ⟨hfit, hnot⟩
  by_cases hn : Fits p (-i)
  · have := hfit hn
    omega
  · refine hnot hn ?_
    unfold Fits at hn ⊢
    omega

theorem not_agrees_both (hp : 2 ≤ p) (hi : p ≤ i) (hi' : i < 2 * p) (hj : p ≤ j) (hj' : j < 2 * p)
    (hne : i ≠ j) : ¬Agrees p (i / j) ((2 * p - i) / (2 * p - j)) := by
  rcases lt_or_gt_of_ne hne with hlt | hgt
  · have hone := one_le_ediv (show 0 < 2 * p - j by omega) (show 2 * p - j ≤ 2 * p - i by omega)
    rw [Int.ediv_eq_zero_of_lt (show 0 ≤ i by omega) hlt]
    refine not_agrees_of_fits ?_ (by omega)
    unfold Fits
    omega
  · have hone := one_le_ediv (show 0 < j by omega) hgt.le
    have htwo : i / j < 2 := Int.ediv_lt_of_lt_mul (by omega) (by omega)
    rw [Int.ediv_eq_zero_of_lt (show 0 ≤ 2 * p - i by omega) (by omega)]
    refine not_agrees_of_fits ?_ (by omega)
    unfold Fits
    omega

theorem fits_ediv (hx : -(2 * p) ≤ x) (hx' : x < 2 * p) (hy : 2 ≤ y) : Fits p (x / y) := by
  constructor
  · refine Int.le_ediv_of_mul_le (by omega) ?_
    nlinarith
  · refine Int.ediv_lt_of_lt_mul (by omega) ?_
    nlinarith

theorem fdiv_neg_right (hy : 0 ≤ y) : i.fdiv (-y) = -i / y := by
  rw [← neg_neg i, Int.neg_fdiv_neg, Int.fdiv_eq_ediv_of_nonneg _ hy, neg_neg]

theorem not_agrees_fdiv_left (hi : p ≤ i) (hi' : i < 2 * p) (hj : -p ≤ j) (hj' : j < p)
    (hzero : j ≠ 0) (hone : j ≠ 1) : ¬Agrees p (i.fdiv j) ((i - 2 * p).fdiv j) := by
  rcases le_or_gt 0 j with hnn | hneg
  · rw [Int.fdiv_eq_ediv_of_nonneg _ hnn, Int.fdiv_eq_ediv_of_nonneg _ hnn]
    have hpos := Int.ediv_nonneg (show 0 ≤ i by omega) hnn
    have hlt := Int.ediv_neg_of_neg_of_pos (show i - 2 * p < 0 by omega) (show 0 < j by omega)
    exact not_agrees_of_fits (fits_ediv (by omega) hi' (by omega)) (by omega)
  · obtain ⟨y, rfl⟩ : ∃ y, j = -y := ⟨-j, by omega⟩
    rw [fdiv_neg_right (by omega), fdiv_neg_right (by omega)]
    rcases eq_or_ne y 1 with rfl | hy
    · rw [Int.ediv_one, Int.ediv_one]
      exact not_agrees_neg hi hi'
    · have hlt := Int.ediv_neg_of_neg_of_pos (show -i < 0 by omega) (show 0 < y by omega)
      have hpos := Int.ediv_nonneg (show 0 ≤ -(i - 2 * p) by omega) (show 0 ≤ y by omega)
      exact not_agrees_of_fits (fits_ediv (by omega) (by omega) (by omega)) (by omega)

theorem not_agrees_fdiv_right (hp : 2 ≤ p) (hi : -p ≤ i) (hi' : i < p) (hj : p ≤ j)
    (hj' : j < 2 * p) (hzero : i ≠ 0) : ¬Agrees p (i.fdiv j) (i.fdiv (j - 2 * p)) := by
  have hread : i.fdiv (j - 2 * p) = -i / (2 * p - j) := by
    rw [← fdiv_neg_right (by omega), neg_sub]
  rw [Int.fdiv_eq_ediv_of_nonneg _ (show 0 ≤ j by omega)]
  refine not_agrees_of_fits (fits_ediv (by omega) (by omega) (by omega)) ?_
  rcases le_or_gt 0 i with hnn | hneg
  · have hpos := Int.ediv_nonneg hnn (show 0 ≤ j by omega)
    have hlt := Int.ediv_neg_of_neg_of_pos (show -i < 0 by omega) (show 0 < 2 * p - j by omega)
    omega
  · have hlt := Int.ediv_neg_of_neg_of_pos hneg (show 0 < j by omega)
    have hpos := Int.ediv_nonneg (show 0 ≤ -i by omega) (show 0 ≤ 2 * p - j by omega)
    omega

/-- **The quotient of two literals, rounded down.** -/
theorem agrees_fdiv_iff (hp : 2 ≤ p) (hi : -p ≤ i ∧ i < 2 * p) (hj : -p ≤ j ∧ j < 2 * p)
    (hzero : j ≠ 0) (hone : j ≠ 1) :
    Agrees p (i.fdiv j) ((reading p i).fdiv (reading p j)) ↔
      ¬((p ≤ i ∨ p ≤ j) ∧ i ≠ 0 ∧ i ≠ j) := by
  rcases lt_or_ge i p with hip | hip <;> rcases lt_or_ge j p with hjp | hjp
  · rw [reading_of_lt hip, reading_of_lt hjp]
    exact iff_of_true (agrees_refl p _) (by omega)
  · rw [reading_of_lt hip, reading_of_le hjp]
    rcases eq_or_ne i 0 with rfl | hi0
    · rw [Int.zero_fdiv]
      exact iff_of_true (agrees_refl p 0) (by omega)
    · exact iff_of_false (not_agrees_fdiv_right hp hi.1 hip hjp hj.2 hi0) (by omega)
  · rw [reading_of_le hip, reading_of_lt hjp]
    exact iff_of_false (not_agrees_fdiv_left hip hi.2 hj.1 hjp hzero hone) (by omega)
  · rw [reading_of_le hip, reading_of_le hjp]
    rcases eq_or_ne i j with rfl | hne
    · rw [Int.fdiv_self hzero, Int.fdiv_self (by omega)]
      exact iff_of_true (agrees_refl p 1) (by omega)
    · rw [Int.fdiv_eq_ediv_of_nonneg _ (show 0 ≤ j by omega), ← neg_sub (2 * p) j,
        fdiv_neg_right (by omega), neg_sub]
      exact iff_of_false (not_agrees_both hp hip hi.2 hjp hj.2 hne) (by omega)

theorem not_agrees_tdiv_left (hi : p ≤ i) (hi' : i < 2 * p) (hj : -p ≤ j) (hj' : j < p)
    (hzero : j ≠ 0) (hone : j ≠ 1) : ¬Agrees p (i.tdiv j) ((i - 2 * p).tdiv j) := by
  rw [← neg_sub (2 * p) i, Int.neg_tdiv]
  rcases le_or_gt 0 j with hnn | hneg
  · rw [Int.tdiv_eq_ediv_of_nonneg (by omega), Int.tdiv_eq_ediv_of_nonneg (by omega)]
    have hpos := one_le_ediv (show 0 < j by omega) (show j ≤ i by omega)
    have hpos' := Int.ediv_nonneg (show 0 ≤ 2 * p - i by omega) hnn
    exact not_agrees_of_fits (fits_ediv (by omega) hi' (by omega)) (by omega)
  · obtain ⟨y, rfl⟩ : ∃ y, j = -y := ⟨-j, by omega⟩
    rw [Int.tdiv_neg, Int.tdiv_neg, neg_neg]
    rcases eq_or_ne y 1 with rfl | hy
    · rw [Int.tdiv_one, Int.tdiv_one, ← neg_sub i (2 * p)]
      exact not_agrees_neg hi hi'
    · rw [Int.tdiv_eq_ediv_of_nonneg (by omega), Int.tdiv_eq_ediv_of_nonneg (by omega)]
      have hpos := one_le_ediv (show 0 < y by omega) (show y ≤ i by omega)
      have hpos' := Int.ediv_nonneg (show 0 ≤ 2 * p - i by omega) (show 0 ≤ y by omega)
      have hfit := fits_ediv (show -(2 * p) ≤ i by omega) hi' (show 2 ≤ y by omega)
      refine not_agrees_of_fits ?_ (by omega)
      unfold Fits at hfit ⊢
      omega

theorem agrees_zero_iff (hp : 0 < p) (hx : 0 ≤ x) (hy : 0 < y) (ht : t = x / y ∨ t = -(x / y)) :
    Agrees p 0 t ↔ x < y := by
  have hiff : x / y = 0 ↔ x < y := by
    constructor
    · intro h
      by_contra hge
      have := one_le_ediv hy (not_lt.1 hge)
      omega
    · exact Int.ediv_eq_zero_of_lt hx
  have hzero : t = 0 ↔ x / y = 0 := by omega
  rw [← hiff, ← hzero]
  constructor
  · intro h
    exact h.1 ⟨by omega, hp⟩
  · rintro rfl
    exact agrees_refl p 0

theorem agrees_tdiv_right_iff (hp : 2 ≤ p) (hi : -p ≤ i) (hi' : i < p) (hj : p ≤ j)
    (hj' : j < 2 * p) : Agrees p (i.tdiv j) (i.tdiv (j - 2 * p)) ↔ ¬2 * p ≤ j + |i| := by
  rw [← neg_sub (2 * p) j, Int.tdiv_neg]
  rcases le_or_gt 0 i with hnn | hneg
  · rw [Int.tdiv_eq_ediv_of_nonneg hnn, Int.tdiv_eq_ediv_of_nonneg hnn, abs_of_nonneg hnn,
      Int.ediv_eq_zero_of_lt hnn (show i < j by omega),
      agrees_zero_iff (by omega) hnn (show 0 < 2 * p - j by omega) (Or.inr rfl)]
    omega
  · obtain ⟨x, rfl⟩ : ∃ x, i = -x := ⟨-i, by omega⟩
    rw [Int.neg_tdiv, Int.neg_tdiv, neg_neg, Int.tdiv_eq_ediv_of_nonneg (by omega),
      Int.tdiv_eq_ediv_of_nonneg (by omega), abs_neg, abs_of_nonneg (show 0 ≤ x by omega)]
    rcases lt_or_ge x j with hlt | hge
    · rw [Int.ediv_eq_zero_of_lt (show 0 ≤ x by omega) hlt, neg_zero,
        agrees_zero_iff (by omega) (show 0 ≤ x by omega) (show 0 < 2 * p - j by omega) (Or.inl rfl)]
      omega
    · -- both are the least number
      obtain rfl : x = j := by omega
      obtain rfl : x = p := by omega
      rw [show 2 * x - x = x by ring, Int.ediv_self (by omega)]
      refine iff_of_false (not_agrees_of_fits ?_ (by omega)) (by omega)
      unfold Fits
      omega

/-- **The quotient of two literals, rounded towards zero.** -/
theorem agrees_tdiv_iff (hp : 2 ≤ p) (hi : -p ≤ i ∧ i < 2 * p) (hj : -p ≤ j ∧ j < 2 * p)
    (hzero : j ≠ 0) (hone : j ≠ 1) :
    Agrees p (i.tdiv j) ((reading p i).tdiv (reading p j)) ↔
      ¬(p ≤ i ∧ i ≠ j ∨ ¬p ≤ i ∧ p ≤ j ∧ 2 * p ≤ j + |i|) := by
  rcases lt_or_ge i p with hip | hip <;> rcases lt_or_ge j p with hjp | hjp
  · rw [reading_of_lt hip, reading_of_lt hjp]
    exact iff_of_true (agrees_refl p _) (by omega)
  · rw [reading_of_lt hip, reading_of_le hjp, agrees_tdiv_right_iff hp hi.1 hip hjp hj.2]
    omega
  · rw [reading_of_le hip, reading_of_lt hjp]
    exact iff_of_false (not_agrees_tdiv_left hip hi.2 hj.1 hjp hzero hone) (by omega)
  · rw [reading_of_le hip, reading_of_le hjp]
    rcases eq_or_ne i j with rfl | hne
    · rw [Int.tdiv_self hzero, Int.tdiv_self (by omega)]
      exact iff_of_true (agrees_refl p 1) (by omega)
    · rw [Int.tdiv_eq_ediv_of_nonneg (show 0 ≤ i by omega), ← neg_sub (2 * p) i,
        ← neg_sub (2 * p) j, Int.neg_tdiv_neg, Int.tdiv_eq_ediv_of_nonneg (by omega)]
      exact iff_of_false (not_agrees_both hp hip hi.2 hjp hj.2 hne) (by omega)

/-! ### Remainders -/

theorem fmod_neg_right (hy : 0 ≤ y) : i.fmod (-y) = -(-i % y) := by
  rw [← neg_neg i, Int.neg_fmod_neg, Int.fmod_eq_emod_of_nonneg _ hy, neg_neg]

theorem fits_fmod (hj : -p ≤ j) (hj' : j < p) (hzero : j ≠ 0) : Fits p (i.fmod j) := by
  rcases le_or_gt 0 j with hnn | hneg
  · rw [Int.fmod_eq_emod_of_nonneg _ hnn]
    have hpos := Int.emod_nonneg i hzero
    have hlt := Int.emod_lt_of_pos i (show 0 < j by omega)
    unfold Fits
    omega
  · obtain ⟨y, rfl⟩ : ∃ y, j = -y := ⟨-j, by omega⟩
    rw [fmod_neg_right (by omega)]
    have hpos := Int.emod_nonneg (-i) (show y ≠ 0 by omega)
    have hlt := Int.emod_lt_of_pos (-i) (show 0 < y by omega)
    unfold Fits
    omega

theorem fmod_eq_fmod_iff {k : ℤ} : i.fmod j = k.fmod j ↔ j ∣ i - k := by
  have hi := Int.mul_fdiv_add_fmod i j
  have hk := Int.mul_fdiv_add_fmod k j
  constructor
  · intro h
    refine ⟨i.fdiv j - k.fdiv j, ?_⟩
    rw [mul_sub]
    omega
  · rintro ⟨q, hq⟩
    obtain rfl : i = k + q * j := by rw [mul_comm]; omega
    exact Int.add_mul_fmod_self_right k q j

theorem fmod_right_iff (hp : 2 ≤ p) (hi : -p ≤ i) (hi' : i < p) (hj : p ≤ j) (hj' : j < 2 * p) :
    (Fits p (i.fmod j) → i.fmod (j - 2 * p) = i.fmod j) ↔
      ¬(i ≠ 0 ∧ i + j ≠ 0 ∧ (0 < i ∨ i + j < p)) := by
  have hread : i.fmod (j - 2 * p) = -(-i % (2 * p - j)) := by
    rw [← fmod_neg_right (by omega), neg_sub]
  have hnn := Int.emod_nonneg (-i) (show 2 * p - j ≠ 0 by omega)
  rw [hread, Int.fmod_eq_emod_of_nonneg _ (show 0 ≤ j by omega), Fits]
  rcases lt_trichotomy i 0 with hneg | rfl | hpos
  · rcases eq_or_ne (i + j) 0 with hsum | hsum
    · -- both are the least number
      obtain rfl : i = -j := by omega
      obtain rfl : j = p := by omega
      rw [show 2 * j - j = j by ring, neg_neg, Int.emod_self, Int.neg_emod_self]
      exact iff_of_true (fun _ => rfl) (by omega)
    · have hmod : i % j = i + j := by
        rw [← Int.add_emod_right, Int.emod_eq_of_lt (by omega) (by omega)]
      omega
  · rw [neg_zero]
    exact iff_of_true (fun _ => rfl) (by omega)
  · rw [Int.emod_eq_of_lt hpos.le (show i < j by omega)]
    omega

theorem emod_both_iff (hi : p ≤ i) (hi' : i < 2 * p) (hj : p ≤ j) (hj' : j < 2 * p) :
    (Fits p (i % j) → -((2 * p - i) % (2 * p - j)) = i % j) ↔ ¬j < i := by
  have hnn := Int.emod_nonneg (2 * p - i) (show 2 * p - j ≠ 0 by omega)
  unfold Fits
  rcases lt_trichotomy i j with hlt | rfl | hgt
  · rw [Int.emod_eq_of_lt (show 0 ≤ i by omega) hlt]
    omega
  · rw [Int.emod_self, Int.emod_self]
    exact iff_of_true (fun _ => neg_zero) (by omega)
  · have hmod : i % j = i - j := by
      rw [← Int.sub_emod_right, Int.emod_eq_of_lt (by omega) (by omega)]
    omega

/-- **The remainder of two literals, with the sign of the divisor.** -/
theorem reading_fmod_iff (hp : 2 ≤ p) (hi : -p ≤ i ∧ i < 2 * p) (hj : -p ≤ j ∧ j < 2 * p)
    (hzero : j ≠ 0) :
    (Fits p (i.fmod j) → (reading p i).fmod (reading p j) = i.fmod j) ↔
      ¬(p ≤ i ∧ ¬p ≤ j ∧ ¬j ∣ 2 * p ∨ p ≤ i ∧ p ≤ j ∧ j < i ∨
        ¬p ≤ i ∧ p ≤ j ∧ i ≠ 0 ∧ i + j ≠ 0 ∧ (0 < i ∨ i + j < p)) := by
  rcases lt_or_ge i p with hip | hip <;> rcases lt_or_ge j p with hjp | hjp
  · rw [reading_of_lt hip, reading_of_lt hjp]
    exact iff_of_true (fun _ => rfl) (by omega)
  · rw [reading_of_lt hip, reading_of_le hjp, fmod_right_iff hp hi.1 hip hjp hj.2]
    omega
  · have hdvd : j ∣ i - 2 * p - i ↔ j ∣ 2 * p := by
      rw [show i - 2 * p - i = -(2 * p) by ring, Int.dvd_neg]
    rw [reading_of_le hip, reading_of_lt hjp, fmod_eq_fmod_iff]
    simp [fits_fmod hj.1 hjp hzero, hip, not_le.2 hjp]
  · have hread : (i - 2 * p).fmod (j - 2 * p) = -((2 * p - i) % (2 * p - j)) := by
      rw [← neg_sub (2 * p) j, fmod_neg_right (by omega), neg_sub]
    rw [reading_of_le hip, reading_of_le hjp, hread,
      Int.fmod_eq_emod_of_nonneg _ (show 0 ≤ j by omega), emod_both_iff hip hi.2 hjp hj.2]
    omega

theorem tmod_left_iff (hi : p ≤ i) (hi' : i < 2 * p) (hj : -p ≤ j) (hj' : j < p) (hzero : j ≠ 0) :
    (Fits p (i.tmod j) → (i - 2 * p).tmod j = i.tmod j) ↔ j ∣ i ∧ j ∣ 2 * p := by
  have hnn := Int.tmod_nonneg j (show 0 ≤ i by omega)
  have hnn' := Int.tmod_nonneg j (show 0 ≤ 2 * p - i by omega)
  have hlt : i.tmod j < |j| := by
    rw [Int.tmod_eq_emod_of_nonneg (by omega)]
    exact Int.emod_lt_abs i hzero
  have habs := abs_le.2 ⟨hj, hj'.le⟩
  have hread : (i - 2 * p).tmod j = -(2 * p - i).tmod j := by
    rw [← neg_sub (2 * p) i, Int.neg_tmod]
  have hfit : Fits p (i.tmod j) := ⟨by omega, by omega⟩
  have hdvd : j ∣ i ∧ j ∣ 2 * p ↔ j ∣ i ∧ j ∣ 2 * p - i :=
    and_congr_right fun h => (dvd_sub_left h).symm
  rw [hdvd, Int.dvd_iff_tmod_eq_zero, Int.dvd_iff_tmod_eq_zero, hread]
  constructor
  · intro h
    have := h hfit
    omega
  · rintro ⟨hz, hz'⟩ -
    rw [hz, hz', neg_zero]

theorem emod_eq_self_iff (hx : 0 ≤ x) (hy : 0 < y) : x % y = x ↔ x < y := by
  constructor
  · intro h
    rw [← h]
    exact Int.emod_lt_of_pos x hy
  · exact Int.emod_eq_of_lt hx

theorem tmod_right_iff (hi : -p ≤ i) (hi' : i < p) (hj : p ≤ j) (hj' : j < 2 * p) :
    (Fits p (i.tmod j) → i.tmod (j - 2 * p) = i.tmod j) ↔ ¬(2 * p ≤ j + |i| ∧ i + j ≠ 0) := by
  rw [← neg_sub (2 * p) j, Int.tmod_neg]
  rcases le_or_gt 0 i with hnn | hneg
  · rw [Int.tmod_eq_emod_of_nonneg hnn, Int.tmod_eq_emod_of_nonneg hnn, abs_of_nonneg hnn,
      Int.emod_eq_of_lt hnn (show i < j by omega),
      emod_eq_self_iff hnn (show 0 < 2 * p - j by omega), Fits]
    omega
  · obtain ⟨x, rfl⟩ : ∃ x, i = -x := ⟨-i, by omega⟩
    rw [Int.neg_tmod, Int.neg_tmod, Int.tmod_eq_emod_of_nonneg (by omega),
      Int.tmod_eq_emod_of_nonneg (by omega), abs_neg, abs_of_nonneg (show 0 ≤ x by omega), neg_inj]
    rcases lt_or_ge x j with hlt | hge
    · rw [Int.emod_eq_of_lt (show 0 ≤ x by omega) hlt,
        emod_eq_self_iff (show 0 ≤ x by omega) (show 0 < 2 * p - j by omega), Fits]
      omega
    · -- both are the least number
      obtain rfl : x = j := by omega
      obtain rfl : x = p := by omega
      rw [show 2 * x - x = x by ring]
      exact iff_of_true (fun _ => rfl) (by omega)

/-- **The remainder of two literals, with the sign of the dividend.** -/
theorem reading_tmod_iff (hi : -p ≤ i ∧ i < 2 * p) (hj : -p ≤ j ∧ j < 2 * p) (hzero : j ≠ 0) :
    (Fits p (i.tmod j) → (reading p i).tmod (reading p j) = i.tmod j) ↔
      ¬(p ≤ i ∧ ¬p ≤ j ∧ ¬(j ∣ i ∧ j ∣ 2 * p) ∨ p ≤ i ∧ p ≤ j ∧ j < i ∨
        ¬p ≤ i ∧ p ≤ j ∧ 2 * p ≤ j + |i| ∧ i + j ≠ 0) := by
  rcases lt_or_ge i p with hip | hip <;> rcases lt_or_ge j p with hjp | hjp
  · rw [reading_of_lt hip, reading_of_lt hjp]
    exact iff_of_true (fun _ => rfl) (by omega)
  · rw [reading_of_lt hip, reading_of_le hjp, tmod_right_iff hi.1 hip hjp hj.2]
    omega
  · rw [reading_of_le hip, reading_of_lt hjp, tmod_left_iff hip hi.2 hj.1 hjp hzero]
    simp [hip, not_le.2 hjp]
  · have hread : (i - 2 * p).tmod (j - 2 * p) = -((2 * p - i) % (2 * p - j)) := by
      rw [← neg_sub (2 * p) i, ← neg_sub (2 * p) j, Int.neg_tmod, Int.tmod_neg,
        Int.tmod_eq_emod_of_nonneg (by omega)]
    rw [reading_of_le hip, reading_of_le hjp, hread,
      Int.tmod_eq_emod_of_nonneg (show 0 ≤ i by omega), emod_both_iff hip hi.2 hjp hj.2]
    omega

/-! ### Contractions -/

def settled : Except Exn Result → Result
  | .ok r => r
  | .error _ => .none

theorem faithfulTrapping_iff {r : Result}
    (hexec : execSigned oper (args.map (signedValue ρ sz)) = some t) :
    FaithfulTrapping ρ oper sz args r ↔
      r.outcomeTrapping ρ oper sz args = some (Conv.checked sz t) := by
  have hrun : execTrapping ρ oper sz args = some (Conv.checked sz t) := by
    rw [execTrapping, hexec, Option.map_some]
  constructor
  · intro h
    exact h _ hrun
  · intro h o ho
    rw [h, ← hrun, ho]

theorem faithfulTrapping_none : FaithfulTrapping ρ oper sz args .none := fun _ ho => ho

theorem faithfulTrapping_val (hsz : 0 < sz) (hv : Operand ρ sz v)
    (hexec : execSigned oper (args.map (signedValue ρ sz)) = some (signedValue ρ sz v)) :
    FaithfulTrapping ρ oper sz args (.val v) := by
  refine (faithfulTrapping_iff hexec).2 (congrArg some ?_)
  exact (Conv.checked_signed_self hsz (pattern_value hv)).symm

theorem faithfulTrapping_num {n : ℤ} (hsz : 0 < sz) (hn : Fits (2 ^ (sz - 1)) n)
    (hexec : execSigned oper (args.map (signedValue ρ sz)) = some t) :
    FaithfulTrapping ρ oper sz args (.val (.num ⟨n, ty⟩)) ↔ t = n := by
  rw [faithfulTrapping_iff hexec, Result.outcomeTrapping, value_num, Option.some_inj,
    eq_comm, checked_eq_some_iff hsz hn]

theorem faithfulTrapping_arith {q : P.ArithOp} {args' : List Value}
    (hexec : execSigned oper (args.map (signedValue ρ sz)) = some t)
    (hexec' : execSigned q (args'.map (signedValue ρ sz)) = some t) :
    FaithfulTrapping ρ oper sz args (.arith (.iarith q sz) args') := by
  rw [faithfulTrapping_iff hexec, Result.outcomeTrapping, execTrapping, hexec', Option.map_some]

theorem faithfulTrapping_pure {q : P.Pure} {args' : List Value} {n : ℤ} (hsz : 0 < sz)
    (hexec : execSigned oper (args.map (signedValue ρ sz)) = some t)
    (hexec' : exec ρ q args' = some (unsigned sz n)) (hn : Fits (2 ^ (sz - 1)) n) :
    FaithfulTrapping ρ oper sz args (.pure q args') ↔ t = n := by
  rw [faithfulTrapping_iff hexec, Result.outcomeTrapping, hexec', Option.map_some,
    Option.some_inj, eq_comm, checked_eq_some_iff hsz hn]

theorem sNarrow_of_fits {n : ℤ} (h : Fits (2 ^ (sz - 1)) n) : ConstArith.sNarrow sz n = .ok n := by
  rw [Fits] at h
  rw [ConstArith.sNarrow, if_neg]
  rw [ConstArith.pow2]
  omega

theorem sNarrow_of_not_fits {n : ℤ} (h : ¬Fits (2 ^ (sz - 1)) n) :
    ConstArith.sNarrow sz n = .error .overflow := by
  rw [Fits] at h
  rw [ConstArith.sNarrow, if_pos]
  rw [ConstArith.pow2]
  omega

/-- **The computation of a literal**: there is no contraction when it does not fit. -/
theorem settled_fold_faithful_iff {n : ℤ} (hsz : 0 < sz)
    (hexec : execSigned oper (args.map (signedValue ρ sz)) = some t) :
    FaithfulTrapping ρ oper sz args (settled (fold (ConstArith.sNarrow sz n) ty)) ↔
      (Fits (2 ^ (sz - 1)) n → t = n) := by
  by_cases hn : Fits (2 ^ (sz - 1)) n
  · rw [sNarrow_of_fits hn]
    exact (faithfulTrapping_num hsz hn hexec).trans (by simp [hn])
  · rw [sNarrow_of_not_fits hn]
    exact iff_of_true faithfulTrapping_none fun h => absurd h hn

theorem outcomeTrapping_raiseOvflw :
    raiseOvflw.outcomeTrapping ρ oper sz args = some none := by
  have hmax : signedValue ρ Target.mlValueSz
      (.num ⟨2 ^ (Target.mlValueSz - 1) - 1, ⟨Target.mlValueSz, false⟩⟩) = 2 ^ 63 - 1 := by
    rw [signedValue, value_num]
    decide
  simp only [raiseOvflw, Result.outcomeTrapping, execTrapping, List.map_cons, List.map_nil, hmax]
  decide

/-- **The computation of a quotient**: `Overflow` is raised when it does not fit. -/
theorem settled_raise_faithful_iff {n : ℤ} (hsz : 0 < sz)
    (hexec : execSigned oper (args.map (signedValue ρ sz)) = some t) :
    FaithfulTrapping ρ oper sz args
        (settled (handleOverflow (fold (ConstArith.sNarrow sz n) ty) raiseOvflw)) ↔
      (Fits (2 ^ (sz - 1)) n → t = n) ∧ (¬Fits (2 ^ (sz - 1)) n → ¬Fits (2 ^ (sz - 1)) t) := by
  by_cases hn : Fits (2 ^ (sz - 1)) n
  · rw [sNarrow_of_fits hn]
    exact (faithfulTrapping_num hsz hn hexec).trans (by simp [hn])
  · rw [sNarrow_of_not_fits hn]
    refine (faithfulTrapping_iff (r := raiseOvflw) hexec).trans ?_
    rw [outcomeTrapping_raiseOvflw, Option.some_inj, eq_comm, checked_eq_none]
    simp [hn]

/-! ### The operators -/

theorem WellFormedTrapping.four_le (h : WellFormedTrapping ρ oper sz args) :
    (4 : ℤ) ≤ 2 ^ (sz - 1) :=
  two_pow_le (m := 2) (n := sz - 1) (by have := h.size; omega)

theorem WellFormedTrapping.pos (h : WellFormedTrapping ρ oper sz args) : 0 < sz := by
  have := h.size
  omega

/-- The bounds of a literal, where the value of the sign bit is that of the greatest power of
two. -/
theorem WellFormedTrapping.literal (h : WellFormedTrapping ρ oper sz args) (hn : .num n ∈ args) :
    -2 ^ (sz - 1) ≤ n.ival ∧ n.ival < 2 * 2 ^ (sz - 1) := by
  rw [← two_pow_eq_double h.pos]
  exact h.operands _ hn

theorem WellFormedTrapping.signedValue_num (h : WellFormedTrapping ρ oper sz args)
    (hn : .num n ∈ args) : signedValue ρ sz (.num n) = reading (2 ^ (sz - 1)) n.ival :=
  ContractPrim.signedValue_num h.pos (h.operands _ hn)

theorem WellFormedTrapping.signedValue_small {n : ℤ} (h : WellFormedTrapping ρ oper sz args)
    (hn : -4 ≤ n) (hn' : n < 4) : signedValue ρ sz (.num ⟨n, ty⟩) = n := by
  have := h.four_le
  rw [signedValue, value_num, signed_emod]
  exact signed_of_bounds h.pos (show -2 ^ (sz - 1) ≤ n by omega) (show n < 2 ^ (sz - 1) by omega)

theorem not_misfolded_of_forall_ne (h : WellFormedTrapping ρ oper sz args) (hneg : oper ≠ .ineg)
    (hnum : ∀ v j, args ≠ [v, .num j]) : ¬MisfoldedTrapping ρ sz oper args := by
  have htwo : args.length = 2 := by
    rw [h.length]
    cases oper <;> first | rfl | exact absurd rfl hneg
  obtain ⟨v, w, rfl⟩ := List.length_eq_two.1 htwo
  cases w with
  | num j => exact absurd rfl (hnum v j)
  | _ => cases oper <;> cases v <;> exact id

theorem not_misfolded_of_not_literals (h : WellFormedTrapping ρ oper sz args) (hneg : oper ≠ .ineg)
    (hdiv : oper ≠ .idiv) (hmod : oper ≠ .imod) (hnum : ∀ i j, args ≠ [.num i, .num j]) :
    ¬MisfoldedTrapping ρ sz oper args := by
  by_cases hright : ∀ v j, args ≠ [v, .num j]
  · exact not_misfolded_of_forall_ne h hneg hright
  push Not at hright
  obtain ⟨v, j, rfl⟩ := hright
  cases v with
  | num i => exact absurd rfl (hnum i j)
  | _ =>
    cases oper with
    | idiv => exact absurd rfl hdiv
    | imod => exact absurd rfl hmod
    | _ => exact id

theorem iadd_faithful_iff (h : WellFormedTrapping ρ .iadd sz args) :
    FaithfulTrapping ρ .iadd sz args (settled (iadd sz args)) ↔
      ¬MisfoldedTrapping ρ sz .iadd args := by
  have hp := h.four_le
  unfold iadd
  split
  case h_1 ty v | h_2 v ty _ =>
    have hv : Operand ρ sz v := h.operands v (by simp)
    refine iff_of_true (faithfulTrapping_val h.pos hv (congrArg some ?_)) ?_
    · rw [h.signedValue_small (by decide) (by decide)]
      ring
    · cases v with
      | num i => simp only [MisfoldedTrapping.eq_def, Wrapped]; omega
      | _ => exact id
  case h_3 i j hi hj =>
    rw [ConstArith.sAdd, settled_fold_faithful_iff h.pos rfl, h.signedValue_num (by simp),
      h.signedValue_num (by simp)]
    exact reading_add_iff (h.literal (by simp)).1 (h.literal (by simp)).1
  case h_4 hleft hright hnum =>
    exact iff_of_true faithfulTrapping_none
      (not_misfolded_of_not_literals h (by decide) (by decide) (by decide) hnum)

theorem isub_faithful_iff (h : WellFormedTrapping ρ .isub sz args) :
    FaithfulTrapping ρ .isub sz args (settled (isub sz args)) ↔
      ¬MisfoldedTrapping ρ sz .isub args := by
  have hp := h.four_le
  unfold isub
  split
  case h_1 v ty =>
    have hv : Operand ρ sz v := h.operands v (by simp)
    refine iff_of_true (faithfulTrapping_val h.pos hv (congrArg some ?_)) ?_
    · rw [h.signedValue_small (by decide) (by decide), sub_zero]
    · cases v with
      | num i => simp only [MisfoldedTrapping.eq_def, Wrapped]; omega
      | _ => exact id
  case h_2 i j hj =>
    rw [ConstArith.sSub, settled_fold_faithful_iff h.pos rfl, h.signedValue_num (by simp),
      h.signedValue_num (by simp)]
    exact reading_sub_iff (by omega)
  case h_3 hright hnum =>
    exact iff_of_true faithfulTrapping_none
      (not_misfolded_of_not_literals h (by decide) (by decide) (by decide) hnum)

theorem WellFormedTrapping.exists_right {rest : List Value}
    (h : WellFormedTrapping ρ oper sz (v :: rest)) (ho : arity oper = 2) : ∃ w, rest = [w] := by
  have hlen := h.length
  rw [ho] at hlen
  exact List.length_eq_one_iff.1 (by simpa using hlen)

theorem WellFormedTrapping.rest_eq_nil {rest : List Value}
    (h : WellFormedTrapping ρ oper sz (v :: w :: rest)) (ho : arity oper = 2) : rest = [] := by
  obtain ⟨w', hw⟩ := h.exists_right ho
  exact (List.cons.inj hw).2

theorem imul_faithful_iff (h : WellFormedTrapping ρ .imul sz args) :
    FaithfulTrapping ρ .imul sz args (settled (imul sz args)) ↔
      ¬MisfoldedTrapping ρ sz .imul args := by
  have hp := h.four_le
  unfold imul
  split
  case h_1 ty v rest | h_2 v ty rest _ =>
    obtain rfl := h.rest_eq_nil rfl
    have hv : Operand ρ sz v := h.operands v (by simp)
    refine iff_of_true (faithfulTrapping_val h.pos hv (congrArg some ?_)) ?_
    · rw [h.signedValue_small (by decide) (by decide)]
      ring
    · cases v with
      | num i => simp only [MisfoldedTrapping.eq_def]; omega
      | _ => exact id
  case h_3 ty rest _ =>
    obtain ⟨w, rfl⟩ := h.exists_right rfl
    have hv : Operand ρ sz (.num ⟨0, ty⟩) := h.operands _ (by simp)
    refine iff_of_true (faithfulTrapping_val h.pos hv (congrArg some ?_)) ?_
    · rw [h.signedValue_small (by decide) (by decide), zero_mul]
    · cases w with
      | num j => simp only [MisfoldedTrapping.eq_def]; omega
      | _ => exact id
  case h_4 v ty rest _ _ =>
    obtain rfl := h.rest_eq_nil rfl
    have hv : Operand ρ sz (.num ⟨0, ty⟩) := h.operands _ (by simp)
    refine iff_of_true (faithfulTrapping_val h.pos hv (congrArg some ?_)) ?_
    · rw [h.signedValue_small (by decide) (by decide), mul_zero]
    · cases v with
      | num i => simp only [MisfoldedTrapping.eq_def]; omega
      | _ => exact id
  case h_5 i j rest hi1 hj1 hi0 hj0 =>
    obtain rfl := h.rest_eq_nil rfl
    have hi : i.ival ≠ 0 ∧ i.ival ≠ 1 :=
      ⟨fun h => hi0 i.ty (by rw [← h]), fun h => hi1 i.ty (by rw [← h])⟩
    have hj : j.ival ≠ 0 ∧ j.ival ≠ 1 :=
      ⟨fun h => hj0 j.ty (by rw [← h]), fun h => hj1 j.ty (by rw [← h])⟩
    rw [ConstArith.sMul, settled_fold_faithful_iff h.pos rfl, h.signedValue_num (by simp),
      h.signedValue_num (by simp)]
    exact reading_mul_iff (by omega) hi hj
  case h_6 ty v rest hone hzero hv | h_7 v ty rest hone hzero hv
  | h_8 ty v rest hone hzero hv | h_9 v ty rest hone hzero hv =>
    obtain rfl := h.rest_eq_nil rfl
    refine iff_of_true (faithfulTrapping_arith rfl (congrArg some ?_)) ?_
    · rw [h.signedValue_small (by decide) (by decide)]
      ring
    · refine not_misfolded_of_not_literals h (by decide) (by decide) (by decide) fun i j heq => ?_
      cases heq
      exact hv _ rfl
  case h_10 h1 h2 h3 h4 hnum _ _ _ _ =>
    exact iff_of_true faithfulTrapping_none
      (not_misfolded_of_not_literals h (by decide) (by decide) (by decide) fun i j => hnum i j [])

/-! ### Division -/

theorem exec_rshift (hk : k < sz) (hsz : sz < 2 ^ (Target.defaultIntSz - 1)) (v : Value) :
    exec ρ (rshift sz) [v, tagInt k] = some (unsigned sz (signedValue ρ sz v / 2 ^ k)) := by
  change execSized .rshift true sz [value ρ sz v, value ρ Target.defaultIntSz (tagInt k)] = _
  rw [value_tagInt hk hsz, execSized_rshift, if_pos (by exact_mod_cast hk)]
  rfl

theorem fits_ediv_pos (hx : Fits p x) (hy : 0 < y) : Fits p (x / y) := by
  have hp : 0 < p := by
    have := hx.1.trans_lt hx.2
    omega
  have hle : p * 1 ≤ p * y := mul_le_mul_of_nonneg_left (by omega) hp.le
  constructor
  · refine Int.le_ediv_of_mul_le hy ?_
    have := hx.1
    rw [neg_mul]
    omega
  · refine Int.ediv_lt_of_lt_mul hy ?_
    have := hx.2
    omega

theorem neg_ediv_eq_iff (hx : Fits p x) : -x / p = x / p ↔ x = 0 := by
  have hp : 0 < p := by
    have := hx.1.trans_lt hx.2
    omega
  rcases lt_trichotomy x 0 with hneg | rfl | hpos
  · have hlt := Int.ediv_neg_of_neg_of_pos hneg hp
    have hnn := Int.ediv_nonneg (show 0 ≤ -x by omega) hp.le
    omega
  · rw [neg_zero]
    exact iff_of_true rfl rfl
  · have hlt := Int.ediv_neg_of_neg_of_pos (show -x < 0 by omega) hp
    have hnn := Int.ediv_nonneg hpos.le hp.le
    omega

theorem reading_two_pow (hk : k < sz) :
    k < sz - 1 ∧ (2 : ℤ) ^ k < 2 ^ (sz - 1) ∧ reading (2 ^ (sz - 1)) (2 ^ k) = 2 ^ k ∨
      k = sz - 1 ∧ reading (2 ^ (sz - 1)) (2 ^ k) = -2 ^ (sz - 1) := by
  rcases Nat.lt_or_ge k (sz - 1) with hlt | hge
  · have hpow : (2 : ℤ) ^ k < 2 ^ (sz - 1) := pow_lt_pow_right₀ (by norm_num) hlt
    exact Or.inl ⟨hlt, hpow, reading_of_lt hpow⟩
  · obtain rfl : k = sz - 1 := by omega
    refine Or.inr ⟨rfl, ?_⟩
    rw [reading_of_le le_rfl]
    ring

theorem ne_of_log2_eq_none {n : ℤ} (h : log2 n = none) : n ≠ 2 ^ k := by
  rintro rfl
  rw [log2_two_pow] at h
  cases h

theorem reading_ne_zero (hi : i < 2 * p) (hzero : i ≠ 0) : reading p i ≠ 0 := by
  unfold reading
  split_ifs <;> omega

theorem WellFormedTrapping.exec_right {j : IntConst} (h : WellFormedTrapping ρ oper sz args)
    (hj : .num j ∈ args) (hzero : j.ival ≠ 0)
    (hf : ∀ x y, execSigned oper [x, y] = if y = 0 then none else some (f x y)) :
    execSigned oper ([v, Value.num j].map (signedValue ρ sz)) =
      some (f (signedValue ρ sz v) (reading (2 ^ (sz - 1)) j.ival)) := by
  rw [List.map_cons, List.map_cons, List.map_nil, hf, h.signedValue_num hj,
    if_neg (reading_ne_zero (h.literal hj).2 hzero)]

theorem WellFormedTrapping.exec_div {i j : IntConst}
    (h : WellFormedTrapping ρ oper sz [.num i, .num j]) (hzero : j.ival ≠ 0)
    (hf : ∀ x y, execSigned oper [x, y] = if y = 0 then none else some (f x y)) :
    execSigned oper ([Value.num i, Value.num j].map (signedValue ρ sz)) =
      some (f (reading (2 ^ (sz - 1)) i.ival) (reading (2 ^ (sz - 1)) j.ival)) := by
  rw [h.exec_right (by simp) hzero hf, h.signedValue_num (by simp)]

theorem WellFormedTrapping.exec_div_small {n : ℤ} (h : WellFormedTrapping ρ oper sz args)
    (hn : -4 ≤ n) (hn' : n < 4) (hzero : n ≠ 0)
    (hf : ∀ x y, execSigned oper [x, y] = if y = 0 then none else some (f x y)) :
    execSigned oper ([v, Value.num ⟨n, ty⟩].map (signedValue ρ sz)) =
      some (f (signedValue ρ sz v) n) := by
  rw [List.map_cons, List.map_cons, List.map_nil, hf, h.signedValue_small hn hn', if_neg hzero]

theorem idiv_faithful_iff (h : WellFormedTrapping ρ .idiv sz args) :
    FaithfulTrapping ρ .idiv sz args (settled (idiv sz args)) ↔
      ¬MisfoldedTrapping ρ sz .idiv args := by
  have hp := h.four_le
  unfold idiv
  split
  case h_1 v ty rest =>
    obtain rfl := h.rest_eq_nil rfl
    have hv : Operand ρ sz v := h.operands v (by simp)
    refine iff_of_true (faithfulTrapping_val h.pos hv ?_) ?_
    · rw [h.exec_div_small (by decide) (by decide) (by decide) fun _ _ => rfl, Int.fdiv_one]
    · cases v with
      | num i => simp [MisfoldedTrapping.eq_def]
      | _ => simp only [MisfoldedTrapping.eq_def]; omega
  case h_2 v ty rest =>
    obtain rfl := h.rest_eq_nil rfl
    refine iff_of_true faithfulTrapping_none ?_
    cases v with
    | num i => simp [MisfoldedTrapping.eq_def]
    | _ => simp only [MisfoldedTrapping.eq_def]; omega
  case h_3 i j rest hone hzero =>
    obtain rfl := h.rest_eq_nil rfl
    have hone' : j.ival ≠ 1 := fun h => hone j.ty (by rw [← h])
    have hzero' : j.ival ≠ 0 := fun h => hzero j.ty (by rw [← h])
    rw [ConstArith.sDiv, if_neg hzero']
    refine (settled_raise_faithful_iff h.pos (h.exec_div hzero' fun _ _ => rfl)).trans ?_
    refine (agrees_fdiv_iff (by omega) (h.literal (by simp)) (h.literal (by simp)) hzero'
      hone').trans ?_
    simp [MisfoldedTrapping.eq_def, Wrapped, hone', hzero']
  case h_4 v ty rest hv =>
    obtain rfl := h.rest_eq_nil rfl
    have hexec : execSigned .idiv ([v, .num ⟨-1, ty⟩].map (signedValue ρ sz)) =
        some ((signedValue ρ sz v).fdiv (-1)) :=
      h.exec_div_small (by decide) (by decide) (by decide) fun _ _ => rfl
    refine iff_of_true (faithfulTrapping_arith hexec (congrArg some ?_)) ?_
    · rw [fdiv_neg_right (by decide), Int.ediv_one]
    · cases v with
      | num i => exact (hv i rfl).elim
      | _ => simp only [MisfoldedTrapping.eq_def]; omega
  case h_5 v j rest hone hzero hv hminus =>
    obtain rfl := h.rest_eq_nil rfl
    split
    · next k hk =>
      have hlit : Literal sz j.ival := h.operands (.num j) (by simp)
      have hlt := exponent_lt hk hlit
      have hpow := exponent_eq hk
      have hzero' : j.ival ≠ 0 := fun h => hzero j.ty (by rw [← h])
      have hsv : Fits (2 ^ (sz - 1)) (signedValue ρ sz v) := fits_signedValue h.pos
      have hexec := h.exec_right (by simp) hzero' (f := Int.fdiv) (v := v) fun _ _ => rfl
      rw [hpow] at hexec
      have hmis : MisfoldedTrapping ρ sz .idiv [v, .num j] ↔
          (2 : ℤ) ^ k = 2 ^ (sz - 1) ∧ signedValue ρ sz v ≠ 0 := by
        cases v with
        | num i => exact (hv i rfl).elim
        | _ => rw [← hpow]; rfl
      refine (faithfulTrapping_pure h.pos hexec (exec_rshift hlt h.lt v)
        (fits_ediv_pos hsv (pow_pos' k))).trans ?_
      rw [hmis]
      rcases reading_two_pow hlt with ⟨-, hpow', hread⟩ | ⟨rfl, hread⟩
      · rw [hread, Int.fdiv_eq_ediv_of_nonneg _ (pow_pos' k).le]
        exact iff_of_true rfl (by omega)
      · rw [hread, fdiv_neg_right (pow_pos' _).le, neg_ediv_eq_iff hsv]
        simp
    · next hk =>
      have hne := ne_of_log2_eq_none (k := sz - 1) hk
      refine iff_of_true faithfulTrapping_none ?_
      cases v with
      | num i => exact (hv i rfl).elim
      | _ => exact fun h => hne h.1
  case h_6 h1 h2 hnum h3 hright =>
    exact iff_of_true faithfulTrapping_none
      (not_misfolded_of_forall_ne h (by decide) fun v j => hright v j [])

theorem exec_andb (hk : k < sz) (hj : j = 2 ^ k) (v : Value) :
    exec ρ (andb sz) [v, mkNum sz (j - 1)] =
      some (unsigned sz (signedValue ρ sz v % 2 ^ k)) := by
  have hpow := pow_pos' k
  have hmod : signedValue ρ sz v % 2 ^ k = value ρ sz v % 2 ^ k := unsigned_signed hk.le _
  have hle := two_pow_le hk.le
  rw [exec_andb_mask hk hj, hmod, unsigned_of_pattern ⟨Int.emod_nonneg _ hpow.ne', by omega⟩]

theorem fits_emod_two_pow (hk : k < sz) : Fits (2 ^ (sz - 1)) (x % 2 ^ k) := by
  have hle := two_pow_le (show k ≤ sz - 1 by omega)
  exact ⟨by omega, by omega⟩

theorem neg_neg_emod_eq_iff (hx : Fits p x) : -(-x % p) = x % p ↔ x = 0 ∨ x = -p := by
  have hp : 0 < p := by
    have := hx.1.trans_lt hx.2
    omega
  have hlo := hx.1
  have hhi := hx.2
  rcases lt_trichotomy x 0 with hneg | rfl | hpos
  · rcases eq_or_ne x (-p) with rfl | hne
    · simp
    · have hnn := Int.emod_nonneg x hp.ne'
      rw [Int.emod_eq_of_lt (show 0 ≤ -x by omega) (by omega)]
      omega
  · simp
  · have hmod : -x % p = p - x := by
      rw [← Int.add_emod_right, Int.emod_eq_of_lt (by omega) (by omega)]
      ring
    rw [Int.emod_eq_of_lt hpos.le hhi]
    omega

theorem imod_faithful_iff (h : WellFormedTrapping ρ .imod sz args) :
    FaithfulTrapping ρ .imod sz args (settled (imod sz args)) ↔
      ¬MisfoldedTrapping ρ sz .imod args := by
  have hp := h.four_le
  unfold imod
  split
  case h_1 i j rest =>
    obtain rfl := h.rest_eq_nil rfl
    by_cases hzero : j.ival = 0
    · rw [ConstArith.sMod, if_pos hzero]
      refine iff_of_true faithfulTrapping_none ?_
      simp [MisfoldedTrapping.eq_def, hzero]
    · rw [ConstArith.sMod, if_neg hzero]
      refine (settled_fold_faithful_iff h.pos (h.exec_div hzero fun _ _ => rfl)).trans ?_
      refine (reading_fmod_iff (by omega) (h.literal (by simp)) (h.literal (by simp))
        hzero).trans ?_
      rw [← two_pow_eq_double h.pos]
      simp [MisfoldedTrapping.eq_def, Wrapped, hzero]
  case h_2 v j rest hv =>
    obtain rfl := h.rest_eq_nil rfl
    split
    · next k hk =>
      have hlit : Literal sz j.ival := h.operands (.num j) (by simp)
      have hlt := exponent_lt hk hlit
      have hpow := exponent_eq hk
      have hzero' : j.ival ≠ 0 := by
        rw [hpow]
        exact (pow_pos' k).ne'
      have hsv : Fits (2 ^ (sz - 1)) (signedValue ρ sz v) := fits_signedValue h.pos
      have hexec := h.exec_right (by simp) hzero' (f := Int.fmod) (v := v) fun _ _ => rfl
      rw [hpow] at hexec
      have hmis : MisfoldedTrapping ρ sz .imod [v, .num j] ↔ (2 : ℤ) ^ k = 2 ^ (sz - 1) ∧
          signedValue ρ sz v ≠ 0 ∧ signedValue ρ sz v ≠ -2 ^ (sz - 1) := by
        cases v with
        | num i => exact (hv i rfl).elim
        | _ => rw [← hpow]; rfl
      refine (faithfulTrapping_pure h.pos hexec (exec_andb hlt hpow v)
        (fits_emod_two_pow hlt)).trans ?_
      rw [hmis]
      rcases reading_two_pow hlt with ⟨-, hpow', hread⟩ | ⟨rfl, hread⟩
      · rw [hread, Int.fmod_eq_emod_of_nonneg _ (pow_pos' k).le]
        exact iff_of_true rfl (by omega)
      · rw [hread, fmod_neg_right (pow_pos' _).le, neg_neg_emod_eq_iff hsv]
        tauto
    · next hk =>
      have hne := ne_of_log2_eq_none (k := sz - 1) hk
      refine iff_of_true faithfulTrapping_none ?_
      cases v with
      | num i => exact (hv i rfl).elim
      | _ => exact fun h => hne h.1
  case h_3 hnum hright =>
    exact iff_of_true faithfulTrapping_none
      (not_misfolded_of_forall_ne h (by decide) fun v j => hright v j [])

theorem iquot_faithful_iff (h : WellFormedTrapping ρ .iquot sz args) :
    FaithfulTrapping ρ .iquot sz args (settled (iquot sz args)) ↔
      ¬MisfoldedTrapping ρ sz .iquot args := by
  have hp := h.four_le
  unfold iquot
  split
  case h_1 v ty rest =>
    obtain rfl := h.rest_eq_nil rfl
    have hv : Operand ρ sz v := h.operands v (by simp)
    refine iff_of_true (faithfulTrapping_val h.pos hv ?_) ?_
    · rw [h.exec_div_small (by decide) (by decide) (by decide) fun _ _ => rfl, Int.tdiv_one]
    · cases v with
      | num i => simp [MisfoldedTrapping.eq_def]
      | _ => exact id
  case h_2 v ty rest =>
    obtain rfl := h.rest_eq_nil rfl
    refine iff_of_true faithfulTrapping_none ?_
    cases v with
    | num i => simp [MisfoldedTrapping.eq_def]
    | _ => exact id
  case h_3 i j rest hone hzero =>
    obtain rfl := h.rest_eq_nil rfl
    have hone' : j.ival ≠ 1 := fun h => hone j.ty (by rw [← h])
    have hzero' : j.ival ≠ 0 := fun h => hzero j.ty (by rw [← h])
    rw [ConstArith.sQuot, if_neg hzero']
    refine (settled_raise_faithful_iff h.pos (h.exec_div hzero' fun _ _ => rfl)).trans ?_
    refine (agrees_tdiv_iff (by omega) (h.literal (by simp)) (h.literal (by simp)) hzero'
      hone').trans ?_
    rw [← two_pow_eq_double h.pos]
    simp [MisfoldedTrapping.eq_def, Wrapped, hone', hzero']
  case h_4 v ty rest hv =>
    obtain rfl := h.rest_eq_nil rfl
    have hexec : execSigned .iquot ([v, .num ⟨-1, ty⟩].map (signedValue ρ sz)) =
        some ((signedValue ρ sz v).tdiv (-1)) :=
      h.exec_div_small (by decide) (by decide) (by decide) fun _ _ => rfl
    refine iff_of_true (faithfulTrapping_arith hexec (congrArg some ?_)) ?_
    · rw [Int.tdiv_neg, Int.tdiv_one]
    · refine not_misfolded_of_not_literals h (by decide) (by decide) (by decide) fun i j heq => ?_
      exact hv i (List.cons.inj heq).1
  case h_5 h1 h2 hnum _ =>
    exact iff_of_true faithfulTrapping_none
      (not_misfolded_of_not_literals h (by decide) (by decide) (by decide) fun i j => hnum i j [])

theorem irem_faithful_iff (h : WellFormedTrapping ρ .irem sz args) :
    FaithfulTrapping ρ .irem sz args (settled (irem sz args)) ↔
      ¬MisfoldedTrapping ρ sz .irem args := by
  unfold irem
  split
  case h_1 i j rest =>
    obtain rfl := h.rest_eq_nil rfl
    by_cases hzero : j.ival = 0
    · rw [ConstArith.sRem, if_pos hzero]
      refine iff_of_true faithfulTrapping_none ?_
      simp [MisfoldedTrapping.eq_def, hzero]
    · rw [ConstArith.sRem, if_neg hzero]
      refine (settled_fold_faithful_iff h.pos (h.exec_div hzero fun _ _ => rfl)).trans ?_
      refine (reading_tmod_iff (h.literal (by simp)) (h.literal (by simp)) hzero).trans ?_
      rw [← two_pow_eq_double h.pos]
      simp [MisfoldedTrapping.eq_def, Wrapped, hzero]
  case h_2 hnum =>
    exact iff_of_true faithfulTrapping_none
      (not_misfolded_of_not_literals h (by decide) (by decide) (by decide) fun i j => hnum i j [])

theorem ineg_faithful_iff (h : WellFormedTrapping ρ .ineg sz args) :
    FaithfulTrapping ρ .ineg sz args (settled (ineg sz args)) ↔
      ¬MisfoldedTrapping ρ sz .ineg args := by
  have hp := h.four_le
  unfold ineg
  split
  case h_1 i =>
    rw [ConstArith.sNeg, settled_fold_faithful_iff h.pos rfl, h.signedValue_num (by simp)]
    exact reading_neg_iff (by omega)
  case h_2 hnum =>
    refine iff_of_true faithfulTrapping_none ?_
    obtain ⟨v, rfl⟩ := List.length_eq_one_iff.1 h.length
    cases v with
    | num i => exact (hnum i rfl).elim
    | _ => exact id

/-- **The contraction of trapping arithmetic is faithful exactly off `MisfoldedTrapping`.** -/
theorem arith_faithful_iff (get : GetInfo) (ρ : Lvar → ℤ) (oper : P.ArithOp) (sz : ℕ)
    (args : List Value) (h : WellFormedTrapping ρ oper sz args) :
    FaithfulTrapping ρ oper sz args (arith get (.iarith oper sz) args) ↔
      ¬MisfoldedTrapping ρ sz oper args := by
  cases oper with
  | iadd => exact iadd_faithful_iff h
  | isub => exact isub_faithful_iff h
  | imul => exact imul_faithful_iff h
  | idiv => exact idiv_faithful_iff h
  | imod => exact imod_faithful_iff h
  | iquot => exact iquot_faithful_iff h
  | irem => exact irem_faithful_iff h
  | ineg => exact ineg_faithful_iff h

end

/-- The greatest word of 63 bits, as an unsigned literal, halved as a number is not minus one. -/
theorem not_faithful_div :
    ¬FaithfulTrapping (fun _ => 0) .idiv 63
      [.num ⟨2 ^ 63 - 1, ⟨63, true⟩⟩, .num ⟨2, ⟨63, true⟩⟩]
      (arith (fun _ => .fnInfo) (.iarith .idiv 63)
        [.num ⟨2 ^ 63 - 1, ⟨63, true⟩⟩, .num ⟨2, ⟨63, true⟩⟩]) := by
  intro h
  exact absurd (h (some (2 ^ 63 - 1)) (by decide)) (by decide)

theorem arith_faithful_iff_minus_one :
    FaithfulTrapping (fun _ => 5) .imul 63 [.var 0, .num ⟨-1, ⟨63, true⟩⟩]
        (arith (fun _ => .fnInfo) (.iarith .imul 63) [.var 0, .num ⟨-1, ⟨63, true⟩⟩]) ↔
      ¬MisfoldedTrapping (fun _ => 5) 63 .imul [.var 0, .num ⟨-1, ⟨63, true⟩⟩] :=
  arith_faithful_iff _ _ _ _ _
    { size := by decide
      lt := by decide
      length := rfl
      operands := by
        intro v hv
        simp only [List.mem_cons, List.not_mem_nil, or_false] at hv
        rcases hv with rfl | rfl
        · change Pattern 63 5
          decide
        · change Literal 63 (-1)
          decide }

end SmlNj.ContractPrim
