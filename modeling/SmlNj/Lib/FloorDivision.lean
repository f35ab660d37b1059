import SmlNj.Lib.TwosComplement

/-!
# Floor division from truncating division

A truncated quotient is one more than the floor if the operands have different signs and there is a
remainder.  The signs of two words differ if their exclusive disjunction is negative.

## Main definitions

* `signsDiffer` — exactly one of two numbers is negative.

## Main results

* `fdiv_eq_tdiv_sub`, `fmod_eq_tmod_add` — the corrections of quotient and remainder.
* `tdiv_bounds_iff` — the one quotient that does not fit.
* `signed_xor_neg` — the sign of an exclusive disjunction.
-/

namespace FloorDivision

open TwosComplement

def signsDiffer (a b : ℤ) : Bool := decide (a < 0) != decide (b < 0)

variable {a b : ℤ}

theorem signsDiffer_of_neg (hb : b < 0) : signsDiffer a b = decide (0 ≤ a) := by
  rw [signsDiffer, decide_eq_true hb]
  by_cases ha : a < 0
  · rw [decide_eq_true ha, decide_eq_false (not_le.2 ha)]
    rfl
  · rw [decide_eq_false ha, decide_eq_true (not_lt.1 ha)]
    rfl

theorem signsDiffer_of_nonneg (hb : 0 ≤ b) : signsDiffer a b = decide (a < 0) := by
  rw [signsDiffer, decide_eq_false (not_lt.2 hb), Bool.bne_false]

theorem signsDiffer_comm (a b : ℤ) : signsDiffer a b = signsDiffer b a := bne_comm

/-- **The floor of a quotient.** -/
theorem fdiv_eq_tdiv_sub (hb : b ≠ 0) : a.fdiv b =
    if signsDiffer a b = true ∧ a.tmod b ≠ 0 then a.tdiv b - 1 else a.tdiv b := by
  have hdvd : b ∣ a ↔ a.tmod b = 0 := Int.dvd_iff_tmod_eq_zero
  rw [Int.fdiv_eq_tdiv]
  by_cases hr : a.tmod b = 0
  · rw [if_pos (hdvd.2 hr), if_neg (fun h => h.2 hr), sub_zero]
  · rw [if_neg (fun h => hr (hdvd.1 h))]
    rcases lt_or_gt_of_ne hb with hneg | hpos
    · rw [signsDiffer_of_neg hneg, Int.sign_eq_neg_one_of_neg hneg]
      have hb' : ¬0 ≤ b := not_le.2 hneg
      by_cases ha : 0 ≤ a <;> simp [ha, hb', hr]
    · rw [signsDiffer_of_nonneg hpos.le, Int.sign_eq_one_of_pos hpos]
      by_cases ha : 0 ≤ a
      · simp [ha, hpos.le, not_lt.2 ha]
      · simp [ha, hpos.le, not_le.1 ha, hr]

/-- **The remainder of a floor division.** -/
theorem fmod_eq_tmod_add (hb : b ≠ 0) : a.fmod b =
    if signsDiffer a b = true ∧ a.tmod b ≠ 0 then a.tmod b + b else a.tmod b := by
  have hdiv := fdiv_eq_tdiv_sub (a := a) hb
  have hfloor := Int.fmod_add_mul_fdiv a b
  have htrunc := Int.tmod_add_mul_tdiv a b
  split
  · next h =>
    rw [if_pos h] at hdiv
    rw [hdiv] at hfloor
    linarith [mul_sub b (a.tdiv b) 1]
  · next h =>
    rw [if_neg h] at hdiv
    rw [hdiv] at hfloor
    linarith

/-! ### Bounds -/

theorem fmod_bounds_of_neg (x : ℤ) {y : ℤ} (hy : y < 0) : y < x.fmod y ∧ x.fmod y ≤ 0 := by
  have hneg := Int.neg_fmod_neg (-x) (-y)
  rw [neg_neg, neg_neg] at hneg
  have hnn := Int.fmod_nonneg_of_pos (-x) (show 0 < -y by omega)
  have hlt := Int.fmod_lt_of_pos (-x) (show 0 < -y by omega)
  omega

theorem fdiv_bounds {m x y : ℤ} (hm : 0 < m) (hx : -m ≤ x) (hx' : x < m) (hy : y ≠ 0)
    (hy' : y ≠ -1) : -m ≤ x.fdiv y ∧ x.fdiv y < m := by
  have hdiv := Int.mul_fdiv_add_fmod x y
  rcases lt_or_gt_of_ne hy with hneg | hpos
  · obtain ⟨hlow, hhigh⟩ := fmod_bounds_of_neg x hneg
    have hy2 : y ≤ -2 := by omega
    constructor <;> nlinarith
  · have hnn := Int.fmod_nonneg_of_pos x hpos
    have hlt := Int.fmod_lt_of_pos x hpos
    constructor <;> nlinarith

theorem tdiv_bounds {m x y : ℤ} (hm : 0 < m) (hx : -m ≤ x) (hx' : x < m) (hy : y ≠ 0)
    (hy' : y ≠ -1) : -m ≤ x.tdiv y ∧ x.tdiv y < m := by
  by_cases hone : y = 1
  · rw [hone, Int.tdiv_one]
    exact ⟨hx, hx'⟩
  · have hnat : (x.tdiv y).natAbs = x.natAbs / y.natAbs := Int.natAbs_tdiv x y
    have htwo : x.natAbs / y.natAbs ≤ x.natAbs / 2 := Nat.div_le_div_left (by omega) (by omega)
    omega

theorem fmod_bounds {m x y : ℤ} (hy : -m ≤ y) (hy' : y < m) (hne : y ≠ 0) :
    -m ≤ x.fmod y ∧ x.fmod y < m := by
  rcases lt_or_gt_of_ne hne with hneg | hpos
  · obtain ⟨hlow, hhigh⟩ := fmod_bounds_of_neg x hneg
    omega
  · have hnn := Int.fmod_nonneg_of_pos x hpos
    have hlt := Int.fmod_lt_of_pos x hpos
    omega

theorem tmod_bounds {m x y : ℤ} (hx : -m ≤ x) (hx' : x < m) :
    -m ≤ x.tmod y ∧ x.tmod y < m := by
  have hnat := Int.natAbs_tmod x y
  have hle := Nat.mod_le x.natAbs y.natAbs
  rcases le_or_gt 0 x with hnn | hneg
  · have := Int.tmod_nonneg y hnn
    omega
  · have hflip := Int.tmod_nonneg y (show 0 ≤ -x by omega)
    rw [Int.neg_tmod] at hflip
    omega

theorem fdiv_neg_one (x : ℤ) : x.fdiv (-1) = -x := by
  have h := Int.neg_fdiv_neg (-x) 1
  rwa [neg_neg, Int.fdiv_one] at h

theorem fmod_neg_one (x : ℤ) : x.fmod (-1) = 0 := by
  obtain ⟨hlow, hhigh⟩ := fmod_bounds_of_neg x (show (-1 : ℤ) < 0 by decide)
  omega

theorem tdiv_neg_one (x : ℤ) : x.tdiv (-1) = -x := by
  rw [Int.tdiv_neg, Int.tdiv_one]

theorem tmod_neg_one (x : ℤ) : x.tmod (-1) = 0 := by
  rw [Int.tmod_neg, Int.tmod_one]

theorem tdiv_bounds_iff {m : ℤ} (hm : 0 < m) (ha : -m ≤ a) (ha' : a < m) (hb : b ≠ 0) :
    (-m ≤ a.tdiv b ∧ a.tdiv b < m) ↔ ¬(a = -m ∧ b = -1) := by
  by_cases hone : b = -1
  · subst hone
    rw [tdiv_neg_one]
    omega
  · exact iff_of_true (tdiv_bounds hm ha ha' hb hone) fun h => hone h.2

theorem fdiv_bounds_iff {m : ℤ} (hm : 0 < m) (ha : -m ≤ a) (ha' : a < m) (hb : b ≠ 0) :
    (-m ≤ a.fdiv b ∧ a.fdiv b < m) ↔ ¬(a = -m ∧ b = -1) := by
  by_cases hone : b = -1
  · subst hone
    rw [fdiv_neg_one]
    omega
  · exact iff_of_true (fdiv_bounds hm ha ha' hb hone) fun h => hone h.2

theorem unsigned_ediv {h : ℕ} (ha : -2 ^ h ≤ a) (ha' : a < 2 ^ h) :
    unsigned (h + 1) a / 2 ^ h = if a < 0 then 1 else 0 := by
  have hpos : (0 : ℤ) < 2 ^ h := by positivity
  have hdouble : (2 : ℤ) ^ (h + 1) = 2 * 2 ^ h := by rw [pow_succ, mul_comm]
  split
  · next hneg =>
    have hword : unsigned (h + 1) a = a + 2 ^ (h + 1) := by
      rw [unsigned, ← Int.add_emod_right]
      exact Int.emod_eq_of_lt (by omega) (by omega)
    rw [hword]
    rw [show a + 2 ^ (h + 1) = (a + 2 ^ h) + 1 * 2 ^ h by rw [hdouble]; ring,
      Int.add_mul_ediv_right _ _ hpos.ne', Int.ediv_eq_zero_of_lt (by omega) (by omega), zero_add]
  · next hnn =>
    rw [unsigned_of_pattern ⟨not_lt.1 hnn, by omega⟩]
    exact Int.ediv_eq_zero_of_lt (not_lt.1 hnn) ha'

/-- **The sign of an exclusive disjunction.** -/
theorem signed_xor_neg {h : ℕ} (ha : -2 ^ h ≤ a) (ha' : a < 2 ^ h) (hb : -2 ^ h ≤ b)
    (hb' : b < 2 ^ h) :
    decide (signed (h + 1) (Int.xor (unsigned (h + 1) a) (unsigned (h + 1) b)) < 0) =
      signsDiffer a b := by
  have hpos : (0 : ℤ) < 2 ^ h := by positivity
  have hdouble : (2 : ℤ) ^ (h + 1) = 2 * 2 ^ h := by rw [pow_succ, mul_comm]
  generalize hx : Int.xor (unsigned (h + 1) a) (unsigned (h + 1) b) = x
  have hdiv : x / 2 ^ h = Int.xor (if a < 0 then 1 else 0) (if b < 0 then 1 else 0) := by
    rw [← hx, ← Int.bitwise_xor, (IntBitwise.bitwise_emod_ediv rfl _ _ h).2, unsigned_ediv ha ha',
      unsigned_ediv hb hb', Int.bitwise_xor]
  have hbit : x / 2 ^ h = if signsDiffer a b = true then 1 else 0 := by
    rw [hdiv, signsDiffer]
    by_cases hna : a < 0 <;> by_cases hnb : b < 0 <;> simp only [hna, hnb] <;> rfl
  have hmod := Int.emod_add_mul_ediv x (2 ^ h)
  have hlow := Int.emod_nonneg x hpos.ne'
  have hlt := Int.emod_lt_of_pos x hpos
  cases hdiffer : signsDiffer a b with
  | true =>
    rw [hbit, hdiffer, if_pos rfl, mul_one] at hmod
    rw [signed_eq_sub (n := h + 1) (by rw [Nat.add_sub_cancel]; omega) (by omega) (Nat.succ_pos h)]
    exact decide_eq_true (by omega)
  | false =>
    rw [hbit, hdiffer, if_neg Bool.false_ne_true, mul_zero, add_zero] at hmod
    rw [signed_eq_self (n := h + 1) (by omega) (by rw [Nat.add_sub_cancel]; omega)
      (Nat.succ_pos h)]
    exact decide_eq_false (by omega)

end FloorDivision
