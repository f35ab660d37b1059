import Mathlib
import SmlNj.Basics.RealLit
import SmlNj.Lib.RadixFraction

/-!
# The numbers real literals denote

A finite literal denotes a rational number.  A literal is *normal* when its digits
are decimal, neither the first nor the last of them is zero, and its exponent is
zero if there are none; on normal literals the structural comparisons of the
compiler can be read off the numbers.

## Main definitions

* `RealLit.lessThan`, `RealLit.negate`, `RealLit.abs` — the operations on literals
  as if they were reals.
* `RealLit.value` — the number a finite literal denotes.
* `RealLit.Normal` — the normal representations.

## Main results

* `RealLit.same_iff_value` — `same` is equality of sign and number.
* `RealLit.lessThan_eq` — `lessThan` is the order of the numbers.
* `RealLit.compare_eq_cmp` — `compare` orders literals of one sign by size.
-/

namespace SmlNj.RealLit

/-- `0.0`, or `~0.0` if `isNeg`. -/
def zero (isNeg : Bool) : RealLit := flt isNeg [] 0

/-- Comparison in the ordering of the reals; `none` is the exception `NaN`.  On
digits it is `List.collate Int.compare`, which is `cmpDigits`. -/
@[grind =] def lessThan : RealLit → RealLit → Option Bool
  | qNaN, _ => none
  | _, qNaN => none
  | _, negInf => some false
  | negInf, _ => some true
  | posInf, _ => some false
  | _, posInf => some false
  | flt _ [] _, flt _ [] _ => some false
  | flt true _ _, flt false _ _ => some true
  | flt false _ _, flt true _ _ => some false
  | flt isNeg d1 e1, flt _ d2 e2 =>
      -- both have the same sign
      if e1 < e2 then some (!isNeg)
      else if e2 < e1 then some isNeg
      else
        match cmpDigits d1 d2 with
        | .lt => some (!isNeg)
        | .eq => some false
        | .gt => some isNeg

/-- Does the literal have a sign?  `~0.0` does. -/
def isNeg : RealLit → Bool
  | negInf => true
  | flt isNeg _ _ => isNeg
  | _ => false

/-- Negation of a literal; `none` is the exception `NaN`. -/
def negate : RealLit → Option RealLit
  | posInf => some negInf
  | negInf => some posInf
  | qNaN => none
  | flt isNeg digits exp => some (flt (!isNeg) digits exp)

/-- The absolute value of a literal; `none` is the exception `NaN`. -/
def abs : RealLit → Option RealLit
  | posInf => some posInf
  | negInf => some posInf
  | qNaN => none
  | flt _ digits exp => some (flt false digits exp)

/-- `x`, negated if `isNeg`. -/
def signed (isNeg : Bool) (x : ℚ) : ℚ := if isNeg then -x else x

@[simp] theorem signed_false (x : ℚ) : signed false x = x := rfl

@[simp] theorem signed_true (x : ℚ) : signed true x = -x := rfl

@[simp] theorem signed_zero (isNeg : Bool) : signed isNeg 0 = 0 := by
  cases isNeg <;> simp

/-- The number without its sign: `0.d0...dn * 10^exp`. -/
def magnitude (digits : List ℤ) (exp : ℤ) : ℚ := Radix.fraction ℚ 10 digits * 10 ^ exp

def value : RealLit → Option ℚ
  | flt isNeg digits exp => some (signed isNeg (magnitude digits exp))
  | _ => none

/-- The digits and the exponent of a normal literal. -/
structure NormalDigits (digits : List ℤ) (exp : ℤ) : Prop where
  digit : Radix.Digits 10 digits
  head : digits.head? ≠ some 0
  last : digits.getLast? ≠ some 0
  zero : digits = [] → exp = 0

def Normal : RealLit → Prop
  | flt _ digits exp => NormalDigits digits exp
  | _ => True

theorem normal_zero (isNeg : Bool) : Normal (zero isNeg) :=
  ⟨Radix.digits_nil 10, by simp, by simp, fun _ => rfl⟩

theorem value_zero (isNeg : Bool) : value (zero isNeg) = some 0 := by
  simp [value, zero, magnitude]

variable {a b : RealLit} {x y : ℚ} {ds d1 d2 : List ℤ} {e e1 e2 : ℤ}

theorem negate_normal (ha : Normal a) (h : negate a = some b) : Normal b := by
  unfold negate at h
  split at h <;> cases h
  · trivial
  · trivial
  · exact ha

theorem abs_normal (ha : Normal a) (h : abs a = some b) : Normal b := by
  unfold abs at h
  split at h <;> cases h
  · trivial
  · trivial
  · exact ha

theorem negate_value (hx : value a = some x) (h : negate a = some b) : value b = some (-x) := by
  cases a with
  | flt isNeg digits exp =>
    cases h
    cases hx
    cases isNeg <;> simp [value]
  | _ => cases hx

theorem magnitude_nonneg (h : Radix.Digits 10 ds) : 0 ≤ magnitude ds e := by
  have := Radix.fraction_nonneg (K := ℚ) h
  unfold magnitude
  positivity

theorem magnitude_pos (h : NormalDigits ds e) (hne : ds ≠ []) : 0 < magnitude ds e := by
  have := Radix.fraction_pos (K := ℚ) h.digit hne h.last
  unfold magnitude
  positivity

theorem magnitude_eq_zero (h : NormalDigits ds e) : magnitude ds e = 0 ↔ ds = [] := by
  constructor
  · intro h0
    by_contra hne
    exact (magnitude_pos h hne).ne' h0
  · rintro rfl
    simp [magnitude]

theorem magnitude_lt (h : Radix.Digits 10 ds) : magnitude ds e < 10 ^ e := by
  have h1 := Radix.fraction_lt_one (K := ℚ) h
  have hp : (0 : ℚ) < 10 ^ e := by positivity
  unfold magnitude
  nlinarith

theorem le_magnitude (h : NormalDigits ds e) (hne : ds ≠ []) :
    (10 : ℚ) ^ (e - 1) ≤ magnitude ds e := by
  obtain ⟨d, ds, rfl⟩ := List.exists_cons_of_ne_nil hne
  have hd : d ≠ 0 := by simpa using h.head
  have hle := Radix.le_fraction (K := ℚ) h.digit hd
  have hp : (0 : ℚ) < 10 ^ e := by positivity
  calc (10 : ℚ) ^ (e - 1) = 1 / ((10 : ℤ) : ℚ) * 10 ^ e := by
        rw [zpow_sub_one₀ (by norm_num)]
        push_cast
        ring
    _ ≤ magnitude (d :: ds) e := mul_le_mul_of_nonneg_right hle hp.le

theorem abs_value (ha : Normal a) (hx : value a = some x) (h : abs a = some b) :
    value b = some |x| := by
  cases a with
  | flt isNeg digits exp =>
    cases h
    cases hx
    have h0 := magnitude_nonneg (e := exp) ha.digit
    cases isNeg <;> simp [value, abs_of_nonneg h0]
  | _ => cases hx

/-! ### Comparing magnitudes -/

theorem magnitude_lt_of_exp_lt (h1 : NormalDigits d1 e1) (h2 : NormalDigits d2 e2) (hne : d2 ≠ [])
    (h : e1 < e2) : magnitude d1 e1 < magnitude d2 e2 :=
  calc magnitude d1 e1 < 10 ^ e1 := magnitude_lt h1.digit
    _ ≤ 10 ^ (e2 - 1) := zpow_le_zpow_right₀ (by norm_num) (by omega)
    _ ≤ magnitude d2 e2 := le_magnitude h2 hne

/-- The comparison of the digit sequences is that of the fractions. -/
theorem cmpDigits_eq_cmp {xs : List ℤ} : ∀ {ys : List ℤ}, Radix.Digits 10 xs →
    Radix.Digits 10 ys → xs.getLast? ≠ some 0 → ys.getLast? ≠ some 0 →
    cmpDigits xs ys = cmp (Radix.fraction ℚ 10 xs) (Radix.fraction ℚ 10 ys) := by
  induction xs with
  | nil =>
    intro ys _ hy _ hl
    cases ys with
    | nil => simp [cmpDigits]
    | cons y ys =>
      have := Radix.fraction_pos (K := ℚ) hy (by simp) hl
      exact ((cmp_eq_lt_iff _ _).mpr this).symm
  | cons x xs ih =>
    intro ys hx hy hlx hly
    cases ys with
    | nil =>
      have := Radix.fraction_pos (K := ℚ) hx (by simp) hlx
      exact ((cmp_eq_gt_iff _ _).mpr this).symm
    | cons y ys =>
      rw [cmpDigits, compareOfLessAndEq]
      rcases lt_trichotomy x y with hlt | rfl | hgt
      · rw [if_pos hlt]
        exact ((cmp_eq_lt_iff _ _).mpr (Radix.fraction_lt_of_lt hx hy hlt)).symm
      · have last : ∀ {zs : List ℤ}, (x :: zs).getLast? ≠ some 0 → zs.getLast? ≠ some 0 := by
          intro zs h
          cases zs with
          | nil => simp
          | cons z zs => simpa using h
        rw [if_neg (lt_irrefl x), if_pos rfl]
        rw [ih (Radix.digits_cons.mp hx).2 (Radix.digits_cons.mp hy).2 (last hlx) (last hly)]
        unfold cmp cmpUsing
        simp [Radix.fraction_cons_lt_cons (show (0 : ℤ) < 10 by norm_num)]
      · rw [if_neg (lt_asymm hgt), if_neg (ne_of_gt hgt)]
        exact ((cmp_eq_gt_iff _ _).mpr (Radix.fraction_lt_of_lt hy hx hgt)).symm

/-- Exponents first and digits after them compare two magnitudes, unless exactly
one of the two is zero. -/
theorem magnitude_cmp (h1 : NormalDigits d1 e1) (h2 : NormalDigits d2 e2) (hz : d1 = [] ↔ d2 = []) :
    (match compareOfLessAndEq e1 e2 with
      | .eq => cmpDigits d1 d2
      | order => order) = cmp (magnitude d1 e1) (magnitude d2 e2) := by
  by_cases hn : d1 = []
  · have hn2 := hz.mp hn
    rw [h1.zero hn, h2.zero hn2, hn, hn2]
    simp [compareOfLessAndEq, cmpDigits]
  · have hn2 : d2 ≠ [] := fun h => hn (hz.mpr h)
    unfold compareOfLessAndEq
    rcases lt_trichotomy e1 e2 with hlt | rfl | hgt
    · rw [if_pos hlt]
      exact ((cmp_eq_lt_iff _ _).mpr (magnitude_lt_of_exp_lt h1 h2 hn2 hlt)).symm
    · rw [if_neg (lt_irrefl e1), if_pos rfl]
      rw [cmpDigits_eq_cmp h1.digit h2.digit h1.last h2.last]
      have hp : (0 : ℚ) < 10 ^ e1 := by positivity
      unfold cmp cmpUsing magnitude
      simp [mul_lt_mul_iff_of_pos_right hp]
    · rw [if_neg (lt_asymm hgt), if_neg (ne_of_gt hgt)]
      exact ((cmp_eq_gt_iff _ _).mpr (magnitude_lt_of_exp_lt h2 h1 hn hgt)).symm

/-! ### The comparisons -/

theorem magnitude_inj (h1 : NormalDigits d1 e1) (h2 : NormalDigits d2 e2)
    (h : magnitude d1 e1 = magnitude d2 e2) : d1 = d2 ∧ e1 = e2 := by
  have hz : d1 = [] ↔ d2 = [] := by
    rw [← magnitude_eq_zero h1, ← magnitude_eq_zero h2, h]
  have hc := magnitude_cmp h1 h2 hz
  rw [(cmp_eq_eq_iff _ _).mpr h] at hc
  split at hc
  · next he => exact ⟨cmpDigits_eq_iff.mp hc, compareOfLessAndEq_int_eq.mp he⟩
  · next he => exact absurd hc he

theorem same_iff_value (ha : Normal a) (hb : Normal b) (hx : value a = some x)
    (hy : value b = some y) : same a b = true ↔ isNeg a = isNeg b ∧ x = y := by
  rw [same_iff]
  constructor
  · rintro rfl
    exact ⟨rfl, Option.some.inj (hx.symm.trans hy)⟩
  · rintro ⟨hn, rfl⟩
    cases a with
    | flt n1 d1 e1 =>
      cases b with
      | flt n2 d2 e2 =>
        have hn' : n1 = n2 := hn
        subst hn'
        have hm : signed n1 (magnitude d1 e1) = signed n1 (magnitude d2 e2) :=
          Option.some.inj (hx.trans hy.symm)
        have hm' : magnitude d1 e1 = magnitude d2 e2 := by cases n1 <;> simpa using hm
        obtain ⟨rfl, rfl⟩ := magnitude_inj ha hb hm'
        rfl
      | _ => cases hy
    | _ => cases hx

theorem lessThan_same_sign (n : Bool) (e1 e2 : ℤ) (h : d1 ≠ [] ∨ d2 ≠ []) :
    lessThan (flt n d1 e1) (flt n d2 e2) =
      match (match compareOfLessAndEq e1 e2 with
        | .eq => cmpDigits d1 d2
        | order => order) with
      | .lt => some (!n)
      | .eq => some false
      | .gt => some n := by
  have split : lessThan (flt n d1 e1) (flt n d2 e2) =
      if e1 < e2 then some (!n)
      else if e2 < e1 then some n
      else
        match cmpDigits d1 d2 with
        | .lt => some (!n)
        | .eq => some false
        | .gt => some n := by
    cases d1 <;> cases d2 <;> cases n <;> first | rfl | simp at h
  rw [split]
  unfold compareOfLessAndEq
  rcases lt_trichotomy e1 e2 with hlt | rfl | hgt
  · rw [if_pos hlt, if_pos hlt]
  · rw [if_neg (lt_irrefl e1), if_neg (lt_irrefl e1), if_neg (lt_irrefl e1), if_pos rfl]
  · rw [if_neg (lt_asymm hgt), if_pos hgt, if_neg (lt_asymm hgt), if_neg (ne_of_gt hgt)]

theorem exp_nonneg_of_le (h : Radix.Digits 10 ds) (hm : 1 / 10 ≤ magnitude ds e) : 0 ≤ e := by
  by_contra hneg
  have hle : (10 : ℚ) ^ e ≤ 10 ^ (-1 : ℤ) := zpow_le_zpow_right₀ (by norm_num) (by omega)
  have hlt := magnitude_lt (e := e) h
  rw [zpow_neg_one] at hle
  linarith

theorem cmp_zero_of_le (h : NormalDigits ds e) (hne : ds ≠ []) (hm : 1 / 10 ≤ magnitude ds e) :
    (match compareOfLessAndEq 0 e with
      | .eq => cmpDigits [] ds
      | order => order) = .lt ∧
    (match compareOfLessAndEq e 0 with
      | .eq => cmpDigits ds []
      | order => order) = .gt := by
  have he := exp_nonneg_of_le h.digit hm
  obtain ⟨d, ds, rfl⟩ := List.exists_cons_of_ne_nil hne
  unfold compareOfLessAndEq
  rcases he.lt_or_eq with hlt | rfl
  · rw [if_pos hlt, if_neg (lt_asymm hlt), if_neg (ne_of_gt hlt)]
    exact ⟨rfl, rfl⟩
  · simp [cmpDigits]

theorem signed_lt (n : Bool) (x y : ℚ) :
    (match cmp x y with
      | .lt => some (!n)
      | .eq => some false
      | .gt => some n) = some (decide (signed n x < signed n y)) := by
  rcases lt_trichotomy x y with hlt | rfl | hgt
  · rw [(cmp_eq_lt_iff _ _).mpr hlt]
    cases n <;> simp [hlt, hlt.le]
  · simp
  · rw [(cmp_eq_gt_iff _ _).mpr hgt]
    cases n <;> simp [hgt, not_lt_of_gt hgt]

/-- `lessThan` is the order of the numbers, when a zero is compared with numbers of
its own sign only from a tenth on. -/
theorem lessThan_eq (ha : Normal a) (hb : Normal b) (hx : value a = some x) (hy : value b = some y)
    (hxz : x = 0 → y ≠ 0 → isNeg a = isNeg b → 1 / 10 ≤ |y|)
    (hyz : y = 0 → x ≠ 0 → isNeg a = isNeg b → 1 / 10 ≤ |x|) :
    lessThan a b = some (decide (x < y)) := by
  cases a with
  | flt n1 d1 e1 =>
    cases b with
    | flt n2 d2 e2 =>
      cases hx
      cases hy
      have z1 := magnitude_eq_zero ha
      have z2 := magnitude_eq_zero hb
      have p1 := magnitude_nonneg (e := e1) ha.digit
      have p2 := magnitude_nonneg (e := e2) hb.digit
      by_cases hboth : d1 = [] ∧ d2 = []
      · rw [hboth.1, hboth.2]
        simp [lessThan, magnitude]
      have hone : d1 ≠ [] ∨ d2 ≠ [] := by tauto
      by_cases hn : n1 = n2
      · subst hn
        rw [lessThan_same_sign n1 e1 e2 hone, ← signed_lt n1]
        by_cases hz : d1 = [] ↔ d2 = []
        · rw [magnitude_cmp ha hb hz]
        · by_cases hd1 : d1 = []
          · have hd2 : d2 ≠ [] := by tauto
            have hpos := magnitude_pos hb hd2
            have hle : 1 / 10 ≤ magnitude d2 e2 := by
              have := hxz (by rw [z1.mpr hd1, signed_zero])
                (by cases n1 <;> simp [hpos.ne']) rfl
              cases n1 <;> simpa [abs_of_nonneg p2] using this
            have he1 := ha.zero hd1
            subst he1 hd1
            rw [(cmp_zero_of_le hb hd2 hle).1, z1.mpr rfl, (cmp_eq_lt_iff _ _).mpr hpos]
          · have hd2 : d2 = [] := by tauto
            have hpos := magnitude_pos ha hd1
            have hle : 1 / 10 ≤ magnitude d1 e1 := by
              have := hyz (by rw [z2.mpr hd2, signed_zero])
                (by cases n1 <;> simp [hpos.ne']) rfl
              cases n1 <;> simpa [abs_of_nonneg p1] using this
            have he2 := hb.zero hd2
            subst he2 hd2
            rw [(cmp_zero_of_le ha hd1 hle).2, z2.mpr rfl, (cmp_eq_gt_iff _ _).mpr hpos]
      · -- Opposite signs, and one of the numbers is not zero.
        have hsum : 0 < magnitude d1 e1 + magnitude d2 e2 := by
          rcases hone with h | h
          · have := magnitude_pos ha h
            linarith
          · have := magnitude_pos hb h
            linarith
        cases n1 <;> cases n2
        · exact absurd rfl hn
        · have hge : ¬ magnitude d1 e1 < -magnitude d2 e2 := by linarith
          have : lessThan (flt false d1 e1) (flt true d2 e2) = some false := by
            cases d1 <;> cases d2 <;> rfl
          rw [this, signed_false, signed_true, decide_eq_false hge]
        · have hlt : -magnitude d1 e1 < magnitude d2 e2 := by linarith
          have : lessThan (flt true d1 e1) (flt false d2 e2) = some true := by
            cases d1 <;> cases d2 <;> first | rfl | simp at hone
          rw [this, signed_false, signed_true, decide_eq_true hlt]
        · exact absurd rfl hn
    | _ => cases hy
  | _ => cases hx

theorem compare_of_sign (hx : value a = some x) (hy : value b = some y) (ha : isNeg a = true)
    (hb : isNeg b = false) : compare a b = .lt ∧ compare b a = .gt := by
  cases a with
  | flt n1 d1 e1 =>
    cases b with
    | flt n2 d2 e2 =>
      cases ha
      cases hb
      exact ⟨rfl, rfl⟩
    | _ => cases hy
  | _ => cases hx

/-- Two literals of one sign, both zero or neither, are ordered by their absolute
values. -/
theorem compare_eq_cmp (ha : Normal a) (hb : Normal b) (hx : value a = some x)
    (hy : value b = some y) (hn : isNeg a = isNeg b) (hz : x = 0 ↔ y = 0) :
    compare a b = cmp |x| |y| := by
  cases a with
  | flt n1 d1 e1 =>
    cases b with
    | flt n2 d2 e2 =>
      cases hx
      cases hy
      have hn' : n1 = n2 := hn
      subst hn'
      have p1 := magnitude_nonneg (e := e1) ha.digit
      have p2 := magnitude_nonneg (e := e2) hb.digit
      have hd : d1 = [] ↔ d2 = [] := by
        rw [← magnitude_eq_zero ha, ← magnitude_eq_zero hb]
        cases n1 <;> simpa using hz
      have hc := magnitude_cmp ha hb hd
      cases n1
      · rw [signed_false, signed_false, abs_of_nonneg p1, abs_of_nonneg p2]
        exact hc
      · rw [signed_true, signed_true, abs_neg, abs_neg, abs_of_nonneg p1, abs_of_nonneg p2]
        exact hc
    | _ => cases hy
  | _ => cases hx

end SmlNj.RealLit
