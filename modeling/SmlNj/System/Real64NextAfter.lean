import SmlNj.System.Real64Bits

/-!
# The next real

`Real64.nextAfter` steps the representation of a number by one.  Which way is up depends on the
sign, and the code gets it wrong between two negative numbers; two of its tests read the fraction
of the wrong operand, and zeros of opposite sign are not taken for equal.

## Main definitions

* `nextAfter` — the next real.
* `IsNextAfter` — the neighbour of a number in the direction of another one.
* `StepsRight` — the operands for which the code finds it.

## Main results

* `nextAfter_iff` — it does so for no others.
-/

namespace SmlNj.Real64

open Binary64

/-- The signed comparison of two words. -/
def i64LT (w1 w2 : BitVec 64) : Bool := w1.slt w2

/-- The bits of an infinity but for the sign. -/
def infBits : BitVec 64 := kExpMask

/-- The `ix` of `nextAfter`: the representation of `x`, up or down by one. -/
def nextAfter.ix (x y : BitVec 64) : BitVec 64 :=
  if x &&& kSignBit = 0 then if i64LT x y then x + 1 else x - 1
  else if y &&& kSignBit = 0 then x - 1
  else if x <<< 1 < y <<< 1 then x - 1
  else x + 1

/-- **The next real after `x` in the direction of `y`**, where `radd` is the addition of reals. -/
def nextAfter (radd : BitVec 64 → BitVec 64 → BitVec 64) (x y : BitVec 64) : BitVec 64 :=
  let expx := getExponent x
  let expy := getExponent y
  let copySignFromY z := (y &&& kSignBit) ||| z
  if expx = 2047 then
    if x &&& kMantMask ≠ 0 ∨ (expy = 2047 ∧ y &&& kMantMask ≠ 0) then radd x y
    else x
  -- the source reads the fraction of `x` here
  else if expy = 2047 ∧ x &&& kMantMask ≠ 0 then y
  else if x = y then y
  else if x <<< 1 = 0 then copySignFromY 1
  else
    let ix := nextAfter.ix x y
    if ix &&& kExpMask = kExpMask then copySignFromY infBits else ix

/-- **The neighbour of `x` in the direction of `y`**: a NaN if there is one, `x` if it is infinite,
and `y` if they are equal. -/
def IsNextAfter (x y r : BitVec 64) : Prop :=
  if IsNaN x ∨ IsNaN y then IsNaN r
  else if IsInf x then r = x
  else ¬IsNaN r ∧ (value x = value y → value r = value y) ∧
    (value x < value y → IsLeast (numbers ∩ Set.Ioi (value x)) (value r)) ∧
    (value y < value x → IsGreatest (numbers ∩ Set.Iio (value x)) (value r))

/-- **The operands for which the code finds the neighbour.** -/
def StepsRight (x y : BitVec 64) : Prop :=
  ¬IsFinite x ∨ (IsNaN y ∧ fraction x ≠ 0) ∨ ¬IsNaN y ∧ (x = y ∨
    (IsInf y ∧ body y = body x + 1 ∧ sign x = sign y) ∨
    ¬(body x = 0 ∧ body y = 0) ∧ ¬(body x ≠ 0 ∧ sign x = true ∧ sign y = true) ∧
      ¬(IsInf y ∧ fraction x ≠ 0))

/-- The neighbour by the keys. -/
theorem isNextAfter_iff {x y r : BitVec 64} (hx : IsFinite x) (hy : ¬IsNaN y) :
    IsNextAfter x y r ↔ ¬IsNaN r ∧ (key x = key y → key r = key y) ∧
      (key x < key y → key r = key x + 1) ∧ (key y < key x → key r = key x - 1) := by
  have hxn : ¬IsNaN x := fun h => hx h.1
  rw [IsNextAfter, if_neg (not_or.2 ⟨hxn, hy⟩), if_neg fun h => hx h.1, value_eq_iff hxn hy,
    value_lt_iff hxn hy, value_lt_iff hy hxn]
  refine and_congr_right fun hr => ?_
  rw [value_eq_iff hr hy]
  refine and_congr_right' (and_congr (forall_congr' fun h => ?_) (forall_congr' fun h => ?_))
  · exact isLeast_value_iff hxn hy hr ((value_lt_iff hxn hy).2 h)
  · exact isGreatest_value_iff hxn hy hr ((value_lt_iff hy hxn).2 h)

section

variable {radd : BitVec 64 → BitVec 64 → BitVec 64} {x y : BitVec 64}

theorem i64LT_iff : i64LT x y = true ↔
    if 2 ^ 63 ≤ x.toNat then y.toNat < 2 ^ 63 ∨ x.toNat < y.toNat
    else y.toNat < 2 ^ 63 ∧ x.toNat < y.toNat := by
  have hx := x.isLt
  have hy := y.isLt
  rw [i64LT, BitVec.slt_iff_toInt_lt, BitVec.toInt_eq_toNat_cond, BitVec.toInt_eq_toNat_cond]
  split <;> split <;> split <;> omega

/-- The representations that are stepped up. -/
def StepsUp (x y : BitVec 64) : Prop :=
  x.toNat < y.toNat ∧ y.toNat < 2 ^ 63 ∨
    2 ^ 63 ≤ x.toNat ∧ 2 ^ 63 ≤ y.toNat ∧ body y ≤ body x

theorem ix_cases (x y : BitVec 64) : StepsUp x y ∧ nextAfter.ix x y = x + 1 ∨
    ¬StepsUp x y ∧ nextAfter.ix x y = x - 1 := by
  have hx := x.isLt
  have hy := y.isLt
  simp only [nextAfter.ix, andb_kSignBit, sign_eq_false, i64LT_iff, BitVec.lt_def,
    toNat_lshift_one, StepsUp, body]
  split_ifs
  · exact .inl ⟨by omega, rfl⟩
  · exact .inr ⟨by omega, rfl⟩
  all_goals first | exact .inl ⟨by omega, rfl⟩ | exact .inr ⟨by omega, rfl⟩

/-- The step of a finite number that is not zero. -/
theorem toNat_nextAfter (hx : IsFinite x) (hinf : ¬(exponent y = 2047 ∧ fraction x ≠ 0))
    (hne : x ≠ y) (h0 : body x ≠ 0) :
    (StepsUp x y ∧ (nextAfter radd x y).toNat = x.toNat + 1) ∨
      (¬StepsUp x y ∧ (nextAfter radd x y).toNat + 1 = x.toNat) := by
  have hxlt := x.isLt
  have hylt := y.isLt
  have hfin := isFinite_iff.1 hx
  have hup : (x + 1).toNat = x.toNat + 1 :=
    BitVec.toNat_add_of_lt (y := 1#64) (show x.toNat + 1 < 2 ^ 64 by unfold body at hfin; omega)
  have hdown : (x - 1).toNat + 1 = x.toNat := by
    have h1 : 1 ≤ x.toNat := by
      unfold body at h0
      omega
    rw [BitVec.toNat_sub_of_le h1]
    exact Nat.sub_add_cancel h1
  have hinfBits : ((y &&& kSignBit) ||| infBits).toNat =
      (if 2 ^ 63 ≤ y.toNat then 2 ^ 63 else 0) + 2047 * 2 ^ 52 := by
    simp only [toNat_orb_sign y infBits (by decide), sign_eq_true]
    rfl
  unfold nextAfter
  simp only [getExponent_eq_max, ne_eq, andb_kMantMask, lshift_one, andb_kExpMask,
    if_neg (show ¬exponent x = 2047 from hx), if_neg hinf, if_neg hne, if_neg h0]
  rcases ix_cases x y with ⟨hs, hix⟩ | ⟨hs, hix⟩
  · refine .inl ⟨hs, ?_⟩
    rw [hix]
    split
    · -- the step leads to infinity, which gets the sign of the other number
      next he =>
      rw [hinfBits]
      simp only [exponent, StepsUp, body] at *
      split <;> omega
    · exact hup
  · refine .inr ⟨hs, ?_⟩
    rw [hix, if_neg, hdown]
    simp only [exponent, body] at *
    omega

theorem nextAfter_of_infinite (hadd : ∀ x y, IsNaN x ∨ IsNaN y → IsNaN (radd x y))
    (hx : ¬IsFinite x) : IsNextAfter x y (nextAfter radd x y) := by
  have hexp : exponent x = 2047 := not_not.1 hx
  simp only [IsNextAfter, nextAfter, getExponent_eq_max, ne_eq, andb_kMantMask, hexp, if_true]
  by_cases hnan : IsNaN x ∨ IsNaN y
  · have hcond : ¬fraction x = 0 ∨ exponent y = 2047 ∧ ¬fraction y = 0 := hnan.imp_left And.right
    rw [if_pos hnan, if_pos hcond]
    exact hadd x y hnan
  · have hcond : ¬(¬fraction x = 0 ∨ exponent y = 2047 ∧ ¬fraction y = 0) :=
      mt (Or.imp_left (And.intro hexp)) hnan
    rw [if_neg hnan, if_neg hcond, if_pos ⟨hexp, not_not.1 (not_or.1 hcond).1⟩]

/-- Zero is stepped to the least subnormal number with the sign of the other operand. -/
theorem toNat_nextAfter_zero (hne : x ≠ y) (h0 : body x = 0) :
    y.toNat < 2 ^ 63 ∧ (nextAfter radd x y).toNat = 1 ∨
      2 ^ 63 ≤ y.toNat ∧ (nextAfter radd x y).toNat = 2 ^ 63 + 1 := by
  have hx : exponent x ≠ 2047 ∧ fraction x = 0 := by
    unfold exponent fraction body at *
    omega
  simp only [nextAfter, getExponent_eq_max, ne_eq, andb_kMantMask, lshift_one, if_neg hx.1, hx.2,
    not_true_eq_false, and_false, if_false, if_neg hne, if_pos h0,
    toNat_orb_sign y 1 (by decide), sign_eq_true]
  rcases lt_or_ge y.toNat (2 ^ 63) with h | h
  · exact .inl ⟨h, by rw [if_neg h.not_ge]; rfl⟩
  · exact .inr ⟨h, by rw [if_pos h]; rfl⟩

end

theorem body_lt (b : BitVec 64) : body b < 2 ^ 63 := Nat.mod_lt _ (Nat.two_pow_pos 63)

theorem sign_cases (b : BitVec 64) :
    (sign b = false ∧ b.toNat = body b ∧ key b = body b) ∨
      (sign b = true ∧ b.toNat = body b + 2 ^ 63 ∧ key b = -(body b : ℤ)) := by
  have hb := b.isLt
  cases h : sign b with
  | false =>
    have hlt := sign_eq_false.1 h
    refine .inl ⟨rfl, ?_, by simp [key, signed, h]⟩
    unfold body
    omega
  | true =>
    have hle := sign_eq_true.1 h
    refine .inr ⟨rfl, ?_, by simp [key, signed, h]⟩
    unfold body
    omega

/-- An infinite operand is the result for a fraction that is not zero. -/
theorem isNextAfter_inf_iff {x y : BitVec 64} (hx : IsFinite x) (hy : IsInf y)
    (hfrac : fraction x ≠ 0) : IsNextAfter x y y ↔ StepsRight x y := by
  have hnan : ¬IsNaN y := fun h => h.2 hy.2
  have hne : x ≠ y := by
    rintro rfl
    exact hx hy.1
  have hright : StepsRight x y ↔ body y = body x + 1 ∧ sign x = sign y := by
    simp [StepsRight, hx, hy, hnan, hne, hfrac]
  have hfin := isFinite_iff.1 hx
  have hbody := isInf_iff.1 hy
  rw [isNextAfter_iff hx hnan, hright]
  rcases sign_cases x with ⟨hsx, -, hkx⟩ | ⟨hsx, -, hkx⟩ <;>
    rcases sign_cases y with ⟨hsy, -, hky⟩ | ⟨hsy, -, hky⟩ <;>
    simp only [hnan, hsx, hsy, hkx, hky, not_false_eq_true, true_and, implies_true, reduceCtorEq,
      and_false, and_true, iff_false] <;>
    omega

/-- The other operands, by what the step leads to. -/
theorem isNextAfter_step_iff {x y r : BitVec 64} (hx : IsFinite x) (hy : ¬IsNaN y) (hne : x ≠ y)
    (hinf : ¬(exponent y = 2047 ∧ fraction x ≠ 0))
    (hzero : body x = 0 → y.toNat < 2 ^ 63 ∧ r.toNat = 1 ∨ 2 ^ 63 ≤ y.toNat ∧ r.toNat = 2 ^ 63 + 1)
    (hstep : body x ≠ 0 → (StepsUp x y ∧ r.toNat = x.toNat + 1) ∨
      (¬StepsUp x y ∧ r.toNat + 1 = x.toNat)) : IsNextAfter x y r ↔ StepsRight x y := by
  have hfin := isFinite_iff.1 hx
  have hmax : ¬(IsInf y ∧ body y = body x + 1 ∧ sign x = sign y) := by
    rintro ⟨hy, hbody, -⟩
    refine hinf ⟨hy.1, ?_⟩
    rw [isInf_iff.1 hy] at hbody
    unfold fraction
    unfold body at hbody
    omega
  have hmix : ¬(IsInf y ∧ fraction x ≠ 0) := fun h => hinf ⟨h.1.1, h.2⟩
  have hright : StepsRight x y ↔ ¬(body x = 0 ∧ body y = 0) ∧
      ¬(body x ≠ 0 ∧ sign x = true ∧ sign y = true) := by
    simp only [StepsRight, hx, hy, hne, hmax, hmix, not_true_eq_false, not_false_eq_true,
      false_and, false_or, true_and, and_true]
  have hbne : x.toNat ≠ y.toNat := mt BitVec.toNat_inj.1 hne
  have hbx := body_lt x
  have hby := body_lt y
  have hbr := body_lt r
  rw [isNextAfter_iff hx hy, hright, isNaN_iff]
  unfold StepsUp at hstep
  rcases sign_cases x with ⟨hsx, htx, hkx⟩ | ⟨hsx, htx, hkx⟩ <;>
    rcases sign_cases y with ⟨hsy, hty, hky⟩ | ⟨hsy, hty, hky⟩ <;>
    rcases sign_cases r with ⟨-, htr, hkr⟩ | ⟨-, htr, hkr⟩ <;>
    simp only [hsx, hsy, hkx, hky, hkr, htx, hty, htr, reduceCtorEq, and_false, and_true,
      not_false_eq_true] at hzero hstep hbne ⊢ <;>
    omega

/-- **The code finds the neighbour for these operands**, and for no others. -/
theorem nextAfter_iff {radd : BitVec 64 → BitVec 64 → BitVec 64}
    (hadd : ∀ x y, IsNaN x ∨ IsNaN y → IsNaN (radd x y)) (x y : BitVec 64) :
    IsNextAfter x y (nextAfter radd x y) ↔ StepsRight x y := by
  by_cases hx : IsFinite x
  swap
  · exact iff_of_true (nextAfter_of_infinite hadd hx) (.inl hx)
  by_cases hinf : exponent y = 2047 ∧ fraction x ≠ 0
  · -- the other operand is the result, be it a NaN or infinite
    have hr : nextAfter radd x y = y := by
      simp only [nextAfter, getExponent_eq_max, ne_eq, andb_kMantMask,
        if_neg (show ¬exponent x = 2047 from hx), if_pos hinf]
    rw [hr]
    by_cases hy : IsNaN y
    · rw [IsNextAfter, if_pos (.inr hy)]
      exact iff_of_true hy (.inr (.inl ⟨hy, hinf.2⟩))
    · exact isNextAfter_inf_iff hx ⟨hinf.1, not_not.1 fun h => hy ⟨hinf.1, h⟩⟩ hinf.2
  by_cases hxy : x = y
  · subst hxy
    have hr : nextAfter radd x x = x := by
      simp only [nextAfter, getExponent_eq_max, ne_eq, andb_kMantMask,
        if_neg (show ¬exponent x = 2047 from hx), ite_self, if_true]
    have hnan : ¬IsNaN x := fun h => hx h.1
    rw [hr, isNextAfter_iff hx hnan]
    exact iff_of_true ⟨hnan, fun _ => rfl, fun h => absurd h (lt_irrefl _),
      fun h => absurd h (lt_irrefl _)⟩ (.inr (.inr ⟨hnan, .inl rfl⟩))
  have hzero := @toNat_nextAfter_zero radd x y hxy
  have hstep := @toNat_nextAfter radd x y hx hinf hxy
  generalize nextAfter radd x y = r at hzero hstep ⊢
  by_cases hy : IsNaN y
  · rw [IsNextAfter, if_pos (.inr hy)]
    have hright : ¬StepsRight x y := by
      rintro (h | h | h)
      · exact h hx
      · exact hinf ⟨hy.1, h.2⟩
      · exact h.1 hy
    refine iff_of_false ?_ hright
    have hfin := isFinite_iff.1 hx
    have hbr := body_lt r
    rw [isNaN_iff]
    rcases sign_cases x with ⟨-, htx, -⟩ | ⟨-, htx, -⟩ <;>
      rcases sign_cases r with ⟨-, htr, -⟩ | ⟨-, htr, -⟩ <;> omega
  · exact isNextAfter_step_iff hx hy hxy hinf hzero hstep

/-- An addition of reals, if one of them is a NaN. -/
def addNaN (x y : BitVec 64) : BitVec 64 := if IsNaN x then x else y

/-- Minus two, stepped toward minus one, gets away from it. -/
theorem nextAfter_minusTwo : ¬IsNextAfter 0xc000000000000000#64 0xbff0000000000000#64
    (nextAfter addNaN 0xc000000000000000#64 0xbff0000000000000#64) := by
  have hr : nextAfter addNaN 0xc000000000000000#64 0xbff0000000000000#64 =
      0xc000000000000001#64 := rfl
  rw [hr, isNextAfter_iff (by decide) (by decide)]
  decide

/-- One, stepped up. -/
theorem nextAfter_iff_one : IsNextAfter 0x3ff0000000000000#64 0x4000000000000000#64
    (nextAfter addNaN 0x3ff0000000000000#64 0x4000000000000000#64) ↔
      StepsRight 0x3ff0000000000000#64 0x4000000000000000#64 :=
  nextAfter_iff (fun x y h => by
    unfold addNaN
    split
    · next hx => exact hx
    · next hx => exact h.resolve_left hx) _ _

end SmlNj.Real64
