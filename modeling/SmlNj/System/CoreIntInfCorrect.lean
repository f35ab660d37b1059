import SmlNj.System.CoreIntInfDiv

/-!
# The arithmetic of arbitrary-precision integers

Every operation on normalised representations returns the normalised representation of
the result that it has on the integers they stand for.

## Main definitions

* `Normalised r`, `value r` — the invariant of a representation, and its integer.
* `rep z` — the representation of an integer.
* `Correct fuel x y j` — the results of all operations.

## Main results

* `normalised_iff` — the normalised representations are those of the integers.
* `coreIntInf_correct` — the operations compute what they should.
-/

namespace SmlNj.CoreIntInf

open ExceptList

/-! ### Representations and integers -/

/-- A representation without a most significant zero and without a negative zero. -/
structure Normalised (r : Rep) : Prop where
  digit_lt : ∀ d ∈ r.digits, d < base
  getLast_ne_zero : ∀ h : r.digits ≠ [], r.digits.getLast h ≠ 0
  zero_not_negative : r.digits = [] → r.negative = false

def value (r : Rep) : ℤ :=
  if r.negative then -(Nat.ofDigits base r.digits : ℕ) else (Nat.ofDigits base r.digits : ℕ)

def rep (z : ℤ) : Rep := ⟨decide (z < 0), digitsOf z.natAbs⟩

theorem rep_ofNat (n : ℕ) : rep (Int.ofNat n) = ⟨false, digitsOf n⟩ := by
  rfl

theorem rep_negSucc (n : ℕ) : rep (Int.negSucc n) = ⟨true, digitsOf (n + 1)⟩ := by
  rw [rep, decide_eq_true (Int.negSucc_lt_zero n)]
  rfl

theorem normalised_rep (z : ℤ) : Normalised (rep z) where
  digit_lt := fun _ hd => Nat.digits_lt_base (by decide) hd
  getLast_ne_zero := by
    intro h
    exact Nat.getLast_digit_ne_zero base fun h0 => h (digitsOf_eq_nil.2 h0)
  zero_not_negative := by
    intro h
    have h0 : z = 0 := Int.natAbs_eq_zero.1 (digitsOf_eq_nil.1 h)
    subst h0
    rfl

theorem value_rep (z : ℤ) : value (rep z) = z := by
  cases z with
  | ofNat n =>
    rw [rep_ofNat, value, digitsOf, Nat.ofDigits_digits]
    rfl
  | negSucc n =>
    rw [rep_negSucc, value, digitsOf, Nat.ofDigits_digits]
    rfl

theorem rep_value {r : Rep} (h : Normalised r) : rep (value r) = r := by
  obtain ⟨negative, digits⟩ := r
  obtain ⟨hlt, hlast, hzero⟩ := h
  have hdigits : digitsOf (Nat.ofDigits base digits) = digits :=
    Nat.digits_ofDigits base (by decide) digits hlt hlast
  cases negative with
  | false =>
    refine (rep_ofNat _).trans ?_
    rw [hdigits]
  | true =>
    have hne : Nat.ofDigits base digits ≠ 0 := by
      intro h0
      rw [h0] at hdigits
      exact Bool.noConfusion (hzero hdigits.symm)
    obtain ⟨n, hn⟩ := Nat.exists_eq_succ_of_ne_zero hne
    have hval : value ⟨true, digits⟩ = Int.negSucc n := by
      rw [value]
      rw [hn]
      rfl
    rw [hn] at hdigits
    rw [hval, rep_negSucc, hdigits]

/-- **Normalised representations.**  They are the representations of the integers. -/
theorem normalised_iff {r : Rep} : Normalised r ↔ r = rep (value r) := by
  constructor
  · intro h
    exact (rep_value h).symm
  · intro h
    rw [h]
    exact normalised_rep _

theorem rep_injective : Function.Injective rep := Function.LeftInverse.injective value_rep

theorem posi_digitsOf (n : ℕ) : posi (digitsOf n) = rep n := (rep_ofNat n).symm

theorem negi_digitsOf (n : ℕ) : negi (digitsOf (n + 1)) = rep (Int.negSucc n) :=
  (rep_negSucc n).symm

theorem bi_digitsOf (s : Bool) (n : ℕ) :
    bi ⟨s, digitsOf n⟩ = rep (if s then -n else n) := by
  cases n with
  | zero => cases s <;> rfl
  | succ n =>
    have hbi : bi ⟨s, digitsOf (n + 1)⟩ = ⟨s, digitsOf (n + 1)⟩ := by
      rw [digitsOf_of_ne_zero (Nat.succ_ne_zero n), bi]
    rw [hbi]
    cases s with
    | false => exact posi_digitsOf (n + 1)
    | true => exact negi_digitsOf n

theorem zneg_digitsOf (n : ℕ) : zneg (digitsOf n) = rep (-n) := bi_digitsOf true n

theorem neg_rep (x : ℤ) : neg (rep x) = rep (-x) := by
  cases x with
  | ofNat a =>
    exact bi_digitsOf true a
  | negSucc a =>
    rw [rep_negSucc]
    exact bi_digitsOf false (a + 1)

theorem abs'_rep (x : ℤ) : abs' (rep x) = rep |x| := by
  rw [Int.abs_eq_natAbs]
  exact posi_digitsOf _

theorem negSucc_lt_ofNat (a b : ℕ) : Int.negSucc a < Int.ofNat b := by
  rw [Int.ofNat_eq_natCast]
  omega

variable {a b : ℕ} {z y j : ℤ} {s : Bool}

theorem negSucc_lt_negSucc : Int.negSucc a < Int.negSucc b ↔ b < a := by
  omega

theorem compare'_rep (x y : ℤ) : compare' (rep x) (rep y) = compare x y := by
  rw [Int.compare_eq_ite_lt]
  cases x with
  | ofNat a =>
    cases y with
    | ofNat b =>
      rw [rep_ofNat, rep_ofNat]
      simp [compare', natcmp_digitsOf, Nat.compare_eq_ite_lt]
    | negSucc b =>
      have hlt := negSucc_lt_ofNat b a
      rw [rep_ofNat, rep_negSucc, compare', if_neg (Int.not_lt.2 hlt.le), if_pos hlt]
  | negSucc a =>
    cases y with
    | ofNat b => rw [rep_negSucc, rep_ofNat, compare', if_pos (negSucc_lt_ofNat a b)]
    | negSucc b =>
      rw [rep_negSucc, rep_negSucc]
      simp [compare', natcmp_digitsOf, Nat.compare_eq_ite_lt, negSucc_lt_negSucc]

theorem lt_rep (x y : ℤ) : lt (rep x) (rep y) = decide (x < y) := by
  cases x with
  | ofNat a =>
    cases y with
    | ofNat b =>
      rw [rep_ofNat, rep_ofNat]
      simp only [lt, natcmp_digitsOf, Bool.false_eq_true, if_false, Int.ofNat_eq_natCast,
        Nat.cast_lt]
      rw [Bool.eq_iff_iff, beq_iff_eq, Nat.compare_eq_lt, decide_eq_true_iff]
    | negSucc b =>
      have hlt := negSucc_lt_ofNat b a
      rw [rep_ofNat, rep_negSucc, lt, decide_eq_false (Int.not_lt.2 hlt.le)]
  | negSucc a =>
    cases y with
    | ofNat b => rw [rep_negSucc, rep_ofNat, lt, decide_eq_true (negSucc_lt_ofNat a b)]
    | negSucc b =>
      rw [rep_negSucc, rep_negSucc]
      simp only [lt, natcmp_digitsOf, if_true, negSucc_lt_negSucc]
      rw [Bool.eq_iff_iff, beq_iff_eq, Nat.compare_eq_gt, decide_eq_true_iff,
        Nat.add_lt_add_iff_right]

/-! ### Addition, subtraction and multiplication -/

theorem sub0_digitsOf (a b : ℕ) : sub0 (digitsOf a) (digitsOf b) = .ok (rep (a - b)) := by
  rw [sub0, natsub0_digitsOf]
  by_cases hle : b ≤ a
  · rw [if_pos hle, ← Nat.cast_sub hle]
    exact congrArg Except.ok (posi_digitsOf (a - b))
  · -- the difference is negative, and the operands are exchanged
    have hneg : ((a : ℤ) - b) = -((b - a : ℕ) : ℤ) := by omega
    rw [if_neg hle]
    rw [natsub0_digitsOf, if_pos (by omega), hneg, ← zneg_digitsOf]
    rfl

theorem add0_digitsOf (s t : Bool) (a b : ℕ) (hab : s = true → t = true → a + b ≠ 0) :
    add0 s (digitsOf a) t (digitsOf b)
      = .ok (rep ((if s then -(a : ℤ) else a) + if t then -(b : ℤ) else b)) := by
  cases s with
  | false =>
    cases t with
    | false =>
      rw [add0, natadd0_digitsOf]
      exact congrArg Except.ok (posi_digitsOf (a + b))
    | true => exact sub0_digitsOf a b
  | true =>
    cases t with
    | false =>
      rw [add0, sub0_digitsOf]
      congr 2
      simp only [if_true, Bool.false_eq_true, if_false]
      omega
    | true =>
      obtain ⟨c, hc⟩ := Nat.exists_eq_succ_of_ne_zero (hab rfl rfl)
      rw [add0, natadd0_digitsOf, hc]
      refine congrArg Except.ok ((negi_digitsOf c).trans ?_)
      congr 1
      simp only [if_true]
      omega

theorem signed_natAbs (z : ℤ) : (if decide (z < 0) = true then -(z.natAbs : ℤ) else z.natAbs) = z := by
  simp only [decide_eq_true_eq]
  all_goals omega

theorem add_rep (x y : ℤ) : add (rep x) (rep y) = .ok (rep (x + y)) := by
  refine (add0_digitsOf (decide (x < 0)) (decide (y < 0)) x.natAbs y.natAbs ?_).trans ?_
  · simp only [decide_eq_true_eq]
    omega
  · rw [signed_natAbs, signed_natAbs]

theorem sub_rep (x y : ℤ) : sub (rep x) (rep y) = .ok (rep (x - y)) := by
  refine (add0_digitsOf (decide (x < 0)) (!decide (y < 0)) x.natAbs y.natAbs ?_).trans ?_
  · simp only [decide_eq_true_eq]
    omega
  · rw [signed_natAbs]
    congr 2
    simp only [Bool.not_eq_true', decide_eq_false_iff_not]
    all_goals omega

theorem mul_rep (x y : ℤ) : mul (rep x) (rep y) = rep (x * y) := by
  rw [mul, rep, rep, natmul_digitsOf, bi_digitsOf]
  conv_rhs => rw [← signed_natAbs x, ← signed_natAbs y]
  by_cases hx : x < 0
  · by_cases hy : y < 0
    · simp [hx, hy]
    · simp [hy]
  · by_cases hy : y < 0
    · simp [hx]
    · simp [hx]

/-! ### Division -/

def signed (s : Bool) (n : ℕ) : ℤ := if s then -n else n

theorem rep_signed {n : ℕ} (s : Bool) (hn : n ≠ 0) : rep (signed s n) = ⟨s, digitsOf n⟩ := by
  obtain ⟨k, rfl⟩ := Nat.exists_eq_succ_of_ne_zero hn
  cases s with
  | false => exact rep_ofNat _
  | true => exact rep_negSucc k

theorem exists_signed (hz : z ≠ 0) : ∃ s n, n ≠ 0 ∧ z = signed s n := by
  refine ⟨decide (z < 0), z.natAbs, Int.natAbs_ne_zero.2 hz, ?_⟩
  exact (signed_natAbs z).symm

theorem tdiv_signed (s t : Bool) (a b : ℕ) :
    Int.tdiv (signed s a) (signed t b) = signed (s != t) (a / b) ∧
      Int.tmod (signed s a) (signed t b) = signed s (a % b) := by
  cases s <;> cases t <;> constructor <;>
    simp [signed, Int.tmod_eq_emod_of_nonneg]

theorem fdiv_signed (s : Bool) (a b : ℕ) :
    Int.fdiv (signed s a) (signed s b) = (a / b : ℕ) ∧
      Int.fmod (signed s a) (signed s b) = signed s (a % b) := by
  have hdiv : Int.fdiv (signed s a) (signed s b) = (a / b : ℕ) := by
    cases s with
    | false => exact (Int.ofNat_fdiv a b).symm
    | true => exact (Int.neg_fdiv_neg _ _).trans (Int.ofNat_fdiv a b).symm
  have hmod : (a : ℤ) = (a % b : ℕ) + b * (a / b : ℕ) := by
    exact_mod_cast (Nat.mod_add_div a b).symm
  refine ⟨hdiv, ?_⟩
  rw [Int.fmod_def, hdiv]
  cases s with
  | false =>
    simp only [signed, Bool.false_eq_true, if_false]
    omega
  | true =>
    simp only [signed, if_true]
    rw [Int.neg_mul]
    omega

theorem fdiv_signed_not (s : Bool) (ha : a ≠ 0) (hb : b ≠ 0) :
    Int.fdiv (signed s a) (signed (!s) b) = Int.negSucc ((a - 1) / b) ∧
      Int.fmod (signed s a) (signed (!s) b) = signed (!s) (b - ((a - 1) % b + 1)) := by
  obtain ⟨a, rfl⟩ := Nat.exists_eq_succ_of_ne_zero ha
  obtain ⟨b, rfl⟩ := Nat.exists_eq_succ_of_ne_zero hb
  have hdiv : Int.fdiv (signed s (a + 1)) (signed (!s) (b + 1)) = Int.negSucc (a / (b + 1)) := by
    cases s <;> rfl
  have hlt : a % (b + 1) < b + 1 := Nat.mod_lt a (Nat.succ_pos b)
  have hmod : (a : ℤ) = (a % (b + 1) : ℕ) + (b + 1 : ℕ) * (a / (b + 1) : ℕ) := by
    exact_mod_cast (Nat.mod_add_div a (b + 1)).symm
  rw [Int.fmod_def, Nat.succ_eq_add_one, Nat.succ_eq_add_one, hdiv, Int.negSucc_eq,
    Nat.add_sub_cancel]
  cases s with
  | false =>
    simp only [signed, Bool.false_eq_true, if_false, Bool.not_false, if_true]
    rw [Int.neg_mul_neg, Int.mul_add]
    omega
  | true =>
    simp only [signed, Bool.false_eq_true, if_false, Bool.not_true, if_true]
    rw [Int.mul_neg, Int.mul_add]
    omega

theorem parity_rep (s : Bool) (a : ℕ) :
    (if word63Andb (a % base) 1 = 0 then zero else ⟨s, [1]⟩) = rep (signed s (a % 2)) := by
  have hlow : a % base % 2 = a % 2 := by
    rw [base_eq]
    omega
  rw [word63Andb_one, hlow]
  split
  · next h =>
    rw [h]
    cases s <;> rfl
  · next h =>
    have h1 : a % 2 = 1 := by omega
    rw [h1, rep_signed s (by decide), digitsOf_one]

theorem mod'_general {fuel : ℕ} {t : Bool} {d e : ℕ} {ds es : List ℕ} (h : e :: es ≠ [2]) :
    mod' fuel ⟨s, d :: ds⟩ ⟨t, e :: es⟩ = Prod.snd <$> divMod'' fuel ⟨s, d :: ds⟩ ⟨t, e :: es⟩ := by
  unfold mod'
  split <;> simp_all

theorem rem'_general {fuel : ℕ} {t : Bool} {d e : ℕ} {ds es : List ℕ} (h : e :: es ≠ [2]) :
    rem' fuel ⟨s, d :: ds⟩ ⟨t, e :: es⟩ = Prod.snd <$> quotRem'' fuel ⟨s, d :: ds⟩ ⟨t, e :: es⟩ := by
  unfold rem'
  split <;> simp_all

section Division

variable {fuel : ℕ} (hfuel : 3 ≤ fuel)

include hfuel

theorem quotRem''_signed (s t : Bool) (a : ℕ) (hb : b ≠ 0) :
    quotRem'' fuel ⟨s, digitsOf a⟩ ⟨t, digitsOf b⟩
      = .ok (rep (signed (s != t) (a / b)), rep (signed s (a % b))) := by
  rw [quotRem'', natdivmod_digitsOf a hfuel hb, ok_bind]
  cases s <;> cases t <;> simp [zneg_digitsOf] <;> rfl

theorem divMod''_signed (s t : Bool) (ha : a ≠ 0) (hb : b ≠ 0) :
    divMod'' fuel ⟨s, digitsOf a⟩ ⟨t, digitsOf b⟩
      = .ok (rep (Int.fdiv (signed s a) (signed t b)),
          rep (Int.fmod (signed s a) (signed t b))) := by
  by_cases hst : s = t
  · subst hst
    obtain ⟨hdiv, hmod⟩ := fdiv_signed s a b
    rw [divMod'', natdivmod_digitsOf a hfuel hb, ok_bind, hdiv, hmod]
    cases s <;> simp [zneg_digitsOf] <;> rfl
  · obtain rfl : t = !s := by
      cases s <;> cases t <;> simp_all
    obtain ⟨hdiv, hmod⟩ := fdiv_signed_not s ha hb
    have hlt : (a - 1) % b < b := Nat.mod_lt _ (Nat.pos_of_ne_zero hb)
    rw [divMod'', if_neg hst, natdec_digitsOf ha, ok_bind, natdivmod_digitsOf _ hfuel hb, ok_bind]
    simp only []
    rw [natsub_digitsOf, Bool.toNat_true, if_pos (Nat.succ_le_of_lt hlt), natinc_digitsOf, negi_digitsOf,
      hdiv, hmod]
    cases s <;> simp [zneg_digitsOf] <;> rfl

theorem quotRem'_rep (x : ℤ) (hy : y ≠ 0) :
    quotRem' fuel (rep x) (rep y) = .ok (rep (Int.tdiv x y), rep (Int.tmod x y)) := by
  obtain ⟨t, b, hb, rfl⟩ := exists_signed hy
  by_cases hx : x = 0
  · subst hx
    rw [rep_signed t hb, digitsOf_of_ne_zero hb, Int.zero_tdiv, Int.zero_tmod]
    rfl
  · obtain ⟨s, a, ha, rfl⟩ := exists_signed hx
    obtain ⟨hdiv, hmod⟩ := tdiv_signed s t a b
    rw [hdiv, hmod, ← quotRem''_signed hfuel s t a hb, rep_signed t hb, rep_signed s ha,
      digitsOf_of_ne_zero ha, digitsOf_of_ne_zero hb]
    rfl

theorem divMod'_rep (x : ℤ) (hy : y ≠ 0) :
    divMod' fuel (rep x) (rep y) = .ok (rep (Int.fdiv x y), rep (Int.fmod x y)) := by
  obtain ⟨t, b, hb, rfl⟩ := exists_signed hy
  by_cases hx : x = 0
  · subst hx
    rw [rep_signed t hb, digitsOf_of_ne_zero hb]
    rfl
  · obtain ⟨s, a, ha, rfl⟩ := exists_signed hx
    rw [← divMod''_signed hfuel s t ha hb, rep_signed t hb, rep_signed s ha,
      digitsOf_of_ne_zero ha, digitsOf_of_ne_zero hb]
    rfl

theorem quot'_rep (x : ℤ) (hy : y ≠ 0) : quot' fuel (rep x) (rep y) = .ok (rep (Int.tdiv x y)) := by
  rw [quot', quotRem'_rep hfuel x hy]
  rfl

theorem div'_rep (x : ℤ) (hy : y ≠ 0) : div' fuel (rep x) (rep y) = .ok (rep (Int.fdiv x y)) := by
  rw [div', divMod'_rep hfuel x hy]
  rfl

theorem mod'_rep (x : ℤ) (hy : y ≠ 0) : mod' fuel (rep x) (rep y) = .ok (rep (Int.fmod x y)) := by
  obtain ⟨t, b, hb, rfl⟩ := exists_signed hy
  by_cases hx : x = 0
  · subst hx
    rw [rep_signed t hb, digitsOf_of_ne_zero hb]
    rfl
  · obtain ⟨s, a, ha, rfl⟩ := exists_signed hx
    rw [rep_signed t hb, rep_signed s ha]
    by_cases h2 : b = 2
    · subst h2
      have hmod : Int.fmod (signed s a) (signed t 2) = signed t (a % 2) := by
        by_cases hst : s = t
        · subst hst
          exact (fdiv_signed s a 2).2
        · obtain rfl : t = !s := by
            cases s <;> cases t <;> simp_all
          rw [(fdiv_signed_not s ha hb).2]
          congr 1
          omega
      rw [hmod, ← parity_rep t a, digitsOf_of_ne_zero ha]
      rfl
    · have hgen := divMod''_signed hfuel s t ha hb
      have hne : digitsOf b ≠ [2] := fun h => h2 ((digitsOf_eq_singleton (by decide) (by decide)).1 h)
      rw [digitsOf_of_ne_zero ha, digitsOf_of_ne_zero hb] at *
      rw [mod'_general hne, hgen]
      rfl

theorem rem'_rep (x : ℤ) (hy : y ≠ 0) : rem' fuel (rep x) (rep y) = .ok (rep (Int.tmod x y)) := by
  obtain ⟨t, b, hb, rfl⟩ := exists_signed hy
  by_cases hx : x = 0
  · subst hx
    rw [rep_signed t hb, digitsOf_of_ne_zero hb, Int.zero_tmod]
    rfl
  · obtain ⟨s, a, ha, rfl⟩ := exists_signed hx
    rw [rep_signed t hb, rep_signed s ha, (tdiv_signed s t a b).2]
    by_cases h2 : b = 2
    · subst h2
      rw [← parity_rep s a, digitsOf_of_ne_zero ha]
      rfl
    · have hne : digitsOf b ≠ [2] := fun h => h2 ((digitsOf_eq_singleton (by decide) (by decide)).1 h)
      have hgen := quotRem''_signed hfuel s t a hb
      rw [digitsOf_of_ne_zero ha, digitsOf_of_ne_zero hb] at *
      rw [rem'_general hne, hgen]
      rfl

end Division

/-! ### Powers -/

theorem exp_digitsOf (m n : ℕ) : exp (digitsOf m) n = digitsOf (m ^ n) := by
  induction n using Nat.strong_induction_on with
  | _ n ih =>
    rw [exp]
    split
    · next h => rw [h, pow_zero, digitsOf_one]
    · split
      · next h => rw [h, pow_one]
      · -- the exponent is halved, and its lowest bit decides
        have hhalf : word63Rshiftl n 1 = n / 2 := by rw [word63Rshiftl, pow_one]
        simp only [hhalf, word63Andb_one, ih (n / 2) (by omega), natmul_digitsOf, ← pow_add]
        split
        · congr 2
          omega
        · rw [← pow_succ]
          congr 2
          omega

theorem signed_pow (s : Bool) (a n : ℕ) :
    signed s a ^ n = signed (s && decide (n % 2 = 1)) (a ^ n) := by
  cases s with
  | false => simp [signed]
  | true =>
    rcases Nat.even_or_odd n with h | h
    · simp [signed, h.neg_pow, Nat.even_iff.1 h]
    · simp [signed, h.neg_pow, Nat.odd_iff.1 h]

theorem pow_of_pos (i : Rep) (hj : 0 < j) :
    pow i j = (do return bi ⟨i.negative && Int.tmod j 2 = 1, ← natpow i.digits j⟩) := by
  unfold pow
  rw [if_neg (by omega), if_neg (by omega)]

theorem pow_rep (x : ℤ) (hj : 0 ≤ j) (hj' : j < 2 ^ 62) :
    pow (rep x) j = .ok (rep (x ^ j.toNat)) := by
  obtain ⟨n, rfl⟩ := Int.eq_ofNat_of_zero_le hj
  rw [Int.toNat_natCast]
  by_cases hn : n = 0
  · subst hn
    rw [pow_zero]
    rfl
  have hn0 : (n : ℤ) ≠ 0 := by omega
  rw [pow_of_pos _ (by omega)]
  by_cases hx : x = 0
  · subst hx
    have hpow : natpow (rep 0).digits n = .ok [] := by
      exact if_neg (by omega)
    rw [zero_pow hn, hpow]
    rfl
  · obtain ⟨s, a, ha, rfl⟩ := exists_signed hx
    have hword : int63ToWord63 n = n := by
      rw [int63ToWord63]
      omega
    have hodd : decide (Int.tmod (n : ℤ) 2 = 1) = decide (n % 2 = 1) := by
      rw [Int.tmod_eq_emod_of_nonneg (by omega), decide_eq_decide]
      omega
    have hpow : natpow (digitsOf a) n = .ok (digitsOf (a ^ n)) := by
      rw [digitsOf_of_ne_zero ha, natpow, if_neg hn0, if_neg (by omega), hword, ← digitsOf_of_ne_zero ha, exp_digitsOf]
    rw [rep_signed s ha, hpow, ok_bind, hodd, signed_pow, bi_digitsOf]
    rfl

theorem pow_of_neg {digits : List ℕ} (hj : j < 0) (hne : digits ≠ []) :
    pow ⟨s, digits⟩ j = .ok (if digits = [1] then
      if s = true ∧ j % 2 ≠ 0 then negOne else one else zero) := by
  unfold pow
  rw [if_neg (by omega), if_pos hj]
  split <;> simp_all
  · split <;> simp_all
  · intro h
    cases s <;> simp_all

theorem pow_rep_neg {x : ℤ} (hx : x ≠ 0) (hj : j < 0) :
    pow (rep x) j = .ok (rep (Int.tdiv 1 (x ^ (-j).toNat))) := by
  obtain ⟨s, a, ha, rfl⟩ := exists_signed hx
  obtain ⟨n, hn⟩ : ∃ n, (-j).toNat = n := ⟨_, rfl⟩
  have hone : (1 : ℤ) = signed false 1 := rfl
  rw [hn, signed_pow, hone, (tdiv_signed _ _ _ _).1, rep_signed s ha,
    pow_of_neg hj (fun h => ha (digitsOf_eq_nil.1 h))]
  by_cases h1 : a = 1
  · subst h1
    have hpar : j % 2 ≠ 0 ↔ n % 2 = 1 := by omega
    rw [one_pow]
    simp only [hpar]
    cases s with
    | false => rfl
    | true =>
      by_cases h : n % 2 = 1
      · simp only [h]
        rfl
      · simp only [h]
        rfl
  · have hbig : 1 < a ^ n := Nat.one_lt_pow (by omega) (by omega)
    have hne : digitsOf a ≠ [1] :=
      fun h => h1 ((digitsOf_eq_singleton (by decide) (by decide)).1 h)
    rw [if_neg hne, Nat.div_eq_of_lt hbig, signed]
    simp only [Nat.cast_zero, neg_zero, ite_self]
    rfl

/-! ### The operations on normalised representations -/

def Represents (r : Rep) (z : ℤ) : Prop := Normalised r ∧ value r = z

/-- An operation returns a representation of an integer, in normal form. -/
def Returns (result : Except Exn Rep) (z : ℤ) : Prop := ∃ r, result = .ok r ∧ Represents r z

/-- An operation returns representations of two integers, in normal form. -/
def ReturnsPair (result : Except Exn (Rep × Rep)) (z w : ℤ) : Prop :=
  ∃ q r, result = .ok (q, r) ∧ Represents q z ∧ Represents r w

theorem represents_rep (z : ℤ) : Represents (rep z) z := ⟨normalised_rep z, value_rep z⟩

theorem returns_rep {result : Except Exn Rep} (h : result = .ok (rep z)) :
    Returns result z := ⟨rep z, h, represents_rep z⟩

theorem returnsPair_rep {result : Except Exn (Rep × Rep)} {w : ℤ}
    (h : result = .ok (rep z, rep w)) : ReturnsPair result z w :=
  ⟨rep z, rep w, h, represents_rep z, represents_rep w⟩

/-- The results of all operations on two integers and an exponent.  The pairs `quotRem'` and
`divMod'` round towards zero and towards negative infinity. -/
structure Correct (fuel : ℕ) (x y : Rep) (j : ℤ) : Prop where
  add_eq : Returns (add x y) (value x + value y)
  sub_eq : Returns (sub x y) (value x - value y)
  mul_eq : Represents (mul x y) (value x * value y)
  neg_eq : Represents (neg x) (-value x)
  abs_eq : Represents (abs' x) |value x|
  compare_eq : compare' x y = compare (value x) (value y)
  lt_iff : lt x y ↔ value x < value y
  le_iff : le x y ↔ value x ≤ value y
  gt_iff : gt x y ↔ value x > value y
  ge_iff : ge x y ↔ value x ≥ value y
  quotRem_eq : value y ≠ 0 →
    ReturnsPair (quotRem' fuel x y) (Int.tdiv (value x) (value y)) (Int.tmod (value x) (value y))
  divMod_eq : value y ≠ 0 →
    ReturnsPair (divMod' fuel x y) (Int.fdiv (value x) (value y)) (Int.fmod (value x) (value y))
  quot_eq : value y ≠ 0 → Returns (quot' fuel x y) (Int.tdiv (value x) (value y))
  rem_eq : value y ≠ 0 → Returns (rem' fuel x y) (Int.tmod (value x) (value y))
  div_eq : value y ≠ 0 → Returns (div' fuel x y) (Int.fdiv (value x) (value y))
  mod_eq : value y ≠ 0 → Returns (mod' fuel x y) (Int.fmod (value x) (value y))
  /-- A divisor of zero raises `Div` in all six operations. -/
  div_zero : value y = 0 →
    quotRem' fuel x y = .error .div ∧ divMod' fuel x y = .error .div ∧
      quot' fuel x y = .error .div ∧ rem' fuel x y = .error .div ∧
      div' fuel x y = .error .div ∧ mod' fuel x y = .error .div
  pow_eq : 0 ≤ j → Returns (pow x j) (value x ^ j.toNat)
  /-- A negative power is the reciprocal, rounded towards zero. -/
  pow_neg_eq : j < 0 → value x ≠ 0 → Returns (pow x j) (Int.tdiv 1 (value x ^ (-j).toNat))
  pow_div_zero : j < 0 → value x = 0 → pow x j = .error .div
  /-- Distinct representations denote distinct integers. -/
  value_inj : value x = value y → x = y

theorem lt_rep_iff (x y : ℤ) : lt (rep x) (rep y) ↔ x < y := by
  rw [lt_rep, decide_eq_true_iff]

/-- **The operations are correct.**  On normalised representations and an exponent of 63 bits
every operation returns the normalised representation of its result; the loops of the
division need at most three rounds. -/
theorem coreIntInf_correct {fuel : ℕ} (hfuel : 3 ≤ fuel) {x y : Rep} (hx : Normalised x)
    (hy : Normalised y) {j : ℤ} (hj : j < 2 ^ 62) : Correct fuel x y j := by
  rw [normalised_iff] at hx hy
  obtain ⟨a, ha⟩ : ∃ a, value x = a := ⟨_, rfl⟩
  obtain ⟨b, hb⟩ : ∃ b, value y = b := ⟨_, rfl⟩
  rw [ha] at hx
  rw [hb] at hy
  subst hx hy
  have hdiv (w : Rep) : ∀ w', w' = rep 0 →
      quotRem' fuel w w' = .error .div ∧ divMod' fuel w w' = .error .div ∧
        quot' fuel w w' = .error .div ∧ rem' fuel w w' = .error .div ∧
        div' fuel w w' = .error .div ∧ mod' fuel w w' = .error .div := by
    rintro _ rfl
    exact ⟨rfl, rfl, rfl, rfl, rfl, rfl⟩
  constructor
  all_goals simp [value_rep]
  · exact returns_rep (add_rep a b)
  · exact returns_rep (sub_rep a b)
  · rw [mul_rep]
    exact represents_rep _
  · rw [neg_rep]
    exact represents_rep _
  · rw [abs'_rep]
    exact represents_rep _
  · exact compare'_rep a b
  · exact lt_rep_iff a b
  · rw [le, gt, Bool.not_eq_true', ← Bool.not_eq_true, lt_rep_iff, Int.not_lt]
  · exact lt_rep_iff b a
  · rw [ge, Bool.not_eq_true', ← Bool.not_eq_true, lt_rep_iff, Int.not_lt]
  · exact fun h => returnsPair_rep (quotRem'_rep hfuel a h)
  · exact fun h => returnsPair_rep (divMod'_rep hfuel a h)
  · exact fun h => returns_rep (quot'_rep hfuel a h)
  · exact fun h => returns_rep (rem'_rep hfuel a h)
  · exact fun h => returns_rep (div'_rep hfuel a h)
  · exact fun h => returns_rep (mod'_rep hfuel a h)
  · exact fun h => hdiv _ _ (congrArg rep h)
  · exact fun h => returns_rep (pow_rep a h hj)
  · exact fun h h0 => returns_rep (pow_rep_neg h0 h)
  · rintro h rfl
    unfold pow
    rw [if_neg (by omega), if_pos h]
    rfl
  · exact congrArg rep

/-- Two numbers of two digits, one of them negative. -/
theorem coreIntInf_correct_pair :
    Normalised ⟨true, [5, 7]⟩ ∧ Correct 3 ⟨true, [5, 7]⟩ ⟨false, [0, 3]⟩ (-2) := by
  have hx : Normalised ⟨true, [5, 7]⟩ := ⟨by decide, by decide, by decide⟩
  have hy : Normalised ⟨false, [0, 3]⟩ := ⟨by decide, by decide, by decide⟩
  exact ⟨hx, coreIntInf_correct le_rfl hx hy (by decide)⟩

end SmlNj.CoreIntInf
