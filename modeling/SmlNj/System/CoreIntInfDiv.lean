import SmlNj.Lib.ExceptList
import SmlNj.System.CoreIntInfNat

/-!
# Long division on lists of digits

Division of naturals with trial digits.  The divisor is first scaled so that its most
significant digit is at least half the base; a trial digit is then at most two too
large, so that each correction loop ends within three rounds.

## Main results

* `natdivmod2_eq` — two digits by one digit.
* `trial_digit` — the error of a trial digit.
* `natdivmod_digitsOf` — the quotient and the remainder of two naturals.
-/

namespace SmlNj.CoreIntInf

open ExceptList

def halfBase : ℕ := 2305843009213693952

theorem base_eq_halfBase : base = 2 * halfBase := by decide

/-! ### Two digits by one -/

variable {i q x fuel u d n m : ℕ}

/-- The loop keeps `q * i + x` and stops at the remainder. -/
theorem adjLoop_eq {y z : ℕ} (hi : i < base) (hy : y < base) (fuel : ℕ) (hq : q < base)
    (hz : q * i + x = z + y) (hx : x < y + i) (hfuel : y ≤ x + fuel * i) :
    adjLoop i y (fuel + 1) q x = .ok (z / i, z % i) := by
  have stop {k q x : ℕ} (hz : q * i + x = z + y) (hx : x < y + i) (hge : x ≥ y) :
      adjLoop i y (k + 1) q x = .ok (z / i, z % i) := by
    have hsub : word63Sub x y = x - y := by
      rw [base_eq] at hi hy
      simp only [word63Sub]
      omega
    have hz' : x - y + i * q = z := by
      rw [Nat.mul_comm]
      omega
    obtain ⟨hdiv, hmod⟩ := (Nat.div_mod_unique (by omega)).2 ⟨hz', by omega⟩
    rw [adjLoop, if_pos hge, hsub, hdiv, hmod]
  induction fuel generalizing q x with
  | zero => exact stop hz hx (by omega)
  | succ fuel ih =>
    by_cases hge : x ≥ y
    · exact stop hz hx hge
    · -- the trial digit is too large, hence not zero
      have hq0 : q ≠ 0 := by
        rintro rfl
        omega
      have hq1 : word63Sub q 1 = q - 1 := by
        rw [base_eq] at hq
        simp only [word63Sub]
        omega
      have hx1 : word63Add x i = x + i := by
        rw [base_eq] at hi hy
        simp only [word63Add]
        omega
      have hqi : (q - 1) * i + i = q * i := by
        rw [← Nat.succ_mul, Nat.succ_eq_add_one, Nat.sub_add_cancel (Nat.pos_of_ne_zero hq0)]
      rw [adjLoop, if_neg hge, hq1]
      rw [Nat.succ_mul] at hfuel
      exact ih (by omega) (by omega) (by omega) (by omega)

/-- One half digit of the quotient. -/
theorem adj_eq {vx : ℕ} (hfuel : 3 ≤ fuel) (hhalf : halfBase ≤ i) (hi : i < base) (hu : u < i)
    (hvx : vx < 2147483648) :
    adjLoop i (word63Mul (u / (i / 2147483648)) (i % 2147483648)) fuel (u / (i / 2147483648))
        (word63Add (word63Lshift (u % (i / 2147483648)) 31) vx)
      = .ok ((u * 2147483648 + vx) / i, (u * 2147483648 + vx) % i) := by
  obtain ⟨fuel, rfl⟩ : ∃ k, fuel = k + 1 := ⟨fuel - 1, by omega⟩
  obtain ⟨ih, hih⟩ : ∃ ih, i / 2147483648 = ih := ⟨_, rfl⟩
  obtain ⟨il, hil⟩ : ∃ il, i % 2147483648 = il := ⟨_, rfl⟩
  rw [hih, hil]
  rw [halfBase] at hhalf
  rw [base_eq] at hi
  -- the quotient by the high half exceeds a half digit by at most one
  have hq : u / ih ≤ 2147483649 := by
    rw [← Nat.lt_succ_iff, Nat.div_lt_iff_lt_mul (by omega)]
    omega
  have hr : u % ih < ih := Nat.mod_lt _ (by omega)
  have hy : u / ih * il ≤ 2147483649 * 2147483647 := Nat.mul_le_mul hq (by omega)
  have hy' : word63Mul (u / ih) il = u / ih * il := by
    simp only [word63Mul]
    omega
  have hx' : word63Add (word63Lshift (u % ih) 31) vx = u % ih * 2147483648 + vx := by
    simp only [word63Add, word63Lshift]
    omega
  have hz : u / ih * i + (u % ih * 2147483648 + vx) = u * 2147483648 + vx + u / ih * il := by
    have hi' : i = ih * 2147483648 + il := by omega
    have hu' := Nat.div_add_mod u ih
    calc u / ih * i + (u % ih * 2147483648 + vx)
        = (ih * (u / ih) + u % ih) * 2147483648 + vx + u / ih * il := by rw [hi']; ring
      _ = _ := by rw [hu']
  have hrounds : 2 * i ≤ fuel * i := Nat.mul_le_mul_right i (by omega)
  rw [hy', hx']
  apply adjLoop_eq
  · rw [base_eq]
    omega
  · rw [base_eq]
    omega
  · rw [base_eq]
    omega
  · exact hz
  · omega
  · omega

theorem combine_quotients {v q1 r1 q0 r0 : ℕ} (hu : u < i)
    (hz : i * q1 + r1 = u * 2147483648 + v / 2147483648)
    (hz1 : i * q0 + r0 = r1 * 2147483648 + v % 2147483648) (hr : r1 < i) (hr1 : r0 < i)
    (hv : v < base) :
    (word63Add (word63Lshift q1 31) q0, r0) = ((u * base + v) / i, (u * base + v) % i) := by
  have half_digit (q r : ℕ) (h : i * q + r < i * 2147483648) : q < 2147483648 :=
    Nat.lt_of_mul_lt_mul_left (Nat.lt_of_le_of_lt (Nat.le_add_right _ r) h)
  have hq1 : q1 < 2147483648 := by
    rw [base_eq] at hv
    exact half_digit q1 r1 (by omega)
  have hq0 : q0 < 2147483648 := half_digit q0 r0 (by omega)
  have hsum : r0 + i * (q1 * 2147483648 + q0) = u * base + v := by
    rw [base_eq]
    calc r0 + i * (q1 * 2147483648 + q0)
        = i * q1 * 2147483648 + (i * q0 + r0) := by ring
      _ = _ := by omega
  have hw : word63Add (word63Lshift q1 31) q0 = q1 * 2147483648 + q0 := by
    simp only [word63Add, word63Lshift]
    omega
  obtain ⟨hdiv, hmod⟩ := (Nat.div_mod_unique (by omega)).2 ⟨hsum, hr1⟩
  rw [hdiv, hmod, hw]

theorem natdivmod2_eq {v : ℕ} (hfuel : 3 ≤ fuel) (hhalf : halfBase ≤ i) (hi : i < base) (hu : u < i)
    (hv : v < base) : natdivmod2 fuel u v i = .ok ((u * base + v) / i, (u * base + v) % i) := by
  have hi0 : 0 < i := by omega
  have hv' : v / 2147483648 < 2147483648 := by
    rw [base_eq] at hv
    omega
  have hr : (u * 2147483648 + v / 2147483648) % i < i := Nat.mod_lt _ hi0
  simp only [natdivmod2, word63Andb_maxDigitL, word63Rshiftl, hBaseBits,
    show 2 ^ 31 = 2147483648 from rfl]
  rw [adj_eq hfuel hhalf hi hu hv', ok_bind]
  rw [adj_eq hfuel hhalf hi hr (Nat.mod_lt _ (by decide))]
  exact congrArg Except.ok (combine_quotients hu (Nat.div_add_mod _ _) (Nat.div_add_mod _ _)
    hr (Nat.mod_lt _ hi0) hv)

/-! ### A natural by a digit -/

section Scale

variable {w : ℕ} (hw : w < base)

include hw

theorem scale_eq : scale w = base / (w + 1) := by
  have h : word63Add w 1 = w + 1 := by
    rw [base_eq] at hw
    simp only [word63Add]
    omega
  rw [scale, h]

theorem scale_pos : 0 < scale w := by
  rw [scale_eq hw]
  exact Nat.div_pos hw (Nat.succ_pos w)

theorem scale_mul_le : scale w * (w + 1) ≤ base := by
  rw [scale_eq hw]
  exact Nat.div_mul_le_self base (w + 1)

theorem scale_lt (hw0 : 0 < w) : scale w < base := by
  have h := scale_mul_le hw
  have h2 : scale w * 2 ≤ scale w * (w + 1) := Nat.mul_le_mul_left _ (by omega)
  omega

theorem halfBase_le_scale_mul (hw0 : 0 < w) : halfBase ≤ scale w * w := by
  have hlt : base < scale w * (w + 1) + (w + 1) := by
    rw [scale_eq hw, ← Nat.succ_mul]
    exact Nat.lt_mul_of_div_lt (Nat.lt_succ_self _) (Nat.succ_pos w)
  have hpos := scale_pos hw
  rw [base_eq_halfBase] at hlt hw
  by_contra hcon
  rw [Nat.not_le] at hcon
  -- `2 s w ≤ 2 (h - 1)` against `s (w + 1) ≥ 2 h - w`
  nlinarith [Nat.mul_le_mul_right w hlt, Nat.mul_le_mul_right w (Nat.succ_le_of_lt hcon)]

end Scale

theorem long_division_step (b d q : ℕ) (hi : 0 < i) :
    (d + b * q) / i = (q % i * b + d) / i + b * (q / i) ∧
      (d + b * q) % i = (q % i * b + d) % i := by
  have h : d + b * q = (q % i * b + d) + i * (b * (q / i)) := by
    conv_lhs => rw [← Nat.mod_add_div q i]
    ring
  rw [h, Nat.add_mul_div_left _ _ hi, Nat.add_mul_mod_self_left]
  exact ⟨rfl, rfl⟩

theorem quotient_digit_lt {b : ℕ} (hi : 0 < i) (hd : d < b) : (q % i * b + d) / i < b := by
  rw [Nat.div_lt_iff_lt_mul hi]
  have h : (q % i + 1) * b ≤ i * b := Nat.mul_le_mul_right b (Nat.mod_lt q hi)
  rw [Nat.succ_mul] at h
  rw [Nat.mul_comm b i]
  omega

theorem dmi_digitsOf (m : ℕ) (hfuel : 3 ≤ fuel) (hhalf : halfBase ≤ i) (hi : i < base) :
    dmi fuel i (digitsOf m) = .ok (digitsOf (m / i), m % i) := by
  have hi0 : 0 < i := Nat.lt_of_lt_of_le (by decide) hhalf
  induction m using digits_induction with
  | zero => rw [digitsOf_zero, dmi, Nat.zero_div, digitsOf_zero, Nat.zero_mod]
  | step m hm ih =>
    obtain ⟨hdiv, hmod⟩ := long_division_step base (m % base) (m / base) hi0
    rw [Nat.mod_add_div] at hdiv hmod
    rw [digitsOf_of_ne_zero hm, dmi, ih, ok_bind]
    simp only []
    rw [natdivmod2_eq hfuel hhalf hi (Nat.mod_lt _ hi0) (mod_base_lt m), hdiv, hmod,
      ← consd_digitsOf _ (quotient_digit_lt hi0 (mod_base_lt m))]
    rfl

theorem natdivmodd_digitsOf (m : ℕ) (hfuel : 3 ≤ fuel) (hi0 : 0 < i) (hi : i < base) :
    natdivmodd fuel (digitsOf m) i = .ok (digitsOf (m / i), m % i) := by
  by_cases h1 : i = 1
  · rw [natdivmodd, if_pos h1, h1, Nat.div_one, Nat.mod_one]
  · have hpos := scale_pos hi
    have hlt : scale i * i < base := by
      have h := scale_mul_le hi
      rw [Nat.mul_succ] at h
      omega
    have hmul : word63Mul i (scale i) = scale i * i := by
      rw [base_eq] at hlt
      rw [word63Mul, Nat.mul_comm]
      omega
    rw [natdivmodd, if_neg h1]
    simp only [hmul]
    rw [natmadd_digitsOf m (scale_lt hi hi0) (by decide), Nat.add_zero,
      dmi_digitsOf _ hfuel (halfBase_le_scale_mul hi hi0) hlt, ok_bind,
      Nat.mul_div_mul_left _ _ hpos, Nat.mul_mod_mul_left]
    simp only [Nat.mul_div_cancel_left _ hpos]
    rfl

/-! ### A natural by a natural -/

theorem length'n'last_digitsOf (hn : n ≠ 0) :
    ∃ k : ℕ, length'n'last (digitsOf n) = ((k : ℤ), n / base ^ k) ∧
      base ^ k ≤ n ∧ n < base ^ (k + 1) := by
  induction n using digits_induction with
  | zero => exact absurd rfl hn
  | step n _ ih =>
    by_cases hq : n / base = 0
    · have hlt : n < base := by
        rw [Nat.div_eq_zero_iff] at hq
        exact hq.resolve_left (by decide)
      refine ⟨0, ?_, ?_, ?_⟩
      · rw [digitsOf_of_ne_zero hn, hq, Nat.mod_eq_of_lt hlt,
          pow_zero, Nat.div_one]
        rfl
      · rw [pow_zero]
        omega
      · rwa [Nat.zero_add]
    · obtain ⟨k, hlast, hle, hlt⟩ := ih hq
      refine ⟨k + 1, ?_, ?_, ?_⟩
      · rw [digitsOf_of_ne_zero hn, digitsOf_of_ne_zero hq, length'n'last,
          ← digitsOf_of_ne_zero hq, hlast]
        simp only [Nat.div_div_eq_div_mul, pow_succ']
        rfl
      · rw [pow_succ, ← Nat.le_div_iff_mul_le (by decide)]
        exact hle
      · rw [pow_succ, ← Nat.div_lt_iff_lt_mul (by decide)]
        exact hlt

theorem nth_digitsOf (k n : ℕ) : nth (k : ℤ) (digitsOf n) = n / base ^ k % base := by
  induction k generalizing n with
  | zero =>
    by_cases hn : n = 0
    · subst hn
      rfl
    · rw [digitsOf_of_ne_zero hn, nth, if_pos Nat.cast_zero, pow_zero, Nat.div_one]
  | succ k ih =>
    by_cases hn : n = 0
    · subst hn
      rw [digitsOf_zero, nth, Nat.zero_div, Nat.zero_mod]
    · have hk : ((k + 1 : ℕ) : ℤ) - 1 = k := by omega
      rw [digitsOf_of_ne_zero hn, nth, if_neg (by omega), hk, ih, Nat.div_div_eq_div_mul, pow_succ']

theorem msds_cons {l : List ℕ} {i : ℤ} (hi : i ≠ 0) : msds (d :: l) i = msds l (i - 1) := by
  match l with
  | [] =>
    conv_lhs => rw [msds]
    rw [if_neg hi]
  | [_] =>
    conv_lhs => rw [msds]
    rw [if_neg hi]
  | _ :: _ :: _ => rw [msds]

theorem msds_digitsOf (k : ℕ) (hm : m < base ^ (k + 2)) :
    msds (digitsOf m) (k : ℤ) = (m / base ^ (k + 1), m / base ^ k % base) := by
  induction k generalizing m with
  | zero =>
    by_cases h0 : m = 0
    · subst h0
      rfl
    by_cases h1 : m / base = 0
    · have hlt : m < base := by
        rw [Nat.div_eq_zero_iff] at h1
        exact h1.resolve_left (by decide)
      rw [digitsOf_of_lt h0 hlt, msds, if_pos Nat.cast_zero, pow_one, h1, pow_zero,
        Nat.div_one, Nat.mod_eq_of_lt hlt]
    · have h2 : m / base < base := by
        rw [Nat.div_lt_iff_lt_mul (by decide)]
        exact hm
      rw [digitsOf_of_ne_zero h0, digitsOf_of_lt h1 h2, msds, if_pos Nat.cast_zero, pow_one,
        pow_zero, Nat.div_one]
  | succ k ih =>
    by_cases h0 : m = 0
    · subst h0
      rw [digitsOf_zero, msds, Nat.zero_div, Nat.zero_div, Nat.zero_mod]
    · have hk : ((k + 1 : ℕ) : ℤ) - 1 = k := by omega
      have hq : m / base < base ^ (k + 2) := by
        rw [Nat.div_lt_iff_lt_mul (by decide)]
        exact hm
      rw [digitsOf_of_ne_zero h0, msds_cons (by omega), hk, ih hq, Nat.div_div_eq_div_mul,
        Nat.div_div_eq_div_mul, ← pow_succ', ← pow_succ']

/-- **The trial digit.**  With a divisor whose leading digit `n1` is at least half the base,
the quotient of the leading digits is never too small and at most two too large. -/
theorem trial_digit {n1 p b h tq : ℕ} (hp : 0 < p) (hb : b = 2 * h) (hhalf : h ≤ n1)
    (hle : n1 * p ≤ n) (hlt : n < (n1 + 1) * p) (hm : m < b * n) (htq : tq ≤ m / p / n1)
    (htq' : tq < b) (hmax : m / p / n1 ≤ tq ∨ b ≤ tq + 1) : m / n ≤ tq ∧ tq ≤ m / n + 2 := by
  have hn1 : 0 < n1 := by
    rcases Nat.eq_zero_or_pos n1 with h0 | h0
    · subst h0
      omega
    · exact h0
  have hn : 0 < n := Nat.lt_of_lt_of_le (Nat.mul_pos hn1 hp) hle
  have hq : m / n < b := by
    rw [Nat.div_lt_iff_lt_mul hn]
    exact hm
  constructor
  · rcases hmax with h1 | h1
    · refine le_trans ?_ h1
      rw [Nat.div_div_eq_div_mul, Nat.mul_comm]
      exact Nat.div_le_div_left hle (Nat.mul_pos hn1 hp)
    · omega
  · by_contra hcon
    rw [Nat.not_le] at hcon
    -- the trial digit times the leading digit fits the leading digits of the dividend
    have h1 : tq * (n1 * p) ≤ m := by
      rw [Nat.div_div_eq_div_mul, Nat.le_div_iff_mul_le (Nat.mul_pos hp hn1)] at htq
      rwa [Nat.mul_comm n1 p]
    have h2 : m < (m / n + 1) * n := by
      rw [Nat.mul_comm]
      exact Nat.lt_mul_div_succ m hn
    have h3 : (m / n + 1) * n ≤ (m / n + 1) * ((n1 + 1) * p) := Nat.mul_le_mul_left _ hlt.le
    have h4 : (m / n + 3) * (n1 * p) ≤ tq * (n1 * p) := Nat.mul_le_mul_right _ hcon
    have h5 : (m / n + 3) * n1 * p < (m / n + 1) * (n1 + 1) * p := by
      rw [Nat.mul_assoc, Nat.mul_assoc]
      omega
    have h6 := Nat.lt_of_mul_lt_mul_right h5
    have h7 : (m / n + 3) * n1 = m / n * n1 + 3 * n1 := Nat.add_mul _ _ _
    have h8 : (m / n + 1) * (n1 + 1) = m / n * n1 + m / n + n1 + 1 := by ring
    omega

/-- The loop steps down to the quotient. -/
theorem tryLoop_digitsOf (hn : 0 < n) (fuel : ℕ) (hq : q < base) (hle : m / n ≤ q)
    (hfuel : q ≤ m / n + fuel) :
    tryLoop (digitsOf m) (digitsOf n) (fuel + 1) q (digitsOf (q * n))
      = .ok (m / n, digitsOf (m % n)) := by
  obtain ⟨t, ht⟩ : ∃ t, m / n = t := ⟨_, rfl⟩
  rw [ht] at hle hfuel ⊢
  have stop (k : ℕ) : tryLoop (digitsOf m) (digitsOf n) (k + 1) t (digitsOf (t * n))
      = .ok (t, digitsOf (m % n)) := by
    have hmod : m - t * n = m % n := by
      have h := Nat.div_add_mod m n
      rw [ht, Nat.mul_comm] at h
      omega
    have hfit : t * n ≤ m := by
      rw [← ht]
      exact Nat.div_mul_le_self m n
    rw [tryLoop, natsub0_digitsOf, if_pos hfit, hmod]
  induction fuel generalizing q with
  | zero =>
    obtain rfl : q = t := by omega
    exact stop 0
  | succ fuel ih =>
    by_cases hqe : q = t
    · subst hqe
      exact stop (fuel + 1)
    · have hgt : ¬ q * n ≤ m := by
        rw [Nat.not_le, ← Nat.div_lt_iff_lt_mul hn]
        omega
      have hone : n ≤ q * n := Nat.le_mul_of_pos_left n (by omega)
      have hq1 : word63Sub q 1 = q - 1 := by
        rw [base_eq] at hq
        simp only [word63Sub]
        omega
      have hprod : q * n - n = (q - 1) * n := by rw [Nat.sub_mul, Nat.one_mul]
      rw [tryLoop, natsub0_digitsOf, if_neg hgt]
      rw [natsub0_digitsOf, if_pos hone, hq1, hprod]
      exact ih (by omega) (by omega) (by omega)

/-- Long division by a scaled divisor of `k + 1` digits. -/
theorem divl_digitsOf {k : ℕ} (m : ℕ) (hfuel : 3 ≤ fuel) (hhalf : halfBase ≤ n / base ^ k)
    (hn1 : n / base ^ k < base) :
    divl fuel (digitsOf n) (k : ℤ) (n / base ^ k) (digitsOf m)
      = .ok (digitsOf (m / n), digitsOf (m % n)) := by
  have hp : 0 < base ^ k := Nat.pow_pos (by decide)
  have hn1pos : 0 < n / base ^ k := Nat.lt_of_lt_of_le (by decide) hhalf
  have hn : 0 < n := by
    rcases Nat.eq_zero_or_pos n with h0 | h0
    · subst h0
      rw [Nat.zero_div] at hhalf
      exact absurd hhalf (by decide)
    · exact h0
  induction m using digits_induction with
  | zero => rw [digitsOf_zero, divl, Nat.zero_div, Nat.zero_mod, digitsOf_zero]
  | step m hm ih =>
    obtain ⟨hdiv, hmod⟩ := long_division_step base (m % base) (m / base) hn
    rw [Nat.mod_add_div] at hdiv hmod
    -- the dividend of this step is below the divisor shifted by one digit
    have hlt : (m / base % n * base + m % base) / n < base :=
      quotient_digit_lt hn (mod_base_lt m)
    obtain ⟨d, hd⟩ : ∃ d, m / base % n * base + m % base = d := ⟨_, rfl⟩
    rw [hd] at hdiv hmod hlt
    have hdn : d < base * n := by rwa [Nat.div_lt_iff_lt_mul hn] at hlt
    have hle : n / base ^ k * base ^ k ≤ n := Nat.div_mul_le_self _ _
    have hgt : n < (n / base ^ k + 1) * base ^ k := by
      rw [Nat.mul_comm]
      exact Nat.lt_mul_div_succ n hp
    have hmsds : msds (digitsOf d) (k : ℤ) = (d / base ^ (k + 1), d / base ^ k % base) := by
      apply msds_digitsOf
      calc d < base * n := hdn
        _ ≤ base * base ^ (k + 1) := by
          apply Nat.mul_le_mul_left
          rw [Nat.div_lt_iff_lt_mul hp, ← pow_succ'] at hn1
          exact hn1.le
        _ = base ^ (k + 2) := (pow_succ' base (k + 1)).symm
    have hfirst : d / base ^ (k + 1) ≤ n / base ^ k := by
      have hd' : d / base < n := by
        rw [Nat.div_lt_iff_lt_mul (by decide), Nat.mul_comm]
        exact hdn
      rw [pow_succ', ← Nat.div_div_eq_div_mul]
      exact Nat.div_le_div_right hd'.le
    have htwo : d / base ^ (k + 1) * base + d / base ^ k % base = d / base ^ k := by
      rw [pow_succ, ← Nat.div_div_eq_div_mul]
      exact Nat.div_add_mod' _ _
    -- the trial digit, with its error
    obtain ⟨tq, htq, hlow, hhigh, htq'⟩ : ∃ tq,
        (if d / base ^ (k + 1) = n / base ^ k then .ok maxDigit
          else Prod.fst <$> natdivmod2 fuel (d / base ^ (k + 1)) (d / base ^ k % base)
            (n / base ^ k)) = (.ok tq : Except Exn ℕ) ∧
        d / n ≤ tq ∧ tq ≤ d / n + 2 ∧ tq < base := by
      by_cases heq : d / base ^ (k + 1) = n / base ^ k
      · have hge : base ≤ d / base ^ k / (n / base ^ k) := by
          rw [Nat.le_div_iff_mul_le hn1pos, ← htwo, heq, Nat.mul_comm]
          exact Nat.le_add_right _ _
        have hmax : maxDigit ≤ d / base ^ k / (n / base ^ k) := le_trans (by decide) hge
        obtain ⟨h1, h2⟩ := trial_digit hp base_eq_halfBase hhalf hle hgt hdn hmax (by decide)
          (.inr (by decide))
        exact ⟨maxDigit, if_pos heq, h1, h2, by decide⟩
      · have hlt1 : d / base ^ (k + 1) < n / base ^ k := lt_of_le_of_ne hfirst heq
        have hval := natdivmod2_eq hfuel hhalf hn1 hlt1 (mod_base_lt (d / base ^ k))
        rw [htwo] at hval
        have hlt2 : d / base ^ k / (n / base ^ k) < base := by
          rw [Nat.div_lt_iff_lt_mul hn1pos]
          have h1 : (d / base ^ (k + 1) + 1) * base ≤ n / base ^ k * base :=
            Nat.mul_le_mul_right _ hlt1
          rw [Nat.succ_mul] at h1
          have h2 := mod_base_lt (d / base ^ k)
          rw [Nat.mul_comm base]
          omega
        obtain ⟨h1, h2⟩ := trial_digit hp base_eq_halfBase hhalf hle hgt hdn
          (le_refl (d / base ^ k / (n / base ^ k))) hlt2 (.inl le_rfl)
        exact ⟨_, by rw [if_neg heq, hval]; rfl, h1, h2, hlt2⟩
    obtain ⟨fuel, rfl⟩ : ∃ f, fuel = f + 1 := ⟨fuel - 1, by omega⟩
    rw [digitsOf_of_ne_zero hm, divl, ih, ok_bind]
    simp only []
    rw [consd_digitsOf _ (mod_base_lt m), Nat.add_comm (m % base), Nat.mul_comm base, hd, hmsds]
    rw [htq, ok_bind, natmadd_digitsOf n htq' (by decide), Nat.add_zero (tq * n),
      tryLoop_digitsOf hn fuel htq' hlow (by omega), ok_bind, hdiv, hmod]
    rw [consd_digitsOf _ hlt]
    rfl

theorem natdivmod_single {xs : List ℕ} (hd : d ≠ 0) :
    natdivmod fuel (x :: xs) [d] = (do
      let (qt, rm) ← natdivmodd fuel (x :: xs) d
      return (qt, if rm = 0 then [] else [rm])) := by
  cases d
  · exact absurd rfl hd
  · rfl

theorem natdivmod_general {y z : ℕ} {xs ys : List ℕ} (hy : y ≠ 0) :
    natdivmod fuel (x :: xs) (y :: z :: ys) = (do
      let (ln, last) := length'n'last (y :: z :: ys)
      let n' := natmadd (scale last) (y :: z :: ys) 0
      let (qt, rm') ← divl fuel n' ln (nth ln n') (natmadd (scale last) (x :: xs) 0)
      let (rm, _) ← natdivmodd fuel rm' (scale last)
      return (qt, rm)) := by
  cases y
  · exact absurd rfl hy
  · rfl

/-- **Division of naturals.** -/
theorem natdivmod_digitsOf (m : ℕ) (hfuel : 3 ≤ fuel) (hn : n ≠ 0) :
    natdivmod fuel (digitsOf m) (digitsOf n) = .ok (digitsOf (m / n), digitsOf (m % n)) := by
  induction m using digits_induction generalizing n with
  | zero =>
    rw [digitsOf_zero, digitsOf_of_ne_zero hn, natdivmod, Nat.zero_div, Nat.zero_mod, digitsOf_zero]
  | step m hm ih =>
    by_cases hz : n % base = 0
    · -- the lowest digits of both are set aside
      have hq : n / base ≠ 0 := by
        intro h0
        apply hn
        rw [← Nat.div_add_mod n base, h0, hz, Nat.mul_zero]
      have hn' : n = base * (n / base) := by
        conv_lhs => rw [← Nat.div_add_mod n base, hz, Nat.add_zero]
      rw [digitsOf_of_ne_zero hm, digitsOf_of_ne_zero hn, hz, natdivmod, ih hq, ok_bind]
      simp only []
      rw [consd_digitsOf _ (mod_base_lt m), Nat.div_div_eq_div_mul]
      conv_rhs => rw [hn', Nat.mod_mul]
      rw [← hn']
      rfl
    by_cases h1 : n < base
    · have hpos : 0 < n := Nat.pos_of_ne_zero hn
      have hrem : (if m % n = 0 then [] else [m % n]) = digitsOf (m % n) := by
        split
        · next h0 => rw [h0, digitsOf_zero]
        · next h0 => rw [digitsOf_of_lt h0 ((Nat.mod_lt m hpos).trans h1)]
      rw [digitsOf_of_ne_zero hm, digitsOf_of_lt hn h1, natdivmod_single hn,
        ← digitsOf_of_ne_zero hm, natdivmodd_digitsOf m hfuel hpos h1, ok_bind]
      simp only []
      rw [hrem]
      rfl
    · have hq : n / base ≠ 0 := by
        rw [Ne, Nat.div_eq_zero_iff]
        rintro (h0 | h0)
        · exact absurd h0 (by decide)
        · exact h1 h0
      obtain ⟨k, hlast, hle, hlt⟩ := length'n'last_digitsOf hn
      have hp : 0 < base ^ k := Nat.pow_pos (by decide)
      obtain ⟨w, hw⟩ : ∃ w, n / base ^ k = w := ⟨_, rfl⟩
      have hw0 : 0 < w := by
        rw [← hw]
        exact Nat.div_pos hle hp
      have hwlt : w < base := by
        rw [← hw, Nat.div_lt_iff_lt_mul hp, ← pow_succ']
        exact hlt
      have hs := scale_pos hwlt
      -- the leading digit of the scaled divisor
      have hlow : scale w * w ≤ scale w * n / base ^ k := by
        rw [Nat.le_div_iff_mul_le hp, Nat.mul_assoc]
        apply Nat.mul_le_mul_left
        rw [← hw]
        exact Nat.div_mul_le_self n _
      have htop : scale w * n / base ^ k < base := by
        rw [Nat.div_lt_iff_lt_mul hp]
        calc scale w * n < scale w * ((w + 1) * base ^ k) := by
              apply Nat.mul_lt_mul_of_pos_left _ hs
              rw [← hw, Nat.mul_comm]
              exact Nat.lt_mul_div_succ n hp
          _ = scale w * (w + 1) * base ^ k := (Nat.mul_assoc _ _ _).symm
          _ ≤ base * base ^ k := Nat.mul_le_mul_right _ (scale_mul_le hwlt)
      have hhalf := le_trans (halfBase_le_scale_mul hwlt hw0) hlow
      rw [hw] at hlast
      rw [digitsOf_of_ne_zero hm, digitsOf_of_ne_zero hn, digitsOf_of_ne_zero hq,
        natdivmod_general hz, ← digitsOf_of_ne_zero hm, ← digitsOf_of_ne_zero hq,
        ← digitsOf_of_ne_zero hn, hlast]
      simp only []
      rw [natmadd_digitsOf m (scale_lt hwlt hw0) (by decide),
        natmadd_digitsOf n (scale_lt hwlt hw0) (by decide), Nat.add_zero, Nat.add_zero,
        nth_digitsOf, Nat.mod_eq_of_lt htop, divl_digitsOf _ hfuel hhalf htop, ok_bind]
      rw [natdivmodd_digitsOf _ hfuel hs (scale_lt hwlt hw0),
        Nat.mul_div_mul_left _ _ hs, Nat.mul_mod_mul_left, Nat.mul_div_cancel_left _ hs]
      rfl

end SmlNj.CoreIntInf
