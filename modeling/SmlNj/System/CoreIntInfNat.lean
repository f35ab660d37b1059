import Mathlib.Data.Nat.Digits.Lemmas
import SmlNj.System.CoreIntInf

/-!
# Arithmetic on lists of digits

The operations on lists of digits compute on the canonical digits of a natural
number as the arithmetic operations do on the number itself, and give canonical
digits again.

## Main definitions

* `digitsOf n` — the digits of `n`, without a most significant zero.

## Main results

* `natadd0_digitsOf`, `natsub_digitsOf`, `natmul_digitsOf`, `natcmp_digitsOf` — the operations
  as arithmetic on the number.
-/

namespace SmlNj.CoreIntInf

theorem baseBits_eq : baseBits = 62 := by decide

theorem base_eq : base = 4611686018427387904 := by decide

theorem maxDigit_eq : maxDigit = 4611686018427387903 := by decide

theorem word63Andb_maxDigit (a : ℕ) : word63Andb a maxDigit = a % base := by
  rw [maxDigit_eq, base_eq]
  exact Nat.and_two_pow_sub_one_eq_mod a 62

theorem word63Andb_maxDigitL (a : ℕ) : word63Andb a maxDigitL = a % 2147483648 :=
  Nat.and_two_pow_sub_one_eq_mod a 31

theorem word64Andb_maxDigit64 (a : ℕ) : word64Andb a maxDigit64 = a % base :=
  word63Andb_maxDigit a

theorem word64Andb_maxDigitL64 (a : ℕ) : word64Andb a maxDigitL64 = a % 2147483648 :=
  word63Andb_maxDigitL a

theorem word63Andb_one (a : ℕ) : word63Andb a 1 = a % 2 := Nat.and_one_is_mod a

def digitsOf (n : ℕ) : List ℕ := Nat.digits base n

@[simp] theorem digitsOf_zero : digitsOf 0 = [] := Nat.digits_zero base

theorem digitsOf_eq_cons {n d q : ℕ} (hn : n ≠ 0) (hd : n % base = d) (hq : n / base = q) :
    digitsOf n = d :: digitsOf q := by
  subst hd hq
  exact Nat.digits_def' (by decide) (Nat.pos_of_ne_zero hn)

theorem digitsOf_of_ne_zero {n : ℕ} (hn : n ≠ 0) :
    digitsOf n = n % base :: digitsOf (n / base) :=
  digitsOf_eq_cons hn rfl rfl

theorem digitsOf_of_lt {d : ℕ} (hd : d ≠ 0) (h : d < base) : digitsOf d = [d] := by
  rw [digitsOf_eq_cons hd (Nat.mod_eq_of_lt h) (Nat.div_eq_of_lt h), digitsOf_zero]

@[simp] theorem digitsOf_one : digitsOf 1 = [1] := digitsOf_of_lt (by decide) (by decide)

theorem digitsOf_injective : Function.Injective digitsOf := Nat.digits.injective base

theorem digitsOf_eq_nil {n : ℕ} : digitsOf n = [] ↔ n = 0 := Nat.digits_eq_nil_iff_eq_zero

theorem digitsOf_eq_singleton {n d : ℕ} (hd : d ≠ 0) (h : d < base) :
    digitsOf n = [d] ↔ n = d := by
  rw [← digitsOf_of_lt hd h]
  exact digitsOf_injective.eq_iff

theorem cons_digitsOf_eq {n d q : ℕ} (hn : n ≠ 0) (hd : n % 4611686018427387904 = d)
    (hq : n / 4611686018427387904 = q) : d :: digitsOf q = digitsOf n := by
  rw [← base_eq] at hd hq
  exact (digitsOf_eq_cons hn hd hq).symm

theorem cons_digitsOf {d q : ℕ} (hd : d < base) (h : d ≠ 0 ∨ q ≠ 0) :
    d :: digitsOf q = digitsOf (d + base * q) := by
  rw [base_eq] at hd ⊢
  exact cons_digitsOf_eq (by omega) (by omega) (by omega)

theorem consd_digitsOf {d : ℕ} (q : ℕ) (hd : d < base) :
    consd d (digitsOf q) = digitsOf (d + base * q) := by
  by_cases h : d = 0 ∧ q = 0
  · obtain ⟨rfl, rfl⟩ := h
    rfl
  · rw [← cons_digitsOf hd (by omega)]
    -- the special case of `consd` is excluded
    unfold consd
    split
    · next h' => exact absurd ⟨rfl, digitsOf_eq_nil.1 h'⟩ h
    · rfl

theorem digits_induction {P : ℕ → Prop} (zero : P 0) (step : ∀ n, n ≠ 0 → P (n / base) → P n)
    (n : ℕ) : P n := by
  induction n using Nat.strong_induction_on with
  | _ n ih =>
    by_cases hn : n = 0
    · subst hn
      exact zero
    · apply step n hn
      apply ih
      exact Nat.div_lt_self (Nat.pos_of_ne_zero hn) (by decide)

/-! ### Addition -/

theorem mod_base_lt (n : ℕ) : n % base < base := Nat.mod_lt n (by decide)

theorem adddig_eq {x y : ℕ} (hx : x < base) (hy : y < base) :
    adddig x y = (decide (base ≤ x + y), (x + y) % base) := by
  have h : word63Add x y = x + y := by
    rw [base_eq] at hx hy
    simp only [word63Add]
    omega
  simp [adddig, h, word63Andb_maxDigit]

theorem natinc_digitsOf (n : ℕ) : natinc (digitsOf n) = digitsOf (n + 1) := by
  induction n using digits_induction with
  | zero => rw [digitsOf_zero, natinc, digitsOf_one]
  | step n hn ih =>
    rw [digitsOf_of_ne_zero hn, natinc, ih, maxDigit_eq, base_eq, word63Add]
    -- the carry goes on exactly from the largest digit
    split
    · exact cons_digitsOf_eq (by omega) (by omega) (by omega)
    · exact cons_digitsOf_eq (by omega) (by omega) (by omega)

/-- Adding with and without a carry; the two functions call each other. -/
theorem natadd_digitsOf (a b : ℕ) :
    natadd1 (digitsOf a) (digitsOf b) = digitsOf (a + b + 1) ∧
      natadd0 (digitsOf a) (digitsOf b) = digitsOf (a + b) := by
  induction a using digits_induction generalizing b with
  | zero =>
    by_cases hb : b = 0
    · subst hb
      simp [natadd1, natadd0, natinc]
    · rw [digitsOf_of_ne_zero hb, digitsOf_zero, natadd1, natadd0, ← digitsOf_of_ne_zero hb,
        natinc_digitsOf, Nat.zero_add]
      · exact ⟨rfl, rfl⟩
      · simp
      · simp
  | step a ha ih =>
    by_cases hb : b = 0
    · subst hb
      rw [digitsOf_zero, natadd1, natadd0, natinc_digitsOf]
      exact ⟨rfl, rfl⟩
    obtain ⟨ih1, ih0⟩ := ih (b / base)
    rw [digitsOf_of_ne_zero ha, digitsOf_of_ne_zero hb, natadd1, natadd0,
      adddig_eq (mod_base_lt a) (mod_base_lt b)]
    simp only [ih1, ih0]
    rw [maxDigit_eq, base_eq, word63Add]
    constructor
    · -- the carry may come from the sum of the digits or from the carry on it
      split
      · simp only [if_true]
        exact cons_digitsOf_eq (by omega) (by omega) (by omega)
      · simp only [decide_eq_true_eq]
        split
        all_goals
          exact cons_digitsOf_eq (by omega) (by omega) (by omega)
    · simp only [decide_eq_true_eq]
      split
      all_goals
        exact cons_digitsOf_eq (by omega) (by omega) (by omega)

theorem natadd0_digitsOf (a b : ℕ) : natadd0 (digitsOf a) (digitsOf b) = digitsOf (a + b) :=
  (natadd_digitsOf a b).2

theorem dcmp_eq (x y : ℕ) : dcmp x y = compare x y := by
  simp [dcmp, Nat.compare_eq_ite_lt]

theorem natcmp_digitsOf (a b : ℕ) : natcmp (digitsOf a) (digitsOf b) = compare a b := by
  induction a using digits_induction generalizing b with
  | zero =>
    by_cases hb : b = 0
    · subst hb
      rfl
    · rw [digitsOf_of_ne_zero hb, digitsOf_zero, natcmp, Nat.compare_eq_lt.2 (by omega)]
  | step a ha ih =>
    by_cases hb : b = 0
    · subst hb
      rw [digitsOf_of_ne_zero ha, digitsOf_zero, natcmp, Nat.compare_eq_gt.2 (by omega)]
    rw [digitsOf_of_ne_zero ha, digitsOf_of_ne_zero hb, natcmp, ih, dcmp_eq, base_eq]
    rcases hc : compare (a / 4611686018427387904) (b / 4611686018427387904) with _ | _ | _
    · rw [Nat.compare_eq_lt] at hc
      exact (Nat.compare_eq_lt.2 (by omega)).symm
    · rw [Nat.compare_eq_eq] at hc
      simp only [Nat.compare_eq_ite_lt]
      congr 1
      · simp only [eq_iff_iff]
        omega
      · congr 1
        simp only [eq_iff_iff]
        omega
    · rw [Nat.compare_eq_gt] at hc
      exact (Nat.compare_eq_gt.2 (by omega)).symm

/-! ### Subtraction -/

theorem trim_digitsOf {d : ℕ} (q : ℕ) (hd : d < base) :
    (match digitsOf q with
      | [] => (Except.ok (if d = 0 then [] else [d]) : Except Exn (List ℕ))
      | more => .ok (d :: more)) = .ok (digitsOf (d + base * q)) := by
  rw [← consd_digitsOf q hd]
  split
  · next h => rw [h]; cases d <;> rfl
  · next h =>
    unfold consd
    split
    · next h' => exact absurd h' h
    · rfl

theorem borrow_step {a b y c d k : ℕ} (hd : d < base) (h : a % base + base * k = y + c + d) :
    (do
      match ← (if b + k ≤ a / base then .ok (digitsOf (a / base - (b + k)))
          else .error .negative : Except Exn (List ℕ)) with
      | [] => return if d = 0 then [] else [d]
      | more => return d :: more)
      = if y + base * b + c ≤ a then .ok (digitsOf (a - (y + base * b + c)))
        else .error .negative := by
  by_cases hq : b + k ≤ a / base
  · have hle : y + base * b + c ≤ a := by
      rw [base_eq] at hd h hq ⊢
      omega
    rw [if_pos hq, if_pos hle]
    refine (trim_digitsOf _ hd).trans ?_
    rw [base_eq] at hd h hq hle ⊢
    congr 2
    omega
  · have hlt : ¬ y + base * b + c ≤ a := by
      rw [base_eq] at hd h hq ⊢
      omega
    rw [if_neg hq, if_neg hlt]
    rfl

/-- Subtraction fails exactly when the difference is negative. -/
theorem natsub_digitsOf (a b : ℕ) (c : Bool) :
    natsub (digitsOf a) (digitsOf b) c
      = if b + c.toNat ≤ a then .ok (digitsOf (a - (b + c.toNat))) else .error .negative := by
  induction a using digits_induction generalizing b c with
  | zero =>
    by_cases hb : b = 0
    · subst hb
      cases c
      · simp [natsub]
      · simp [natsub]
    · rw [digitsOf_of_ne_zero hb, digitsOf_zero, natsub, if_neg (by omega)]
  | step a ha ih =>
    -- one digit, where the subtrahend may be the explicit zero that takes the carry on
    have digit (y b' : ℕ) (hy : y < base) :
        natsub (digitsOf a) (y :: digitsOf b') c
          = if y + base * b' + c.toNat ≤ a
            then .ok (digitsOf (a - (y + base * b' + c.toNat))) else .error .negative := by
      have hy' : (if c = true then word63Add y 1 else y) = y + c.toNat := by
        rw [base_eq] at hy
        cases c
        · rfl
        · simp only [word63Add, if_true, Bool.toNat_true]
          omega
      have hc : c.toNat ≤ 1 := Bool.toNat_le c
      rw [digitsOf_of_ne_zero ha, natsub, hy']
      by_cases hlt : a % base < y + c.toNat
      · have hd : word63Sub (word63Add (a % base) base) (y + c.toNat)
            = a % base + base - (y + c.toNat) := by
          rw [base_eq] at hy hlt ⊢
          simp only [word63Sub, word63Add]
          omega
        rw [if_pos hlt]
        simp only [ih, Bool.toNat_true]
        rw [hd]
        apply borrow_step
        · omega
        · rw [base_eq] at hy hlt ⊢
          omega
      · have hd : word63Sub (a % base) (y + c.toNat) = a % base - (y + c.toNat) := by
          rw [base_eq] at hy hlt ⊢
          simp only [word63Sub]
          omega
        rw [if_neg hlt]
        simp only [ih, Bool.toNat_false]
        rw [hd]
        apply borrow_step
        · rw [base_eq] at hy hlt ⊢
          omega
        · omega
    by_cases hb : b = 0
    · subst hb
      cases c
      · simp [natsub]
      · have h := digit 0 0 (by decide)
        rw [digitsOf_zero] at h ⊢
        rw [natsub, h, Nat.mul_zero]
    · rw [digitsOf_of_ne_zero hb, digit _ _ (mod_base_lt b), Nat.mod_add_div]

theorem natsub0_digitsOf (a b : ℕ) :
    natsub0 (digitsOf a) (digitsOf b)
      = if b ≤ a then .ok (digitsOf (a - b)) else .error .negative :=
  natsub_digitsOf a b false

/-- Subtracting one; the first clause skips the zeros that borrow. -/
theorem natdec_digitsOf {n : ℕ} (hn : n ≠ 0) : natdec (digitsOf n) = .ok (digitsOf (n - 1)) := by
  induction n using digits_induction with
  | zero => exact absurd rfl hn
  | step n _ ih =>
    rw [digitsOf_of_ne_zero hn]
    by_cases hd : n % base = 0
    · have hq : n / base ≠ 0 := by
        rw [base_eq] at hd ⊢
        omega
      rw [hd, natdec, ih hq, maxDigit_eq]
      refine congrArg Except.ok (cons_digitsOf_eq ?_ ?_ ?_)
      all_goals
        rw [base_eq] at *
        omega
    · by_cases h1 : n = 1
      · subst h1
        rfl
      · have hw : word63Sub (n % base) 1 = n % base - 1 := by
          have := mod_base_lt n
          rw [base_eq] at this hd ⊢
          simp only [word63Sub]
          omega
        rw [natdec, hw]
        · refine congrArg Except.ok (cons_digitsOf_eq ?_ ?_ ?_)
          all_goals
            rw [base_eq] at *
            omega
        · exact hd
        · intro hone htail
          rw [digitsOf_eq_nil, base_eq] at htail
          rw [base_eq] at hone
          omega

/-! ### Multiplication -/

theorem half_mul_le {a b : ℕ} (ha : a < 2147483648) (hb : b < 2147483648) :
    a * b ≤ 4611686014132420609 :=
  Nat.mul_le_mul (Nat.le_of_lt_succ ha) (Nat.le_of_lt_succ hb)

/-- The two digits of a product, from the products `p` and `t` of the high and the low
halves and the two halves `h` and `l` of the sum of the mixed products. -/
theorem combine_halves {p h l t : ℕ} (hp : p ≤ 4611686014132420609) (hh : h ≤ 4294967296)
    (hl : l < 2147483648) (ht : t ≤ 4611686014132420609) :
    (w64ToW (word64Add (word64Add p h)
        (word64Rshiftl (word64Add t (word64Lshift l hBaseBits)) baseBits)),
      w64ToW (word64Andb (word64Add t (word64Lshift l hBaseBits)) maxDigit64))
      = ((p * 4611686018427387904 + (h * 4611686018427387904 + l * 2147483648) + t) / base,
        (p * 4611686018427387904 + (h * 4611686018427387904 + l * 2147483648) + t) % base) := by
  have hl' : word64Lshift l hBaseBits = l * 2147483648 := by
    simp only [word64Lshift, hBaseBits]
    omega
  have hl0 : word64Add t (l * 2147483648) = t + l * 2147483648 := by
    simp only [word64Add]
    omega
  rw [hl', hl0, word64Andb_maxDigit64, word64Rshiftl, baseBits_eq, base_eq]
  simp only [word64Add, w64ToW]
  ext
  · simp only
    omega
  · simp only
    omega

/-- The product of two digits, from the products of their halves. -/
theorem ddmul_eq {x y : ℕ} (hx : x < base) (hy : y < base) :
    ddmul x y = (x * y / base, x * y % base) := by
  rw [base_eq] at hx hy
  obtain ⟨xh, xl, hxl, hxh, rfl⟩ : ∃ xh xl, xl < 2147483648 ∧ xh < 2147483648 ∧
      x = xh * 2147483648 + xl :=
    ⟨x / 2147483648, x % 2147483648, by omega, by omega, by omega⟩
  obtain ⟨yh, yl, hyl, hyh, rfl⟩ : ∃ yh yl, yl < 2147483648 ∧ yh < 2147483648 ∧
      y = yh * 2147483648 + yl :=
    ⟨y / 2147483648, y % 2147483648, by omega, by omega, by omega⟩
  have high {h l : ℕ} (hl : l < 2147483648) :
      word64Rshiftl (wToW64 (h * 2147483648 + l)) hBaseBits = h := by
    simp only [word64Rshiftl, wToW64, hBaseBits]
    omega
  have low {h l : ℕ} (hl : l < 2147483648) :
      word64Andb (wToW64 (h * 2147483648 + l)) maxDigitL64 = l := by
    rw [word64Andb_maxDigitL64, wToW64]
    omega
  have hp := half_mul_le hxh hyh
  have hq := half_mul_le hxh hyl
  have hr := half_mul_le hxl hyh
  have ht := half_mul_le hxl hyl
  -- one product and a subtraction give the two mixed products
  have mixed : word64Sub (word64Mul (word64Add xh xl) (word64Add yh yl))
      (word64Add (word64Mul xh yh) (word64Mul xl yl)) = xh * yl + xl * yh := by
    have sx : word64Add xh xl = xh + xl := by
      simp only [word64Add]
      omega
    have sy : word64Add yh yl = yh + yl := by
      simp only [word64Add]
      omega
    have expand : (xh + xl) * (yh + yl) = xh * yh + xh * yl + xl * yh + xl * yl := by ring
    rw [sx, sy]
    simp only [word64Mul, word64Sub, word64Add, expand]
    omega
  have hp' : word64Mul xh yh = xh * yh := by
    simp only [word64Mul]
    omega
  have ht' : word64Mul xl yl = xl * yl := by
    simp only [word64Mul]
    omega
  have expand : (xh * 2147483648 + xl) * (yh * 2147483648 + yl)
      = xh * yh * 4611686018427387904
        + ((xh * yl + xl * yh) / 2147483648 * 4611686018427387904
          + (xh * yl + xl * yh) % 2147483648 * 2147483648) + xl * yl := by
    have hm := Nat.div_add_mod (xh * yl + xl * yh) 2147483648
    calc (xh * 2147483648 + xl) * (yh * 2147483648 + yl)
        = xh * yh * 4611686018427387904 + (xh * yl + xl * yh) * 2147483648 + xl * yl := by ring
      _ = _ := by omega
  rw [expand]
  rw [← combine_halves hp _ _ ht]
  · simp only [ddmul, high hxl, high hyl, low hxl, low hyl]
    rw [mixed, hp', ht', word64Rshiftl, word64Andb_maxDigitL64, hBaseBits]
    rfl
  · omega
  · omega

/-- A multiplication by a digit keeps its carry below the base. -/
theorem natmadd_digitsOf {w : ℕ} (n : ℕ) {c : ℕ} (hw : w < base) (hc : c < base) :
    natmadd w (digitsOf n) c = digitsOf (w * n + c) := by
  have single : (if c = 0 then [] else [c]) = digitsOf c := by
    split
    · next h => rw [h, digitsOf_zero]
    · next h => rw [digitsOf_of_lt h hc]
  match w, hw with
  | 0, _ => rw [natmadd, single, Nat.zero_mul, Nat.zero_add]
  | 1, _ =>
    by_cases hn : n = 0
    · subst hn
      rw [digitsOf_zero, natmadd, single, Nat.mul_zero, Nat.zero_add]
    · rw [digitsOf_of_ne_zero hn, natmadd, ← digitsOf_of_ne_zero hn, Nat.one_mul]
      split
      · next h => rw [h, Nat.add_zero]
      · next h => rw [← digitsOf_of_lt h hc, natadd0_digitsOf]
  | w + 2, hw =>
    clear single
    induction n using digits_induction generalizing c with
    | zero =>
      rw [digitsOf_zero, natmadd, Nat.mul_zero, Nat.zero_add]
      split
      · next h => rw [h, digitsOf_zero]
      · next h => rw [digitsOf_of_lt h hc]
    | step n hn ih =>
      have hd := mod_base_lt n
      have hP : (w + 2) * (n % base) ≤ (base - 1) * (base - 1) :=
        Nat.mul_le_mul (by omega) (by omega)
      have hn' : (w + 2) * n = (w + 2) * (n % base) + base * ((w + 2) * (n / base)) := by
        conv_lhs => rw [← Nat.mod_add_div n base]
        ring
      have hpos : (w + 2) * n ≠ 0 := Nat.mul_ne_zero (by omega) hn
      -- the carry is the high digit of the product with the carry before it
      have hcarry : (if base ≤ (w + 2) * (n % base) % base + c
          then word63Add ((w + 2) * (n % base) / base) 1 else (w + 2) * (n % base) / base)
          = ((w + 2) * (n % base) + c) / base := by
        rw [base_eq] at *
        split
        · simp only [word63Add]
          omega
        · omega
      rw [digitsOf_of_ne_zero hn, natmadd, ddmul_eq hw hd]
      simp only [adddig_eq (mod_base_lt _) hc, decide_eq_true_eq]
      rw [hcarry, ih]
      · rw [hn'] at hpos ⊢
        rw [base_eq] at *
        exact cons_digitsOf_eq (by omega) (by omega) (by omega)
      · rw [base_eq] at *
        omega

theorem natadd0_zero_digit {n : ℕ} (hn : n ≠ 0) : natadd0 (digitsOf n) [0] = digitsOf n := by
  have hd := mod_base_lt n
  rw [digitsOf_of_ne_zero hn, natadd0, adddig_eq hd (by decide)]
  simp only [Nat.add_zero, Nat.mod_eq_of_lt hd, decide_eq_true_eq, if_neg (Nat.not_le.2 hd)]
  rw [natadd0]

theorem natmul_digitsOf (a b : ℕ) : natmul (digitsOf a) (digitsOf b) = digitsOf (a * b) := by
  induction a using digits_induction with
  | zero => rw [digitsOf_zero, natmul, Nat.zero_mul, digitsOf_zero]
  | step a ha ih =>
    by_cases hb : b = 0
    · subst hb
      rw [digitsOf_of_ne_zero ha, digitsOf_zero, natmul, Nat.mul_zero, digitsOf_zero]
    have hone (n : ℕ) : digitsOf n = [1] ↔ n = 1 :=
      digitsOf_eq_singleton (by decide) (by decide)
    rw [digitsOf_of_ne_zero ha, natmul, ← digitsOf_of_ne_zero ha]
    · split
      · next h => rw [(hone b).1 h, Nat.mul_one]
      split
      · next h => rw [(hone a).1 h, Nat.one_mul]
      rw [natmadd_digitsOf b (mod_base_lt a) (by decide), ih, Nat.add_zero]
      have hab : a * b = a % base * b + base * (a / base * b) := by
        conv_lhs => rw [← Nat.mod_add_div a base]
        ring
      by_cases hq : a / base * b = 0
      · -- the shifted product is the single digit zero, which is not canonical
        have hd : a % base * b ≠ 0 := by
          have := Nat.mul_ne_zero ha hb
          rw [hab, hq] at this
          omega
        rw [hq, digitsOf_zero, natadd0_zero_digit hd, hab, hq, Nat.mul_zero, Nat.add_zero]
      · rw [cons_digitsOf (by decide) (.inr hq), natadd0_digitsOf, Nat.zero_add, ← hab]
    · exact fun h => hb (digitsOf_eq_nil.1 h)

end SmlNj.CoreIntInf
