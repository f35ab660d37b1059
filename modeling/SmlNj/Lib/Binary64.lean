import Mathlib.Data.EReal.Basic
import Mathlib.Data.Int.Order.Basic
import Mathlib.Tactic.Positivity

/-!
# Floating-point numbers of 64 bits

The number that a pattern of the IEEE format stands for.  A finite number is an integer multiple of
the least subnormal number; and the order of the numbers is that of the patterns, read as an integer
and a sign.

## Main definitions

* `sign`, `exponent`, `fraction`, `body` — the fields of a pattern.
* `IsNaN`, `IsInf`, `IsFinite` — the classes of patterns.
* `magnitude` — the size of a finite number, in units of the least subnormal number.
* `value` — the number, or infinity.
* `key` — the pattern as an integer and a sign.

## Main results

* `value_lt_iff` — the order of the numbers is that of the keys.
* `isLeast_value_iff`, `isGreatest_value_iff` — the next number has the next key.
-/

namespace Binary64

/-! ### Patterns -/

variable (b : BitVec 64)

def sign : Bool := b.msb

def exponent : ℕ := b.toNat / 2 ^ 52 % 2 ^ 11

def fraction : ℕ := b.toNat % 2 ^ 52

/-- The pattern without the sign. -/
def body : ℕ := b.toNat % 2 ^ 63

def IsNaN : Prop := exponent b = 2047 ∧ fraction b ≠ 0

def IsInf : Prop := exponent b = 2047 ∧ fraction b = 0

def IsFinite : Prop := exponent b ≠ 2047

instance : Decidable (IsNaN b) := inferInstanceAs (Decidable (_ ∧ _))

instance : Decidable (IsInf b) := inferInstanceAs (Decidable (_ ∧ _))

instance : Decidable (IsFinite b) := inferInstanceAs (Decidable (_ ≠ _))

/-- The size of the number with the pattern `n`, in units of the least subnormal number. -/
def magnitude (n : ℕ) : ℕ :=
  if n / 2 ^ 52 = 0 then n % 2 ^ 52 else (2 ^ 52 + n % 2 ^ 52) * 2 ^ (n / 2 ^ 52 - 1)

/-- A number with the sign of a pattern. -/
def signed (n : ℕ) : ℤ := if sign b then -n else n

/-- The finite number, as a multiple of the least subnormal number. -/
def units : ℤ := signed b (magnitude (body b))

/-- **The number that a pattern stands for.** -/
noncomputable def value : EReal :=
  if IsInf b then if sign b then ⊥ else ⊤ else ((units b / 2 ^ 1074 : ℝ) : EReal)

/-- The pattern as an integer and a sign. -/
def key : ℤ := signed b (body b)

variable {b} {x y r : BitVec 64} {m n : ℕ}

theorem sign_eq_true : sign b = true ↔ 2 ^ 63 ≤ b.toNat := by
  rw [sign, BitVec.msb_eq_decide, decide_eq_true_iff]

theorem sign_eq_false : sign b = false ↔ b.toNat < 2 ^ 63 := by
  rw [← Bool.not_eq_true, sign_eq_true, not_le]

theorem isInf_iff : IsInf b ↔ body b = 2047 * 2 ^ 52 := by
  have := b.isLt
  unfold IsInf exponent fraction body
  omega

theorem isFinite_iff : IsFinite b ↔ body b < 2047 * 2 ^ 52 := by
  have := b.isLt
  unfold IsFinite exponent body
  omega

theorem isNaN_iff : IsNaN b ↔ 2047 * 2 ^ 52 < body b := by
  have := b.isLt
  unfold IsNaN exponent fraction body
  omega

theorem signed_lt_signed {f : ℕ → ℕ} (hf : StrictMono f) (h0 : f 0 = 0) (m n : ℕ) :
    signed x (f m) < signed y (f n) ↔ signed x m < signed y n := by
  have hlt := hf.lt_iff_lt (a := m) (b := n)
  have hgt := hf.lt_iff_lt (a := n) (b := m)
  have hm := hf.lt_iff_lt (a := 0) (b := m)
  have hn := hf.lt_iff_lt (a := 0) (b := n)
  unfold signed
  split <;> split <;> omega

/-! ### The order of the numbers -/

theorem magnitude_lt_succ (n : ℕ) : magnitude n < magnitude (n + 1) := by
  unfold magnitude
  rcases Nat.lt_or_ge (n % 2 ^ 52 + 1) (2 ^ 52) with h | h
  · -- the fraction is increased
    have hdiv : (n + 1) / 2 ^ 52 = n / 2 ^ 52 := by omega
    have hmod : (n + 1) % 2 ^ 52 = n % 2 ^ 52 + 1 := by omega
    rw [hdiv, hmod]
    split
    · exact Nat.lt_succ_self _
    · exact Nat.mul_lt_mul_of_pos_right (Nat.lt_succ_self _) (Nat.two_pow_pos _)
  · -- the fraction overflows into the exponent
    have hdiv : (n + 1) / 2 ^ 52 = n / 2 ^ 52 + 1 := by omega
    have hmod : (n + 1) % 2 ^ 52 = 0 := by omega
    have hfull : n % 2 ^ 52 = 2 ^ 52 - 1 := by omega
    rw [hdiv, hmod, hfull, if_neg (Nat.succ_ne_zero _), Nat.add_sub_cancel]
    split
    · next h0 => rw [h0]; decide
    · next h0 =>
      obtain ⟨e, he⟩ := Nat.exists_eq_succ_of_ne_zero h0
      have hpow : 2 ^ e.succ = 2 * 2 ^ e := pow_succ' 2 e
      rw [he, Nat.succ_sub_one, hpow, ← mul_assoc]
      exact Nat.mul_lt_mul_of_pos_right (by decide) (Nat.two_pow_pos _)

theorem strictMono_magnitude : StrictMono magnitude := strictMono_nat_of_lt_succ magnitude_lt_succ

theorem value_of_isFinite (h : IsFinite b) :
    value b = ((units b / 2 ^ 1074 : ℝ) : EReal) := by
  rw [value, if_neg]
  exact fun hinf => h hinf.1

/-- **The order of the numbers is that of the keys.** -/
theorem value_lt_iff (hx : ¬IsNaN x) (hy : ¬IsNaN y) : value x < value y ↔ key x < key y := by
  have hfin : ∀ {b}, ¬IsNaN b → ¬IsInf b → body b < 2047 * 2 ^ 52 := by
    intro b hn hi
    rw [isNaN_iff] at hn
    rw [isInf_iff] at hi
    omega
  by_cases hxi : IsInf x <;> by_cases hyi : IsInf y
  · rw [value, value, if_pos hxi, if_pos hyi, key, key, isInf_iff.1 hxi, isInf_iff.1 hyi, signed,
      signed]
    split <;> split <;> simp
  · have hy' := hfin hy hyi
    rw [value, value, if_pos hxi, if_neg hyi, key, key, isInf_iff.1 hxi, signed, signed]
    cases hs : sign x
    · simp only [Bool.false_eq_true, if_false, not_top_lt, false_iff]
      split <;> omega
    · simp only [if_true, EReal.bot_lt_coe, true_iff]
      split <;> omega
  · have hx' := hfin hx hxi
    rw [value, value, if_neg hxi, if_pos hyi, key, key, isInf_iff.1 hyi, signed, signed]
    cases hs : sign y
    · simp only [Bool.false_eq_true, if_false, EReal.coe_lt_top, true_iff]
      split <;> omega
    · simp only [if_true, not_lt_bot, false_iff]
      split <;> omega
  · rw [value, value, if_neg hxi, if_neg hyi, EReal.coe_lt_coe_iff,
      div_lt_div_iff_of_pos_right (by positivity), Int.cast_lt]
    exact signed_lt_signed strictMono_magnitude rfl _ _

theorem value_eq_iff (hx : ¬IsNaN x) (hy : ¬IsNaN y) : value x = value y ↔ key x = key y := by
  rw [le_antisymm_iff, le_antisymm_iff, ← not_lt, ← not_lt, value_lt_iff hx hy, value_lt_iff hy hx,
    not_lt, not_lt]

theorem value_le_iff (hx : ¬IsNaN x) (hy : ¬IsNaN y) : value x ≤ value y ↔ key x ≤ key y := by
  rw [← not_lt, ← not_lt, value_lt_iff hy hx]

theorem natAbs_key (hx : ¬IsNaN x) : (key x).natAbs ≤ 2047 * 2 ^ 52 := by
  rw [isNaN_iff, not_lt] at hx
  unfold key signed
  split <;> omega

/-- There is a number with every key up to infinity's. -/
theorem exists_key {k : ℤ} (hk : k.natAbs ≤ 2047 * 2 ^ 52) : ∃ b, ¬IsNaN b ∧ key b = k := by
  have hnat : (BitVec.ofNat 64 (k.natAbs + if k < 0 then 2 ^ 63 else 0)).toNat =
      k.natAbs + if k < 0 then 2 ^ 63 else 0 := by
    rw [BitVec.toNat_ofNat]
    split <;> omega
  refine ⟨BitVec.ofNat 64 (k.natAbs + if k < 0 then 2 ^ 63 else 0), ?_, ?_⟩
  · rw [isNaN_iff, body, hnat]
    split <;> omega
  · simp only [key, signed, sign_eq_true, body, hnat]
    split <;> split <;> omega

/-- The numbers that are not NaNs. -/
def numbers : Set EReal := value '' {z | ¬IsNaN z}

section Next

variable (hx : ¬IsNaN x) (hy : ¬IsNaN y) (hr : ¬IsNaN r)

include hx hy hr

/-- **The least number above another one** has the next key. -/
theorem isLeast_value_iff (hlt : value x < value y) :
    IsLeast (numbers ∩ Set.Ioi (value x)) (value r) ↔ key r = key x + 1 := by
  have hxy := (value_lt_iff hx hy).1 hlt
  have hkx := natAbs_key hx
  have hky := natAbs_key hy
  constructor
  · rintro ⟨⟨-, hgt⟩, hle⟩
    have hxr := (value_lt_iff hx hr).1 hgt
    obtain ⟨z, hz, hkz⟩ := exists_key (k := key x + 1) (by omega)
    have hrz := hle ⟨⟨z, hz, rfl⟩, (value_lt_iff hx hz).2 (by omega)⟩
    rw [value_le_iff hr hz] at hrz
    omega
  · intro h
    refine ⟨⟨⟨r, hr, rfl⟩, (value_lt_iff hx hr).2 (by omega)⟩, ?_⟩
    rintro _ ⟨⟨z, hz, rfl⟩, hgt⟩
    have hxz := (value_lt_iff hx hz).1 hgt
    exact (value_le_iff hr hz).2 (by omega)

/-- **The greatest number below another one** has the key before it. -/
theorem isGreatest_value_iff (hlt : value y < value x) :
    IsGreatest (numbers ∩ Set.Iio (value x)) (value r) ↔ key r = key x - 1 := by
  have hxy := (value_lt_iff hy hx).1 hlt
  have hkx := natAbs_key hx
  have hky := natAbs_key hy
  constructor
  · rintro ⟨⟨-, hgt⟩, hle⟩
    have hxr := (value_lt_iff hr hx).1 hgt
    obtain ⟨z, hz, hkz⟩ := exists_key (k := key x - 1) (by omega)
    have hrz := hle ⟨⟨z, hz, rfl⟩, (value_lt_iff hz hx).2 (by omega)⟩
    rw [value_le_iff hz hr] at hrz
    omega
  · intro h
    refine ⟨⟨⟨r, hr, rfl⟩, (value_lt_iff hr hx).2 (by omega)⟩, ?_⟩
    rintro _ ⟨⟨z, hz, rfl⟩, hgt⟩
    have hxz := (value_lt_iff hz hx).1 hgt
    exact (value_le_iff hz hr).2 (by omega)

end Next

end Binary64
