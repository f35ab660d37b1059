import Mathlib.Data.List.DropRight
import Mathlib.Tactic

/-!
# Fractions in a radix

The number `0.d0 d1 ... dn` in the radix `b`, and the number `d0 d1 ... dn` that
the same digits make when the point stands behind them.  Digit sequences with no
zero at their end are ordered by their fractions exactly as a dictionary orders
them; the facts below are the steps of that comparison.

## Main definitions

* `Radix.Digits b ds` — every element of `ds` is a digit in the radix `b`.
* `Radix.fraction K b ds` — the fraction with these digits after the point.
* `Radix.whole b ds` — the whole number with these digits.

## Main results

* `Radix.fraction_mul_pow` — moving the point behind the last digit.
* `Radix.fraction_lt_one`, `Radix.le_fraction` — the range of a fraction.
* `Radix.fraction_lt_of_lt` — the first different digit decides.
-/

namespace Radix

/-- Every element of `ds` is a digit in the radix `b`. -/
def Digits (b : ℤ) (ds : List ℤ) : Prop := ∀ d ∈ ds, 0 ≤ d ∧ d < b

theorem digits_nil (b : ℤ) : Digits b [] := by simp [Digits]

variable {d : ℤ} {ds xs ys : List ℤ}

theorem digits_cons {b : ℤ} : Digits b (d :: ds) ↔ (0 ≤ d ∧ d < b) ∧ Digits b ds := by
  simp [Digits]

theorem digits_append {b : ℤ} : Digits b (xs ++ ys) ↔ Digits b xs ∧ Digits b ys := by
  simp only [Digits, List.mem_append]
  constructor
  · intro h
    exact ⟨fun d hd => h d (.inl hd), fun d hd => h d (.inr hd)⟩
  · rintro ⟨hx, hy⟩ d (hd | hd)
    · exact hx d hd
    · exact hy d hd

theorem Digits.sublist {b : ℤ} (h : Digits b ys) (hs : xs.Sublist ys) :
    Digits b xs := fun d hd => h d (hs.subset hd)

/-- The whole number with the digits `ds`, the most significant one first. -/
def whole (b : ℤ) (ds : List ℤ) : ℤ := ds.foldl (fun n d => b * n + d) 0

@[simp] theorem whole_nil (b : ℤ) : whole b [] = 0 := rfl

theorem whole_concat (b : ℤ) (ds : List ℤ) (d : ℤ) :
    whole b (ds ++ [d]) = b * whole b ds + d := by
  simp [whole]

theorem whole_zero_cons (b : ℤ) (ds : List ℤ) : whole b (0 :: ds) = whole b ds := by
  simp [whole]

theorem whole_dropWhile (b : ℤ) (ds : List ℤ) :
    whole b (ds.dropWhile (· == 0)) = whole b ds := by
  induction ds with
  | nil => rfl
  | cons d ds ih =>
    by_cases hd : d = 0
    · subst hd
      rw [whole_zero_cons, ← ih]
      rfl
    · rw [List.dropWhile_cons_of_neg (by simpa using hd)]

section Fraction

variable (K : Type*) [Field K]

/-- The fraction `0.d0 d1 ... dn`. -/
def fraction (b : ℤ) : List ℤ → K
  | [] => 0
  | d :: ds => (d + fraction b ds) / b

@[simp] theorem fraction_nil (b : ℤ) : fraction K b [] = 0 := rfl

theorem fraction_cons (b d : ℤ) (ds : List ℤ) :
    fraction K b (d :: ds) = (d + fraction K b ds) / b := rfl

theorem fraction_append (b : ℤ) (xs ys : List ℤ) :
    fraction K b (xs ++ ys) = fraction K b xs + fraction K b ys / (b : K) ^ xs.length := by
  induction xs with
  | nil => simp
  | cons x xs ih =>
    rw [List.cons_append, fraction_cons, fraction_cons, ih, List.length_cons, pow_succ]
    rw [← div_div, ← add_div, add_assoc]

theorem fraction_mul_pow {b : ℤ} (hb : (b : K) ≠ 0) (ds : List ℤ) :
    fraction K b ds * (b : K) ^ ds.length = whole b ds := by
  induction ds using List.reverseRecOn with
  | nil => simp
  | append_singleton ds d ih =>
    rw [whole_concat, fraction_append, List.length_append, List.length_singleton, pow_succ,
      fraction_cons, fraction_nil, add_zero]
    push_cast
    rw [← ih]
    field_simp

theorem fraction_rdropWhile (b : ℤ) (ds : List ℤ) :
    fraction K b (ds.rdropWhile (· == 0)) = fraction K b ds := by
  induction ds using List.reverseRecOn with
  | nil => rfl
  | append_singleton ds d ih =>
    by_cases hd : d = 0
    · subst hd
      rw [List.rdropWhile_concat_pos _ _ _ (by simp), ih, fraction_append]
      simp [fraction_cons]
    · rw [List.rdropWhile_concat_neg _ _ _ (by simpa using hd)]

end Fraction

section Order

variable {K : Type*} [Field K] [LinearOrder K] [IsStrictOrderedRing K] {b : ℤ}

theorem fraction_nonneg (hd : Digits b ds) : 0 ≤ fraction K b ds := by
  induction ds with
  | nil => simp
  | cons d ds ih =>
    rw [digits_cons] at hd
    have h0 : (0 : K) ≤ d := by exact_mod_cast hd.1.1
    have hb : (0 : K) ≤ b := by exact_mod_cast (by omega : 0 ≤ b)
    have := ih hd.2
    rw [fraction_cons]
    positivity

theorem fraction_lt_one (hd : Digits b ds) : fraction K b ds < 1 := by
  induction ds with
  | nil => simp
  | cons d ds ih =>
    rw [digits_cons] at hd
    have hb : (0 : K) < b := by exact_mod_cast (by omega : 0 < b)
    have h1 : (d : K) + 1 ≤ b := by exact_mod_cast (by omega : d + 1 ≤ b)
    have := ih hd.2
    rw [fraction_cons, div_lt_one hb]
    linarith

theorem fraction_lt_of_lt {e : ℤ} (hx : Digits b (d :: xs)) (hy : Digits b (e :: ys)) (h : d < e) :
    fraction K b (d :: xs) < fraction K b (e :: ys) := by
  rw [digits_cons] at hx hy
  have hb : (0 : K) < b := by exact_mod_cast (by omega : 0 < b)
  have h1 : (d : K) + 1 ≤ e := by exact_mod_cast (by omega : d + 1 ≤ e)
  have hlt : fraction K b xs < 1 := fraction_lt_one hx.2
  have hge : 0 ≤ fraction K b ys := fraction_nonneg hy.2
  rw [fraction_cons, fraction_cons]
  apply div_lt_div_of_pos_right _ hb
  linarith

theorem fraction_cons_lt_cons (hb : 0 < b) :
    fraction K b (d :: xs) < fraction K b (d :: ys) ↔
      fraction K b xs < fraction K b ys := by
  have hb' : (0 : K) < b := by exact_mod_cast hb
  rw [fraction_cons, fraction_cons, div_lt_div_iff_of_pos_right hb', add_lt_add_iff_left]

theorem fraction_pos (hd : Digits b ds) (hne : ds ≠ []) (hl : ds.getLast? ≠ some 0) :
    0 < fraction K b ds := by
  induction ds with
  | nil => exact absurd rfl hne
  | cons d ds ih =>
    rw [digits_cons] at hd
    have hb : (0 : K) < b := by exact_mod_cast (by omega : 0 < b)
    have h0 : (0 : K) ≤ d := by exact_mod_cast hd.1.1
    rw [fraction_cons]
    apply div_pos _ hb
    cases ds with
    | nil =>
      have hd0 : d ≠ 0 := by simpa using hl
      have : (0 : K) < d := by exact_mod_cast (by omega : 0 < d)
      simpa using this
    | cons e es =>
      have := ih hd.2 (by simp) (by simpa using hl)
      linarith

theorem le_fraction (hd : Digits b (d :: ds)) (h : d ≠ 0) :
    1 / (b : K) ≤ fraction K b (d :: ds) := by
  rw [digits_cons] at hd
  have hb : (0 : K) < b := by exact_mod_cast (by omega : 0 < b)
  have h1 : (1 : K) ≤ d := by exact_mod_cast (by omega : 1 ≤ d)
  have := fraction_nonneg (K := K) hd.2
  rw [fraction_cons]
  apply div_le_div_of_nonneg_right _ hb.le
  linarith

end Order

end Radix
