import Mathlib.Algebra.Field.ZMod
import Mathlib.RingTheory.AdjoinRoot

/-!
# Natural numbers as polynomials over the field of two elements

The bits of a natural number are the coefficients of a polynomial.  Exclusive or is addition, and
a left shift is multiplication by a power of the variable.  Modulo a monic polynomial of degree
`d`, the numbers below `2 ^ d` stand for distinct residues.

## Main definitions

* `ofNat` — the polynomial of a number.
* `residue` — the residue of that polynomial.
* `modulus` — a monic polynomial with given low coefficients.

## Main results

* `ofNat_xor`, `ofNat_concat` — the operations on numbers.
* `residue_injOn` — numbers with the same residue are equal.
* `root_pow` — the reduction modulo a polynomial with small low coefficients.
-/

open Polynomial

namespace BinaryPolynomial

noncomputable def ofNat (n : ℕ) : (ZMod 2)[X] :=
  ∑ i ∈ Finset.range n, if n.testBit i then X ^ i else 0

theorem coeff_ofNat (n i : ℕ) : (ofNat n).coeff i = if n.testBit i then 1 else 0 := by
  have hterm : ∀ j, (if n.testBit j then (X : (ZMod 2)[X]) ^ j else 0).coeff i =
      if i = j then if n.testBit i then 1 else 0 else 0 := by
    intro j
    split_ifs with hj hij <;> simp_all [coeff_X_pow]
  rw [ofNat, finsetSum_coeff, Finset.sum_congr rfl fun j _ => hterm j, Finset.sum_ite_eq]
  split
  · rfl
  · next hi =>
    rw [Finset.mem_range, not_lt] at hi
    have hbit : n.testBit i = false :=
      Nat.testBit_lt_two_pow (n.lt_two_pow_self.trans_le (Nat.pow_le_pow_right two_pos hi))
    simp [hbit]

/-- **Exclusive or is addition.** -/
theorem ofNat_xor (a b : ℕ) : ofNat (a ^^^ b) = ofNat a + ofNat b := by
  ext i
  rw [coeff_add, coeff_ofNat, coeff_ofNat, coeff_ofNat, Nat.testBit_xor]
  cases a.testBit i <;> cases b.testBit i <;> decide

/-- **The bits of two numbers, one after the other.** -/
theorem ofNat_concat (a : ℕ) {b k : ℕ} (hb : b < 2 ^ k) :
    ofNat (2 ^ k * a + b) = ofNat a * X ^ k + ofNat b := by
  ext i
  rw [coeff_add, coeff_mul_X_pow', coeff_ofNat, coeff_ofNat, coeff_ofNat,
    Nat.testBit_two_pow_mul_add _ hb]
  rcases Nat.lt_or_ge i k with h | h
  · simp [h, Nat.not_le_of_lt h]
  · have hbit : b.testBit i = false :=
      Nat.testBit_lt_two_pow (hb.trans_le (Nat.pow_le_pow_right two_pos h))
    simp [h, Nat.not_lt_of_le h, hbit]

@[simp] theorem ofNat_zero : ofNat 0 = 0 := by simp [ofNat]

@[simp] theorem ofNat_one : ofNat 1 = 1 := by simp [ofNat]

theorem ofNat_shiftLeft (a k : ℕ) : ofNat (a <<< k) = ofNat a * X ^ k := by
  have h := ofNat_concat a (b := 0) (Nat.two_pow_pos k)
  rwa [Nat.add_zero, ofNat_zero, add_zero, Nat.mul_comm, ← Nat.shiftLeft_eq] at h

theorem ofNat_injective : Function.Injective ofNat := by
  intro a b h
  refine Nat.eq_of_testBit_eq fun i => ?_
  have hi := congrArg (fun p => p.coeff i) h
  simp only [coeff_ofNat] at hi
  revert hi
  cases a.testBit i <;> cases b.testBit i <;> decide

theorem degree_ofNat_lt {n k : ℕ} (h : n < 2 ^ k) : (ofNat n).degree < k := by
  rw [degree_lt_iff_coeff_zero]
  intro i hi
  have hbit : n.testBit i = false :=
    Nat.testBit_lt_two_pow (h.trans_le (Nat.pow_le_pow_right two_pos hi))
  simp [coeff_ofNat, hbit]

/-! ### Residues -/

variable (p : (ZMod 2)[X])

noncomputable def residue (n : ℕ) : AdjoinRoot p := AdjoinRoot.mk p (ofNat n)

theorem residue_xor (a b : ℕ) : residue p (a ^^^ b) = residue p a + residue p b := by
  rw [residue, ofNat_xor, map_add]
  rfl

theorem residue_concat (a : ℕ) {b k : ℕ} (hb : b < 2 ^ k) :
    residue p (2 ^ k * a + b) = residue p a * AdjoinRoot.root p ^ k + residue p b := by
  rw [residue, ofNat_concat a hb, map_add, map_mul, map_pow, AdjoinRoot.mk_X]
  rfl

@[simp] theorem residue_zero : residue p 0 = 0 := by simp [residue]

@[simp] theorem residue_one : residue p 1 = 1 := by simp [residue]

theorem add_self (x : AdjoinRoot p) : x + x = 0 := by
  obtain ⟨q, rfl⟩ := AdjoinRoot.mk_surjective x
  have hq : q + q = 0 := by
    ext i
    rw [coeff_add, coeff_zero]
    generalize q.coeff i = c
    revert c
    decide
  rw [← map_add, hq, map_zero]

variable {p}

/-- **Numbers with the same residue are equal**, if they are below `2 ^ d` for a monic polynomial of
degree `d`. -/
theorem residue_injOn {d a b : ℕ} (hp : p.Monic) (hd : p.degree = d) (ha : a < 2 ^ d) (hb : b < 2 ^ d)
    (h : residue p a = residue p b) : a = b := by
  have hdvd : p ∣ ofNat (a ^^^ b) := by
    rw [← AdjoinRoot.mk_eq_zero, ← residue, residue_xor, h, add_self]
  have hzero : ofNat (a ^^^ b) = 0 := by
    by_contra hne
    refine hp.not_dvd_of_degree_lt hne ?_ hdvd
    rw [hd]
    exact degree_ofNat_lt (Nat.xor_lt_two_pow ha hb)
  have hxor : a ^^^ b = 0 := ofNat_injective (hzero.trans ofNat_zero.symm)
  refine Nat.eq_of_testBit_eq fun i => ?_
  have hi : (a ^^^ b).testBit i = false := by simp [hxor]
  rwa [Nat.testBit_xor, bne_eq_false_iff_eq] at hi

/-- The modulus of degree `k` whose other coefficients are the bits of `n`. -/
noncomputable def modulus (k n : ℕ) : (ZMod 2)[X] := X ^ k + ofNat n

theorem modulus_monic {k n : ℕ} (h : n < 2 ^ k) : (modulus k n).Monic :=
  monic_X_pow_add (degree_ofNat_lt h)

theorem degree_modulus {k n : ℕ} (h : n < 2 ^ k) : (modulus k n).degree = k := by
  have hlt : (ofNat n).degree < (X ^ k : (ZMod 2)[X]).degree := by
    rw [degree_X_pow]
    exact degree_ofNat_lt h
  rw [modulus, degree_add_eq_left_of_degree_lt hlt, degree_X_pow]

theorem root_pow (k n : ℕ) : AdjoinRoot.root (modulus k n) ^ k = residue (modulus k n) n := by
  have hroot : AdjoinRoot.mk (modulus k n) (X ^ k + ofNat n) = 0 := AdjoinRoot.mk_self
  rw [map_add, map_pow, AdjoinRoot.mk_X] at hroot
  exact add_right_cancel (hroot.trans (add_self _ _).symm)

end BinaryPolynomial
