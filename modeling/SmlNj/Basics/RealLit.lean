import Mathlib.Tactic

/-!
# Real literals

The compiler's own representation of a floating-point literal, and the two
comparisons on it that the optimiser uses as keys: `same` and `compare`, neither
of which is an ordering of the reals.

## Main results

* `RealLit.same_iff` — `same` is equality of representations.
* `RealLit.compare_eq_iff` — so is the `EQUAL` answer of `compare`.
-/

namespace SmlNj

/-- The representation of a real literal.  `flt isNeg [d0, ..., dn] exp` is the
number `0.d0...dn * 10^exp`, negated if `isNeg`; both zeros have the empty digit
sequence. -/
inductive RealLit
  | posInf
  | negInf
  | qNaN
  | flt (isNeg : Bool) (digits : List ℤ) (exp : ℤ)
  deriving DecidableEq, Inhabited

namespace RealLit

/-- Equality of literals, as the compiler tests it. -/
def same : RealLit → RealLit → Bool
  | negInf, negInf => true
  | posInf, posInf => true
  | qNaN, qNaN => true
  | flt n1 d1 e1, flt n2 d2 e2 => n1 == n2 && e1 == e2 && d1 == d2
  | _, _ => false

/-- Lexicographic comparison of digit sequences, a proper prefix being smaller. -/
@[grind =] def cmpDigits : List ℤ → List ℤ → Ordering
  | [], [] => .eq
  | [], _ => .lt
  | _, [] => .gt
  | d1 :: r1, d2 :: r2 =>
      match compareOfLessAndEq d1 d2 with
      | .eq => cmpDigits r1 r2
      | order => order

/-- A total order on literals, used to key finite maps. -/
@[grind =] def compare : RealLit → RealLit → Ordering
  | negInf, negInf => .eq
  | negInf, _ => .lt
  | _, negInf => .gt
  | posInf, posInf => .eq
  | posInf, _ => .lt
  | _, posInf => .gt
  | qNaN, qNaN => .eq
  | qNaN, _ => .lt
  | _, qNaN => .gt
  | flt n1 d1 e1, flt n2 d2 e2 =>
      match n1, n2 with
      | false, true => .gt
      | true, false => .lt
      | _, _ =>
          match compareOfLessAndEq e1 e2 with
          | .eq => cmpDigits d1 d2
          | order => order

theorem same_iff {a b : RealLit} : same a b = true ↔ a = b := by
  cases a <;> cases b <;> simp [same, and_assoc, and_comm]

theorem compareOfLessAndEq_int_eq {a b : ℤ} : compareOfLessAndEq a b = .eq ↔ a = b := by
  unfold compareOfLessAndEq
  split
  · simp; omega
  · split <;> simp_all

theorem cmpDigits_eq_iff : ∀ {a b : List ℤ}, cmpDigits a b = .eq ↔ a = b := by
  intro a
  induction a with
  | nil => intro b; cases b <;> simp [cmpDigits]
  | cons x xs ih =>
    intro b
    cases b with
    | nil => simp [cmpDigits]
    | cons y ys =>
      rw [cmpDigits]
      split
      · next h =>
        rw [compareOfLessAndEq_int_eq] at h
        rw [ih, h]
        simp
      · next h =>
        have hne : x ≠ y := fun hxy => h (compareOfLessAndEq_int_eq.mpr hxy)
        simpa [hne] using h

theorem compare_eq_iff {a b : RealLit} : compare a b = .eq ↔ a = b := by
  cases a with
  | flt n1 d1 e1 =>
    cases b with
    | flt n2 d2 e2 =>
      have key : (match compareOfLessAndEq e1 e2 with
          | .eq => cmpDigits d1 d2
          | order => order) = .eq ↔ e1 = e2 ∧ d1 = d2 := by
        split
        · next h => rw [compareOfLessAndEq_int_eq] at h; simp [cmpDigits_eq_iff, h]
        · next h =>
          have hne : e1 ≠ e2 := fun he => h (compareOfLessAndEq_int_eq.mpr he)
          simpa [hne] using h
      cases n1 <;> cases n2 <;> simp [compare, key, and_comm]
    | _ => simp [compare]
  | _ => cases b <;> simp [compare]

end RealLit

end SmlNj
