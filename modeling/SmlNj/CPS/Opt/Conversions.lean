import SmlNj.Lib.TwosComplement
import SmlNj.CPS.Opt.ContractPrim

/-!
# Numeric conversions

What the conversion operators compute, and how two of them compose.  A value of
an `n`-bit type is its bit pattern, a number in `[0, 2 ^ n)`; a value of the
arbitrary-precision type is any integer.  An outcome is a value, or `none` for
the exception `Overflow`.

## Main definitions

* `Conv` — the conversion operators; `Conv.eval` — what they compute.
* `Conv.WF` — the sizes with which the front end uses them.

## Main results

* `Conv.eval_inDomain` — a conversion yields a value of its result type.
* `Conv.checked_signed_eq_checked_iff`, `Conv.checkedU_extend_eq_iff` — the
  arguments on which a test may look through a zero or sign extension.
-/

namespace SmlNj.ContractPrim

open CPS TwosComplement

/-- The conversion operators. -/
inductive Conv
  | test (n p : ℕ) | testu (n p : ℕ) | testInf (p : ℕ)
  | copy (n p : ℕ) | extend (n p : ℕ) | trunc (n p : ℕ)
  | copyInf (n : ℕ) | extendInf (n : ℕ) | truncInf (p : ℕ)
  deriving DecidableEq

namespace Conv

/-- The size of the argument, `none` for arbitrary precision. -/
def from_ : Conv → Option ℕ
  | test n _ | testu n _ | copy n _ | extend n _ | trunc n _ => some n
  | copyInf n | extendInf n => some n
  | testInf _ | truncInf _ => none

/-- The size of the result, `none` for arbitrary precision. -/
def to_ : Conv → Option ℕ
  | test _ p | testu _ p | copy _ p | extend _ p | trunc _ p => some p
  | testInf p | truncInf p => some p
  | copyInf _ | extendInf _ => none

/-- The sizes with which the primitives are used: sizes are positive, tests and truncations
do not widen, copies and extensions do not narrow. -/
def WF : Conv → Prop
  | test n p | testu n p | trunc n p => 0 < p ∧ p ≤ n
  | copy n p | extend n p => 0 < n ∧ n ≤ p
  | testInf p | truncInf p => 0 < p
  | copyInf n | extendInf n => 0 < n

instance : DecidablePred WF := fun c => by
  cases c <;> unfold WF <;> infer_instance

def InDomain : Option ℕ → ℤ → Prop
  | some n, v => Pattern n v
  | none, _ => True

instance (s : Option ℕ) (v : ℤ) : Decidable (InDomain s v) := by
  cases s <;> unfold InDomain <;> infer_instance

/-- A signed number, checked to fit `p` bits and stored as a pattern. -/
def checked (p : ℕ) (i : ℤ) : Option ℤ :=
  if -2 ^ (p - 1) ≤ i ∧ i ≤ 2 ^ (p - 1) - 1 then some (unsigned p i) else none

/-- An unsigned number, checked to fit the non-negative half of `p` bits. -/
def checkedU (p : ℕ) (v : ℤ) : Option ℤ :=
  if v ≤ 2 ^ (p - 1) - 1 then some (unsigned p v) else none

/-- **What a conversion computes.** -/
@[grind =] def eval : Conv → ℤ → Option ℤ
  | test n p, v => checked p (signed n v)
  | testu _ p, v => checkedU p v
  | testInf p, v => checked p v
  | copy _ p, v => some (unsigned p v)
  | extend n p, v => some (unsigned p (signed n v))
  | trunc _ p, v => some (unsigned p v)
  | copyInf _, v => some v
  | extendInf n, v => some (signed n v)
  | truncInf p, v => some (unsigned p v)

variable {p n m : ℕ} {b v a : ℤ}

theorem checked_inDomain {i : ℤ} (h : checked p i = some b) : Pattern p b := by
  unfold checked at h
  split at h
  · cases h; exact pattern_unsigned p i
  · cases h

theorem checkedU_inDomain (h : checkedU p v = some b) : Pattern p b := by
  unfold checkedU at h
  split at h
  · cases h; exact pattern_unsigned p v
  · cases h

theorem eval_inDomain {c : Conv} (h : c.eval v = some b) : InDomain c.to_ b := by
  cases c with
  | test n p => exact checked_inDomain h
  | testu n p => exact checkedU_inDomain h
  | testInf p => exact checked_inDomain h
  | copy n p | extend n p | trunc n p | truncInf p =>
    cases h; exact pattern_unsigned p _
  | copyInf n | extendInf n => trivial

theorem checked_signed_self (hp : 0 < p) (hv : Pattern p v) : checked p (signed p v) = some v := by
  have hb := signed_bounds hp v
  rw [checked, if_pos ⟨hb.1, by omega⟩, unsigned_signed le_rfl, unsigned_of_pattern hv]

theorem test_self (hp : 0 < p) (hv : Pattern p v) : (test p p).eval v = some v :=
  checked_signed_self hp hv

theorem copy_self (hv : Pattern p v) : (copy p p).eval v = some v := by
  rw [eval, unsigned_of_pattern hv]

theorem extend_self (hv : Pattern p v) : (extend p p).eval v = some v := by
  rw [eval, unsigned_signed le_rfl, unsigned_of_pattern hv]

theorem trunc_self (hv : Pattern p v) : (trunc p p).eval v = some v := by
  rw [eval, unsigned_of_pattern hv]

theorem checked_of_bounds (h : n ≤ p) {i : ℤ} (h0 : -2 ^ (n - 1) ≤ i) (h1 : i < 2 ^ (n - 1)) :
    checked p i = some (unsigned p i) := by
  have hle := two_pow_le (show n - 1 ≤ p - 1 by omega)
  rw [checked, if_pos ⟨by omega, by omega⟩]

theorem checked_bind_signed (hp : 0 < p) (h : p ≤ n) (i : ℤ) :
    (checked n i).bind (fun b => checked p (signed n b)) = checked p i := by
  have hle := two_pow_le (show p - 1 ≤ n - 1 by omega)
  by_cases hi : -2 ^ (n - 1) ≤ i ∧ i ≤ 2 ^ (n - 1) - 1
  · have hs : signed n (unsigned n i) = i := by
      rw [signed_emod, signed_of_bounds (by omega) hi.1 (by omega)]
    simp only [checked, if_pos hi, Option.bind_some, hs]
  · have hi' : ¬ (-2 ^ (p - 1) ≤ i ∧ i ≤ 2 ^ (p - 1) - 1) := by omega
    simp only [checked, if_neg hi, if_neg hi', Option.bind_none]

theorem checked_of_pattern_ge (ha : Pattern m a) (hpm : m < p) : checked p a = some a := by
  have hle := two_pow_le (show m ≤ p - 1 by omega)
  have hpos := pow_pos' (p - 1)
  obtain ⟨h0, h1⟩ := ha
  rw [checked, if_pos ⟨by omega, by omega⟩,
    unsigned_of_pattern (Pattern.mono ⟨h0, h1⟩ hpm.le)]

theorem checkedU_bind (hp : 0 < p) (h : p ≤ n) (ha : Pattern m a) :
    (checkedU n a).bind (checkedU p) = checkedU p a := by
  have hle := two_pow_le (show p - 1 ≤ n - 1 by omega)
  have hd := two_pow_eq_double (show 0 < n by omega)
  have hpos := pow_pos' (n - 1)
  by_cases hi : a ≤ 2 ^ (n - 1) - 1
  · rw [checkedU, if_pos hi, Option.bind_some, unsigned_of_pattern ⟨ha.1, by omega⟩]
  · rw [checkedU, if_neg hi, Option.bind_none, checkedU, if_neg (by omega)]

theorem checkedU_of_pattern (ha : Pattern m a) (hpm : m < p) : checkedU p a = some a := by
  have hle := two_pow_le (show m ≤ p - 1 by omega)
  have h1 := ha.2
  rw [checkedU, if_pos (by omega), unsigned_of_pattern (ha.mono hpm.le)]

/-! ### The value on which two misfolded rules differ -/

/-- Reading the pattern `a` of `m` bits as signed and testing it against `p ≤ m` bits differs
from testing its zero-extension exactly on the negative numbers that fit. -/
theorem checked_signed_eq_checked_iff (hp : 0 < p) (hpm : p ≤ m) (ha : Pattern m a) :
    checked p (signed m a) = checked p a ↔ ¬ 2 ^ m - 2 ^ (p - 1) ≤ a := by
  have hm : 0 < m := by omega
  have hd := two_pow_eq_double hm
  have hle := two_pow_le (show p - 1 ≤ m - 1 by omega)
  have hpos := pow_pos' (p - 1)
  obtain ⟨h0, h1⟩ := ha
  rw [signed_of_pattern ⟨h0, h1⟩ hm]
  split
  · next hlt =>
    exact iff_of_true rfl (by omega)
  · next hge =>
    have hr : checked p a = none := by rw [checked, if_neg (by omega)]
    rw [hr]
    by_cases hb : 2 ^ m - 2 ^ (p - 1) ≤ a
    · rw [checked, if_pos ⟨by omega, by omega⟩]
      simp [hb]
    · rw [checked, if_neg (by omega)]
      simp [hb]

/-- The unsigned test of a sign extension: it looks through to the pattern, and accepts no
negative number. -/
theorem checkedU_extend (hm : 0 < m) (hmn : m ≤ n) (hp : 0 < p) (hpn : p ≤ n) (ha : Pattern m a) :
    checkedU p (unsigned n (signed m a)) =
      if a < 2 ^ (m - 1) then checkedU p a else none := by
  have hd := two_pow_eq_double hm
  have hdn := two_pow_eq_double (show 0 < n by omega)
  have hle := two_pow_le (show m - 1 ≤ n - 1 by omega)
  have hle' := two_pow_le (show p - 1 ≤ n - 1 by omega)
  have hpos := pow_pos' (m - 1)
  obtain ⟨h0, h1⟩ := ha
  rw [signed_of_pattern ⟨h0, h1⟩ hm]
  split
  · rw [unsigned_of_pattern ⟨h0, by omega⟩]
  · have hn : unsigned n (a - 2 ^ m) = a - 2 ^ m + 2 ^ n := by
      have hp : Pattern n (a - 2 ^ m + 2 ^ n) := ⟨by omega, by omega⟩
      rw [← unsigned_of_pattern hp, unsigned, unsigned, Int.add_emod_right]
    rw [hn, checkedU, if_neg (by omega)]

theorem checkedU_extend_eq_iff (hm : 0 < m) (hmp : m ≤ p) (hpn : p ≤ n) (ha : Pattern m a) :
    some (unsigned p (signed m a)) = checkedU p (unsigned n (signed m a)) ↔
      ¬ 2 ^ (m - 1) ≤ a := by
  have hle := two_pow_le (show m - 1 ≤ p - 1 by omega)
  rw [checkedU_extend hm (hmp.trans hpn) (by omega) hpn ha]
  by_cases hlt : a < 2 ^ (m - 1)
  · rw [if_pos hlt, signed_of_pattern ha hm, if_pos hlt, checkedU, if_pos (by omega)]
    exact iff_of_true rfl (by omega)
  · rw [if_neg hlt]
    exact iff_of_false (by simp) (by omega)

/-- An unsigned test against fewer bits than a sign extension started from may look through
it. -/
theorem checkedU_extend_of_lt (hmn : m ≤ n) (hp : 0 < p) (hpm : p < m) (ha : Pattern m a) :
    checkedU p (unsigned n (signed m a)) = checkedU p a := by
  have hle := two_pow_le (show p - 1 ≤ m - 1 by omega)
  rw [checkedU_extend (by omega) hmn hp (by omega) ha]
  split
  · rfl
  · rw [checkedU, if_neg (by omega)]

end Conv

end SmlNj.ContractPrim
