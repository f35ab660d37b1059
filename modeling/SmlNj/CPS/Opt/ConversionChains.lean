import SmlNj.CPS.Opt.Conversions

/-!
# Contracting a conversion of a conversion

When the argument of a conversion is bound to another conversion, the
contraction rules replace the outer one by a conversion of the inner argument,
or by that argument.  This file decides when the replacement is faithful: it has
the outcome of the two operations in sequence, `Overflow` included.

Three families of rules are not.  A trapping test that looks through a zero
extension compares with `p >= m` where only `p > m` would do, and falls back on a
signed test of an unsigned argument; the unsigned test looks through a sign
extension of negative numbers.  `Misfolds` names the arguments affected.

## Main definitions

* `Chain` — a conversion applied to a variable bound to a conversion.
* `Misfolds` — the chains and arguments on which the rules differ.

## Main results

* `contract_outcome_iff` — a contraction is faithful exactly off `Misfolds`.
-/

namespace SmlNj.ContractPrim

open CPS TwosComplement

/-! ### Conversions as primitive operators -/

namespace Conv

/-- What is recorded about a variable bound to a conversion. -/
def info : Conv → List Value → Info
  | test n p, args => .arithInfo (.test n p) args
  | testu n p, args => .arithInfo (.testu n p) args
  | testInf p, args => .arithInfo (.testInf p) args
  | copy n p, args => .pureInfo (.copy n p) args
  | extend n p, args => .pureInfo (.extend n p) args
  | trunc n p, args => .pureInfo (.trunc n p) args
  | copyInf n, args => .pureInfo (.copyInf n) args
  | extendInf n, args => .pureInfo (.extendInf n) args
  | truncInf p, args => .pureInfo (.truncInf p) args

/-- The contraction of a conversion. -/
def contract (fromInt : ℤ → RealLit) (toBits : RealLit → List UInt8) (get : GetInfo) :
    Conv → List Value → Except Exn Result
  | test n p, args => .ok (arith get (.test n p) args)
  | testu n p, args => .ok (arith get (.testu n p) args)
  | testInf p, args => .ok (arith get (.testInf p) args)
  | copy n p, args => pure fromInt toBits get (.copy n p) args
  | extend n p, args => pure fromInt toBits get (.extend n p) args
  | trunc n p, args => pure fromInt toBits get (.trunc n p) args
  | copyInf n, args => pure fromInt toBits get (.copyInf n) args
  | extendInf n, args => pure fromInt toBits get (.extendInf n) args
  | truncInf p, args => pure fromInt toBits get (.truncInf p) args

/-- The conversion that a trapping operator is, if any. -/
@[grind =] def ofArith : P.Arith → Option Conv
  | .test n p => some (test n p)
  | .testu n p => some (testu n p)
  | .testInf p => some (testInf p)
  | _ => none

/-- The conversion that a pure operator is, if any. -/
@[grind =] def ofPure : P.Pure → Option Conv
  | .copy n p => some (copy n p)
  | .extend n p => some (extend n p)
  | .trunc n p => some (trunc n p)
  | .copyInf n => some (copyInf n)
  | .extendInf n => some (extendInf n)
  | .truncInf p => some (truncInf p)
  | _ => none

end Conv

/-- What a contracted expression computes, where `ρ` gives the outcomes of its operands;
`none` when it is not a conversion. -/
@[grind =] def Result.outcome (ρ : Value → Option ℤ) : Result → Option (Option ℤ)
  | .val v => some (ρ v)
  | .arith p (v :: _) => (Conv.ofArith p).map fun c => (ρ v).bind c.eval
  | .pure p (v :: _) => (Conv.ofPure p).map fun c => (ρ v).bind c.eval
  | _ => .none

/-- `outer` is applied to the variable `x`, which is bound to `inner` of the operand `u`;
`a` is the value of `u`. -/
structure Chain (get : GetInfo) (ρ : Value → Option ℤ) (outer inner : Conv) (x : Lvar)
    (u : Value) (extra : List Value) (a : ℤ) : Prop where
  outer_wf : outer.WF
  inner_wf : inner.WF
  typed : inner.to_ = outer.from_
  info : get x = inner.info (u :: extra)
  arg : ρ u = some a
  dom : Conv.InDomain inner.from_ a
  bound : ρ (.var x) = inner.eval a

/-- **The chains and arguments on which a contraction changes the outcome.** -/
@[grind =] def Misfolds : Conv → Conv → ℤ → Prop
  | .test _ p, .copy m n, a => m < n ∧ p ≤ m ∧ 2 ^ m - 2 ^ (p - 1) ≤ a
  | .testInf p, .copyInf m, a => p ≤ m ∧ 2 ^ m - 2 ^ (p - 1) ≤ a
  | .testu _ p, .extend m _, a => m ≤ p ∧ 2 ^ (m - 1) ≤ a
  | _, _, _ => False

instance (outer inner : Conv) (a : ℤ) : Decidable (Misfolds outer inner a) := by
  apply @Conv.casesOn (fun outer => Decidable (Misfolds outer inner a)) outer <;> intros <;>
    apply @Conv.casesOn (fun inner => Decidable (Misfolds _ inner a)) inner <;> intros <;>
    unfold Misfolds <;> infer_instance

/-! ### The replacement, rule by rule

Each lemma is about the expressions that one group of rules produces, for an operand `u`
with the value `a`. -/

section

variable {ρ : Value → Option ℤ} {u : Value} {extra : List Value} {a : ℤ}

@[simp] theorem outcome_val (v : Value) : (Result.val v).outcome ρ = some (ρ v) := rfl

variable {m p : ℕ}

theorem outcome_mkCOPY (hu : ρ u = some a) (ha : Pattern m a) :
    (mkCOPY m p u).outcome ρ = some (some (unsigned p a)) := by
  unfold mkCOPY
  split
  · next h => rw [outcome_val, hu, ← h, unsigned_of_pattern ha]
  · simp [Result.outcome, Conv.ofPure, hu, Conv.eval]

theorem outcome_test (hu : ρ u = some a) :
    (Result.arith (.test m p) (u :: extra)).outcome ρ =
      some (Conv.checked p (signed m a)) := by
  simp [Result.outcome, Conv.ofArith, hu, Conv.eval]

theorem outcome_testu (hu : ρ u = some a) :
    (Result.arith (.testu m p) (u :: extra)).outcome ρ = some (Conv.checkedU p a) := by
  simp [Result.outcome, Conv.ofArith, hu, Conv.eval]

theorem outcome_testInf (hu : ρ u = some a) :
    (Result.arith (.testInf p) (u :: extra)).outcome ρ = some (Conv.checked p a) := by
  simp [Result.outcome, Conv.ofArith, hu, Conv.eval]

theorem outcome_extend (hu : ρ u = some a) :
    (Result.pure (.extend m p) (u :: extra)).outcome ρ =
      some (some (unsigned p (signed m a))) := by
  simp [Result.outcome, Conv.ofPure, hu, Conv.eval]

theorem outcome_trunc (hu : ρ u = some a) :
    (Result.pure (.trunc m p) (u :: extra)).outcome ρ = some (some (unsigned p a)) := by
  simp [Result.outcome, Conv.ofPure, hu, Conv.eval]

theorem outcome_truncInf (hu : ρ u = some a) :
    (Result.pure (.truncInf p) (u :: extra)).outcome ρ = some (some (unsigned p a)) := by
  simp [Result.outcome, Conv.ofPure, hu, Conv.eval]

theorem outcome_copyInf (hu : ρ u = some a) :
    (Result.pure (.copyInf m) (u :: extra)).outcome ρ = some (some a) := by
  simp [Result.outcome, Conv.ofPure, hu, Conv.eval]

theorem outcome_extendInf (hu : ρ u = some a) :
    (Result.pure (.extendInf m) (u :: extra)).outcome ρ = some (some (signed m a)) := by
  simp [Result.outcome, Conv.ofPure, hu, Conv.eval]

/-- A trapping test that looks through a zero extension: what it should yield is the test of
the pattern itself. -/
theorem outcome_test_through_copy (hp : 0 < p) (hm : 0 < m) (hu : ρ u = some a) (ha : Pattern m a) :
    (if p ≥ m then mkCOPY m p u else .arith (.test m p) [u]).outcome ρ =
      some (Conv.checked p a) ↔ ¬ (p ≤ m ∧ 2 ^ m - 2 ^ (p - 1) ≤ a) := by
  rcases lt_trichotomy m p with hlt | rfl | hgt
  · rw [if_pos hlt.le, outcome_mkCOPY hu ha, Conv.checked_of_pattern_ge ha hlt,
      unsigned_of_pattern (ha.mono hlt.le)]
    exact iff_of_true rfl fun h => absurd h.1 (by omega)
  · -- equal sizes: the identity has the outcome of the signed test
    have hs := Conv.checked_signed_eq_checked_iff hp le_rfl ha
    rw [Conv.checked_signed_self hm ha] at hs
    rw [if_pos le_rfl, outcome_mkCOPY hu ha, unsigned_of_pattern ha, Option.some_inj, hs]
    simp
  · rw [if_neg (by omega), outcome_test hu, Option.some_inj,
      Conv.checked_signed_eq_checked_iff hp hgt.le ha]
    simp [hgt.le]

theorem outcome_test_through_extend (hm : 0 < m) (hu : ρ u = some a) :
    (if p ≥ m then Result.pure (.extend m p) [u] else Result.arith (.test m p) [u]).outcome ρ =
      some (Conv.checked p (signed m a)) := by
  by_cases hpm : p ≥ m
  · have hb := signed_bounds hm a
    rw [if_pos hpm, outcome_extend hu, Conv.checked_of_bounds hpm hb.1 hb.2]
  · rw [if_neg hpm, outcome_test hu]

theorem outcome_trunc_through_copy (hu : ρ u = some a) (ha : Pattern m a) :
    (if p ≥ m then mkCOPY m p u else .pure (.trunc m p) [u]).outcome ρ =
      some (some (unsigned p a)) := by
  split
  · exact outcome_mkCOPY hu ha
  · exact outcome_trunc hu

theorem outcome_trunc_through_extend (hu : ρ u = some a) :
    (if p ≥ m then .pure (.extend m p) (u :: extra)
      else .pure (.trunc m p) (u :: extra) : Result).outcome ρ =
      some (some (unsigned p (signed m a))) := by
  split
  · exact outcome_extend hu
  · next h => rw [outcome_trunc hu, unsigned_signed (by omega)]

end

/-! ### The rules, operator by operator -/

section

variable {get : GetInfo} {ρ : Value → Option ℤ} {inner : Conv} {x : Lvar} {u : Value}
  {extra rest : List Value} {a : ℤ} {n p : ℕ}

/-- The outer conversion of a chain sees values of its argument type only, so an outer
identity may be dropped. -/
theorem Chain.bind_self {outer : Conv} (h : Chain get ρ outer inner x u extra a)
    (hself : ∀ b, Conv.InDomain outer.from_ b → outer.eval b = some b) :
    (ρ (.var x)).bind outer.eval = ρ (.var x) := by
  rw [h.bound]
  cases he : inner.eval a with
  | none => rfl
  | some b => exact hself b (h.typed ▸ Conv.eval_inDomain he)

theorem Chain.not_misfolds_self (h : Chain get ρ (.test p p) inner x u extra a) :
    ¬ Misfolds (.test p p) inner a := by
  have hty := h.typed
  cases inner with
  | copy m n =>
    cases hty
    rintro ⟨h1, h2, -⟩
    omega
  | _ => exact not_false

theorem test_outcome_iff (h : Chain get ρ (.test n p) inner x u extra a)
    (hne : arith get (.test n p) (.var x :: rest) ≠ .none) :
    (arith get (.test n p) (.var x :: rest)).outcome ρ =
      some ((ρ (.var x)).bind (Conv.test n p).eval) ↔ ¬ Misfolds (.test n p) inner a := by
  obtain ⟨hp, hpn⟩ := h.outer_wf
  have hi := h.info
  have hu := h.arg
  by_cases hnp : n = p
  · subst hnp
    have hr : arith get (.test n n) (.var x :: rest) = .val (.var x) := by
      simp [arith, test]
    rw [hr, h.bind_self fun b hb => Conv.test_self hp hb]
    exact iff_of_true rfl h.not_misfolds_self
  have hty := h.typed
  have hd := h.dom
  have hw := h.inner_wf
  rw [h.bound]
  cases inner with
  | test m n' =>
    cases hty
    have hr : arith get (.test n p) (.var x :: rest) = .arith (.test m p) (u :: extra) := by
      simp [arith, test, hnp, hi, Conv.info]
    rw [hr, outcome_test hu]
    exact iff_of_true (congrArg some (Conv.checked_bind_signed hp hpn _).symm) not_false
  | testInf n' =>
    cases hty
    rcases extra with _ | ⟨f, _ | ⟨g, fs⟩⟩
    · exact absurd (by simp [arith, test, hnp, hi, Conv.info]) hne
    · have hr : arith get (.test n p) (.var x :: rest) = .arith (.testInf p) [u, f] := by
        simp [arith, test, hnp, hi, Conv.info]
      rw [hr, outcome_testInf hu]
      exact iff_of_true (congrArg some (Conv.checked_bind_signed hp hpn _).symm) not_false
    · exact absurd (by simp [arith, test, hnp, hi, Conv.info]) hne
  | copy m n' =>
    cases hty
    obtain ⟨hm, hmn⟩ := hw
    rcases extra with _ | ⟨f, fs⟩
    swap
    · exact absurd (by simp [arith, test, hnp, hi, Conv.info]) hne
    have hr : arith get (.test n p) (.var x :: rest) =
        if p ≥ m then mkCOPY m p u else .arith (.test m p) [u] := by
      by_cases hpm : p ≥ m <;> simp [arith, test, hnp, hi, Conv.info, hpm]
    have hc : (Conv.copy m n).eval a = some a := by
      rw [Conv.eval, unsigned_of_pattern (Pattern.mono hd hmn)]
    rw [hr, hc, Option.bind_some, Conv.eval]
    rcases hmn.lt_or_eq with hlt | rfl
    · rw [signed_of_pattern_lt hd hlt, outcome_test_through_copy hp hm hu hd]
      simp [Misfolds, hlt]
    · rw [if_neg (by omega), outcome_test hu]
      exact iff_of_true rfl fun h => absurd h.1 (lt_irrefl m)
  | extend m n' =>
    cases hty
    obtain ⟨hm, hmn⟩ := hw
    rcases extra with _ | ⟨f, fs⟩
    swap
    · exact absurd (by simp [arith, test, hnp, hi, Conv.info]) hne
    have hr : arith get (.test n p) (.var x :: rest) =
        if p ≥ m then .pure (.extend m p) [u] else .arith (.test m p) [u] := by
      by_cases hpm : p ≥ m <;> simp [arith, test, hnp, hi, Conv.info, hpm]
    rw [hr, outcome_test_through_extend hm hu, Conv.eval, Option.bind_some, Conv.eval,
      signed_emod, signed_signed hm hmn]
    exact iff_of_true rfl not_false
  | _ => exact absurd (by simp [arith, test, hnp, hi, Conv.info]) hne

theorem testu_outcome_iff (h : Chain get ρ (.testu n p) inner x u extra a)
    (hne : arith get (.testu n p) (.var x :: rest) ≠ .none) :
    (arith get (.testu n p) (.var x :: rest)).outcome ρ =
      some ((ρ (.var x)).bind (Conv.testu n p).eval) ↔ ¬ Misfolds (.testu n p) inner a := by
  obtain ⟨hp, hpn⟩ := h.outer_wf
  have hi := h.info
  have hu := h.arg
  have hty := h.typed
  have hd := h.dom
  have hw := h.inner_wf
  rw [h.bound]
  have hextra : extra = [] := by
    rcases extra with _ | ⟨f, fs⟩
    · rfl
    · exact absurd (by cases inner <;> simp [arith, testu, hi, Conv.info]) hne
  subst hextra
  cases inner with
  | testu m n' =>
    cases hty
    have hr : arith get (.testu n p) (.var x :: rest) = .arith (.testu m p) [u] := by
      simp [arith, testu, hi, Conv.info]
    rw [hr, outcome_testu hu]
    exact iff_of_true (congrArg some (Conv.checkedU_bind hp hpn hd).symm) not_false
  | copy m n' =>
    cases hty
    have hr : arith get (.testu n p) (.var x :: rest) =
        if p > m then mkCOPY m p u else .arith (.testu m p) [u] := by
      by_cases hpm : p > m <;> simp [arith, testu, hi, Conv.info, hpm]
    have hc : (Conv.copy m n).eval a = some a := by
      rw [Conv.eval, unsigned_of_pattern (Pattern.mono hd hw.2)]
    rw [hr, hc, Option.bind_some, Conv.eval]
    refine iff_of_true ?_ not_false
    split
    · next hpm =>
      rw [outcome_mkCOPY hu hd, Conv.checkedU_of_pattern hd hpm, unsigned_of_pattern (hd.mono hpm.le)]
    · exact outcome_testu hu
  | extend m n' =>
    cases hty
    obtain ⟨hm, hmn⟩ := hw
    have hr : arith get (.testu n p) (.var x :: rest) =
        if p ≥ m then .pure (.extend m p) [u] else .arith (.testu m p) [u] := by
      by_cases hpm : p ≥ m <;> simp [arith, testu, hi, Conv.info, hpm]
    rw [hr, Conv.eval, Option.bind_some, Conv.eval]
    by_cases hpm : p ≥ m
    · rw [if_pos hpm, outcome_extend hu, Option.some_inj,
        Conv.checkedU_extend_eq_iff hm hpm hpn hd]
      simp [Misfolds, hpm]
    · rw [if_neg hpm, outcome_testu hu, Conv.checkedU_extend_of_lt hmn hp (by omega) hd]
      exact iff_of_true rfl fun h => hpm h.1
  | _ => exact absurd (by simp [arith, testu, hi, Conv.info]) hne

theorem testInf_outcome_iff (h : Chain get ρ (.testInf p) inner x u extra a)
    (hne : arith get (.testInf p) (.var x :: rest) ≠ .none) :
    (arith get (.testInf p) (.var x :: rest)).outcome ρ =
      some ((ρ (.var x)).bind (Conv.testInf p).eval) ↔ ¬ Misfolds (.testInf p) inner a := by
  have hi := h.info
  have hu := h.arg
  rw [h.bound]
  cases inner with
  | copyInf m =>
    have hr : arith get (.testInf p) (.var x :: rest) =
        if p ≥ m then mkCOPY m p u else .arith (.test m p) [u] := by
      by_cases hpm : p ≥ m <;> simp [arith, testInf, hi, Conv.info, hpm]
    rw [hr, Conv.eval, Option.bind_some, Conv.eval,
      outcome_test_through_copy h.outer_wf h.inner_wf hu h.dom, Misfolds]
  | extendInf m =>
    have hr : arith get (.testInf p) (.var x :: rest) =
        if p ≥ m then .pure (.extend m p) [u] else .arith (.test m p) [u] := by
      by_cases hpm : p ≥ m <;> simp [arith, testInf, hi, Conv.info, hpm]
    rw [hr, outcome_test_through_extend h.inner_wf hu]
    exact iff_of_true rfl not_false
  | _ => exact absurd (by simp [arith, testInf, hi, Conv.info]) hne

variable {fromInt : ℤ → RealLit} {toBits : RealLit → List UInt8} {r : Result}

theorem copy_outcome (h : Chain get ρ (.copy n p) inner x u extra a)
    (hr : pure fromInt toBits get (.copy n p) (.var x :: rest) = .ok r) (hne : r ≠ .none) :
    r.outcome ρ = some ((ρ (.var x)).bind (Conv.copy n p).eval) := by
  have hi := h.info
  have hu := h.arg
  rcases rest with _ | ⟨v, vs⟩
  swap
  · cases hr; exact absurd rfl hne
  by_cases hnp : n = p
  · subst hnp
    have hx : r = .val (.var x) := by simpa [pure, copy] using hr.symm
    rw [hx, outcome_val, h.bind_self fun b hb => Conv.copy_self hb]
  have hty := h.typed
  have hd := h.dom
  have hw := h.inner_wf
  rw [h.bound]
  cases inner with
  | copy m n' =>
    cases hty
    rcases extra with _ | ⟨f, fs⟩
    · have hx : r = mkCOPY m p u := by
        simpa [pure, copy, hnp, hi, Conv.info] using hr.symm
      have ha : unsigned n a = a := unsigned_of_pattern (Pattern.mono hd hw.2)
      rw [hx, outcome_mkCOPY hu hd, Conv.eval, ha, Option.bind_some, Conv.eval]
    · exact absurd (by simpa [pure, copy, hnp, hi, Conv.info] using hr.symm) hne
  | _ => exact absurd (by simpa [pure, copy, hnp, hi, Conv.info] using hr.symm) hne

theorem extend_outcome (h : Chain get ρ (.extend n p) inner x u extra a)
    (hr : pure fromInt toBits get (.extend n p) (.var x :: rest) = .ok r) (hne : r ≠ .none) :
    r.outcome ρ = some ((ρ (.var x)).bind (Conv.extend n p).eval) := by
  have hi := h.info
  have hu := h.arg
  rcases rest with _ | ⟨v, vs⟩
  swap
  · cases hr; exact absurd rfl hne
  by_cases hnp : n = p
  · subst hnp
    have hx : r = .val (.var x) := by simpa [pure, extend] using hr.symm
    rw [hx, outcome_val, h.bind_self fun b hb => Conv.extend_self hb]
  have hty := h.typed
  have hd := h.dom
  have hw := h.inner_wf
  rw [h.bound]
  cases inner with
  | extend m n' =>
    cases hty
    have hx : r = .pure (.extend m p) (u :: extra) := by
      simpa [pure, extend, hnp, hi, Conv.info] using hr.symm
    rw [hx, outcome_extend hu, Conv.eval, Option.bind_some, Conv.eval, signed_emod,
      signed_signed hw.1 hw.2]
  | copy m n' =>
    cases hty
    rcases extra with _ | ⟨f, fs⟩
    · by_cases hmn : m < n
      · have hx : r = mkCOPY m p u := by
          simpa [pure, extend, hnp, hi, Conv.info, hmn] using hr.symm
        have ha : unsigned n a = a := unsigned_of_pattern (Pattern.mono hd hw.2)
        rw [hx, outcome_mkCOPY hu hd, Conv.eval, ha, Option.bind_some, Conv.eval,
          signed_of_pattern_lt hd hmn]
      · exact absurd (by simpa [pure, extend, hnp, hi, Conv.info, hmn] using hr.symm) hne
    · exact absurd (by simpa [pure, extend, hnp, hi, Conv.info] using hr.symm) hne
  | _ => exact absurd (by simpa [pure, extend, hnp, hi, Conv.info] using hr.symm) hne

theorem trunc_outcome (h : Chain get ρ (.trunc n p) inner x u extra a)
    (hr : pure fromInt toBits get (.trunc n p) (.var x :: rest) = .ok r) (hne : r ≠ .none) :
    r.outcome ρ = some ((ρ (.var x)).bind (Conv.trunc n p).eval) := by
  have hi := h.info
  have hu := h.arg
  obtain ⟨hp, hpn⟩ := h.outer_wf
  rcases rest with _ | ⟨v, vs⟩
  swap
  · cases hr; exact absurd rfl hne
  by_cases hnp : n = p
  · subst hnp
    have hx : r = .val (.var x) := by simpa [pure, trunc] using hr.symm
    rw [hx, outcome_val, h.bind_self fun b hb => Conv.trunc_self hb]
  have hty := h.typed
  have hd := h.dom
  rw [h.bound]
  cases inner with
  | trunc m n' =>
    cases hty
    have hx : r = .pure (.trunc m p) (u :: extra) := by
      simpa [pure, trunc, hnp, hi, Conv.info] using hr.symm
    rw [hx, outcome_trunc hu, Conv.eval, Option.bind_some, Conv.eval, unsigned_unsigned hpn]
  | truncInf n' =>
    cases hty
    have hx : r = .pure (.truncInf p) (u :: extra) := by
      simpa [pure, trunc, hnp, hi, Conv.info] using hr.symm
    rw [hx, outcome_truncInf hu, Conv.eval, Option.bind_some, Conv.eval, unsigned_unsigned hpn]
  | copy m n' =>
    cases hty
    rcases extra with _ | ⟨f, fs⟩
    · have hx : r = if p ≥ m then mkCOPY m p u else .pure (.trunc m p) [u] := by
        by_cases hpm : p ≥ m <;> simpa [pure, trunc, hnp, hi, Conv.info, hpm] using hr.symm
      rw [hx, outcome_trunc_through_copy hu hd, Conv.eval, Option.bind_some, Conv.eval,
        unsigned_unsigned hpn]
    · exact absurd (by simpa [pure, trunc, hnp, hi, Conv.info] using hr.symm) hne
  | extend m n' =>
    cases hty
    have hx : r = if p ≥ m then .pure (.extend m p) (u :: extra)
        else .pure (.trunc m p) (u :: extra) := by
      by_cases hpm : p ≥ m <;> simpa [pure, trunc, hnp, hi, Conv.info, hpm] using hr.symm
    rw [hx, outcome_trunc_through_extend hu, Conv.eval, Option.bind_some, Conv.eval,
      unsigned_unsigned hpn]
  | _ => exact absurd (by simpa [pure, trunc, hnp, hi, Conv.info] using hr.symm) hne

theorem copyInf_outcome (h : Chain get ρ (.copyInf n) inner x u extra a)
    (hr : pure fromInt toBits get (.copyInf n) (.var x :: rest) = .ok r) (hne : r ≠ .none) :
    r.outcome ρ = some ((ρ (.var x)).bind (Conv.copyInf n).eval) := by
  have hi := h.info
  have hu := h.arg
  have hty := h.typed
  have hd := h.dom
  have hw := h.inner_wf
  rcases rest with _ | ⟨f, _ | ⟨g, fs⟩⟩
  · cases hr; exact absurd rfl hne
  swap
  · cases hr; exact absurd rfl hne
  rw [h.bound]
  cases inner with
  | copy m n' =>
    cases hty
    rcases extra with _ | ⟨f', fs⟩
    · have hx : r = .pure (.copyInf m) [u, f] := by
        simpa [pure, copyInf, hi, Conv.info] using hr.symm
      have ha : unsigned n a = a := unsigned_of_pattern (Pattern.mono hd hw.2)
      rw [hx, outcome_copyInf hu, Conv.eval, ha, Option.bind_some, Conv.eval]
    · exact absurd (by simpa [pure, copyInf, hi, Conv.info] using hr.symm) hne
  | _ => exact absurd (by simpa [pure, copyInf, hi, Conv.info] using hr.symm) hne

theorem extendInf_outcome (h : Chain get ρ (.extendInf n) inner x u extra a)
    (hr : pure fromInt toBits get (.extendInf n) (.var x :: rest) = .ok r) (hne : r ≠ .none) :
    r.outcome ρ = some ((ρ (.var x)).bind (Conv.extendInf n).eval) := by
  have hi := h.info
  have hu := h.arg
  have hty := h.typed
  have hd := h.dom
  have hw := h.inner_wf
  rcases rest with _ | ⟨f, _ | ⟨g, fs⟩⟩
  · cases hr; exact absurd rfl hne
  swap
  · cases hr; exact absurd rfl hne
  rw [h.bound]
  rcases extra with _ | ⟨f', fs⟩
  swap
  · exact absurd (by cases inner <;> simpa [pure, extendInf, hi, Conv.info] using hr.symm) hne
  cases inner with
  | extend m n' =>
    cases hty
    have hx : r = .pure (.extendInf m) [u, f] := by
      simpa [pure, extendInf, hi, Conv.info] using hr.symm
    rw [hx, outcome_extendInf hu, Conv.eval, Option.bind_some, Conv.eval, signed_emod,
      signed_signed hw.1 hw.2]
  | copy m n' =>
    cases hty
    have ha : unsigned n a = a := unsigned_of_pattern (Pattern.mono hd hw.2)
    rw [Conv.eval, ha, Option.bind_some, Conv.eval]
    rcases hw.2.lt_or_eq with hmn | rfl
    · have hx : r = .pure (.copyInf m) [u, f] := by
        simpa [pure, extendInf, hi, Conv.info, hmn] using hr.symm
      rw [hx, outcome_copyInf hu, signed_of_pattern_lt hd hmn]
    · have hx : r = .pure (.extendInf m) [u, f] := by
        simpa [pure, extendInf, hi, Conv.info] using hr.symm
      rw [hx, outcome_extendInf hu]
  | _ => exact absurd (by simpa [pure, extendInf, hi, Conv.info] using hr.symm) hne

theorem truncInf_outcome (h : Chain get ρ (.truncInf p) inner x u extra a)
    (hr : pure fromInt toBits get (.truncInf p) (.var x :: rest) = .ok r) (hne : r ≠ .none) :
    r.outcome ρ = some ((ρ (.var x)).bind (Conv.truncInf p).eval) := by
  have hi := h.info
  have hu := h.arg
  have hd := h.dom
  rcases rest with _ | ⟨f, _ | ⟨g, fs⟩⟩
  · cases hr; exact absurd rfl hne
  swap
  · cases hr; exact absurd rfl hne
  rw [h.bound]
  rcases extra with _ | ⟨f', _ | ⟨g', fs⟩⟩
  · exact absurd (by cases inner <;> simpa [pure, truncInf, hi, Conv.info] using hr.symm) hne
  swap
  · exact absurd (by cases inner <;> simpa [pure, truncInf, hi, Conv.info] using hr.symm) hne
  cases inner with
  | copyInf m =>
    have hx : r = if p ≥ m then mkCOPY m p u else .pure (.trunc m p) [u] := by
      by_cases hpm : p ≥ m <;> simpa [pure, truncInf, hi, Conv.info, hpm] using hr.symm
    rw [hx, outcome_trunc_through_copy hu hd, Conv.eval, Option.bind_some, Conv.eval]
  | extendInf m =>
    have hx : r = if p ≥ m then .pure (.extend m p) [u] else .pure (.trunc m p) [u] := by
      by_cases hpm : p ≥ m <;> simpa [pure, truncInf, hi, Conv.info, hpm] using hr.symm
    rw [hx, outcome_trunc_through_extend hu, Conv.eval, Option.bind_some, Conv.eval]
  | _ => exact absurd (by simpa [pure, truncInf, hi, Conv.info] using hr.symm) hne

/-- **When a contraction is faithful.**  Whatever replaces a conversion of a conversion has the
outcome of the two operations in sequence, `Overflow` included, exactly off `Misfolds`. -/
theorem contract_outcome_iff {outer : Conv} (h : Chain get ρ outer inner x u extra a)
    (hr : outer.contract fromInt toBits get (.var x :: rest) = .ok r) (hne : r ≠ .none) :
    r.outcome ρ = some ((ρ (.var x)).bind outer.eval) ↔ ¬ Misfolds outer inner a := by
  cases outer with
  | test n p => cases hr; exact test_outcome_iff h hne
  | testu n p => cases hr; exact testu_outcome_iff h hne
  | testInf p => cases hr; exact testInf_outcome_iff h hne
  | copy n p => rw [Conv.contract] at hr; exact iff_of_true (copy_outcome h hr hne) not_false
  | extend n p => rw [Conv.contract] at hr; exact iff_of_true (extend_outcome h hr hne) not_false
  | trunc n p => rw [Conv.contract] at hr; exact iff_of_true (trunc_outcome h hr hne) not_false
  | copyInf n => rw [Conv.contract] at hr; exact iff_of_true (copyInf_outcome h hr hne) not_false
  | extendInf n => rw [Conv.contract] at hr; exact iff_of_true (extendInf_outcome h hr hne) not_false
  | truncInf p => rw [Conv.contract] at hr; exact iff_of_true (truncInf_outcome h hr hne) not_false

end

theorem chain_word_to_int {a : ℤ} (ha : Pattern 63 a) :
    Chain (fun _ => (Conv.copy 63 64).info [.var 0]) (fun _ => some a) (.test 64 63)
      (.copy 63 64) 1 (.var 0) [] a where
  outer_wf := by decide
  inner_wf := by decide
  typed := rfl
  info := rfl
  arg := rfl
  dom := ha
  bound := by
    have h64 : Pattern 64 a := ha.mono (by decide)
    rw [Conv.eval, unsigned_of_pattern h64]

/-- The conversion of the word `5` is contracted to the word. -/
theorem contract_outcome_iff_five :
    (Result.val (.var 0)).outcome (fun _ => some 5) =
      some ((some 5).bind (Conv.test 64 63).eval) :=
  have hr : (Conv.test 64 63).contract (fun _ => .qNaN) (fun _ => [])
      (fun _ => (Conv.copy 63 64).info [.var 0]) [.var 1] = .ok (.val (.var 0)) := rfl
  (contract_outcome_iff (chain_word_to_int (by decide)) hr (by decide)).mpr (by decide)

/-- So is that of `2 ^ 62`, which does not fit: the overflow is lost. -/
theorem contract_loses_overflow :
    Chain (fun _ => (Conv.copy 63 64).info [.var 0]) (fun _ => some (2 ^ 62)) (.test 64 63)
        (.copy 63 64) 1 (.var 0) [] (2 ^ 62) ∧
      (Conv.test 64 63).contract (fun _ => .qNaN) (fun _ => [])
        (fun _ => (Conv.copy 63 64).info [.var 0]) [.var 1] = .ok (.val (.var 0)) ∧
      (Result.val (.var 0)).outcome (fun _ => some (2 ^ 62)) = some (some (2 ^ 62)) ∧
      (some (2 ^ 62 : ℤ)).bind (Conv.test 64 63).eval = none := by
  refine ⟨chain_word_to_int (by decide), rfl, rfl, by decide⟩

end SmlNj.ContractPrim
