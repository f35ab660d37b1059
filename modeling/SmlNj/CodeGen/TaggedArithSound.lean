import SmlNj.CodeGen.TaggedArith
import SmlNj.CodeGen.CfgSemantics

/-!
# Tagged arithmetic computes on 63-bit numbers

The expression that a pure operation on default tagged numbers is translated to denotes the tagged
result, except for the quotients and remainders of signed numbers, which are divided as words.  The
statement for a trapping operation traps exactly if its result is not a tagged integer.

## Main definitions

* `Operand` — the operands with which an operation is used.
* `Denotes` — the expression for a pure operation denotes its result.
* `Completes` — the statement for a trapping operation hands its result to the rest of the code.
* `DividesAsSigned` — the signed numbers whose division as words is right.
-/

namespace SmlNj.TaggedArith

open CFG LambdaVar TwosComplement CPStoCFG
open CPS (Value IntConst execTagged)

/-! ### The operands -/

def InRange (isSigned : Bool) (i : ℤ) : Prop :=
  if isSigned then -2 ^ 62 ≤ i ∧ i < 2 ^ 62 else 0 ≤ i ∧ i < 2 ^ 63

instance (isSigned : Bool) (i : ℤ) : Decidable (InRange isSigned i) := by
  unfold InRange
  infer_instance

section

variable {V W : Type} {I : Interp V W} (M : Words I) (exps : Lvar → Option Exp) (env : Env V)
  (w : W)

/-- An operand that stands for the number with pattern `n`: a variable that is bound to the tagged
number, or a literal. -/
def Operand (isSigned : Bool) : Value → ℤ → Prop
  | .var x, n => Pattern 63 n ∧ eval I env w (binding exps x) = some (M.word (2 * n + 1))
  | .num c, n => c.ty.tag = true ∧ InRange isSigned c.ival ∧ n = unsigned 63 c.ival
  | _, _ => False

variable {M exps env w} {isSigned : Bool} {v v₁ v₂ : Value} {n n₁ n₂ : ℤ} {c : IntConst}

theorem Operand.pattern (h : Operand M exps env w isSigned v n) : Pattern 63 n := by
  cases v with
  | var x => exact h.1
  | num c =>
    obtain ⟨-, -, rfl⟩ := h
    exact pattern_unsigned 63 _
  | _ => exact h.elim

theorem Operand.cases (h : Operand M exps env w isSigned v n) :
    (∃ x, v = .var x ∧ eval I env w (binding exps x) = some (M.word (2 * n + 1))) ∨
      ∃ i s, v = .num ⟨i, ⟨s, true⟩⟩ ∧ InRange isSigned i ∧ n = unsigned 63 i := by
  cases v with
  | var x => exact .inl ⟨x, rfl, h.2⟩
  | num c =>
    obtain ⟨i, s, t⟩ := c
    obtain ⟨ht, hi, hn⟩ := h
    obtain rfl : t = true := ht
    exact .inr ⟨i, s, rfl, hi, hn⟩
  | _ => exact h.elim

theorem eval_num (i : ℤ) : eval I env w (num i) = some (M.word (unsigned 64 i)) := M.eval_num i

theorem eval_num_double (i : ℤ) :
    eval I env w (num (i + i)) = some (M.word (2 * unsigned 63 i)) := by
  rw [eval_num (M := M), ← two_mul]
  exact congrArg (fun p => some (M.word p)) (unsigned_double 63 i)

theorem eval_num_tag (i : ℤ) :
    eval I env w (num (i + i + 1)) = some (M.word (2 * unsigned 63 i + 1)) := by
  rw [eval_num (M := M), ← two_mul]
  exact congrArg (fun p => some (M.word p)) (unsigned_tag 63 i)

theorem eval_one : eval I env w one = some (M.word 1) := eval_num 1

/-- **An operand is translated to an expression for the tagged number.** -/
theorem Operand.genV (h : Operand M exps env w isSigned v n) :
    ∃ e, genV exps v = .ok e ∧ eval I env w e = some (M.word (2 * n + 1)) := by
  rcases h.cases with ⟨x, rfl, hx⟩ | ⟨i, s, rfl, -, rfl⟩
  · exact ⟨_, rfl, hx⟩
  · exact ⟨_, rfl, eval_num_tag i⟩

variable {e : Exp} {a : ℤ}

theorem eval_stripTag (he : eval I env w e = some (M.word (2 * n + 1))) (hn : Pattern 63 n) :
    eval I env w (stripTag e) = some (M.word (2 * n)) := by
  refine M.eval_pure₂ he eval_one ?_
  rw [execPure_sub, add_sub_cancel_right, unsigned_of_pattern hn.double]

theorem eval_addTag (he : eval I env w e = some (M.word (2 * n))) (hn : Pattern 63 n) :
    eval I env w (addTag e) = some (M.word (2 * n + 1)) := by
  refine M.eval_pure₂ he eval_one ?_
  rw [execPure_add, unsigned_of_pattern hn.tag]

theorem eval_orTag (he : eval I env w e = some (M.word a)) :
    eval I env w (orTag e) = some (M.word (2 * (a / 2) + 1)) := by
  refine M.eval_pure₂ he eval_one ?_
  rw [execPure_orb, lor_one]

theorem eval_untagUInt (he : eval I env w e = some (M.word (2 * n + 1))) :
    eval I env w (untagUInt e) = some (M.word n) := by
  refine M.eval_pure₂ he eval_one ?_
  have hdiv : (2 * n + 1) / 2 ^ (1 : ℤ).toNat = n := by
    rw [Int.toNat_one]
    omega
  rw [execPure_lshr, if_pos (by decide), hdiv]

theorem eval_untagInt (he : eval I env w e = some (M.word (2 * n + 1))) :
    eval I env w (untagInt e) = some (M.word (unsigned 64 (signed 63 n))) := by
  refine M.eval_pure₂ he eval_one ?_
  have hdiv : signed 64 (2 * n + 1) / 2 ^ (1 : ℤ).toNat = signed 63 n := by
    have htag : signed 64 (2 * n + 1) = 2 * signed 63 n + 1 := signed_tag (by decide) n
    rw [Int.toNat_one]
    omega
  rw [execPure_ashr, if_pos (by decide), hdiv]

theorem eval_tag (he : eval I env w e = some (M.word a)) :
    eval I env w (tag e) = some (M.word (2 * unsigned 63 a + 1)) := by
  have hshl : eval I env w (pureOp .shl ity [e, one]) = some (M.word (2 * unsigned 63 a)) := by
    refine M.eval_pure₂ he eval_one ?_
    have hdouble : unsigned 64 (a * 2 ^ (1 : ℤ).toNat) = 2 * unsigned 63 a := by
      rw [mul_comm]
      exact unsigned_double 63 a
    rw [execPure_shl, if_pos (by decide), hdouble]
  have h := eval_orTag hshl
  rwa [Int.mul_ediv_cancel_left _ two_ne_zero] at h

def untagged (isSigned : Bool) (n : ℤ) : ℤ := if isSigned then unsigned 64 (signed 63 n) else n

theorem eval_untag (he : eval I env w e = some (M.word (2 * n + 1))) :
    eval I env w (untag isSigned e) = some (M.word (untagged isSigned n)) := by
  cases isSigned with
  | false => exact eval_untagUInt he
  | true => exact eval_untagInt he

theorem unsigned_of_inRange (hi : InRange isSigned a) :
    unsigned 64 a = untagged isSigned (unsigned 63 a) := by
  cases isSigned with
  | false =>
    have hle : (2 : ℤ) ^ 63 ≤ 2 ^ 64 := by norm_num
    have h63 : unsigned 63 a = a := unsigned_of_pattern hi
    rw [h63]
    exact unsigned_of_pattern ⟨hi.1, lt_of_lt_of_le hi.2 hle⟩
  | true =>
    have h63 : signed 63 (unsigned 63 a) = a := by
      rw [signed_emod]
      exact signed_of_bounds (by decide) hi.1 hi.2
    exact congrArg (unsigned 64) h63.symm

theorem unsigned_untagged (isSigned : Bool) (n : ℤ) :
    unsigned 63 (untagged isSigned n) = unsigned 63 n := by
  cases isSigned with
  | false => rfl
  | true => exact (unsigned_unsigned (by decide) _).trans (unsigned_signed le_rfl n)

/-- **An operand of a division.** -/
theorem Operand.divOperand (h : Operand M exps env w isSigned v n) :
    ∃ e, divOperand (CPStoCFG.genV exps) isSigned v = .ok e ∧
      eval I env w e = some (M.word (untagged isSigned n)) := by
  rcases h.cases with ⟨x, rfl, hx⟩ | ⟨i, s, rfl, hi, rfl⟩
  · exact ⟨_, rfl, eval_untag hx⟩
  · refine ⟨_, rfl, ?_⟩
    rw [← unsigned_of_inRange hi]
    exact eval_num i

/-! ### Pure operations -/

variable (M exps env w) in
/-- **The expression for a pure operation denotes the number with pattern `r`.** -/
def Denotes (oper : CPS.P.PureOp) (isSigned : Bool) (args : List Value) (r : ℤ) : Prop :=
  ∃ e, TaggedArith.pure (CPStoCFG.genV exps) oper isSigned 63 args = .ok e ∧
    eval I env w e = some (M.word (2 * r + 1))

theorem ok_map {m : Except Exn Exp} (h : m = .ok e) (f : Exp → Exp) :
    (m >>= fun e => .ok (f e)) = .ok (f e) := by
  rw [h]
  rfl

theorem ok_map₂ {m₁ m₂ : Except Exn Exp} {e₁ e₂ : Exp} (h₁ : m₁ = .ok e₁) (h₂ : m₂ = .ok e₂)
    {α : Type} (f : Exp → Exp → α) :
    (m₁ >>= fun e₁ => m₂ >>= fun e₂ => .ok (f e₁ e₂)) = .ok (f e₁ e₂) := by
  rw [h₁, h₂]
  rfl

theorem unsigned_tag_eq {a b : ℤ} (h : a = 2 * b + 1) : unsigned 64 a = 2 * unsigned 63 b + 1 := by
  rw [h]
  exact unsigned_tag 63 b

theorem unsigned_double_eq {a b : ℤ} (h : a = 2 * b) : unsigned 64 a = 2 * unsigned 63 b := by
  rw [h]
  exact unsigned_double 63 b

theorem bitwise_unsigned {f : Bool → Bool → Bool} {a b : ℤ} (hf : f false false = false)
    (ha : Pattern 63 a) (hb : Pattern 63 b) :
    unsigned 63 (Int.bitwise f a b) = Int.bitwise f a b := by
  rw [unsigned, (IntBitwise.bitwise_emod_ediv hf a b 63).1, Int.emod_eq_of_lt ha.1 ha.2,
    Int.emod_eq_of_lt hb.1 hb.2]
  obtain ⟨m, rfl⟩ := Int.eq_ofNat_of_zero_le ha.1
  obtain ⟨k, rfl⟩ := Int.eq_ofNat_of_zero_le hb.1
  simp [Int.bitwise, Int.natBitwise, hf]

section Binary

variable (h₁ : Operand M exps env w isSigned v₁ n₁) (h₂ : Operand M exps env w isSigned v₂ n₂)

include h₁ h₂

theorem denotes_add : Denotes M exps env w .add isSigned [v₁, v₂] (unsigned 63 (n₁ + n₂)) := by
  have hleft : execPure .add 64 [2 * n₁ + 1, 2 * n₂] = some (2 * unsigned 63 (n₁ + n₂) + 1) :=
    congrArg some (unsigned_tag_eq (by ring))
  have hright : execPure .add 64 [2 * n₁, 2 * n₂ + 1] = some (2 * unsigned 63 (n₁ + n₂) + 1) :=
    congrArg some (unsigned_tag_eq (by ring))
  obtain ⟨e₂, hc₂, he₂⟩ := h₂.genV
  rcases h₁.cases with ⟨x₁, rfl, hx₁⟩ | ⟨i₁, s₁, rfl, -, rfl⟩
  · rcases h₂.cases with ⟨x₂, rfl, hx₂⟩ | ⟨i₂, s₂, rfl, -, rfl⟩
    · exact ⟨_, rfl, M.eval_pure₂ hx₁ (eval_stripTag hx₂ h₂.pattern) hleft⟩
    · exact ⟨_, rfl, M.eval_pure₂ hx₁ (eval_num_double i₂) hleft⟩
  · exact ⟨_, ok_map hc₂ fun e => pureOp .add ity [num (i₁ + i₁), e],
      M.eval_pure₂ (eval_num_double i₁) he₂ hright⟩

theorem denotes_sub : Denotes M exps env w .sub isSigned [v₁, v₂] (unsigned 63 (n₁ - n₂)) := by
  obtain ⟨e₂, hc₂, he₂⟩ := h₂.genV
  rcases h₁.cases with ⟨x₁, rfl, hx₁⟩ | ⟨i₁, s₁, rfl, -, rfl⟩
  · rcases h₂.cases with ⟨x₂, rfl, hx₂⟩ | ⟨i₂, s₂, rfl, -, rfl⟩
    · have hdouble : execPure .sub 64 [2 * n₁ + 1, 2 * n₂ + 1] =
          some (2 * unsigned 63 (n₁ - n₂)) :=
        congrArg some (unsigned_double_eq (by ring))
      exact ⟨_, rfl, eval_addTag (M.eval_pure₂ hx₁ hx₂ hdouble) (pattern_unsigned 63 _)⟩
    · exact ⟨_, rfl, M.eval_pure₂ hx₁ (eval_num_double i₂)
        (congrArg some (unsigned_tag_eq (by ring)))⟩
  · -- the constant has been narrowed to a machine word, which keeps its pattern
    have hconst : eval I env w (num (ConstArith.uNarrow ity (i₁ + i₁ + 2))) =
        some (M.word (2 * unsigned 63 (i₁ + 1))) := by
      have hnarrow : ConstArith.uNarrow ity (i₁ + i₁ + 2) = unsigned 64 (2 * (i₁ + 1)) := by
        refine (IntBitwise.land_two_pow_sub_one _ 64).trans ?_
        rw [show i₁ + i₁ + 2 = 2 * (i₁ + 1) by ring]
        rfl
      rw [hnarrow, eval_num (M := M), unsigned_unsigned le_rfl]
      exact congrArg (fun p => some (M.word p)) (unsigned_double 63 _)
    have hsub : execPure .sub 64 [2 * unsigned 63 (i₁ + 1), 2 * n₂ + 1] =
        some (2 * unsigned 63 (unsigned 63 i₁ - n₂) + 1) := by
      refine congrArg some ?_
      simp only [unsigned]
      omega
    exact ⟨_, ok_map hc₂ fun e => pureOp .sub ity [num (ConstArith.uNarrow ity (i₁ + i₁ + 2)), e],
      M.eval_pure₂ hconst he₂ hsub⟩

theorem denotes_mul : Denotes M exps env w .mul isSigned [v₁, v₂] (unsigned 63 (n₁ * n₂)) := by
  -- one factor is doubled, and the other one matters up to its low bits
  have hleft : ∀ b, unsigned 63 b = unsigned 63 n₂ →
      execPure .mul 64 [2 * n₁, b] = some (2 * unsigned 63 (n₁ * n₂)) := by
    intro b hb
    refine congrArg some ((unsigned_double_eq (mul_assoc 2 n₁ b)).trans ?_)
    rw [unsigned, unsigned, Int.mul_emod, show b % 2 ^ 63 = n₂ % 2 ^ 63 from hb, ← Int.mul_emod]
  have hright : ∀ a, unsigned 63 a = unsigned 63 n₁ →
      execPure .mul 64 [a, 2 * n₂] = some (2 * unsigned 63 (n₁ * n₂)) := by
    intro a ha
    refine congrArg some ((unsigned_double_eq (mul_left_comm a 2 n₂)).trans ?_)
    rw [unsigned, unsigned, Int.mul_emod, show a % 2 ^ 63 = n₁ % 2 ^ 63 from ha, ← Int.mul_emod]
  rcases h₁.cases with ⟨x₁, rfl, hx₁⟩ | ⟨i₁, s₁, rfl, -, rfl⟩
  · rcases h₂.cases with ⟨x₂, rfl, hx₂⟩ | ⟨i₂, s₂, rfl, -, rfl⟩
    · exact ⟨_, rfl, eval_addTag (M.eval_pure₂ (eval_stripTag hx₁ h₁.pattern) (eval_untag hx₂)
        (hleft _ (unsigned_untagged isSigned n₂))) (pattern_unsigned 63 _)⟩
    · exact ⟨_, rfl, eval_addTag (M.eval_pure₂ (eval_untag hx₁) (eval_num_double i₂)
        (hright _ (unsigned_untagged isSigned n₁))) (pattern_unsigned 63 _)⟩
  · rcases h₂.cases with ⟨x₂, rfl, hx₂⟩ | ⟨i₂, s₂, rfl, -, rfl⟩
    · exact ⟨_, rfl, eval_addTag (M.eval_pure₂ (eval_num_double i₁) (eval_untag hx₂)
        (hleft _ (unsigned_untagged isSigned n₂))) (pattern_unsigned 63 _)⟩
    · have hlow : unsigned 63 (unsigned 64 i₂) = unsigned 63 (unsigned 63 i₂) := by
        rw [unsigned_unsigned (by decide), unsigned_unsigned le_rfl]
      exact ⟨_, rfl, eval_addTag (M.eval_pure₂ (eval_num_double i₁) (eval_num i₂)
        (hleft _ hlow)) (pattern_unsigned 63 _)⟩

theorem denotes_orb :
    Denotes M exps env w .orb isSigned [v₁, v₂] (unsigned 63 (Int.lor n₁ n₂)) := by
  obtain ⟨e₁, hc₁, he₁⟩ := h₁.genV
  obtain ⟨e₂, hc₂, he₂⟩ := h₂.genV
  refine ⟨_, ok_map₂ hc₁ hc₂ fun e₁ e₂ => pureOp .orb ity [e₁, e₂], M.eval_pure₂ he₁ he₂ ?_⟩
  have hpat : unsigned 63 (Int.lor n₁ n₂) = Int.lor n₁ n₂ := by
    rw [← Int.bitwise_or]
    exact bitwise_unsigned rfl h₁.pattern h₂.pattern
  rw [hpat]
  exact congrArg some (lor_tag n₁ n₂)

theorem denotes_andb :
    Denotes M exps env w .andb isSigned [v₁, v₂] (unsigned 63 (Int.land n₁ n₂)) := by
  obtain ⟨e₁, hc₁, he₁⟩ := h₁.genV
  obtain ⟨e₂, hc₂, he₂⟩ := h₂.genV
  refine ⟨_, ok_map₂ hc₁ hc₂ fun e₁ e₂ => pureOp .andb ity [e₁, e₂], M.eval_pure₂ he₁ he₂ ?_⟩
  have hpat : unsigned 63 (Int.land n₁ n₂) = Int.land n₁ n₂ := by
    rw [← Int.bitwise_and]
    exact bitwise_unsigned rfl h₁.pattern h₂.pattern
  rw [hpat]
  exact congrArg some (land_tag n₁ n₂)

theorem denotes_xorb :
    Denotes M exps env w .xorb isSigned [v₁, v₂] (unsigned 63 (Int.xor n₁ n₂)) := by
  have hpat : unsigned 63 (Int.xor n₁ n₂) = Int.xor n₁ n₂ := by
    rw [← Int.bitwise_xor]
    exact bitwise_unsigned rfl h₁.pattern h₂.pattern
  obtain ⟨e₂, hc₂, he₂⟩ := h₂.genV
  rw [hpat]
  rcases h₁.cases with ⟨x₁, rfl, hx₁⟩ | ⟨i₁, s₁, rfl, -, rfl⟩
  · rcases h₂.cases with ⟨x₂, rfl, hx₂⟩ | ⟨i₂, s₂, rfl, -, rfl⟩
    · have hxor : Pattern 63 (Int.xor n₁ n₂) := hpat ▸ pattern_unsigned 63 _
      exact ⟨_, rfl, eval_addTag (M.eval_pure₂ hx₁ hx₂ (congrArg some (xor_tag n₁ n₂))) hxor⟩
    · exact ⟨_, rfl, M.eval_pure₂ hx₁ (eval_num_double i₂) (congrArg some (xor_tag_double _ _))⟩
  · exact ⟨_, ok_map hc₂ fun e => pureOp .xorb ity [num (i₁ + i₁), e],
      M.eval_pure₂ (eval_num_double i₁) he₂ (congrArg some (xor_double_tag _ _))⟩

end Binary

theorem denotes_neg (h : Operand M exps env w isSigned v n) :
    Denotes M exps env w .neg isSigned [v] (unsigned 63 (-n)) := by
  obtain ⟨e, hc, he⟩ := h.genV
  refine ⟨_, ok_map hc fun e => pureOp .sub ity [two, e], M.eval_pure₂ (eval_num 2) he ?_⟩
  exact congrArg some (unsigned_tag_eq (show 2 - (2 * n + 1) = 2 * -n + 1 by ring))

theorem denotes_notb (h : Operand M exps env w isSigned v n) :
    Denotes M exps env w .notb isSigned [v] (Int.xor n (2 ^ 63 - 1)) := by
  obtain ⟨e, hc, he⟩ := h.genV
  refine ⟨_, ok_map hc fun e => pureOp .xorb ity [e, num (2 ^ (63 + 1) - 2)],
    M.eval_pure₂ he (eval_num _) ?_⟩
  exact congrArg some (xor_tag_double n (2 ^ 63 - 1))

theorem pattern_count {c : ℕ} (h : c ≤ 63) : Pattern 63 (c : ℤ) :=
  ⟨Int.natCast_nonneg c, lt_of_le_of_lt (Int.ofNat_le.2 h) (by decide)⟩

/-! ### Shifts -/

section Shift

variable {k : ℤ} (h₁ : Operand M exps env w isSigned v₁ n₁) (h₂ : Operand M exps env w false v₂ k)
  (hk : k < 64)

include h₁ h₂ in
theorem ok_shift_right (oper : CPS.P.PureOp) (rator : Prim.PureOp)
    (hop : oper = .rshift ∧ rator = .ashr ∨ oper = .rshiftl ∧ rator = .lshr) (sz : ℕ) :
    ∃ e₁ e₂, TaggedArith.pure (CPStoCFG.genV exps) oper isSigned sz [v₁, v₂] =
        .ok (orTag (pureOp rator ity [e₁, e₂])) ∧
      eval I env w e₁ = some (M.word (2 * n₁ + 1)) ∧ eval I env w e₂ = some (M.word k) := by
  obtain ⟨e₁, hc₁, he₁⟩ := h₁.genV
  obtain ⟨e₂, hc₂, he₂⟩ := h₂.divOperand
  refine ⟨e₁, e₂, ?_, he₁, he₂⟩
  rcases h₂.cases with ⟨x₂, rfl, -⟩ | ⟨i₂, s₂, rfl, -, -⟩
  · cases hc₂
    rcases hop with ⟨rfl, rfl⟩ | ⟨rfl, rfl⟩
    · exact ok_map hc₁ fun e => orTag (pureOp .ashr ity [e, untagUInt (binding exps x₂)])
    · exact ok_map hc₁ fun e => orTag (pureOp .lshr ity [e, untagUInt (binding exps x₂)])
  · cases hc₂
    rcases hop with ⟨rfl, rfl⟩ | ⟨rfl, rfl⟩
    · exact ok_map hc₁ fun e => orTag (pureOp .ashr ity [e, num i₂])
    · exact ok_map hc₁ fun e => orTag (pureOp .lshr ity [e, num i₂])

include h₁ h₂ in
theorem ok_shift_left (sz : ℕ) :
    ∃ e₁ e₂, TaggedArith.pure (CPStoCFG.genV exps) .lshift isSigned sz [v₁, v₂] =
        .ok (addTag (pureOp .shl ity [e₁, e₂])) ∧
      eval I env w e₁ = some (M.word (2 * n₁)) ∧ eval I env w e₂ = some (M.word k) := by
  obtain ⟨e₁, hc₁, he₁⟩ := h₁.genV
  rcases h₂.cases with ⟨x₂, rfl, hx₂⟩ | ⟨i₂, s₂, rfl, hi₂, rfl⟩
  · rcases h₁.cases with ⟨x₁, rfl, hx₁⟩ | ⟨i₁, s₁, rfl, -, rfl⟩
    · exact ⟨_, _, rfl, eval_stripTag hx₁ h₁.pattern, eval_untagUInt hx₂⟩
    · exact ⟨_, _, rfl, eval_num_double i₁, eval_untagUInt hx₂⟩
  · have hamount : eval I env w (num i₂) = some (M.word (unsigned 63 i₂)) := by
      rw [eval_num (M := M), unsigned_of_inRange hi₂]
      rfl
    exact ⟨_, _, ok_map hc₁ fun e => addTag (pureOp .shl ity [stripTag e, num i₂]),
      eval_stripTag he₁ h₁.pattern, hamount⟩

theorem half_shift (s : ℤ) (m : ℕ) : (2 * s + 1) / 2 ^ m / 2 = s / 2 ^ m := by
  have hhalf : (2 * s + 1) / 2 = s := by omega
  rw [Int.ediv_ediv_of_nonneg (by positivity), mul_comm (2 ^ m : ℤ),
    ← Int.ediv_ediv_of_nonneg (by norm_num), hhalf]

include h₁ h₂ hk

theorem denotes_rshiftl :
    Denotes M exps env w .rshiftl isSigned [v₁, v₂] (n₁ / 2 ^ k.toNat) := by
  obtain ⟨e₁, e₂, hc, he₁, he₂⟩ := ok_shift_right h₁ h₂ .rshiftl .lshr (.inr ⟨rfl, rfl⟩) 63
  have hlshr : execPure .lshr 64 [2 * n₁ + 1, k] = some ((2 * n₁ + 1) / 2 ^ k.toNat) := if_pos hk
  have hshift := M.eval_pure₂ he₁ he₂ hlshr
  refine ⟨_, hc, ?_⟩
  exact half_shift n₁ k.toNat ▸ eval_orTag hshift

theorem denotes_rshift :
    Denotes M exps env w .rshift isSigned [v₁, v₂]
      (unsigned 63 (signed 63 n₁ / 2 ^ k.toNat)) := by
  obtain ⟨e₁, e₂, hc, he₁, he₂⟩ := ok_shift_right h₁ h₂ .rshift .ashr (.inl ⟨rfl, rfl⟩) 63
  have hashr : execPure .ashr 64 [2 * n₁ + 1, k] =
      some (unsigned 64 (signed 64 (2 * n₁ + 1) / 2 ^ k.toNat)) := if_pos hk
  have hshift := M.eval_pure₂ he₁ he₂ hashr
  refine ⟨_, hc, ?_⟩
  have htag : signed 64 (2 * n₁ + 1) = 2 * signed 63 n₁ + 1 := signed_tag (by decide) n₁
  -- the bit that is shifted into the place of the tag does not matter
  have hhalf : unsigned 64 (signed 64 (2 * n₁ + 1) / 2 ^ k.toNat) / 2 =
      unsigned 63 (signed 63 n₁ / 2 ^ k.toNat) := by
    have hdiv : signed 64 (2 * n₁ + 1) / 2 ^ k.toNat / 2 = signed 63 n₁ / 2 ^ k.toNat := by
      rw [htag, half_shift]
    simp only [unsigned]
    omega
  exact hhalf ▸ eval_orTag hshift

theorem denotes_lshift :
    Denotes M exps env w .lshift isSigned [v₁, v₂] (unsigned 63 (n₁ * 2 ^ k.toNat)) := by
  have hshl : execPure .shl 64 [2 * n₁, k] = some (2 * unsigned 63 (n₁ * 2 ^ k.toNat)) := by
    rw [execPure_shl, if_pos (by exact hk)]
    exact congrArg some (unsigned_double_eq (mul_assoc 2 n₁ _))
  obtain ⟨e₁, e₂, hc, he₁, he₂⟩ := ok_shift_left h₁ h₂ 63
  exact ⟨_, hc, eval_addTag (M.eval_pure₂ he₁ he₂ hshl) (pattern_unsigned 63 _)⟩

end Shift

theorem denotes_cntpop (h : Operand M exps env w isSigned v n) :
    Denotes M exps env w .cntpop isSigned [v] (BitCount.popCount 63 n.toNat) := by
  obtain ⟨e, hc, he⟩ := h.genV
  have hn : n.toNat < 2 ^ 63 := by
    have hpat := h.pattern
    have := hpat.2
    omega
  have hcount : eval I env w (pureOp .cntpop ity [untagUInt e]) =
      some (M.word (BitCount.popCount 64 n.toNat)) := M.eval_pure₁ (eval_untagUInt he) rfl
  rw [BitCount.popCount_succ hn] at hcount
  refine ⟨_, ok_map hc fun e => tag (pureOp .cntpop ity [untagUInt e]), ?_⟩
  have htag := eval_tag hcount
  rwa [unsigned_of_pattern (pattern_count (BitCount.popCount_le 63 _))] at htag

theorem denotes_cntlz (h : Operand M exps env w isSigned v n) :
    Denotes M exps env w .cntlz isSigned [v] (BitCount.leadingZeros 63 n.toNat) := by
  obtain ⟨e, hc, he⟩ := h.genV
  have hn : (2 * n + 1).toNat = 2 * n.toNat + 1 := by
    have hpat := h.pattern
    have := hpat.1
    omega
  have hcount : eval I env w (pureOp .cntlz ity [e]) =
      some (M.word (BitCount.leadingZeros 64 (2 * n + 1).toNat)) := M.eval_pure₁ he rfl
  rw [hn, BitCount.leadingZeros_bit] at hcount
  refine ⟨_, ok_map hc fun e => tag (pureOp .cntlz ity [e]), ?_⟩
  have htag := eval_tag hcount
  rwa [unsigned_of_pattern (pattern_count (BitCount.leadingZeros_le 63 _))] at htag

theorem denotes_cnttz (h : Operand M exps env w isSigned v n) :
    Denotes M exps env w .cnttz isSigned [v] (BitCount.trailingZeros 63 n.toNat) := by
  obtain ⟨e, hc, he⟩ := h.genV
  have hpat := h.pattern
  -- the tag is rotated to the top
  have hrot : Rotation.rotate 64 (64 - (1 : ℤ).toNat % 64) (2 * n + 1) = n + 2 ^ 63 := by
    have hmod : (64 - (1 : ℤ).toNat % 64 : ℕ) = 63 := rfl
    rw [hmod, Rotation.rotate]
    omega
  have hrotated : eval I env w (pureOp .rotr ity [e, one]) = some (M.word (n + 2 ^ 63)) := by
    rw [← hrot]
    exact M.eval_pure₂ he eval_one rfl
  have hn : (n + 2 ^ 63).toNat = n.toNat + 2 ^ 63 := by
    have := hpat.1
    omega
  have hlt : n.toNat < 2 ^ 63 := by
    have := hpat.2
    omega
  have hcount : eval I env w (pureOp .cnttz ity [pureOp .rotr ity [e, one]]) =
      some (M.word (BitCount.trailingZeros 64 (n + 2 ^ 63).toNat)) := M.eval_pure₁ hrotated rfl
  rw [hn, BitCount.trailingZeros_add_two_pow hlt] at hcount
  refine ⟨_, ok_map hc fun e => tag (pureOp .cnttz ity [pureOp .rotr ity [e, one]]), ?_⟩
  have htag := eval_tag hcount
  rwa [unsigned_of_pattern (pattern_count (BitCount.trailingZeros_le 63 _))] at htag

theorem untagged_ne_zero (hn : Pattern 63 n) (h0 : n ≠ 0) : untagged isSigned n ≠ 0 := by
  intro h
  have hlow := unsigned_untagged isSigned n
  rw [h, unsigned_of_pattern hn] at hlow
  exact h0 hlow.symm

theorem denotes_quot (h₁ : Operand M exps env w isSigned v₁ n₁)
    (h₂ : Operand M exps env w isSigned v₂ n₂) (h0 : n₂ ≠ 0) :
    Denotes M exps env w .quot isSigned [v₁, v₂]
      (unsigned 63 (untagged isSigned n₁ / untagged isSigned n₂)) := by
  obtain ⟨e₁, hc₁, he₁⟩ := h₁.divOperand
  obtain ⟨e₂, hc₂, he₂⟩ := h₂.divOperand
  have hdiv : execPure .udiv 64 [untagged isSigned n₁, untagged isSigned n₂] =
      some (untagged isSigned n₁ / untagged isSigned n₂) :=
    if_neg (untagged_ne_zero h₂.pattern h0)
  exact ⟨_, ok_map₂ hc₁ hc₂ fun e₁ e₂ => tag (pureOp .udiv ity [e₁, e₂]),
    eval_tag (M.eval_pure₂ he₁ he₂ hdiv)⟩

theorem denotes_rem (h₁ : Operand M exps env w isSigned v₁ n₁)
    (h₂ : Operand M exps env w isSigned v₂ n₂) (h0 : n₂ ≠ 0) :
    Denotes M exps env w .rem isSigned [v₁, v₂]
      (unsigned 63 (untagged isSigned n₁ % untagged isSigned n₂)) := by
  obtain ⟨e₁, hc₁, he₁⟩ := h₁.divOperand
  obtain ⟨e₂, hc₂, he₂⟩ := h₂.divOperand
  have hrem : execPure .urem 64 [untagged isSigned n₁, untagged isSigned n₂] =
      some (untagged isSigned n₁ % untagged isSigned n₂) :=
    if_neg (untagged_ne_zero h₂.pattern h0)
  exact ⟨_, ok_map₂ hc₁ hc₂ fun e₁ e₂ => tag (pureOp .urem ity [e₁, e₂]),
    eval_tag (M.eval_pure₂ he₁ he₂ hrem)⟩

theorem Denotes.unique {oper : CPS.P.PureOp} {args : List Value} {r s : ℤ}
    (hr : Denotes M exps env w oper isSigned args r)
    (hs : Denotes M exps env w oper isSigned args s)
    (hpr : Pattern 63 r) (hps : Pattern 63 s) : r = s := by
  obtain ⟨e, hc, he⟩ := hr
  obtain ⟨e', hc', he'⟩ := hs
  rw [hc] at hc'
  cases hc'
  have h := M.injective hpr.tag hps.tag (Option.some.inj (he.symm.trans he'))
  omega

end

/-! ### Dividing signed numbers as words -/

/-- **The signed numbers whose division as 64-bit words is right**: neither is negative, or the
result happens to be the same. -/
@[grind =] def DividesAsWords : CPS.P.PureOp → ℤ → ℤ → Prop
  | .quot, a, b =>
    0 ≤ a ∧ 0 ≤ b ∨ a < 0 ∧ (b = 1 ∨ b = 2 ∧ 2 ∣ a) ∨ 0 ≤ a ∧ b < 0 ∧ a < -b ∨ a < 0 ∧ a = b
  | .rem, a, b =>
    0 ≤ a ∧ 0 ≤ b ∨ a < 0 ∧ 0 < b ∧ b ∣ a ∧ b ∣ 2 ^ 64 ∨ 0 ≤ a ∧ b < 0 ∧ a < -b ∨ a < 0 ∧ a = b
  | _, _, _ => True

section Divide

variable {a b : ℤ}

theorem unsigned_eq (ha : -2 ^ 62 ≤ a) (ha' : a < 2 ^ 62) :
    unsigned 64 a = if 0 ≤ a then a else 2 ^ 64 + a := by
  simp only [unsigned]
  split <;> omega

theorem unsigned_eq_iff (x y : ℤ) : unsigned 63 x = unsigned 63 y ↔ (2 ^ 63 : ℤ) ∣ x - y := by
  simp only [unsigned]
  omega

theorem quot_neg_pos (ha : -2 ^ 62 ≤ a) (ha' : a < 0) (hb : 0 < b) (hb' : b < 2 ^ 62) :
    unsigned 63 ((2 ^ 64 + a) / b) = unsigned 63 (a.tdiv b) ↔ b = 1 ∨ b = 2 ∧ 2 ∣ a := by
  have htdiv : a.tdiv b = -(-a / b) := by
    rw [← Int.tdiv_eq_ediv_of_nonneg (by omega), Int.neg_tdiv, neg_neg]
  rw [unsigned_eq_iff]
  -- the two quotients add up to about the number of words divided by `b`
  have hq := Int.ediv_mul_le (2 ^ 64 + a) hb.ne'
  have hq' := Int.lt_ediv_add_one_mul_self (2 ^ 64 + a) hb
  have ht := Int.ediv_mul_le (-a) hb.ne'
  have ht' := Int.lt_ediv_add_one_mul_self (-a) hb
  generalize (2 ^ 64 + a) / b = q at *
  generalize -a / b = t at *
  rcases lt_trichotomy b 2 with hlt | rfl | hgt
  · obtain rfl : b = 1 := by omega
    omega
  · omega
  · -- the sum is positive, and less than the divisor
    have hupper : (q + t) * 3 ≤ 2 ^ 64 := by nlinarith
    have hlower : 0 < q + t := by
      nlinarith
    omega

theorem quot_pos_neg (ha : 0 ≤ a) (ha' : a < 2 ^ 62) (hb : -2 ^ 62 ≤ b) (hb' : b < 0) :
    unsigned 63 (a / (2 ^ 64 + b)) = unsigned 63 (a.tdiv b) ↔ a < -b := by
  have hzero : a / (2 ^ 64 + b) = 0 := Int.ediv_eq_zero_of_lt ha (by omega)
  have htdiv : a.tdiv b = -(a / -b) := by
    rw [← Int.tdiv_eq_ediv_of_nonneg ha, Int.tdiv_neg, neg_neg]
  have hle := Int.ediv_le_self (b := -b) ha
  have hnn := Int.ediv_nonneg ha (show 0 ≤ -b by omega)
  have hiff : a / -b = 0 ↔ a < -b := by
    rw [Int.ediv_eq_iff_of_pos (by omega)]
    omega
  rw [unsigned_eq_iff]
  omega

theorem quot_neg_neg (ha : -2 ^ 62 ≤ a) (ha' : a < 0) (hb : -2 ^ 62 ≤ b) (hb' : b < 0) :
    unsigned 63 ((2 ^ 64 + a) / (2 ^ 64 + b)) = unsigned 63 (a.tdiv b) ↔ a = b := by
  have htdiv : a.tdiv b = -a / -b := by
    rw [← Int.tdiv_eq_ediv_of_nonneg (by omega), Int.neg_tdiv, Int.tdiv_neg, neg_neg]
  have hle := Int.ediv_le_self (a := -a) (-b) (by omega)
  rw [htdiv, unsigned_eq_iff]
  rcases lt_trichotomy a b with hlt | rfl | hgt
  · -- the word of `a` is less than that of `b`
    have hq : (2 ^ 64 + a) / (2 ^ 64 + b) = 0 := Int.ediv_eq_zero_of_lt (by omega) (by omega)
    have ht : 1 ≤ -a / -b := Int.le_ediv_of_mul_le (by omega) (by omega)
    omega
  · rw [Int.ediv_self (by omega), Int.ediv_self (by omega)]
    simp
  · have hq : (2 ^ 64 + a) / (2 ^ 64 + b) = 1 := by
      rw [Int.ediv_eq_iff_of_pos (by omega)]
      omega
    have ht : -a / -b = 0 := Int.ediv_eq_zero_of_lt (by omega) (by omega)
    omega

theorem rem_neg_pos (ha' : a < 0) (hb : 0 < b) (hb' : b < 2 ^ 62) :
    unsigned 63 ((2 ^ 64 + a) % b) = unsigned 63 (a.tmod b) ↔ b ∣ a ∧ b ∣ 2 ^ 64 := by
  have htmod : a.tmod b = -(-a % b) := by
    rw [← Int.tmod_eq_emod_of_nonneg (by omega), Int.neg_tmod, neg_neg]
  have hx := Int.emod_nonneg (2 ^ 64 + a) hb.ne'
  have hx' := Int.emod_lt_of_pos (2 ^ 64 + a) hb
  have hy := Int.emod_nonneg (-a) hb.ne'
  have hy' := Int.emod_lt_of_pos (-a) hb
  rw [htmod, unsigned_eq_iff, sub_neg_eq_add]
  calc (2 ^ 63 : ℤ) ∣ (2 ^ 64 + a) % b + -a % b
      ↔ (2 ^ 64 + a) % b = 0 ∧ -a % b = 0 := by omega
    _ ↔ b ∣ 2 ^ 64 + a ∧ b ∣ a := by
        rw [← Int.dvd_iff_emod_eq_zero, ← Int.dvd_iff_emod_eq_zero, Int.dvd_neg]
    _ ↔ b ∣ a ∧ b ∣ 2 ^ 64 := by
        rw [and_comm]
        exact and_congr_right fun h => (dvd_add_left h)

theorem rem_pos_neg (ha : 0 ≤ a) (ha' : a < 2 ^ 62) (hb : -2 ^ 62 ≤ b) (hb' : b < 0) :
    unsigned 63 (a % (2 ^ 64 + b)) = unsigned 63 (a.tmod b) ↔ a < -b := by
  have hself : a % (2 ^ 64 + b) = a := Int.emod_eq_of_lt ha (by omega)
  have htmod : a.tmod b = a % -b := by
    rw [← Int.tmod_eq_emod_of_nonneg ha, Int.tmod_neg]
  have hy := Int.emod_nonneg a (show -b ≠ 0 by omega)
  have hy' := Int.emod_lt_of_pos a (show 0 < -b by omega)
  have hiff : a % -b = a ↔ a < -b := by
    constructor
    · intro h
      omega
    · exact Int.emod_eq_of_lt ha
  rw [unsigned_eq_iff]
  omega

theorem rem_neg_neg (ha : -2 ^ 62 ≤ a) (ha' : a < 0) (hb : -2 ^ 62 ≤ b) (hb' : b < 0) :
    unsigned 63 ((2 ^ 64 + a) % (2 ^ 64 + b)) = unsigned 63 (a.tmod b) ↔ a = b := by
  have htmod : a.tmod b = -(-a % -b) := by
    rw [← Int.tmod_eq_emod_of_nonneg (by omega), Int.neg_tmod, Int.tmod_neg, neg_neg]
  have hy := Int.emod_nonneg (-a) (show -b ≠ 0 by omega)
  have hy' := Int.emod_lt_of_pos (-a) (show 0 < -b by omega)
  rw [unsigned_eq_iff]
  rcases lt_trichotomy a b with hlt | rfl | hgt
  · have hx : (2 ^ 64 + a) % (2 ^ 64 + b) = 2 ^ 64 + a := Int.emod_eq_of_lt (by omega) (by omega)
    omega
  · rw [Int.emod_self]
    simp
  · have hx : (2 ^ 64 + a) % (2 ^ 64 + b) = a - b := by
      rw [← Int.sub_emod_right, Int.emod_eq_of_lt (by omega) (by omega)]
      ring
    omega

/-- **The quotient of the words of signed numbers is their quotient exactly if they divide as
words.** -/
theorem quot_eq_iff (ha : InRange true a) (hb : InRange true b) (h0 : b ≠ 0) :
    unsigned 63 (unsigned 64 a / unsigned 64 b) = unsigned 63 (a.tdiv b) ↔
      DividesAsWords .quot a b := by
  obtain ⟨hla, hua⟩ := ha
  obtain ⟨hlb, hub⟩ := hb
  rw [unsigned_eq hla hua, unsigned_eq hlb hub, DividesAsWords]
  rcases lt_or_ge a 0 with hneg | hnn <;> rcases lt_or_ge b 0 with hbneg | hbnn
  · rw [if_neg (by omega), if_neg (by omega), quot_neg_neg hla hneg hlb hbneg]
    omega
  · rw [if_neg (by omega), if_pos hbnn, quot_neg_pos hla hneg (by omega) hub]
    omega
  · rw [if_pos hnn, if_neg (by omega), quot_pos_neg hnn hua hlb hbneg]
    omega
  · rw [Int.tdiv_eq_ediv_of_nonneg hnn]
    simp [hnn, hbnn]

theorem rem_eq_iff (ha : InRange true a) (hb : InRange true b) (h0 : b ≠ 0) :
    unsigned 63 (unsigned 64 a % unsigned 64 b) = unsigned 63 (a.tmod b) ↔
      DividesAsWords .rem a b := by
  obtain ⟨hla, hua⟩ := ha
  obtain ⟨hlb, hub⟩ := hb
  rw [unsigned_eq hla hua, unsigned_eq hlb hub, DividesAsWords]
  rcases lt_or_ge a 0 with hneg | hnn <;> rcases lt_or_ge b 0 with hbneg | hbnn
  · rw [if_neg (by omega), if_neg (by omega), rem_neg_neg hla hneg hlb hbneg]
    omega
  · rw [if_neg (by omega), if_pos hbnn, rem_neg_pos hneg (by omega) hub]
    constructor
    · exact fun h => .inr (.inl ⟨hneg, by omega, h⟩)
    · rintro (h | h | h | h)
      · omega
      · exact h.2.2
      · omega
      · omega
  · rw [if_pos hnn, if_neg (by omega), rem_pos_neg hnn hua hlb hbneg]
    omega
  · rw [Int.tmod_eq_emod_of_nonneg hnn]
    simp [hnn, hbnn]

end Divide

section Correct

variable {V W : Type} {I : Interp V W} {M : Words I} {exps : Lvar → Option Exp} {env : Env V}
  {w : W} {isSigned : Bool} {args : List Value} {ns : List ℤ}

/-! ### All pure operations -/

def isShift : CPS.P.PureOp → Bool
  | .lshift | .rshift | .rshiftl => true
  | _ => false

variable (M exps env w) in
/-- The operands of an operation. -/
inductive Operands (oper : CPS.P.PureOp) (isSigned : Bool) : List Value → List ℤ → Prop
  | unary {v : Value} {n : ℤ} : Operand M exps env w isSigned v n → Operands oper isSigned [v] [n]
  | binary {v₁ v₂ : Value} {n₁ n₂ : ℤ} : Operand M exps env w isSigned v₁ n₁ →
      Operand M exps env w (isSigned && !isShift oper) v₂ n₂ →
      Operands oper isSigned [v₁, v₂] [n₁, n₂]

def DivisionRight (oper : CPS.P.PureOp) (isSigned : Bool) (ns : List ℤ) : Prop :=
  isSigned = true → ∀ a b, ns = [a, b] → DividesAsWords oper (signed 63 a) (signed 63 b)

/-- **The translation of every operation but a division is right.** -/
theorem denotes_of_ne_division {oper : CPS.P.PureOp} {r : ℤ} (hq : oper ≠ .quot)
    (hrem : oper ≠ .rem) (hops : Operands M exps env w oper isSigned args ns)
    (hr : execTagged oper isSigned 63 ns = some r) : Denotes M exps env w oper isSigned args r := by
  cases hops with
  | unary h =>
    cases oper with
    | quot => exact absurd rfl hq
    | rem => exact absurd rfl hrem
    | neg =>
      cases hr
      exact denotes_neg h
    | notb =>
      cases hr
      exact denotes_notb h
    | cntpop =>
      cases hr
      exact denotes_cntpop h
    | cntlz =>
      cases hr
      exact denotes_cntlz h
    | cnttz =>
      cases hr
      exact denotes_cnttz h
    | _ => cases hr
  | binary h₁ h₂ =>
    cases oper with
    | quot => exact absurd rfl hq
    | rem => exact absurd rfl hrem
    | add =>
      cases hr
      exact denotes_add h₁ (Bool.and_true isSigned ▸ h₂)
    | sub =>
      cases hr
      exact denotes_sub h₁ (Bool.and_true isSigned ▸ h₂)
    | mul =>
      cases hr
      exact denotes_mul h₁ (Bool.and_true isSigned ▸ h₂)
    | lshift =>
      obtain ⟨hk, hr⟩ := Option.ite_none_right_eq_some.1 hr
      cases hr
      exact denotes_lshift h₁ (Bool.and_false isSigned ▸ h₂) hk
    | rshift =>
      obtain ⟨hk, hr⟩ := Option.ite_none_right_eq_some.1 hr
      cases hr
      exact denotes_rshift h₁ (Bool.and_false isSigned ▸ h₂) hk
    | rshiftl =>
      obtain ⟨hk, hr⟩ := Option.ite_none_right_eq_some.1 hr
      cases hr
      exact denotes_rshiftl h₁ (Bool.and_false isSigned ▸ h₂) hk
    | orb =>
      cases hr
      exact denotes_orb h₁ (Bool.and_true isSigned ▸ h₂)
    | xorb =>
      cases hr
      exact denotes_xorb h₁ (Bool.and_true isSigned ▸ h₂)
    | andb =>
      cases hr
      exact denotes_andb h₁ (Bool.and_true isSigned ▸ h₂)
    | _ => cases hr

theorem Denotes.iff_eq {oper : CPS.P.PureOp} {r s : ℤ}
    (hs : Denotes M exps env w oper isSigned args s) (hpr : Pattern 63 r) (hps : Pattern 63 s) :
    Denotes M exps env w oper isSigned args r ↔ s = r := by
  constructor
  · exact fun hr => hs.unique hr hps hpr
  · rintro rfl
    exact hs

theorem signed_ne_zero {n : ℤ} (hn : Pattern 63 n) (h0 : n ≠ 0) : signed 63 n ≠ 0 := by
  intro h
  have hu : unsigned 63 (signed 63 n) = n := by
    rw [unsigned_signed le_rfl, unsigned_of_pattern hn]
  rw [h] at hu
  exact h0 hu.symm

theorem pattern_ediv {a b : ℤ} (ha : Pattern 63 a) (hb : Pattern 63 b) : Pattern 63 (a / b) :=
  ⟨Int.ediv_nonneg ha.1 hb.1, lt_of_le_of_lt (Int.ediv_le_self b ha.1) ha.2⟩

theorem pattern_emod {a b : ℤ} (hb : Pattern 63 b) (h0 : b ≠ 0) : Pattern 63 (a % b) := by
  have hpos : 0 < b := lt_of_le_of_ne hb.1 h0.symm
  exact ⟨Int.emod_nonneg a h0, lt_trans (Int.emod_lt_of_pos a hpos) hb.2⟩

/-- **The translation of a division is right** for words, and for signed numbers that divide as
words. -/
theorem denotes_division_iff {oper : CPS.P.PureOp} {v₁ v₂ : Value} {n₁ n₂ r : ℤ}
    (hop : oper = .quot ∨ oper = .rem) (h₁ : Operand M exps env w isSigned v₁ n₁)
    (h₂ : Operand M exps env w isSigned v₂ n₂)
    (hr : execTagged oper isSigned 63 [n₁, n₂] = some r) :
    Denotes M exps env w oper isSigned [v₁, v₂] r ↔
      (isSigned = true → DividesAsWords oper (signed 63 n₁) (signed 63 n₂)) := by
  have hin : ∀ n, InRange true (signed 63 n) := signed_bounds (by decide)
  rcases hop with rfl | rfl
  · cases isSigned with
    | false =>
      obtain ⟨h0, hr⟩ := Option.ite_none_left_eq_some.1 hr
      cases hr
      have hpat := pattern_ediv h₁.pattern h₂.pattern
      have hq := denotes_quot h₁ h₂ h0
      rw [hq.iff_eq hpat (pattern_unsigned 63 _)]
      exact iff_of_true (unsigned_of_pattern hpat) (by simp)
    | true =>
      obtain ⟨h0, hr⟩ := Option.ite_none_left_eq_some.1 hr
      cases hr
      have hiff := quot_eq_iff (hin n₁) (hin n₂) (signed_ne_zero h₂.pattern h0)
      refine ((denotes_quot h₁ h₂ h0).iff_eq (pattern_unsigned 63 _)
        (pattern_unsigned 63 _)).trans (hiff.trans ?_)
      exact ⟨fun h _ => h, fun h => h rfl⟩
  · cases isSigned with
    | false =>
      obtain ⟨h0, hr⟩ := Option.ite_none_left_eq_some.1 hr
      cases hr
      have hpat := pattern_emod (a := n₁) h₂.pattern h0
      have hq := denotes_rem h₁ h₂ h0
      rw [hq.iff_eq hpat (pattern_unsigned 63 _)]
      exact iff_of_true (unsigned_of_pattern hpat) (by simp)
    | true =>
      obtain ⟨h0, hr⟩ := Option.ite_none_left_eq_some.1 hr
      cases hr
      have hiff := rem_eq_iff (hin n₁) (hin n₂) (signed_ne_zero h₂.pattern h0)
      refine ((denotes_rem h₁ h₂ h0).iff_eq (pattern_unsigned 63 _)
        (pattern_unsigned 63 _)).trans (hiff.trans ?_)
      exact ⟨fun h _ => h, fun h => h rfl⟩

/-- **The translation of a pure operation is right exactly if a signed division comes out right on
words.** -/
theorem denotes_iff {oper : CPS.P.PureOp} {r : ℤ}
    (hops : Operands M exps env w oper isSigned args ns)
    (hr : execTagged oper isSigned 63 ns = some r) :
    Denotes M exps env w oper isSigned args r ↔ DivisionRight oper isSigned ns := by
  by_cases hop : oper = .quot ∨ oper = .rem
  · cases hops with
    | unary h => rcases hop with rfl | rfl <;> cases isSigned <;> cases hr
    | @binary v₁ v₂ n₁ n₂ h₁ h₂ =>
      have hshift : (isSigned && !isShift oper) = isSigned := by
        rcases hop with rfl | rfl <;> exact Bool.and_true isSigned
      rw [denotes_division_iff hop h₁ (hshift ▸ h₂) hr]
      constructor
      · rintro h hs _ _ ⟨⟩
        exact h hs
      · exact fun h hs => h hs n₁ n₂ rfl
  · obtain ⟨hq, hrem⟩ := not_or.1 hop
    refine iff_of_true (denotes_of_ne_division hq hrem hops hr) fun _ a b _ => ?_
    cases oper with
    | quot => exact absurd rfl hq
    | rem => exact absurd rfl hrem
    | _ => trivial

/-! ### Trapping operations -/

variable (M exps env w) in
/-- **The statement for a trapping operation completes**: if the result `y` is a tagged integer, it
gets to the rest of the code with an expression for it, and else it traps.  Only the variable `x`
and fresh ones are bound on the way. -/
def Completes (oper : CPS.P.ArithOp) (args : List Value) (y : ℤ) : Prop :=
  ∀ (x : Lvar) (k : Exp → Supply Stm) (m : Lvar), ∃ e m', ∀ stm m'', k e m' = .ok (stm, m'') →
    ∃ s, trapping (CPStoCFG.genV exps) oper args x k m = .ok (s, m'') ∧
      if -2 ^ 62 ≤ y ∧ y < 2 ^ 62 then
        ∃ env', (∀ z, z ≠ x → z < m → env' z = env z) ∧
          Leads I ⟨env, w, s⟩ ⟨env', w, stm⟩ ∧
          eval I env' w e = some (M.word (2 * unsigned 63 y + 1))
      else Traps I ⟨env, w, s⟩

/-- A signed number that is doubled, with its tag or without, overflows the machine word exactly
if it is not a tagged integer. -/
theorem checked_double {y c : ℤ} (hc : c = 0 ∨ c = 1) :
    checked 64 (2 * y + c) =
      if -2 ^ 62 ≤ y ∧ y < 2 ^ 62 then some (unsigned 64 (2 * y + c)) else none := by
  have hiff : (-2 ^ (64 - 1) ≤ 2 * y + c ∧ 2 * y + c < 2 ^ (64 - 1)) ↔
      -2 ^ 62 ≤ y ∧ y < 2 ^ 62 := by
    omega
  exact if_congr hiff rfl rfl

variable {oper : CPS.P.ArithOp} {y : ℤ}

theorem completes_continue (oper' : Prim.Arithop) {es : List Exp} {ds : List ℤ}
    (hc : ∀ x k, trapping (CPStoCFG.genV exps) oper args x k = continue_ x k oper' es)
    (he : evals I env w es = some (ds.map M.word))
    (hd : CFG.execSigned oper' (ds.map (signed 64)) = some (2 * y + 1)) :
    Completes M exps env w oper args y := by
  intro x k m
  refine ⟨.var x, m, fun stm m'' hk => ⟨.arith (arith oper') es ⟨x, ity'⟩ stm, ?_, ?_⟩⟩
  · rw [hc]
    exact congrArg (· >>= fun p => Except.ok (Stm.arith (arith oper') es ⟨x, ity'⟩ p.1, p.2)) hk
  · have harith := M.arith oper' ds (congrArg (Option.map (checked 64)) hd)
    rw [checked_double (.inr rfl)] at harith
    split
    · next hy =>
      rw [if_pos hy] at harith
      refine ⟨_, ?_, Leads.arith he harith, ?_⟩
      · exact fun z hz _ => CPS.Env.set_of_ne env _ hz
      · rw [eval, CPS.Env.set_self]
        exact congrArg (fun p => some (M.word p)) (unsigned_tag 63 y)
    · next hy =>
      rw [if_neg hy] at harith
      exact Traps.arith he harith

theorem completes_tagResult {oper' : Prim.Arithop} {es : List Exp} {ds : List ℤ}
    (hc : ∀ x k, trapping (CPStoCFG.genV exps) oper args x k = tagResult k oper' es)
    (he : evals I env w es = some (ds.map M.word))
    (hd : CFG.execSigned oper' (ds.map (signed 64)) = some (2 * y)) :
    Completes M exps env w oper args y := by
  intro x k m
  refine ⟨addTag (.var m), m + 1, fun stm m'' hk =>
    ⟨.arith (arith oper') es ⟨m, ity'⟩ stm, ?_, ?_⟩⟩
  · rw [hc]
    exact congrArg (· >>= fun p => Except.ok (Stm.arith (arith oper') es ⟨m, ity'⟩ p.1, p.2)) hk
  · have harith := M.arith oper' ds (congrArg (Option.map (checked 64)) hd)
    rw [← add_zero (2 * y), checked_double (.inl rfl), add_zero] at harith
    split
    · next hy =>
      rw [if_pos hy] at harith
      have htmp : eval I (env.set m (M.word (2 * unsigned 63 y))) w (.var m) =
          some (M.word (2 * unsigned 63 y)) := CPS.Env.set_self env m _
      have hword : unsigned 64 (2 * y) = 2 * unsigned 63 y := unsigned_double 63 y
      rw [hword] at harith
      refine ⟨_, ?_, Leads.arith he harith, eval_addTag htmp (pattern_unsigned 63 y)⟩
      exact fun z _ hz => CPS.Env.set_of_ne env _ hz.ne
    · next hy =>
      rw [if_neg hy] at harith
      exact Traps.arith he harith

/-- A division: the quotient is a machine word, and is doubled by an addition that may trap. -/
theorem completes_divOp {rator : Prim.PureOp} {v₁ v₂ : Value} {n₁ n₂ : ℤ}
    (hc : ∀ x k, trapping (CPStoCFG.genV exps) oper args x k =
      divOp (CPStoCFG.genV exps) k rator v₁ v₂)
    (h₁ : Operand M exps env w true v₁ n₁) (h₂ : Operand M exps env w true v₂ n₂)
    (hd : execPure rator 64 [unsigned 64 (signed 63 n₁), unsigned 64 (signed 63 n₂)] =
      some (unsigned 64 y))
    (hy : -2 ^ 62 ≤ y ∧ y ≤ 2 ^ 62) : Completes M exps env w oper args y := by
  obtain ⟨e₁, hc₁, he₁⟩ := h₁.divOperand
  obtain ⟨e₂, hc₂, he₂⟩ := h₂.divOperand
  intro x k m
  refine ⟨addTag (.var (m + 1)), m + 2, fun stm m'' hk =>
    ⟨.letE (pureOp rator ity [e₁, e₂]) ⟨m, ity'⟩
      (.arith (arith .iadd) [.var m, .var m] ⟨m + 1, ity'⟩ stm), ?_, ?_⟩⟩
  · rw [hc, divOp, mkLvar_bind, mkLvar_bind, lift_bind hc₁, lift_bind hc₂]
    exact congrArg (· >>= fun p => Except.ok (Stm.letE (pureOp rator ity [e₁, e₂]) ⟨m, ity'⟩
      (.arith (arith .iadd) [.var m, .var m] ⟨m + 1, ity'⟩ p.1), p.2)) hk
  · have hlet : Leads I ⟨env, w, .letE (pureOp rator ity [e₁, e₂]) ⟨m, ity'⟩
          (.arith (arith .iadd) [.var m, .var m] ⟨m + 1, ity'⟩ stm)⟩
        ⟨env.set m (M.word (unsigned 64 y)), w,
          .arith (arith .iadd) [.var m, .var m] ⟨m + 1, ity'⟩ stm⟩ :=
      Leads.letE (M.eval_pure₂ he₁ he₂ hd)
    have hargs : evals I (env.set m (M.word (unsigned 64 y))) w [.var m, .var m] =
        some ([unsigned 64 y, unsigned 64 y].map M.word) := by
      simp
    have hself : signed 64 (unsigned 64 y) = y := by
      rw [signed_emod]
      exact signed_of_bounds (by decide) (by omega) (by omega)
    have hsum : CFG.execSigned .iadd ([unsigned 64 y, unsigned 64 y].map (signed 64)) =
        some (2 * y) := by
      rw [List.map_cons, List.map_cons, List.map_nil, hself, CFG.execSigned, two_mul]
    have harith := M.arith .iadd _ (congrArg (Option.map (checked 64)) hsum)
    rw [← add_zero (2 * y), checked_double (.inl rfl), add_zero] at harith
    split
    · next hy =>
      rw [if_pos hy] at harith
      have hword : unsigned 64 (2 * y) = 2 * unsigned 63 y := unsigned_double 63 y
      rw [hword] at harith
      have htmp : eval I ((env.set m (M.word (unsigned 64 y))).set (m + 1)
          (M.word (2 * unsigned 63 y))) w (.var (m + 1)) = some (M.word (2 * unsigned 63 y)) :=
        CPS.Env.set_self _ _ _
      refine ⟨_, fun z _ hz => ?_, hlet.trans (Leads.arith hargs harith),
        eval_addTag htmp (pattern_unsigned 63 y)⟩
      rw [CPS.Env.set_of_ne _ _ (lt_trans hz (Nat.lt_succ_self m)).ne, CPS.Env.set_of_ne _ _ hz.ne]
    · next hy =>
      rw [if_neg hy] at harith
      exact hlet.traps (Traps.arith hargs harith)

/-! ### The operators -/

theorem evals_pair {e₁ e₂ : Exp} {a b : ℤ} (h₁ : eval I env w e₁ = some (M.word a))
    (h₂ : eval I env w e₂ = some (M.word b)) :
    evals I env w [e₁, e₂] = some ([a, b].map M.word) := by
  simp [h₁, h₂]

section Operators

variable {v v₁ v₂ : Value} {n n₁ n₂ : ℤ}

theorem signed_two_mul (n : ℤ) : signed 64 (2 * n) = 2 * signed 63 n := signed_double (by decide) n

theorem signed_two_mul_add_one (n : ℤ) : signed 64 (2 * n + 1) = 2 * signed 63 n + 1 :=
  signed_tag (by decide) n

theorem signed_word (n : ℤ) : signed 64 (unsigned 64 (signed 63 n)) = signed 63 n := by
  refine (signed_emod 64 _).trans ?_
  have hb := signed_bounds (show 0 < 63 by decide) n
  exact signed_of_bounds (by decide) (by omega) (by omega)

theorem signed_literal {i : ℤ} (hi : InRange true i) : signed 63 (unsigned 63 i) = i := by
  rw [signed_emod]
  exact signed_of_bounds (by decide) hi.1 hi.2

variable (h₁ : Operand M exps env w true v₁ n₁) (h₂ : Operand M exps env w true v₂ n₂)

include h₁ h₂

theorem completes_iadd :
    Completes M exps env w .iadd [v₁, v₂] (signed 63 n₁ + signed 63 n₂) := by
  have hleft : CFG.execSigned .iadd ([2 * n₁ + 1, 2 * n₂].map (signed 64)) =
      some (2 * (signed 63 n₁ + signed 63 n₂) + 1) := by
    simp only [List.map_cons, signed_two_mul, signed_two_mul_add_one]
    exact congrArg some (by ring)
  have hright : CFG.execSigned .iadd ([2 * n₁, 2 * n₂ + 1].map (signed 64)) =
      some (2 * (signed 63 n₁ + signed 63 n₂) + 1) := by
    simp only [List.map_cons, signed_two_mul, signed_two_mul_add_one]
    exact congrArg some (by ring)
  obtain ⟨e₂, hc₂, he₂⟩ := h₂.genV
  rcases h₁.cases with ⟨x₁, rfl, hx₁⟩ | ⟨i₁, s₁, rfl, -, rfl⟩
  · rcases h₂.cases with ⟨x₂, rfl, hx₂⟩ | ⟨i₂, s₂, rfl, -, rfl⟩
    · exact completes_continue .iadd (fun _ _ => rfl)
        (evals_pair hx₁ (eval_stripTag hx₂ h₂.pattern)) hleft
    · exact completes_continue .iadd (fun _ _ => rfl) (evals_pair hx₁ (eval_num_double i₂)) hleft
  · refine completes_continue .iadd (fun x k => ?_) (evals_pair (eval_num_double i₁) he₂) hright
    funext m
    exact lift_bind hc₂ (fun e => continue_ x k .iadd [num (i₁ + i₁), e]) m

theorem completes_isub :
    Completes M exps env w .isub [v₁, v₂] (signed 63 n₁ - signed 63 n₂) := by
  obtain ⟨e₂, hc₂, he₂⟩ := h₂.genV
  rcases h₁.cases with ⟨x₁, rfl, hx₁⟩ | ⟨i₁, s₁, rfl, hi₁, rfl⟩
  · rcases h₂.cases with ⟨x₂, rfl, hx₂⟩ | ⟨i₂, s₂, rfl, -, rfl⟩
    · refine completes_tagResult (fun _ _ => rfl) (evals_pair hx₁ hx₂) ?_
      simp only [List.map_cons, signed_two_mul_add_one]
      exact congrArg some (by ring)
    · refine completes_continue .isub (fun _ _ => rfl) (evals_pair hx₁ (eval_num_double i₂)) ?_
      simp only [List.map_cons, signed_two_mul, signed_two_mul_add_one]
      exact congrArg some (by ring)
  · rw [signed_literal hi₁]
    by_cases hmax : i₁ = maxInt
    · -- twice the greatest integer and two more would not fit
      refine completes_continue .isub (fun x k => ?_)
        (evals_pair (eval_num_tag i₁) (eval_stripTag he₂ h₂.pattern)) ?_
      · funext m
        exact (congrFun (if_pos hmax) m).trans (lift_bind hc₂
          (fun e => continue_ x k .isub [num (i₁ + i₁ + 1), stripTag e]) m)
      · simp only [List.map_cons, signed_two_mul, signed_two_mul_add_one,
          signed_literal hi₁]
        exact congrArg some (by ring)
    · have hconst : eval I env w (num (i₁ + i₁ + 2)) =
          some (M.word (unsigned 64 (2 * (i₁ + 1)))) := by
        rw [eval_num (M := M), mul_add, two_mul, mul_one]
      have hread : signed 64 (unsigned 64 (2 * (i₁ + 1))) = 2 * (i₁ + 1) := by
        rw [signed_emod]
        have hlow := hi₁.1
        have hup := hi₁.2
        have hne : i₁ ≠ 2 ^ 62 - 1 := hmax
        exact signed_of_bounds (by decide) (by omega) (by omega)
      refine completes_continue .isub (fun x k => ?_) (evals_pair hconst he₂) ?_
      · funext m
        exact (congrFun (if_neg hmax) m).trans (lift_bind hc₂
          (fun e => continue_ x k .isub [num (i₁ + i₁ + 2), e]) m)
      · simp only [List.map_cons, signed_two_mul_add_one, hread]
        exact congrArg some (by ring)

theorem completes_imul :
    Completes M exps env w .imul [v₁, v₂] (signed 63 n₁ * signed 63 n₂) := by
  have hleft : ∀ b, signed 64 b = signed 63 n₂ →
      CFG.execSigned .imul ([2 * n₁, b].map (signed 64)) =
        some (2 * (signed 63 n₁ * signed 63 n₂)) := by
    intro b hb
    simp only [List.map_cons, signed_two_mul, hb]
    exact congrArg some (by ring)
  rcases h₁.cases with ⟨x₁, rfl, hx₁⟩ | ⟨i₁, s₁, rfl, -, rfl⟩
  · rcases h₂.cases with ⟨x₂, rfl, hx₂⟩ | ⟨i₂, s₂, rfl, -, rfl⟩
    · exact completes_tagResult (fun _ _ => rfl)
        (evals_pair (eval_stripTag hx₁ h₁.pattern) (eval_untagInt hx₂)) (hleft _ (signed_word n₂))
    · refine completes_tagResult (fun _ _ => rfl)
        (evals_pair (eval_untagInt hx₁) (eval_num_double i₂)) ?_
      simp only [List.map_cons, signed_two_mul, signed_word]
      exact congrArg some (by ring)
  · rcases h₂.cases with ⟨x₂, rfl, hx₂⟩ | ⟨i₂, s₂, rfl, hi₂, rfl⟩
    · exact completes_tagResult (fun _ _ => rfl)
        (evals_pair (eval_num_double i₁) (eval_untagInt hx₂)) (hleft _ (signed_word n₂))
    · have hread : signed 64 (unsigned 64 i₂) = signed 63 (unsigned 63 i₂) := by
        rw [unsigned_of_inRange hi₂]
        exact signed_word _
      exact completes_tagResult (fun _ _ => rfl)
        (evals_pair (eval_num_double i₁) (eval_num i₂)) (hleft _ hread)

theorem completes_iquot (h0 : n₂ ≠ 0) :
    Completes M exps env w .iquot [v₁, v₂] ((signed 63 n₁).tdiv (signed 63 n₂)) := by
  refine completes_divOp (fun _ _ => rfl) h₁ h₂ ?_ ?_
  · have hne : unsigned 64 (signed 63 n₂) ≠ 0 :=
      show untagged true n₂ ≠ 0 from untagged_ne_zero h₂.pattern h0
    rw [execPure_sdiv, if_neg hne, signed_word, signed_word]
  · have hb := signed_bounds (show 0 < 63 by decide) n₁
    have habs : ((signed 63 n₁).tdiv (signed 63 n₂)).natAbs ≤ (signed 63 n₁).natAbs := by
      rw [Int.natAbs_tdiv]
      exact Nat.div_le_self _ _
    omega

theorem completes_irem (h0 : n₂ ≠ 0) :
    Completes M exps env w .irem [v₁, v₂] ((signed 63 n₁).tmod (signed 63 n₂)) := by
  refine completes_divOp (fun _ _ => rfl) h₁ h₂ ?_ ?_
  · have hne : unsigned 64 (signed 63 n₂) ≠ 0 :=
      show untagged true n₂ ≠ 0 from untagged_ne_zero h₂.pattern h0
    rw [execPure_srem, if_neg hne, signed_word, signed_word]
  · have hb := signed_bounds (show 0 < 63 by decide) n₁
    have habs : ((signed 63 n₁).tmod (signed 63 n₂)).natAbs ≤ (signed 63 n₁).natAbs := by
      rw [Int.natAbs_tmod]
      exact Nat.mod_le _ _
    omega

end Operators

theorem completes_ineg {v : Value} {n : ℤ} (h : Operand M exps env w true v n) :
    Completes M exps env w .ineg [v] (-signed 63 n) := by
  obtain ⟨e, hc, he⟩ := h.genV
  refine completes_continue .isub (fun x k => ?_) (evals_pair (eval_num 2) he) ?_
  · funext m
    exact lift_bind hc (fun e => continue_ x k .isub [two, e]) m
  · have htwo : signed 64 (unsigned 64 2) = 2 := rfl
    simp only [List.map_cons, signed_two_mul_add_one, htwo]
    exact congrArg some (by ring)

theorem ne_zero_of_signed {n : ℤ} (h : signed 63 n ≠ 0) : n ≠ 0 := by
  rintro rfl
  exact h rfl

/-- **The statement for every trapping operation completes with its result.** -/
theorem completes {ns : List ℤ} (hops : List.Forall₂ (Operand M exps env w true) args ns)
    (hoper : oper ≠ .idiv ∧ oper ≠ .imod)
    (hy : ContractPrim.execSigned oper (ns.map (signed 63)) = some y) :
    Completes M exps env w oper args y := by
  cases hops with
  | nil => cases oper <;> cases hy
  | cons h₁ hops =>
    cases hops with
    | nil =>
      cases oper with
      | ineg =>
        cases hy
        exact completes_ineg h₁
      | _ => cases hy
    | cons h₂ hops =>
      cases hops with
      | nil =>
        cases oper with
        | iadd =>
          cases hy
          exact completes_iadd h₁ h₂
        | isub =>
          cases hy
          exact completes_isub h₁ h₂
        | imul =>
          cases hy
          exact completes_imul h₁ h₂
        | iquot =>
          obtain ⟨h0, hy⟩ := Option.ite_none_left_eq_some.1 hy
          cases hy
          exact completes_iquot h₁ h₂ (ne_zero_of_signed h0)
        | irem =>
          obtain ⟨h0, hy⟩ := Option.ite_none_left_eq_some.1 hy
          cases hy
          exact completes_irem h₁ h₂ (ne_zero_of_signed h0)
        | idiv => exact absurd rfl hoper.1
        | imod => exact absurd rfl hoper.2
        | ineg => cases hy
      | cons h₃ hops => cases oper <;> cases hy

/-! ### Comparisons -/

theorem compareNum_tag (oper : CPS.P.CmpOp) (a b : ℤ) :
    CPS.compareNum oper (2 * a + 1) (2 * b + 1) = CPS.compareNum oper a b := by
  cases oper <;> simp only [CPS.compareNum] <;> grind

/-- **The branch for a comparison goes where the comparison of the numbers says.** -/
theorem leads_genCmp {oper : CPS.P.CmpOp} {v₁ v₂ : Value} {n₁ n₂ : ℤ} (k1 k2 : Stm)
    (h₁ : Operand M exps env w isSigned v₁ n₁) (h₂ : Operand M exps env w isSigned v₂ n₂) :
    ∃ s, genCmp exps oper (if isSigned then .int 63 else .uint 63) [v₁, v₂] k1 k2 = .ok s ∧
      Leads I ⟨env, w, s⟩ ⟨env, w,
        if CPS.compareNum oper (if isSigned then signed 63 n₁ else n₁)
          (if isSigned then signed 63 n₂ else n₂) then k1 else k2⟩ := by
  obtain ⟨e₁, hc₁, he₁⟩ := h₁.genV
  obtain ⟨e₂, hc₂, he₂⟩ := h₂.genV
  have hargs : [v₁, v₂].mapM (CPStoCFG.genV exps) = .ok [e₁, e₂] := by
    rw [List.mapM_cons, List.mapM_cons, hc₁, hc₂]
    rfl
  have hbranch := M.branch oper isSigned (2 * n₁ + 1) (2 * n₂ + 1)
  have hcmp : execCmp oper isSigned 64 (2 * n₁ + 1) (2 * n₂ + 1) =
      CPS.compareNum oper (if isSigned then signed 63 n₁ else n₁)
        (if isSigned then signed 63 n₂ else n₂) := by
    cases isSigned with
    | false => exact compareNum_tag oper n₁ n₂
    | true =>
      have h := compareNum_tag oper (signed 63 n₁) (signed 63 n₂)
      rwa [← signed_two_mul_add_one, ← signed_two_mul_add_one] at h
  rw [hcmp] at hbranch
  refine ⟨.branch (.cmp oper isSigned 64) [e₁, e₂] unkProb k1 k2, ?_,
    Leads.branch (evals_pair he₁ he₂) hbranch⟩
  have hok : ∀ test, (do
      return Stm.branch test (← [v₁, v₂].mapM (CPStoCFG.genV exps)) unkProb k1 k2 :
      Except Exn Stm) = .ok (.branch test [e₁, e₂] unkProb k1 k2) := by
    intro test
    rw [hargs]
    rfl
  cases isSigned with
  | false => exact hok (.cmp oper false 64)
  | true => exact hok (.cmp oper true 64)

end Correct

def literal (i : ℤ) : Value := .num ⟨i, ⟨63, true⟩⟩

theorem operand_literal {isSigned : Bool} {i : ℤ} (hi : InRange isSigned i) :
    Operand wordInterpWords (fun _ => none) (fun _ => none) () isSigned (literal i)
      (unsigned 63 i) :=
  ⟨rfl, hi, rfl⟩

end SmlNj.TaggedArith
