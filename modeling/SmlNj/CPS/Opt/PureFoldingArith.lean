import SmlNj.CPS.Opt.PureFolding

/-!
# Where the contraction of addition, multiplication and division is faithful

The operands of an operation, and the operators that contraction reduces by arithmetic on the
literals.  A literal that is negative and one that is not have the same pattern: sums and products
do not see the difference, quotients and remainders do.

## Main definitions

* `Binary` — what is known about the operands of a binary operation, and what it computes.

## Main results

* `add_faithful`, `sub_faithful`, `mul_faithful` — these are always faithful.
* `quot_faithful_iff`, `rem_faithful_iff` — these are exactly off `Misfolded`.
-/

namespace SmlNj.ContractPrim

open CPS TwosComplement IntBitwise

/-! ### Operands -/

section

variable {ρ : Lvar → ℤ} {sz : ℕ} {u v w : Value}

theorem pattern_value (h : Operand ρ sz v) : Pattern sz (value ρ sz v) := by
  cases v with
  | var x => exact h
  | num n => exact pattern_unsigned sz n.ival
  | _ => exact h.elim

theorem value_num (n : IntConst) : value ρ sz (.num n) = unsigned sz n.ival := rfl

theorem unsigned_zero (sz : ℕ) : unsigned sz 0 = 0 := Int.zero_emod _

theorem unsigned_idem (sz : ℕ) (x : ℤ) : unsigned sz (unsigned sz x) = unsigned sz x :=
  unsigned_unsigned le_rfl x

def kindOf : Bool → ℕ → P.NumKind
  | true, sz => .int sz
  | false, sz => .uint sz

variable {oper : P.PureOp} {b : Bool} {args : List Value} {x i y j a : ℤ} {p : P.Pure}
  {kind : P.NumKind} {k : ℕ} {n : IntConst}

theorem faithful_fold {ty : IntTy}
    (h : ∀ d, exec ρ (.pureArith oper (kindOf b sz)) args = some d → unsigned sz x = d) :
    Faithful ρ (.pureArith oper (kindOf b sz)) args (.ok (.val (.num ⟨x, ty⟩))) := by
  intro r hr d hd
  cases hr
  cases b <;> exact congrArg some (h d hd)

theorem faithful_val
    (h : ∀ d, exec ρ (.pureArith oper (kindOf b sz)) args = some d → value ρ sz v = d) :
    Faithful ρ (.pureArith oper (kindOf b sz)) args (.ok (.val v)) := by
  intro r hr d hd
  cases hr
  cases b <;> exact congrArg some (h d hd)

theorem faithful_of_exec
    (h : exec ρ (.pureArith oper (kindOf b sz)) args = some (value ρ sz v)) :
    Faithful ρ (.pureArith oper (kindOf b sz)) args (.ok (.val v)) :=
  faithful_val fun _ hd => Option.some_inj.1 (h.symm.trans hd)

theorem faithful_none : Faithful ρ p args (.ok .none) := by
  intro r hr d hd
  cases hr
  exact hd

theorem faithful_error {e : Exn} : Faithful ρ p args (.error e) := by
  intro r hr
  cases hr

theorem WellFormed.exists_kind (h : WellFormed ρ (.pureArith oper kind) args) :
    ∃ b sz, kind = kindOf b sz := by
  cases kind with
  | int sz => exact ⟨true, sz, rfl⟩
  | uint sz => exact ⟨false, sz, rfl⟩
  | float sz => exact h.elim
  | enum => exact h.elim

/-- What is known about the operands of a binary operation, and what it computes. -/
structure Binary (ρ : Lvar → ℤ) (oper : P.PureOp) (b : Bool) (sz sz' : ℕ) (v w : Value) : Prop where
  pos : 0 < sz
  lt : sz < 2 ^ (Target.defaultIntSz - 1)
  left : Operand ρ sz v
  right : Operand ρ sz' w
  exec : exec ρ (.pureArith oper (kindOf b sz)) [v, w] =
    execSized oper b sz [value ρ sz v, value ρ sz' w]

theorem WellFormed.binary {oper : P.PureOp} (b : Bool) {sz' : ℕ}
    (h : WellFormed ρ (.pureArith oper (kindOf b sz)) [v, w]) (hs : argSizes sz oper = [sz, sz']) :
    Binary ρ oper b sz sz' v w := by
  have hargs : 0 < sz ∧ sz < 2 ^ (Target.defaultIntSz - 1) ∧
      List.Forall₂ (Operand ρ) (argSizes sz oper) [v, w] := by
    cases b <;> exact h
  have hops := hargs.2.2
  rw [hs, List.forall₂_cons, List.forall₂_cons] at hops
  refine ⟨hargs.1, hargs.2.1, hops.1, hops.2.1, ?_⟩
  cases b <;> simp only [kindOf, ContractPrim.exec, sizes, hs] <;> rfl

theorem WellFormed.length_eq {s : ℕ → ℕ} (h : WellFormed ρ (.pureArith oper kind) args)
    (hs : ∀ sz, argSizes sz oper = [sz, s sz]) : args.length = 2 := by
  have htwo : ∀ sz, List.Forall₂ (Operand ρ) (argSizes sz oper) args → args.length = 2 := by
    intro sz hargs
    rw [hs sz] at hargs
    exact hargs.length_eq.symm
  cases kind with
  | int sz => exact htwo sz h.2.2
  | uint sz => exact htwo sz h.2.2
  | float sz => exact h.elim
  | enum => exact h.elim

theorem WellFormed.exists_pair {s : ℕ → ℕ} (h : WellFormed ρ (.pureArith oper kind) args)
    (hs : ∀ sz, argSizes sz oper = [sz, s sz]) : ∃ v w, args = [v, w] :=
  List.length_eq_two.1 (h.length_eq hs)

theorem WellFormed.exists_right {s : ℕ → ℕ} {rest : List Value}
    (h : WellFormed ρ (.pureArith oper kind) (v :: rest))
    (hs : ∀ sz, argSizes sz oper = [sz, s sz]) : ∃ w, rest = [w] :=
  List.length_eq_one_iff.1 (Nat.succ.inj (h.length_eq hs))

theorem WellFormed.rest_eq_nil {s : ℕ → ℕ} {rest : List Value}
    (h : WellFormed ρ (.pureArith oper kind) (v :: w :: rest))
    (hs : ∀ sz, argSizes sz oper = [sz, s sz]) : rest = [] := by
  obtain ⟨w', hw⟩ := h.exists_right hs
  exact (List.cons.inj hw).2

theorem uNarrow_eq (wid : ℕ) (n : ℤ) : ConstArith.uNarrow wid n = unsigned wid n :=
  land_two_pow_sub_one n wid

theorem narrow_eq (wid : ℕ) (n : ℤ) : ConstArith.narrow wid n = unsigned wid n :=
  land_two_pow_sub_one n wid

theorem unsigned_add (x y : ℤ) :
    unsigned sz (unsigned sz x + unsigned sz y) = unsigned sz (x + y) :=
  (Int.add_emod x y _).symm

theorem unsigned_sub (x y : ℤ) :
    unsigned sz (unsigned sz x - unsigned sz y) = unsigned sz (x - y) :=
  (Int.sub_emod x y _).symm

theorem unsigned_mul (x y : ℤ) :
    unsigned sz (unsigned sz x * unsigned sz y) = unsigned sz (x * y) :=
  (Int.mul_emod x y _).symm

theorem unsigned_value (h : Operand ρ sz v) : unsigned sz (value ρ sz v) = value ρ sz v :=
  unsigned_of_pattern (pattern_value h)

/-! ### Addition, subtraction, multiplication -/

theorem add_faithful (h : WellFormed ρ (.pureArith .add kind) args) :
    Faithful ρ (.pureArith .add kind) args (add kind args) := by
  unfold add
  split
  case h_1 ty v =>
    obtain ⟨b, sz, rfl⟩ := h.exists_kind
    have hb := h.binary b rfl
    refine faithful_of_exec ?_
    rw [hb.exec, execSized_add, value_num, unsigned_zero, zero_add, unsigned_value hb.right]
  case h_2 v ty _ =>
    obtain ⟨b, sz, rfl⟩ := h.exists_kind
    have hb := h.binary b rfl
    refine faithful_of_exec ?_
    rw [hb.exec, execSized_add, value_num, unsigned_zero, add_zero, unsigned_value hb.left]
  case h_3 sz i j _ _ =>
    have hb := h.binary false rfl
    refine faithful_fold (b := false) fun d hd => ?_
    rw [hb.exec, execSized_add, value_num, value_num, unsigned_add] at hd
    rw [ConstArith.uAdd, uNarrow_eq, unsigned_idem]
    exact Option.some_inj.1 hd
  case h_4 _ _ _ => exact faithful_none

theorem sub_faithful (h : WellFormed ρ (.pureArith .sub kind) args) :
    Faithful ρ (.pureArith .sub kind) args (sub kind args) := by
  unfold sub
  split
  case h_1 v ty =>
    obtain ⟨b, sz, rfl⟩ := h.exists_kind
    have hb := h.binary b rfl
    refine faithful_of_exec ?_
    rw [hb.exec, execSized_sub, value_num, unsigned_zero, sub_zero, unsigned_value hb.left]
  case h_2 sz i j _ =>
    have hb := h.binary false rfl
    refine faithful_fold (b := false) fun d hd => ?_
    rw [hb.exec, execSized_sub, value_num, value_num, unsigned_sub] at hd
    rw [ConstArith.uSub, uNarrow_eq, unsigned_idem]
    exact Option.some_inj.1 hd
  case h_3 _ _ => exact faithful_none

theorem unsigned_one (h : 0 < sz) : unsigned sz 1 = 1 := by
  refine unsigned_of_pattern ⟨by decide, ?_⟩
  have := two_pow_eq_double h
  have := pow_pos' (sz - 1)
  omega

theorem exponent_eq {n : ℤ} (h : log2 n = some k) : n = 2 ^ k := by
  unfold log2 at h
  split_ifs at h with hpos
  dsimp only at h
  split_ifs at h with hpow
  cases h
  exact hpow.symm

theorem log2_two_pow (k : ℕ) : log2 (2 ^ k) = some k := by
  have hpos := pow_pos' k
  have hlog : ((2 : ℤ) ^ k).toNat.log2 = k := by
    rw [show (2 : ℤ) ^ k = ((2 ^ k : ℕ) : ℤ) by push_cast; rfl, Int.toNat_natCast,
      Nat.log2_two_pow]
  rw [log2]
  simp [hlog]

theorem exponent_lt {n : ℤ} (hk : log2 n = some k) (h : Literal sz n) : k < sz := by
  have hn := exponent_eq hk
  by_contra hle
  have := two_pow_le (not_lt.1 hle)
  have := h.2
  omega

theorem value_tagInt (h : k < sz) (h' : sz < 2 ^ (Target.defaultIntSz - 1)) :
    value ρ Target.defaultIntSz (tagInt k) = k := by
  refine unsigned_of_pattern ⟨Int.natCast_nonneg k, ?_⟩
  have hlt : k < 2 ^ 63 := (h.trans h').trans (by decide)
  change (k : ℤ) < 2 ^ 63
  exact_mod_cast hlt

theorem mulByConst_faithful (hn : Literal sz n.ival) (hsz : sz < 2 ^ (Target.defaultIntSz - 1))
    (hexec : exec ρ (.pureArith .mul (kindOf b sz)) args =
      some (unsigned sz (value ρ sz v * n.ival))) :
    Faithful ρ (.pureArith .mul (kindOf b sz)) args (.ok (mulByConst sz v n.ival)) := by
  unfold mulByConst
  split
  · next k hk =>
    intro r hr d hd
    cases hr
    have hlt := exponent_lt hk hn
    rw [hexec, exponent_eq hk] at hd
    change execSized .lshift false sz [value ρ sz v, value ρ Target.defaultIntSz (tagInt k)] = _
    rw [value_tagInt hlt hsz, execSized_lshift, if_pos (by exact_mod_cast hlt)]
    exact hd
  · exact faithful_none

theorem mulByConst_right (hb : Binary ρ .mul b sz sz v (.num n)) :
    Faithful ρ (.pureArith .mul (kindOf b sz)) [v, .num n] (.ok (mulByConst sz v n.ival)) := by
  refine mulByConst_faithful hb.right hb.lt ?_
  rw [hb.exec, execSized_mul, value_num, ← unsigned_value hb.left, unsigned_mul,
    unsigned_value hb.left]

theorem mulByConst_left (hb : Binary ρ .mul b sz sz (.num n) v) :
    Faithful ρ (.pureArith .mul (kindOf b sz)) [.num n, v] (.ok (mulByConst sz v n.ival)) := by
  refine mulByConst_faithful hb.left hb.lt ?_
  rw [hb.exec, execSized_mul, value_num, ← unsigned_value hb.right, unsigned_mul,
    unsigned_value hb.right, mul_comm]

theorem mul_faithful (h : WellFormed ρ (.pureArith .mul kind) args) :
    Faithful ρ (.pureArith .mul kind) args (mul kind args) := by
  unfold mul
  split
  case h_1 ty v rest =>
    obtain rfl := h.rest_eq_nil fun _ => rfl
    obtain ⟨b, sz, rfl⟩ := h.exists_kind
    have hb := h.binary b rfl
    refine faithful_of_exec ?_
    rw [hb.exec, execSized_mul, value_num, unsigned_one hb.pos, one_mul, unsigned_value hb.right]
  case h_2 v ty rest _ =>
    obtain rfl := h.rest_eq_nil fun _ => rfl
    obtain ⟨b, sz, rfl⟩ := h.exists_kind
    have hb := h.binary b rfl
    refine faithful_of_exec ?_
    rw [hb.exec, execSized_mul, value_num, unsigned_one hb.pos, mul_one, unsigned_value hb.left]
  case h_3 ty rest _ =>
    obtain ⟨w, rfl⟩ := h.exists_right fun _ => rfl
    obtain ⟨b, sz, rfl⟩ := h.exists_kind
    have hb := h.binary b rfl
    refine faithful_of_exec ?_
    rw [hb.exec, execSized_mul, value_num, unsigned_zero, zero_mul, unsigned_zero]
  case h_4 v ty rest _ _ =>
    obtain rfl := h.rest_eq_nil fun _ => rfl
    obtain ⟨b, sz, rfl⟩ := h.exists_kind
    have hb := h.binary b rfl
    refine faithful_of_exec ?_
    rw [hb.exec, execSized_mul, value_num, unsigned_zero, mul_zero, unsigned_zero]
  case h_5 sz i j rest _ _ _ _ =>
    obtain rfl := h.rest_eq_nil fun _ => rfl
    have hb := h.binary false rfl
    refine faithful_fold (b := false) fun d hd => ?_
    rw [hb.exec, execSized_mul, value_num, value_num, unsigned_mul] at hd
    rw [ConstArith.uMul, uNarrow_eq, unsigned_idem]
    exact Option.some_inj.1 hd
  case h_6 sz i v rest _ _ _ _ =>
    obtain rfl := h.rest_eq_nil fun _ => rfl
    exact mulByConst_left (h.binary true rfl)
  case h_7 sz v i rest _ _ _ _ _ =>
    obtain rfl := h.rest_eq_nil fun _ => rfl
    exact mulByConst_right (h.binary true rfl)
  case h_8 sz i v rest _ _ _ _ _ =>
    obtain rfl := h.rest_eq_nil fun _ => rfl
    exact mulByConst_left (h.binary false rfl)
  case h_9 sz v i rest _ _ _ _ _ =>
    obtain rfl := h.rest_eq_nil fun _ => rfl
    exact mulByConst_right (h.binary false rfl)
  case h_10 _ _ _ _ _ _ _ _ _ => exact faithful_none

/-! ### Quotients and remainders of literals -/

theorem unsigned_of_nonneg (h : Literal sz i) (hi : 0 ≤ i) : unsigned sz i = i :=
  unsigned_of_pattern ⟨hi, h.2⟩

theorem unsigned_of_neg (h : -2 ^ sz ≤ i) (hi : i < 0) : unsigned sz i = i + 2 ^ sz := by
  rw [unsigned, ← Int.add_emod_right]
  exact Int.emod_eq_of_lt (by omega) (by omega)

theorem Literal.neg_bounds (h : Literal sz i) (hsz : 0 < sz) : 2 * -i ≤ 2 ^ sz ∧ -2 ^ sz ≤ i := by
  have hd := two_pow_eq_double hsz
  have hp := pow_pos' (sz - 1)
  have := h.1
  omega

theorem unsigned_neg_pos {q : ℤ} (h : 0 < q) (h' : q ≤ 2 ^ sz) :
    unsigned sz (-q) = 2 ^ sz - q := by
  rw [unsigned_of_neg (by omega) (by omega)]
  ring

theorem two_mul_ediv_le (hx : 0 ≤ x) (hy : 2 ≤ y) : 2 * (x / y) ≤ x := by
  have hq := Int.mul_ediv_add_emod x y
  have hr := Int.emod_nonneg x (show y ≠ 0 by omega)
  nlinarith

theorem emod_le_self (hx : 0 ≤ x) (hy : 0 < y) : x % y ≤ x := by
  have hq := Int.mul_ediv_add_emod x y
  have hnn := mul_nonneg hy.le (Int.ediv_nonneg hx hy.le)
  omega

theorem one_le_ediv (hy : 0 < y) (h : y ≤ x) : 1 ≤ x / y := by
  rw [Int.le_ediv_iff_mul_le hy, one_mul]
  exact h

theorem quotAgrees_right (hx : 0 ≤ x) (hx' : x < 2 ^ sz) (hy : 2 ≤ y) (hy' : 2 * y ≤ 2 ^ sz) :
    unsigned sz (-(x / y)) = x / (-y + 2 ^ sz) ↔ x < y := by
  rcases lt_or_ge x y with hlt | hge
  · rw [Int.ediv_eq_zero_of_lt hx hlt,
      Int.ediv_eq_zero_of_lt hx (by omega)]
    exact iff_of_true rfl hlt
  · have hhalf := two_mul_ediv_le hx hy
    have hpos := one_le_ediv (show 0 < y by omega) hge
    have hword : x / (-y + 2 ^ sz) < 2 := Int.ediv_lt_of_lt_mul (by omega) (by omega)
    rw [unsigned_neg_pos (by omega) (by omega)]
    omega

theorem quotAgrees_left (hx : 0 < x) (hx' : 2 * x ≤ 2 ^ sz) (hy : 2 ≤ y) (hy' : y < 2 ^ sz) :
    unsigned sz (-(x / y)) = (-x + 2 ^ sz) / y ↔ 2 ^ sz - x < y := by
  rcases lt_or_ge x y with hlt | hge
  · rw [Int.ediv_eq_zero_of_lt hx.le hlt, neg_zero, unsigned_zero]
    constructor
    · intro h
      by_contra hge
      have := one_le_ediv (show 0 < y by omega) (show y ≤ -x + 2 ^ sz by omega)
      omega
    · intro h
      rw [Int.ediv_eq_zero_of_lt (by omega) (by omega)]
  · have hhalf := two_mul_ediv_le hx.le hy
    have hhalf' := two_mul_ediv_le (show 0 ≤ -x + 2 ^ sz by omega) hy
    have hpos := one_le_ediv (show 0 < y by omega) hge
    rw [unsigned_neg_pos (by omega) (by omega)]
    omega

theorem quotAgrees_both (hx : 0 < x) (hx' : 2 * x ≤ 2 ^ sz) (hy : 2 ≤ y) (hy' : 2 * y ≤ 2 ^ sz) :
    unsigned sz (x / y) = (-x + 2 ^ sz) / (-y + 2 ^ sz) ↔ x = y := by
  have hhalf := two_mul_ediv_le hx.le hy
  have hnn := Int.ediv_nonneg hx.le (show 0 ≤ y by omega)
  rw [unsigned_of_pattern ⟨hnn, by omega⟩]
  rcases lt_trichotomy x y with hlt | rfl | hgt
  · have := one_le_ediv (show 0 < -y + 2 ^ sz by omega) (show -y + 2 ^ sz ≤ -x + 2 ^ sz by omega)
    rw [Int.ediv_eq_zero_of_lt hx.le hlt]
    omega
  · rw [Int.ediv_self (by omega), Int.ediv_self (by omega)]
    exact iff_of_true rfl rfl
  · have := one_le_ediv (show 0 < y by omega) hgt.le
    rw [Int.ediv_eq_zero_of_lt (show 0 ≤ -x + 2 ^ sz by omega) (by omega)]
    omega

/-- **The quotient of two literals**, of which one may be negative. -/
theorem quotAgrees_iff (hsz : 0 < sz) (hi : Literal sz i) (hj : Literal sz j) (hzero : j ≠ 0)
    (hone : j ≠ 1) (hminus : j ≠ -1) :
    unsigned sz (i.tdiv j) = unsigned sz i / unsigned sz j ↔ QuotAgrees sz i j := by
  have hi' := hi.neg_bounds hsz
  have hj' := hj.neg_bounds hsz
  have hilt := hi.2
  have hjlt := hj.2
  unfold QuotAgrees
  rcases le_or_gt 0 i with hi0 | hi0 <;> rcases le_or_gt 0 j with hj0 | hj0
  · rw [unsigned_of_nonneg hi hi0, unsigned_of_nonneg hj hj0, Int.tdiv_eq_ediv_of_nonneg hi0]
    refine iff_of_true (unsigned_of_pattern ⟨Int.ediv_nonneg hi0 hj0, ?_⟩) (Or.inl ⟨hi0, hj0⟩)
    exact (Int.ediv_le_self j hi0).trans_lt hilt
  · -- a negative divisor: the quotient of the words is zero or one
    obtain ⟨y, rfl⟩ : ∃ y, j = -y := ⟨-j, by omega⟩
    rw [unsigned_of_nonneg hi hi0, unsigned_of_neg hj'.2 hj0, Int.tdiv_neg,
      Int.tdiv_eq_ediv_of_nonneg hi0, quotAgrees_right hi0 hilt (by omega) (by omega)]
    omega
  · -- a negative dividend
    obtain ⟨x, rfl⟩ : ∃ x, i = -x := ⟨-i, by omega⟩
    rw [unsigned_of_neg hi'.2 hi0, unsigned_of_nonneg hj hj0, Int.neg_tdiv,
      Int.tdiv_eq_ediv_of_nonneg (by omega), quotAgrees_left (by omega) (by omega) (by omega) hjlt]
    omega
  · obtain ⟨x, rfl⟩ : ∃ x, i = -x := ⟨-i, by omega⟩
    obtain ⟨y, rfl⟩ : ∃ y, j = -y := ⟨-j, by omega⟩
    rw [unsigned_of_neg hi'.2 hi0, unsigned_of_neg hj'.2 hj0, Int.neg_tdiv_neg,
      Int.tdiv_eq_ediv_of_nonneg (by omega),
      quotAgrees_both (by omega) (by omega) (by omega) (by omega)]
    omega

/-- A negative divisor: its opposite divides the greatest multiple of the word's divisor. -/
theorem remAgrees_right (hx : 0 ≤ x) (hx' : x < 2 ^ sz) (hy : 1 ≤ y) (hy' : 2 * y ≤ 2 ^ sz) :
    unsigned sz (x % y) = x % (-y + 2 ^ sz) ↔
      x < y ∨ 2 ^ sz - y ≤ x ∧ y ∣ 2 ^ sz := by
  have hnn := Int.emod_nonneg x (show y ≠ 0 by omega)
  have hlt := Int.emod_lt_of_pos x (show 0 < y by omega)
  rw [unsigned_of_pattern ⟨hnn, by omega⟩]
  rcases lt_or_ge x (2 ^ sz - y) with hlt' | hge
  · rw [Int.emod_eq_of_lt hx (show x < -y + 2 ^ sz by omega)]
    constructor
    · intro h
      omega
    · rintro (h | h)
      · exact Int.emod_eq_of_lt hx h
      · omega
  · have hword : x % (-y + 2 ^ sz) = x - (2 ^ sz - y) := by
      rw [← Int.sub_emod_right, Int.emod_eq_of_lt (by omega) (by omega)]
      ring
    rw [hword]
    constructor
    · intro h
      refine Or.inr ⟨hge, ?_⟩
      have hdvd : y ∣ x - x % y := Int.dvd_self_sub_emod
      have hsum : (2 : ℤ) ^ sz = x - x % y + y := by omega
      rw [hsum]
      exact dvd_add hdvd dvd_rfl
    · rintro (h | ⟨-, h⟩)
      · omega
      · have hdvd : y ∣ 2 ^ sz - y := dvd_sub h dvd_rfl
        have hmod : x % y = (x - (2 ^ sz - y)) % y := (Int.emod_emod_of_dvd _ dvd_rfl ▸ by
          rw [Int.sub_emod, Int.emod_eq_zero_of_dvd hdvd, sub_zero])
        rw [hmod, Int.emod_eq_of_lt (by omega) (by omega)]

theorem remAgrees_left (hx : 0 < x) (hx' : 2 * x ≤ 2 ^ sz) (hy : 2 ≤ y) (hy' : y < 2 ^ sz) :
    unsigned sz (-(x % y)) = (-x + 2 ^ sz) % y ↔
      2 ^ sz - x < y ∨ y ∣ x ∧ y ∣ 2 ^ sz := by
  have hlt' := Int.emod_lt_of_pos (-x + 2 ^ sz) (show 0 < y by omega)
  by_cases hdvd : y ∣ x
  · rw [Int.emod_eq_zero_of_dvd hdvd, neg_zero, unsigned_zero]
    have hle := Int.le_of_dvd hx hdvd
    have hiff : y ∣ -x + 2 ^ sz ↔ y ∣ 2 ^ sz := (Int.dvd_add_right (Int.dvd_neg.2 hdvd))
    rw [eq_comm, ← Int.dvd_iff_emod_eq_zero, hiff]
    constructor
    · intro h
      exact Or.inr ⟨hdvd, h⟩
    · rintro (h | h)
      · omega
      · exact h.2
  · have hpos : x % y ≠ 0 := fun h => hdvd (Int.dvd_of_emod_eq_zero h)
    have hself := emod_le_self hx.le (show 0 < y by omega)
    rw [unsigned_neg_pos (by omega) (by omega)]
    constructor
    · intro h
      exact Or.inl (by omega)
    · rintro (h | h)
      · rw [Int.emod_eq_of_lt hx.le (by omega), Int.emod_eq_of_lt (by omega) (by omega)]
        ring
      · exact absurd h.1 hdvd

theorem remAgrees_both (hx : 0 < x) (hx' : 2 * x ≤ 2 ^ sz) (hy : 1 ≤ y) (hy' : 2 * y ≤ 2 ^ sz) :
    unsigned sz (-(x % y)) = (-x + 2 ^ sz) % (-y + 2 ^ sz) ↔ x = y := by
  have hnn := Int.emod_nonneg x (show y ≠ 0 by omega)
  have hlt := Int.emod_lt_of_pos x (show 0 < y by omega)
  rcases lt_trichotomy x y with hxy | rfl | hxy
  · have hword : (-x + 2 ^ sz) % (-y + 2 ^ sz) = y - x := by
      rw [← Int.sub_emod_right, Int.emod_eq_of_lt (by omega) (by omega)]
      ring
    rw [Int.emod_eq_of_lt hx.le hxy, unsigned_neg_pos hx (by omega)]
    omega
  · rw [Int.emod_self, Int.emod_self]
    exact iff_of_true rfl rfl
  · rw [Int.emod_eq_of_lt (show 0 ≤ -x + 2 ^ sz by omega) (by omega)]
    by_cases hzero : x % y = 0
    · rw [hzero, neg_zero, unsigned_zero]
      omega
    · rw [unsigned_neg_pos (by omega) (by omega)]
      omega

/-- **The remainder of two literals**, of which one may be negative. -/
theorem remAgrees_iff (hsz : 0 < sz) (hi : Literal sz i) (hj : Literal sz j) (hzero : j ≠ 0)
    (hone : j ≠ 1) : unsigned sz (i.tmod j) = unsigned sz i % unsigned sz j ↔ RemAgrees sz i j := by
  have hi' := hi.neg_bounds hsz
  have hj' := hj.neg_bounds hsz
  have hilt := hi.2
  have hjlt := hj.2
  unfold RemAgrees
  rcases le_or_gt 0 i with hi0 | hi0 <;> rcases le_or_gt 0 j with hj0 | hj0
  · rw [unsigned_of_nonneg hi hi0, unsigned_of_nonneg hj hj0, Int.tmod_eq_emod_of_nonneg hi0]
    have hle := emod_le_self hi0 (show 0 < j by omega)
    refine iff_of_true (unsigned_of_pattern ⟨Int.emod_nonneg i hzero, ?_⟩) (Or.inl ⟨hi0, hj0⟩)
    exact hle.trans_lt hilt
  · obtain ⟨y, rfl⟩ : ∃ y, j = -y := ⟨-j, by omega⟩
    rw [unsigned_of_nonneg hi hi0, unsigned_of_neg hj'.2 hj0, Int.tmod_neg,
      Int.tmod_eq_emod_of_nonneg hi0, remAgrees_right hi0 hilt (by omega) (by omega)]
    simp only [Int.neg_dvd]
    constructor
    · rintro (h | ⟨h, hdvd⟩)
      · exact Or.inr (Or.inr (Or.inl ⟨hi0, hj0, Or.inl (by omega)⟩))
      · exact Or.inr (Or.inr (Or.inl ⟨hi0, hj0, Or.inr ⟨by omega, hdvd⟩⟩))
    · rintro (h | h | ⟨-, -, h | ⟨h, hdvd⟩⟩ | h)
      · omega
      · omega
      · exact Or.inl (by omega)
      · exact Or.inr ⟨by omega, hdvd⟩
      · omega
  · obtain ⟨x, rfl⟩ : ∃ x, i = -x := ⟨-i, by omega⟩
    rw [unsigned_of_neg hi'.2 hi0, unsigned_of_nonneg hj hj0, Int.neg_tmod,
      Int.tmod_eq_emod_of_nonneg (by omega),
      remAgrees_left (by omega) (by omega) (by omega) hjlt, Int.dvd_neg]
    constructor
    · rintro (h | h)
      · exact Or.inr (Or.inl ⟨hi0, by omega, Or.inl (by omega)⟩)
      · exact Or.inr (Or.inl ⟨hi0, by omega, Or.inr h⟩)
    · rintro (h | ⟨-, -, h | h⟩ | h | h)
      · omega
      · exact Or.inl (by omega)
      · exact Or.inr h
      · omega
      · omega
  · obtain ⟨x, rfl⟩ : ∃ x, i = -x := ⟨-i, by omega⟩
    obtain ⟨y, rfl⟩ : ∃ y, j = -y := ⟨-j, by omega⟩
    rw [unsigned_of_neg hi'.2 hi0, unsigned_of_neg hj'.2 hj0, Int.neg_tmod, Int.tmod_neg,
      Int.tmod_eq_emod_of_nonneg (by omega),
      remAgrees_both (by omega) (by omega) (by omega) (by omega)]
    omega

/-! ### Division -/

theorem faithful_iff {r : Result} {d : ℤ} (hexec : exec ρ p args = some d) :
    Faithful ρ p args (.ok r) ↔ r.computes ρ p args = some d := by
  constructor
  · intro h
    exact h r rfl d hexec
  · intro h r' hr d' hd
    cases hr
    rw [h, ← hexec, hd]

theorem faithful_fold_iff {d : ℤ} {ty : IntTy}
    (hexec : exec ρ (.pureArith oper (kindOf b sz)) args = some d) :
    Faithful ρ (.pureArith oper (kindOf b sz)) args (.ok (.val (.num ⟨x, ty⟩))) ↔
      unsigned sz x = d := by
  rw [faithful_iff hexec]
  cases b <;> exact Option.some_inj

theorem unsigned_neg_signed (x : ℤ) : unsigned sz (-signed sz x) = unsigned sz (-x) := by
  have h := unsigned_signed (le_refl sz) x
  exact (Int.neg_modEq_neg.2 (show signed sz x ≡ x [ZMOD 2 ^ sz] from h))

theorem signed_one (hsz : 0 < sz) : signed sz 1 = 1 ∨ sz = 1 := by
  rcases Nat.lt_or_ge 1 sz with h | h
  · refine Or.inl (signed_of_pattern_lt (m := 1) ⟨by decide, by decide⟩ h)
  · exact Or.inr (by omega)

theorem pattern_one_cases (h : Pattern 1 a) : a = 0 ∨ a = 1 := by
  have h0 := h.1
  have h1 := h.2
  omega

theorem execSized_quot_one (hsz : 0 < sz) (ha : Pattern sz a) :
    execSized .quot b sz [a, 1] = some a := by
  cases b with
  | false => simp [execSized_quot_unsigned]
  | true =>
    rcases signed_one hsz with h | rfl
    · simp only [execSized_quot_signed, h, Int.tdiv_one, one_ne_zero, if_false]
      rw [unsigned_signed le_rfl, unsigned_of_pattern ha]
    · rcases pattern_one_cases ha with rfl | rfl <;> decide

theorem signed_minus_one (hsz : 0 < sz) : signed sz (unsigned sz (-1)) = -1 := by
  have hp := pow_pos' (sz - 1)
  rw [signed_emod, signed_of_bounds hsz (by omega) (by omega)]

theorem execSized_quot_minus_one (hsz : 0 < sz) :
    execSized .quot true sz [a, unsigned sz (-1)] = some (unsigned sz (-a)) := by
  have hne : unsigned sz (-1) ≠ 0 := by
    have hp := pow_pos' sz
    rw [unsigned_of_neg (by omega) (by decide)]
    have := two_pow_eq_double hsz
    omega
  rw [execSized_quot_signed, if_neg hne, signed_minus_one hsz, Int.tdiv_neg, Int.tdiv_one,
    unsigned_neg_signed]

theorem unsigned_neg_eq_quot_iff (hsz : 0 < sz) (ha : Pattern sz a) :
    unsigned sz (-a) = a / (2 ^ sz - 1) ↔ ¬(0 < a ∧ a < 2 ^ sz - 1) := by
  have ha0 := ha.1
  have ha1 := ha.2
  rcases ha0.eq_or_lt with rfl | hpos
  · rw [Int.zero_ediv]
    exact iff_of_true rfl (by omega)
  · rw [unsigned_neg_pos hpos (by omega)]
    rcases eq_or_ne a (2 ^ sz - 1) with rfl | hne
    · rw [Int.ediv_self (by omega)]
      omega
    · rw [Int.ediv_eq_zero_of_lt ha0 (by omega)]
      omega

theorem unsigned_ne_zero (hsz : 0 < sz) (hj : Literal sz j) (hne : j ≠ 0) : unsigned sz j ≠ 0 := by
  have hneg := hj.neg_bounds hsz
  rcases le_or_gt 0 j with h | h
  · rw [unsigned_of_nonneg hj h]
    exact hne
  · have := pow_pos' sz
    rw [unsigned_of_neg hneg.2 h]
    omega

theorem exec_neg (b : Bool) (v : Value) :
    exec ρ (.pureArith .neg (kindOf b sz)) [v] = some (unsigned sz (-value ρ sz v)) := by
  cases b <;> rfl

theorem exec_rshiftl (hk : k < sz) (hsz : sz < 2 ^ (Target.defaultIntSz - 1)) (v : Value) :
    exec ρ (rshiftl sz) [v, tagInt k] = some (value ρ sz v / 2 ^ k) := by
  change execSized .rshiftl false sz [value ρ sz v, value ρ Target.defaultIntSz (tagInt k)] = _
  rw [value_tagInt hk hsz, execSized_rshiftl, if_pos (by exact_mod_cast hk), Int.toNat_natCast]

theorem quot_faithful_iff (h : WellFormed ρ (.pureArith .quot kind) args) :
    Faithful ρ (.pureArith .quot kind) args (quot kind args) ↔
      ¬Misfolded ρ (.pureArith .quot kind) args := by
  unfold quot
  split
  case h_1 v ty rest =>
    obtain rfl := h.rest_eq_nil fun _ => rfl
    obtain ⟨b, sz, rfl⟩ := h.exists_kind
    have hb := h.binary b rfl
    have hexec := hb.exec
    rw [value_num, unsigned_one hb.pos, execSized_quot_one hb.pos (pattern_value hb.left)] at hexec
    refine iff_of_true ((faithful_iff hexec).2 ?_) ?_
    · cases b <;> rfl
    · cases b with
      | true => exact id
      | false => simp [kindOf, Misfolded.eq_def]
  case h_2 v ty rest =>
    obtain rfl := h.rest_eq_nil fun _ => rfl
    obtain ⟨b, sz, rfl⟩ := h.exists_kind
    have hb := h.binary b rfl
    have hexec := hb.exec
    rw [value_num] at hexec
    cases b with
    | true =>
      rw [execSized_quot_minus_one hb.pos] at hexec
      exact iff_of_true ((faithful_iff hexec).2 (exec_neg true v)) id
    | false =>
      -- the greatest word is no negative number
      have hmax : unsigned sz (-1) = 2 ^ sz - 1 := by
        rw [unsigned_neg_pos (by decide) (by have := pow_pos' sz; omega)]
      have hne : unsigned sz (-1) ≠ 0 := unsigned_ne_zero hb.pos hb.right (by decide)
      rw [execSized_quot_unsigned, if_neg hne, hmax] at hexec
      rw [faithful_iff hexec, Result.computes, exec_neg, Option.some_inj,
        unsigned_neg_eq_quot_iff hb.pos (pattern_value hb.left)]
      simp [kindOf, Misfolded.eq_def]
  case h_3 v ty rest =>
    obtain rfl := h.rest_eq_nil fun _ => rfl
    refine iff_of_true faithful_none ?_
    obtain ⟨b, sz, rfl⟩ := h.exists_kind
    cases b with
    | true => exact id
    | false => simp [kindOf, Misfolded.eq_def]
  case h_4 sz i j rest hone hminus hzero =>
    obtain rfl := h.rest_eq_nil fun _ => rfl
    have hb := h.binary false rfl
    have hone' : j.ival ≠ 1 := fun h => hone j.ty (by rw [← h])
    have hminus' : j.ival ≠ -1 := fun h => hminus j.ty (by rw [← h])
    have hzero' : j.ival ≠ 0 := fun h => hzero j.ty (by rw [← h])
    have hexec := hb.exec
    rw [value_num, value_num, execSized_quot_unsigned,
      if_neg (unsigned_ne_zero hb.pos hb.right hzero')] at hexec
    rw [ConstArith.uDiv, if_neg hzero']
    refine (faithful_fold_iff (b := false) hexec).trans ?_
    rw [uNarrow_eq, unsigned_idem, quotAgrees_iff hb.pos hb.left hb.right hzero' hone' hminus']
    simp [Misfolded.eq_def, hone', hminus', hzero']
  case h_5 sz v j rest hone hminus hzero hv =>
    obtain rfl := h.rest_eq_nil fun _ => rfl
    split
    · next k hk =>
      have hb := h.binary false rfl
      have hminus' : j.ival ≠ -1 := fun h => hminus j.ty (by rw [← h])
      have hlt := exponent_lt hk hb.right
      have hexec := hb.exec
      have hpow := pow_pos' k
      rw [value_num, exponent_eq hk, unsigned_of_pattern ⟨hpow.le, exponent_eq hk ▸ hb.right.2⟩,
        execSized_quot_unsigned, if_neg hpow.ne'] at hexec
      refine iff_of_true ((faithful_iff hexec).2 (exec_rshiftl hlt hb.lt v)) ?_
      rintro (⟨hj, -⟩ | ⟨-, -, -, i, hi, -⟩)
      · exact hminus' hj
      · exact hv i hi
    · next hk =>
      refine iff_of_true faithful_none ?_
      rintro (⟨hj, -⟩ | ⟨-, -, -, i, hi, -⟩)
      · exact hminus j.ty (by rw [← hj])
      · exact hv i hi
  case h_6 hone hminus hzero hnum hv =>
    refine iff_of_true faithful_none ?_
    obtain ⟨v, w, rfl⟩ := h.exists_pair fun _ => rfl
    cases kind with
    | uint sz =>
      cases w with
      | num j => exact (hv _ _ _ _ rfl rfl).elim
      | _ => exact id
    | _ => exact id

theorem execSized_rem_one (hsz : 0 < sz) (ha : Pattern sz a) :
    execSized .rem b sz [a, 1] = some 0 := by
  cases b with
  | false => simp [execSized_rem_unsigned]
  | true =>
    rcases signed_one hsz with h | rfl
    · simp [execSized_rem_signed, h, unsigned_zero]
    · rcases pattern_one_cases ha with rfl | rfl <;> decide

theorem exec_andb_mask (hk : k < sz) (hj : j = 2 ^ k) (v : Value) :
    exec ρ (andb sz) [v, mkNum sz (j - 1)] = some (value ρ sz v % 2 ^ k) := by
  have hpow := pow_pos' k
  have hle := two_pow_le hk.le
  have hmask : value ρ sz (mkNum sz (j - 1)) = 2 ^ k - 1 := by
    have hnum : value ρ sz (mkNum sz (j - 1)) = unsigned sz (j - 1) := by
      unfold mkNum
      split <;> rfl
    rw [hnum, hj]
    exact unsigned_of_pattern ⟨by omega, by omega⟩
  change execSized .andb false sz [value ρ sz v, value ρ sz (mkNum sz (j - 1))] = _
  rw [hmask, execSized_andb, land_two_pow_sub_one]
  rw [unsigned_of_pattern ⟨Int.emod_nonneg _ hpow.ne', by omega⟩]

theorem rem_faithful_iff (h : WellFormed ρ (.pureArith .rem kind) args) :
    Faithful ρ (.pureArith .rem kind) args (rem kind args) ↔
      ¬Misfolded ρ (.pureArith .rem kind) args := by
  unfold rem
  split
  case h_1 v ty rest =>
    obtain rfl := h.rest_eq_nil fun _ => rfl
    obtain ⟨b, sz, rfl⟩ := h.exists_kind
    have hb := h.binary b rfl
    have hexec := hb.exec
    rw [value_num, unsigned_one hb.pos, execSized_rem_one hb.pos (pattern_value hb.left)] at hexec
    refine iff_of_true ((faithful_fold_iff hexec).2 (unsigned_zero sz)) ?_
    cases b with
    | true => exact id
    | false =>
      cases v with
      | num i => simp [kindOf, Misfolded.eq_def]
      | _ => exact id
  case h_2 v ty rest =>
    obtain rfl := h.rest_eq_nil fun _ => rfl
    refine iff_of_true faithful_none ?_
    obtain ⟨b, sz, rfl⟩ := h.exists_kind
    cases b with
    | true => exact id
    | false =>
      cases v with
      | num i => simp [kindOf, Misfolded.eq_def]
      | _ => exact id
  case h_3 sz i j rest hone hzero =>
    obtain rfl := h.rest_eq_nil fun _ => rfl
    have hb := h.binary false rfl
    have hone' : j.ival ≠ 1 := fun h => hone j.ty (by rw [← h])
    have hzero' : j.ival ≠ 0 := fun h => hzero j.ty (by rw [← h])
    have hexec := hb.exec
    rw [value_num, value_num, execSized_rem_unsigned,
      if_neg (unsigned_ne_zero hb.pos hb.right hzero')] at hexec
    rw [ConstArith.uMod, if_neg hzero']
    refine (faithful_fold_iff (b := false) hexec).trans ?_
    rw [uNarrow_eq, unsigned_idem, remAgrees_iff hb.pos hb.left hb.right hzero' hone']
    simp [Misfolded.eq_def, hone', hzero']
  case h_4 sz v j rest hone hzero hv =>
    split
    · next k hk =>
      split
      · next hlt =>
        obtain rfl := h.rest_eq_nil fun _ => rfl
        have hb := h.binary false rfl
        have hexec := hb.exec
        have hpow := pow_pos' k
        rw [value_num, exponent_eq hk, unsigned_of_pattern ⟨hpow.le, exponent_eq hk ▸ hb.right.2⟩,
          execSized_rem_unsigned, if_neg hpow.ne'] at hexec
        refine iff_of_true ((faithful_iff hexec).2 (exec_andb_mask hlt (exponent_eq hk) v)) ?_
        cases v with
        | num i => exact (hv i rfl).elim
        | _ => exact id
      · refine iff_of_true faithful_none ?_
        cases v with
        | num i => exact (hv i rfl).elim
        | _ => exact id
    · refine iff_of_true faithful_none ?_
      cases v with
      | num i => exact (hv i rfl).elim
      | _ => exact id
  case h_5 hone hzero hnum hv =>
    refine iff_of_true faithful_none ?_
    obtain ⟨v, w, rfl⟩ := h.exists_pair fun _ => rfl
    cases kind with
    | uint sz =>
      cases w with
      | num j => exact (hv _ _ _ _ rfl rfl).elim
      | _ => cases v <;> exact id
    | _ => exact id

end

end SmlNj.ContractPrim
