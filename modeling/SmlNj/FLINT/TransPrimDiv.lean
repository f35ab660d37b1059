import SmlNj.FLINT.TransPrim
import SmlNj.Lib.FloorDivision

/-!
# The expansion of the division operators is right but for one divisor of words

The test for a divisor of minus one compares bits, also for words.  There the bits are those of the
greatest word that a register holds, for which the quotient is not the negation of the dividend, nor
the remainder zero.

## Main definitions

* `InRange` — the numbers of a kind.
* `basis` — what a division operator of the Basis library has to yield.
* `Misdivided` — the operands for which the expansion is wrong.

## Main results

* `apply_inldiv`, `apply_inlmod` — what the expanded code does.
* `divide_correct_iff` — when the operators yield what they have to yield.
-/

namespace SmlNj.TransPrim

open CPS hiding Value Env
open PLambda FloorDivision

/-! ### Registers -/

def InRange : P.NumKind → ℤ → Prop
  | .int sz, i => 0 < sz ∧ -2 ^ (sz - 1) ≤ i ∧ i < 2 ^ (sz - 1)
  | .uint sz, i => 0 ≤ i ∧ i < 2 ^ sz
  | _, _ => False

instance : (k : P.NumKind) → (i : ℤ) → Decidable (InRange k i)
  | .int sz, i => inferInstanceAs (Decidable (0 < sz ∧ -2 ^ (sz - 1) ≤ i ∧ i < 2 ^ (sz - 1)))
  | .uint sz, i => inferInstanceAs (Decidable (0 ≤ i ∧ i < 2 ^ sz))
  | .float _, _ | .enum, _ => inferInstanceAs (Decidable False)

theorem le_regSz (sz : ℕ) : sz ≤ regSz sz := by
  unfold regSz
  split_ifs with h
  · exact h
  · exact le_rfl

theorem regSz_pos (sz : ℕ) : 0 < regSz sz := by
  unfold regSz
  split_ifs with h
  · decide
  · exact Nat.zero_lt_of_lt (not_le.1 h)

theorem two_pow_le_regSz (sz : ℕ) : (2 : ℤ) ^ (sz - 1) ≤ 2 ^ (regSz sz - 1) :=
  pow_le_pow_right₀ (by norm_num) (Nat.sub_le_sub_right (le_regSz sz) 1)

variable {w sz : ℕ} {i y x : ℤ} {ρ : Env} {k : P.NumKind} {ops : InlineOps} {p : InlineOp}

theorem two_pow_pred (hw : 0 < w) : (2 : ℤ) ^ w = 2 * 2 ^ (w - 1) := by
  obtain ⟨n, rfl⟩ := Nat.exists_eq_succ_of_ne_zero hw.ne'
  rw [pow_succ', Nat.succ_sub_one]

theorem encode_of_nonneg (h : 0 ≤ i) (h' : i < 2 ^ w) : (encode w i : ℤ) = i := by
  rw [encode, Int.emod_eq_of_lt h h', Int.toNat_of_nonneg h]

theorem encode_of_neg (h : i < 0) (h' : -2 ^ w ≤ i) : (encode w i : ℤ) = i + 2 ^ w := by
  rw [encode, ← Int.add_emod_right, Int.emod_eq_of_lt (by omega) (by omega),
    Int.toNat_of_nonneg (by omega)]

/-- **A register holds an integer.** -/
theorem signed_encode (hw : 0 < w) (h : -2 ^ (w - 1) ≤ i) (h' : i < 2 ^ (w - 1)) :
    signed w (encode w i) = i := by
  have hpow := two_pow_pred hw
  unfold signed
  zify
  by_cases hneg : i < 0
  · rw [encode_of_neg hneg (by omega)]
    omega
  · rw [encode_of_nonneg (by omega) (by omega), if_pos h']

theorem signed_encode_of_inRange (h : InRange (.int sz) i) :
    signed (regSz sz) (encode (regSz sz) i) = i := by
  have hle := two_pow_le_regSz sz
  obtain ⟨-, hlow, hhigh⟩ := h
  exact signed_encode (regSz_pos sz) (by omega) (by omega)

theorem encode_of_inRange (h : InRange (.uint sz) i) : (encode (regSz sz) i : ℤ) = i := by
  have hle : (2 : ℤ) ^ sz ≤ 2 ^ regSz sz := pow_le_pow_right₀ (by norm_num) (le_regSz sz)
  obtain ⟨hlow, hhigh⟩ := h
  exact encode_of_nonneg hlow (by omega)

theorem checked_of_inRange (h : -2 ^ (sz - 1) ≤ i) (h' : i < 2 ^ (sz - 1)) :
    checked (regSz sz) i = .ok (.num (encode (regSz sz) i)) := by
  have hle := two_pow_le_regSz sz
  exact if_pos ⟨by omega, by omega⟩

/-! ### The tests -/

def IsNegOne : P.NumKind → ℤ → Prop
  | .uint sz, i => i = 2 ^ regSz sz - 1
  | _, i => i = -1

instance : (k : P.NumKind) → (i : ℤ) → Decidable (IsNegOne k i)
  | .uint sz, i => inferInstanceAs (Decidable (i = 2 ^ regSz sz - 1))
  | .int _, i | .float _, i | .enum, i => inferInstanceAs (Decidable (i = -1))

def sizeOf : P.NumKind → ℕ
  | .int sz | .uint sz | .float sz => sz
  | .enum => 0

def reg (k : P.NumKind) (i : ℤ) : ℕ := encode (regSz (sizeOf k)) i

theorem eval_equal_int {x : Lvar} (hy : InRange (.int sz) y) (hi : InRange (.int sz) i)
    (hρ : ρ x = some (.num (reg (.int sz) y))) :
    eval ρ (mkApp2 (pCMP .eql (.int sz)) (.var x) (.int ⟨i, sz⟩)) = .ok (.bool (y = i)) := by
  have hbool : eval ρ (mkApp2 (pCMP .eql (.int sz)) (.var x) (.int ⟨i, sz⟩)) =
      .ok (.bool (signed (regSz sz) (reg (.int sz) y) =
        signed (regSz sz) (encode (regSz sz) i))) := by
    simp only [mkApp2, pCMP, eval, evalFields, hρ]
    rfl
  rw [hbool, reg, sizeOf, signed_encode_of_inRange hy, signed_encode_of_inRange hi]

theorem eval_equal_uint {x : Lvar} (hρ : ρ x = some (.num (reg (.uint sz) y))) :
    eval ρ (mkApp2 (pCMP .eql (.uint sz)) (.var x) (.word ⟨i, sz⟩)) =
      .ok (.bool ((encode (regSz sz) y : ℤ) = encode (regSz sz) i)) := by
  simp only [mkApp2, pCMP, eval, evalFields, hρ]
  rfl

theorem eval_cond {a b c : Lexp} {p : Prop} [Decidable p] (h : eval ρ a = .ok (.bool (decide p))) :
    eval ρ (mkCOND a b c) = if p then eval ρ b else eval ρ c := by
  rw [mkCOND, eval, h]
  by_cases hp : p
  · rw [if_pos hp, decide_eq_true hp]
    rfl
  · rw [if_neg hp, decide_eq_false hp]
    rfl

/-- **The tests of a divisor.** -/
theorem eval_tests (hops : mkInlineOps k = .ok ops) {x : Lvar} (hy : InRange k y)
    (hρ : ρ x = some (.num (reg k y))) (e e' : Lexp) :
    eval ρ (mkCOND (mkApp2 ops.equal (.var x) ops.zero) (.raise (.exn divExn))
      (mkCOND (mkApp2 ops.equal (.var x) ops.negOne) e e')) =
        if y = 0 then .error (.raised divExn) else if IsNegOne k y then eval ρ e else eval ρ e' := by
  have hraise : eval ρ (.raise (.exn divExn)) = .error (.raised divExn) := rfl
  cases k with
  | int sz =>
    obtain rfl := Except.ok.inj hops
    have hpos : (0 : ℤ) < 2 ^ (sz - 1) := by positivity
    rw [eval_cond (eval_equal_int hy ⟨hy.1, by omega, hpos⟩ hρ),
      eval_cond (eval_equal_int hy ⟨hy.1, by omega, by omega⟩ hρ)]
    rfl
  | uint sz =>
    obtain rfl := Except.ok.inj hops
    have hpos : (0 : ℤ) < 2 ^ regSz sz := by positivity
    have hone : (encode (regSz sz) (-1) : ℤ) = 2 ^ regSz sz - 1 := by
      rw [encode_of_neg (by decide) (by omega)]
      ring
    rw [eval_cond (eval_equal_uint hρ), eval_cond (eval_equal_uint hρ), hone,
      encode_of_inRange hy]
    rfl
  | float sz => exact hy.elim
  | enum => exact hy.elim

theorem apply_eq {body : Lexp} {n : Lvar}
    (hrun : (trans coreExn p).run 1 = .ok (.fn 1 (.letE 2 (.select 1 (.var 1)) body), n))
    (x y : ℕ) :
    apply p x y = eval (((Env.bind (fun _ => none) 0 (.record [.num x, .num y])).bind 1
      (.record [.num x, .num y])).bind 2 (.num y)) body := by
  rw [apply, hrun]
  rfl

/-- **A division operator**: the test for minus one comes before the division. -/
theorem apply_inldiv {po neg : Prim} (htrans : trans coreExn p = inldiv coreExn k po)
    (hops : mkInlineOps k = .ok ops) (hneg : ops.negate = .prim neg) (hy : InRange k y) :
    apply p (reg k x) (reg k y) =
      if y = 0 then .error (.raised divExn)
      else if IsNegOne k y then evalPrim neg (.num (reg k x))
      else evalPrim po (.record [.num (reg k x), .num (reg k y)]) := by
  have hrun : (trans coreExn p).run 1 = .ok (.fn 1 (.letE 2 (.select 1 (.var 1))
      (mkCOND (mkApp2 ops.equal (.var 2) ops.zero) (.raise (.exn divExn))
        (mkCOND (mkApp2 ops.equal (.var 2) ops.negOne) (.app ops.negate (.select 0 (.var 1)))
          (.app (.prim po) (.var 1))))), 3) := by
    rw [htrans]
    simp only [inldiv, hops]
    rfl
  rw [apply_eq hrun, eval_tests hops hy rfl, hneg]
  rfl

/-- **A modulo operator**: the remainder for minus one is zero. -/
theorem apply_inlmod {po : Prim} (htrans : trans coreExn p = inlmod coreExn k po)
    (hops : mkInlineOps k = .ok ops) (hy : InRange k y) :
    apply p (reg k x) (reg k y) =
      if y = 0 then .error (.raised divExn)
      else if IsNegOne k y then .ok (.num (reg k 0))
      else evalPrim po (.record [.num (reg k x), .num (reg k y)]) := by
  have hrun : (trans coreExn p).run 1 = .ok (.fn 1 (.letE 2 (.select 1 (.var 1))
      (mkCOND (mkApp2 ops.equal (.var 2) ops.zero) (.raise (.exn divExn))
        (mkCOND (mkApp2 ops.equal (.var 2) ops.negOne) ops.zero
          (.app (.prim po) (.var 1))))), 3) := by
    rw [htrans]
    simp only [inlmod, hops]
    rfl
  have hzero : ∀ ρ, eval ρ ops.zero = .ok (.num (reg k 0)) := by
    intro ρ
    cases k with
    | int sz =>
      obtain rfl := Except.ok.inj hops
      rfl
    | uint sz =>
      obtain rfl := Except.ok.inj hops
      rfl
    | float sz => exact hy.elim
    | enum => exact hy.elim
  rw [apply_eq hrun, eval_tests hops hy rfl, hzero]
  rfl

/-! ### Integers -/

/-- What a division operator of the Basis library has to yield. -/
@[grind =] def basis : InlineOp → ℤ → ℤ → Except Fault Value
  | .div (.int sz), x, y =>
    if y = 0 then .error (.raised divExn)
    else if x = -2 ^ (sz - 1) ∧ y = -1 then .error (.raised overflowExn)
    else .ok (.num (reg (.int sz) (x.fdiv y)))
  | .mod (.int sz), x, y =>
    if y = 0 then .error (.raised divExn) else .ok (.num (reg (.int sz) (x.fmod y)))
  | .quot (.int sz), x, y =>
    if y = 0 then .error (.raised divExn)
    else if x = -2 ^ (sz - 1) ∧ y = -1 then .error (.raised overflowExn)
    else .ok (.num (reg (.int sz) (x.tdiv y)))
  | .rem (.int sz), x, y =>
    if y = 0 then .error (.raised divExn) else .ok (.num (reg (.int sz) (x.tmod y)))
  | .quot (.uint sz), x, y =>
    if y = 0 then .error (.raised divExn) else .ok (.num (reg (.uint sz) (x / y)))
  | .rem (.uint sz), x, y =>
    if y = 0 then .error (.raised divExn) else .ok (.num (reg (.uint sz) (x % y)))
  | _, _, _ => .error .stuck

def operators : P.NumKind → List InlineOp
  | .int sz => [.div (.int sz), .mod (.int sz), .quot (.int sz), .rem (.int sz)]
  | .uint sz => [.quot (.uint sz), .rem (.uint sz)]
  | _ => []

/-- The operands for which the expansion is wrong: the divisor is the greatest word of a register,
and the dividend is neither zero nor that word. -/
def Misdivided : P.NumKind → ℤ → ℤ → Prop
  | .uint sz, x, y => y = 2 ^ regSz sz - 1 ∧ 0 < x ∧ x < y
  | _, _, _ => False

theorem evalPrim_arith (oper : P.ArithOp) (hx : InRange (.int sz) x) (hy : InRange (.int sz) y) :
    evalPrim (.arith oper sz) (.record [.num (reg (.int sz) x), .num (reg (.int sz) y)]) =
      evalArith (regSz sz) oper [x, y] := by
  simp only [evalPrim, operands, List.map_cons, List.map_nil, reg, sizeOf]
  rw [signed_encode_of_inRange hx, signed_encode_of_inRange hy]

theorem evalPrim_ineg (hx : InRange (.int sz) x) :
    evalPrim (.arith .ineg sz) (.num (reg (.int sz) x)) = checked (regSz sz) (-x) := by
  simp only [evalPrim, operands, List.map_cons, List.map_nil, reg, sizeOf]
  rw [signed_encode_of_inRange hx, evalArith]

theorem i32chk_of_inRange (h : InRange (.int sz) i) :
    i32chk sz (.ok (.num (reg (.int sz) i))) = .ok (.num (reg (.int sz) i)) := by
  have hsigned : signed (regSz sz) (reg (.int sz) i) = i := signed_encode_of_inRange h
  obtain ⟨-, hlow, hhigh⟩ := h
  change (if _ then _ else _) = _
  rw [if_neg (by omega)]

theorem checkedResult_error (sz : ℕ) (fault : Fault) :
    checkedResult sz (.error fault) = .error fault := by
  unfold checkedResult
  split_ifs <;> rfl

theorem checkedResult_of_inRange (hsz : 0 < sz) (h : -2 ^ (sz - 1) ≤ i) (h' : i < 2 ^ (sz - 1)) :
    checkedResult sz (checked (regSz sz) i) = .ok (.num (reg (.int sz) i)) := by
  rw [checked_of_inRange h h', checkedResult]
  split_ifs
  · exact i32chk_of_inRange ⟨hsz, h, h'⟩
  · rfl

theorem checkedResult_overflow (hsz : 0 < sz) :
    checkedResult sz (checked (regSz sz) (2 ^ (sz - 1))) = .error (.raised overflowExn) := by
  have hpos : (0 : ℤ) < 2 ^ (sz - 1) := by positivity
  unfold checkedResult
  split_ifs with hlt
  · have hpow : (2 : ℤ) ^ (sz - 1) < 2 ^ (regSz sz - 1) :=
      pow_lt_pow_right₀ (by norm_num) (by omega)
    have hsigned := signed_encode (regSz_pos sz) (i := 2 ^ (sz - 1)) (by omega) hpow
    rw [checked, if_pos ⟨by omega, hpow⟩]
    change (if _ then _ else _) = _
    rw [if_pos (by omega)]
  · rw [show regSz sz = sz from le_antisymm (not_lt.1 hlt) (le_regSz sz), checked,
      if_neg (by omega)]

/-- **A quotient of integers**, with the tests before it and the check after it. -/
theorem quotient_int {oper : P.ArithOp} {f : ℤ → ℤ → ℤ}
    (htrans : trans coreExn p = inldiv coreExn (.int sz) (.arith oper sz))
    (hoper : ∀ i j, j ≠ 0 → evalArith (regSz sz) oper [i, j] = checked (regSz sz) (f i j))
    (hbounds : ∀ {m x y : ℤ}, 0 < m → -m ≤ x → x < m → y ≠ 0 → y ≠ -1 → -m ≤ f x y ∧ f x y < m)
    (hneg : ∀ x, f x (-1) = -x) (hx : InRange (.int sz) x) (hy : InRange (.int sz) y) :
    checkedResult sz (apply p (reg (.int sz) x) (reg (.int sz) y)) =
      if y = 0 then .error (.raised divExn)
      else if x = -2 ^ (sz - 1) ∧ y = -1 then .error (.raised overflowExn)
      else .ok (.num (reg (.int sz) (f x y))) := by
  rw [apply_inldiv htrans rfl rfl hy, evalPrim_ineg hx, evalPrim_arith oper hx hy]
  have hsz := hx.1
  have hlow := hx.2.1
  have hhigh := hx.2.2
  by_cases hzero : y = 0
  · rw [if_pos hzero, if_pos hzero, checkedResult_error]
  rw [if_neg hzero, if_neg hzero]
  by_cases hone : y = -1
  · rw [if_pos (show IsNegOne (.int sz) y from hone), hone, hneg]
    by_cases hmin : x = -2 ^ (sz - 1)
    · rw [if_pos ⟨hmin, rfl⟩, hmin, neg_neg, checkedResult_overflow hsz]
    · rw [if_neg fun h => hmin h.1, checkedResult_of_inRange hsz (by omega) (by omega)]
  · rw [if_neg (show ¬IsNegOne (.int sz) y from hone), if_neg fun h => hone h.2, hoper x y hzero]
    obtain ⟨hf, hf'⟩ := hbounds (by positivity) hlow hhigh hzero hone
    exact checkedResult_of_inRange hsz hf hf'

/-- **A remainder of integers**, with the tests before it. -/
theorem remainder_int {oper : P.ArithOp} {f : ℤ → ℤ → ℤ}
    (htrans : trans coreExn p = inlmod coreExn (.int sz) (.arith oper sz))
    (hoper : ∀ i j, j ≠ 0 → evalArith (regSz sz) oper [i, j] = checked (regSz sz) (f i j))
    (hone : ∀ x, f x (-1) = 0) (hx : InRange (.int sz) x) (hy : InRange (.int sz) y)
    (hbounds : y ≠ 0 → -2 ^ (sz - 1) ≤ f x y ∧ f x y < 2 ^ (sz - 1)) :
    apply p (reg (.int sz) x) (reg (.int sz) y) =
      if y = 0 then .error (.raised divExn) else .ok (.num (reg (.int sz) (f x y))) := by
  rw [apply_inlmod htrans rfl hy, evalPrim_arith oper hx hy]
  by_cases hzero : y = 0
  · rw [if_pos hzero, if_pos hzero]
  rw [if_neg hzero, if_neg hzero]
  by_cases hminus : y = -1
  · rw [if_pos (show IsNegOne (.int sz) y from hminus), hminus, hone]
  · rw [if_neg (show ¬IsNegOne (.int sz) y from hminus), hoper x y hzero]
    obtain ⟨hf, hf'⟩ := hbounds hzero
    exact checked_of_inRange hf hf'

/-! ### Words -/

theorem reg_natCast (h : InRange (.uint sz) i) : (reg (.uint sz) i : ℤ) = i :=
  encode_of_inRange h

theorem reg_inj {j : ℤ} (hi : InRange (.uint sz) i) (hj : InRange (.uint sz) j) :
    reg (.uint sz) i = reg (.uint sz) j ↔ i = j := by
  constructor
  · intro h
    rw [← reg_natCast hi, ← reg_natCast hj, h]
  · rintro rfl
    rfl

theorem inRange_ediv (hx : InRange (.uint sz) x) (hy : InRange (.uint sz) y) :
    InRange (.uint sz) (x / y) :=
  ⟨Int.ediv_nonneg hx.1 hy.1, (Int.ediv_le_self y hx.1).trans_lt hx.2⟩

theorem inRange_emod (x : ℤ) (hy : InRange (.uint sz) y) (hzero : y ≠ 0) :
    InRange (.uint sz) (x % y) :=
  ⟨Int.emod_nonneg x hzero, (Int.emod_lt_of_pos x (lt_of_le_of_ne hy.1 hzero.symm)).trans hy.2⟩

theorem evalPrim_quot (hx : InRange (.uint sz) x) (hy : InRange (.uint sz) y) (hzero : y ≠ 0) :
    evalPrim (.pure .quot (.uint sz)) (.record [.num (reg (.uint sz) x), .num (reg (.uint sz) y)]) =
      .ok (.num (reg (.uint sz) (x / y))) := by
  have hy' := reg_natCast hy
  have hdiv : reg (.uint sz) x / reg (.uint sz) y = reg (.uint sz) (x / y) := by
    zify
    rw [reg_natCast hx, hy', reg_natCast (inRange_ediv hx hy)]
  rw [← hdiv]
  exact if_neg (by omega)

theorem evalPrim_rem (hx : InRange (.uint sz) x) (hy : InRange (.uint sz) y) (hzero : y ≠ 0) :
    evalPrim (.pure .rem (.uint sz)) (.record [.num (reg (.uint sz) x), .num (reg (.uint sz) y)]) =
      .ok (.num (reg (.uint sz) (x % y))) := by
  have hy' := reg_natCast hy
  have hmod : reg (.uint sz) x % reg (.uint sz) y = reg (.uint sz) (x % y) := by
    zify
    rw [reg_natCast hx, hy', reg_natCast (inRange_emod x hy hzero)]
  rw [← hmod]
  exact if_neg (by omega)

theorem result_inj {i j : ℕ} : (Except.ok (.num i) : Except Fault Value) = .ok (.num j) ↔ i = j := by
  constructor
  · intro h
    cases h
    rfl
  · rintro rfl
    rfl

theorem evalPrim_neg_eq_iff (hx : InRange (.uint sz) x) (hy : InRange (.uint sz) y)
    (hmax : y = 2 ^ regSz sz - 1) (hzero : y ≠ 0) :
    evalPrim (.pure .neg (.uint sz)) (.num (reg (.uint sz) x)) =
      .ok (.num (reg (.uint sz) (x / y))) ↔ ¬(0 < x ∧ x < y) := by
  have hle : (2 : ℤ) ^ sz ≤ 2 ^ regSz sz := pow_le_pow_right₀ (by norm_num) (le_regSz sz)
  have hx' := hx.2
  have hnn := hx.1
  refine result_inj.trans ?_
  zify
  rw [reg_natCast hx, reg_natCast (inRange_ediv hx hy)]
  rcases hnn.eq_or_lt with hxzero | hpos
  · rw [← hxzero, Int.zero_ediv]
    exact iff_of_true (encode_of_nonneg le_rfl (by positivity)) (by omega)
  · rw [encode_of_neg (by omega) (by omega)]
    rcases eq_or_ne x y with rfl | hne
    · rw [Int.ediv_self hzero]
      omega
    · rw [Int.ediv_eq_zero_of_lt hnn (by omega)]
      omega

theorem zero_eq_iff (hx : InRange (.uint sz) x) (hy : InRange (.uint sz) y)
    (hmax : y = 2 ^ regSz sz - 1) (hzero : y ≠ 0) :
    (Except.ok (.num (reg (.uint sz) 0)) : Except Fault Value) =
      .ok (.num (reg (.uint sz) (x % y))) ↔ ¬(0 < x ∧ x < y) := by
  have hle : (2 : ℤ) ^ sz ≤ 2 ^ regSz sz := pow_le_pow_right₀ (by norm_num) (le_regSz sz)
  have hx' := hx.2
  have hnn := hx.1
  refine result_inj.trans ((reg_inj ⟨le_rfl, by positivity⟩ (inRange_emod x hy hzero)).trans ?_)
  rcases eq_or_ne x y with rfl | hne
  · rw [Int.emod_self]
    omega
  · rw [Int.emod_eq_of_lt hnn (by omega)]
    omega

/-- **The quotient of words**, with the tests before it. -/
theorem quot_uint_iff (hx : InRange (.uint sz) x) (hy : InRange (.uint sz) y) :
    apply (.quot (.uint sz)) (reg (.uint sz) x) (reg (.uint sz) y) = basis (.quot (.uint sz)) x y ↔
      ¬Misdivided (.uint sz) x y := by
  rw [apply_inldiv rfl rfl rfl hy, basis]
  by_cases hzero : y = 0
  · rw [if_pos hzero, if_pos hzero]
    exact iff_of_true rfl fun h => by have := h.2; omega
  rw [if_neg hzero, if_neg hzero]
  by_cases hmax : y = 2 ^ regSz sz - 1
  · rw [if_pos (show IsNegOne (.uint sz) y from hmax), evalPrim_neg_eq_iff hx hy hmax hzero]
    exact not_congr (and_iff_right hmax).symm
  · rw [if_neg (show ¬IsNegOne (.uint sz) y from hmax), evalPrim_quot hx hy hzero]
    exact iff_of_true rfl fun h => hmax h.1

/-- **The remainder of words**, with the tests before it. -/
theorem rem_uint_iff (hx : InRange (.uint sz) x) (hy : InRange (.uint sz) y) :
    apply (.rem (.uint sz)) (reg (.uint sz) x) (reg (.uint sz) y) = basis (.rem (.uint sz)) x y ↔
      ¬Misdivided (.uint sz) x y := by
  rw [apply_inlmod rfl rfl hy, basis]
  by_cases hzero : y = 0
  · rw [if_pos hzero, if_pos hzero]
    exact iff_of_true rfl fun h => by have := h.2; omega
  rw [if_neg hzero, if_neg hzero]
  by_cases hmax : y = 2 ^ regSz sz - 1
  · rw [if_pos (show IsNegOne (.uint sz) y from hmax), zero_eq_iff hx hy hmax hzero]
    exact not_congr (and_iff_right hmax).symm
  · rw [if_neg (show ¬IsNegOne (.uint sz) y from hmax), evalPrim_rem hx hy hzero]
    exact iff_of_true rfl fun h => hmax h.1

def Correct (k : P.NumKind) (x y : ℤ) : Prop :=
  ∀ p ∈ operators k, divide p (reg k x) (reg k y) = basis p x y

theorem correct_int (hx : InRange (.int sz) x) (hy : InRange (.int sz) y) :
    Correct (.int sz) x y := by
  intro p hp
  simp only [operators, List.mem_cons, List.not_mem_nil, or_false] at hp
  rcases hp with rfl | rfl | rfl | rfl
  · have htrans : trans coreExn (.div (.int sz)) =
      inldiv coreExn (.int sz) (.arith .idiv sz) := rfl
    exact quotient_int (f := Int.fdiv) htrans (fun _ _ h => if_neg h) fdiv_bounds fdiv_neg_one hx hy
  · have htrans : trans coreExn (.mod (.int sz)) =
      inlmod coreExn (.int sz) (.arith .imod sz) := rfl
    exact remainder_int (f := Int.fmod) htrans (fun _ _ h => if_neg h) fmod_neg_one hx hy
      (fmod_bounds hy.2.1 hy.2.2)
  · have htrans : trans coreExn (.quot (.int sz)) =
      inldiv coreExn (.int sz) (.arith .iquot sz) := rfl
    exact quotient_int (f := Int.tdiv) htrans (fun _ _ h => if_neg h) tdiv_bounds tdiv_neg_one hx hy
  · have htrans : trans coreExn (.rem (.int sz)) =
      inlmod coreExn (.int sz) (.arith .irem sz) := rfl
    exact remainder_int (f := Int.tmod) htrans (fun _ _ h => if_neg h) tmod_neg_one hx hy
      fun _ => tmod_bounds hx.2.1 hx.2.2

/-- **The division operators** of integers yield what they have to yield, and so do those of words,
but for the greatest word as a divisor. -/
theorem divide_correct_iff (k : P.NumKind) {x y : ℤ} (hx : InRange k x) (hy : InRange k y) :
    Correct k x y ↔ ¬Misdivided k x y := by
  cases k with
  | int sz => exact iff_of_true (correct_int hx hy) id
  | uint sz =>
    constructor
    · intro h
      exact (quot_uint_iff hx hy).1 (h _ (List.mem_cons_self ..))
    · intro h p hp
      simp only [operators, List.mem_cons, List.not_mem_nil, or_false] at hp
      rcases hp with rfl | rfl
      · exact (quot_uint_iff hx hy).2 h
      · exact (rem_uint_iff hx hy).2 h
  | float sz => exact hy.elim
  | enum => exact hy.elim

/-- The operators on the least integer of 32 bits and minus one. -/
theorem divide_correct_iff_least :
    Correct (.int 32) (-2 ^ 31) (-1) :=
  (divide_correct_iff (.int 32) (by decide) (by decide)).2 id

/-- The quotient of one by the greatest word of 63 bits that is computed as that word. -/
theorem not_divide_correct :
    ¬∀ (k : P.NumKind) (x y : ℤ), InRange k x → InRange k y → Correct k x y := by
  intro h
  have hquot := h (.uint 63) 1 (2 ^ 63 - 1) (by decide) (by decide) _ (List.mem_cons_self ..)
  have hcode : divide (.quot (.uint 63)) (reg (.uint 63) 1) (reg (.uint 63) (2 ^ 63 - 1)) =
      .ok (.num (2 ^ 63 - 1)) := by rfl
  have hspec : basis (.quot (.uint 63)) 1 (2 ^ 63 - 1) = .ok (.num 0) := by rfl
  rw [hcode, hspec, result_inj] at hquot
  exact absurd hquot (by decide)

end SmlNj.TransPrim
