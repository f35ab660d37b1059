import SmlNj.CPS.Execution

/-!
# Lowering checked conversions

The expansion of the conversions `TEST` (of integers) and `TESTU` (of words) to a smaller size.
The argument is compared with the bounds of the target size; where it is out of range, an addition
that overflows is executed.

## Main definitions

* `test`, `testu` — the expansions.

## Main results

* `test_converts`, `testu_converts` — they convert the argument or overflow.
-/

namespace SmlNj.CPS.TestCnv

open LambdaVar TwosComplement
open Num (hasSize_ofInt toInt_ofInt toInt_small toWord_ofInt)

def ity : ℕ := Target.mlValueSz

def tty : ℕ := Target.defaultIntSz

def sLT (sz : ℕ) : P.Branch := .cmp .lt (.int sz)

def uLE (sz : ℕ) : P.Branch := .cmp .lte (.uint sz)

def branch (cmp : P.Branch) (args : List Value) (k1 k2 : Cexp) : Supply Cexp := do
  return .branch cmp args (← mkLvar) k1 k2

def zero (ty : IntTy) : Value := .num ⟨0, ty⟩

/-- Force an overflow trap by adding `2 ^ 63 + 2 ^ 63`. -/
def mkTrap (k : Cexp) : Supply Cexp := do
  let tmp ← mkLvar
  let ty : IntTy := ⟨ity, false⟩
  let n : Value := .num ⟨2 ^ (ity - 1), ty⟩
  return .arith (.iarith .iadd ity) [n, n] tmp (.numt ty) k

def maxToInt (to_ : ℕ) : ℤ := 2 ^ (to_ - 1) - 1

def num (from_ : ℕ) (iv : ℤ) : Value := .num ⟨iv, ⟨from_, from_ < ity⟩⟩

/-- **The expansion of `TEST`.** -/
def test (from_ to_ : ℕ) (args : List Value) (x : Lvar) (ty : Cty) (k : Cexp) : Supply Cexp :=
  match args with
  | [v] =>
    if from_ = ity ∧ to_ = tty then
      -- from native integers to default ones
      return .arith (.test from_ to_) [v] x ty k
    else if from_ = to_ then return .pure (.copy from_ to_) [v] x ty k
    else if from_ ≤ ity ∧ to_ < tty then do
      let toTy : IntTy := ⟨to_, true⟩
      let minToInt := -(maxToInt to_ + 1)
      let trapK ← mkLvar
      let jk ← mkLvar
      let x' ← mkLvar
      let arg ← mkLvar
      let trap ← mkTrap (.app (.var jk) [zero toTy])
      let inner ← branch (sLT from_) [num from_ (maxToInt to_), v]
        (.app (.var trapK) [.enum 0])
        (.arith (.test from_ tty) [v] x' (.numt toTy) (.app (.var jk) [.var x']))
      let body ← branch (sLT from_) [v, num from_ minToInt] (.app (.var trapK) [.enum 0]) inner
      return .fix [.mk .cont jk [x] [.numt toTy] k]
        (.fix [.mk .cont trapK [arg] [.enumt] trap] body)
    else impossible
  | _ => impossible

/-- **The expansion of `TESTU`.** -/
def testu (from_ to_ : ℕ) (args : List Value) (x : Lvar) (ty : Cty) (k : Cexp) : Supply Cexp :=
  match args with
  | [v] =>
    if from_ = to_ ∧ (from_ = ity ∨ from_ = tty) then
      return .arith (.testu from_ to_) [v] x ty k
    else do
      let toTy : IntTy := ⟨to_, true⟩
      let jk ← mkLvar
      let x' ← mkLvar
      let trap ← mkTrap (.app (.var jk) [zero toTy])
      let body ← branch (uLE from_) [v, num from_ (maxToInt to_)]
        (.pure (.trunc from_ to_) [v] x' ty (.app (.var jk) [.var x'])) trap
      return .fix [.mk .cont jk [x] [.numt toTy] k] body
  | _ => impossible

/-! ### Executing the expansions -/

section Sound

variable {D W : Type} {I : Interp D W} (N : Numbers I) {st : List (Closure D)} {env : Env D}
  {m : Lvar} {from_ to_ : ℕ} {v : Value}

theorem val_num (from_ : ℕ) (iv : ℤ) :
    val I env (num from_ iv) = some (N.num (.ofInt from_ iv)) := by
  refine congrArg some ((N.lit _).trans (congrArg N.num ?_))
  unfold Num.ofConst Num.ofInt ity
  by_cases h : from_ < Target.mlValueSz <;> simp [h]

def half : Value := .num ⟨2 ^ (ity - 1), ⟨ity, false⟩⟩

include N in
theorem trap_overflows (k : Cexp) (tmp : Lvar) :
    Overflows I ⟨st, env, .arith (.iarith .iadd ity) [half, half] tmp (.numt ⟨ity, false⟩) k⟩ := by
  refine ⟨st, env, _, _, _, _, _, _, .refl _, vals_two rfl rfl, ?_⟩
  have hexec : execArithNum (.iarith .iadd 64) [.native (2 ^ 63), .native (2 ^ 63)] =
      some none := by decide
  have h := N.arith _ _ hexec
  rw [List.map_cons, List.map_cons, List.map_nil] at h
  have hlit : I.lit half = N.num (.native (2 ^ 63)) := N.lit _
  rw [hlit]
  exact h

theorem branch_cmp {a b : Num} {va vb : Value} {id : Lvar} {e1 e2 : Cexp} {c : Config D}
    {p : P.Branch} {r : Bool} (ha : val I env va = some (N.num a))
    (hb : val I env vb = some (N.num b)) (hp : execBranchNum p [a, b] = some r)
    (h : Leads I ⟨st, env, if r then e1 else e2⟩ c) :
    Leads I ⟨st, env, .branch p [va, vb] id e1 e2⟩ c :=
  .branch (vals_two ha hb) (N.branch p [a, b] hp) h

theorem checkedNum_eq {to_ : ℕ} (hto : to_ < 63) (i : ℤ) : checkedNum to_ i =
    if -(maxToInt to_ + 1) ≤ i ∧ i ≤ maxToInt to_ then some (.ofInt 63 i) else none := by
  have hiff : -2 ^ (to_ - 1) ≤ i ∧ i < 2 ^ (to_ - 1) ↔
      -(maxToInt to_ + 1) ≤ i ∧ i ≤ maxToInt to_ := by
    unfold maxToInt
    omega
  have hnum : Num.ofInt to_ i = Num.ofInt 63 i := by
    have hlt : to_ < Target.mlValueSz := lt_trans hto (by decide)
    unfold Num.ofInt
    rw [if_pos hlt, if_pos (show 63 < Target.mlValueSz by decide)]
  unfold checkedNum
  simp [hiff, hnum]

theorem execBranchNum_sLT {i c : ℤ} (hpos : 0 < from_) (hfrom : from_ ≤ 64)
    (hi : -2 ^ (from_ - 1) ≤ i) (hi' : i < 2 ^ (from_ - 1)) (hc : -2 ^ 62 ≤ c) (hc' : c < 2 ^ 62) :
    execBranchNum (sLT from_) [.ofInt from_ i, .ofInt from_ c] = some (decide (i < c)) ∧
      execBranchNum (sLT from_) [.ofInt from_ c, .ofInt from_ i] = some (decide (c < i)) := by
  simp [sLT, execBranchNum, hasSize_ofInt hfrom, compareNum, toInt_ofInt hpos hfrom hi hi',
    toInt_small from_ hc hc']

theorem maxToInt_bounds {to_ : ℕ} (hto : to_ < 63) : 0 ≤ maxToInt to_ ∧ maxToInt to_ < 2 ^ 61 := by
  have hpos : (0 : ℤ) < 2 ^ (to_ - 1) := by positivity
  have hpow : (2 : ℤ) ^ (to_ - 1) ≤ 2 ^ 61 := two_pow_le (by omega)
  unfold maxToInt
  omega

variable {i : ℤ} (x : Lvar) (ty : Cty) (k : Cexp)

/-- **A conversion to a smaller tagged size**, with explicit bounds checks. -/
theorem test_bounded (hpos : 0 < from_) (hfrom : from_ ≤ 64) (hto : to_ < 63) (hne : from_ ≠ to_)
    (hi : -2 ^ (from_ - 1) ≤ i) (hi' : i < 2 ^ (from_ - 1))
    (hv : Holds I env m v (N.num (.ofInt from_ i))) :
    Performs I st env m (test from_ to_ [v] x ty k) x k ((checkedNum to_ i).map N.num) := by
  obtain ⟨hmax, hmax'⟩ := maxToInt_bounds hto
  obtain ⟨hmin_cmp, -⟩ := execBranchNum_sLT (c := -(maxToInt to_ + 1)) hpos hfrom hi hi' (by omega)
    (by omega)
  obtain ⟨-, hmax_cmp⟩ := execBranchNum_sLT (c := maxToInt to_) hpos hfrom hi hi' (by omega)
    (by omega)
  have hjk : m + 1 ≠ m := Nat.succ_ne_self m
  let trap : Cexp := .arith (.iarith .iadd ity) [half, half] (m + 4) (.numt ⟨ity, false⟩)
    (.app (.var (m + 1)) [zero ⟨to_, true⟩])
  -- the environments after the bindings of the two continuations
  let env₁ := env.set (m + 1) (I.fn st.length)
  let join : Closure D := ⟨.mk .cont (m + 1) [x] [.numt ⟨to_, true⟩] k, env₁⟩
  let env₂ := env₁.set m (I.fn (st ++ [join]).length)
  let clo : Closure D := ⟨.mk .cont m [m + 3] [.enumt] trap, env₂⟩
  let st₂ := (st ++ [join]) ++ [clo]
  have hagree₁ : AgreeBelow m env env₁ := (AgreeBelow.refl m env).set m.le_succ _
  have hagree₂ : AgreeBelow m env env₂ := hagree₁.set le_rfl _
  have hv₂ : val I env₂ v = some (N.num (.ofInt from_ i)) := (hv.mono le_rfl hagree₂).val
  have hst_clo : st₂[(st ++ [join]).length]? = some clo := List.getElem?_concat_length
  have hst_join : st₂[st.length]? = some join := by
    refine (List.getElem?_append_left ?_).trans List.getElem?_concat_length
    rw [List.length_append]
    exact Nat.lt_succ_self st.length
  have htrapK : env₂ m = some (I.fn (st ++ [join]).length) := Env.set_self _ _ _
  have hjoinK : env₂ (m + 1) = some (I.fn st.length) :=
    (Env.set_of_ne _ _ hjk).trans (Env.set_self _ _ _)
  have htrapped : Overflows I ⟨st₂, env₂, .app (.var m) [.enum 0]⟩ :=
    (Leads.appOne N.unfn htrapK hst_clo rfl (.refl _)).overflows (trap_overflows N _ _)
  let high : Cexp := .branch (sLT from_) [num from_ (maxToInt to_), v] (m + 5)
    (.app (.var m) [.enum 0]) (.arith (.test from_ tty) [v] (m + 2) (.numt ⟨to_, true⟩)
      (.app (.var (m + 1)) [.var (m + 2)]))
  let low : Cexp := .branch (sLT from_) [v, num from_ (-(maxToInt to_ + 1))] (m + 6)
    (.app (.var m) [.enum 0]) high
  have hbuild : test from_ to_ [v] x ty k m =
      .ok (.fix [join.function] (.fix [clo.function] low), m + 7) := by
    have hnot : ¬(from_ = ity ∧ to_ = tty) := fun h => absurd h.2 hto.ne
    have hsizes : from_ ≤ ity ∧ to_ < tty := ⟨hfrom, hto⟩
    refine (congrFun (if_neg hnot) m).trans ?_
    refine (congrFun (if_neg hne) m).trans ?_
    exact congrFun (if_pos hsizes) m
  have hfix : Leads I ⟨st, env, .fix [join.function] (.fix [clo.function] low)⟩ ⟨st₂, env₂, low⟩ :=
    .fixOne (.fixOne (.refl _))
  refine ⟨_, _, hbuild, ?_⟩
  rw [checkedNum_eq hto]
  by_cases hlow : i < -(maxToInt to_ + 1)
  · -- below the range
    rw [if_neg (fun h => absurd h.1 (not_le.2 hlow))]
    rw [decide_eq_true hlow] at hmin_cmp
    exact (hfix.trans (branch_cmp N hv₂ (val_num N _ _) hmin_cmp (.refl _))).overflows htrapped
  rw [decide_eq_false hlow] at hmin_cmp
  have hlow' := hfix.trans (branch_cmp N hv₂ (val_num N _ _) hmin_cmp (.refl _))
  by_cases hhigh : maxToInt to_ < i
  · -- above the range
    rw [if_neg (fun h => absurd h.2 (not_le.2 hhigh))]
    rw [decide_eq_true hhigh] at hmax_cmp
    exact (hlow'.trans (branch_cmp N (val_num N _ _) hv₂ hmax_cmp (.refl _))).overflows htrapped
  · rw [if_pos ⟨not_lt.1 hlow, not_lt.1 hhigh⟩]
    rw [decide_eq_false hhigh] at hmax_cmp
    have htest : execArithNum (.test from_ tty) [.ofInt from_ i] = some (some (.ofInt 63 i)) := by
      have hcheck : checkedNum tty i = some (.ofInt 63 i) := if_pos (by
        have hbounds : -2 ^ 62 ≤ i ∧ i < 2 ^ 62 := by omega
        exact hbounds)
      rw [execArithNum_test (hasSize_ofInt hfrom i) (by decide), toInt_ofInt hpos hfrom hi hi', hcheck]
    have hcall : Leads I ⟨st₂, env₂, .arith (.test from_ tty) [v] (m + 2) (.numt ⟨to_, true⟩)
        (.app (.var (m + 1)) [.var (m + 2)])⟩ ⟨st₂, env₁.set x (N.num (.ofInt 63 i)), k⟩ := by
      refine .arith (vals_one hv₂) (N.arith _ [_] htest) ?_
      refine .appOne N.unfn ?_ hst_join (val_set _ _ _) (.refl _)
      exact (Env.set_of_ne _ _ (Nat.lt_succ_self (m + 1)).ne).trans hjoinK
    refine ⟨[join, clo], env₁, hagree₁, ?_⟩
    have hst : st ++ [join, clo] = st₂ := (List.append_assoc st [join] [clo]).symm
    rw [hst]
    exact hlow'.trans (branch_cmp N (val_num N _ _) hv₂ hmax_cmp hcall)

include N in
theorem performs_arith {p : P.Arith} {d : Num} {r : Option Num} (hv : val I env v = some (N.num d))
    (hp : execArithNum p [d] = some r) :
    Performs I st env m (return .arith p [v] x ty k) x k (r.map N.num) := by
  have hexec := N.arith p [d] hp
  refine ⟨_, _, rfl, ?_⟩
  cases r with
  | some d' => exact ⟨[], env, .refl m env, by
      rw [List.append_nil]
      exact .arith (vals_one hv) hexec (.refl _)⟩
  | none => exact ⟨st, env, p, [v], x, ty, k, _, .refl _, vals_one hv, hexec⟩

/-- **The expansion of `TEST`** converts its argument or overflows. -/
theorem test_converts (hpos : 0 < from_) (hfrom : from_ ≤ 64)
    (hsizes : (from_ = 64 ∧ to_ = 63) ∨ from_ = to_ ∨ to_ < 63)
    (hi : -2 ^ (from_ - 1) ≤ i) (hi' : i < 2 ^ (from_ - 1))
    (hv : Holds I env m v (N.num (.ofInt from_ i))) :
    Performs I st env m (test from_ to_ [v] x ty k) x k ((checkedNum to_ i).map N.num) := by
  by_cases hdefault : from_ = ity ∧ to_ = tty
  · -- the operator is left to the code generator
    have hbuild : test from_ to_ [v] x ty k = return .arith (.test from_ to_) [v] x ty k :=
      if_pos hdefault
    have htest : execArithNum (.test from_ to_) [.ofInt from_ i] = some (checkedNum to_ i) := by
      have hto : to_ ≤ Target.mlValueSz := hdefault.2.trans_le (by decide)
      rw [execArithNum_test (hasSize_ofInt hfrom i) hto, toInt_ofInt hpos hfrom hi hi']
    rw [hbuild]
    exact performs_arith N x ty k hv.val htest
  by_cases hsame : from_ = to_
  · subst hsame
    have hbuild : test from_ from_ [v] x ty k = return .pure (.copy from_ from_) [v] x ty k :=
      (if_neg hdefault).trans (if_pos rfl)
    have hcopy : execPureNum (.copy from_ from_) [.ofInt from_ i] = some (.ofInt from_ i) := by
      refine (if_pos ⟨hasSize_ofInt hfrom i, le_rfl⟩).trans ?_
      rw [if_pos rfl]
    rw [hbuild, show checkedNum from_ i = some (.ofInt from_ i) from if_pos ⟨hi, hi'⟩]
    refine ⟨_, _, rfl, [], env, .refl m env, ?_⟩
    rw [List.append_nil]
    exact .pure rfl (vals_one hv.val) (N.pure _ [_] hcopy) (.refl _)
  · have hto : to_ < 63 := by
      rcases hsizes with h | h | h
      · exact absurd h hdefault
      · exact absurd h hsame
      · exact h
    exact test_bounded N x ty k hpos hfrom hto hsame hi hi' hv

theorem execBranchNum_uLE {u : ℤ} (hfrom : from_ ≤ 64) (hto : 0 < to_) (hle : to_ ≤ from_)
    (hu : Pattern from_ u) :
    execBranchNum (uLE from_) [.ofInt from_ u, .ofInt from_ (maxToInt to_)] =
      some (decide (u ≤ maxToInt to_)) := by
  have hmax : Pattern from_ (maxToInt to_) := by
    have hpos : (0 : ℤ) < 2 ^ (to_ - 1) := by positivity
    have hpow : (2 : ℤ) ^ (to_ - 1) ≤ 2 ^ from_ := two_pow_le (by omega)
    exact ⟨by unfold maxToInt; omega, by unfold maxToInt; omega⟩
  simp [uLE, execBranchNum, hasSize_ofInt hfrom, compareNum, toWord_ofInt hfrom hu, toWord_ofInt
    hfrom hmax]

/-- **The expansion of `TESTU`** converts its argument or overflows. -/
theorem testu_converts {u : ℤ} (hfrom : from_ ≤ 64) (hto : 0 < to_) (hle : to_ ≤ from_)
    (hu : Pattern from_ u) (hv : Holds I env m v (N.num (.ofInt from_ u))) :
    Performs I st env m (testu from_ to_ [v] x ty k) x k ((checkedNum to_ u).map N.num) := by
  by_cases hdefault : from_ = to_ ∧ (from_ = ity ∨ from_ = tty)
  · have hbuild : testu from_ to_ [v] x ty k = return .arith (.testu from_ to_) [v] x ty k :=
      if_pos hdefault
    have htest : execArithNum (.testu from_ to_) [.ofInt from_ u] = some (checkedNum to_ u) := by
      rw [execArithNum_testu (hasSize_ofInt hfrom u) (hle.trans hfrom), toWord_ofInt hfrom hu]
    rw [hbuild]
    exact performs_arith N x ty k hv.val htest
  -- the continuation for the rest
  let env₁ := env.set m (I.fn st.length)
  let join : Closure D := ⟨.mk .cont m [x] [.numt ⟨to_, true⟩] k, env₁⟩
  have hagree : AgreeBelow m env env₁ := (AgreeBelow.refl m env).set le_rfl _
  have hv₁ : val I env₁ v = some (N.num (.ofInt from_ u)) := (hv.mono le_rfl hagree).val
  have hst : (st ++ [join])[st.length]? = some join := List.getElem?_concat_length
  let trap : Cexp := .arith (.iarith .iadd ity) [half, half] (m + 2) (.numt ⟨ity, false⟩)
    (.app (.var m) [zero ⟨to_, true⟩])
  let fits : Cexp := .pure (.trunc from_ to_) [v] (m + 1) ty (.app (.var m) [.var (m + 1)])
  let body : Cexp := .branch (uLE from_) [v, num from_ (maxToInt to_)] (m + 3) fits trap
  have hbuild : testu from_ to_ [v] x ty k m = .ok (.fix [join.function] body, m + 4) :=
    congrFun (if_neg hdefault) m
  have hfix : Leads I ⟨st, env, .fix [join.function] body⟩ ⟨st ++ [join], env₁, body⟩ :=
    .fixOne (.refl _)
  have hcmp := execBranchNum_uLE hfrom hto hle hu
  have hpow : (0 : ℤ) < 2 ^ (to_ - 1) := by positivity
  refine ⟨_, _, hbuild, ?_⟩
  by_cases hmax : u ≤ maxToInt to_
  · rw [decide_eq_true hmax] at hcmp
    have hcheck : checkedNum to_ u = some (.ofInt to_ u) := by
      unfold maxToInt at hmax
      exact if_pos ⟨by linarith [hu.1], by omega⟩
    have htrunc : execPureNum (.trunc from_ to_) [.ofInt from_ u] = some (.ofInt to_ u) := by
      refine (if_pos ⟨hasSize_ofInt hfrom u, hle⟩).trans ?_
      rw [toWord_ofInt hfrom hu]
      split
      · next heq => rw [heq]
      · have hpat : Pattern to_ u := by
          unfold maxToInt at hmax
          have hpow' : (2 : ℤ) ^ (to_ - 1) ≤ 2 ^ to_ := two_pow_le (by omega)
          exact ⟨hu.1, by omega⟩
        rw [unsigned_of_pattern hpat]
    rw [hcheck]
    refine ⟨[join], env₁, hagree, ?_⟩
    refine hfix.trans (branch_cmp N hv₁ (val_num N _ _) hcmp ?_)
    refine .pure rfl (vals_one hv₁) (N.pure _ [_] htrunc) ?_
    refine .appOne N.unfn ?_ hst (val_set _ _ _) (.refl _)
    exact (Env.set_of_ne _ _ (Nat.lt_succ_self m).ne).trans (Env.set_self _ _ _)
  · rw [decide_eq_false hmax] at hcmp
    have hcheck : checkedNum to_ u = none := by
      unfold maxToInt at hmax
      exact if_neg (by omega)
    rw [hcheck]
    exact (hfix.trans (branch_cmp N hv₁ (val_num N _ _) hcmp (.refl _))).overflows
      (trap_overflows N _ _)

end Sound

end SmlNj.CPS.TestCnv
