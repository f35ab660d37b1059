import SmlNj.CPS.Opt.TestCnv
import SmlNj.CodeGen.TaggedArithSound

/-!
# Checked conversions in the code generator

The translation of those conversions `TEST` and `TESTU` that are not expanded in CPS: from native
to default integers, and from native or default words to integers of the same size.  An addition
traps where the argument does not fit.

## Main definitions

* `genTest`, `genTestu` — the translations.

## Main results

* `conversions_correct` — the expansions in CPS and the translations convert the argument or
  overflow.
-/

namespace SmlNj.CPStoCFG

open CFG LambdaVar TwosComplement TaggedArith

/-- The types of variables. -/
def cvtTy : CPS.Cty → Except Exn Ty
  | .numt ⟨sz, tag⟩ =>
    if tag then .ok .tagt
    else if isTaggedInt sz then .error .fail
    else .ok (.numt sz)
  | .enumt => .ok .tagt
  | .fltt sz => .ok (.fltt sz)
  | .ptrt _ => .ok .ptrt
  | .funt => .ok .labt
  | .cntt _ => .ok .labt

def signBit : Exp := CPStoCFG.num (2 ^ (CPStoCFG.ity - 1))

def letVar (exp : Exp) (ty : Ty) (k : Exp → Supply Stm) : Supply Stm := do
  let x ← mkLvar
  return .letE exp ⟨x, ty⟩ (← k (.var x))

section Translate

variable (exps : Lvar → Option Exp) (from_ to_ : ℕ) (v : CPS.Value)

/-- **`TEST`**: the doubled number, with its tag. -/
def genTest (k : Exp → Supply Stm) : Supply Stm :=
  if from_ = CPStoCFG.ity ∧ to_ = Target.defaultIntSz then do
    let tmp ← mkLvar
    let tag (v : Exp) : Supply Stm := do
      return .arith (.arith .iadd CPStoCFG.ity) [v, v] ⟨tmp, .tagt⟩
        (← k (pureOp .add CPStoCFG.ity [.var tmp, one]))
    match ← genV exps v with
    | .var y => tag (.var y)
    | .num iv sz => tag (.num iv sz)
    | v' => letVar v' .tagt tag
  else impossible

/-- **`TESTU`**: adding the sign bit traps if the argument is negative. -/
def genTestu (x : Lvar) (ty : CPS.Cty) (k : Exp → Supply Stm) : Supply Stm :=
  if from_ = to_ ∧ (from_ = CPStoCFG.ity ∨ from_ = Target.defaultIntSz) then do
    let dummy ← mkLvar
    return .letE (← genV exps v) ⟨x, ← cvtTy ty⟩
      (.arith (.arith .iadd CPStoCFG.ity) [.var x, signBit] ⟨dummy, .tagt⟩ (← k (.var x)))
  else impossible

end Translate

section Sound

variable {V W : Type} {I : Interp V W} (M : Words I) {exps : Lvar → Option Exp} {env : Env V}
  {w : W}

/-- **The code for a conversion completes**: if the number fits, it gets to the rest of the code
with an expression for the word `d`, and else it traps.  Only the variable `x` and fresh ones are
bound on the way. -/
def Converts (M : Words I) (env : Env V) (w : W) (x : Lvar)
    (build : (Exp → Supply Stm) → Supply Stm) (fits : Prop) [Decidable fits] (d : ℤ) : Prop :=
  ∀ (k : Exp → Supply Stm) (m : Lvar), x < m → ∃ e m', ∀ stm m'', k e m' = .ok (stm, m'') →
    ∃ s, build k m = .ok (s, m'') ∧
      if fits then
        ∃ env', (∀ z, z ≠ x → z < m → env' z = env z) ∧
          Leads I ⟨env, w, s⟩ ⟨env', w, stm⟩ ∧ eval I env' w e = some (M.word d)
      else Traps I ⟨env, w, s⟩

variable {v : CPS.Value} {e : Exp} {p : ℤ}

theorem exec_double (p : ℤ) : execArith .iadd 64 [p, p] =
    some (if -2 ^ 62 ≤ signed 64 p ∧ signed 64 p < 2 ^ 62 then
      some (2 * unsigned 63 (signed 64 p)) else none) := by
  have hword : unsigned 64 (2 * signed 64 p) = 2 * unsigned 63 (signed 64 p) :=
    unsigned_double 63 _
  have h := checked_double (y := signed 64 p) (c := 0) (.inl rfl)
  rw [add_zero, hword] at h
  rw [execArith, List.map_cons, List.map_cons, List.map_nil, CFG.execSigned, ← two_mul,
    Option.map_some, h]

theorem tag_completes (stm : Stm) (m : Lvar) (he : eval I env w e = some (M.word p)) :
    if -2 ^ 62 ≤ signed 64 p ∧ signed 64 p < 2 ^ 62 then
      Leads I ⟨env, w, .arith (.arith .iadd 64) [e, e] ⟨m, .tagt⟩ stm⟩
          ⟨env.set m (M.word (2 * unsigned 63 (signed 64 p))), w, stm⟩ ∧
        eval I (env.set m (M.word (2 * unsigned 63 (signed 64 p)))) w
          (pureOp .add 64 [.var m, one]) = some (M.word (2 * unsigned 63 (signed 64 p) + 1))
    else Traps I ⟨env, w, .arith (.arith .iadd 64) [e, e] ⟨m, .tagt⟩ stm⟩ := by
  have harith := M.arith .iadd [p, p] (exec_double p)
  have hargs := evals_pair he he
  split
  · next hfits =>
    rw [if_pos hfits] at harith
    have htmp : eval I (env.set m (M.word (2 * unsigned 63 (signed 64 p)))) w (.var m) =
        some (M.word (2 * unsigned 63 (signed 64 p))) := CPS.Env.set_self env m _
    exact ⟨Leads.arith hargs harith, eval_addTag htmp (pattern_unsigned 63 _)⟩
  · next hfits =>
    rw [if_neg hfits] at harith
    exact Traps.arith hargs harith

/-- The sum of an expression with itself, and the rest of the code. -/
def doubled (m : Lvar) (k : Exp → Supply Stm) (e : Exp) : Supply Stm := do
  return .arith (.arith .iadd 64) [e, e] ⟨m, .tagt⟩ (← k (pureOp .add 64 [.var m, one]))

theorem doubled_eq {k : Exp → Supply Stm} {m n m'' : Lvar} {stm : Stm}
    (hk : k (pureOp .add 64 [.var m, one]) n = .ok (stm, m'')) :
    doubled m k e n = .ok (.arith (.arith .iadd 64) [e, e] ⟨m, .tagt⟩ stm, m'') :=
  congrArg (· >>= fun p : Stm × Lvar => Except.ok
    (Stm.arith (.arith .iadd 64) [e, e] ⟨m, .tagt⟩ p.1, p.2)) hk

variable {x : Lvar} {build : (Exp → Supply Stm) → Supply Stm}

theorem converts_doubled (he : eval I env w e = some (M.word p))
    (hbuild : ∀ k m, build k m = doubled m k e (m + 1)) :
    Converts M env w x build (-2 ^ 62 ≤ signed 64 p ∧ signed 64 p < 2 ^ 62)
      (2 * unsigned 63 (signed 64 p) + 1) := by
  intro k m _
  refine ⟨pureOp .add 64 [.var m, one], m + 1, fun stm m'' hk =>
    ⟨_, (hbuild k m).trans (doubled_eq hk), ?_⟩⟩
  have h := tag_completes M stm m he
  split
  · next hfits =>
    rw [if_pos hfits] at h
    exact ⟨_, fun z _ hz => CPS.Env.set_of_ne env _ hz.ne, h.1, h.2⟩
  · next hfits =>
    rw [if_neg hfits] at h
    exact h

theorem converts_letVar (he : eval I env w e = some (M.word p))
    (hbuild : ∀ k m, build k m = letVar e .tagt (doubled m k) (m + 1)) :
    Converts M env w x build (-2 ^ 62 ≤ signed 64 p ∧ signed 64 p < 2 ^ 62)
      (2 * unsigned 63 (signed 64 p) + 1) := by
  intro k m _
  refine ⟨pureOp .add 64 [.var m, one], m + 2, fun stm m'' hk => ⟨.letE e ⟨m + 1, .tagt⟩
    (.arith (.arith .iadd 64) [.var (m + 1), .var (m + 1)] ⟨m, .tagt⟩ stm), ?_, ?_⟩⟩
  · rw [hbuild, letVar, mkLvar_bind]
    exact congrArg (· >>= fun p => Except.ok (Stm.letE e ⟨m + 1, .tagt⟩ p.1, p.2)) (doubled_eq hk)
  have hlet : Leads I ⟨env, w, .letE e ⟨m + 1, .tagt⟩
        (.arith (.arith .iadd 64) [.var (m + 1), .var (m + 1)] ⟨m, .tagt⟩ stm)⟩
      ⟨env.set (m + 1) (M.word p), w,
        .arith (.arith .iadd 64) [.var (m + 1), .var (m + 1)] ⟨m, .tagt⟩ stm⟩ := Leads.letE he
  have hvar : eval I (env.set (m + 1) (M.word p)) w (.var (m + 1)) = some (M.word p) :=
    CPS.Env.set_self env (m + 1) _
  have h := tag_completes M stm m hvar
  split
  · next hfits =>
    rw [if_pos hfits] at h
    refine ⟨_, fun z _ hz => ?_, hlet.trans h.1, h.2⟩
    rw [CPS.Env.set_of_ne _ _ hz.ne, CPS.Env.set_of_ne _ _ (lt_trans hz (Nat.lt_succ_self m)).ne]
  · next hfits =>
    rw [if_neg hfits] at h
    exact hlet.traps h

/-- **The translation of `TEST`** converts a native integer. -/
theorem genTest_converts (hv : genV exps v = .ok e) (he : eval I env w e = some (M.word p))
    (x : Lvar) :
    Converts M env w x (genTest exps 64 63 v) (-2 ^ 62 ≤ signed 64 p ∧ signed 64 p < 2 ^ 62)
      (2 * unsigned 63 (signed 64 p) + 1) := by
  have hsizes : 64 = CPStoCFG.ity ∧ 63 = Target.defaultIntSz := ⟨rfl, rfl⟩
  cases e with
  | var y =>
    refine converts_doubled M he fun k m => ?_
    unfold genTest
    rw [if_pos hsizes, mkLvar_bind, lift_bind hv]
    rfl
  | num iv sz =>
    refine converts_doubled M he fun k m => ?_
    unfold genTest
    rw [if_pos hsizes, mkLvar_bind, lift_bind hv]
    rfl
  | _ =>
    refine converts_letVar M he fun k m => ?_
    unfold genTest
    rw [if_pos hsizes, mkLvar_bind, lift_bind hv]
    rfl

theorem exec_signBit (hp : Pattern 64 p) : ∃ d, execArith .iadd 64 [p, 2 ^ 63] =
    some (if p < 2 ^ 63 then some d else none) := by
  have hsign : signed 64 (2 ^ 63) = -2 ^ 63 := rfl
  refine ⟨unsigned 64 (signed 64 p + -2 ^ 63), ?_⟩
  rw [execArith, List.map_cons, List.map_cons, List.map_nil, hsign, CFG.execSigned, Option.map_some]
  refine congrArg some (if_congr ?_ rfl rfl)
  obtain ⟨hlow, hhigh⟩ := hp
  by_cases hlt : p < 2 ^ 63
  · rw [signed_eq_self hlow hlt (by decide)]
    exact iff_of_true ⟨by omega, by omega⟩ hlt
  · rw [signed_eq_sub (n := 64) (not_lt.1 hlt) hhigh (by decide)]
    exact iff_of_false (by omega) hlt

/-- **The translation of `TESTU`** converts a word, whether it is native or tagged. -/
theorem genTestu_converts {sz : ℕ} {ty : CPS.Cty} {ty' : Ty} (hsz : sz = 64 ∨ sz = 63)
    (hty : cvtTy ty = .ok ty') (hv : genV exps v = .ok e) (he : eval I env w e = some (M.word p))
    (hp : Pattern 64 p) (x : Lvar) :
    Converts M env w x (genTestu exps sz sz v x ty) (p < 2 ^ 63) p := by
  have hsizes : sz = sz ∧ (sz = CPStoCFG.ity ∨ sz = Target.defaultIntSz) := ⟨rfl, hsz⟩
  intro k m hx
  refine ⟨.var x, m + 1, fun stm m'' hk =>
    ⟨.letE e ⟨x, ty'⟩ (.arith (.arith .iadd 64) [.var x, signBit] ⟨m, .tagt⟩ stm), ?_, ?_⟩⟩
  · unfold genTestu
    rw [if_pos hsizes, mkLvar_bind, lift_bind hv, lift_bind hty]
    exact congrArg (· >>= fun p => Except.ok (Stm.letE e ⟨x, ty'⟩
      (.arith (.arith .iadd 64) [.var x, signBit] ⟨m, .tagt⟩ p.1), p.2)) hk
  obtain ⟨d, hexec⟩ := exec_signBit hp
  have harith := M.arith .iadd [p, 2 ^ 63] hexec
  have hlet : Leads I ⟨env, w, .letE e ⟨x, ty'⟩
        (.arith (.arith .iadd 64) [.var x, signBit] ⟨m, .tagt⟩ stm)⟩
      ⟨env.set x (M.word p), w, .arith (.arith .iadd 64) [.var x, signBit] ⟨m, .tagt⟩ stm⟩ :=
    Leads.letE he
  have hvar : eval I (env.set x (M.word p)) w (.var x) = some (M.word p) := CPS.Env.set_self env x _
  have hargs := evals_pair hvar (M.eval_num (2 ^ 63))
  split
  · next hfits =>
    rw [if_pos hfits] at harith
    refine ⟨_, fun z hzx hz => ?_, hlet.trans (Leads.arith hargs harith), ?_⟩
    · rw [CPS.Env.set_of_ne _ _ hz.ne, CPS.Env.set_of_ne _ _ hzx]
    · exact (CPS.Env.set_of_ne _ _ hx.ne).trans hvar
  · next hfits =>
    rw [if_neg hfits] at harith
    exact hlet.traps (Traps.arith hargs harith)

end Sound

/-! ### The result -/

open CPS (Holds Performs checkedNum Num)
open CPS.TestCnv (test testu)

/-- **Checked conversions are right** for the sizes that they are used with: a conversion of
integers from native to default size, to the same size, or to a size that is smaller than the
container of tagged numbers; and a conversion of words to a size that is not greater.  They yield
the argument in the new size or overflow, and so do those that are left to the code generator. -/
theorem conversions_correct {D W V W' : Type} {I : CPS.Interp D W} {J : CFG.Interp V W'}
    (N : CPS.Numbers I) (M : Words J) :
    (∀ (st : List (CPS.Closure D)) (env : CPS.Env D) (m : Lvar) (from_ to_ : ℕ) (v : CPS.Value)
      (i : ℤ) (x : Lvar) (ty : CPS.Cty) (k : CPS.Cexp), 0 < from_ → from_ ≤ 64 → 0 < to_ →
      (from_ = 64 ∧ to_ = 63) ∨ from_ = to_ ∨ to_ < 63 →
      -2 ^ (from_ - 1) ≤ i → i < 2 ^ (from_ - 1) → Holds I env m v (N.num (.ofInt from_ i)) →
      Performs I st env m (test from_ to_ [v] x ty k) x k ((checkedNum to_ i).map N.num)) ∧
    (∀ (st : List (CPS.Closure D)) (env : CPS.Env D) (m : Lvar) (from_ to_ : ℕ) (v : CPS.Value)
      (u : ℤ) (x : Lvar) (ty : CPS.Cty) (k : CPS.Cexp), from_ ≤ 64 → 0 < to_ → to_ ≤ from_ →
      Pattern from_ u → Holds I env m v (N.num (.ofInt from_ u)) →
      Performs I st env m (testu from_ to_ [v] x ty k) x k ((checkedNum to_ u).map N.num)) ∧
    (∀ (exps : Lvar → Option Exp) (env : Env V) (w : W') (v : CPS.Value) (e : Exp) (p : ℤ)
      (x : Lvar), genV exps v = .ok e → eval J env w e = some (M.word p) →
      Converts M env w x (genTest exps 64 63 v) (-2 ^ 62 ≤ signed 64 p ∧ signed 64 p < 2 ^ 62)
        (2 * unsigned 63 (signed 64 p) + 1)) ∧
    (∀ (exps : Lvar → Option Exp) (env : Env V) (w : W') (sz : ℕ) (v : CPS.Value) (e : Exp)
      (p : ℤ) (x : Lvar) (ty : CPS.Cty) (ty' : Ty), sz = 64 ∨ sz = 63 → cvtTy ty = .ok ty' →
      genV exps v = .ok e → eval J env w e = some (M.word p) → Pattern 64 p →
      Converts M env w x (genTestu exps sz sz v x ty) (p < 2 ^ 63) p) := by
  refine ⟨?_, ?_, ?_, ?_⟩
  · intro st env m from_ to_ v i x ty k hpos hfrom _ hsizes hi hi' hv
    exact CPS.TestCnv.test_converts N x ty k hpos hfrom hsizes hi hi' hv
  · intro st env m from_ to_ v u x ty k hfrom hto hle hu hv
    exact CPS.TestCnv.testu_converts N x ty k hfrom hto hle hu hv
  · intro exps env w v e p x hv he
    exact genTest_converts M hv he x
  · intro exps env w sz v e p x ty ty' hsz hty hv he hp
    exact genTestu_converts M hsz hty hv he hp x

def oneNumber (d : CPS.Num) : CPS.Env CPS.NumVal := CPS.Env.set (fun _ => none) 0 (.num d)

/-- A conversion of default integers to native ones is not expanded. -/
theorem test_widening :
    ¬Performs CPS.numInterp [] (oneNumber (.tagged 5)) 10
      (test 63 64 [.var 0] 1 (.numt ⟨64, false⟩) (.app (.label 0) [.var 1])) 1
      (.app (.label 0) [.var 1]) (some (.num (.native 5))) := by
  rintro ⟨s, m', hbuild, -⟩
  cases hbuild

/-- A conversion that fits, one that overflows, and two for the code generator. -/
theorem conversions_correct_samples :
    Performs CPS.numInterp [] (oneNumber (.native 5)) 10
        (test 64 32 [.var 0] 1 (.numt ⟨32, true⟩) (.app (.label 0) [.var 1])) 1
        (.app (.label 0) [.var 1]) (some (.num (.tagged 5))) ∧
      Performs CPS.numInterp [] (oneNumber (.ofInt 64 (2 ^ 40))) 10
        (testu 64 32 [.var 0] 1 (.numt ⟨32, true⟩) (.app (.label 0) [.var 1])) 1
        (.app (.label 0) [.var 1]) none ∧
      Converts wordInterpWords (CPS.Env.set (fun _ => none) 0 7) () 1
        (genTest (fun _ => none) 64 63 (.var 0))
        (-2 ^ 62 ≤ signed 64 7 ∧ signed 64 7 < 2 ^ 62) (2 * unsigned 63 (signed 64 7) + 1) ∧
      Converts wordInterpWords (CPS.Env.set (fun _ => none) 0 7) () 1
        (genTestu (fun _ => none) 63 63 (.var 0) 1 (.numt ⟨63, true⟩)) (7 < 2 ^ 63) 7 := by
  obtain ⟨htest, htestu, hgen, hgenu⟩ := conversions_correct CPS.numInterpNumbers wordInterpWords
  refine ⟨?_, ?_, ?_, ?_⟩
  · exact htest [] _ 10 64 32 (.var 0) 5 1 _ _ (by decide) (by decide) (by decide) (by decide)
      (by decide) (by decide) ⟨show 0 < 10 by decide, rfl⟩
  · exact htestu [] (oneNumber (.ofInt 64 (2 ^ 40))) 10 64 32 (.var 0) (2 ^ 40) 1 _ _
      (by decide) (by decide) (by decide) (by decide) ⟨show 0 < 10 by decide, rfl⟩
  · exact hgen (fun _ => none) _ () (.var 0) (.var 0) 7 1 rfl rfl
  · exact hgenu (fun _ => none) _ () 63 (.var 0) (.var 0) 7 1 _ .tagt (by decide) rfl rfl rfl
      (by decide)

end SmlNj.CPStoCFG
