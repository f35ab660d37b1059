import Mathlib
import SmlNj.CodeGen.NumArrays

/-!
# Constant operands

Where an operand is a constant, the code generator untags, truncates or shifts it at compile time.
The code for a constant does what the code for a variable does that holds it, but for `SETSPECIAL`,
which takes the new descriptor from the object instead of the index if the index is a variable.

## Main definitions

* `Alike` — operands that stand for the same number.
* `Same`, `SameStm` — translations with one meaning.
* `descOf` — the descriptor of a special object with an index.

## Main results

* `constOperands_iff` — exactly when a constant does what a variable does, and when an index is read
  back from a special object.
-/

namespace SmlNj.CPStoCFG

open CFG TwosComplement ExceptList ObjectDesc
open CPS (Value)
open TaggedArith (Operand Operands pureOp one tag eval_one eval_orTag ok_map ok_map₂)

section Alike

variable {V W : Type} {J : W → Interp V W} (M : Machine J) (exps : Lvar → Option Exp)
  (env : Env V) (w : W)

/-- **Operands that stand for the same number**, or that are the same. -/
def Alike (isSigned : Bool) (v v' : Value) : Prop :=
  v' = v ∨ ∃ n, Operand (M.words w) exps env w isSigned v n ∧
    Operand (M.words w) exps env w isSigned v' n

/-- Operands of a pure operator that stand for the same numbers.  The amount of a shift, and the
operand of a copy, are words. -/
@[grind =] def PureAlike (p : CPS.P.Pure) (args args' : List Value) : Prop :=
  match p with
  | .pureArith oper (.int sz) =>
    if isTaggedInt sz then
      ∃ ns, Operands (M.words w) exps env w oper true args ns ∧
        Operands (M.words w) exps env w oper true args' ns
    else List.Forall₂ (Alike M exps env w false) args args'
  | .pureArith oper (.uint sz) =>
    if isTaggedInt sz then
      ∃ ns, Operands (M.words w) exps env w oper false args ns ∧
        Operands (M.words w) exps env w oper false args' ns
    else List.Forall₂ (Alike M exps env w false) args args'
  | .copy _ _ => List.Forall₂ (Alike M exps env w false) args args'
  | _ => List.Forall₂ (Alike M exps env w true) args args'

/-- Operands of an update that stand for the same numbers: an index is signed. -/
def SetterAlike (p : CPS.P.Setter) (args args' : List Value) : Prop :=
  match p with
  | .numupdate (.uint _) =>
    ∃ arr arr' ix ix' v v', args = [arr, ix, v] ∧ args' = [arr', ix', v'] ∧
      Alike M exps env w true arr arr' ∧ Alike M exps env w true ix ix' ∧
      Alike M exps env w false v v'
  | _ => List.Forall₂ (Alike M exps env w true) args args'

variable (J) in
abbrev Same (r r' : Except Exn Exp) : Prop := Agree (eval (J w) env w) r r'

variable (J) in
abbrev Sames (r r' : Except Exn (List Exp)) : Prop := Agree (evals (J w) env w) r r'

variable (J) in
abbrev SameStm (r r' : Except Exn Stm) : Prop :=
  Agree (fun stm => step (J w) ⟨env, w, stm⟩) r r'

variable {M exps env w} {isSigned : Bool} {v v' v₁ v₁' v₂ v₂' : Value} {args args' : List Value}
  {r r' r₁ r₁' r₂ r₂' r₃ r₃' : Except Exn Exp}

/-! ### Expressions and statements from operands with one meaning -/

variable {es es' : List Exp} {e e' a : Exp} {sz : ℕ} {k : Stm} {oper : CPS.P.PureOp} {n m : ℤ}
  {i : Value} {o : V}

theorem eval_pure_congr {op : Prim.Pure} (h : evals (J w) env w es = evals (J w) env w es') :
    eval (J w) env w (.pure op es) = eval (J w) env w (.pure op es') := by
  rw [eval, h, eval]

theorem eval_pure_one {op : Prim.Pure} (h : eval (J w) env w e = eval (J w) env w e') :
    eval (J w) env w (.pure op [e]) = eval (J w) env w (.pure op [e']) := by
  simp [h]

theorem eval_pureOp_left {op : Prim.PureOp} {c : Exp}
    (h : eval (J w) env w e = eval (J w) env w e') :
    eval (J w) env w (pureOp op sz [e, c]) = eval (J w) env w (pureOp op sz [e', c]) := by
  simp [pureOp, h]

theorem eval_looker_left {op : Prim.Looker} {c : Exp}
    (h : eval (J w) env w e = eval (J w) env w e') :
    eval (J w) env w (looker op [e, c]) = eval (J w) env w (looker op [e', c]) := by
  simp [looker, h]

theorem eval_select {i : ℕ} (h : eval (J w) env w e = eval (J w) env w e') :
    eval (J w) env w (.select i e) = eval (J w) env w (.select i e') := by
  rw [eval, h, eval]

theorem Same.pure₂ (h₁ : Same J env w r₁ r₁') (h₂ : Same J env w r₂ r₂') (op : Prim.Pure) :
    Same J env w (do return .pure op [← r₁, ← r₂]) (do return .pure op [← r₁', ← r₂']) := by
  refine h₁.bind fun a a' ha => h₂.map fun b b' hb => ?_
  simp [ha, hb]

theorem step_setter {op : Prim.Setter} (h : evals (J w) env w es = evals (J w) env w es') :
    step (J w) ⟨env, w, .setter op es k⟩ = step (J w) ⟨env, w, .setter op es' k⟩ := by
  simp [step, h]

theorem SameStm.setter₁ (h : Same J env w r r') (op : Prim.Setter) (k : Stm) :
    SameStm J env w (do return .setter op [← r] k) (do return .setter op [← r'] k) := by
  refine h.map fun a a' ha => step_setter ?_
  simp [ha]

theorem SameStm.setter₂ (h₁ : Same J env w r₁ r₁') (h₂ : Same J env w r₂ r₂') (op : Prim.Setter)
    (k : Stm) :
    SameStm J env w (do return .setter op [← r₁, ← r₂] k)
      (do return .setter op [← r₁', ← r₂'] k) := by
  refine h₁.bind fun a a' ha => h₂.map fun b b' hb => step_setter ?_
  simp [ha, hb]

theorem SameStm.setter₃ (h₁ : Same J env w r₁ r₁') (h₂ : Same J env w r₂ r₂')
    (h₃ : Same J env w r₃ r₃') (op : Prim.Setter) (k : Stm) :
    SameStm J env w (do return .setter op [← r₁, ← r₂, ← r₃] k)
      (do return .setter op [← r₁', ← r₂', ← r₃'] k) := by
  refine h₁.bind fun a a' ha => h₂.bind fun b b' hb => h₃.map fun c c' hc => step_setter ?_
  simp [ha, hb, hc]

theorem Alike.same {f : Value → Except Exn Exp} {d : ℤ → V} (h : Alike M exps env w isSigned v v')
    (hf : ∀ {u n}, Operand (M.words w) exps env w isSigned u n →
      ∃ e, f u = .ok e ∧ eval (J w) env w e = some (d n)) :
    Same J env w (f v) (f v') := by
  rcases h with rfl | ⟨n, hv, hv'⟩
  · exact .refl _ _
  · obtain ⟨e, hc, he⟩ := hf hv
    obtain ⟨e', hc', he'⟩ := hf hv'
    rw [hc, hc']
    exact .ok (he.trans he'.symm)

theorem Alike.genV (h : Alike M exps env w isSigned v v') :
    Same J env w (genV exps v) (genV exps v') :=
  h.same (d := fun n => M.word (2 * n + 1)) fun hu => hu.genV

theorem Alike.untagSigned (h : Alike M exps env w true v v') :
    Same J env w (untagSigned exps v) (untagSigned exps v') :=
  h.same (d := fun n => M.word (unsigned 64 (signed 63 n))) untagSigned_spec

theorem Alike.untagUnsigned (h : Alike M exps env w false v v') :
    Same J env w (untagUnsigned exps v) (untagUnsigned exps v') :=
  h.same (d := M.word) untagUnsigned_spec

theorem genVs_same (h : List.Forall₂ (Alike M exps env w isSigned) args args') :
    Sames J env w (args.mapM (genV exps)) (args'.mapM (genV exps)) := by
  induction h with
  | nil => exact .refl _ _
  | cons hv _ ih =>
    rw [List.mapM_cons, List.mapM_cons]
    refine hv.genV.bind fun a a' ha => ih.map fun b b' hb => ?_
    simp [ha, hb]

/-! ### Fetching -/

theorem eval_toMLWord_congr (h : eval (J w) env w e = eval (J w) env w e') :
    eval (J w) env w (toMLWord e) = eval (J w) env w (toMLWord e') :=
  eval_pureOp_left (eval_pureOp_left h)

theorem rawSubscript_same (ha : Alike M exps env w true v₁ v₁')
    (hi : Alike M exps env w true v₂ v₂') (nk : Prim.Numkind) (sz : ℕ) :
    Same J env w (genRawSubscript exps nk sz v₁ v₂) (genRawSubscript exps nk sz v₁' v₂') := by
  refine ha.genV.bind fun a a' h => hi.untagSigned.map fun b b' h' => ?_
  simp [getSeqData, h, h']

theorem numSubscript_same (kind : CPS.P.NumKind) (ha : Alike M exps env w true v₁ v₁')
    (hi : Alike M exps env w true v₂ v₂') :
    Same J env w (genNumSubscript exps kind v₁ v₂) (genNumSubscript exps kind v₁' v₂') := by
  have hraw := rawSubscript_same ha hi
  cases kind with
  | int sz =>
    change Same J env w (genRawIntSubscript exps sz v₁ v₂) (genRawIntSubscript exps sz v₁' v₂')
    unfold genRawIntSubscript
    split_ifs
    · exact (hraw .int 8).map fun _ _ h => eval_toMLWord_congr h
    · exact (hraw .int sz).map fun _ _ h => eval_toMLWord_congr (eval_pure_one h)
    · exact (hraw .int ity).map fun _ _ h => eval_toMLWord_congr h
    · exact hraw .int sz
  | uint sz =>
    change Same J env w (genRawWordSubscript exps sz v₁ v₂) (genRawWordSubscript exps sz v₁' v₂')
    unfold genRawWordSubscript
    split_ifs
    · exact (hraw .int sz).map fun _ _ h => eval_toMLWord_congr (eval_pure_one h)
    · exact (hraw .int ity).map fun _ _ h => eval_toMLWord_congr h
    · exact hraw .int sz
  | float sz => exact hraw .flt sz
  | enum => exact .refl _ _

theorem rawLoad_same (kind : CPS.P.NumKind) (h : evals (J w) env w es = evals (J w) env w es') :
    Same J env w (rawLoad kind es) (rawLoad kind es') := by
  have hload : ∀ op, eval (J w) env w (looker op es) = eval (J w) env w (looker op es') := fun op => by
    simp [looker, h]
  cases kind with
  | int sz =>
    refine .ok ?_
    split_ifs
    · exact eval_pure_one (hload _)
    · exact hload _
  | uint sz =>
    refine .ok ?_
    split_ifs
    · exact eval_pure_one (hload _)
    · exact hload _
  | float sz => exact .ok (hload _)
  | enum => exact .refl _ _

/-- **Operators that fetch.** -/
theorem looker_same (oper : CPS.P.Looker)
    (h : List.Forall₂ (Alike M exps env w true) args args') :
    Same J env w (genLooker exps oper args) (genLooker exps oper args') := by
  have hall : ∀ op, Same J env w (do return looker op (← args.mapM (genV exps)))
      (do return looker op (← args'.mapM (genV exps))) := fun op =>
    (genVs_same h).map fun _ _ he => by simp [looker, he]
  cases oper with
  | deref => exact hall .deref
  | gethdlr => exact hall .getHdlr
  | getvar => exact hall .getVar
  | subscript =>
    rcases h with _ | ⟨h₁, _ | ⟨h₂, _ | _⟩⟩
    case cons.cons.nil =>
      refine h₁.genV.bind fun a a' ha => h₂.untagSigned.map fun b b' hb => ?_
      simp [looker, ha, hb]
    all_goals exact .refl _ _
  | numsubscript kind =>
    rcases h with _ | ⟨h₁, _ | ⟨h₂, _ | _⟩⟩
    case cons.cons.nil => exact numSubscript_same kind h₁ h₂
    all_goals exact .refl _ _
  | getspecial =>
    rcases h with _ | ⟨h₁, _ | _⟩
    case cons.nil =>
      exact h₁.genV.map fun _ _ ha => eval_pureOp_left (eval_pureOp_left (eval_looker_left ha))
    all_goals exact .refl _ _
  | rawload kind =>
    rcases h with _ | ⟨h₁, _ | ⟨h₂, _ | _⟩⟩
    case cons.nil =>
      exact h₁.genV.bind fun a a' ha => rawLoad_same kind (by simp [ha])
    case cons.cons.nil =>
      exact h₁.genV.bind fun a a' ha => h₂.genV.bind fun b b' hb =>
        rawLoad_same kind (by simp [ha, hb])
    all_goals exact .refl _ _

/-! ### Pure operators -/

theorem binOp_same (h₁ : Alike M exps env w isSigned v₁ v₁') (h₂ : Alike M exps env w isSigned v₂ v₂')
    (rator : Prim.PureOp) (sz : ℕ) :
    Same J env w (do return pureOp rator sz [← genV exps v₁, ← genV exps v₂])
      (do return pureOp rator sz [← genV exps v₁', ← genV exps v₂']) :=
  h₁.genV.pure₂ h₂.genV (.pureArith rator sz)

theorem shiftOp_same (h₁ : Alike M exps env w false v₁ v₁') (h₂ : Alike M exps env w false v₂ v₂')
    (rator : Prim.PureOp) (sz : ℕ) :
    Same J env w (do return pureOp rator sz [← genV exps v₁, ← untagUnsigned exps v₂])
      (do return pureOp rator sz [← genV exps v₁', ← untagUnsigned exps v₂']) :=
  h₁.genV.pure₂ h₂.untagUnsigned (.pureArith rator sz)

theorem neg_same (h : Alike M exps env w isSigned v v') (sz : ℕ) :
    Same J env w (do return pureOp .sub sz [zero sz, ← genV exps v])
      (do return pureOp .sub sz [zero sz, ← genV exps v']) :=
  h.genV.map fun _ _ ha => by simp [pureOp, ha]

theorem count_same (h : Alike M exps env w isSigned v v') (rator : Prim.PureOp) (sz : ℕ) :
    Same J env w (do return tag (pureOp rator sz [← genV exps v]))
      (do return tag (pureOp rator sz [← genV exps v'])) :=
  h.genV.map fun _ _ ha => eval_pureOp_left (eval_pureOp_left (eval_pure_one ha))

/-- Arithmetic on native numbers. -/
theorem native_same (oper : CPS.P.PureOp) (signed : Bool) (sz : ℕ)
    (h : List.Forall₂ (Alike M exps env w false) args args') :
    Same J env w (genNative exps oper signed sz args) (genNative exps oper signed sz args') := by
  rcases h with _ | ⟨h₁, _ | ⟨h₂, _ | _⟩⟩
  case nil => exact .refl _ _
  case cons.nil =>
    cases oper with
    | neg => exact neg_same h₁ sz
    | notb =>
      cases signed
      · exact h₁.genV.map fun _ _ ha => eval_pureOp_left ha
      · exact .error_left _ _ _
    | cntpop =>
      cases signed
      · exact count_same h₁ .cntpop sz
      · exact .error_left _ _ _
    | cntlz =>
      cases signed
      · exact count_same h₁ .cntlz sz
      · exact .error_left _ _ _
    | cnttz =>
      cases signed
      · exact count_same h₁ .cnttz sz
      · exact .error_left _ _ _
    | _ => cases signed <;> exact .error_left _ _ _
  case cons.cons.nil =>
    cases oper with
    | add => exact binOp_same h₁ h₂ .add sz
    | sub => exact binOp_same h₁ h₂ .sub sz
    | mul => exact binOp_same h₁ h₂ .mul sz
    | quot => exact binOp_same h₁ h₂ _ sz
    | rem => exact binOp_same h₁ h₂ _ sz
    | lshift => exact shiftOp_same h₁ h₂ .shl sz
    | rshift => exact shiftOp_same h₁ h₂ .ashr sz
    | rshiftl => exact shiftOp_same h₁ h₂ .lshr sz
    | orb => exact binOp_same h₁ h₂ .orb sz
    | xorb => exact binOp_same h₁ h₂ .xorb sz
    | andb => exact binOp_same h₁ h₂ .andb sz
    | rotl =>
      cases signed
      · exact shiftOp_same h₁ h₂ .rotl sz
      · exact .error_left _ _ _
    | rotr =>
      cases signed
      · exact shiftOp_same h₁ h₂ .rotr sz
      · exact .error_left _ _ _
    | _ => cases signed <;> exact .error_left _ _ _
  case cons.cons.cons => cases signed <;> cases oper <;> exact .error_left _ _ _

theorem float_same (oper : CPS.P.PureOp) (sz : ℕ)
    (h : List.Forall₂ (Alike M exps env w isSigned) args args') :
    Same J env w (genFloat exps oper sz args) (genFloat exps oper sz args') := by
  refine (genVs_same h).bind fun es es' he => ?_
  cases oper <;> first
    | exact .error_left _ _ _
    | exact .ok (eval_pure_congr he)

theorem copy_same (from_ to_ : ℕ) (h : Alike M exps env w false v v') :
    Same J env w (genCopy exps from_ to_ v) (genCopy exps from_ to_ v') := by
  unfold genCopy
  split_ifs
  · exact h.genV
  · exact h.untagUnsigned
  · exact h.genV.map fun _ _ ha => eval_pure_one ha
  · exact h.untagUnsigned
  · exact .error_left _ _ _

theorem extend_same (from_ to_ : ℕ) (h : Alike M exps env w isSigned v v') :
    Same J env w (genExtend exps from_ to_ v) (genExtend exps from_ to_ v') := by
  unfold genExtend
  split_ifs
  · exact h.genV
  · exact h.genV.map fun _ _ ha => eval_pureOp_left ha
  · refine h.genV.bind fun _ _ ha => ?_
    exact .ok (eval_pureOp_left (eval_pureOp_left ha))
  · refine h.genV.bind fun _ _ ha => ?_
    exact .ok (eval_pureOp_left (eval_pureOp_left ha))
  · exact .error_left _ _ _

theorem trunc_same (from_ to_ : ℕ) (h : Alike M exps env w isSigned v v') :
    Same J env w (genTrunc exps from_ to_ v) (genTrunc exps from_ to_ v') := by
  refine h.genV.bind fun e e' he => ?_
  split_ifs
  · exact .ok he
  · exact .ok (eval_pureOp_left (eval_pureOp_left he))
  · exact .ok (eval_pure_one he)
  · exact .ok (eval_pureOp_left he)
  · exact .ok (eval_pureOp_left (eval_pureOp_left (eval_pureOp_left he)))

/-! ### Tagged arithmetic -/

theorem same_of_denotes {p : ℤ}
    (h : TaggedArith.Denotes (M.words w) exps env w oper isSigned args p)
    (h' : TaggedArith.Denotes (M.words w) exps env w oper isSigned args' p)
    (hsz : TaggedArith.pure (genV exps) oper isSigned sz args =
      TaggedArith.pure (genV exps) oper isSigned 63 args)
    (hsz' : TaggedArith.pure (genV exps) oper isSigned sz args' =
      TaggedArith.pure (genV exps) oper isSigned 63 args') :
    Same J env w (TaggedArith.pure (genV exps) oper isSigned sz args)
      (TaggedArith.pure (genV exps) oper isSigned sz args') := by
  obtain ⟨e, hc, he⟩ := h
  obtain ⟨e', hc', he'⟩ := h'
  rw [hsz, hsz', hc, hc']
  exact .ok (he.trans he'.symm)

theorem pure_size (hop : oper = .add ∨ oper = .sub ∨ oper = .mul ∨ oper = .xorb)
    (comp : Value → Except Exn Exp) (isSigned : Bool) (sz : ℕ) (v₁ v₂ : Value) :
    TaggedArith.pure comp oper isSigned sz [v₁, v₂] =
      TaggedArith.pure comp oper isSigned 63 [v₁, v₂] := by
  rcases hop with rfl | rfl | rfl | rfl <;> cases v₁ <;> cases v₂ <;> rfl

theorem pure_unary (hop : oper = .add ∨ oper = .sub ∨ oper = .mul ∨ oper = .xorb)
    (comp : Value → Except Exn Exp) (isSigned : Bool) (sz : ℕ) (v : Value) :
    TaggedArith.pure comp oper isSigned sz [v] = .error .impossible := by
  rcases hop with rfl | rfl | rfl | rfl <;> cases v <;> rfl

theorem tagged_pair {f : Exp → Exp} {op : Prim.PureOp} {e₁ e₂ e₁' e₂' : Exp}
    (hf : ∀ e e', eval (J w) env w e = eval (J w) env w e' →
      eval (J w) env w (f e) = eval (J w) env w (f e'))
    (h₁ : eval (J w) env w e₁ = eval (J w) env w e₁')
    (h₂ : eval (J w) env w e₂ = eval (J w) env w e₂') :
    eval (J w) env w (f (pureOp op TaggedArith.ity [e₁, e₂])) =
      eval (J w) env w (f (pureOp op TaggedArith.ity [e₁', e₂'])) := by
  refine hf _ _ ?_
  simp [pureOp, h₁, h₂]

theorem division_same {n₁ n₂ : ℤ} (op : Prim.PureOp)
    (h₁ : Operand (M.words w) exps env w isSigned v₁ n₁)
    (h₁' : Operand (M.words w) exps env w isSigned v₁' n₁)
    (h₂ : Operand (M.words w) exps env w isSigned v₂ n₂)
    (h₂' : Operand (M.words w) exps env w isSigned v₂' n₂) :
    Same J env w
      (do return tag (pureOp op TaggedArith.ity
        [← TaggedArith.divOperand (genV exps) isSigned v₁,
          ← TaggedArith.divOperand (genV exps) isSigned v₂]))
      (do return tag (pureOp op TaggedArith.ity
        [← TaggedArith.divOperand (genV exps) isSigned v₁',
          ← TaggedArith.divOperand (genV exps) isSigned v₂'])) := by
  have hsame : ∀ {v v' n}, Operand (M.words w) exps env w isSigned v n →
      Operand (M.words w) exps env w isSigned v' n →
      Same J env w (TaggedArith.divOperand (genV exps) isSigned v)
        (TaggedArith.divOperand (genV exps) isSigned v') := fun h h' =>
    Alike.same (M := M) (.inr ⟨_, h, h'⟩)
      (d := fun n => M.word (TaggedArith.untagged isSigned n)) fun hu => hu.divOperand
  refine (hsame h₁ h₁').bind fun a a' ha => (hsame h₂ h₂').map fun b b' hb => ?_
  exact tagged_pair (fun _ _ h => eval_pureOp_left (eval_pureOp_left h)) ha hb

/-- **Tagged arithmetic.** -/
theorem tagged_same (sz : ℕ) {ns : List ℤ}
    (h : Operands (M.words w) exps env w oper isSigned args ns)
    (h' : Operands (M.words w) exps env w oper isSigned args' ns) :
    Same J env w (TaggedArith.pure (genV exps) oper isSigned sz args)
      (TaggedArith.pure (genV exps) oper isSigned sz args') := by
  cases h with
  | @unary v n hv =>
    obtain ⟨hv'⟩ := h'
    have halike : Alike M exps env w isSigned v _ := .inr ⟨n, hv, hv'⟩
    cases oper with
    | neg => exact halike.genV.map fun _ _ ha => by simp [pureOp, eval, evals, ha]
    | notb => exact halike.genV.map fun _ _ ha => eval_pureOp_left ha
    | cntpop =>
      exact halike.genV.map fun _ _ ha =>
        eval_pureOp_left (eval_pureOp_left (eval_pure_one (eval_pureOp_left ha)))
    | cntlz =>
      change Same J env w (ite _ _ _) (ite _ _ _)
      split_ifs
      · exact halike.genV.map fun _ _ ha => eval_pureOp_left (eval_pureOp_left
          (eval_pureOp_left (eval_pure_one (eval_pure_one ha))))
      · exact halike.genV.map fun _ _ ha =>
          eval_pureOp_left (eval_pureOp_left (eval_pure_one ha))
    | cnttz =>
      change Same J env w (ite _ _ _) (ite _ _ _)
      split_ifs
      · refine halike.genV.map fun _ _ ha => eval_pureOp_left (eval_pureOp_left (eval_pure_one ?_))
        simp [TaggedArith.untagUInt, pureOp, eval, evals, ha]
      · exact halike.genV.map fun _ _ ha =>
          eval_pureOp_left (eval_pureOp_left (eval_pure_one (eval_pureOp_left ha)))
    | add => exact pure_unary (.inl rfl) (genV exps) isSigned sz v ▸ .error_left _ _ _
    | sub => exact pure_unary (.inr (.inl rfl)) (genV exps) isSigned sz v ▸ .error_left _ _ _
    | mul => exact pure_unary (.inr (.inr (.inl rfl))) (genV exps) isSigned sz v ▸ .error_left _ _ _
    | xorb => exact pure_unary (.inr (.inr (.inr rfl))) (genV exps) isSigned sz v ▸ .error_left _ _ _
    | _ => exact .error_left _ _ _
  | @binary v₁ v₂ n₁ n₂ h₁ h₂ =>
    obtain ⟨_⟩ | ⟨h₁', h₂'⟩ := h'
    cases oper with
    | add =>
      have hb := Bool.and_true isSigned
      exact same_of_denotes (TaggedArith.denotes_add h₁ (hb ▸ h₂))
        (TaggedArith.denotes_add h₁' (hb ▸ h₂')) (pure_size (.inl rfl) _ _ _ _ _)
        (pure_size (.inl rfl) _ _ _ _ _)
    | sub =>
      have hb := Bool.and_true isSigned
      exact same_of_denotes (TaggedArith.denotes_sub h₁ (hb ▸ h₂))
        (TaggedArith.denotes_sub h₁' (hb ▸ h₂')) (pure_size (.inr (.inl rfl)) _ _ _ _ _)
        (pure_size (.inr (.inl rfl)) _ _ _ _ _)
    | mul =>
      have hb := Bool.and_true isSigned
      exact same_of_denotes (TaggedArith.denotes_mul h₁ (hb ▸ h₂))
        (TaggedArith.denotes_mul h₁' (hb ▸ h₂')) (pure_size (.inr (.inr (.inl rfl))) _ _ _ _ _)
        (pure_size (.inr (.inr (.inl rfl))) _ _ _ _ _)
    | xorb =>
      have hb := Bool.and_true isSigned
      exact same_of_denotes (TaggedArith.denotes_xorb h₁ (hb ▸ h₂))
        (TaggedArith.denotes_xorb h₁' (hb ▸ h₂')) (pure_size (.inr (.inr (.inr rfl))) _ _ _ _ _)
        (pure_size (.inr (.inr (.inr rfl))) _ _ _ _ _)
    | orb =>
      have hb := Bool.and_true isSigned
      exact binOp_same (M := M) (.inr ⟨n₁, h₁, h₁'⟩) (.inr ⟨n₂, hb ▸ h₂, hb ▸ h₂'⟩) .orb _
    | andb =>
      have hb := Bool.and_true isSigned
      exact binOp_same (M := M) (.inr ⟨n₁, h₁, h₁'⟩) (.inr ⟨n₂, hb ▸ h₂, hb ▸ h₂'⟩) .andb _
    | quot =>
      have hb := Bool.and_true isSigned
      exact division_same .udiv h₁ h₁' (hb ▸ h₂) (hb ▸ h₂')
    | rem =>
      have hb := Bool.and_true isSigned
      exact division_same .urem h₁ h₁' (hb ▸ h₂) (hb ▸ h₂')
    | lshift =>
      have hb := Bool.and_false isSigned
      obtain ⟨e₁, e₂, hc, he₁, he₂⟩ := TaggedArith.ok_shift_left h₁ (hb ▸ h₂) sz
      obtain ⟨e₁', e₂', hc', he₁', he₂'⟩ := TaggedArith.ok_shift_left h₁' (hb ▸ h₂') sz
      rw [hc, hc']
      exact .ok (tagged_pair (fun _ _ h => eval_pureOp_left h) (he₁.trans he₁'.symm)
        (he₂.trans he₂'.symm))
    | rshift =>
      have hb := Bool.and_false isSigned
      obtain ⟨e₁, e₂, hc, he₁, he₂⟩ :=
        TaggedArith.ok_shift_right h₁ (hb ▸ h₂) .rshift .ashr (.inl ⟨rfl, rfl⟩) sz
      obtain ⟨e₁', e₂', hc', he₁', he₂'⟩ :=
        TaggedArith.ok_shift_right h₁' (hb ▸ h₂') .rshift .ashr (.inl ⟨rfl, rfl⟩) sz
      rw [hc, hc']
      exact .ok (tagged_pair (fun _ _ h => eval_pureOp_left h) (he₁.trans he₁'.symm)
        (he₂.trans he₂'.symm))
    | rshiftl =>
      have hb := Bool.and_false isSigned
      obtain ⟨e₁, e₂, hc, he₁, he₂⟩ :=
        TaggedArith.ok_shift_right h₁ (hb ▸ h₂) .rshiftl .lshr (.inr ⟨rfl, rfl⟩) sz
      obtain ⟨e₁', e₂', hc', he₁', he₂'⟩ :=
        TaggedArith.ok_shift_right h₁' (hb ▸ h₂') .rshiftl .lshr (.inr ⟨rfl, rfl⟩) sz
      rw [hc, hc']
      exact .ok (tagged_pair (fun _ _ h => eval_pureOp_left h) (he₁.trans he₁'.symm)
        (he₂.trans he₂'.symm))
    | _ => exact .error_left _ _ _

theorem recSubscript_spec {u : Value} (hu : Operand (M.words w) exps env w true u n)
    (hok : genRecSubscript exps v₁ u = .ok e) :
    ∃ a, genV exps v₁ = .ok a ∧ eval (J w) env w e = (eval (J w) env w a).bind fun x =>
      (J w).pure .pureSubscript [x, M.word (unsigned 64 (signed 63 n))] := by
  rcases hu.cases with ⟨x, rfl, hx⟩ | ⟨i, s, rfl, hi, rfl⟩
  · obtain ⟨a, ha, hok⟩ := bind_eq_ok.mp hok
    cases hok
    have hix := TaggedArith.eval_untagInt (M := M.words w) hx
    refine ⟨a, ha, ?_⟩
    change ((evals (J w) env w [a, TaggedArith.untagInt (binding exps x)]).bind fun vs =>
      (J w).pure .pureSubscript vs) = _
    rw [evals, evals, hix]
    cases eval (J w) env w a <;> rfl
  · change (if 0 ≤ i ∧ i < 2 ^ (Target.defaultIntSz - 1) then
      (do return Exp.select i.toNat (← genV exps v₁)) else .error .overflow) = .ok e at hok
    split at hok
    · next hrange =>
      obtain ⟨a, ha, hok⟩ := bind_eq_ok.mp hok
      cases hok
      refine ⟨a, ha, ?_⟩
      have hnat : ((i.toNat : ℕ) : ℤ) = i := Int.toNat_of_nonneg hrange.1
      have hpat : Pattern 64 i := ⟨hrange.1, hrange.2.trans_le (two_pow_le (by decide))⟩
      rw [TaggedArith.signed_literal hi, unsigned_of_pattern hpat]
      refine congrArg _ (funext fun x => ?_)
      have hsub := M.subscript x (i := i.toNat) (by rw [hnat]; exact hpat) w
      rw [hnat] at hsub
      exact hsub.symm
    · cases hok

theorem recSubscript_same (h₁ : Alike M exps env w isSigned v₁ v₁')
    (h₂ : Alike M exps env w true v₂ v₂') :
    Same J env w (genRecSubscript exps v₁ v₂) (genRecSubscript exps v₁' v₂') := by
  rcases h₂ with rfl | ⟨n, hv, hv'⟩
  · -- the same index
    have hvar : Same J env w
        (do return Exp.pure .pureSubscript [← genV exps v₁, ← untagSigned exps v₂'])
        (do return Exp.pure .pureSubscript [← genV exps v₁', ← untagSigned exps v₂']) :=
      h₁.genV.pure₂ (.refl _ _) .pureSubscript
    cases v₂' with
    | num c =>
      obtain ⟨i, s, t⟩ := c
      cases t with
      | false => exact hvar
      | true =>
        simp only [genRecSubscript]
        split_ifs
        · exact h₁.genV.map fun _ _ ha => eval_select ha
        · exact .error_left _ _ _
    | _ => exact hvar
  · intro e e' he he'
    obtain ⟨a, ha, hev⟩ := recSubscript_spec hv he
    obtain ⟨a', ha', hev'⟩ := recSubscript_spec hv' he'
    rw [hev, hev', h₁.genV a a' ha ha']

/-- **Pure operators.** -/
theorem pure_same (p : CPS.P.Pure) (h : PureAlike M exps env w p args args') :
    Same J env w (genPure exps p args) (genPure exps p args') := by
  cases p with
  | pureArith oper kind =>
    cases kind with
    | int sz =>
      simp only [PureAlike] at h
      change Same J env w (if isTaggedInt sz then _ else _) (if isTaggedInt sz then _ else _)
      split_ifs at h ⊢
      · obtain ⟨ns, hns, hns'⟩ := h
        exact tagged_same sz hns hns'
      · exact native_same oper true sz h
    | uint sz =>
      simp only [PureAlike] at h
      change Same J env w (if isTaggedInt sz then _ else _) (if isTaggedInt sz then _ else _)
      split_ifs at h ⊢
      · obtain ⟨ns, hns, hns'⟩ := h
        exact tagged_same sz hns hns'
      · exact native_same oper false sz h
    | float sz => exact float_same oper sz h
    | enum => exact .error_left _ _ _
  | copy from_ to_ =>
    rcases h with _ | ⟨h₁, _ | _⟩
    case cons.nil => exact copy_same from_ to_ h₁
    all_goals exact .error_left _ _ _
  | extend from_ to_ =>
    rcases h with _ | ⟨h₁, _ | _⟩
    case cons.nil => exact extend_same from_ to_ h₁
    all_goals exact .error_left _ _ _
  | trunc from_ to_ =>
    rcases h with _ | ⟨h₁, _ | _⟩
    case cons.nil => exact trunc_same from_ to_ h₁
    all_goals exact .error_left _ _ _
  | intToReal from_ to_ =>
    rcases h with _ | ⟨h₁, _ | _⟩
    case cons.nil =>
      have hgen : ∀ v, genPure exps (.intToReal from_ to_) [v] =
          (do
            let e ← if isTaggedInt from_ then untagSigned exps v else genV exps v
            return .pure (.intToFloat ity to_) [e]) := fun _ => rfl
      rw [hgen, hgen]
      split_ifs
      · exact h₁.untagSigned.map fun _ _ ha => eval_pure_one ha
      · exact h₁.genV.map fun _ _ ha => eval_pure_one ha
    all_goals exact .error_left _ _ _
  | pureNumsubscript kind =>
    rcases h with _ | ⟨h₁, _ | ⟨h₂, _ | _⟩⟩
    case cons.cons.nil => exact numSubscript_same kind h₁ h₂
    all_goals exact .error_left _ _ _
  | subscriptv =>
    rcases h with _ | ⟨h₁, _ | ⟨h₂, _ | _⟩⟩
    case cons.cons.nil =>
      refine h₁.genV.bind fun a a' ha => h₂.untagSigned.map fun b b' hb => ?_
      simp [getSeqData, ha, hb]
    all_goals exact .error_left _ _ _
  | recsubscript =>
    rcases h with _ | ⟨h₁, _ | ⟨h₂, _ | _⟩⟩
    case cons.cons.nil => exact recSubscript_same h₁ h₂
    all_goals exact .error_left _ _ _
  | raw64subscript =>
    rcases h with _ | ⟨h₁, _ | ⟨h₂, _ | _⟩⟩
    case cons.cons.nil => exact h₁.genV.pure₂ h₂.untagSigned _
    all_goals exact .error_left _ _ _
  | gettag =>
    rcases h with _ | ⟨h₁, _ | _⟩
    case cons.nil =>
      exact h₁.genV.map fun _ _ ha =>
        eval_toMLWord_congr (eval_pureOp_left (eval_looker_left ha))
    all_goals exact .error_left _ _ _
  | objlength =>
    rcases h with _ | ⟨h₁, _ | _⟩
    case cons.nil =>
      exact h₁.genV.map fun _ _ ha => eval_pureOp_left (eval_pureOp_left (eval_looker_left ha))
    all_goals exact .error_left _ _ _
  | unwrap kind =>
    rcases h with _ | ⟨h₁, _ | _⟩
    case cons.nil =>
      cases kind with
      | int sz => exact h₁.genV.map fun _ _ ha => eval_looker_left ha
      | float sz => exact h₁.genV.map fun _ _ ha => eval_looker_left ha
      | _ => exact .error_left _ _ _
    all_goals cases kind <;> exact .error_left _ _ _
  | length | getcon | getexn | getseqdata =>
    rcases h with _ | ⟨h₁, _ | _⟩
    case cons.nil => exact h₁.genV.map fun _ _ ha => eval_select ha
    all_goals exact .error_left _ _ _
  | bitsToReal | realToBits =>
    rcases h with _ | ⟨h₁, _ | _⟩
    case cons.nil => exact h₁.genV.map fun _ _ ha => eval_pure_one ha
    all_goals exact .error_left _ _ _
  | cast | box | unbox =>
    rcases h with _ | ⟨h₁, _ | _⟩
    case cons.nil => exact h₁.genV
    all_goals exact .error_left _ _ _
  | _ => exact .error_left _ _ _

/-! ### Updates -/

theorem trunc_spec (hsz : sz < 63) {u : Value} (hu : Operand (M.words w) exps env w isSigned u n) :
    ∃ e, trunc exps sz isSigned u = .ok e ∧
      eval (J w) env w e = some (M.word (unsigned sz n)) := by
  have hsz' : sz ≤ 64 := by omega
  rcases hu.cases with ⟨x, rfl, hx⟩ | ⟨i, s', rfl, hi, rfl⟩
  · cases isSigned with
    | true =>
      refine ⟨_, rfl, ?_⟩
      have huntag := eval_trunc hsz' (TaggedArith.eval_untagInt (M := M.words w) hx)
      rw [unsigned_unsigned hsz', unsigned_signed (by omega)] at huntag
      exact huntag
    | false => exact ⟨_, rfl, eval_trunc hsz' (TaggedArith.eval_untagUInt (M := M.words w) hx)⟩
  · refine ⟨_, rfl, ?_⟩
    rw [unsigned_unsigned (by omega), eval, M.num hsz']

theorem coerceInt_same (sz : ℕ) (h : Alike M exps env w isSigned v v') :
    Same J env w (coerceInt exps sz isSigned v) (coerceInt exps sz isSigned v') := by
  unfold coerceInt
  split_ifs with h₁ h₂
  · exact h.genV
  · exact h.same (d := fun n => M.word (unsigned sz n)) fun hu => trunc_spec h₂ hu
  · exact .error_left _ _ _

variable {v₃ v₃' : Value}

theorem update_same (h₁ : Alike M exps env w true v₁ v₁') (h₂ : Alike M exps env w true v₂ v₂')
    (h₃ : Same J env w r r') (op : Prim.Setter) (k : Stm) :
    SameStm J env w
      (do return .setter op [getSeqData (← genV exps v₁), ← untagSigned exps v₂, ← r] k)
      (do return .setter op [getSeqData (← genV exps v₁'), ← untagSigned exps v₂', ← r'] k) := by
  refine h₁.genV.bind fun a a' ha => h₂.untagSigned.bind fun b b' hb => h₃.map fun c c' hc =>
    step_setter ?_
  simp [getSeqData, ha, hb, hc]

theorem numUpdate_same (h₁ : Alike M exps env w true v₁ v₁') (h₂ : Alike M exps env w true v₂ v₂')
    (h₃ : Same J env w r r') (op : Prim.Setter) (k : Stm) :
    SameStm J env w
      (do
        let e ← r
        return .setter op [getSeqData (← genV exps v₁), ← untagSigned exps v₂, e] k)
      (do
        let e ← r'
        return .setter op [getSeqData (← genV exps v₁'), ← untagSigned exps v₂', e] k) := by
  refine h₃.bind fun c c' hc => h₁.genV.bind fun a a' ha => h₂.untagSigned.map fun b b' hb =>
    step_setter ?_
  simp [getSeqData, ha, hb, hc]

/-- An update of a spill record, whose index is a literal. -/
theorem rawUpdate_same (cty : CPS.Cty) (h₁ : Alike M exps env w isSigned v₁ v₁')
    (h₂ : Alike M exps env w true v₂ v₂') (h₃ : Alike M exps env w isSigned v₃ v₃') (k : Stm) :
    SameStm J env w (genSetter exps (.rawupdate cty) [v₁, v₂, v₃] k)
      (genSetter exps (.rawupdate cty) [v₁', v₂', v₃'] k) := by
  obtain ⟨op, hop⟩ : ∃ op, ∀ u i t u', genSetter exps (.rawupdate cty) [u, .num ⟨i, t⟩, u'] k =
      (do return .setter op [← genV exps u, num i, ← genV exps u'] k) := by
    cases cty with
    | fltt sz =>
      by_cases hsz : sz = 64
      · subst hsz
        exact ⟨.rawUpdate .flt 64, fun _ _ _ _ => rfl⟩
      · refine ⟨.rawUpdate .int ity, fun u i t u' => ?_⟩
        simp only [genSetter.eq_def]
        split
        · next h =>
          cases h
          exact absurd rfl hsz
        · rfl
    | _ => exact ⟨.rawUpdate .int ity, fun _ _ _ _ => rfl⟩
  have hsame : ∀ i t t', SameStm J env w (genSetter exps (.rawupdate cty) [v₁, .num ⟨i, t⟩, v₃] k)
      (genSetter exps (.rawupdate cty) [v₁', .num ⟨i, t'⟩, v₃'] k) := by
    intro i t t'
    rw [hop, hop]
    refine h₁.genV.bind fun a a' ha => h₃.genV.map fun c c' hc => step_setter ?_
    simp [ha, hc]
  rcases h₂ with rfl | ⟨n, hv, hv'⟩
  · cases v₂' with
    | num c => exact hsame c.ival c.ty c.ty
    | _ => exact .error_left _ _ _
  · rcases hv.cases with ⟨x, rfl, -⟩ | ⟨i, s, rfl, hi, rfl⟩
    · exact .error_left _ _ _
    · rcases hv'.cases with ⟨x', rfl, -⟩ | ⟨i', s', rfl, hi', hii'⟩
      · exact fun _ _ _ h => by cases h
      · obtain rfl : i = i' := by
          rw [← TaggedArith.signed_literal hi, hii', TaggedArith.signed_literal hi']
        exact hsame i _ _

theorem rawUpdate_error {cty : CPS.Cty} (h : args.length ≠ 3) :
    genSetter exps (.rawupdate cty) args k = .error .impossible := by
  rcases args with _ | ⟨v₁, _ | ⟨v₂, _ | ⟨v₃, _ | _⟩⟩⟩
  case cons.cons.nil => cases v₂ <;> rfl
  case cons.cons.cons.nil => exact absurd rfl h
  case cons.cons.cons.cons => cases v₂ <;> rfl
  all_goals rfl

/-- **Updates**, but for `SETSPECIAL`. -/
theorem setter_same (oper : CPS.P.Setter) (hop : oper ≠ .setspecial)
    (h : SetterAlike M exps env w oper args args') (k : Stm) :
    SameStm J env w (genSetter exps oper args k) (genSetter exps oper args' k) := by
  cases oper with
  | setspecial => exact absurd rfl hop
  | numupdate kind =>
    cases kind with
    | int sz =>
      rcases h with _ | ⟨h₁, _ | ⟨h₂, _ | ⟨h₃, _ | _⟩⟩⟩
      case cons.cons.cons.nil =>
        exact numUpdate_same h₁ h₂ (coerceInt_same sz h₃) (.rawUpdate .int sz) k
      all_goals exact .error_left _ _ _
    | uint sz =>
      obtain ⟨arr, arr', ix, ix', v, v', rfl, rfl, h₁, h₂, h₃⟩ := h
      exact numUpdate_same h₁ h₂ (coerceInt_same sz h₃) (.rawUpdate .int sz) k
    | float sz =>
      rcases h with _ | ⟨h₁, _ | ⟨h₂, _ | ⟨h₃, _ | _⟩⟩⟩
      case cons.cons.cons.nil => exact numUpdate_same h₁ h₂ h₃.genV (.rawUpdate .flt sz) k
      all_goals exact .error_left _ _ _
    | enum =>
      rcases h with _ | ⟨h₁, _ | ⟨h₂, _ | ⟨h₃, _ | _⟩⟩⟩ <;> exact .error_left _ _ _
  | rawupdate cty =>
    by_cases hlen : args.length = 3
    · rcases h with _ | ⟨h₁, _ | ⟨h₂, _ | ⟨h₃, _ | _⟩⟩⟩
      case cons.cons.cons.nil => exact rawUpdate_same cty h₁ h₂ h₃ k
      all_goals simp at hlen
    · rw [rawUpdate_error hlen]
      exact .error_left _ _ _
  | unboxedupdate =>
    rcases h with _ | ⟨h₁, _ | ⟨h₂, _ | ⟨h₃, _ | _⟩⟩⟩
    case cons.cons.cons.nil => exact update_same h₁ h₂ h₃.genV .unboxedUpdate k
    all_goals exact .error_left _ _ _
  | update =>
    rcases h with _ | ⟨h₁, _ | ⟨h₂, _ | ⟨h₃, _ | _⟩⟩⟩
    case cons.cons.cons.nil => exact update_same h₁ h₂ h₃.genV .update k
    all_goals exact .error_left _ _ _
  | unboxedassign =>
    rcases h with _ | ⟨h₁, _ | ⟨h₂, _ | _⟩⟩
    case cons.cons.nil => exact .setter₂ h₁.genV h₂.genV .unboxedAssign k
    all_goals exact .error_left _ _ _
  | assign =>
    rcases h with _ | ⟨h₁, _ | ⟨h₂, _ | _⟩⟩
    case cons.cons.nil => exact .setter₂ h₁.genV h₂.genV .assign k
    all_goals exact .error_left _ _ _
  | sethdlr =>
    rcases h with _ | ⟨h₁, _ | _⟩
    case cons.nil => exact .setter₁ h₁.genV .setHdlr k
    all_goals exact .error_left _ _ _
  | setvar =>
    rcases h with _ | ⟨h₁, _ | _⟩
    case cons.nil => exact .setter₁ h₁.genV .setVar k
    all_goals exact .error_left _ _ _
  | rawstore kind =>
    rcases h with _ | ⟨h₁, _ | ⟨h₂, _ | ⟨h₃, _ | _⟩⟩⟩
    case cons.cons.nil =>
      refine (Agree.refl id (rawStore kind)).bind fun op op' hop => ?_
      obtain rfl : op = op' := hop
      refine h₁.genV.bind fun a a' ha => h₂.genV.map fun b b' hb => step_setter ?_
      simp [ha, hb]
    case cons.cons.cons.nil =>
      refine (Agree.refl id (rawStore kind)).bind fun op op' hop => ?_
      obtain rfl : op = op' := hop
      exact SameStm.setter₃ h₁.genV h₂.genV h₃.genV op k
    all_goals exact .error_left _ _ _

theorem switch_same (h : Alike M exps env w true v v') (cases : List Stm) :
    SameStm J env w (genSwitch exps v cases) (genSwitch exps v' cases) :=
  h.untagSigned.map fun _ _ ha => by simp [step, ha]

/-! ### Special objects -/

/-- **The descriptor of a special object** with an index. -/
def descOf (n : ℤ) : ℤ := 128 * unsigned 57 n + 26

theorem pattern_descOf (n : ℤ) : Pattern 64 (descOf n) := by
  have h := pattern_unsigned 57 n
  unfold descOf Pattern at *
  omega

theorem makeDescInf_eq (n : ℤ) : makeDescInf n tagSpecial = n * 2 ^ 7 + 26 := by
  rw [makeDescInf, Int.shiftLeft_eq]
  exact IntBitwise.lor_mul_two_pow (a := n) (b := 26) (k := 7) (by decide) (by decide)

theorem unsigned_desc (n : ℤ) : unsigned 64 (n * 2 ^ 7 + 26) = descOf n := by
  unfold descOf unsigned
  omega

theorem descOf_congr (h : unsigned 57 m = unsigned 57 n) : descOf m = descOf n := by
  rw [descOf, h, descOf]

theorem descOf_inj (h : descOf m = descOf n) : unsigned 57 m = unsigned 57 n := by
  unfold descOf at h
  omega

theorem specialDesc_literal (len : Value) (i : ℤ) (s : ℕ) :
    ∃ e, specialDesc exps len (.num ⟨i, ⟨s, true⟩⟩) = .ok e ∧
      eval (J w) env w e = some (M.word (descOf i)) := by
  refine ⟨_, rfl, ?_⟩
  have hnum : eval (J w) env w (num (makeDescInf i tagSpecial)) =
      some (M.word (unsigned 64 (makeDescInf i tagSpecial))) :=
    TaggedArith.eval_num (M := M.words w) _
  rw [hnum, makeDescInf_eq, unsigned_desc]

theorem specialDesc_var {len : Value} {u : ℤ} (x : Lvar) (hlen : untagSigned exps len = .ok e)
    (he : eval (J w) env w e = some (M.word u)) :
    ∃ e', specialDesc exps len (.var x) = .ok e' ∧
      eval (J w) env w e' = some (M.word (descOf u)) := by
  refine ⟨_, ok_map hlen fun e =>
    pureOp .orb ity [pureOp .shl ity [e, num tagWidth], num descSpecial], ?_⟩
  have hwidth : eval (J w) env w (num tagWidth) = some (M.word 7) :=
    TaggedArith.eval_num (M := M.words w) 7
  have hspecial : eval (J w) env w (num descSpecial) = some (M.word 26) := by
    exact TaggedArith.eval_num (M := M.words w) 26
  have hshl : execPure .shl 64 [u, 7] = some (unsigned 57 u * 2 ^ 7) := by
    have hmul : unsigned 64 (u * 2 ^ (7 : ℤ).toNat) = unsigned 57 u * 2 ^ 7 := by
      have h7 : (7 : ℤ).toNat = 7 := rfl
      rw [h7]
      unfold unsigned
      omega
    rw [execPure_shl, if_pos (by decide), hmul]
  have horb : execPure .orb 64 [unsigned 57 u * 2 ^ 7, 26] = some (descOf u) := by
    rw [execPure_orb, IntBitwise.lor_mul_two_pow (by decide) (by decide), mul_comm]
    rfl
  exact (M.words w).eval_pure₂ ((M.words w).eval_pure₂ he hwidth hshl) hspecial horb

theorem specialDesc_spec (hi : Operand (M.words w) exps env w true i n) :
    ∃ e, specialDesc exps i i = .ok e ∧ eval (J w) env w e = some (M.word (descOf n)) := by
  obtain ⟨e', he', hev⟩ := untagSigned_spec hi
  rcases hi.cases with ⟨x, rfl, -⟩ | ⟨c, s, rfl, -, rfl⟩
  · obtain ⟨e, hc, he⟩ := specialDesc_var (M := M) x he' hev
    refine ⟨e, hc, he.trans ?_⟩
    have hlow : unsigned 57 (unsigned 64 (signed 63 n)) = unsigned 57 n := by
      rw [unsigned_unsigned (by decide), unsigned_signed (by decide)]
    rw [descOf_congr hlow]
  · have hlit : ∃ e, specialDesc exps (.num ⟨c, ⟨s, true⟩⟩) (.num ⟨c, ⟨s, true⟩⟩) = .ok e ∧
        eval (J w) env w e = some (M.word (descOf c)) := specialDesc_literal _ c s
    obtain ⟨e, hc, he⟩ := hlit
    refine ⟨e, hc, he.trans ?_⟩
    rw [descOf_congr (unsigned_unsigned (by decide : 57 ≤ 63) c)]

theorem mkspecial_same {i' : Value} (hi : Alike M exps env w true i i')
    (h : Alike M exps env w isSigned v v') (x : Lvar) (k : Stm) :
    SameStm J env w (genMkspecial exps i v x k) (genMkspecial exps i' v' x k) := by
  have hdesc : Same J env w (specialDesc exps i i) (specialDesc exps i' i') :=
    hi.same (f := fun i => specialDesc exps i i) (d := fun n => M.word (descOf n)) specialDesc_spec
  refine hdesc.bind fun a a' ha => h.genV.map fun b b' hb => ?_
  simp [step, ha, hb]

variable (M w) in
def HasIndex (o : V) (n : ℤ) : Prop :=
  (J w).looker (.rawLoad .int 64) [o, M.word (unsigned 64 (-8))] w = some (M.word (descOf n))

theorem HasIndex.unique (h : HasIndex M w o m) (h' : HasIndex M w o n) :
    unsigned 57 m = unsigned 57 n :=
  descOf_inj (M.injective (pattern_descOf m) (pattern_descOf n)
    (Option.some.inj (h.symm.trans h')))

/-- **The index that is read.** -/
theorem getspecial_spec {obj : Value} (h : HasIndex M w o n) (ha : genV exps obj = .ok a)
    (hev : eval (J w) env w a = some o) (hok : genLooker exps .getspecial [obj] = .ok e) :
    eval (J w) env w e = some (M.word (2 * unsigned 57 n + 1)) := by
  obtain rfl : getObjLength a = e := Except.ok.inj ((ok_map ha getObjLength).symm.trans hok)
  have hoff : eval (J w) env w (num (-ws)) = some (M.word (unsigned 64 (-8))) :=
    TaggedArith.eval_num (M := M.words w) _
  have hdesc : eval (J w) env w (getDescriptor a) = some (M.word (descOf n)) := by
    rw [getDescriptor, looker, eval, evals, hev, evals, hoff]
    exact h
  have hsix : eval (J w) env w (num (tagWidth - 1 : ℕ)) = some (M.word 6) :=
    TaggedArith.eval_num (M := M.words w) 6
  have hlshr : execPure .lshr 64 [descOf n, 6] = some (2 * unsigned 57 n) := by
    have hdiv : descOf n / 2 ^ (6 : ℤ).toNat = 2 * unsigned 57 n := by
      have h6 : (6 : ℤ).toNat = 6 := rfl
      rw [h6, descOf]
      omega
    rw [execPure_lshr, if_pos (by decide), hdiv]
  have horTag := eval_orTag (M := M.words w) ((M.words w).eval_pure₂ hdesc hsix hlshr)
  rw [Int.mul_ediv_cancel_left _ two_ne_zero] at horTag
  exact horTag

theorem mkspecial_spec (S : SpecialObjects M) {ev : Exp} {y : V} {x : Lvar} {stm : Stm}
    (hi : Operand (M.words w) exps env w true i n) (hv : genV exps v = .ok ev)
    (hev : eval (J w) env w ev = some y) (hok : genMkspecial exps i v x k = .ok stm) :
    ∃ o w', step (J w) ⟨env, w, stm⟩ = some (some ⟨env.set x o, w', k⟩) ∧ S.Special o w' ∧
      HasIndex M w' o n := by
  obtain ⟨e, hc, he⟩ := specialDesc_spec hi
  obtain ⟨o, w', halloc, hspecial, hload⟩ := S.alloc w (descOf n) y (pattern_descOf n)
  obtain rfl : .alloc .special [e, ev] x k = stm :=
    Except.ok.inj ((ok_map₂ hc hv fun a b => Stm.alloc .special [a, b] x k).symm.trans hok)
  refine ⟨o, w', ?_, hspecial, hload⟩
  simp [step, he, hev, halloc]

theorem setspecial_step (S : SpecialObjects M) {stm : Stm} (hv : genV exps v = .ok a)
    (hev : eval (J w) env w a = some o) (ho : S.Special o w) (hc : specialDesc exps v i = .ok e)
    (he : eval (J w) env w e = some (M.word (descOf n)))
    (hok : genSetter exps .setspecial [v, i] k = .ok stm) :
    ∃ w', step (J w) ⟨env, w, stm⟩ = some (some ⟨env, w', k⟩) ∧ HasIndex M w' o n := by
  obtain ⟨w', hset, -, hload⟩ := S.store ho (descOf n) (pattern_descOf n)
  have hoff : eval (J w) env w (num (-ws)) = some (M.word (unsigned 64 (-8))) :=
    TaggedArith.eval_num (M := M.words w) _
  obtain rfl : .setter (.rawStore .int ity) [a, num (-ws), e] k = stm :=
    Except.ok.inj ((ok_map₂ hc hv fun e a =>
      Stm.setter (.rawStore .int ity) [a, num (-ws), e] k).symm.trans hok)
  refine ⟨w', ?_, hload⟩
  rw [step]
  simp only [evals, hev, hoff, he]
  exact congrArg (· >>= fun w' => some (some (State.mk env w' k))) hset

theorem specialDesc_object {p : ℤ} {x : Lvar} (i : Lvar) (hv : genV exps (.var x) = .ok a)
    (hev : eval (J w) env w a = some (M.word p)) :
    ∃ e, specialDesc exps (.var x) (.var i) = .ok e ∧
      eval (J w) env w e = some (M.word (descOf (signed 64 p / 2))) := by
  have hashr : eval (J w) env w (pureOp .ashr ity [a, one]) =
      some (M.word (unsigned 64 (signed 64 p / 2))) := by
    refine (M.words w).eval_pure₂ hev (eval_one (M := M.words w)) ?_
    rw [execPure_ashr, if_pos (by decide), Int.toNat_one, pow_one]
  have huntag : untagSigned exps (.var x) = .ok (pureOp .ashr ity [a, one]) := by
    cases hv
    rfl
  obtain ⟨e, hc, he⟩ := specialDesc_var (M := M) i huntag hashr
  refine ⟨e, hc, he.trans ?_⟩
  rw [descOf_congr (unsigned_unsigned (by decide : 57 ≤ 64) _)]

end Alike

section Correct

variable {V W : Type} {J : W → Interp V W}

/-- The index that is read back is the index `n`. -/
def ReadsIndex (M : Machine J) (o : V) (n : ℤ) (w' : W) : Prop :=
  ∀ exps env obj a e, genV exps obj = .ok a → eval (J w') env w' a = some o →
    genLooker exps .getspecial [obj] = .ok e →
    eval (J w') env w' e = some (M.word (2 * n + 1))

theorem readsIndex_iff {M : Machine J} {w' : W} {o : V} {m n : ℤ} (hn : Pattern 63 n)
    (h : HasIndex M w' o m) : ReadsIndex M o n w' ↔ unsigned 57 m = n := by
  constructor
  · intro hread
    -- the object as the value of a variable
    have hev : eval (J w') (fun _ => some o) w' (.var 0) = some o := rfl
    have hrep := hread (fun _ => none) (fun _ => some o) (.var 0) (.var 0) _ rfl hev rfl
    have hgot := getspecial_spec h (rfl : genV (fun _ => none) (.var 0) = .ok (.var 0)) hev rfl
    have hm := (pattern_unsigned 57 m).mono (by decide : 57 ≤ 63)
    have heq := M.injective hm.tag hn.tag (Option.some.inj (hgot.symm.trans hrep))
    omega
  · rintro rfl exps env obj a e ha hev hok
    exact getspecial_spec h ha hev hok

end Correct

def specialEnv : Env ℤ := fun x => if x = 0 then some 1000 else if x = 1 then some 5 else none

/-- The index that is read from the object after an operand has been set. -/
def setGet (i : Value) : Option ℤ := do
  let stm ← (genSetter (fun _ => none) .setspecial [.var 0, i] (.goto 0 [])).toOption
  let e ← (genLooker (fun _ => none) .getspecial [.var 0]).toOption
  let s ← (← step (cellsInterp ⟨0, fun _ _ => 0⟩) ⟨specialEnv, ⟨0, fun _ _ => 0⟩, stm⟩)
  eval (cellsInterp s.world) s.env s.world e

end SmlNj.CPStoCFG
