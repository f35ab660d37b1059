import SmlNj.CPS.Semantics

/-!
# A machine for CPS terms

The execution of terms in small steps.  All terms but calls and `FIX` are looked at in one way: an
operator with operands, the variables that it binds, and the terms that it may go on with.

## Main definitions

* `Op`, `Cexp.view` — the operator of a term, and a term looked at as an operator with its parts.
* `Op.exec` — what an operator does.
* `State`, `step` — the machine.
-/

namespace SmlNj.CPS

/-! ### Terms as operators -/

/-- The operator of a term, with its types and identifiers. -/
inductive Op
  | record (rk : RecordKind) (paths : List AccessPath)
  | select (i : ℕ) (ty : Cty)
  | offset (i : ℕ)
  | switch (id : Lvar)
  | branch (p : P.Branch) (id : Lvar)
  | setter (p : P.Setter)
  | looker (p : P.Looker) (ty : Cty)
  | arith (p : P.Arith) (ty : Cty)
  | pure (p : P.Pure) (ty : Cty)
  | rcc (reentrant : Bool) (linkage : SmlString) (proto : CTypes.CProto) (tys : List Cty)

/-- A term as an operator with operands, the variables that it binds and the terms to go on with; or
a call, or the binding of functions. -/
inductive View
  | prim (op : Op) (args : List Value) (xs : List Lvar) (ks : List Cexp)
  | app (f : Value) (args : List Value)
  | fix (fns : List Function) (e : Cexp)

/-- **The view of a term.** -/
def Cexp.view : Cexp → View
  | .record rk fields x e => .prim (.record rk (fields.map Prod.snd)) (fields.map Prod.fst) [x] [e]
  | .select i v x ty e => .prim (.select i ty) [v] [x] [e]
  | .offset i v x e => .prim (.offset i) [v] [x] [e]
  | .app f args => .app f args
  | .fix fns e => .fix fns e
  | .switch v id cases => .prim (.switch id) [v] [] cases
  | .branch p args id e1 e2 => .prim (.branch p id) args [] [e1, e2]
  | .setter p args e => .prim (.setter p) args [] [e]
  | .looker p args x ty e => .prim (.looker p ty) args [x] [e]
  | .arith p args x ty e => .prim (.arith p ty) args [x] [e]
  | .pure p args x ty e => .prim (.pure p ty) args [x] [e]
  | .rcc reentrant linkage proto args results e =>
    .prim (.rcc reentrant linkage proto (results.map Prod.snd)) args (results.map Prod.fst) [e]

variable {e e₁ : Cexp} {op : Op} {args : List Value} {xs : List Lvar} {ks : List Cexp}
  {fns : List Function} {f : Value}

theorem Cexp.view_app (h : e.view = .app f args) : e = .app f args := by
  cases e <;> cases h
  rfl

theorem Cexp.view_fix (h : e.view = .fix fns e₁) : e = .fix fns e₁ := by
  cases e <;> cases h
  rfl

theorem sizeOf_lt_of_mem {k : Cexp} (h : k ∈ ks) : sizeOf k < sizeOf ks := by
  induction ks with
  | nil => cases h
  | cons c cs ih =>
    simp only [List.cons.sizeOf_spec]
    rcases List.mem_cons.mp h with rfl | h
    · omega
    · have := ih h
      omega

theorem sizeOf_body_lt_of_mem {fd : Function} (h : fd ∈ fns) : sizeOf fd.body < sizeOf fns := by
  induction fns with
  | nil => cases h
  | cons c cs ih =>
    simp only [List.cons.sizeOf_spec]
    rcases List.mem_cons.mp h with rfl | h
    · cases fd
      simp only [Function.body_mk, Function.mk.sizeOf_spec]
      omega
    · have := ih h
      omega

theorem Cexp.sizeOf_view (h : e.view = .prim op args xs ks) {k : Cexp} (hk : k ∈ ks) :
    sizeOf k < sizeOf e := by
  have hsize := sizeOf_lt_of_mem hk
  cases e <;> cases h
  case branch =>
    simp only [List.cons.sizeOf_spec, List.nil.sizeOf_spec, Cexp.branch.sizeOf_spec] at hsize ⊢
    rcases List.mem_cons.mp hk with rfl | hk
    · omega
    · obtain rfl := List.mem_singleton.mp hk
      omega
  case switch =>
    simp only [Cexp.switch.sizeOf_spec]
    omega
  all_goals
    obtain rfl := List.mem_singleton.mp hk
    simp +arith

theorem Cexp.sizeOf_body {fd : Function} (h : fd ∈ fns) :
    sizeOf fd.body < sizeOf (Cexp.fix fns e) := by
  have := sizeOf_body_lt_of_mem h
  simp only [Cexp.fix.sizeOf_spec]
  omega

theorem Cexp.sizeOf_rest : sizeOf e < sizeOf (Cexp.fix fns e) := by
  simp only [Cexp.fix.sizeOf_spec]
  omega

/-- What an operator does: it goes on with one of the terms, with values for the variables that it
binds, or calls a handler. -/
inductive Effect (D W : Type)
  | next (i : ℕ) (ds : List D) (w : W)
  | raise (f : D) (ds : List D) (w : W)

section

variable {D W : Type} (I : Interp D W)

def paths (ps : List AccessPath) (ds : List D) : Option (List D) :=
  (List.zip ds ps).mapM fun dp => I.path dp.2 dp.1

/-- **What an operator does.** -/
def Op.exec : Op → List D → W → Option (Effect D W)
  | .record rk ps, ds, w => do
    let ds ← paths I ps ds
    let d ← I.record rk ds
    return .next 0 [d] w
  | .select i _, [d], w => do return .next 0 [← I.select i d] w
  | .offset i, [d], w => do return .next 0 [← I.offset i d] w
  | .switch _, [d], w => do return .next (← I.switch d) [] w
  | .branch p _, ds, w => do return .next (if ← I.branch p ds then 0 else 1) [] w
  | .setter p, ds, w => do return .next 0 [] (← I.setter p ds w)
  | .looker p _, ds, w => do
    let (d, w) ← I.looker p ds w
    return .next 0 [d] w
  | .arith p _, ds, w => do
    match ← I.arith p ds with
    | some d => return .next 0 [d] w
    | none =>
      let (f, ds) ← I.overflow w
      return .raise f ds w
  | .pure p _, ds, w =>
    if p.allocates then do
      let (d, w) ← I.alloc p ds w
      return .next 0 [d] w
    else do return .next 0 [← I.pure p ds] w
  | .rcc reentrant linkage proto _, ds, w => do
    let (ds, w) ← I.rcc reentrant linkage proto ds w
    return .next 0 ds w
  | _, _, _ => none

/-! ### The machine -/

/-- A term that is executed, or a call that is about to be made. -/
inductive State (D W : Type)
  | term (store : List (Closure D)) (env : Env D) (world : W) (e : Cexp)
  | call (c : Call D W)

/-- A step of a term. -/
def stepTerm (store : List (Closure D)) (env : Env D) (w : W) : View → Option (State D W)
  | .prim op args xs ks => do
    let ds ← vals I env args
    match ← op.exec I ds w with
    | .next i ds w => do
      let k ← ks[i]?
      let env ← env.bind xs ds
      return .term store env w k
    | .raise f ds w => return .call ⟨f, ds, store, w⟩
  | .app f args => do
    let d ← val I env f
    let ds ← vals I env args
    return .call ⟨d, ds, store, w⟩
  | .fix fns e => do
    let env ← env.bind (fns.map Function.name) (fnVals I store.length fns)
    return .term (store ++ fns.map fun f => ⟨f, env⟩) env w e

/-- **A step of the machine.**  A call of a value that is not a closure ends the execution. -/
def step : State D W → Option (State D W)
  | .term store env w e => stepTerm I store env w e.view
  | .call c => do
    let n ← I.unfn c.f
    let clo ← c.store[n]?
    let env ← clo.env.bind clo.function.params c.args
    return .term c.store env c.world clo.function.body

variable {I} {st : List (Closure D)} {env : Env D} {w : W}

theorem step_call_none {c : Call D W} (h : I.unfn c.f = none) : step I (.call c) = none := by
  simp [step, h]

theorem step_call {c : Call D W} {n : ℕ} (h : I.unfn c.f = some n) :
    step I (.call c) = c.store[n]?.bind fun clo =>
      (clo.env.bind clo.function.params c.args).map fun env =>
        .term c.store env c.world clo.function.body := by
  simp only [step, h, Option.bind_eq_bind, Option.bind_some, Option.map_eq_bind]
  rfl

end

end SmlNj.CPS
