import SmlNj.CPS.Syntax
import SmlNj.Lib.ExceptList

/-!
# The meaning of CPS terms

A big-step semantics of a term up to its next call, and of a program as a
sequence of calls.  It is parametrised by an interpretation: the values, a world
for what the primitives read and write, and the operators as functions.

A function of a `FIX` becomes a closure in a store, and its value is the number
of the closure, so values never contain code: two programs that build their
closures in step have equal values, and can be compared by equality.

## Main definitions

* `Interp` — an interpretation of the primitive operations.
* `exec` — a term, up to its next call.
* `run` — calls, until a value is called that is not a closure.
* `binders` — the variables that a term binds.
-/

namespace SmlNj.CPS

/-- Does the operator allocate mutable or uninitialised memory?  Then it acts on the world. -/
def P.Pure.allocates : P.Pure → Bool
  | .makeref | .newarray0 | .mkspecial | .rawrecord _ => true
  | _ => false

/-- An interpretation of the primitive operations over values `D` and worlds `W`.  Operators are
partial; an arithmetic operator may also overflow, which yields `some none`. -/
structure Interp (D W : Type) where
  /-- The value of a closure, by its number. -/
  fn : ℕ → D
  /-- The number of the closure that a value is, if any. -/
  unfn : D → Option ℕ
  lit : Value → D
  path : AccessPath → D → Option D
  record : RecordKind → List D → Option D
  select : ℕ → D → Option D
  offset : ℕ → D → Option D
  switch : D → Option ℕ
  branch : P.Branch → List D → Option Bool
  arith : P.Arith → List D → Option (Option D)
  pure : P.Pure → List D → Option D
  alloc : P.Pure → List D → W → Option (D × W)
  setter : P.Setter → List D → W → Option W
  looker : P.Looker → List D → W → Option (D × W)
  /-- The handler that is called on overflow, and its arguments. -/
  overflow : W → Option (D × List D)
  rcc : Bool → SmlString → CTypes.CProto → List D → W → Option (List D × W)

abbrev Env (D : Type) := Lvar → Option D

namespace Env

variable {D : Type}

def set (env : Env D) (x : Lvar) (d : D) : Env D := fun z => if z = x then some d else env z

def bind : Env D → List Lvar → List D → Option (Env D)
  | env, [], [] => some env
  | env, x :: xs, d :: ds => bind (env.set x d) xs ds
  | _, _, _ => none

@[simp] theorem set_self (env : Env D) (x : Lvar) (d : D) : env.set x d x = some d :=
  if_pos rfl

theorem set_of_ne (env : Env D) {x z : Lvar} (d : D) (h : z ≠ x) : env.set x d z = env z :=
  if_neg h

end Env

/-- A function with the environment of its definition. -/
structure Closure (D : Type) where
  function : Function
  env : Env D

/-- A call that is about to be made. -/
structure Call (D W : Type) where
  f : D
  args : List D
  store : List (Closure D)
  world : W

variable {D W : Type} (I : Interp D W)

def val (env : Env D) : Value → Option D
  | .var x => env x
  | v => some (I.lit v)

def vals (env : Env D) (vs : List Value) : Option (List D) := vs.mapM (val I env)

def fieldVals (env : Env D) (fields : List (Value × AccessPath)) : Option (List D) :=
  fields.mapM fun f => (val I env f.1).bind (I.path f.2)

/-- The values of the functions of a `FIX`, the first of which gets the number `n`. -/
def fnVals (n : ℕ) (fns : List Function) : List D :=
  (List.range fns.length).map fun i => I.fn (n + i)

mutual

/-- **The execution of a term up to its next call.** -/
@[grind =] def exec (store : List (Closure D)) (env : Env D) (w : W) : Cexp → Option (Call D W)
  | .record rk fields x e => do
      let ds ← fieldVals I env fields
      let d ← I.record rk ds
      exec store (env.set x d) w e
  | .select i v x _ e => do
      let d ← val I env v
      let d ← I.select i d
      exec store (env.set x d) w e
  | .offset i v x e => do
      let d ← val I env v
      let d ← I.offset i d
      exec store (env.set x d) w e
  | .app f args => do
      let d ← val I env f
      let ds ← vals I env args
      some ⟨d, ds, store, w⟩
  | .fix fns e => do
      let env ← env.bind (fns.map Function.name) (fnVals I store.length fns)
      exec (store ++ fns.map fun f => ⟨f, env⟩) env w e
  | .switch v _ cases => do
      let d ← val I env v
      let i ← I.switch d
      execNth store env w cases i
  | .branch p args _ e1 e2 => do
      let ds ← vals I env args
      let b ← I.branch p ds
      if b then exec store env w e1 else exec store env w e2
  | .setter p args e => do
      let ds ← vals I env args
      let w ← I.setter p ds w
      exec store env w e
  | .looker p args x _ e => do
      let ds ← vals I env args
      let (d, w) ← I.looker p ds w
      exec store (env.set x d) w e
  | .arith p args x _ e => do
      let ds ← vals I env args
      match ← I.arith p ds with
      | some d => exec store (env.set x d) w e
      | none => do
          let (f, ds) ← I.overflow w
          some ⟨f, ds, store, w⟩
  | .pure p args x _ e => do
      let ds ← vals I env args
      if p.allocates then do
        let (d, w) ← I.alloc p ds w
        exec store (env.set x d) w e
      else do
        let d ← I.pure p ds
        exec store (env.set x d) w e
  | .rcc reentrant linkage proto args results e => do
      let ds ← vals I env args
      let (ds, w) ← I.rcc reentrant linkage proto ds w
      let env ← env.bind (results.map Prod.fst) ds
      exec store env w e

/-- The execution of one of the cases of a `SWITCH`. -/
def execNth (store : List (Closure D)) (env : Env D) (w : W) :
    List Cexp → ℕ → Option (Call D W)
  | [], _ => none
  | e :: _, 0 => exec store env w e
  | _ :: es, n + 1 => execNth store env w es n

end

attribute [simp] exec execNth

def enter (store : List (Closure D)) (clo : Closure D) (args : List D) (w : W) :
    Option (Call D W) := do
  let env ← clo.env.bind clo.function.params args
  exec I store env w clo.function.body

/-- How a run ends: it calls a value that is not a closure, gets stuck, or is cut off. -/
inductive Outcome (D W : Type)
  | halt (f : D) (args : List D) (world : W)
  | stuck
  | timeout
  deriving DecidableEq

/-- **A run**, making at most `fuel` calls of closures. -/
def run : ℕ → Option (Call D W) → Outcome D W
  | _, none => .stuck
  | 0, some c =>
      match I.unfn c.f with
      | none => .halt c.f c.args c.world
      | some _ => .timeout
  | fuel + 1, some c =>
      match I.unfn c.f with
      | none => .halt c.f c.args c.world
      | some n => run fuel (c.store[n]?.bind fun clo => enter I c.store clo c.args c.world)

/-- The run of a function whose free variables have the values `env`. -/
def runFunction (fuel : ℕ) (f : Function) (env : Env D) (args : List D) (w : W) : Outcome D W :=
  run I fuel (enter I [] ⟨f, env⟩ args w)

/-- Every variable in the scope of `env` has the same value in `env'`. -/
def Env.Le (env env' : Env D) : Prop := ∀ x d, env x = some d → env' x = some d

theorem Env.le_set {env : Env D} {x : Lvar} (hx : env x = none) (d : D) :
    env.Le (env.set x d) := by
  intro z c hz
  have hne : z ≠ x := by
    rintro rfl
    rw [hx] at hz
    cases hz
  rw [Env.set_of_ne env d hne, hz]

variable {I} {env env' : Env D}

theorem val_mono (h : env.Le env') {v : Value} {d : D} (hv : val I env v = some d) :
    val I env' v = some d := by
  cases v with
  | var x => exact h x d hv
  | _ => exact hv

theorem vals_mono (h : env.Le env') {vs : List Value} {ds : List D}
    (hv : vals I env vs = some ds) : vals I env' vs = some ds :=
  ExceptList.mapM_option_mono (fun _ _ => val_mono h) hv

theorem fieldVals_mono (h : env.Le env') {fields : List (Value × AccessPath)} {ds : List D}
    (hf : fieldVals I env fields = some ds) : fieldVals I env' fields = some ds := by
  refine ExceptList.mapM_option_mono (fun f d hfd => ?_) hf
  obtain ⟨c, hc, hp⟩ := Option.bind_eq_some_iff.mp hfd
  exact Option.bind_eq_some_iff.mpr ⟨c, val_mono h hc, hp⟩

/-! ### Binders -/

mutual

/-- The variables that a term binds, in order, with repetitions. -/
@[grind =] def binders : Cexp → List Lvar
  | .record _ _ x e | .select _ _ x _ e | .offset _ _ x e => x :: binders e
  | .app _ _ => []
  | .fix fns e => fns.map Function.name ++ fnsBinders fns ++ binders e
  | .switch _ _ cases => casesBinders cases
  | .branch _ _ _ e1 e2 => binders e1 ++ binders e2
  | .setter _ _ e => binders e
  | .looker _ _ x _ e | .arith _ _ x _ e | .pure _ _ x _ e => x :: binders e
  | .rcc _ _ _ _ results e => results.map Prod.fst ++ binders e

/-- The variables that the cases of a `SWITCH` bind. -/
def casesBinders : List Cexp → List Lvar
  | [] => []
  | e :: es => binders e ++ casesBinders es

/-- The variables that functions bind in their parameters and bodies. -/
def fnsBinders : List Function → List Lvar
  | [] => []
  | f :: fs => fnBinders f ++ fnsBinders fs

/-- The variables that a function binds in its parameters and body. -/
def fnBinders : Function → List Lvar
  | .mk _ _ xs _ e => xs ++ binders e

end

attribute [simp] binders casesBinders fnsBinders fnBinders

/-- The variables are distinct, and none of them is in scope. -/
structure Fresh (xs : List Lvar) (env : Env D) : Prop where
  nodup : xs.Nodup
  unbound : ∀ x ∈ xs, env x = none

namespace Fresh

variable {x : Lvar} {xs ys : List Lvar}

theorem left (h : Fresh (xs ++ ys) env) : Fresh xs env :=
  ⟨(List.nodup_append.mp h.nodup).1, fun x hx => h.unbound x (List.mem_append_left _ hx)⟩

theorem right (h : Fresh (xs ++ ys) env) : Fresh ys env :=
  ⟨(List.nodup_append.mp h.nodup).2.1, fun x hx => h.unbound x (List.mem_append_right _ hx)⟩

theorem head (h : Fresh (x :: xs) env) : env x = none := h.unbound x List.mem_cons_self

theorem set (h : Fresh (x :: xs) env) (d : D) : Fresh xs (env.set x d) := by
  obtain ⟨hx, hxs⟩ := List.nodup_cons.mp h.nodup
  refine ⟨hxs, fun z hz => ?_⟩
  have hne : z ≠ x := fun he => hx (he ▸ hz)
  rw [Env.set_of_ne env d hne]
  exact h.unbound z (List.mem_cons_of_mem _ hz)

theorem bind {ds : List D} (h : Fresh (xs ++ ys) env) (hb : env.bind xs ds = some env') :
    Fresh ys env' := by
  induction xs generalizing env ds with
  | nil =>
    cases ds with
    | nil => cases hb; exact h
    | cons d ds => cases hb
  | cons x xs ih =>
    cases ds with
    | nil => cases hb
    | cons d ds => exact ih (h.set d) hb

end Fresh

def UniqueBindings (f : Function) : Prop := (f.name :: fnBinders f).Nodup

instance : DecidablePred UniqueBindings := fun _ => inferInstanceAs (Decidable (List.Nodup _))

end SmlNj.CPS
