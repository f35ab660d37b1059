import SmlNj.CPS.Semantics
import SmlNj.CPS.Opt.AvailMap

/-!
# Value numbering preserves meaning

The original and the transformed program run in step.  At every point the walk
of the pass stands for an invariant of the two environments: a renamed variable
holds the value of the variable that replaces it, an available expression has
the value of the variable entered for it, and the branch history tells outcomes
that the tests have.  As every variable is bound once, a new binding is about a
variable that none of this mentions.

## Main definitions

* `Inv` — the invariant of the walk.
* `ClosureRel`, `CallRel` — transformed closures and calls.

## Main results

* `exec_xform` — a term and its transform reach the same call.
* `transform_sound` — a program and its transform have the same runs.
-/

namespace SmlNj.ValueNumbering

open CPS ExceptList

variable {D W : Type} (I : Interp D W)

/-- The value of an available expression. -/
def AvailValue.eval (env : Env D) : AvailValue → Option D
  | .record rk flds => (fieldVals I env flds).bind (I.record rk)
  | .select i v => (val I env v).bind (I.select i)
  | .arith p args => ((vals I env args).bind (I.arith p)).join
  | .pure p args => (vals I env args).bind (I.pure p)

def Branch.Holds (env : Env D) : Branch → Prop
  | .switch v n => (val I env v).bind I.switch = some n
  | .branch p args b => (vals I env args).bind (I.branch p) = some b

/-- **The invariant of the walk**, between the environment of the original term and that of its
transform. -/
structure Inv (rn : Rename) (avail : AVMap) (bh : List Branch) (env env' : Env D) : Prop where
  value : ∀ x, env x = env' (rename rn x)
  scope : ∀ x, env x = none → env' x = none
  renamed : ∀ x, env x = none → rename rn x = x
  avail : ∀ e ∈ avail, ∃ d, env' e.2 = some d ∧ e.1.eval I env' = some d
  hist : ∀ h ∈ bh, h.Holds I env'

variable {I} {rn : Rename} {avail : AVMap} {bh : List Branch} {env env' : Env D}

variable {av : AvailValue} {d : D} {x : Lvar} {enabled : Bool} {k e' : Cexp} {n : ℕ} {ty : Cty}
  {args : List Value} {cases : List Cexp} {fns : List Function}

theorem AvailValue.eval_mono {env₁ env₂ : Env D} (h : env₁.Le env₂) (hd : av.eval I env₁ = some d) :
    av.eval I env₂ = some d := by
  cases av with
  | record rk flds =>
    obtain ⟨ds, hds, hr⟩ := Option.bind_eq_some_iff.mp hd
    exact Option.bind_eq_some_iff.mpr ⟨ds, fieldVals_mono h hds, hr⟩
  | select i v =>
    obtain ⟨c, hc, hs⟩ := Option.bind_eq_some_iff.mp hd
    exact Option.bind_eq_some_iff.mpr ⟨c, val_mono h hc, hs⟩
  | arith p args =>
    obtain ⟨ds, hds, hp⟩ := Option.bind_eq_some_iff.mp (Option.join_eq_some_iff.mp hd)
    exact Option.join_eq_some_iff.mpr (Option.bind_eq_some_iff.mpr ⟨ds, vals_mono h hds, hp⟩)
  | pure p args =>
    obtain ⟨ds, hds, hp⟩ := Option.bind_eq_some_iff.mp hd
    exact Option.bind_eq_some_iff.mpr ⟨ds, vals_mono h hds, hp⟩

theorem Branch.Holds.mono {env₁ env₂ : Env D} (h : env₁.Le env₂) {b : Branch}
    (hb : b.Holds I env₁) : b.Holds I env₂ := by
  cases b with
  | switch v n =>
    obtain ⟨c, hc, hs⟩ := Option.bind_eq_some_iff.mp hb
    exact Option.bind_eq_some_iff.mpr ⟨c, val_mono h hc, hs⟩
  | branch p args b =>
    obtain ⟨ds, hds, hp⟩ := Option.bind_eq_some_iff.mp hb
    exact Option.bind_eq_some_iff.mpr ⟨ds, vals_mono h hds, hp⟩

theorem rename_cons (x y z : Lvar) (rn : Rename) :
    rename ((x, y) :: rn) z = if z = x then y else rename rn z := by
  unfold rename
  rw [List.lookup_cons]
  split
  · next h => rw [if_pos (beq_iff_eq.mp h)]; rfl
  · next h => rw [if_neg fun he => by simp [he] at h]

namespace Inv

theorem empty (env : Env D) : Inv I [] [] [] env env where
  value _ := rfl
  scope _ h := h
  renamed _ _ := rfl
  avail _ h := by cases h
  hist _ h := by cases h

theorem val (h : Inv I rn avail bh env env') (v : Value) :
    CPS.val I env v = CPS.val I env' (rnValue rn v) := by
  cases v with
  | var x => exact h.value x
  | _ => rfl

theorem vals (h : Inv I rn avail bh env env') (vs : List Value) :
    CPS.vals I env vs = CPS.vals I env' (vs.map (rnValue rn)) := by
  unfold CPS.vals
  rw [List.mapM_map]
  exact congrArg (fun f => List.mapM f vs) (funext h.val)

theorem fieldVals (h : Inv I rn avail bh env env') (fields : List (Value × AccessPath)) :
    CPS.fieldVals I env fields = CPS.fieldVals I env' (fields.map (rnField rn)) := by
  unfold CPS.fieldVals
  rw [List.mapM_map]
  refine congrArg (fun f => List.mapM f fields) (funext fun f => ?_)
  show _ = (CPS.val I env' (rnValue rn f.1)).bind (I.path f.2)
  rw [h.val f.1]

/-! ### What changes the invariant -/

/-- A variable that is not in scope is bound to the same value on both sides. -/
theorem set (h : Inv I rn avail bh env env') (hx : env x = none) (d : D) :
    Inv I rn avail bh (env.set x d) (env'.set x d) where
  value z := by
    have hx' := h.scope x hx
    by_cases hz : z = x
    · rw [hz, h.renamed x hx, Env.set_self, Env.set_self]
    · -- no other variable is renamed to `x`
      have hne : rename rn z ≠ x := by
        intro hr
        have hzn : env z = none := by rw [h.value z, hr, hx']
        exact hz ((h.renamed z hzn).symm.trans hr)
      rw [Env.set_of_ne env d hz, Env.set_of_ne env' d hne, h.value z]
  scope z hz := by
    have hne : z ≠ x := by
      rintro rfl
      rw [Env.set_self] at hz
      cases hz
    rw [Env.set_of_ne env d hne] at hz
    rw [Env.set_of_ne env' d hne, h.scope z hz]
  renamed z hz := by
    have hne : z ≠ x := by
      rintro rfl
      rw [Env.set_self] at hz
      cases hz
    rw [Env.set_of_ne env d hne] at hz
    exact h.renamed z hz
  avail e he := by
    have hle := Env.le_set (h.scope x hx) d
    obtain ⟨c, h1, h2⟩ := h.avail e he
    exact ⟨c, hle e.2 c h1, AvailValue.eval_mono hle h2⟩
  hist b hb := (h.hist b hb).mono (Env.le_set (h.scope x hx) d)

theorem rename (h : Inv I rn avail bh env env') {y : Lvar} (hx : env x = none)
    (hy : env' y = some d) : Inv I ((x, y) :: rn) avail bh (env.set x d) env' where
  value z := by
    rw [rename_cons]
    split
    · next hz => rw [hz, Env.set_self, hy]
    · next hz => rw [Env.set_of_ne env d hz, h.value z]
  scope z hz := by
    by_cases hzx : z = x
    · rw [hzx, h.scope x hx]
    · rw [Env.set_of_ne env d hzx] at hz
      exact h.scope z hz
  renamed z hz := by
    have hne : z ≠ x := by
      rintro rfl
      rw [Env.set_self] at hz
      cases hz
    rw [Env.set_of_ne env d hne] at hz
    rw [rename_cons, if_neg hne, h.renamed z hz]
  avail := h.avail
  hist := h.hist

theorem insert (h : Inv I rn avail bh env env') (hx : env' x = some d)
    (hav : av.eval I env' = some d) {avail' : AVMap} (hi : AVMap.insert avail av x = .ok avail') :
    Inv I rn avail' bh env env' :=
  { h with
    avail := fun e he => by
      rcases AVMap.mem_insert hi he with rfl | he'
      · exact ⟨d, hx, hav⟩
      · exact h.avail e he' }

theorem record (h : Inv I rn avail bh env env') {b : Branch} (hb : b.Holds I env') :
    Inv I rn avail (b :: bh) env env' :=
  { h with
    hist := fun b' hb' => by
      rcases List.mem_cons.mp hb' with rfl | hm
      · exact hb
      · exact h.hist b' hm }

theorem bind {xs : List Lvar} (h : Inv I rn avail bh env env') (hf : Fresh xs env)
    (ds : List D) :
    (env.bind xs ds = none ∧ env'.bind xs ds = none) ∨
      ∃ env₁ env₁', env.bind xs ds = some env₁ ∧ env'.bind xs ds = some env₁' ∧
        Inv I rn avail bh env₁ env₁' := by
  induction xs generalizing env env' ds with
  | nil =>
    cases ds with
    | nil => exact .inr ⟨env, env', rfl, rfl, h⟩
    | cons d ds => exact .inl ⟨rfl, rfl⟩
  | cons x xs ih =>
    cases ds with
    | nil => exact .inl ⟨rfl, rfl⟩
    | cons d ds => exact ih (h.set hf.head d) (hf.set d) ds

end Inv

/-! ### Calls in step -/

variable (I) (fl : Flags)

/-- A closure of the original and one of the transformed program. -/
def ClosureRel (c c' : Closure D) : Prop :=
  ∃ rn avail bh, xformFun fl rn avail bh c.function = .ok c'.function ∧
    Inv I rn avail bh c.env c'.env ∧ Fresh (fnBinders c.function) c.env

/-- The same call, in stores of related closures. -/
structure CallRel (c c' : Call D W) : Prop where
  f : c.f = c'.f
  args : c.args = c'.args
  world : c.world = c'.world
  store : List.Forall₂ (ClosureRel I fl) c.store c'.store

/-- A term and its transform reach the same call, in every pair of environments that the
invariant relates. -/
def Simulates (e : Cexp) : Prop :=
  ∀ {rn avail bh e'} {env env' : Env D} {store store' : List (Closure D)} {w : W},
    xform fl rn avail bh e = .ok e' → Inv I rn avail bh env env' → Fresh (binders e) env →
    List.Forall₂ (ClosureRel I fl) store store' →
    Option.Rel (CallRel I fl) (exec I store env w e) (exec I store' env' w e')

variable {I fl} {store store' : List (Closure D)} {w : W}

theorem Inv.found (h : Inv I rn avail bh env env') {y : Lvar}
    (hf : findAvail enabled avail av = .ok (some y)) :
    ∃ d, env' y = some d ∧ av.eval I env' = some d := by
  unfold findAvail at hf
  split at hf
  · exact h.avail (av, y) (AVMap.mem_of_find hf)
  · cases hf

/-- The transform of a binding whose expression may be available: it is dropped if it is, and
made available if it is not. -/
def elim (fl : Flags) (rn : Rename) (avail : AVMap) (bh : List Branch) (enabled : Bool)
    (av : AvailValue) (x : Lvar) (k : Cexp) (mk : Cexp → Cexp) : Except Exn Cexp := do
  match ← findAvail enabled avail av with
  | some y => xform fl ((x, y) :: rn) avail bh k
  | none => do
      let avail ← AVMap.insert avail av x
      let k ← xform fl rn avail bh k
      .ok (mk k)

theorem elim_rel {mk : Cexp → Cexp} {orig : Option (Call D W)} (hk : Simulates I fl k)
    (he : elim fl rn avail bh enabled av x k mk = .ok e') (h : Inv I rn avail bh env env')
    (hf : Fresh (x :: binders k) env) (hs : List.Forall₂ (ClosureRel I fl) store store')
    (horig : ∀ d, av.eval I env' = some d → orig = exec I store (env.set x d) w k)
    (hmk : ∀ k' d, av.eval I env' = some d →
      exec I store' env' w (mk k') = exec I store' (env'.set x d) w k')
    (hnone : ∀ k', av.eval I env' = none →
      Option.Rel (CallRel I fl) orig (exec I store' env' w (mk k'))) :
    Option.Rel (CallRel I fl) orig (exec I store' env' w e') := by
  obtain ⟨r, hr, he⟩ := bind_eq_ok.mp he
  cases r with
  | some y =>
    obtain ⟨d, hy, hd⟩ := h.found hr
    rw [horig d hd]
    exact hk he (h.rename hf.head hy) (hf.set d) hs
  | none =>
    obtain ⟨avail', ha, he⟩ := bind_eq_ok.mp he
    obtain ⟨k', hk', he⟩ := bind_eq_ok.mp he
    cases he
    cases hd : av.eval I env' with
    | none => exact hnone k' hd
    | some d =>
      rw [horig d hd, hmk k' d hd]
      have hle := Env.le_set (h.scope x hf.head) d
      exact hk hk' ((h.set hf.head d).insert (Env.set_self _ _ _)
        (AvailValue.eval_mono hle hd) ha) (hf.set d) hs

/-! ### The constructors -/

theorem exec_record (rk : RecordKind) (flds : List (Value × AccessPath)) (x : Lvar) (k : Cexp) :
    exec I store env w (.record rk flds x k) =
      ((AvailValue.record rk flds).eval I env).bind fun d => exec I store (env.set x d) w k := by
  rw [AvailValue.eval, Option.bind_assoc]
  rfl

theorem exec_select (n : ℕ) (v : Value) (x : Lvar) (ty : Cty) (k : Cexp) :
    exec I store env w (.select n v x ty k) =
      ((AvailValue.select n v).eval I env).bind fun d => exec I store (env.set x d) w k := by
  rw [AvailValue.eval, Option.bind_assoc]
  rfl

theorem Inv.eval_record (h : Inv I rn avail bh env env') (rk : RecordKind)
    (flds : List (Value × AccessPath)) :
    (AvailValue.record rk flds).eval I env =
      (AvailValue.record rk (flds.map (rnField rn))).eval I env' := by
  rw [AvailValue.eval, AvailValue.eval, h.fieldVals]

theorem Inv.eval_select (h : Inv I rn avail bh env env') (n : ℕ) (v : Value) :
    (AvailValue.select n v).eval I env = (AvailValue.select n (rnValue rn v)).eval I env' := by
  rw [AvailValue.eval, AvailValue.eval, h.val]

theorem Inv.eval_pure (h : Inv I rn avail bh env env') (p : P.Pure) (args : List Value) :
    (AvailValue.pure p args).eval I env =
      (AvailValue.pure p (args.map (rnValue rn))).eval I env' := by
  rw [AvailValue.eval, AvailValue.eval, h.vals]

theorem elim_rel_of_bind {av' : AvailValue} {mk : Cexp → Cexp} {orig : Option (Call D W)}
    (hk : Simulates I fl k) (he : elim fl rn avail bh enabled av' x k mk = .ok e')
    (h : Inv I rn avail bh env env') (hf : Fresh (x :: binders k) env)
    (hs : List.Forall₂ (ClosureRel I fl) store store') (hav : av.eval I env = av'.eval I env')
    (horig : orig = (av.eval I env).bind fun d => exec I store (env.set x d) w k)
    (hmk : ∀ k', exec I store' env' w (mk k') =
      (av'.eval I env').bind fun d => exec I store' (env'.set x d) w k') :
    Option.Rel (CallRel I fl) orig (exec I store' env' w e') := by
  refine elim_rel hk he h hf hs (fun d hd => ?_) (fun k' d hd => ?_) fun k' hd => ?_
  · rw [horig, hav, hd, Option.bind_some]
  · rw [hmk, hd, Option.bind_some]
  · rw [horig, hmk, hav, hd]
    exact .none

theorem simulates_record {rk : RecordKind} {flds : List (Value × AccessPath)}
    (hk : Simulates I fl k) : Simulates I fl (.record rk flds x k) := by
  intro rn avail bh e' env env' store store' w he h hf hs
  have he' : elim fl rn avail bh fl.recordElim (.record rk (flds.map (rnField rn))) x k
      (.record rk (flds.map (rnField rn)) x) = .ok e' := by
    rw [← he]
    rfl
  exact elim_rel_of_bind hk he' h hf hs (h.eval_record rk flds) (exec_record rk flds x k)
    fun k' => exec_record rk _ x k'

theorem simulates_select {v : Value} (hk : Simulates I fl k) :
    Simulates I fl (.select n v x ty k) := by
  intro rn avail bh e' env env' store store' w he h hf hs
  have he' : elim fl rn avail bh fl.selectElim (.select n (rnValue rn v)) x k
      (.select n (rnValue rn v) x ty) = .ok e' := by
    rw [← he]
    rfl
  exact elim_rel_of_bind hk he' h hf hs (h.eval_select n v) (exec_select n v x ty k)
    fun k' => exec_select n _ x ty k'

theorem simulates_app (f : Value) (args : List Value) : Simulates I fl (.app f args) := by
  intro rn avail bh e' env env' store store' w he h hf hs
  cases he
  rw [exec, exec, ← h.val f, ← h.vals args]
  cases CPS.val I env f with
  | none => exact .none
  | some d =>
    cases CPS.vals I env args with
    | none => exact .none
    | some ds => exact .some ⟨rfl, rfl, rfl, hs⟩

theorem rel_bind {α : Type} {o : Option α} {f g : α → Option (Call D W)}
    (h : ∀ a, o = some a → Option.Rel (CallRel I fl) (f a) (g a)) :
    Option.Rel (CallRel I fl) (o.bind f) (o.bind g) := by
  cases o with
  | none => exact .none
  | some a => exact h a rfl

theorem simulates_setter {p : P.Setter} (hk : Simulates I fl k) :
    Simulates I fl (.setter p args k) := by
  intro rn avail bh e' env env' store store' w he h hf hs
  obtain ⟨k', hk', he⟩ := bind_eq_ok.mp he
  cases he
  rw [exec, exec, ← h.vals args]
  exact rel_bind fun ds _ => rel_bind fun w _ => hk hk' h hf hs

theorem simulates_looker {p : P.Looker} (hk : Simulates I fl k) :
    Simulates I fl (.looker p args x ty k) := by
  intro rn avail bh e' env env' store store' w he h hf hs
  obtain ⟨k', hk', he⟩ := bind_eq_ok.mp he
  cases he
  rw [exec, exec, ← h.vals args]
  exact rel_bind fun ds _ => rel_bind fun r _ => hk hk' (h.set hf.head r.1) (hf.set r.1) hs

theorem simulates_arith {p : P.Arith} (hk : Simulates I fl k) :
    Simulates I fl (.arith p args x ty k) := by
  intro rn avail bh e' env env' store store' w he h hf hs
  have he' : elim fl rn avail bh fl.primElim (.arith p (args.map (rnValue rn))) x k
      (.arith p (args.map (rnValue rn)) x ty) = .ok e' := by
    rw [← he]
    rfl
  have hav : ∀ {d}, (AvailValue.arith p (args.map (rnValue rn))).eval I env' = some d →
      ∃ ds, CPS.vals I env' (args.map (rnValue rn)) = some ds ∧ I.arith p ds = some (some d) :=
    fun hd => Option.bind_eq_some_iff.mp (Option.join_eq_some_iff.mp hd)
  refine elim_rel hk he' h hf hs (fun d hd => ?_) (fun k' d hd => ?_) fun k' hd => ?_
  · obtain ⟨ds, hds, hp⟩ := hav hd
    rw [exec, h.vals args, hds]
    simp [hp]
  · obtain ⟨ds, hds, hp⟩ := hav hd
    rw [exec, hds]
    simp [hp]
  · -- the operator is stuck or overflows, on both sides
    rw [exec, h.vals args]
    refine rel_bind fun ds hds => rel_bind fun r hr => ?_
    cases r with
    | some d =>
      rw [AvailValue.eval, hds, Option.bind_some, hr] at hd
      cases hd
    | none => exact rel_bind fun c _ => .some ⟨rfl, rfl, rfl, hs⟩

theorem exec_pure (p : P.Pure) (hp : p.allocates = false) (args : List Value) (x : Lvar)
    (ty : Cty) (k : Cexp) :
    exec I store env w (.pure p args x ty k) =
      ((AvailValue.pure p args).eval I env).bind fun d => exec I store (env.set x d) w k := by
  rw [exec, AvailValue.eval, Option.bind_assoc]
  simp only [hp]
  rfl

theorem xform_pure (p : P.Pure) (args : List Value) (x : Lvar) (ty : Cty) (k : Cexp) :
    xform fl rn avail bh (.pure p args x ty k) =
      if p.allocates then
        (xform fl rn avail bh k).bind fun k => .ok (.pure p (args.map (rnValue rn)) x ty k)
      else
        elim fl rn avail bh fl.primElim (.pure p (args.map (rnValue rn))) x k
          (.pure p (args.map (rnValue rn)) x ty) := by
  cases p <;> simp only [xform] <;> rfl

theorem simulates_pure {p : P.Pure} (hk : Simulates I fl k) :
    Simulates I fl (.pure p args x ty k) := by
  intro rn avail bh e' env env' store store' w he h hf hs
  rw [xform_pure] at he
  cases hp : p.allocates with
  | true =>
    rw [if_pos hp] at he
    obtain ⟨k', hk', he⟩ := bind_eq_ok.mp he
    cases he
    rw [exec, exec, ← h.vals args]
    refine rel_bind fun ds _ => ?_
    rw [if_pos hp, if_pos hp]
    exact rel_bind fun r _ => hk hk' (h.set hf.head r.1) (hf.set r.1) hs
  | false =>
    rw [if_neg (by rw [hp]; exact Bool.false_ne_true)] at he
    exact elim_rel_of_bind hk he h hf hs (h.eval_pure p args) (exec_pure p hp args x ty k)
      fun k' => exec_pure p hp _ x ty k'

theorem simulates_rcc {re : Bool} {cc : SmlString} {proto : CTypes.CProto}
    {results : List (Lvar × Cty)} (hk : Simulates I fl k) :
    Simulates I fl (.rcc re cc proto args results k) := by
  intro rn avail bh e' env env' store store' w he h hf hs
  obtain ⟨k', hk', he⟩ := bind_eq_ok.mp he
  cases he
  rw [exec, exec, ← h.vals args]
  refine rel_bind fun ds _ => rel_bind fun r _ => ?_
  rcases h.bind hf.left r.1 with ⟨h1, h2⟩ | ⟨env₁, env₁', h1, h2, hinv⟩
  · simp only [h1, h2]
    exact .none
  · simp only [h1, h2]
    exact hk hk' hinv (hf.bind h1) hs

theorem matchBranch_holds (h : Inv I rn avail bh env env') {p : P.Branch} {b : Bool}
    (hb : matchBranch bh p args = some b) : (Branch.branch p args b).Holds I env' := by
  obtain ⟨br, hbr, hm⟩ := List.exists_of_findSome?_eq_some hb
  split at hm
  · next p' args' b' =>
    split at hm
    · next hcond =>
      cases hm
      rw [hcond.1, eq_of_allEq hcond.2]
      exact h.hist _ hbr
    · cases hm
  · cases hm

theorem matchSwitch_holds (h : Inv I rn avail bh env env') {v : Value}
    (hn : matchSwitch bh v = some n) : (Branch.switch v n).Holds I env' := by
  cases v with
  | var x =>
    obtain ⟨br, hbr, hm⟩ := List.exists_of_findSome?_eq_some hn
    split at hm
    · next y m =>
      split at hm
      · next hxy =>
        cases hm
        rw [hxy]
        exact h.hist _ hbr
      · cases hm
    · cases hm
  | _ => cases hn

theorem ite_eq_some {α : Type} {b : Bool} {o : Option α} {a : α}
    (h : (if b then o else none) = some a) : o = some a := by
  cases b with
  | true => exact h
  | false => cases h

theorem simulates_branch {p : P.Branch} {id : Lvar} {k₁ k₂ : Cexp} (hk₁ : Simulates I fl k₁)
    (hk₂ : Simulates I fl k₂) : Simulates I fl (.branch p args id k₁ k₂) := by
  intro rn avail bh e' env env' store store' w he h hf hs
  have hold : ∀ b, (if fl.condElim then matchBranch bh p (args.map (rnValue rn)) else none) =
      some b → exec I store env w (.branch p args id k₁ k₂) =
        if b then exec I store env w k₁ else exec I store env w k₂ := by
    intro b hb
    have hob := matchBranch_holds h (ite_eq_some hb)
    obtain ⟨ds, hds, hp⟩ := Option.bind_eq_some_iff.mp hob
    rw [exec, h.vals args, hds]
    simp [hp]
  simp only [xform] at he
  split at he
  · next hb =>
    rw [hold true hb]
    exact hk₁ he h hf.left hs
  · next hb =>
    rw [hold false hb]
    exact hk₂ he h hf.right hs
  · obtain ⟨k₁', hk₁', he⟩ := bind_eq_ok.mp he
    obtain ⟨k₂', hk₂', he⟩ := bind_eq_ok.mp he
    cases he
    rw [exec, h.vals args]
    refine rel_bind fun ds hds => rel_bind fun b hb => ?_
    have hb' : ∀ c, b = c → (Branch.branch p (args.map (rnValue rn)) c).Holds I env' := by
      rintro c rfl
      exact Option.bind_eq_some_iff.mpr ⟨ds, hds, hb⟩
    cases b with
    | true => exact hk₁ hk₁' (h.record (hb' true rfl)) hf.left hs
    | false => exact hk₂ hk₂' (h.record (hb' false rfl)) hf.right hs

theorem exec_xformNth (hc : ∀ k ∈ cases, Simulates I fl k)
    (he : xformNth fl rn avail bh cases n = .ok e') (h : Inv I rn avail bh env env')
    (hf : Fresh (casesBinders cases) env) (hs : List.Forall₂ (ClosureRel I fl) store store') :
    Option.Rel (CallRel I fl) (execNth I store env w cases n) (exec I store' env' w e') := by
  induction cases generalizing n with
  | nil => cases he
  | cons k ks ih =>
    cases n with
    | zero => exact hc k List.mem_cons_self he h hf.left hs
    | succ n => exact ih (fun k hk => hc k (List.mem_cons_of_mem _ hk)) he hf.right

theorem exec_xformCases {cases' : List Cexp} (hc : ∀ k ∈ cases, Simulates I fl k) {arg' : Value}
    {i : ℕ} (he : xformCases fl rn avail bh arg' i cases = .ok cases')
    (h : Inv I rn avail bh env env') (hf : Fresh (casesBinders cases) env)
    (hs : List.Forall₂ (ClosureRel I fl) store store')
    (hn : (Branch.switch arg' (i + n)).Holds I env') :
    Option.Rel (CallRel I fl) (execNth I store env w cases n)
      (execNth I store' env' w cases' n) := by
  induction cases generalizing i n cases' with
  | nil =>
    cases he
    exact .none
  | cons k ks ih =>
    obtain ⟨k', hk', he⟩ := bind_eq_ok.mp he
    obtain ⟨ks', hks', he⟩ := bind_eq_ok.mp he
    cases he
    cases n with
    | zero => exact hc k List.mem_cons_self hk' (h.record hn) hf.left hs
    | succ n =>
      refine ih (fun k hk => hc k (List.mem_cons_of_mem _ hk)) hks' hf.right ?_
      rwa [Nat.add_right_comm]

theorem simulates_switch {arg : Value} {id : Lvar} (hc : ∀ k ∈ cases, Simulates I fl k) :
    Simulates I fl (.switch arg id cases) := by
  intro rn avail bh e' env env' store store' w he h hf hs
  simp only [xform] at he
  split at he
  · next n hn =>
    have hsw := matchSwitch_holds h (ite_eq_some hn)
    obtain ⟨d, hd, hi⟩ := Option.bind_eq_some_iff.mp hsw
    rw [exec, h.val arg, hd]
    simp only [Option.bind_eq_bind, Option.bind_some, hi]
    exact exec_xformNth hc he h hf hs
  · obtain ⟨cases', hc', he⟩ := bind_eq_ok.mp he
    cases he
    rw [exec, h.val arg]
    refine rel_bind fun d hd => rel_bind fun n hn => ?_
    refine exec_xformCases hc hc' h hf hs ?_
    rw [Nat.zero_add]
    exact Option.bind_eq_some_iff.mpr ⟨d, hd, hn⟩

/-! ### Functions -/

theorem xformFun_eq_ok {f f' : Function} (h : xformFun fl rn avail bh f = .ok f') :
    f'.name = f.name ∧ f'.params = f.params ∧
      xform fl rn avail bh f.body = .ok f'.body := by
  obtain ⟨fk, x, xs, tys, body⟩ := f
  obtain ⟨body', hb, h⟩ := bind_eq_ok.mp h
  cases h
  exact ⟨rfl, rfl, hb⟩

theorem xformFuns_eq_ok {fs fs' : List Function} (h : xformFuns fl rn avail bh fs = .ok fs') :
    List.Forall₂ (fun f f' => xformFun fl rn avail bh f = .ok f') fs fs' := by
  induction fs generalizing fs' with
  | nil =>
    cases h
    exact .nil
  | cons f fs ih =>
    obtain ⟨f', hf', h⟩ := bind_eq_ok.mp h
    obtain ⟨fs', hfs', h⟩ := bind_eq_ok.mp h
    cases h
    exact .cons hf' (ih hfs')

theorem fresh_of_mem {f : Function} (hm : f ∈ fns) (hf : Fresh (fnsBinders fns) env) :
    Fresh (fnBinders f) env := by
  induction fns with
  | nil => cases hm
  | cons g fns ih =>
    rcases List.mem_cons.mp hm with rfl | hm'
    · exact hf.left
    · exact ih hm' hf.right

theorem closureRel_map {fns' : List Function} (hx : xformFuns fl rn avail bh fns = .ok fns')
    (h : Inv I rn avail bh env env') (hf : ∀ f ∈ fns, Fresh (fnBinders f) env) :
    List.Forall₂ (ClosureRel I fl) (fns.map fun f => ⟨f, env⟩) (fns'.map fun f => ⟨f, env'⟩) := by
  rw [List.forall₂_map_left_iff, List.forall₂_map_right_iff]
  refine forall₂_imp_mem (xformFuns_eq_ok hx) fun f hm f' _ hxf => ?_
  exact ⟨rn, avail, bh, hxf, h, hf f hm⟩

theorem map_name_of_xformFuns {fns' : List Function}
    (hx : xformFuns fl rn avail bh fns = .ok fns') :
    fns'.map Function.name = fns.map Function.name := by
  have h : List.Forall₂ (· = ·) (fns'.map Function.name) (fns.map Function.name) := by
    rw [List.forall₂_map_left_iff, List.forall₂_map_right_iff]
    exact ((xformFuns_eq_ok hx).imp fun _ _ hf => (xformFun_eq_ok hf).1).flip
  rwa [List.forall₂_eq_eq_eq] at h

theorem simulates_fix (hk : Simulates I fl k) : Simulates I fl (.fix fns k) := by
  intro rn avail bh e' env env' store store' w he h hf hs
  obtain ⟨fns', hfns, he⟩ := bind_eq_ok.mp he
  obtain ⟨k', hk', he⟩ := bind_eq_ok.mp he
  cases he
  have hlen : fns'.length = fns.length := (xformFuns_eq_ok hfns).length_eq.symm
  have hvals : fnVals I store'.length fns' = fnVals I store.length fns := by
    rw [fnVals, fnVals, hlen, hs.length_eq]
  have hf : Fresh (fns.map Function.name ++ (fnsBinders fns ++ binders k)) env := by
    rw [← List.append_assoc]
    exact hf
  rw [exec, exec, map_name_of_xformFuns hfns, hvals]
  rcases h.bind hf.left (fnVals I store.length fns) with
    ⟨h1, h2⟩ | ⟨env₁, env₁', h1, h2, hinv⟩
  · simp only [h1, h2]
    exact .none
  · have hf₁ := hf.bind h1
    simp only [h1, h2]
    refine hk hk' hinv hf₁.right (List.rel_append hs ?_)
    exact closureRel_map hfns hinv fun f hm => fresh_of_mem hm hf₁.left

/-- **A term and its transform reach the same call**, in environments that the invariant
relates. -/
theorem exec_xform : ∀ e : Cexp, Simulates I fl e
  | .record _ _ _ k => simulates_record (exec_xform k)
  | .select _ _ _ _ k => simulates_select (exec_xform k)
  | .offset .. => fun he => by simp only [xform] at he; cases he
  | .app f args => simulates_app f args
  | .fix _ k => simulates_fix (exec_xform k)
  | .switch _ _ cases => simulates_switch fun k _ => exec_xform k
  | .branch _ _ _ k₁ k₂ => simulates_branch (exec_xform k₁) (exec_xform k₂)
  | .setter _ _ k => simulates_setter (exec_xform k)
  | .looker _ _ _ _ k => simulates_looker (exec_xform k)
  | .arith _ _ _ _ k => simulates_arith (exec_xform k)
  | .pure _ _ _ _ k => simulates_pure (exec_xform k)
  | .rcc _ _ _ _ _ k => simulates_rcc (exec_xform k)

theorem enter_rel {c c' : Closure D} (hc : ClosureRel I fl c c')
    (hs : List.Forall₂ (ClosureRel I fl) store store') (args : List D) (w : W) :
    Option.Rel (CallRel I fl) (enter I store c args w) (enter I store' c' args w) := by
  obtain ⟨rn, avail, bh, hx, h, hf⟩ := hc
  obtain ⟨-, hparams, hbody⟩ := xformFun_eq_ok hx
  obtain ⟨⟨fk, f, xs, tys, body⟩, env⟩ := c
  unfold enter
  rw [hparams]
  rcases h.bind hf.left args with ⟨h1, h2⟩ | ⟨env₁, env₁', h1, h2, hinv⟩
  · simp only [Function.params_mk, h1, h2]
    exact .none
  · simp only [Function.params_mk, h1, h2]
    exact exec_xform body hbody hinv (hf.bind h1) hs

/-- **Runs in step**: related calls lead to the same outcome. -/
theorem run_rel (fuel : ℕ) {c c' : Option (Call D W)} (h : Option.Rel (CallRel I fl) c c') :
    run I fuel c = run I fuel c' := by
  induction fuel generalizing c c' with
  | zero =>
    cases h with
    | none => rfl
    | some h => rw [run, run, h.f, h.args, h.world]
  | succ fuel ih =>
    cases h with
    | none => rfl
    | @some c c' h =>
      rw [run, run, h.f, h.args, h.world]
      cases hn : I.unfn c'.f with
      | none => rfl
      | some n =>
        refine ih ?_
        have hn := List.forall₂_iff_get.mp h.store
        by_cases hlt : n < c.store.length
        · have hlt' : n < c'.store.length := hn.1 ▸ hlt
          have hclo : ClosureRel I fl c.store[n] c'.store[n] := hn.2 n hlt hlt'
          rw [List.getElem?_eq_getElem hlt, List.getElem?_eq_getElem hlt']
          exact enter_rel hclo h.store c'.args c'.world
        · have hlt' : ¬n < c'.store.length := hn.1 ▸ hlt
          rw [List.getElem?_eq_none (Nat.le_of_not_lt hlt),
            List.getElem?_eq_none (Nat.le_of_not_lt hlt')]
          exact .none

/-- **Value numbering preserves meaning.**  A program in which every variable is bound once and
its transform have the same runs. -/
theorem transform_sound {f f' : Function} (hx : transform fl f = .ok f') (env : Env D)
    (hu : UniqueBindings f) (henv : ∀ x ∈ fnBinders f, env x = none) (fuel : ℕ) (args : List D)
    (w : W) : runFunction I fuel f env args w = runFunction I fuel f' env args w := by
  have hc : ClosureRel I fl ⟨f, env⟩ ⟨f', env⟩ :=
    ⟨[], [], [], hx, Inv.empty env, (List.nodup_cons.mp hu).2, henv⟩
  exact run_rel fuel (enter_rel hc .nil args w)

/-- Numbers, added by `PURE_ARITH`; no value is a closure. -/
def sums : Interp ℕ Unit where
  fn n := n
  unfn _ := none
  lit _ := 0
  path _ d := some d
  record _ ds := some ds.sum
  select _ d := some d
  offset _ d := some d
  switch d := some d
  branch _ ds := some (ds.sum % 2 == 0)
  arith _ ds := some (some ds.sum)
  pure _ ds := some ds.sum
  alloc _ ds w := some (ds.sum, w)
  setter _ _ w := some w
  looker _ ds w := some (ds.sum, w)
  overflow _ := none
  rcc _ _ _ ds w := some (ds, w)

/-- `fn (k, x) => k (x + x, x + x)`, where `yz` are the variables of the two sums and `args` the
arguments of the call. -/
def twice (sum : Cexp → Cexp) (args : List Value) : Function :=
  .mk .escape 4 [0, 1] [.funt, .enumt]
    (.pure (.pureArith .add (.int 63)) [.var 1, .var 1] 2 .enumt (sum (.app (.var 0) args)))

/-- The second of two equal sums is dropped. -/
theorem transform_sound_twice :
    runFunction sums 1
        (twice (.pure (.pureArith .add (.int 63)) [.var 1, .var 1] 3 .enumt) [.var 2, .var 3])
        (fun _ => none) [9, 5] () =
      runFunction sums 1 (twice id [.var 2, .var 2]) (fun _ => none) [9, 5] () :=
  have hx : transform ⟨true, true, true, true⟩
      (twice (.pure (.pureArith .add (.int 63)) [.var 1, .var 1] 3 .enumt) [.var 2, .var 3]) =
      .ok (twice id [.var 2, .var 2]) := rfl
  transform_sound hx _ (by decide) (fun _ _ => rfl) 1 [9, 5] ()

end SmlNj.ValueNumbering
