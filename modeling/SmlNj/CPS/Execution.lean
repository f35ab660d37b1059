import SmlNj.CPS.Numbers

/-!
# Executing a part of a term

How the execution of a term gets to a part of it, through the operators that do not touch the
world, and through the continuations that a part of the term binds and calls.

## Main definitions

* `Config` — a term with the environment and the closures that it is executed in.
* `Leads` — the execution of a configuration gets to another one.
* `Overflows` — it gets to an operator that overflows.
* `AgreeBelow` — environments that differ only at fresh variables.
* `Performs`, `Expands` — the execution of a term that is being built.

## Main results

* `Leads.run_eq` — a run goes on from the configuration that is reached.
* `Overflows.run_eq` — a run goes on with the handler for overflow.
-/

namespace SmlNj.CPS

/-- A term with its closures and its environment. -/
structure Config (D : Type) where
  store : List (Closure D)
  env : Env D
  term : Cexp

section

variable {D W : Type} (I : Interp D W)

def Config.run (fuel : ℕ) (c : Config D) (w : W) : Outcome D W :=
  CPS.run I fuel (exec I c.store c.env w c.term)

/-- **The execution of a configuration gets to another one.** -/
inductive Leads (I : Interp D W) : Config D → Config D → Prop
  | refl (c : Config D) : Leads I c c
  | pure {st : List (Closure D)} {env : Env D} {p : P.Pure} {args : List Value} {x : Lvar}
      {ty : Cty} {e : Cexp} {ds : List D} {d : D} {c : Config D} : p.allocates = false →
      vals I env args = some ds → I.pure p ds = some d → Leads I ⟨st, env.set x d, e⟩ c →
      Leads I ⟨st, env, .pure p args x ty e⟩ c
  | arith {st : List (Closure D)} {env : Env D} {p : P.Arith} {args : List Value} {x : Lvar}
      {ty : Cty} {e : Cexp} {ds : List D} {d : D} {c : Config D} :
      vals I env args = some ds → I.arith p ds = some (some d) →
      Leads I ⟨st, env.set x d, e⟩ c → Leads I ⟨st, env, .arith p args x ty e⟩ c
  | select {st : List (Closure D)} {env : Env D} {i : ℕ} {v : Value} {x : Lvar} {ty : Cty}
      {e : Cexp} {d₀ d : D} {c : Config D} : val I env v = some d₀ → I.select i d₀ = some d →
      Leads I ⟨st, env.set x d, e⟩ c → Leads I ⟨st, env, .select i v x ty e⟩ c
  | branch {st : List (Closure D)} {env : Env D} {p : P.Branch} {args : List Value} {id : Lvar}
      {e1 e2 : Cexp} {ds : List D} {b : Bool} {c : Config D} : vals I env args = some ds →
      I.branch p ds = some b → Leads I ⟨st, env, if b then e1 else e2⟩ c →
      Leads I ⟨st, env, .branch p args id e1 e2⟩ c
  | switch {st : List (Closure D)} {env : Env D} {v : Value} {id : Lvar} {cases : List Cexp}
      {e : Cexp} {d : D} {i : ℕ} {c : Config D} : val I env v = some d → I.switch d = some i →
      cases[i]? = some e → Leads I ⟨st, env, e⟩ c → Leads I ⟨st, env, .switch v id cases⟩ c
  | fix {st : List (Closure D)} {env env' : Env D} {fns : List Function} {e : Cexp}
      {c : Config D} :
      env.bind (fns.map Function.name) (fnVals I st.length fns) = some env' →
      Leads I ⟨st ++ fns.map fun f => ⟨f, env'⟩, env', e⟩ c → Leads I ⟨st, env, .fix fns e⟩ c
  | app {st : List (Closure D)} {env env' : Env D} {f : Value} {args : List Value} {d : D}
      {ds : List D} {n : ℕ} {clo : Closure D} {c : Config D} : val I env f = some d →
      vals I env args = some ds → I.unfn d = some n → st[n]? = some clo →
      clo.env.bind clo.function.params ds = some env' → Leads I ⟨st, env', clo.function.body⟩ c →
      Leads I ⟨st, env, .app f args⟩ c

variable {I} {c c' c'' : Config D}

theorem Leads.trans (h : Leads I c c') (h' : Leads I c' c'') : Leads I c c'' := by
  induction h with
  | refl => exact h'
  | pure hp hv hd _ ih => exact .pure hp hv hd (ih h')
  | arith hv hd _ ih => exact .arith hv hd (ih h')
  | select hv hd _ ih => exact .select hv hd (ih h')
  | branch hv hb _ ih => exact .branch hv hb (ih h')
  | switch hv hi hc _ ih => exact .switch hv hi hc (ih h')
  | fix hb _ ih => exact .fix hb (ih h')
  | app hf hv hn hst hb _ ih => exact .app hf hv hn hst hb (ih h')

theorem execNth_of_getElem? (st : List (Closure D)) (env : Env D) (w : W) {cases : List Cexp}
    {i : ℕ} {e : Cexp} (h : cases[i]? = some e) :
    execNth I st env w cases i = exec I st env w e := by
  induction cases generalizing i with
  | nil => cases h
  | cons c cs ih =>
    cases i with
    | zero =>
      cases h
      rfl
    | succ i => exact ih h

/-- **A run goes on from the configuration that is reached**: only the calls on the way use up
fuel. -/
theorem Leads.run_eq (h : Leads I c c') :
    ∃ n, ∀ fuel w, c.run I (fuel + n) w = c'.run I fuel w := by
  induction h with
  | refl => exact ⟨0, fun _ _ => rfl⟩
  | pure hp hv hd _ ih =>
    obtain ⟨n, ih⟩ := ih
    refine ⟨n, fun fuel w => ?_⟩
    rw [← ih fuel w]
    simp [Config.run, exec, hv, hp, hd]
  | arith hv hd _ ih | select hv hd _ ih =>
    obtain ⟨n, ih⟩ := ih
    refine ⟨n, fun fuel w => ?_⟩
    rw [← ih fuel w]
    simp [Config.run, exec, hv, hd]
  | @branch _ _ _ _ _ _ _ _ b _ hv hb _ ih =>
    obtain ⟨n, ih⟩ := ih
    refine ⟨n, fun fuel w => ?_⟩
    rw [← ih fuel w]
    simp only [Config.run, exec, hv, hb, Option.bind_eq_bind, Option.bind_some]
    cases b <;> rfl
  | switch hv hi hc _ ih =>
    obtain ⟨n, ih⟩ := ih
    refine ⟨n, fun fuel w => ?_⟩
    rw [← ih fuel w]
    simp [Config.run, exec, hv, hi, execNth_of_getElem? _ _ w hc]
  | fix hb _ ih =>
    obtain ⟨n, ih⟩ := ih
    refine ⟨n, fun fuel w => ?_⟩
    rw [← ih fuel w]
    simp [Config.run, exec, hb]
  | app hf hv hn hst hb _ ih =>
    obtain ⟨n, ih⟩ := ih
    refine ⟨n + 1, fun fuel w => ?_⟩
    rw [← ih fuel w, ← add_assoc]
    simp [Config.run, exec, CPS.run, enter, hf, hv, hn, hst, hb]

variable (I) in
def Overflows (c : Config D) : Prop :=
  ∃ st env p args x ty e ds, Leads I c ⟨st, env, .arith p args x ty e⟩ ∧
    vals I env args = some ds ∧ I.arith p ds = some none

theorem Leads.overflows (h : Leads I c c') (h' : Overflows I c') : Overflows I c := by
  obtain ⟨st, env, p, args, x, ty, e, ds, hl, hv, hp⟩ := h'
  exact ⟨st, env, p, args, x, ty, e, ds, h.trans hl, hv, hp⟩

/-! ### Environments with fresh variables -/

/-- The environments agree at the variables below `m`, which are those in use. -/
def AgreeBelow (m : Lvar) (env env' : Env D) : Prop := ∀ z < m, env' z = env z

/-- The operand is in use when the next fresh variable is `m`. -/
def Value.Below (m : Lvar) : Value → Prop
  | .var x => x < m
  | _ => True

variable {m m' x : Lvar} {env env' env'' : Env D} {v : Value} {d : D}

namespace AgreeBelow

theorem refl (m : Lvar) (env : Env D) : AgreeBelow m env env := fun _ _ => rfl

theorem trans (h : AgreeBelow m env env') (h' : AgreeBelow m env' env'') :
    AgreeBelow m env env'' := fun z hz => (h' z hz).trans (h z hz)

theorem mono (hm : m ≤ m') (h : AgreeBelow m' env env') : AgreeBelow m env env' :=
  fun z hz => h z (lt_of_lt_of_le hz hm)

theorem set (hx : m ≤ x) (h : AgreeBelow m env env') (d : D) : AgreeBelow m env (env'.set x d) :=
  fun z hz => (Env.set_of_ne env' d (lt_of_lt_of_le hz hx).ne).trans (h z hz)

theorem val_eq (h : AgreeBelow m env env') (hv : v.Below m) : val I env' v = val I env v := by
  cases v with
  | var x => exact h x hv
  | _ => rfl

end AgreeBelow

theorem Value.Below.mono (hm : m ≤ m') (h : v.Below m) : v.Below m' := by
  cases v with
  | var x => exact lt_of_lt_of_le h hm
  | _ => trivial

theorem vals_one (h : val I env v = some d) : vals I env [v] = some [d] := by
  simp only [vals, List.mapM_cons, List.mapM_nil, h]
  rfl

theorem vals_two {v₁ v₂ : Value} {d₁ d₂ : D} (h₁ : val I env v₁ = some d₁)
    (h₂ : val I env v₂ = some d₂) : vals I env [v₁, v₂] = some [d₁, d₂] := by
  simp only [vals, List.mapM_cons, List.mapM_nil, h₁, h₂]
  rfl

theorem val_set (env : Env D) (x : Lvar) (d : D) : val I (env.set x d) (.var x) = some d :=
  Env.set_self env x d

/-- The operand is in use and has a value. -/
structure Holds (I : Interp D W) (env : Env D) (m : Lvar) (v : Value) (d : D) : Prop where
  below : v.Below m
  val : val I env v = some d

namespace Holds

theorem mono (h : Holds I env m v d) (hm : m ≤ m') (ha : AgreeBelow m env env') :
    Holds I env' m' v d :=
  ⟨h.below.mono hm, (ha.val_eq h.below).trans h.val⟩

theorem set (h : Holds I env m v d) (c : D) : Holds I (env.set m c) (m + 1) v d :=
  h.mono m.le_succ ((AgreeBelow.refl m env).set le_rfl c)

theorem fresh (env : Env D) (m : Lvar) (d : D) : Holds I (env.set m d) (m + 1) (.var m) d :=
  ⟨m.lt_succ_self, val_set env m d⟩

end Holds

variable {st : List (Closure D)} {kind : FunKind} {f : Lvar} {tys : List Cty} {body : Cexp}
  {b : LambdaVar.Supply Cexp}

theorem Leads.fixOne {xs : List Lvar} {e : Cexp} {c : Config D}
    (h : Leads I ⟨st ++ [⟨.mk kind f xs tys body, env.set f (I.fn st.length)⟩],
      env.set f (I.fn st.length), e⟩ c) : Leads I ⟨st, env, .fix [.mk kind f xs tys body] e⟩ c :=
  .fix rfl h

theorem Leads.appOne {g x : Lvar} {env₀ : Env D} {n : ℕ} {c : Config D}
    (hunfn : ∀ n, I.unfn (I.fn n) = some n) (hf : env f = some (I.fn n))
    (hst : st[n]? = some ⟨.mk kind g [x] tys body, env₀⟩) (hv : val I env v = some d)
    (h : Leads I ⟨st, env₀.set x d, body⟩ c) : Leads I ⟨st, env, .app (.var f) [v]⟩ c :=
  .app hf (vals_one hv) (hunfn n) hst rfl h

theorem Leads.appZero {g : Lvar} {env₀ : Env D} {n : ℕ} {c : Config D}
    (hunfn : ∀ n, I.unfn (I.fn n) = some n) (hf : env f = some (I.fn n))
    (hst : st[n]? = some ⟨.mk kind g [] tys body, env₀⟩) (h : Leads I ⟨st, env₀, body⟩ c) :
    Leads I ⟨st, env, .app (.var f) []⟩ c :=
  .app hf rfl (hunfn n) hst rfl h

/-- What a lowered operation does: it leads to the rest of the term with the result in the variable
`x`, or it overflows.  Nothing else that is in use has changed. -/
def Performs (I : Interp D W) (st : List (Closure D)) (env : Env D) (m : Lvar)
    (build : LambdaVar.Supply Cexp) (x : Lvar) (k : Cexp) (r : Option D) : Prop :=
  ∃ s m', build m = .ok (s, m') ∧
    match r with
    | some d => ∃ st' env', AgreeBelow m env env' ∧
        Leads I ⟨st, env, s⟩ ⟨st ++ st', env'.set x d, k⟩
    | none => Overflows I ⟨st, env, s⟩

/-- The term that is built leads to the one that its rest builds, with the same supply of fresh
variables in the end. -/
def Expands (I : Interp D W) (b : LambdaVar.Supply Cexp) (m : Lvar) (st : List (Closure D))
    (env : Env D) (b' : LambdaVar.Supply Cexp) (m' : Lvar) (st' : List (Closure D))
    (env' : Env D) : Prop :=
  ∀ e' n, b' m' = .ok (e', n) → ∃ e, b m = .ok (e, n) ∧ Leads I ⟨st, env, e⟩ ⟨st', env', e'⟩

theorem Expands.trans {b' b'' : LambdaVar.Supply Cexp} {m'' : Lvar} {st' st'' : List (Closure D)}
    (h : Expands I b m st env b' m' st' env') (h' : Expands I b' m' st' env' b'' m'' st'' env'') :
    Expands I b m st env b'' m'' st'' env'' := by
  intro e'' n he''
  obtain ⟨e', he', hl'⟩ := h' e'' n he''
  obtain ⟨e, he, hl⟩ := h e' n he'
  exact ⟨e, he, hl.trans hl'⟩

theorem Expands.performs {b' : LambdaVar.Supply Cexp} {k : Cexp} {r : Option D}
    (h : Expands I b m st env b' m' st env') (hm : m ≤ m') (ha : AgreeBelow m env env')
    (h' : Performs I st env' m' b' x k r) : Performs I st env m b x k r := by
  obtain ⟨e', n, he', hr⟩ := h'
  obtain ⟨e, he, hl⟩ := h e' n he'
  refine ⟨e, n, he, ?_⟩
  cases r with
  | some d =>
    obtain ⟨st', env'', ha', hl'⟩ := hr
    exact ⟨st', env'', ha.trans (ha'.mono hm), hl.trans hl'⟩
  | none => exact hl.overflows hr

theorem Expands.lvar (f : Lvar → LambdaVar.Supply Cexp) :
    Expands I (LambdaVar.mkLvar >>= f) m st env (f m) (m + 1) st env :=
  fun e' _ he => ⟨e', he, .refl _⟩

theorem Expands.pure {p : P.Pure} {args : List Value} {ty : Cty} {ds : List D}
    (hp : p.allocates = false) (hv : vals I env args = some ds) (hd : I.pure p ds = some d) :
    Expands I (do return .pure p args x ty (← b)) m st env b m st (env.set x d) := by
  intro e n he
  refine ⟨.pure p args x ty e, ?_, .pure hp hv hd (.refl _)⟩
  exact congrArg (· >>= fun q : Cexp × Lvar => Except.ok (Cexp.pure p args x ty q.1, q.2)) he

theorem Expands.arith {p : P.Arith} {args : List Value} {ty : Cty} {ds : List D}
    (hv : vals I env args = some ds) (hd : I.arith p ds = some (some d)) :
    Expands I (do return .arith p args x ty (← b)) m st env b m st (env.set x d) := by
  intro e n he
  refine ⟨.arith p args x ty e, ?_, .arith hv hd (.refl _)⟩
  exact congrArg (· >>= fun q : Cexp × Lvar => Except.ok (Cexp.arith p args x ty q.1, q.2)) he

end

end SmlNj.CPS
