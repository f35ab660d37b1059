import SmlNj.CPS.Machine

/-!
# Free variables and related environments

The execution of a term reads the variables that are free in it.  Environments that relate the free
variables of a term go on relating those of the terms that the machine gets to.

## Main definitions

* `FreeIn` — a variable is free in a term.
* `EnvRel` — environments that have related values for some variables.

## Main results

* `Env.bind_forall₂` — the values of the variables that are bound.
* `EnvRel.bind` — binding the same variables to related values.
* `vals_rel` — the values of operands.
* `group_lookup` — the values of the functions of a `FIX`.
-/

namespace SmlNj.CPS

section Option

variable {α α' β β' : Type*} {r : α → α' → Prop} {s : β → β' → Prop} {o : Option α}
  {o' : Option α'}

theorem rel_bind {k : α → Option β} {k' : α' → Option β'} (h : Option.Rel r o o')
    (hk : ∀ a a', r a a' → Option.Rel s (k a) (k' a')) : Option.Rel s (o.bind k) (o'.bind k') := by
  cases h with
  | none => exact .none
  | some ha => exact hk _ _ ha

theorem rel_map {k : α → β} {k' : α' → β'} (h : Option.Rel r o o')
    (hk : ∀ a a', r a a' → s (k a) (k' a')) : Option.Rel s (o.map k) (o'.map k') := by
  cases h with
  | none => exact .none
  | some ha => exact .some (hk _ _ ha)

theorem rel_mono {r' : α → α' → Prop} (h : Option.Rel r o o') (hr : ∀ a a', r a a' → r' a a') :
    Option.Rel r' o o' := by
  cases h with
  | none => exact .none
  | some ha => exact .some (hr _ _ ha)

theorem rel_mapM {k : α → Option β} {k' : α' → Option β'} {xs : List α} {ys : List α'}
    (h : List.Forall₂ r xs ys) (hk : ∀ a a', r a a' → Option.Rel s (k a) (k' a')) :
    Option.Rel (List.Forall₂ s) (xs.mapM k) (ys.mapM k') := by
  induction h with
  | nil => exact .some .nil
  | cons ha _ ih =>
    rw [List.mapM_cons, List.mapM_cons]
    exact rel_bind (hk _ _ ha) fun b b' hb => rel_bind ih fun bs bs' hbs => .some (.cons hb hbs)

end Option

/-- **A variable is free in a term.** -/
inductive FreeIn (x : Lvar) : Cexp → Prop
  | arg {e : Cexp} {op : Op} {args : List Value} {xs : List Lvar} {ks : List Cexp}
    (h : e.view = .prim op args xs ks) (hx : .var x ∈ args) : FreeIn x e
  | next {e k : Cexp} {op : Op} {args : List Value} {xs : List Lvar} {ks : List Cexp}
    (h : e.view = .prim op args xs ks) (hk : k ∈ ks) (hx : x ∉ xs) (hfree : FreeIn x k) : FreeIn x e
  | app {f : Value} {args : List Value} (hx : .var x ∈ f :: args) : FreeIn x (.app f args)
  | body {fns : List Function} {e : Cexp} {fd : Function} (hfd : fd ∈ fns)
    (hx : x ∉ fns.map Function.name) (hparam : x ∉ fd.params) (hfree : FreeIn x fd.body) :
    FreeIn x (.fix fns e)
  | rest {fns : List Function} {e : Cexp} (hx : x ∉ fns.map Function.name) (hfree : FreeIn x e) :
    FreeIn x (.fix fns e)

theorem binders_view {e : Cexp} {op : Op} {args : List Value} {xs : List Lvar} {ks : List Cexp}
    (h : e.view = .prim op args xs ks) : binders e = xs ++ casesBinders ks := by
  cases e <;> cases h <;> simp

theorem binders_sublist {k : Cexp} {ks : List Cexp} (h : k ∈ ks) :
    (binders k).Sublist (casesBinders ks) := by
  induction ks with
  | nil => cases h
  | cons c ks ih =>
    rw [casesBinders]
    rcases List.mem_cons.mp h with rfl | h
    · exact List.sublist_append_left _ _
    · exact (ih h).trans (List.sublist_append_right _ _)

theorem mem_casesBinders {x : Lvar} {ks : List Cexp} :
    x ∈ casesBinders ks ↔ ∃ k ∈ ks, x ∈ binders k := by
  induction ks with
  | nil => simp
  | cons k ks ih => simp [ih]

theorem mem_fnsBinders {x : Lvar} {fns : List Function} :
    x ∈ fnsBinders fns ↔ ∃ fd ∈ fns, x ∈ fd.params ++ binders fd.body := by
  induction fns with
  | nil => simp
  | cons fd fns ih =>
    cases fd
    simp [ih, or_assoc]

theorem fnsBinders_append (fns fns' : List Function) :
    fnsBinders (fns ++ fns') = fnsBinders fns ++ fnsBinders fns' := by
  induction fns with
  | nil => rfl
  | cons fd fns ih => simp [ih]

/-- **The variables from `n` on are fresh**: those of the function are below. -/
structure FreshFor (n : Lvar) (f : Function) : Prop where
  bound : ∀ x ∈ f.name :: fnBinders f, x < n
  free : ∀ x, FreeIn x f.body → x < n

/-! ### Binding variables -/

section Bind

variable {D : Type} {env env' env₁ : Env D} {xs ys : List Lvar} {ds es : List D} {x : Lvar}

theorem Env.length_of_bind (h : env.bind xs ds = some env') : xs.length = ds.length := by
  induction xs generalizing env ds with
  | nil =>
    cases ds with
    | nil => rfl
    | cons d ds => cases h
  | cons x xs ih =>
    cases ds with
    | nil => cases h
    | cons d ds => rw [List.length_cons, List.length_cons, ih h]

theorem Env.exists_bind (env : Env D) (h : xs.length = ds.length) :
    ∃ env', env.bind xs ds = some env' := by
  induction xs generalizing env ds with
  | nil =>
    cases ds with
    | nil => exact ⟨env, rfl⟩
    | cons d ds => cases h
  | cons x xs ih =>
    cases ds with
    | nil => cases h
    | cons d ds => exact ih (env.set x d) (Nat.succ.inj h)

theorem Env.bind_eq_none_iff : env.bind xs ds = none ↔ xs.length ≠ ds.length := by
  constructor
  · intro h hlen
    obtain ⟨env', h'⟩ := env.exists_bind hlen
    rw [h] at h'
    cases h'
  · intro h
    cases hb : env.bind xs ds with
    | none => rfl
    | some env' => exact absurd (Env.length_of_bind hb) h

theorem Env.bind_of_not_mem (h : env.bind xs ds = some env') (hx : x ∉ xs) : env' x = env x := by
  induction xs generalizing env ds with
  | nil =>
    cases ds with
    | nil =>
      cases h
      rfl
    | cons d ds => cases h
  | cons z xs ih =>
    cases ds with
    | nil => cases h
    | cons d ds =>
      rw [List.mem_cons, not_or] at hx
      rw [ih h hx.2, Env.set_of_ne env d hx.1]

/-- **The values of the variables that are bound.** -/
theorem Env.bind_forall₂ (h : env.bind xs ds = some env') (hxs : xs.Nodup) :
    List.Forall₂ (fun x d => env' x = some d) xs ds := by
  induction xs generalizing env ds with
  | nil =>
    cases ds with
    | nil => exact .nil
    | cons d ds => cases h
  | cons x xs ih =>
    cases ds with
    | nil => cases h
    | cons d ds =>
      obtain ⟨hx, hxs⟩ := List.nodup_cons.mp hxs
      have hrest : (env.set x d).bind xs ds = some env' := h
      exact .cons ((Env.bind_of_not_mem hrest hx).trans (Env.set_self env x d)) (ih hrest hxs)

theorem bound_congr (h : List.Forall₂ (fun x d => env x = some d) xs ds)
    (henv : ∀ x ∈ xs, env' x = env x) : List.Forall₂ (fun x d => env' x = some d) xs ds := by
  induction h with
  | nil => exact .nil
  | cons hx _ ih =>
    exact .cons ((henv _ List.mem_cons_self).trans hx)
      (ih fun x hx => henv x (List.mem_cons_of_mem _ hx))

theorem vals_var {W : Type} {I : Interp D W} (h : List.Forall₂ (fun x d => env x = some d) xs ds) :
    vals I env (xs.map .var) = some ds := by
  induction h with
  | nil => rfl
  | cons hx _ ih =>
    rw [vals] at ih ⊢
    rw [List.map_cons, List.mapM_cons, ih, val, hx]
    rfl

end Bind

/-! ### Related environments -/

/-- **Environments that have related values** for some variables. -/
def EnvRel {D : Type} (V : D → D → Prop) (p : Lvar → Prop) (env env' : Env D) : Prop :=
  ∀ x, p x → Option.Rel V (env x) (env' x)

section EnvRel

variable {D W : Type} {I : Interp D W} {V V' : D → D → Prop} {U : W → W → Prop} {p : Lvar → Prop}
  {env env' env₁ env₁' : Env D} {xs : List Lvar} {ds ds' : List D}

theorem EnvRel.mono (h : EnvRel V p env env') (hV : ∀ d d', V d d' → V' d d') :
    EnvRel V' p env env' := fun x hx => rel_mono (h x hx) hV

theorem EnvRel.of_imp {q : Lvar → Prop} (h : EnvRel V p env env') (hq : ∀ x, q x → p x) :
    EnvRel V q env env' := fun x hx => h x (hq x hx)

/-- **Binding the same variables to related values.** -/
theorem EnvRel.bind (h : EnvRel V (fun x => p x ∧ x ∉ xs) env env') (hds : List.Forall₂ V ds ds')
    (hb : env.bind xs ds = some env₁) (hb' : env'.bind xs ds' = some env₁') :
    EnvRel V p env₁ env₁' := by
  induction xs generalizing env env' ds ds' with
  | nil =>
    cases hds with
    | nil =>
      cases hb
      cases hb'
      exact h.of_imp fun x hx => ⟨hx, List.not_mem_nil⟩
    | cons => cases hb
  | cons z xs ih =>
    cases hds with
    | nil => cases hb
    | @cons d d' ds ds' hd hds =>
      refine ih (fun x hx => ?_) hds hb hb'
      by_cases hxz : x = z
      · subst hxz
        rw [Env.set_self, Env.set_self]
        exact .some hd
      · rw [Env.set_of_ne env d hxz, Env.set_of_ne env' d' hxz]
        exact h x ⟨hx.1, List.not_mem_cons_of_ne_of_not_mem hxz hx.2⟩

/-- Binding variables in the second environment to values that are related to those that they have in
the first one. -/
theorem EnvRel.bind_right (hvals : List.Forall₂ (fun x d => env x = some d) xs ds)
    (hds : List.Forall₂ V ds ds') (h : EnvRel V (fun x => p x ∧ x ∉ xs) env env')
    (hb : env'.bind xs ds' = some env₁') : EnvRel V p env env₁' := by
  induction hvals generalizing env' ds' with
  | nil =>
    cases hds
    cases hb
    exact h.of_imp fun x hx => ⟨hx, List.not_mem_nil⟩
  | @cons z d xs ds hz _ ih =>
    cases hds with
    | @cons _ d' _ ds' hd hds =>
      refine ih hds (fun x hx => ?_) hb
      by_cases hxz : x = z
      · subst hxz
        rw [hz, Env.set_self]
        exact .some hd
      · rw [Env.set_of_ne env' d' hxz]
        exact h x ⟨hx.1, List.not_mem_cons_of_ne_of_not_mem hxz hx.2⟩

theorem val_rel (hlit : ∀ v, V (I.lit v) (I.lit v)) {v : Value}
    (h : EnvRel V (fun x => v = .var x) env env') : Option.Rel V (val I env v) (val I env' v) := by
  cases v with
  | var x => exact h x rfl
  | _ => exact .some (hlit _)

/-- **The values of operands** in related environments. -/
theorem vals_rel (hlit : ∀ v, V (I.lit v) (I.lit v)) {args : List Value}
    (h : EnvRel V (fun x => .var x ∈ args) env env') :
    Option.Rel (List.Forall₂ V) (vals I env args) (vals I env' args) := by
  induction args with
  | nil => exact .some .nil
  | cons v args ih =>
    rw [vals, vals, List.mapM_cons, List.mapM_cons]
    have hv : Option.Rel V (val I env v) (val I env' v) :=
      val_rel hlit (h.of_imp fun x hx => hx ▸ List.mem_cons_self)
    exact rel_bind hv fun d d' hd =>
      rel_bind (ih (h.of_imp fun x hx => List.mem_cons_of_mem v hx)) fun ds ds' hds =>
        .some (.cons hd hds)

end EnvRel

theorem getElem?_append_of_some {α : Type*} {l l' : List α} {n : ℕ} {a : α} (h : l[n]? = some a) :
    (l ++ l')[n]? = some a := by
  rw [List.getElem?_append_left (List.getElem?_eq_some_iff.mp h).1]
  exact h

section Group

variable {D W : Type} {I : Interp D W} {env env' : Env D} {fns : List Function} {n : ℕ}

theorem length_fnVals (n : ℕ) (fns : List Function) :
    fns.length = (fnVals I n fns).length := by simp [fnVals]

/-- **The values of the functions of a `FIX`.** -/
theorem group_lookup (h : env.bind (fns.map Function.name) (fnVals I n fns) = some env')
    (hnames : (fns.map Function.name).Nodup) {i : ℕ} {fd : Function} (hfd : fns[i]? = some fd) :
    env' fd.name = some (I.fn (n + i)) := by
  have hall := Env.bind_forall₂ h hnames
  obtain ⟨hi, rfl⟩ := List.getElem?_eq_some_iff.mp hfd
  have hget := hall.get (i := i) (by simpa using hi) (by simpa [fnVals] using hi)
  simpa [fnVals] using hget

/-- **The step of a `FIX`.** -/
theorem step_fix (S : List (Closure D)) (env : Env D) (w : W) (fns : List Function) (e : Cexp) :
    ∃ env₁, env.bind (fns.map Function.name) (fnVals I S.length fns) = some env₁ ∧
      step I (.term S env w (.fix fns e)) =
        some (.term (S ++ fns.map fun f => ⟨f, env₁⟩) env₁ w e) := by
  have hlen : (fns.map Function.name).length = (fnVals I S.length fns).length := by
    rw [List.length_map]
    exact length_fnVals _ fns
  obtain ⟨env₁, hb⟩ := env.exists_bind hlen
  refine ⟨env₁, hb, ?_⟩
  rw [step, Cexp.view, stepTerm, hb]
  rfl

theorem group_closure {S : List (Closure D)} {i : ℕ} {fd : Function} (hfd : fns[i]? = some fd) :
    (S ++ fns.map fun f => (⟨f, env⟩ : Closure D))[S.length + i]? = some ⟨fd, env⟩ := by
  rw [List.getElem?_append_right (Nat.le_add_right _ _), Nat.add_sub_cancel_left,
    List.getElem?_map, hfd]
  rfl

variable {S : List (Closure D)} {d : D} {fk : FunKind} {f : Lvar} {xs : List Lvar}
  {tys : List Cty} {e : Cexp} {ds : List D} {w : W}

theorem step_closure (hd : I.unfn d = some n) (hclo : S[n]? = some ⟨.mk fk f xs tys e, env⟩)
    (hb : env.bind xs ds = some env') :
    step I (.call ⟨d, ds, S, w⟩) = some (.term S env' w e) := by
  rw [step_call hd, hclo, Option.bind_some]
  simp [Function.params_mk, hb, Function.body_mk]

theorem step_closure_none (hd : I.unfn d = some n)
    (hclo : S[n]? = some ⟨.mk fk f xs tys e, env⟩) (hlen : xs.length ≠ ds.length) :
    step I (.call ⟨d, ds, S, w⟩) = none := by
  rw [step_call hd, hclo, Option.bind_some]
  simp [Function.params_mk, Env.bind_eq_none_iff.mpr hlen]

end Group

end SmlNj.CPS
