import SmlNj.CPS.Scope

/-!
# Uncurrying

A function that does nothing but return another function to its continuation is split in two: a
worker that takes the arguments of the inner function and then those of the outer one, and a wrapper
that is curried and calls the worker.

A fresh variable is one more than the last one, and the next one is threaded through the pass.

## Main definitions

* `freein` — does a variable occur in a term?
* `reduce`, `uncurry` — the pass over terms and functions.
* `etasplit` — the pass over a program.
* `Split`, `TrFn`, `Tr` — what the pass does to functions and to terms.

## Main results

* `reduce_spec` — the pass does so, and binds every variable once.
* `etasplit_uniqueBindings` — so does the program that it yields.
-/

namespace SmlNj.CPS.Uncurry

/-- What the pass reads of the description of the machine. -/
structure MachSpec where
  unboxedFloats : Bool
  numArgRegs : ℤ
  numFloatArgRegs : ℤ

def isVar (v : Lvar) : Value → Bool
  | .var w => v == w
  | .label w => v == w
  | _ => false

def any (v : Lvar) (vl : List Value) : Bool := vl.any (isVar v)

mutual

/-- **Does a variable occur in a term?** -/
@[grind =] def freein (v : Lvar) : Cexp → Bool
  | .app f args => isVar v f || any v args
  | .switch u _ l => isVar v u || freeinCases v l
  | .record _ l _ ce => any v (l.map Prod.fst) || freein v ce
  | .select _ u _ _ ce => isVar v u || freein v ce
  | .offset _ u _ ce => isVar v u || freein v ce
  | .setter _ vl e | .looker _ vl _ _ e | .arith _ vl _ _ e | .pure _ vl _ _ e
  | .rcc _ _ _ vl _ e => any v vl || freein v e
  | .branch _ vl _ e1 e2 => any v vl || freein v e1 || freein v e2
  | .fix fl e => freeinFns v fl || freein v e

def freeinCases (v : Lvar) : List Cexp → Bool
  | [] => false
  | e :: es => freein v e || freeinCases v es

def freeinFns (v : Lvar) : List Function → Bool
  | [] => false
  | .mk _ _ _ _ e :: fl => freein v e || freeinFns v fl

end

/-! ### The pass -/

/-- Count the registers for floats and for other arguments. -/
def countRegs (spec : MachSpec) : List Cty → ℤ → ℤ → Bool
  | .fltt _ :: r, m, n =>
    if spec.unboxedFloats then countRegs spec r m (n + 1) else countRegs spec r (m + 1) n
  | _ :: r, m, n => countRegs spec r (m + 1) n
  | [], m, n => m ≤ spec.numArgRegs && n ≤ spec.numFloatArgRegs

def checklimit (spec : MachSpec) (cl : List Cty) : Bool := countRegs spec cl 0 0

def copyLvars (xs : List Lvar) (n : Lvar) : List Lvar × Lvar :=
  (List.range' n xs.length, n + xs.length)

/-- The wrapper of a curried function: it returns a function that calls the worker. -/
def wrapper (f k' : Lvar) (vl' : List Lvar) (tys : List Cty) (gk : FunKind) (g' : Lvar)
    (ul' : List Lvar) (cl' : List Cty) (f' : Lvar) : Function :=
  .mk .noInlineInto f (k' :: vl') tys
    (.fix [.mk gk g' ul' cl' (.app (.var f') ((ul' ++ vl').map .var))] (.app (.var k') [.var g']))

section Reduce

variable (spec : MachSpec)

mutual

/-- **The pass over a term.** -/
@[grind =] def reduce : Cexp → Lvar → Cexp × Lvar
  | .record k vl w e, n => let (e, n) := reduce e n; (.record k vl w e, n)
  | .select i v w t e, n => let (e, n) := reduce e n; (.select i v w t e, n)
  | .offset i v w e, n => let (e, n) := reduce e n; (.offset i v w e, n)
  | .app f vl, n => (.app f vl, n)
  | .switch v c el, n => let (el, n) := reduceCases el n; (.switch v c el, n)
  | .branch i vl c e1 e2, n =>
    let (e1, n) := reduce e1 n
    let (e2, n) := reduce e2 n
    (.branch i vl c e1 e2, n)
  | .looker i vl w t e, n => let (e, n) := reduce e n; (.looker i vl w t e, n)
  | .arith i vl w t e, n => let (e, n) := reduce e n; (.arith i vl w t e, n)
  | .pure i vl w t e, n => let (e, n) := reduce e n; (.pure i vl w t e, n)
  | .rcc k l p vl wtl e, n => let (e, n) := reduce e n; (.rcc k l p vl wtl e, n)
  | .setter i vl e, n => let (e, n) := reduce e n; (.setter i vl e, n)
  | .fix l e, n =>
    let (l, n) := reduceFns l n
    let (e, n) := reduce e n
    (.fix l e, n)
termination_by e => (sizeOf e, 0)

/-- The pass over the cases of a `SWITCH`. -/
def reduceCases : List Cexp → Lvar → List Cexp × Lvar
  | [], n => ([], n)
  | e :: es, n =>
    let (e, n) := reduce e n
    let (es, n) := reduceCases es n
    (e :: es, n)
termination_by es => (sizeOf es, 0)

/-- The pass over the functions of a `FIX`, from the last one to the first. -/
def reduceFns : List Function → Lvar → List Function × Lvar
  | [], n => ([], n)
  | .mk fk f vl cl e :: l, n =>
    let (r, n) := reduceFns l n
    let (fs, n) := uncurry fk f vl cl e n
    (fs ++ r, n)
termination_by l => (sizeOf l, 0)

/-- **The pass over a function**, which yields a wrapper and a worker if the function is curried.
The worker may be curried itself. -/
@[grind =] def uncurry (fk : FunKind) (f : Lvar) (vl : List Lvar) (cl : List Cty) (e : Cexp) (n : Lvar) :
    List Function × Lvar :=
  match fk, vl, cl, e with
  | .cont, vl, cl, e =>
    let (e', n) := reduce e n
    ([.mk .cont f vl cl e'], n)
  | fk, k :: vl, ct :: cl, .fix [.mk gk g ul cl' body2] (.app (.var c) [.var g₁]) =>
    if k = c ∧ g = g₁ ∧ freein k body2 = false ∧ freein g body2 = false ∧
        checklimit spec (cl ++ cl') = true then
      let (ul', n) := copyLvars ul n
      let (vl', n) := copyLvars vl n
      let (k', n) := (n, n + 1)
      let (g', n) := (n, n + 1)
      let (f', n) := (n, n + 1)
      let (fs, n) := uncurry fk f' (ul ++ vl) (cl' ++ cl) body2 n
      (wrapper f k' vl' (ct :: cl) gk g' ul' cl' f' :: fs, n)
    else
      let (e', n) := reduce (.fix [.mk gk g ul cl' body2] (.app (.var c) [.var g₁])) n
      ([.mk fk f (k :: vl) (ct :: cl) e'], n)
  | fk, vl, cl, e =>
    let (e', n) := reduce e n
    ([.mk fk f vl cl e'], n)
termination_by (sizeOf e, 1)

end

/-- **Uncurrying of a program.** -/
def etasplit : Function → Lvar → Function × Lvar
  | .mk fkind fvar fargs ctyl cexp, n =>
    let (e, n) := reduce spec cexp n
    (.mk fkind fvar fargs ctyl e, n)

end Reduce

/-- **A curried function that can be split**: its body returns the function `g` with parameters `ul`,
whose body does not need the continuation `k` nor `g` itself.  The primed variables are fresh. -/
structure Split (k : Lvar) (vl : List Lvar) (g : Lvar) (ul : List Lvar) (body : Cexp) (k' : Lvar)
    (vl' : List Lvar) (g' : Lvar) (ul' : List Lvar) (f' : Lvar) : Prop where
  nodup : (k :: vl ++ g :: ul).Nodup
  nodup' : (k' :: vl' ++ g' :: (ul' ++ [f'])).Nodup
  length_vl : vl'.length = vl.length
  length_ul : ul'.length = ul.length
  not_free_k : ¬FreeIn k body
  not_free_g : ¬FreeIn g body

/-- What the pass does to a function with a name, parameters and a body. -/
inductive TrFn (T : Cexp → Cexp → Prop) : Lvar → List Lvar → Cexp → List Function → Prop
  | plain {fk : FunKind} {f : Lvar} {xs : List Lvar} {tys : List Cty} {e e' : Cexp}
    (hxs : xs.Nodup) (h : T e e') : TrFn T f xs e [.mk fk f xs tys e']
  | curried {f k g k' g' f' : Lvar} {vl ul vl' ul' : List Lvar} {gk gk' : FunKind}
    {tys cl cl' : List Cty} {body : Cexp} {fs : List Function}
    (hsplit : Split k vl g ul body k' vl' g' ul' f') (h : TrFn T f' (ul ++ vl) body fs) :
    TrFn T f (k :: vl) (.fix [.mk gk g ul cl body] (.app (.var k) [.var g]))
      (wrapper f k' vl' tys gk' g' ul' cl' f' :: fs)

/-- **What the pass does to a term.** -/
inductive Tr : Cexp → Cexp → Prop
  | prim {e e' : Cexp} {op : Op} {args : List Value} {xs : List Lvar} {ks ks' : List Cexp}
    (he : e.view = .prim op args xs ks) (he' : e'.view = .prim op args xs ks')
    (hks : List.Forall₂ Tr ks ks') : Tr e e'
  | app (f : Value) (args : List Value) : Tr (.app f args) (.app f args)
  | fix {fns : List Function} {fnss : List (List Function)} {e e' : Cexp}
    (hfns : List.Forall₂ (fun fd fs => TrFn Tr fd.name fd.params fd.body fs) fns fnss)
    (hnames : (fns.map Function.name).Nodup) (hnames' : (fnss.flatten.map Function.name).Nodup)
    (hfresh : ∀ fd ∈ fnss.flatten, fd.name ∈ fns.map Function.name ∨
      ¬FreeIn fd.name (.fix fns e)) (he : Tr e e') : Tr (.fix fns e) (.fix fnss.flatten e')

theorem freeinCases_eq (v : Lvar) (es : List Cexp) : freeinCases v es = es.any (freein v) := by
  induction es with
  | nil => rfl
  | cons e es ih => rw [freeinCases, ih, List.any_cons]

theorem freeinFns_eq (v : Lvar) (fl : List Function) :
    freeinFns v fl = fl.any fun fd => freein v fd.body := by
  induction fl with
  | nil => rfl
  | cons fd fl ih =>
    cases fd
    rw [freeinFns, ih, List.any_cons, Function.body_mk]

theorem freein_view {e : Cexp} {op : Op} {args : List Value} {xs : List Lvar} {ks : List Cexp}
    (h : e.view = .prim op args xs ks) (v : Lvar) :
    freein v e = (any v args || ks.any (freein v)) := by
  cases e <;> cases h <;> simp [freein, any, freeinCases_eq, Bool.or_assoc]

theorem any_of_mem {v : Lvar} {args : List Value} (h : .var v ∈ args) : any v args = true :=
  List.any_eq_true.mpr ⟨.var v, h, by simp [isVar]⟩

theorem freein_of_freeIn {v : Lvar} {e : Cexp} (h : FreeIn v e) : freein v e = true := by
  induction h with
  | arg hv hx => rw [freein_view hv, any_of_mem hx, Bool.true_or]
  | next hv hk _ _ ih =>
    rw [freein_view hv, List.any_eq_true.mpr ⟨_, hk, ih⟩, Bool.or_true]
  | app hx =>
    have := any_of_mem hx
    rwa [any] at this
  | body hfd _ _ _ ih =>
    rw [freein, freeinFns_eq, List.any_eq_true.mpr ⟨_, hfd, ih⟩, Bool.true_or]
  | rest _ _ ih => rw [freein, ih, Bool.or_true]

/-! ### Fresh variables -/

/-- Variables `ys` that come from `xs`, with fresh ones from `n` up to `n'`. -/
structure Renewed (n n' : ℕ) (xs ys : List ℕ) : Prop where
  le : n ≤ n'
  nodup : ys.Nodup
  mem : ∀ y ∈ ys, y ∈ xs ∨ n ≤ y ∧ y < n'

namespace Renewed

variable {n m n' : ℕ} {xs xs' ys ys' : List ℕ}

theorem kept (h : xs.Nodup) : Renewed n n xs xs := ⟨le_rfl, h, fun _ hy => .inl hy⟩

theorem perm (h : Renewed n n' xs ys) (hx : xs ⊆ xs') (hy : ys.Perm ys') : Renewed n n' xs' ys' :=
  ⟨h.le, hy.nodup_iff.mp h.nodup, fun y hmem =>
    (h.mem y (hy.mem_iff.mpr hmem)).imp_left fun hmem => hx hmem⟩

theorem fresh (h : Renewed (n + 1) n' (n :: xs) ys) : Renewed n n' xs ys := by
  have hle := h.le
  refine ⟨by omega, h.nodup, fun y hy => ?_⟩
  rcases h.mem y hy with hx | hx
  · rcases List.mem_cons.mp hx with rfl | hx
    · exact .inr ⟨le_rfl, hle⟩
    · exact .inl hx
  · exact .inr (by omega)

theorem append (h : Renewed n m xs xs') (h' : Renewed m n' ys ys') (hnodup : (xs ++ ys).Nodup)
    (hlt : ∀ x ∈ xs ++ ys, x < n) : Renewed n n' (xs ++ ys) (xs' ++ ys') := by
  refine ⟨h.le.trans h'.le, List.nodup_append'.mpr ⟨h.nodup, h'.nodup, fun y hy hy' => ?_⟩,
    fun y hy => ?_⟩
  · rcases h.mem y hy with hx | hx <;> rcases h'.mem y hy' with hx' | hx'
    · exact (List.nodup_append'.mp hnodup).2.2 hx hx'
    · have := hlt y (List.mem_append_left _ hx)
      have := h.le
      omega
    · have := hlt y (List.mem_append_right _ hx')
      omega
    · omega
  · have hle := h.le
    have hle' := h'.le
    rw [List.mem_append] at hy ⊢
    rcases hy with hy | hy
    · rcases h.mem y hy with hx | hx
      · exact .inl (.inl hx)
      · exact .inr ⟨hx.1, by omega⟩
    · rcases h'.mem y hy with hx | hx
      · exact .inl (.inr hx)
      · exact .inr ⟨by omega, hx.2⟩

end Renewed

/-- A term binds every variable once, and its variables are below `n`. -/
structure Below (n : Lvar) (e : Cexp) : Prop where
  nodup : (binders e).Nodup
  bound : ∀ x ∈ binders e, x < n
  free : ∀ x, FreeIn x e → x < n

namespace Below

variable {n n' : Lvar} {e : Cexp} {op : Op} {args : List Value} {xs : List Lvar} {ks : List Cexp}

theorem of_le (h : Below n e) (hn : n ≤ n') : Below n' e :=
  ⟨h.nodup, fun x hx => (h.bound x hx).trans_le hn, fun x hx => (h.free x hx).trans_le hn⟩

theorem next (h : Below n e) (hv : e.view = .prim op args xs ks) {k : Cexp} (hk : k ∈ ks) :
    Below n k := by
  have hsub : (binders k).Sublist (binders e) := by
    rw [binders_view hv]
    exact (binders_sublist hk).trans (List.sublist_append_right _ _)
  refine ⟨hsub.nodup h.nodup, fun x hx => h.bound x (hsub.subset hx), fun x hx => ?_⟩
  by_cases hxs : x ∈ xs
  · refine h.bound x ?_
    rw [binders_view hv]
    exact List.mem_append_left _ hxs
  · exact h.free x (.next hv hk hxs hx)

variable {fns : List Function}

theorem rest (h : Below n (.fix fns e)) : Below n e := by
  have hbound : ∀ x ∈ fns.map Function.name ++ fnsBinders fns ++ binders e, x < n := h.bound
  refine ⟨(List.nodup_append'.mp h.nodup).2.1, fun x hx => hbound x (List.mem_append_right _ hx),
    fun x hx => ?_⟩
  by_cases hname : x ∈ fns.map Function.name
  · exact hbound x (List.mem_append_left _ (List.mem_append_left _ hname))
  · exact h.free x (.rest hname hx)

theorem free_body (h : Below n (.fix fns e)) {fd : Function} (hfd : fd ∈ fns) {x : Lvar}
    (hx : FreeIn x fd.body) : x < n := by
  have hbound : ∀ x ∈ fns.map Function.name ++ fnsBinders fns ++ binders e, x < n := h.bound
  by_cases hname : x ∈ fns.map Function.name
  · exact hbound x (List.mem_append_left _ (List.mem_append_left _ hname))
  by_cases hparam : x ∈ fd.params
  · exact hbound x (List.mem_append_left _ (List.mem_append_right _
      (mem_fnsBinders.mpr ⟨fd, hfd, List.mem_append_left _ hparam⟩)))
  · exact h.free x (.body hfd hname hparam hx)

end Below

/-- The same of a function with a name, parameters and a body. -/
structure BelowFn (n : Lvar) (f : Lvar) (vl : List Lvar) (e : Cexp) : Prop where
  nodup : (f :: vl ++ binders e).Nodup
  bound : ∀ x ∈ f :: vl ++ binders e, x < n
  free : ∀ x, FreeIn x e → x < n

theorem BelowFn.below {n f : Lvar} {vl : List Lvar} {e : Cexp} (h : BelowFn n f vl e) :
    Below n e :=
  ⟨(List.nodup_append'.mp h.nodup).2.1, fun x hx => h.bound x (List.mem_append_right _ hx), h.free⟩

/-! ### The pass does so -/

section Spec

variable (spec : MachSpec)

def ReduceOk (e : Cexp) : Prop :=
  ∀ n, Below n e → Tr e (reduce spec e n).1 ∧
    Renewed n (reduce spec e n).2 (binders e) (binders (reduce spec e n).1)

/-- What is to be shown of functions with a body. -/
def UncurryOk (e : Cexp) : Prop :=
  ∀ fk f vl cl n, BelowFn n f vl e →
    TrFn Tr f vl e (uncurry spec fk f vl cl e n).1 ∧
    (∀ fd ∈ (uncurry spec fk f vl cl e n).1, fd.name = f ∨ n ≤ fd.name) ∧
    Renewed n (uncurry spec fk f vl cl e n).2 (f :: vl ++ binders e)
      ((uncurry spec fk f vl cl e n).1.map Function.name ++
        fnsBinders (uncurry spec fk f vl cl e n).1)

variable {spec}

variable (spec) in
theorem reduce_view {e : Cexp} {op : Op} {args : List Value} {xs : List Lvar} {ks : List Cexp}
    (h : e.view = .prim op args xs ks) (n : Lvar) :
    (reduce spec e n).1.view = .prim op args xs (reduceCases spec ks n).1 ∧
      (reduce spec e n).2 = (reduceCases spec ks n).2 := by
  cases e <;> cases h <;> simp [reduce, reduceCases, Cexp.view]

theorem reduceCases_spec {ks : List Cexp} (h : ∀ k ∈ ks, ReduceOk spec k) {n : Lvar}
    (hnodup : (casesBinders ks).Nodup) (hks : ∀ k ∈ ks, Below n k) :
    List.Forall₂ Tr ks (reduceCases spec ks n).1 ∧
      Renewed n (reduceCases spec ks n).2 (casesBinders ks)
        (casesBinders (reduceCases spec ks n).1) := by
  induction ks generalizing n with
  | nil =>
    rw [reduceCases]
    exact ⟨.nil, .kept .nil⟩
  | cons k ks ih =>
    obtain ⟨htr, hnew⟩ := h k List.mem_cons_self n (hks k List.mem_cons_self)
    obtain ⟨htrs, hnews⟩ := ih (fun k hk => h k (List.mem_cons_of_mem _ hk))
      (List.nodup_append'.mp hnodup).2.1
      fun k hk => (hks k (List.mem_cons_of_mem _ hk)).of_le hnew.le
    rw [reduceCases]
    refine ⟨.cons htr htrs, hnew.append hnews hnodup fun x hx => ?_⟩
    rcases List.mem_append.mp hx with hx | hx
    · exact (hks k List.mem_cons_self).bound x hx
    · obtain ⟨k', hk', hx⟩ := mem_casesBinders.mp hx
      exact (hks k' (List.mem_cons_of_mem _ hk')).bound x hx

theorem groupBinders_cons (fk : FunKind) (f : Lvar) (vl : List Lvar) (cl : List Cty) (e : Cexp)
    (l : List Function) :
    ((l.map Function.name ++ fnsBinders l) ++ (f :: vl ++ binders e)).Perm
      ((Function.mk fk f vl cl e :: l).map Function.name ++
        fnsBinders (.mk fk f vl cl e :: l)) := by
  refine List.perm_iff_count.mpr fun a => ?_
  simp only [List.map_cons, Function.name_mk, fnsBinders, fnBinders, List.count_append, List.count_cons]
  omega

theorem reduceFns_cons (fk : FunKind) (f : Lvar) (vl : List Lvar) (cl : List Cty) (e : Cexp)
    (l : List Function) (n : Lvar) :
    reduceFns spec (.mk fk f vl cl e :: l) n =
      ((uncurry spec fk f vl cl e (reduceFns spec l n).2).1 ++ (reduceFns spec l n).1,
        (uncurry spec fk f vl cl e (reduceFns spec l n).2).2) := by
  rw [reduceFns]

theorem reduceFns_spec {l : List Function} (h : ∀ fd ∈ l, UncurryOk spec fd.body) {n : Lvar}
    (hnodup : (l.map Function.name ++ fnsBinders l).Nodup)
    (hbound : ∀ x ∈ l.map Function.name ++ fnsBinders l, x < n)
    (hfree : ∀ fd ∈ l, ∀ x, FreeIn x fd.body → x < n) :
    ∃ fnss, (reduceFns spec l n).1 = fnss.flatten ∧
      List.Forall₂ (fun fd fs => TrFn Tr fd.name fd.params fd.body fs) l fnss ∧
      (∀ fd ∈ fnss.flatten, fd.name ∈ l.map Function.name ∨ n ≤ fd.name) ∧
      Renewed n (reduceFns spec l n).2 (l.map Function.name ++ fnsBinders l)
        (fnss.flatten.map Function.name ++ fnsBinders fnss.flatten) := by
  induction l with
  | nil =>
    refine ⟨[], ?_, .nil, fun fd hfd => (List.not_mem_nil hfd).elim, ?_⟩
    · rw [reduceFns, List.flatten_nil]
    · rw [reduceFns]
      exact .kept .nil
  | cons fd l ih =>
    obtain ⟨fk, f, vl, cl, e⟩ := fd
    have hperm := groupBinders_cons fk f vl cl e l
    have hnodup' := hperm.nodup_iff.mpr hnodup
    have hbound' : ∀ x ∈ (l.map Function.name ++ fnsBinders l) ++ (f :: vl ++ binders e), x < n :=
      fun x hx => hbound x (hperm.mem_iff.mp hx)
    obtain ⟨hnodupl, hnodupf, -⟩ := List.nodup_append'.mp hnodup'
    obtain ⟨fnss, hres, htrs, hnames, hnews⟩ := ih (fun fd hfd => h fd (List.mem_cons_of_mem _ hfd))
      hnodupl (fun x hx => hbound' x (List.mem_append_left _ hx))
      fun fd hfd => hfree fd (List.mem_cons_of_mem _ hfd)
    have hbelow : BelowFn (reduceFns spec l n).2 f vl e :=
      ⟨hnodupf, fun x hx => (hbound' x (List.mem_append_right _ hx)).trans_le hnews.le,
        fun x hx => (hfree _ List.mem_cons_self x hx).trans_le hnews.le⟩
    have hok : UncurryOk spec e := h _ List.mem_cons_self
    obtain ⟨htr, hname, hnew⟩ := hok fk f vl cl _ hbelow
    rw [reduceFns_cons]
    refine ⟨(uncurry spec fk f vl cl e (reduceFns spec l n).2).1 :: fnss, ?_, .cons htr htrs,
      fun fd hfd => ?_, ?_⟩
    · rw [List.flatten_cons, hres]
    · rw [List.flatten_cons, List.mem_append] at hfd
      rcases hfd with hfd | hfd
      · rcases hname fd hfd with rfl | hle
        · exact .inl List.mem_cons_self
        · exact .inr (hnews.le.trans hle)
      · exact (hnames fd hfd).imp_left (List.mem_cons_of_mem _)
    · refine (hnews.append hnew hnodup' hbound').perm hperm.subset ?_
      refine List.perm_iff_count.mpr fun a => ?_
      simp only [List.flatten_cons, List.map_append, fnsBinders_append, List.count_append]
      omega

/-- A term, if its parts are as they should be. -/
theorem reduceOk_of {e : Cexp} (h : ∀ e', sizeOf e' < sizeOf e → ReduceOk spec e')
    (hfns : ∀ e', sizeOf e' < sizeOf e → UncurryOk spec e') : ReduceOk spec e := by
  intro n hn
  cases hv : e.view with
  | app f args =>
    obtain rfl := Cexp.view_app hv
    rw [reduce]
    exact ⟨.app f args, .kept hn.nodup⟩
  | prim op args xs ks =>
    obtain ⟨hview, hsupply⟩ := reduce_view spec hv n
    have hb := binders_view hv
    have hnodup := hn.nodup
    have hbound := hn.bound
    rw [hb] at hnodup hbound
    obtain ⟨htrs, hnews⟩ := reduceCases_spec
      (fun k hk => (h k (Cexp.sizeOf_view hv hk) : ReduceOk spec k)) (List.nodup_append'.mp hnodup).2.1
      fun k hk => hn.next hv hk
    refine ⟨.prim hv hview htrs, ?_⟩
    rw [hsupply, hb, binders_view hview]
    exact (Renewed.kept (List.nodup_append'.mp hnodup).1).append hnews hnodup hbound
  | fix fns e₁ =>
    obtain rfl := Cexp.view_fix hv
    have hnodup := hn.nodup
    have hbound := hn.bound
    obtain ⟨fnss, hres, htrs, hnames, hnews⟩ := reduceFns_spec
      (fun fd hfd => (hfns _ (Cexp.sizeOf_body hfd) : UncurryOk spec fd.body)) (List.nodup_append'.mp hnodup).1
      (fun x hx => hbound x (List.mem_append_left _ hx)) fun fd hfd x => hn.free_body hfd
    obtain ⟨htr, hnew⟩ := h e₁ Cexp.sizeOf_rest _ (hn.rest.of_le hnews.le)
    rw [reduce]
    simp only [hres]
    have hgroup := (List.nodup_append'.mp (List.nodup_append'.mp hnodup).1).1
    refine ⟨.fix htrs hgroup (List.nodup_append'.mp hnews.nodup).1 (fun fd hfd => ?_) htr,
      hnews.append hnew hnodup hbound⟩
    rcases hnames fd hfd with hname | hle
    · exact .inl hname
    · exact .inr fun hfree => absurd (hn.free _ hfree) (Nat.not_lt.mpr hle)

variable (spec) in
theorem uncurry_cases (fk : FunKind) (f : Lvar) (vl : List Lvar) (cl : List Cty) (e : Cexp)
    (n : Lvar) :
    uncurry spec fk f vl cl e n = ([.mk fk f vl cl (reduce spec e n).1], (reduce spec e n).2) ∨
    ∃ k vl₁ ct cl₁ gk g ul cl' body, vl = k :: vl₁ ∧ cl = ct :: cl₁ ∧
      e = .fix [.mk gk g ul cl' body] (.app (.var k) [.var g]) ∧
      freein k body = false ∧ freein g body = false ∧
      let m := n + ul.length + vl₁.length
      let r := uncurry spec fk (m + 2) (ul ++ vl₁) (cl' ++ cl₁) body (m + 3)
      uncurry spec fk f vl cl e n =
        (wrapper f m (List.range' (n + ul.length) vl₁.length) (ct :: cl₁) gk (m + 1)
          (List.range' n ul.length) cl' (m + 2) :: r.1, r.2) := by
  rw [uncurry.eq_def]
  split
  · exact .inl rfl
  · next k vl₁ ct cl₁ gk g ul cl' body c g₁ _ =>
    split
    · next hcond =>
      obtain ⟨rfl, rfl, hk, hg, -⟩ := hcond
      exact .inr ⟨k, vl₁, ct, cl₁, gk, g, ul, cl', body, rfl, rfl, rfl, hk, hg, rfl⟩
    · exact .inl rfl
  · exact .inl rfl

theorem split_of_fresh {n k g : Lvar} {vl ul : List Lvar} {body : Cexp}
    (hnodup : (k :: vl ++ g :: ul).Nodup) (hk : freein k body = false)
    (hg : freein g body = false) :
    Split k vl g ul body (n + ul.length + vl.length) (List.range' (n + ul.length) vl.length)
      (n + ul.length + vl.length + 1) (List.range' n ul.length)
      (n + ul.length + vl.length + 2) := by
  refine ⟨hnodup, ?_, List.length_range', List.length_range', fun h => ?_, fun h => ?_⟩
  · have hperm : (List.range' n (ul.length + (vl.length + 3))).Perm
        ((n + ul.length + vl.length) :: List.range' (n + ul.length) vl.length ++
          (n + ul.length + vl.length + 1) ::
            (List.range' n ul.length ++ [n + ul.length + vl.length + 2])) := by
      refine List.perm_iff_count.mpr fun a => ?_
      rw [← List.range'_append_1, ← List.range'_append_1]
      simp only [List.range'_succ, List.range'_zero, List.count_append, List.count_cons, Nat.add_assoc, Nat.reduceAdd]
      omega
    exact hperm.nodup_iff.mp List.nodup_range'
  · rw [freein_of_freeIn h] at hk
    cases hk
  · rw [freein_of_freeIn h] at hg
    cases hg

theorem uncurry_plain {e : Cexp} (h : ReduceOk spec e) {f : Lvar} {vl : List Lvar} {n : Lvar}
    (hn : BelowFn n f vl e) (fk : FunKind) (cl : List Cty) :
    TrFn Tr f vl e [.mk fk f vl cl (reduce spec e n).1] ∧
      Renewed n (reduce spec e n).2 (f :: vl ++ binders e)
        ([f] ++ fnsBinders [.mk fk f vl cl (reduce spec e n).1]) := by
  obtain ⟨htr, hnew⟩ := h n hn.below
  have hnodup := (List.nodup_append'.mp hn.nodup).1
  refine ⟨.plain (List.nodup_cons.mp hnodup).2 htr, ?_⟩
  refine ((Renewed.kept hnodup).append hnew hn.nodup hn.bound).perm (List.Subset.refl _) ?_
  simp

theorem split_perm (f k g : Lvar) (vl ul : List Lvar) (body : Cexp) (gk : FunKind)
    (cl : List Cty) :
    (f :: (k :: vl) ++ binders (.fix [.mk gk g ul cl body] (.app (.var k) [.var g]))).Perm
      ([k, g] ++ ([f] ++ [] ++ (ul ++ vl ++ binders body))) := by
  refine List.perm_iff_count.mpr fun a => ?_
  simp only [binders, fnsBinders, fnBinders, List.map_cons, List.map_nil, Function.name_mk,
    List.count_append, List.count_cons]
  omega

/-- A function that is split, if its worker is as it should be. -/
theorem renewed_split {n m n' : ℕ} {k g f : Lvar} {vl ul : List Lvar} {body : Cexp}
    {fs : List Function} {gk : FunKind} {cl : List Cty}
    (hn : BelowFn n f (k :: vl) (.fix [.mk gk g ul cl body] (.app (.var k) [.var g])))
    (hm : m = n + ul.length + vl.length)
    (h : Renewed (m + 3) n' ((m + 2) :: (ul ++ vl) ++ binders body)
      (fs.map Function.name ++ fnsBinders fs)) (tys cl' : List Cty) (gk' : FunKind) :
    Renewed n n' (f :: (k :: vl) ++ binders (.fix [.mk gk g ul cl body] (.app (.var k) [.var g])))
      ((wrapper f m (List.range' (n + ul.length) vl.length) tys gk' (m + 1) (List.range' n ul.length)
        cl' (m + 2) :: fs).map Function.name ++
        fnsBinders (wrapper f m (List.range' (n + ul.length) vl.length) tys gk' (m + 1)
          (List.range' n ul.length) cl' (m + 2) :: fs)) := by
  have hperm := split_perm f k g vl ul body gk cl
  have hnodup := (List.nodup_append'.mp (hperm.nodup_iff.mp hn.nodup)).2.1
  have hbound : ∀ x ∈ [f] ++ [] ++ (ul ++ vl ++ binders body), x < n := fun x hx =>
    hn.bound x (hperm.mem_iff.mpr (List.mem_append_right _ hx))
  -- the name of the function, the new variables of the wrapper, and those of the worker
  have hf : Renewed n n [f] [f] := .kept (List.nodup_singleton f)
  have hnew : Renewed n (m + 2) [] (List.range' n (ul.length + (vl.length + 2))) := by
    refine ⟨by omega, List.nodup_range', fun y hy => ?_⟩
    rw [List.mem_range'_1] at hy
    exact .inr (by omega)
  have hwrap := hf.append hnew (List.nodup_append'.mp hnodup).1 fun x hx =>
    hbound x (List.mem_append_left _ hx)
  refine (hwrap.append h.fresh hnodup hbound).perm (fun x hx => ?_) ?_
  · exact hperm.mem_iff.mpr (List.mem_append_right _ hx)
  · refine List.perm_iff_count.mpr fun a => ?_
    rw [← List.range'_append_1, ← List.range'_append_1, hm]
    simp only [wrapper, binders, fnsBinders, fnBinders, List.map_cons, List.map_nil,
      Function.name_mk, List.range'_succ, List.range'_zero, List.count_append, List.count_cons,
      List.count_nil]
    omega

/-- A function, if the terms in it are as they should be. -/
theorem uncurryOk_of {e : Cexp} (h : ReduceOk spec e)
    (hfns : ∀ e', sizeOf e' < sizeOf e → UncurryOk spec e') : UncurryOk spec e := by
  intro fk f vl cl n hn
  rcases uncurry_cases spec fk f vl cl e n with hres |
    ⟨k, vl, ct, cl, gk, g, ul, cl', body, rfl, rfl, rfl, hk, hg, hres⟩
  · obtain ⟨htr, hnew⟩ := uncurry_plain h hn fk cl
    rw [hres]
    exact ⟨htr, fun fd hfd => .inl (by rw [List.mem_singleton.mp hfd, Function.name_mk]), hnew⟩
  · rw [hres]
    obtain ⟨m, hm⟩ : ∃ m : ℕ, m = n + ul.length + vl.length := ⟨_, rfl⟩
    have hle : n ≤ m := hm ▸ (Nat.le_add_right _ _).trans (Nat.le_add_right _ _)
    simp only [← hm]
    have hperm := split_perm f k g vl ul body gk cl'
    have hrest := (List.nodup_append'.mp (hperm.nodup_iff.mp hn.nodup)).2.1
    have hnodup : (k :: vl ++ g :: ul).Nodup := by
      refine List.Nodup.sublist ?_ hn.nodup
      simp
    have hsplit := split_of_fresh (n := n) hnodup hk hg
    rw [← hm] at hsplit
    have hbound : ∀ x ∈ ul ++ vl ++ binders body, x < n := fun x hx => by
      exact hn.bound x (hperm.mem_iff.mpr (List.mem_append_right _ (List.mem_append_right _ hx)))
    have hbelow : BelowFn (m + 3) (m + 2) (ul ++ vl) body := by
      have hle' : n ≤ m + 2 := hle.trans (Nat.le_add_right m 2)
      refine ⟨List.nodup_cons.mpr ⟨fun hx => ?_, (List.nodup_append'.mp hrest).2.1⟩, fun x hx => ?_, fun x hx => ?_⟩
      · exact absurd (hbound _ hx) (Nat.not_lt.mpr hle')
      · rcases List.mem_cons.mp hx with rfl | hx
        · exact Nat.lt_succ_self _
        · exact (hbound x hx).trans_le (hle'.trans (Nat.le_succ _))
      · have hfree : FreeIn x (Function.mk gk g ul cl' body).body := hx
        exact (hn.below.free_body List.mem_cons_self hfree).trans_le (hle'.trans (Nat.le_succ _))
    obtain ⟨htr, hname, hnew⟩ := hfns body (Cexp.sizeOf_body
      (List.mem_cons_self : Function.mk gk g ul cl' body ∈ [Function.mk gk g ul cl' body])) fk (m + 2) (ul ++ vl) (cl' ++ cl) (m + 3) hbelow
    refine ⟨.curried hsplit htr, fun fd hfd => ?_, renewed_split hn hm hnew _ _ _⟩
    rcases List.mem_cons.mp hfd with rfl | hfd
    · exact .inl rfl
    · right
      rcases hname fd hfd with hname | hname
      · exact hname ▸ hle.trans (Nat.le_add_right m 2)
      · exact (hle.trans (Nat.le_add_right m 3)).trans hname

/-- **The pass over terms and functions**: it does what it should, and binds every variable once. -/
theorem reduce_spec (e : Cexp) : ReduceOk spec e ∧ UncurryOk spec e := by
  induction hs : sizeOf e using Nat.strong_induction_on generalizing e with
  | _ m ih =>
    subst hs
    have hreduce : ReduceOk spec e :=
      reduceOk_of (fun e' he' => (ih _ he' e' rfl).1) fun e' he' => (ih _ he' e' rfl).2
    exact ⟨hreduce, uncurryOk_of hreduce fun e' he' => (ih _ he' e' rfl).2⟩

theorem etasplit_body (f : Function) (n : Lvar) :
    (etasplit spec f n).1 =
      .mk f.kind f.name f.params f.tys (reduce spec f.body n).1 := by
  cases f
  rfl

/-- **What the pass does to a program.** -/
theorem etasplit_tr {f : Function} {n : Lvar} (h : UniqueBindings f) (hn : FreshFor n f) :
    Tr f.body (reduce spec f.body n).1 := by
  cases f
  exact ((reduce_spec _).1 n (BelowFn.below ⟨h, hn.bound, hn.free⟩)).1

/-- **The program that the pass yields binds every variable once.** -/
theorem etasplit_uniqueBindings {f : Function} {n : Lvar} (h : UniqueBindings f)
    (hn : FreshFor n f) : UniqueBindings (etasplit spec f n).1 := by
  obtain ⟨fk, f, vl, cl, e⟩ := f
  have hbelow : BelowFn n f vl e := ⟨h, hn.bound, hn.free⟩
  have hnodup := (uncurry_plain ((reduce_spec e).1 : ReduceOk spec e) hbelow fk cl).2.nodup
  rw [fnsBinders, fnsBinders, List.append_nil] at hnodup
  exact hnodup

end Spec

end SmlNj.CPS.Uncurry
