import Mathlib
import SmlNj.CPS.Opt.Uncurry
import SmlNj.CPS.TreeVal

/-!
# The soundness of uncurrying

The machine runs a program and what uncurrying makes of it in step.  A function is implemented by a
closure with the same parameters, or by a wrapper whose worker implements the inner function.  The
inner function of a curried one is paired with the function that the wrapper returns, which holds the
outer arguments and calls the worker.

## Main definitions

* `Implements` — a value implements a function of the program.
* `Matches` — a value is paired with a closure of the program.
* `Inv`, `Match` — the invariants of stores and of states.

## Main results

* `match_progress` — related states go on to related states.
* `etasplit_correct` — **the program keeps its behaviour and its unique bindings.**
-/

namespace SmlNj.CPS.Uncurry

open Stuttering

variable {D W : Type} {I : Interp D W}

/-- Closures are paired with closures, one to one. -/
structure OneToOne (I : Interp D W) (ρ : Pairing D) : Prop where
  closure {n : ℕ} {d : D} : ρ n d → ∃ m, d = I.fn m
  left {n n' : ℕ} {d : D} : ρ n d → ρ n' d → n = n'
  right {n : ℕ} {d d' : D} : ρ n d → ρ n d' → d = d'

/-! ### Functions and what implements them -/

section Implements

variable (I) (V : D → D → Prop) (S' : List (Closure D))

/-- **A value implements a function** with parameters and a body, whose free variables have the
values `env`. -/
inductive Implements (env : Env D) : List Lvar → Cexp → D → Prop
  | plain {n : ℕ} {d : D} {fk : FunKind} {f : Lvar} {xs : List Lvar} {tys : List Cty} {e e' : Cexp}
    {env' : Env D} (hd : I.unfn d = some n) (hclo : S'[n]? = some ⟨.mk fk f xs tys e', env'⟩)
    (hxs : xs.Nodup) (htr : Tr e e')
    (henv : EnvRel V (fun x => FreeIn x e ∧ x ∉ xs) env env') : Implements env xs e d
  | wrapper {n : ℕ} {d d₁ : D} {f k g k' g' f' : Lvar} {vl ul vl' ul' : List Lvar}
    {gk gk' : FunKind} {tys cl cl' : List Cty} {body : Cexp} {env' : Env D}
    (hd : I.unfn d = some n)
    (hclo : S'[n]? = some ⟨Uncurry.wrapper f k' vl' tys gk' g' ul' cl' f', env'⟩)
    (hsplit : Split k vl g ul body k' vl' g' ul' f') (hf' : env' f' = some d₁)
    (hworker : Implements env (ul ++ vl) body d₁) :
    Implements env (k :: vl) (.fix [.mk gk g ul cl body] (.app (.var k) [.var g])) d

/-- **A value is paired with a closure**: it implements its function, or it is what a wrapper has
returned, and holds the arguments of the wrapper. -/
inductive Matches : Closure D → D → Prop
  | direct {clo : Closure D} {d : D}
    (h : Implements I V S' clo.env clo.function.params clo.function.body d) : Matches clo d
  | inner {n : ℕ} {d d₁ : D} {k g k' g' f' : Lvar} {vl ul vl' ul' : List Lvar} {gk gk' : FunKind}
    {cl cl' : List Cty} {body : Cexp} {env env' : Env D} {ds ds' : List D} (hd : I.unfn d = some n)
    (hclo : S'[n]? =
      some ⟨.mk gk' g' ul' cl' (.app (.var f') ((ul' ++ vl').map .var)), env'⟩)
    (hsplit : Split k vl g ul body k' vl' g' ul' f')
    (hvl : List.Forall₂ (fun x d => env x = some d) vl ds)
    (hvl' : List.Forall₂ (fun x d => env' x = some d) vl' ds') (hds : List.Forall₂ V ds ds')
    (hf' : env' f' = some d₁) (hworker : Implements I V S' env (ul ++ vl) body d₁) :
    Matches ⟨.mk gk g ul cl body, env⟩ d

end Implements

section Implements

variable {V V' : D → D → Prop} {S' T' : List (Closure D)} {env env₁ : Env D} {xs : List Lvar}
  {e : Cexp} {d : D}

theorem free_of_worker {k g : Lvar} {vl ul vl' ul' : List Lvar} {k' g' f' : Lvar} {gk : FunKind}
    {cl : List Cty} {body : Cexp} (hsplit : Split k vl g ul body k' vl' g' ul' f') {x : Lvar}
    (hx : FreeIn x body) (hxs : x ∉ ul ++ vl) :
    FreeIn x (.fix [.mk gk g ul cl body] (.app (.var k) [.var g])) ∧ x ∉ k :: vl := by
  rw [List.mem_append, not_or] at hxs
  have hk : x ≠ k := fun h => hsplit.not_free_k (h ▸ hx)
  have hg : x ≠ g := fun h => hsplit.not_free_g (h ▸ hx)
  refine ⟨.body List.mem_cons_self ?_ hxs.1 hx, List.not_mem_cons_of_ne_of_not_mem hk hxs.2⟩
  rw [List.map_cons, List.map_nil, List.mem_singleton]
  exact hg

theorem Implements.nodup (h : Implements I V S' env xs e d) : xs.Nodup := by
  cases h with
  | plain _ _ hxs => exact hxs
  | wrapper _ _ hsplit => exact (List.nodup_append'.mp hsplit.nodup).1

theorem Implements.congr (h : Implements I V S' env xs e d)
    (henv : ∀ x, FreeIn x e → x ∉ xs → env₁ x = env x) : Implements I V S' env₁ xs e d := by
  induction h with
  | plain hd hclo hxs htr hrel =>
    exact .plain hd hclo hxs htr fun x hx => henv x hx.1 hx.2 ▸ hrel x hx
  | wrapper hd hclo hsplit hf' _ ih =>
    refine .wrapper hd hclo hsplit hf' (ih fun x hx hxs => ?_)
    obtain ⟨hfree, hparam⟩ := free_of_worker hsplit hx hxs
    exact henv x hfree hparam

theorem Implements.mono (h : Implements I V S' env xs e d) (hV : ∀ d d', V d d' → V' d d') :
    Implements I V' (S' ++ T') env xs e d := by
  induction h with
  | plain hd hclo hxs htr hrel =>
    exact .plain hd (getElem?_append_of_some hclo) hxs htr (hrel.mono hV)
  | wrapper hd hclo hsplit hf' _ ih =>
    exact .wrapper hd (getElem?_append_of_some hclo) hsplit hf' ih

theorem Matches.mono {clo : Closure D} (h : Matches I V S' clo d) (hV : ∀ d d', V d d' → V' d d') :
    Matches I V' (S' ++ T') clo d := by
  cases h with
  | direct h => exact .direct (h.mono hV)
  | inner hd hclo hsplit hvl hvl' hds hf' hworker =>
    exact .inner hd (getElem?_append_of_some hclo) hsplit hvl hvl' (hds.imp hV) hf'
      (hworker.mono hV)

/-- **What the pass does to a function implements it**, once the new functions are bound. -/
theorem implements_of_trFn {f : Lvar} {fs : List Function} {env' : Env D}
    (h : TrFn Tr f xs e fs)
    (hfs : ∀ fd ∈ fs, ∃ d n, env' fd.name = some d ∧ I.unfn d = some n ∧ S'[n]? = some ⟨fd, env'⟩)
    (henv : EnvRel V (fun x => FreeIn x e ∧ x ∉ xs) env env') :
    ∃ d, env' f = some d ∧ Implements I V S' env xs e d := by
  induction h with
  | plain hxs htr =>
    obtain ⟨d, n, hname, hd, hclo⟩ := hfs _ List.mem_cons_self
    exact ⟨d, hname, .plain hd hclo hxs htr henv⟩
  | curried hsplit _ ih =>
    obtain ⟨d, n, hname, hd, hclo⟩ := hfs _ List.mem_cons_self
    obtain ⟨d₁, hf', hworker⟩ := ih (fun fd hfd => hfs fd (List.mem_cons_of_mem _ hfd))
      (henv.of_imp fun x hx => free_of_worker hsplit hx.1 hx.2)
    exact ⟨d, hname, .wrapper hd hclo hsplit hf' hworker⟩

end Implements

/-! ### Related stores -/

/-- **The invariant of the stores**: the pairs are one to one, and every value is paired with the
closure. -/
structure Inv (V : D → D → Prop) (I : Interp D W) (ρ : Pairing D) (S S' : List (Closure D)) :
    Prop where
  oneToOne : OneToOne I ρ
  bound {n m : ℕ} : ρ n (I.fn m) → n < S.length ∧ m < S'.length
  clo {n : ℕ} {d : D} : ρ n d → ∃ clo, S[n]? = some clo ∧ Matches I V S' clo d

def extend (I : Interp D W) (ρ : Pairing D) (n m : ℕ) (σ : ℕ → ℕ → Prop) : Pairing D := fun i d =>
  ρ i d ∨ ∃ j j', σ j j' ∧ i = n + j ∧ d = I.fn (m + j')

section Inv

variable {Good : Pairing D → Prop} {P : Parametric I Good} {ρ : Pairing D}
  {S S' T T' : List (Closure D)} {σ : ℕ → ℕ → Prop}

theorem le_extend (n m : ℕ) : ρ ≤ extend I ρ n m σ := fun _ _ => .inl

/-- **New closures.** -/
theorem Inv.extend (h : Inv (P.val ρ) I ρ S S') (hleft : ∀ j k j', σ j j' → σ k j' → j = k)
    (hright : ∀ j j' k', σ j j' → σ j k' → j' = k')
    (hbound : ∀ j j', σ j j' → j < T.length ∧ j' < T'.length)
    (hclo : ∀ j j', σ j j' → ∃ clo, T[j]? = some clo ∧
      Matches I (P.val (extend I ρ S.length S'.length σ)) (S' ++ T') clo (I.fn (S'.length + j'))) :
    Inv (P.val (Uncurry.extend I ρ S.length S'.length σ)) I
      (Uncurry.extend I ρ S.length S'.length σ) (S ++ T) (S' ++ T') := by
  have hinj : ∀ {a b : ℕ}, I.fn a = I.fn b → a = b := fun {a b} hab => by
    have hunfn := P.unfn_fn a
    rw [hab, P.unfn_fn b] at hunfn
    exact (Option.some.inj hunfn).symm
  have hold : ∀ {n d}, ρ n d → n < S.length ∧ ∃ m, m < S'.length ∧ d = I.fn m := fun {n d} hn => by
    obtain ⟨m, rfl⟩ := h.oneToOne.closure hn
    exact ⟨(h.bound hn).1, m, (h.bound hn).2, rfl⟩
  refine ⟨⟨?_, ?_, ?_⟩, ?_, ?_⟩
  · rintro n d (hn | ⟨j, j', _, _, rfl⟩)
    · exact h.oneToOne.closure hn
    · exact ⟨_, rfl⟩
  · rintro n n' d (hn | ⟨j, j', hj, rfl, rfl⟩) (hn' | ⟨k, k', hk, rfl, hd⟩)
    · exact h.oneToOne.left hn hn'
    · obtain ⟨-, m, hm, rfl⟩ := hold hn
      have := hinj hd
      omega
    · obtain ⟨-, m, hm, hd⟩ := hold hn'
      have := hinj hd
      omega
    · obtain rfl : j' = k' := by
        have := hinj hd
        omega
      rw [hleft j k j' hj hk]
  · rintro n d d' (hn | ⟨j, j', hj, rfl, rfl⟩) (hn' | ⟨k, k', hk, hi, rfl⟩)
    · exact h.oneToOne.right hn hn'
    · have := (hold hn).1
      omega
    · have := (hold hn').1
      omega
    · obtain rfl : j = k := by omega
      rw [hright j j' k' hj hk]
  · rintro n m (hn | ⟨j, j', hj, rfl, hm⟩)
    · have := h.bound hn
      simp only [List.length_append]
      omega
    · have := hinj hm
      have := hbound j j' hj
      simp only [List.length_append]
      omega
  · rintro n d (hn | ⟨j, j', hj, rfl, rfl⟩)
    · obtain ⟨clo, hclo, hmatch⟩ := h.clo hn
      exact ⟨clo, getElem?_append_of_some hclo,
        hmatch.mono fun d d' => P.val_mono (le_extend S.length S'.length)⟩
    · obtain ⟨clo, hget, hmatch⟩ := hclo j j' hj
      refine ⟨clo, ?_, hmatch⟩
      rw [List.getElem?_append_right (Nat.le_add_right _ _), Nat.add_sub_cancel_left]
      exact hget

end Inv

/-! ### Related states -/

/-- **The invariant of states.** -/
inductive Match (P : Parametric I (OneToOne I)) (ρ : Pairing D) : State D W → State D W → Prop
  | term {S S' : List (Closure D)} {env env' : Env D} {w w' : W} {e e' : Cexp}
    (hinv : Inv (P.val ρ) I ρ S S') (hw : P.world ρ w w') (htr : Tr e e')
    (henv : EnvRel (P.val ρ) (fun x => FreeIn x e) env env') :
    Match P ρ (.term S env w e) (.term S' env' w' e')
  /-- The body of a curried function, and that of its wrapper. -/
  | curried {S S' : List (Closure D)} {env env' : Env D} {w w' : W} {k g k' g' f' : Lvar}
    {vl ul vl' ul' : List Lvar} {gk gk' : FunKind} {cl cl' : List Cty} {body : Cexp} {d d' d₁ : D}
    {ds ds' : List D} (hinv : Inv (P.val ρ) I ρ S S') (hw : P.world ρ w w')
    (hsplit : Split k vl g ul body k' vl' g' ul' f') (hk : env k = some d) (hk' : env' k' = some d')
    (hd : P.val ρ d d') (hvl : List.Forall₂ (fun x d => env x = some d) vl ds)
    (hvl' : List.Forall₂ (fun x d => env' x = some d) vl' ds')
    (hds : List.Forall₂ (P.val ρ) ds ds') (hf' : env' f' = some d₁)
    (hworker : Implements I (P.val ρ) S' env (ul ++ vl) body d₁) :
    Match P ρ (.term S env w (.fix [.mk gk g ul cl body] (.app (.var k) [.var g])))
      (.term S' env' w' (.fix [.mk gk' g' ul' cl' (.app (.var f') ((ul' ++ vl').map .var))]
        (.app (.var k') [.var g'])))
  | call {c c' : Call D W} (hinv : Inv (P.val ρ) I ρ c.store c'.store) (hc : c.Rel P ρ c') :
    Match P ρ (.call c) (.call c')

section Steps

variable {P : Parametric I (OneToOne I)} {ρ : Pairing D} {S S' : List (Closure D)}
  {env env' env₀ : Env D} {w w' : W} {xs : List Lvar} {e e' : Cexp} {d₁ : D} {ds ds' : List D}

theorem Implements.unfn (h : Implements I (P.val ρ) S' env xs e d₁) : I.unfn d₁ ≠ none := by
  cases h with
  | plain hd => exact fun h => nomatch hd.symm.trans h
  | wrapper hd => exact fun h => nomatch hd.symm.trans h

theorem Implements.stuck (h : Implements I (P.val ρ) S' env xs e d₁)
    (hlen : xs.length ≠ ds'.length) : Stuck I (.call ⟨d₁, ds', S', w'⟩) := by
  refine stuck_call ?_ h.unfn
  cases h with
  | plain hd hclo => exact step_closure_none hd hclo hlen
  | wrapper hd hclo hsplit =>
    refine step_closure_none hd hclo fun h => hlen (Eq.trans ?_ h)
    rw [List.length_cons, List.length_cons, hsplit.length_vl]

/-- **A call of what implements a function** gets to a term that is related to its body. -/
theorem Implements.enter (hinv : Inv (P.val ρ) I ρ S S') (hw : P.world ρ w w')
    (h : Implements I (P.val ρ) S' env xs e d₁)
    (hvals : List.Forall₂ (fun x d => env x = some d) xs ds)
    (hds : List.Forall₂ (P.val ρ) ds ds') :
    ∃ t, step I (.call ⟨d₁, ds', S', w'⟩) = some t ∧ Match P ρ (.term S env w e) t := by
  cases h with
  | plain hd hclo hxs htr henv =>
    obtain ⟨env₁, hb⟩ := Env.exists_bind _ (hvals.length_eq.trans hds.length_eq)
    exact ⟨_, step_closure hd hclo hb, .term hinv hw htr (EnvRel.bind_right hvals hds henv hb)⟩
  | @wrapper n _ d₁ f k g k' g' f' vl ul vl' ul' gk gk' tys cl cl' body env' hd hclo hsplit hf'
      hworker =>
    cases hvals with
    | cons hk hvl =>
      cases hds with
      | @cons d d' ds ds' hd' hds =>
        have hlen : (k' :: vl').length = (d' :: ds').length := by
          rw [List.length_cons, List.length_cons, hsplit.length_vl, hvl.length_eq, hds.length_eq]
        obtain ⟨env₁, hb⟩ := env'.exists_bind hlen
        obtain ⟨hnodup, -, hdisj⟩ := List.nodup_append'.mp hsplit.nodup'
        have hf₁ : f' ∉ k' :: vl' := fun h => hdisj h (by simp)
        cases Env.bind_forall₂ hb hnodup with
        | cons hk' hvl' =>
          exact ⟨_, step_closure hd hclo hb, .curried hinv hw hsplit hk hk' hd' hvl hvl' hds
            ((Env.bind_of_not_mem hb hf₁).trans hf') hworker⟩

def Stores (P : Parametric I (OneToOne I)) (ρ : Pairing D) (S S' : List (Closure D)) : Prop :=
  Inv (P.val ρ) I ρ S S'

abbrev Goes (P : Parametric I (OneToOne I)) (ρ : Pairing D) (s t : State D W) : Prop :=
  Progress (step I) (step I) (fun _ s t => ∃ ρ', ρ ≤ ρ' ∧ Match P ρ' s t)
    (EndRel P (Stores P) ρ) () s t

theorem Goes.both {s s' t t' : State D W} (hs : Steps (step I) s s') (ht : Steps (step I) t t')
    {ρ' : Pairing D} (hρ : ρ ≤ ρ') (h : Match P ρ' s' t') : Goes P ρ s t :=
  Progress.both (m := ()) hs ht ⟨ρ', hρ, h⟩

/-- Related calls. -/
theorem call_progress {c c' : Call D W} (hinv : Inv (P.val ρ) I ρ c.store c'.store)
    (hc : c.Rel P ρ c') : Goes P ρ (.call c) (.call c') := by
  obtain ⟨f, args, S, w⟩ := c
  obtain ⟨f₁, args', S', w'⟩ := c'
  obtain ⟨hf, hargs, hw⟩ := hc
  rcases P.unfn hinv.oneToOne hf with ⟨hn, hn'⟩ | ⟨n, hn, hpair⟩
  · exact .final (step_call_none hn) (step_call_none hn')
      (.halt le_rfl hn hn' ⟨hf, hargs, hw⟩ hinv)
  obtain ⟨⟨⟨fk, g, xs, tys, e⟩, env⟩, hclo, hmatch⟩ := hinv.clo hpair
  by_cases hlen : xs.length = args.length
  · obtain ⟨env₁, hb⟩ := env.exists_bind hlen
    have hstep := step_closure (w := w) hn hclo hb
    cases hmatch with
    | direct himp =>
      have hvals := Env.bind_forall₂ hb himp.nodup
      have himp' : Implements I (P.val ρ) S' env₁ xs e f₁ :=
        himp.congr fun x _ hx => Env.bind_of_not_mem hb hx
      obtain ⟨t, ht, hM⟩ := himp'.enter hinv hw hvals hargs
      exact .both (.one hstep) (.one ht) le_rfl hM
    | @inner n' _ d₁ k _ k' g' f' vl _ vl' ul' _ gk' _ cl' _ _ env' ds ds' hd hclo' hsplit hvl hvl'
        hds hf' hworker =>
      -- the returned function calls the worker, which implements the inner function
      obtain ⟨-, hxs, hdisj⟩ := List.nodup_append'.mp hsplit.nodup
      obtain ⟨-, hnodup', hdisj'⟩ := List.nodup_append'.mp hsplit.nodup'
      obtain ⟨hul', -, hf₁⟩ := List.nodup_append'.mp (List.nodup_cons.mp hnodup').2
      obtain ⟨env₁', hb'⟩ := env'.exists_bind
        (hsplit.length_ul.trans (hlen.trans hargs.length_eq))
      have hf₁' : env₁' f' = some d₁ :=
        (Env.bind_of_not_mem hb' fun h => hf₁ h List.mem_cons_self).trans hf'
      have hvals' : vals I env₁' ((ul' ++ vl').map .var) = some (args' ++ ds') :=
        vals_var (List.rel_append (Env.bind_forall₂ hb' hul')
          (bound_congr hvl' fun x hx => Env.bind_of_not_mem hb' fun h =>
            hdisj' (List.mem_cons_of_mem _ hx) (List.mem_cons_of_mem _ (List.mem_append_left _ h))))
      have hcall : step I (.term S' env₁' w' (.app (.var f') ((ul' ++ vl').map .var))) =
          some (.call ⟨d₁, args' ++ ds', S', w'⟩) := by
        rw [step, Cexp.view, stepTerm, hvals', val, hf₁']
        rfl
      have hvals : List.Forall₂ (fun x d => env₁ x = some d) (xs ++ vl) (args ++ ds) :=
        List.rel_append (Env.bind_forall₂ hb (List.nodup_cons.mp hxs).2)
          (bound_congr hvl fun x hx => Env.bind_of_not_mem hb fun h =>
            hdisj (List.mem_cons_of_mem _ hx) (List.mem_cons_of_mem _ h))
      have hworker' : Implements I (P.val ρ) S' env₁ (xs ++ vl) e d₁ :=
        hworker.congr fun x _ hx => Env.bind_of_not_mem hb fun h =>
          hx (List.mem_append_left _ h)
      obtain ⟨t, ht, hM⟩ := hworker'.enter hinv hw hvals (List.rel_append hargs hds)
      exact .both (.one hstep)
        (.head (step_closure hd hclo' hb') (.head hcall (.one ht))) le_rfl hM
  · have hstuck := stuck_call (step_closure_none (w := w) hn hclo hlen)
      fun h => by cases hn.symm.trans h
    have hlen' : xs.length ≠ args'.length := fun h => hlen (h.trans hargs.length_eq.symm)
    have hstuck' : Stuck I (.call ⟨f₁, args', S', w'⟩) := by
      cases hmatch with
      | direct himp => exact himp.stuck hlen'
      | inner hd hclo' hsplit =>
        exact stuck_call (step_closure_none hd hclo' (hsplit.length_ul ▸ hlen'))
          fun h => by cases hd.symm.trans h
    exact .final hstuck.1 hstuck'.1 (.stuck hstuck hstuck')

theorem steps_return {fd : Function} {k : Lvar} {d : D} (hk : env k = some d)
    (hne : k ≠ fd.name) :
    ∃ env₁, (∀ x, x ≠ fd.name → env₁ x = env x) ∧
      Steps (step I) (.term S env w (.fix [fd] (.app (.var k) [.var fd.name])))
        (.call ⟨d, [I.fn S.length], S ++ [⟨fd, env₁⟩], w⟩) := by
  obtain ⟨env₁, hb, hstep⟩ := step_fix (I := I) S env w [fd] (.app (.var k) [.var fd.name])
  have hother : ∀ x, x ≠ fd.name → env₁ x = env x := fun x hx =>
    Env.bind_of_not_mem hb (by simpa using hx)
  have hfd : env₁ fd.name = some (I.fn (S.length + 0)) :=
    group_lookup hb (List.nodup_singleton _) (i := 0) rfl
  refine ⟨env₁, hother, .head hstep (.one ?_)⟩
  have hvals : vals I env₁ [.var fd.name] = some [I.fn S.length] :=
    vals_var (.cons hfd .nil)
  rw [step, Cexp.view, stepTerm, hvals, val, (hother k hne).trans hk]
  rfl

/-- The body of a curried function, and that of its wrapper. -/
theorem curried_progress {k g k' g' f' : Lvar} {vl ul vl' ul' : List Lvar} {gk gk' : FunKind}
    {cl cl' : List Cty} {body : Cexp} {d d' : D} (hinv : Inv (P.val ρ) I ρ S S')
    (hw : P.world ρ w w') (hsplit : Split k vl g ul body k' vl' g' ul' f') (hk : env k = some d)
    (hk' : env' k' = some d') (hd : P.val ρ d d')
    (hvl : List.Forall₂ (fun x d => env x = some d) vl ds)
    (hvl' : List.Forall₂ (fun x d => env' x = some d) vl' ds')
    (hds : List.Forall₂ (P.val ρ) ds ds') (hf' : env' f' = some d₁)
    (hworker : Implements I (P.val ρ) S' env (ul ++ vl) body d₁) :
    Goes P ρ (.term S env w (.fix [.mk gk g ul cl body] (.app (.var k) [.var g])))
      (.term S' env' w' (.fix [.mk gk' g' ul' cl' (.app (.var f') ((ul' ++ vl').map .var))]
        (.app (.var k') [.var g']))) := by
  obtain ⟨hnodup, hnodupg, hdisj⟩ := List.nodup_append'.mp hsplit.nodup
  obtain ⟨hnodup', hnodupg', hdisj'⟩ := List.nodup_append'.mp hsplit.nodup'
  have hne : ∀ x ∈ k :: vl, x ≠ g := fun x hx h => hdisj hx (h ▸ List.mem_cons_self)
  have hne' : ∀ x ∈ k' :: vl', x ≠ g' := fun x hx h => hdisj' hx (h ▸ List.mem_cons_self)
  have hfg : f' ≠ g' := fun h => (List.nodup_cons.mp hnodupg').1 (h ▸ by simp)
  have hkg : k ≠ (Function.mk gk g ul cl body).name := hne k List.mem_cons_self
  have hkg' : k' ≠ (Function.mk gk' g' ul' cl' (.app (.var f') ((ul' ++ vl').map .var))).name :=
    hne' k' List.mem_cons_self
  obtain ⟨env₁, henv, hsteps⟩ := steps_return (I := I) (S := S) (w := w) hk hkg
  obtain ⟨env₁', henv', hsteps'⟩ := steps_return (I := I) (S := S') (w := w') hk' hkg'
  have hle := le_extend (I := I) (ρ := ρ) (σ := fun j j' => j = 0 ∧ j' = 0) S.length S'.length
  refine .both hsteps hsteps' hle (.call ?_ ⟨P.val_mono hle hd, .cons ?_ .nil, P.world_mono hle hw⟩)
  · refine hinv.extend (fun j k j' hj hk => hj.1.trans hk.1.symm)
      (fun j j' k' hj hk => hj.2.trans hk.2.symm) ?_ ?_
    · rintro j j' ⟨rfl, rfl⟩
      exact ⟨Nat.zero_lt_one, Nat.zero_lt_one⟩
    · rintro j j' ⟨rfl, rfl⟩
      have hinner : [Function.mk gk' g' ul' cl' (.app (.var f') ((ul' ++ vl').map .var))][0]? =
          some (.mk gk' g' ul' cl' (.app (.var f') ((ul' ++ vl').map .var))) := rfl
      have hclo : (S' ++ [⟨_, env₁'⟩])[S'.length + 0]? = some ⟨_, env₁'⟩ := group_closure hinner
      exact ⟨_, rfl, .inner (P.unfn_fn _) hclo hsplit
        (bound_congr hvl fun x hx => henv x (hne x (List.mem_cons_of_mem _ hx)))
        (bound_congr hvl' fun x hx => henv' x (hne' x (List.mem_cons_of_mem _ hx)))
        (hds.imp fun _ _ => P.val_mono hle) ((henv' f' hfg).trans hf')
        ((hworker.mono fun _ _ => P.val_mono hle).congr fun x hx _ =>
          henv x fun (h : x = g) => hsplit.not_free_g (h ▸ hx))⟩
  · exact P.val_fn (.inr ⟨0, 0, ⟨rfl, rfl⟩, rfl, rfl⟩)

theorem index_of_name {fns : List Function} (hnames : (fns.map Function.name).Nodup) {i j : ℕ}
    {fd fd' : Function} (hi : fns[i]? = some fd) (hj : fns[j]? = some fd')
    (h : fd.name = fd'.name) : i = j := by
  have hlen : i < (fns.map Function.name).length := by
    rw [List.length_map]
    exact (List.getElem?_eq_some_iff.mp hi).1
  refine (List.getElem?_inj hlen hnames).mp ?_
  rw [List.getElem?_map, List.getElem?_map, hi, hj, Option.map_some, Option.map_some, h]

theorem TrFn.exists_name {T : Cexp → Cexp → Prop} {f : Lvar} {fs : List Function}
    (h : TrFn T f xs e fs) : ∃ fd ∈ fs, fd.name = f := by
  cases h with
  | plain => exact ⟨_, List.mem_cons_self, rfl⟩
  | curried => exact ⟨_, List.mem_cons_self, rfl⟩

theorem exists_of_trFns {fns : List Function} {fnss : List (List Function)}
    (h : List.Forall₂ (fun fd fs => TrFn Tr fd.name fd.params fd.body fs) fns fnss)
    {fd : Function} (hfd : fd ∈ fns) :
    ∃ fs ∈ fnss, TrFn Tr fd.name fd.params fd.body fs := by
  induction h with
  | nil => cases hfd
  | @cons fd₁ fs fns fnss htr _ ih =>
    rcases List.mem_cons.mp hfd with rfl | hfd
    · exact ⟨fs, List.mem_cons_self, htr⟩
    · obtain ⟨fs', hfs', htr'⟩ := ih hfd
      exact ⟨fs', List.mem_cons_of_mem _ hfs', htr'⟩

/-- A `FIX`. -/
theorem fix_progress {fns : List Function} {fnss : List (List Function)}
    (hinv : Inv (P.val ρ) I ρ S S') (hw : P.world ρ w w')
    (hfns : List.Forall₂ (fun fd fs => TrFn Tr fd.name fd.params fd.body fs) fns fnss)
    (hnames : (fns.map Function.name).Nodup) (hnames' : (fnss.flatten.map Function.name).Nodup)
    (hfresh : ∀ fd ∈ fnss.flatten, fd.name ∈ fns.map Function.name ∨
      ¬FreeIn fd.name (.fix fns e)) (htr : Tr e e')
    (henv : EnvRel (P.val ρ) (fun x => FreeIn x (.fix fns e)) env env') :
    Goes P ρ (.term S env w (.fix fns e)) (.term S' env' w' (.fix fnss.flatten e')) := by
  obtain ⟨env₁, hb, hstep⟩ := step_fix (I := I) S env w fns e
  obtain ⟨env₁', hb', hstep'⟩ := step_fix (I := I) S' env' w' fnss.flatten e'
  -- a function is paired with the new function of its name
  let σ : ℕ → ℕ → Prop := fun j j' => ∃ fd fd', fns[j]? = some fd ∧
    fnss.flatten[j']? = some fd' ∧ fd'.name = fd.name
  have hle := le_extend (I := I) (ρ := ρ) (σ := σ) S.length S'.length
  have hV : ∀ d d', P.val ρ d d' → P.val (extend I ρ S.length S'.length σ) d d' :=
    fun _ _ => P.val_mono hle
  -- the environments go on relating what is free in the functions and in the rest
  have hgroup : EnvRel (P.val (extend I ρ S.length S'.length σ))
      (fun x => x ∈ fns.map Function.name ∨ FreeIn x (.fix fns e)) env₁ env₁' := by
    intro x hx
    by_cases hname : x ∈ fns.map Function.name
    · obtain ⟨fd, hfd, rfl⟩ := List.mem_map.mp hname
      obtain ⟨fs, hfs, htr⟩ := exists_of_trFns hfns hfd
      obtain ⟨fd', hfd', hname'⟩ := htr.exists_name
      obtain ⟨j, hj⟩ := List.mem_iff_getElem?.mp hfd
      obtain ⟨j', hj'⟩ := List.mem_iff_getElem?.mp (List.mem_flatten.mpr ⟨fs, hfs, hfd'⟩)
      rw [group_lookup hb hnames hj, ← hname', group_lookup hb' hnames' hj']
      exact .some (P.val_fn (.inr ⟨j, j', ⟨fd, fd', hj, hj', hname'⟩, rfl, rfl⟩))
    · have hfree := hx.resolve_left hname
      have hname' : x ∉ fnss.flatten.map Function.name := fun h => by
        obtain ⟨fd', hfd', rfl⟩ := List.mem_map.mp h
        rcases hfresh fd' hfd' with h | h
        · exact hname h
        · exact h hfree
      rw [Env.bind_of_not_mem hb hname, Env.bind_of_not_mem hb' hname']
      exact rel_mono (henv x hfree) hV
  refine .both (.one hstep) (.one hstep') hle (.term ?_ (P.world_mono hle hw) htr ?_)
  · refine hinv.extend ?_ ?_ ?_ ?_
    · rintro j k j' ⟨fd, fd', hj, hj', hname⟩ ⟨fd₂, fd₂', hk, hk', hname₂⟩
      rw [hj'] at hk'
      cases hk'
      exact index_of_name hnames hj hk (hname.symm.trans hname₂)
    · rintro j j' k' ⟨fd, fd', hj, hj', hname⟩ ⟨fd₂, fd₂', hk, hk', hname₂⟩
      rw [hj] at hk
      cases hk
      exact index_of_name hnames' hj' hk' (hname.trans hname₂.symm)
    · rintro j j' ⟨fd, fd', hj, hj', -⟩
      rw [List.length_map, List.length_map]
      exact ⟨(List.getElem?_eq_some_iff.mp hj).1, (List.getElem?_eq_some_iff.mp hj').1⟩
    · rintro j j' ⟨fd, fd', hj, hj', hname⟩
      have hfd := List.mem_of_getElem? hj
      obtain ⟨fs, hfs, htr⟩ := exists_of_trFns hfns hfd
      obtain ⟨d, hd, himp⟩ := implements_of_trFn (I := I) htr (fun fd₁ hfd₁ => by
        obtain ⟨i, hi⟩ := List.mem_iff_getElem?.mp (List.mem_flatten.mpr ⟨fs, hfs, hfd₁⟩)
        exact ⟨_, _, group_lookup hb' hnames' hi, P.unfn_fn _, group_closure (S := S') hi⟩)
        (hgroup.of_imp fun x hx => by
          by_cases hx' : x ∈ fns.map Function.name
          · exact .inl hx'
          · exact .inr (.body hfd hx' hx.2 hx.1))
      rw [← hname, group_lookup hb' hnames' hj'] at hd
      cases hd
      refine ⟨⟨fd, env₁⟩, ?_, .direct himp⟩
      rw [List.getElem?_map, hj]
      rfl
  · refine hgroup.of_imp fun x hx => ?_
    by_cases hname : x ∈ fns.map Function.name
    · exact .inl hname
    · exact .inr (.rest hname hx)

theorem term_progress (hinv : Inv (P.val ρ) I ρ S S') (hw : P.world ρ w w') (htr : Tr e e')
    (henv : EnvRel (P.val ρ) (fun x => FreeIn x e) env env') :
    Goes P ρ (.term S env w e) (.term S' env' w' e') := by
  have hresp := P.respects hinv.oneToOne
  cases htr with
  | @prim _ _ op args xs ks ks' he he' hks =>
    refine prim_progress hresp he he' hw
      (vals_rel hresp.lit (henv.of_imp fun x hx => .arg he hx)) rfl hks.length_eq
      (fun _ _ hs ht => .stuck hs ht) ?_ ?_
    · intro ds ds' w₁ w₁' k k' env₁ env₁' hds hw₁ hmem hb hb'
      have hk : k ∈ ks := (List.of_mem_zip hmem).1
      refine ⟨(), ρ, le_rfl, .term hinv hw₁ ((List.forall₂_iff_zip.mp hks).2 hmem) ?_⟩
      exact EnvRel.bind (henv.of_imp fun x hx => .next he hk hx.2 hx.1) hds hb hb'
    · intro f f' ds ds' w₁ w₁' hf hds hw₁
      exact ⟨(), ρ, le_rfl, .call hinv ⟨hf, hds, hw₁⟩⟩
  | app f args =>
    refine app_progress (val_rel hresp.lit (henv.of_imp fun x hx => .app (hx ▸ List.mem_cons_self)))
      (vals_rel hresp.lit (henv.of_imp fun x hx => .app (List.mem_cons_of_mem _ hx)))
      (fun _ _ hs ht => .stuck hs ht) fun hd hds => ⟨(), ρ, le_rfl, .call hinv ⟨hd, hds, hw⟩⟩
  | fix hfns hnames hnames' hfresh htr =>
    exact fix_progress hinv hw hfns hnames hnames' hfresh htr henv

/-- **Related states go on to related states.** -/
theorem match_progress {s t : State D W} (h : Match P ρ s t) : Goes P ρ s t := by
  cases h with
  | term hinv hw htr henv => exact term_progress hinv hw htr henv
  | curried hinv hw hsplit hk hk' hd hvl hvl' hds hf' hworker =>
    exact curried_progress hinv hw hsplit hk hk' hd hvl hvl' hds hf' hworker
  | call hinv hc => exact call_progress hinv hc

theorem bisim_stores : BisimOn P (fun _ => True) (Stores P) :=
  bisim_of_sim (M := fun ρ _ => Match P ρ) (fun _ _ _ hB hc _ => ⟨(), .call hB hc⟩)
    fun _ _ _ _ h => match_progress h

end Steps

/-! ### The pass keeps the behaviour of a program -/

section Main

variable (P : Parametric I (OneToOne I)) {spec : MachSpec}

theorem stores_load {f f' : Function} (hname : f'.name = f.name) (hparams : f'.params = f.params)
    (hnodup : f.params.Nodup) (htr : Tr f.body f'.body) :
    Stores P (start I) (load I f) (load I f') := by
  have hinj : ∀ {m : ℕ}, I.fn m = I.fn 0 → m = 0 := fun {m} h => by
    have hunfn := P.unfn_fn m
    rw [h, P.unfn_fn 0] at hunfn
    exact (Option.some.inj hunfn).symm
  refine ⟨⟨?_, ?_, ?_⟩, ?_, ?_⟩
  · rintro n d ⟨-, rfl⟩
    exact ⟨0, rfl⟩
  · rintro n n' d ⟨rfl, -⟩ ⟨rfl, -⟩
    rfl
  · rintro n d d' ⟨-, rfl⟩ ⟨-, rfl⟩
    rfl
  · rintro n m ⟨rfl, hm⟩
    rw [hinj hm]
    exact ⟨Nat.zero_lt_one, Nat.zero_lt_one⟩
  · rintro n d ⟨rfl, rfl⟩
    obtain ⟨fk, g, xs, tys, e⟩ := f
    obtain ⟨fk', g', xs', tys', e'⟩ := f'
    obtain rfl : g' = g := hname
    obtain rfl : xs' = xs := hparams
    refine ⟨_, rfl, .direct (.plain (P.unfn_fn 0) rfl hnodup htr fun x hx => ?_)⟩
    by_cases hxg : x = g'
    · subst hxg
      simp only [Function.name_mk, Env.set_self]
      exact .some (P.val_fn ⟨rfl, rfl⟩)
    · simp only [Function.name_mk, Env.set_of_ne _ _ hxg]
      exact .none

/-- **Uncurrying keeps the behaviour of a program**, and its bindings unique. -/
theorem etasplit_correct (f : Function) (n : Lvar) (huniq : UniqueBindings f)
    (hn : FreshFor n f) :
    SameBehaviour P f (etasplit spec f n).1 ∧ UniqueBindings (etasplit spec f n).1 := by
  refine ⟨⟨Stores P, bisim_stores, ?_⟩, etasplit_uniqueBindings huniq hn⟩
  rw [etasplit_body]
  refine stores_load P rfl rfl ?_ (etasplit_tr huniq hn)
  cases f
  exact (List.nodup_append'.mp (List.nodup_cons.mp huniq).2).1

end Main

/-- `fun p (k₀, a) = let fun f (k, x) = let fun g (j, y) = j (x, y) in k g end in k₀ f end`. -/
def pair : Function :=
  .mk .escape 0 [1, 2] [.cntt [], .enumt]
    (.fix [.mk .escape 3 [4, 5] [.cntt [], .enumt]
      (.fix [.mk .escape 6 [7, 8] [.cntt [], .enumt] (.app (.var 7) [.var 5, .var 8])]
        (.app (.var 4) [.var 6]))]
      (.app (.var 1) [.var 3]))

theorem pair_fresh : FreshFor 9 pair := by
  refine ⟨by decide, fun x hx => ?_⟩
  have h := freein_of_freeIn hx
  simp only [pair, Function.body_mk, freein, freeinFns, any, isVar, List.any_cons, List.any_nil,
    Bool.or_false, Bool.or_eq_true, beq_iff_eq] at h
  rcases h with ((h | h | h) | h | h) | h | h <;> subst h <;> decide

theorem isFun_of_oneToOne (ρ : Pairing TreeVal) (h : OneToOne treeInterp ρ) (n : ℕ) (t : TreeVal)
    (ht : ρ n t) : TreeVal.IsFun t := by
  obtain ⟨m, rfl⟩ := h.closure ht
  trivial

/-- A curried function of pairs, over trees and reference cells. -/
theorem etasplit_correct_pair :
    SameBehaviour (treeParametric _ isFun_of_oneToOne) pair
        (etasplit ⟨true, 5, 6⟩ pair 9).1 ∧
      UniqueBindings (etasplit ⟨true, 5, 6⟩ pair 9).1 :=
  etasplit_correct (treeParametric _ isFun_of_oneToOne) pair 9 (by decide) pair_fresh

end SmlNj.CPS.Uncurry
