import SmlNj.CPS.Scope
import SmlNj.Lib.Transition

/-!
# Programs with the same behaviour

A transformation of a program changes the closures that it makes, so that the values of the two
programs are related rather than equal.  The primitive operators do not look into closures, and so
preserve every relation between the closures of one program and values of the other.

Two programs have the same behaviour if they halt together, calling related functions of the
environment with related arguments, and if the environment cannot tell them apart when it goes on by
calling any functions that it has got.  Where a transformation relies on how the program is run, only
the calls of a class are considered.

## Main definitions

* `Respects` — the operators preserve a relation between values and one between worlds.
* `Parametric` — an interpretation whose operators do not look into closures.
* `SameBehaviourOn`, `SameBehaviour` — programs with the same behaviour.

## Main results

* `Op.exec_rel` — what an operator does with related operands.
* `prim_progress`, `app_progress` — a step of related terms.
* `bisim_of_sim` — a simulation shows that programs have the same behaviour.
-/

namespace SmlNj.CPS

open Stuttering

variable {D W : Type}

/-! ### Operators that preserve relations -/

/-- **The operators preserve a relation between values and one between worlds**, and decide
alike. -/
structure Respects (I : Interp D W) (V : D → D → Prop) (U : W → W → Prop) : Prop where
  lit (v : Value) : V (I.lit v) (I.lit v)
  path (p : AccessPath) {d d' : D} : V d d' → Option.Rel V (I.path p d) (I.path p d')
  record (rk : RecordKind) {ds ds' : List D} :
    List.Forall₂ V ds ds' → Option.Rel V (I.record rk ds) (I.record rk ds')
  select (i : ℕ) {d d' : D} : V d d' → Option.Rel V (I.select i d) (I.select i d')
  offset (i : ℕ) {d d' : D} : V d d' → Option.Rel V (I.offset i d) (I.offset i d')
  switch {d d' : D} : V d d' → I.switch d = I.switch d'
  branch (p : P.Branch) {ds ds' : List D} : List.Forall₂ V ds ds' → I.branch p ds = I.branch p ds'
  arith (p : P.Arith) {ds ds' : List D} :
    List.Forall₂ V ds ds' → Option.Rel (Option.Rel V) (I.arith p ds) (I.arith p ds')
  pure (p : P.Pure) {ds ds' : List D} :
    List.Forall₂ V ds ds' → Option.Rel V (I.pure p ds) (I.pure p ds')
  alloc (p : P.Pure) {ds ds' : List D} {w w' : W} : List.Forall₂ V ds ds' → U w w' →
    Option.Rel (fun r r' => V r.1 r'.1 ∧ U r.2 r'.2) (I.alloc p ds w) (I.alloc p ds' w')
  setter (p : P.Setter) {ds ds' : List D} {w w' : W} : List.Forall₂ V ds ds' → U w w' →
    Option.Rel U (I.setter p ds w) (I.setter p ds' w')
  looker (p : P.Looker) {ds ds' : List D} {w w' : W} : List.Forall₂ V ds ds' → U w w' →
    Option.Rel (fun r r' => V r.1 r'.1 ∧ U r.2 r'.2) (I.looker p ds w) (I.looker p ds' w')
  overflow {w w' : W} : U w w' →
    Option.Rel (fun r r' => V r.1 r'.1 ∧ List.Forall₂ V r.2 r'.2) (I.overflow w) (I.overflow w')
  rcc (reentrant : Bool) (linkage : SmlString) (proto : CTypes.CProto) {ds ds' : List D}
    {w w' : W} : List.Forall₂ V ds ds' → U w w' →
    Option.Rel (fun r r' => List.Forall₂ V r.1 r'.1 ∧ U r.2 r'.2)
      (I.rcc reentrant linkage proto ds w) (I.rcc reentrant linkage proto ds' w')

/-- Related effects. -/
inductive Effect.Rel (V : D → D → Prop) (U : W → W → Prop) : Effect D W → Effect D W → Prop
  | next (i : ℕ) {ds ds' : List D} {w w' : W} (hds : List.Forall₂ V ds ds') (hw : U w w') :
    Effect.Rel V U (.next i ds w) (.next i ds' w')
  | raise {f f' : D} {ds ds' : List D} {w w' : W} (hf : V f f') (hds : List.Forall₂ V ds ds')
    (hw : U w w') : Effect.Rel V U (.raise f ds w) (.raise f' ds' w')

section Exec

variable {I : Interp D W} {V : D → D → Prop} {U : W → W → Prop}

theorem paths_rel (h : Respects I V U) (ps : List AccessPath) {ds ds' : List D}
    (hds : List.Forall₂ V ds ds') :
    Option.Rel (List.Forall₂ V) (paths I ps ds) (paths I ps ds') := by
  have hzip : List.Forall₂ (fun dp dp' => V dp.1 dp'.1 ∧ dp.2 = dp'.2) (ds.zip ps)
      (ds'.zip ps) := by
    induction hds generalizing ps with
    | nil => exact .nil
    | cons hd _ ih =>
      cases ps with
      | nil => exact .nil
      | cons p ps => exact .cons ⟨hd, rfl⟩ (ih ps)
  refine rel_mapM hzip fun dp dp' hdp => ?_
  obtain ⟨hd, hp⟩ := hdp
  rw [hp]
  exact h.path _ hd

/-- **What an operator does with related operands.** -/
theorem Op.exec_rel (h : Respects I V U) (op : Op) {ds ds' : List D} {w w' : W}
    (hds : List.Forall₂ V ds ds') (hw : U w w') :
    Option.Rel (Effect.Rel V U) (op.exec I ds w) (op.exec I ds' w') := by
  cases op with
  | record rk ps =>
    exact rel_bind (paths_rel h ps hds) fun _ _ hfs => rel_bind (h.record rk hfs) fun _ _ hd =>
      .some (.next 0 (.cons hd .nil) hw)
  | select i ty =>
    rcases hds with _ | ⟨hd, _ | _⟩
    case cons.nil =>
      exact rel_bind (h.select i hd) fun _ _ hd => .some (.next 0 (.cons hd .nil) hw)
    all_goals exact .none
  | offset i =>
    rcases hds with _ | ⟨hd, _ | _⟩
    case cons.nil =>
      exact rel_bind (h.offset i hd) fun _ _ hd => .some (.next 0 (.cons hd .nil) hw)
    all_goals exact .none
  | switch id =>
    rcases hds with _ | ⟨hd, _ | _⟩
    case cons.nil d d' =>
      simp only [Op.exec, h.switch hd]
      cases I.switch d' with
      | none => exact .none
      | some i => exact .some (.next i .nil hw)
    all_goals exact .none
  | branch p id =>
    simp only [Op.exec, h.branch p hds]
    cases I.branch p ds' with
    | none => exact .none
    | some b => exact .some (.next _ .nil hw)
  | setter p => exact rel_bind (h.setter p hds hw) fun _ _ hw => .some (.next 0 .nil hw)
  | looker p ty =>
    exact rel_bind (h.looker p hds hw) fun _ _ hr => .some (.next 0 (.cons hr.1 .nil) hr.2)
  | arith p ty =>
    refine rel_bind (h.arith p hds) fun r r' hr => ?_
    cases hr with
    | some hd => exact .some (.next 0 (.cons hd .nil) hw)
    | none => exact rel_bind (h.overflow hw) fun _ _ hr => .some (.raise hr.1 hr.2 hw)
  | pure p ty =>
    simp only [Op.exec]
    split
    · exact rel_bind (h.alloc p hds hw) fun _ _ hr => .some (.next 0 (.cons hr.1 .nil) hr.2)
    · exact rel_bind (h.pure p hds) fun _ _ hd => .some (.next 0 (.cons hd .nil) hw)
  | rcc reentrant linkage proto tys =>
    exact rel_bind (h.rcc reentrant linkage proto hds hw) fun _ _ hr => .some (.next 0 hr.1 hr.2)

end Exec

/-! ### Interpretations that do not look into closures -/

/-- A pairing of the closures of one program with values of another one. -/
abbrev Pairing (D : Type) := ℕ → D → Prop

/-- **An interpretation whose operators do not look into closures.**  A pairing of closures extends
to a relation between values and to one between worlds, and the operators preserve these for the
pairings of some class. -/
structure Parametric (I : Interp D W) (Good : Pairing D → Prop) where
  val : Pairing D → D → D → Prop
  world : Pairing D → W → W → Prop
  unfn_fn (n : ℕ) : I.unfn (I.fn n) = some n
  val_mono {ρ ρ' : Pairing D} (h : ρ ≤ ρ') {d d' : D} : val ρ d d' → val ρ' d d'
  world_mono {ρ ρ' : Pairing D} (h : ρ ≤ ρ') {w w' : W} : world ρ w w' → world ρ' w w'
  val_fn {ρ : Pairing D} {n : ℕ} {d : D} : ρ n d → val ρ (I.fn n) d
  /-- Closures are related to what they are paired with, and other values are not closures. -/
  unfn {ρ : Pairing D} (h : Good ρ) {d d' : D} : val ρ d d' →
    (I.unfn d = none ∧ I.unfn d' = none) ∨ ∃ n, I.unfn d = some n ∧ ρ n d'
  respects {ρ : Pairing D} (h : Good ρ) : Respects I (val ρ) (world ρ)

section Behaviour

variable {I : Interp D W} {Good : Pairing D → Prop} (P : Parametric I Good)

/-- Related calls. -/
structure Call.Rel (ρ : Pairing D) (c c' : Call D W) : Prop where
  f : P.val ρ c.f c'.f
  args : List.Forall₂ (P.val ρ) c.args c'.args
  world : P.world ρ c.world c'.world

/-- The machine has stopped, but not with a call of a function of the environment. -/
def Stuck (I : Interp D W) (s : State D W) : Prop :=
  step I s = none ∧ ∀ c, s = .call c → I.unfn c.f ≠ none

/-- **How two programs end**: with related calls of functions of the environment, or both stuck. -/
inductive EndRel (B : Pairing D → List (Closure D) → List (Closure D) → Prop) (ρ₀ : Pairing D) :
    State D W → State D W → Prop
  | halt {ρ : Pairing D} {c c' : Call D W} (hρ : ρ₀ ≤ ρ) (hf : I.unfn c.f = none)
    (hf' : I.unfn c'.f = none) (hc : c.Rel P ρ c') (hB : B ρ c.store c'.store) :
    EndRel B ρ₀ (.call c) (.call c')
  | stuck {s t : State D W} (hs : Stuck I s) (ht : Stuck I t) : EndRel B ρ₀ s t

/-- **Stores that no calls of a class tell apart**: related calls end together, and then so do the
calls that the environment makes with the values that it has got. -/
def BisimOn (Q : Call D W → Prop)
    (B : Pairing D → List (Closure D) → List (Closure D) → Prop) : Prop :=
  ∀ ρ (c c' : Call D W), B ρ c.store c'.store → c.Rel P ρ c' → Q c →
    (∀ e, Ends (step I) (.call c) e → ∃ e', Ends (step I) (.call c') e' ∧ EndRel P B ρ e e') ∧
    ∀ e', Ends (step I) (.call c') e' → ∃ e, Ends (step I) (.call c) e ∧ EndRel P B ρ e e'

/-- The store of a program: its function, which may call itself, is the first closure. -/
def load (I : Interp D W) (f : Function) : List (Closure D) :=
  [⟨f, Env.set (fun _ => none) f.name (I.fn 0)⟩]

def start (I : Interp D W) : Pairing D := fun n d => n = 0 ∧ d = I.fn 0

/-- **Programs with the same behaviour** in calls of a class. -/
def SameBehaviourOn (Q : Call D W → Prop) (f f' : Function) : Prop :=
  ∃ B, BisimOn P Q B ∧ B (start I) (load I f) (load I f')

/-- **Programs with the same behaviour.** -/
def SameBehaviour (f f' : Function) : Prop := SameBehaviourOn P (fun _ => True) f f'

variable {P}

theorem EndRel.of_le {B : Pairing D → List (Closure D) → List (Closure D) → Prop}
    {ρ₀ ρ₁ : Pairing D} (hρ : ρ₀ ≤ ρ₁) {s t : State D W} (h : EndRel P B ρ₁ s t) :
    EndRel P B ρ₀ s t := by
  cases h with
  | halt hρ₁ hf hf' hc hB => exact .halt (hρ.trans hρ₁) hf hf' hc hB
  | stuck hs ht => exact .stuck hs ht

/-- **A simulation between two machines** shows that no calls tell the stores apart. -/
theorem bisim_of_sim {N : Type} [LT N] [WellFoundedLT N] {Q : Call D W → Prop}
    {B : Pairing D → List (Closure D) → List (Closure D) → Prop}
    {M : Pairing D → N → State D W → State D W → Prop}
    (hcall : ∀ ρ (c c' : Call D W), B ρ c.store c'.store → c.Rel P ρ c' → Q c →
      ∃ n, M ρ n (.call c) (.call c'))
    (hsim : ∀ ρ n s t, M ρ n s t →
      Progress (step I) (step I) (fun m s t => ∃ ρ', ρ ≤ ρ' ∧ M ρ' m s t) (EndRel P B ρ) n s t) :
    BisimOn P Q B := by
  intro ρ₀ c c' hB hc hQ
  obtain ⟨n, hM⟩ := hcall ρ₀ c c' hB hc hQ
  refine ends_iff (R := fun m s t => ∃ ρ, ρ₀ ≤ ρ ∧ M ρ m s t) ?_ (n := n) ⟨ρ₀, le_rfl, hM⟩
  rintro m s t ⟨ρ, hρ, h⟩
  exact (hsim ρ m s t h).imp (fun _ _ _ ⟨ρ', hρ', h'⟩ => ⟨ρ', hρ.trans hρ', h'⟩) fun _ _ =>
    EndRel.of_le hρ

end Behaviour

/-! ### Steps of related terms -/

section Steps

variable {I : Interp D W} {V : D → D → Prop} {U : W → W → Prop} {e e' : Cexp} {op : Op}
  {args args' : List Value} {xs xs' : List Lvar} {ks ks' : List Cexp} {S S' : List (Closure D)}
  {env env' : Env D} {w w' : W}

theorem stuck_term (h : step I (.term S env w e) = none) : Stuck I (.term S env w e) :=
  ⟨h, fun _ hc => nomatch hc⟩

theorem stuck_call {c : Call D W} (h : step I (.call c) = none) (hf : I.unfn c.f ≠ none) :
    Stuck I (.call c) :=
  ⟨h, fun _ hc => by
    cases hc
    exact hf⟩

/-- **A step of terms with the same operator** and related operands. -/
theorem prim_progress {N : Type} [LT N] {R : N → State D W → State D W → Prop}
    {F : State D W → State D W → Prop} {n : N} (h : Respects I V U) (he : e.view = .prim op args xs ks)
    (he' : e'.view = .prim op args' xs' ks') (hw : U w w')
    (hargs : Option.Rel (List.Forall₂ V) (vals I env args) (vals I env' args'))
    (hxs : xs.length = xs'.length) (hks : ks.length = ks'.length)
    (hstuck : ∀ s t, Stuck I s → Stuck I t → F s t)
    (hnext : ∀ {ds ds' w₁ w₁' k k' env₁ env₁'}, List.Forall₂ V ds ds' → U w₁ w₁' →
      (k, k') ∈ ks.zip ks' → env.bind xs ds = some env₁ → env'.bind xs' ds' = some env₁' →
      ∃ m, R m (.term S env₁ w₁ k) (.term S' env₁' w₁' k'))
    (hraise : ∀ {f f' ds ds' w₁ w₁'}, V f f' → List.Forall₂ V ds ds' → U w₁ w₁' →
      ∃ m, R m (.call ⟨f, ds, S, w₁⟩) (.call ⟨f', ds', S', w₁'⟩)) :
    Progress (step I) (step I) R F n (.term S env w e) (.term S' env' w' e') := by
  have hnone : step I (.term S env w e) = none → step I (.term S' env' w' e') = none →
      Progress (step I) (step I) R F n (.term S env w e) (.term S' env' w' e') := fun hs ht =>
    .final hs ht (hstuck _ _ (stuck_term hs) (stuck_term ht))
  have hstep : step I (.term S env w e) = stepTerm I S env w (.prim op args xs ks) := by
    rw [step, he]
  have hstep' : step I (.term S' env' w' e') = stepTerm I S' env' w' (.prim op args' xs' ks') := by
    rw [step, he']
  rw [stepTerm] at hstep hstep'
  revert hstep hstep'
  generalize vals I env args = o, vals I env' args' = o' at hargs ⊢
  cases hargs with
  | none => exact hnone
  | @some ds ds' hds =>
    simp only [Option.bind_eq_bind, Option.bind_some]
    have hop := Op.exec_rel h op hds hw
    generalize op.exec I ds w = r, op.exec I ds' w' = r' at hop ⊢
    cases hop with
    | none => exact hnone
    | some hr =>
      simp only [Option.bind_some]
      cases hr with
      | raise hf hds hw =>
        intro hstep hstep'
        obtain ⟨m, hR⟩ := hraise hf hds hw
        exact .both (.one hstep) (.one hstep') hR
      | @next i as as' w₁ w₁' has hw =>
        simp only
        cases hk : ks[i]? with
        | none =>
          have hk' : ks'[i]? = none := by
            rw [List.getElem?_eq_none_iff] at hk ⊢
            omega
          rw [hk']
          exact hnone
        | some k =>
          have hi : i < ks'.length := hks ▸ (List.getElem?_eq_some_iff.mp hk).1
          have hk' : ks'[i]? = some ks'[i] := List.getElem?_eq_getElem hi
          have hmem : (k, ks'[i]) ∈ ks.zip ks' := by
            refine List.mem_of_getElem? (i := i) ?_
            rw [List.getElem?_zip_eq_some]
            exact ⟨hk, hk'⟩
          rw [hk']
          simp only [Option.bind_some]
          by_cases hlen : xs.length = as.length
          · obtain ⟨env₁, hb⟩ := env.exists_bind hlen
            obtain ⟨env₁', hb'⟩ := env'.exists_bind (hxs.symm.trans (hlen.trans has.length_eq))
            rw [hb, hb']
            intro hstep hstep'
            obtain ⟨m, hR⟩ := hnext has hw hmem hb hb'
            exact .both (.one hstep) (.one hstep') hR
          · rw [Env.bind_eq_none_iff.mpr hlen, Env.bind_eq_none_iff.mpr fun hlen' =>
              hlen (hxs.trans (hlen'.trans has.length_eq.symm))]
            exact hnone

/-- **A step of related calls.** -/
theorem app_progress {N : Type} [LT N] {R : N → State D W → State D W → Prop}
    {F : State D W → State D W → Prop} {n : N} {f f' : Value} (hf : Option.Rel V (val I env f) (val I env' f'))
    (hargs : Option.Rel (List.Forall₂ V) (vals I env args) (vals I env' args'))
    (hstuck : ∀ s t, Stuck I s → Stuck I t → F s t)
    (hcall : ∀ {d d' ds ds'}, V d d' → List.Forall₂ V ds ds' →
      ∃ m, R m (.call ⟨d, ds, S, w⟩) (.call ⟨d', ds', S', w'⟩)) :
    Progress (step I) (step I) R F n (.term S env w (.app f args))
      (.term S' env' w' (.app f' args')) := by
  have hnone : step I (.term S env w (.app f args)) = none →
      step I (.term S' env' w' (.app f' args')) = none → Progress (step I) (step I) R F n
        (.term S env w (.app f args)) (.term S' env' w' (.app f' args')) := fun hs ht =>
    .final hs ht (hstuck _ _ (stuck_term hs) (stuck_term ht))
  have hstep : step I (.term S env w (.app f args)) =
      stepTerm I S env w (.app f args) := rfl
  have hstep' : step I (.term S' env' w' (.app f' args')) =
      stepTerm I S' env' w' (.app f' args') := rfl
  rw [stepTerm] at hstep hstep'
  revert hstep hstep'
  generalize val I env f = o, val I env' f' = o' at hf ⊢
  cases hf with
  | none => exact hnone
  | some hd =>
    generalize vals I env args = o, vals I env' args' = o' at hargs ⊢
    cases hargs with
    | none => exact hnone
    | some hds =>
      intro hstep hstep'
      obtain ⟨m, hR⟩ := hcall hd hds
      exact .both (.one hstep) (.one hstep') hR

end Steps

end SmlNj.CPS
