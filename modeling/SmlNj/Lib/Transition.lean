import Mathlib.Tactic

/-!
# Runs and simulations of transition systems

A system is a partial step function: from a state, a label says who moves and how, and the
step gives the next state and the observations it makes, or is not enabled.  A run collects
the observations of its steps in order.  The steps of a run may be restricted to those that
meet a condition on the state before the step and the label.

Two deterministic systems that are related in such a way that either both make steps, or one of them
makes steps and a measure decreases.  Then one of them ends exactly if the other one does, and they
end in related states.

## Main definitions

* `Run step ok s₀ s tr` — a run from `s₀` to `s` whose observations are `tr`.
* `Reaches`, `Steps` — some steps, and at least one step.
* `Ends` — the state in which a system ends.
* `Progress` — what a simulation has to show of two related states.

## Main results

* `Run.invariant` — what holds at the start and is preserved by each step holds at the end.
* `ends_iff` — the systems end together, in related states.
-/

namespace Transition

variable {σ Λ Ω : Type*}

/-- There is a run of `step` from `s₀` to `s`, each of whose steps meets `ok`, and which makes
the observations `tr`. -/
inductive Run (step : σ → Λ → Option (σ × List Ω)) (ok : σ → Λ → Prop) (s₀ : σ) :
    σ → List Ω → Prop
  | nil : Run step ok s₀ s₀ []
  | snoc {s s' : σ} {l : Λ} {tr os : List Ω} : Run step ok s₀ s tr → ok s l →
      step s l = some (s', os) → Run step ok s₀ s' (tr ++ os)

/-- The condition that every step meets: the run is not restricted. -/
def Unrestricted : σ → Λ → Prop := fun _ _ => True

variable {step : σ → Λ → Option (σ × List Ω)} {ok ok' : σ → Λ → Prop} {s₀ s : σ} {tr : List Ω}

/-- **Invariant rule**: a relation between the state and the observations so far holds at the
end of every run if it holds at the start and each step preserves it. -/
theorem Run.invariant {I : σ → List Ω → Prop} (h : Run step ok s₀ s tr) (h0 : I s₀ [])
    (hstep : ∀ s tr l s' os, I s tr → ok s l → step s l = some (s', os) → I s' (tr ++ os)) :
    I s tr := by
  induction h with
  | nil => exact h0
  | snoc _ hok hs ih => exact hstep _ _ _ _ _ ih hok hs

theorem Run.state_invariant {I : σ → Prop} (h : Run step ok s₀ s tr) (h0 : I s₀)
    (hstep : ∀ s l s' os, I s → ok s l → step s l = some (s', os) → I s') : I s :=
  h.invariant (I := fun s _ => I s) h0 (fun s _ l s' os hI hok hs => hstep s l s' os hI hok hs)

end Transition

/-! ## Simulations with stuttering -/

namespace Stuttering

variable {S T : Type*}

def Reaches (f : S → Option S) : S → S → Prop := Relation.ReflTransGen fun s s' => f s = some s'

def Steps (f : S → Option S) : S → S → Prop := Relation.TransGen fun s s' => f s = some s'

def Ends (f : S → Option S) (s e : S) : Prop := Reaches f s e ∧ f e = none

def iterate (f : S → Option S) : ℕ → S → Option S
  | 0, s => some s
  | n + 1, s => (f s).bind (iterate f n)

section Steps

variable {f : S → Option S} {s s' e : S}

theorem Steps.one (h : f s = some s') : Steps f s s' := .single h

theorem Steps.head {s'' : S} (h : f s = some s') (h' : Steps f s' s'') : Steps f s s'' :=
  Relation.TransGen.head h h'

theorem Steps.reaches (h : Steps f s s') : Reaches f s s' := h.to_reflTransGen

theorem reaches_iff_iterate : Reaches f s s' ↔ ∃ n, iterate f n s = some s' := by
  constructor
  · intro h
    induction h using Relation.ReflTransGen.head_induction_on with
    | refl => exact ⟨0, rfl⟩
    | head hstep _ ih =>
      obtain ⟨n, hn⟩ := ih
      exact ⟨n + 1, by rw [iterate, hstep]; exact hn⟩
  · rintro ⟨n, hn⟩
    induction n generalizing s with
    | zero =>
      cases hn
      exact .refl
    | succ n ih =>
      obtain ⟨t, ht, hn⟩ := Option.bind_eq_some_iff.mp hn
      exact .head ht (ih hn)

theorem iterate_of_steps {n : ℕ} (hn : iterate f n s = some e) (he : f e = none)
    (h : Steps f s s') : ∃ m < n, iterate f m s' = some e := by
  induction h using Relation.TransGen.head_induction_on generalizing n with
  | single hstep =>
    cases n with
    | zero =>
      cases hn
      rw [hstep] at he
      cases he
    | succ n =>
      rw [iterate, hstep] at hn
      exact ⟨n, n.lt_succ_self, hn⟩
  | head hstep _ ih =>
    cases n with
    | zero =>
      cases hn
      rw [hstep] at he
      cases he
    | succ n =>
      rw [iterate, hstep] at hn
      obtain ⟨m, hm, hend⟩ := ih hn
      exact ⟨m, hm.trans n.lt_succ_self, hend⟩

theorem Ends.of_reaches (h : Reaches f s s') (he : Ends f s' e) : Ends f s e :=
  ⟨h.trans he.1, he.2⟩

end Steps

section Simulation

variable {M : Type*} [LT M] (f : S → Option S) (g : T → Option T) (R : M → S → T → Prop)
  (F : S → T → Prop)

/-- **What a simulation has to show** of two related states with measure `n`: both systems end, both
make steps, or one makes steps and the measure decreases. -/
inductive Progress (n : M) (s : S) (t : T) : Prop
  | final (hs : f s = none) (ht : g t = none) (h : F s t)
  | both {m : M} {s' : S} {t' : T} (hs : Steps f s s') (ht : Steps g t t') (h : R m s' t')
  | left {m : M} {s' : S} (hm : m < n) (hs : Steps f s s') (h : R m s' t)
  | right {m : M} {t' : T} (hm : m < n) (ht : Steps g t t') (h : R m s t')

variable {f g R F}

theorem ends_of_ends [WellFoundedLT M] (hsim : ∀ n s t, R n s t → Progress f g R F n s t) {n : M} {s : S} {t : T}
    (h : R n s t) {e : S} (he : Ends f s e) : ∃ e', Ends g t e' ∧ F e e' := by
  obtain ⟨hreach, hend⟩ := he
  obtain ⟨k, hk⟩ := reaches_iff_iterate.mp hreach
  clear hreach
  -- the steps that are left decrease, or they stay and the measure decreases
  induction k using Nat.strong_induction_on generalizing n s t with
  | _ k ihk =>
    induction n using WellFoundedLT.induction generalizing s t with
    | _ n ihn =>
      cases hsim n s t h with
      | final hs ht hF =>
        cases k with
        | zero =>
          cases hk
          exact ⟨t, ⟨.refl, ht⟩, hF⟩
        | succ k =>
          rw [iterate, hs] at hk
          cases hk
      | both hs ht hR =>
        obtain ⟨m, hm, hme⟩ := iterate_of_steps hk hend hs
        obtain ⟨e', he', hF⟩ := ihk m hm hR hme
        exact ⟨e', he'.of_reaches ht.reaches, hF⟩
      | left _ hs hR =>
        obtain ⟨m, hm, hme⟩ := iterate_of_steps hk hend hs
        exact ihk m hm hR hme
      | right hm ht hR =>
        obtain ⟨e', he', hF⟩ := ihn _ hm hR hk
        exact ⟨e', he'.of_reaches ht.reaches, hF⟩

theorem Progress.imp {R' : M → S → T → Prop} {F' : S → T → Prop} {n : M} {s : S} {t : T}
    (h : Progress f g R F n s t) (hR : ∀ m s t, R m s t → R' m s t) (hF : ∀ s t, F s t → F' s t) :
    Progress f g R' F' n s t := by
  cases h with
  | final hs ht h => exact .final hs ht (hF _ _ h)
  | both hs ht h => exact .both hs ht (hR _ _ _ h)
  | left hm hs h => exact .left hm hs (hR _ _ _ h)
  | right hm ht h => exact .right hm ht (hR _ _ _ h)

theorem Progress.swap {n : M} {s : S} {t : T} (h : Progress f g R F n s t) :
    Progress g f (fun n t s => R n s t) (fun t s => F s t) n t s := by
  cases h with
  | final hs ht hF => exact .final ht hs hF
  | both hs ht hR => exact .both ht hs hR
  | left hm hs hR => exact .right hm hs hR
  | right hm ht hR => exact .left hm ht hR

/-- **The systems end together**, in related states. -/
theorem ends_iff [WellFoundedLT M] (hsim : ∀ n s t, R n s t → Progress f g R F n s t) {n : M} {s : S} {t : T}
    (h : R n s t) :
    (∀ e, Ends f s e → ∃ e', Ends g t e' ∧ F e e') ∧ ∀ e', Ends g t e' → ∃ e, Ends f s e ∧ F e e' :=
  ⟨fun _ => ends_of_ends hsim h, fun _ =>
    ends_of_ends (R := fun n t s => R n s t) (F := fun t s => F s t)
      (fun n t s hR => (hsim n s t hR).swap) h⟩

end Simulation

end Stuttering
