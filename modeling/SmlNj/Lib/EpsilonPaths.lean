import Mathlib.Computability.EpsilonNFA

/-!
# Automata that are put together of parts

The words that are read on the paths between two states of an automaton.  An automaton that is a part
of another one is known by its states there, and by the states that it is left through; the rules of
this file tell the words of an automaton from those of its parts.

## Main definitions

* `pathLang` — the words that are read between two states.
* `Part` — an automaton is a part of another.

## Main results

* `pathLang_mul`, `pathLang_add`, `pathLang_repeat` — parts one after the other, alternatives and
  repetition.
* `Part.pathLang_eq` — a part that is never left.
-/

namespace EpsilonPaths

variable {α σ τ : Type*} {M : εNFA α σ} {N : εNFA α τ}

def pathLang (M : εNFA α σ) (s t : σ) : Language α :=
  {w | ∃ x : List (Option α), x.reduceOption = w ∧ M.IsPath s t x}

theorem mem_pathLang_append {s t u : σ} {v w : List α} (h : v ∈ pathLang M s t)
    (h' : w ∈ pathLang M t u) : v ++ w ∈ pathLang M s u := by
  obtain ⟨x, rfl, hx⟩ := h
  obtain ⟨y, rfl, hy⟩ := h'
  exact ⟨x ++ y, List.reduceOption_append x y, M.isPath_append.2 ⟨t, hx, hy⟩⟩

theorem mem_pathLang_cons {s t u : σ} {w : List α} (h : t ∈ M.step s none)
    (h' : w ∈ pathLang M t u) : w ∈ pathLang M s u := by
  obtain ⟨x, rfl, hx⟩ := h'
  exact ⟨none :: x, rfl, .cons t s u none x h hx⟩

theorem nil_mem_pathLang (s : σ) : [] ∈ pathLang M s s := ⟨[], rfl, .nil s⟩

/-- **An automaton is a part of another**: its steps are steps there, and the only steps there from
its states are its own, but for the states that it is left through. -/
structure Part (M : εNFA α σ) (N : εNFA α τ) (f : σ → τ) (Z E : Set σ) : Prop where
  step : ∀ s a t, t ∈ M.step s a → f t ∈ N.step (f s) a
  back : ∀ s ∈ Z, s ∉ E → ∀ a u, u ∈ N.step (f s) a → ∃ t ∈ Z, u = f t ∧ t ∈ M.step s a

variable {f : σ → τ} {Z E : Set σ} {s t e : σ} {u : τ} {x : List (Option α)}

theorem Part.isPath (h : Part M N f Z E) (hpath : M.IsPath s t x) : N.IsPath (f s) (f t) x := by
  induction hpath with
  | nil s => exact .nil (f s)
  | cons t s u a x hstep _ ih => exact .cons (f t) (f s) (f u) a x (h.step s a t hstep) ih

theorem Part.mem_pathLang (h : Part M N f Z E) {w : List α} (hw : w ∈ pathLang M s t) :
    w ∈ pathLang N (f s) (f t) := by
  obtain ⟨x, hx, hpath⟩ := hw
  exact ⟨x, hx, h.isPath hpath⟩

theorem Part.exists_exit (h : Part M N f Z {e}) (hs : s ∈ Z) (hu : ∀ t ∈ Z, u ≠ f t)
    (hpath : N.IsPath (f s) u x) :
    ∃ y z, x = y ++ z ∧ M.IsPath s e y ∧ N.IsPath (f e) u z := by
  generalize hv : f s = v at hpath
  induction hpath generalizing s with
  | nil v => exact absurd hv.symm (hu s hs)
  | cons v' v u a x hstep hpath ih =>
    subst hv
    by_cases he : s = e
    · subst he
      exact ⟨[], a :: x, rfl, .nil s, .cons v' (f s) u a x hstep hpath⟩
    · obtain ⟨t, ht, rfl, hst⟩ := h.back s hs he a v' hstep
      obtain ⟨y, z, rfl, hy, hz⟩ := ih ht hu rfl
      exact ⟨a :: y, z, rfl, .cons t s e a y hst hy, hz⟩

theorem Part.isPath_of_closed (h : Part M N f Z ∅) (hs : s ∈ Z) (hpath : N.IsPath (f s) u x) :
    ∃ t ∈ Z, u = f t ∧ M.IsPath s t x := by
  generalize hv : f s = v at hpath
  induction hpath generalizing s with
  | nil v => exact ⟨s, hs, hv.symm, .nil s⟩
  | cons v' v u a x hstep _ ih =>
    subst hv
    obtain ⟨t, ht, rfl, hst⟩ := h.back s hs (Set.notMem_empty s) a v' hstep
    obtain ⟨r, hr, rfl, hpath⟩ := ih ht rfl
    exact ⟨r, hr, rfl, .cons t s r a x hst hpath⟩

/-- **The words of a part that is never left.** -/
theorem Part.pathLang_eq (h : Part M N f Z ∅) (hf : Function.Injective f) (hs : s ∈ Z) :
    pathLang N (f s) (f t) = pathLang M s t := by
  ext w
  constructor
  · rintro ⟨x, hx, hpath⟩
    obtain ⟨t', -, ht', hpath⟩ := h.isPath_of_closed hs hpath
    exact ⟨x, hx, hf ht' ▸ hpath⟩
  · exact h.mem_pathLang

theorem Part.mem_pathLang_exit (h : Part M N f Z {e}) (hs : s ∈ Z) (hu : ∀ t ∈ Z, u ≠ f t)
    {w : List α} :
    w ∈ pathLang N (f s) u ↔ ∃ v v', w = v ++ v' ∧ v ∈ pathLang M s e ∧ v' ∈ pathLang N (f e) u := by
  constructor
  · rintro ⟨x, rfl, hpath⟩
    obtain ⟨y, z, rfl, hy, hz⟩ := h.exists_exit hs hu hpath
    exact ⟨_, _, List.reduceOption_append y z, ⟨y, rfl, hy⟩, z, rfl, hz⟩
  · rintro ⟨v, v', rfl, hv, hv'⟩
    exact mem_pathLang_append (h.mem_pathLang hv) hv'

/-- **Parts one after the other**: the exit of the first is the start of the second. -/
theorem pathLang_mul {σ' : Type*} {M' : εNFA α σ'} {f' : σ' → τ} {Z' : Set σ'} {s' t' : σ'}
    (h : Part M N f Z {e}) (h' : Part M' N f' Z' ∅) (hglue : f e = f' s')
    (hf' : Function.Injective f') (hs : s ∈ Z) (hs' : s' ∈ Z') (ht' : ∀ t ∈ Z, f' t' ≠ f t) :
    pathLang N (f s) (f' t') = pathLang M s e * pathLang M' s' t' := by
  ext w
  rw [h.mem_pathLang_exit hs ht', hglue, h'.pathLang_eq hf' hs', Language.mem_mul]
  constructor
  · rintro ⟨v, v', rfl, hv, hv'⟩
    exact ⟨v, hv, v', hv', rfl⟩
  · rintro ⟨v, hv, v', hv', rfl⟩
    exact ⟨v, v', rfl, hv, hv'⟩

theorem mem_pathLang_of_final {t : τ} (ht : ∀ a, N.step t a = ∅) {w : List α} :
    w ∈ pathLang N t t ↔ w = [] := by
  constructor
  · rintro ⟨x, rfl, hpath⟩
    cases hpath with
    | nil => rfl
    | cons t' s u a x hstep =>
      rw [ht] at hstep
      exact hstep.elim
  · rintro rfl
    exact nil_mem_pathLang t

theorem mem_pathLang_of_step {s t : τ} {P : τ → Prop} (hne : s ≠ t)
    (hstep : ∀ a u, u ∈ N.step s a ↔ a = none ∧ P u) {w : List α} :
    w ∈ pathLang N s t ↔ ∃ u, P u ∧ w ∈ pathLang N u t := by
  constructor
  · rintro ⟨x, rfl, hpath⟩
    cases hpath with
    | nil => exact absurd rfl hne
    | cons t' s u a x hst hpath =>
      obtain ⟨rfl, hP⟩ := (hstep a t').1 hst
      exact ⟨t', hP, x, rfl, hpath⟩
  · rintro ⟨u, hP, hw⟩
    exact mem_pathLang_cons ((hstep none u).2 ⟨rfl, hP⟩) hw

theorem Part.mem_pathLang_final (h : Part M N f Z {e}) (hs : s ∈ Z) (he : e ∈ Z)
    (hu : ∀ t ∈ Z, u ≠ f t) (hexit : ∀ a v, v ∈ N.step (f e) a ↔ a = none ∧ v = u)
    (hfinal : ∀ a, N.step u a = ∅) {w : List α} :
    w ∈ pathLang N (f s) u ↔ w ∈ pathLang M s e := by
  rw [h.mem_pathLang_exit hs hu]
  have hlast : ∀ v', v' ∈ pathLang N (f e) u ↔ v' = [] := by
    intro v'
    rw [mem_pathLang_of_step (hu e he).symm hexit]
    constructor
    · rintro ⟨_, rfl, hv'⟩
      exact (mem_pathLang_of_final hfinal).1 hv'
    · intro hv'
      exact ⟨u, rfl, (mem_pathLang_of_final hfinal).2 hv'⟩
  constructor
  · rintro ⟨v, v', rfl, hv, hv'⟩
    rw [(hlast v').1 hv', List.append_nil]
    exact hv
  · intro hw
    exact ⟨w, [], (List.append_nil w).symm, hw, (hlast []).2 rfl⟩

/-- **A choice between two parts**, from a new start and to a new end. -/
theorem pathLang_add {σ' : Type*} {M' : εNFA α σ'} {f' : σ' → τ} {Z' : Set σ'} {s' e' : σ'}
    {start : τ} (h : Part M N f Z {e}) (h' : Part M' N f' Z' {e'}) (hs : s ∈ Z) (he : e ∈ Z)
    (hs' : s' ∈ Z') (he' : e' ∈ Z') (hu : ∀ t ∈ Z, u ≠ f t) (hu' : ∀ t ∈ Z', u ≠ f' t)
    (hne : start ≠ u)
    (hstart : ∀ a v, v ∈ N.step start a ↔ a = none ∧ (v = f s ∨ v = f' s'))
    (hexit : ∀ a v, v ∈ N.step (f e) a ↔ a = none ∧ v = u)
    (hexit' : ∀ a v, v ∈ N.step (f' e') a ↔ a = none ∧ v = u)
    (hfinal : ∀ a, N.step u a = ∅) :
    pathLang N start u = pathLang M s e + pathLang M' s' e' := by
  ext w
  rw [mem_pathLang_of_step hne hstart, Language.add_def]
  constructor
  · rintro ⟨v, rfl | rfl, hw⟩
    · exact .inl ((h.mem_pathLang_final hs he hu hexit hfinal).1 hw)
    · exact .inr ((h'.mem_pathLang_final hs' he' hu' hexit' hfinal).1 hw)
  · rintro (hw | hw)
    · exact ⟨f s, .inl rfl, (h.mem_pathLang_final hs he hu hexit hfinal).2 hw⟩
    · exact ⟨f' s', .inr rfl, (h'.mem_pathLang_final hs' he' hu' hexit' hfinal).2 hw⟩

/-- **Repetition of a part**, which is left to a new end or back to its start. -/
theorem pathLang_repeat (h : Part M N f Z {e}) (hs : s ∈ Z) (he : e ∈ Z) (hu : ∀ t ∈ Z, u ≠ f t)
    (hexit : ∀ a v, v ∈ N.step (f e) a ↔ a = none ∧ (v = u ∨ v = f s))
    (hfinal : ∀ a, N.step u a = ∅) :
    pathLang N (f s) u = pathLang M s e * KStar.kstar (pathLang M s e) := by
  ext w
  rw [Language.mem_mul]
  constructor
  · rintro ⟨x, rfl, hpath⟩
    -- by induction on the length of the path: what is left of it after the exit is shorter
    induction hn : x.length using Nat.strong_induction_on generalizing x with
    | _ n ih =>
      obtain ⟨y, z, rfl, hy, hz⟩ := h.exists_exit hs hu hpath
      have hv : y.reduceOption ∈ pathLang M s e := ⟨y, rfl, hy⟩
      rw [List.reduceOption_append]
      cases hz with
      | nil => exact absurd rfl (hu e he)
      | cons t' s' u' a z hst hz =>
        obtain ⟨rfl, rfl | rfl⟩ := (hexit a t').1 hst
        · have hnil : z.reduceOption = [] := (mem_pathLang_of_final hfinal).1 ⟨z, rfl, hz⟩
          rw [List.reduceOption_cons_of_none, hnil]
          exact ⟨_, hv, [], Language.nil_mem_kstar _, rfl⟩
        · have hlt : z.length < n := by
            rw [← hn, List.length_append, List.length_cons]
            omega
          obtain ⟨v, hv', v', hv'', heq⟩ := ih z.length hlt z hz rfl
          rw [List.reduceOption_cons_of_none, ← heq]
          refine ⟨_, hv, v ++ v', ?_, rfl⟩
          have hle : pathLang M s e * KStar.kstar (pathLang M s e) ≤
            KStar.kstar (pathLang M s e) := mul_kstar_le_kstar
          exact hle (Language.append_mem_mul hv' hv'')
  · rintro ⟨v, hv, v', hv', rfl⟩
    obtain ⟨l, rfl, hl⟩ := Language.mem_kstar.1 hv'
    clear hv'
    induction l generalizing v with
    | nil =>
      have hend : [] ∈ pathLang N (f e) u :=
        mem_pathLang_cons ((hexit none u).2 ⟨rfl, .inl rfl⟩) (nil_mem_pathLang u)
      exact mem_pathLang_append (h.mem_pathLang hv) hend
    | cons y l ih =>
      obtain ⟨hy, hl⟩ := List.forall_mem_cons.1 hl
      have hrest : y ++ l.flatten ∈ pathLang N (f e) u :=
        mem_pathLang_cons ((hexit none (f s)).2 ⟨rfl, .inr rfl⟩) (ih y hy hl)
      exact mem_pathLang_append (h.mem_pathLang hv) hrest

end EpsilonPaths
