import Mathlib.Tactic

/-!
# Lists and exceptions

Sequencing in the exception monad, and what it means that a traversal of a list
raised no exception.
-/

namespace ExceptList

variable {ε α β : Type}

theorem ok_bind (a : α) (f : α → Except ε β) : (Except.ok a >>= f) = f a := rfl

theorem error_bind (e : ε) (f : α → Except ε β) : (Except.error e >>= f) = .error e := rfl

theorem bind_eq_ok {x : Except ε α} {f : α → Except ε β} {b : β} :
    (x >>= f) = .ok b ↔ ∃ a, x = .ok a ∧ f a = .ok b := by
  cases x with
  | error e => simp [error_bind]
  | ok a => simp [ok_bind]

theorem mapM_eq_ok {f : α → Except ε β} {xs : List α} {ys : List β} :
    xs.mapM f = .ok ys ↔ List.Forall₂ (fun x y => f x = .ok y) xs ys := by
  induction xs generalizing ys with
  | nil =>
    rw [List.mapM_nil, List.forall₂_nil_left_iff]
    exact ⟨fun h => by cases h; rfl, fun h => by rw [h]; rfl⟩
  | cons x xs ih =>
    rw [List.mapM_cons, bind_eq_ok]
    constructor
    · rintro ⟨y, hy, h⟩
      obtain ⟨zs, hzs, h⟩ := bind_eq_ok.mp h
      cases h
      exact .cons hy (ih.mp hzs)
    · intro h
      cases h with
      | cons hy hzs => exact ⟨_, hy, bind_eq_ok.mpr ⟨_, ih.mpr hzs, rfl⟩⟩

theorem exists_mapM_ok {f : α → Except ε β} {xs : List α} (h : ∀ x ∈ xs, ∃ y, f x = .ok y) :
    ∃ ys, xs.mapM f = .ok ys := by
  induction xs with
  | nil => exact ⟨[], rfl⟩
  | cons x xs ih =>
    obtain ⟨⟨y, hy⟩, hxs⟩ := List.forall_mem_cons.mp h
    obtain ⟨ys, hys⟩ := ih hxs
    exact ⟨y :: ys, mapM_eq_ok.mpr (.cons hy (mapM_eq_ok.mp hys))⟩

theorem mapM_option_mono {f g : α → Option β} (h : ∀ x b, f x = some b → g x = some b)
    {xs : List α} {ys : List β} (hf : xs.mapM f = some ys) : xs.mapM g = some ys := by
  induction xs generalizing ys with
  | nil => exact hf
  | cons x xs ih =>
    simp only [List.mapM_cons, Option.bind_eq_bind, Option.bind_eq_some_iff, Option.pure_def,
      Option.some.injEq] at hf ⊢
    obtain ⟨y, hy, zs, hzs, rfl⟩ := hf
    exact ⟨y, h x y hy, zs, ih hzs, rfl⟩

/-- A fold succeeds if its step does wherever an invariant holds, which may speak of the elements
that are left. -/
theorem foldlM_ok {σ : Type*} {f : σ → α → Except ε σ} (I : List α → σ → Prop)
    (step : ∀ x xs s, I (x :: xs) s → ∃ s', f s x = .ok s' ∧ I xs s') {xs : List α} {s : σ}
    (h : I xs s) : ∃ s', xs.foldlM f s = .ok s' ∧ I [] s' := by
  induction xs generalizing s with
  | nil => exact ⟨s, rfl, h⟩
  | cons x xs ih =>
    obtain ⟨s₁, hs₁, h₁⟩ := step x xs s h
    obtain ⟨s₂, hs₂, h₂⟩ := ih h₁
    refine ⟨s₂, ?_, h₂⟩
    rw [List.foldlM_cons, hs₁]
    exact hs₂

/-! ### Results with one meaning -/

section Agree

variable {μ ν : Type*} {m : α → μ} {m' : β → ν} {r r' : Except ε α}

/-- **The results have one meaning**, if there are results. -/
def Agree (m : α → μ) (r r' : Except ε α) : Prop :=
  ∀ a a', r = .ok a → r' = .ok a' → m a = m a'

theorem Agree.refl (m : α → μ) (r : Except ε α) : Agree m r r := by
  rintro a a' rfl h
  cases h
  rfl

theorem Agree.ok {a a' : α} (h : m a = m a') : Agree (ε := ε) m (.ok a) (.ok a') := by
  rintro _ _ ⟨⟩ ⟨⟩
  exact h

theorem Agree.error_left (m : α → μ) (e : ε) (r' : Except ε α) : Agree m (.error e) r' :=
  fun _ _ h => nomatch h

theorem Agree.bind {f f' : α → Except ε β} (h : Agree m r r')
    (hf : ∀ a a', m a = m a' → Agree m' (f a) (f' a')) : Agree m' (r >>= f) (r' >>= f') := by
  intro b b' hb hb'
  obtain ⟨a, ha, hfa⟩ := bind_eq_ok.mp hb
  obtain ⟨a', ha', hfa'⟩ := bind_eq_ok.mp hb'
  exact hf a a' (h a a' ha ha') b b' hfa hfa'

theorem Agree.map {f f' : α → β} (h : Agree m r r')
    (hf : ∀ a a', m a = m a' → m' (f a) = m' (f' a')) :
    Agree m' (r >>= fun a => .ok (f a)) (r' >>= fun a => .ok (f' a)) :=
  h.bind fun a a' ha => .ok (hf a a' ha)

end Agree

variable {α β : Type*} {r s : α → β → Prop} {xs : List α} {ys : List β}

theorem forall₂_mem_left (h : List.Forall₂ r xs ys) {x : α} (hx : x ∈ xs) :
    ∃ y ∈ ys, r x y := by
  induction h with
  | nil => cases hx
  | @cons x' y' xs ys hr _ ih =>
    rcases List.mem_cons.mp hx with rfl | hx'
    · exact ⟨y', List.mem_cons_self, hr⟩
    · obtain ⟨y, hy, hr'⟩ := ih hx'
      exact ⟨y, List.mem_cons_of_mem _ hy, hr'⟩

theorem forall₂_mem_right (h : List.Forall₂ r xs ys) {y : β} (hy : y ∈ ys) :
    ∃ x ∈ xs, r x y :=
  forall₂_mem_left (r := fun y x => r x y) h.flip hy

theorem forall₂_imp_mem (h : List.Forall₂ r xs ys)
    (himp : ∀ x ∈ xs, ∀ y ∈ ys, r x y → s x y) : List.Forall₂ s xs ys := by
  induction h with
  | nil => exact .nil
  | cons hr _ ih =>
    exact .cons (himp _ List.mem_cons_self _ List.mem_cons_self hr)
      (ih fun x hx y hy => himp x (List.mem_cons_of_mem _ hx) y (List.mem_cons_of_mem _ hy))

end ExceptList
