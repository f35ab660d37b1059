import Mathlib.Tactic.Common

/-!
# Programs with a state, exceptions and loops that may not end

A program changes a state and returns a result or raises an exception, and what it has done to the
state by then stays done.  A program that runs on without end has no outcome, so a recursive
program without an obvious measure is the least solution of its equation, and the statement that a
program has an outcome says that it ends.

## Main definitions

* `Run ε σ β` — the programs.
* `Outcome m s Q` — the program `m` ends, from the state `s`, in an outcome with the property `Q`.
* `Returns m s Q` — it ends without an exception.
* `Raises m s Q` — it ends with one.

## Main results

* `returns_bind`, `returns_pure`, `Returns.mono` — the rules for programs that return.
* `raises_bind`, `raises_bind_of`, `returns_handle`, `Outcome.handle` — exceptions, and what
  handles them.
* `returns_upto`, `raises_at` — loops that count up to a bound, or until they fail.
-/

namespace TotalRun

/-- The programs with a state `σ` and exceptions `ε`. -/
abbrev Run (ε σ : Type) := ExceptT ε (StateT σ Option)

variable {ε σ β γ : Type}

def Outcome (m : Run ε σ β) (s : σ) (Q : Except ε β → σ → Prop) : Prop :=
  ∃ r s', m.run.run s = some (r, s') ∧ Q r s'

/-- A program ends without an exception in a result and a state with a property. -/
def Returns (m : Run ε σ β) (s : σ) (Q : β → σ → Prop) : Prop :=
  ∃ b s', m.run.run s = some (.ok b, s') ∧ Q b s'

variable {m : Run ε σ β} {Q P : β → σ → Prop} {b : β} {f : β → Run ε σ γ} {h : ε → Run ε σ β}

theorem Returns.mono {s : σ} {Q' : β → σ → Prop} (h : Returns m s Q)
    (hQ : ∀ b s', Q b s' → Q' b s') : Returns m s Q' := by
  obtain ⟨b, s', hrun, hb⟩ := h
  exact ⟨b, s', hrun, hQ b s' hb⟩

theorem returns_pure {s : σ} (h : Q b s) :
    Returns (pure b : Run ε σ β) s Q := ⟨b, s, rfl, h⟩

theorem Returns.and {s : σ} (h : Returns m s P) (h' : Returns m s Q) : ∃ b s', P b s' ∧ Q b s' := by
  obtain ⟨b, s', hrun, hP⟩ := h
  obtain ⟨b', s'', hrun', hQ⟩ := h'
  rw [hrun] at hrun'
  cases hrun'
  exact ⟨b, s', hP, hQ⟩

theorem run_bind_of_ok {s s' : σ} (h : m.run.run s = some (.ok b, s')) :
    (m >>= f).run.run s = (f b).run.run s' := by
  change (Option.bind (m.run.run s) _) = _
  rw [h]
  rfl

theorem returns_bind {s : σ} {Q : γ → σ → Prop} (h : Returns m s fun b s' => Returns (f b) s' Q) :
    Returns (m >>= f) s Q := by
  obtain ⟨b, s', hrun, c, s'', hrun', hQ⟩ := h
  exact ⟨c, s'', (run_bind_of_ok hrun).trans hrun', hQ⟩

theorem returns_bind_of {s : σ} {Q : γ → σ → Prop} (h : Returns m s P)
    (hf : ∀ b s', P b s' → Returns (f b) s' Q) :
    Returns (m >>= f) s Q := returns_bind (h.mono hf)

theorem returns_bind_iff {s : σ} {Q : γ → σ → Prop} :
    Returns (m >>= f) s Q ↔ Returns m s fun b s' => Returns (f b) s' Q := by
  refine ⟨?_, returns_bind⟩
  rintro ⟨c, s'', hrun, hQ⟩
  cases hm : m.run.run s with
  | none =>
    change Option.bind (m.run.run s) _ = _ at hrun
    rw [hm] at hrun
    cases hrun
  | some o =>
    obtain ⟨r, s'⟩ := o
    cases r with
    | error e =>
      change Option.bind (m.run.run s) _ = _ at hrun
      rw [hm] at hrun
      cases hrun
    | ok b =>
      rw [run_bind_of_ok hm] at hrun
      exact ⟨b, s', hm, c, s'', hrun, hQ⟩

/-! ### Exceptions -/

/-- A program ends with an exception, in a state with a property. -/
def Raises (m : Run ε σ β) (s : σ) (Q : ε → σ → Prop) : Prop :=
  ∃ e s', m.run.run s = some (.error e, s') ∧ Q e s'

theorem raises_throw {e : ε} {s : σ} {Q : ε → σ → Prop} (h : Q e s) :
    Raises (throw e : Run ε σ β) s Q := ⟨e, s, rfl, h⟩

theorem Raises.mono {s : σ} {Q Q' : ε → σ → Prop} (h : Raises m s Q)
    (hQ : ∀ e s', Q e s' → Q' e s') : Raises m s Q' := by
  obtain ⟨e, s', hrun, he⟩ := h
  exact ⟨e, s', hrun, hQ e s' he⟩

theorem raises_bind {s : σ} {Q : ε → σ → Prop} (h : Raises m s Q) : Raises (m >>= f) s Q := by
  obtain ⟨e, s', hrun, hQ⟩ := h
  refine ⟨e, s', ?_, hQ⟩
  change (Option.bind (m.run.run s) _) = _
  rw [hrun]
  rfl

theorem raises_bind_of {s : σ} {Q : ε → σ → Prop} (h : Returns m s P)
    (hf : ∀ b s', P b s' → Raises (f b) s' Q) : Raises (m >>= f) s Q := by
  obtain ⟨b, s', hrun, hP⟩ := h
  obtain ⟨e, s'', hrun', hQ⟩ := hf b s' hP
  exact ⟨e, s'', (run_bind_of_ok hrun).trans hrun', hQ⟩

theorem Raises.not_returns {s : σ} {Q : ε → σ → Prop} (h : Raises m s Q) : ¬ Returns m s P := by
  rintro ⟨b, s', hrun, -⟩
  obtain ⟨e, s'', hrun', -⟩ := h
  rw [hrun] at hrun'
  cases hrun'

theorem returns_handle {s : σ} {P : ε → σ → Prop} (hm : Raises m s P)
    (hh : ∀ e s', P e s' → Returns (h e) s' Q) : Returns (tryCatch m h) s Q := by
  obtain ⟨e, s', hrun, hP⟩ := hm
  obtain ⟨b, s'', hrun', hQ⟩ := hh e s' hP
  refine ⟨b, s'', ?_, hQ⟩
  change (Option.bind (m.run.run s) _) = _
  rw [hrun]
  exact hrun'

theorem returns_tryCatch {s : σ} (hm : Returns m s Q) : Returns (tryCatch m h) s Q := by
  obtain ⟨b, s', hrun, hQ⟩ := hm
  refine ⟨b, s', ?_, hQ⟩
  change (Option.bind (m.run.run s) _) = _
  rw [hrun]
  rfl

theorem Raises.outcome {s : σ} {Q : Except ε β → σ → Prop}
    (h : Raises m s fun e s' => Q (.error e) s') : Outcome m s Q := by
  obtain ⟨e, s', hrun, hQ⟩ := h
  exact ⟨.error e, s', hrun, hQ⟩

theorem outcome_pure {s : σ} {Q : Except ε β → σ → Prop} (h : Q (.ok b) s) :
    Outcome (pure b : Run ε σ β) s Q := ⟨.ok b, s, rfl, h⟩

theorem outcome_bind_of {s : σ} {Q : Except ε γ → σ → Prop} (h : Returns m s P)
    (hf : ∀ b s', P b s' → Outcome (f b) s' Q) : Outcome (m >>= f) s Q := by
  obtain ⟨b, s', hrun, hP⟩ := h
  obtain ⟨r, s'', hrun', hQ⟩ := hf b s' hP
  exact ⟨r, s'', (run_bind_of_ok hrun).trans hrun', hQ⟩

theorem Outcome.handle {s : σ} {P : Except ε β → σ → Prop} (hm : Outcome m s P)
    (hok : ∀ b s', P (.ok b) s' → Q b s') (herror : ∀ e s', P (.error e) s' → Returns (h e) s' Q) :
    Returns (tryCatch m h) s Q := by
  obtain ⟨r, s', hrun, hP⟩ := hm
  cases r with
  | ok b => exact returns_tryCatch ⟨b, s', hrun, hok b s' hP⟩
  | error e =>
    refine returns_handle (P := fun e' s'' => e' = e ∧ s'' = s') ⟨e, s', hrun, rfl, rfl⟩ ?_
    rintro e' s'' ⟨rfl, rfl⟩
    exact herror e' s'' hP

section Loops

variable {δ : Type} (loop : ℕ → δ → Run ε σ β) (body : ℕ → δ → Run ε σ δ)
  (Inv : ℕ → δ → σ → Prop) {n i : ℕ} {c : δ} {s : σ}

/-- **A loop that counts up to a bound** keeps its invariant, and ends with what follows. -/
theorem returns_upto (fin : δ → Run ε σ β)
    (heq : ∀ i c, i ≤ n → loop i c = if i = n then fin c else body i c >>= loop (i + 1))
    (hbody : ∀ i c s, i < n → Inv i c s → Returns (body i c) s (Inv (i + 1)))
    (hfin : ∀ c s, Inv n c s → Returns (fin c) s Q) (hi : i ≤ n) (h : Inv i c s) :
    Returns (loop i c) s Q := by
  induction hd : n - i generalizing i c s with
  | zero =>
    obtain rfl : i = n := by omega
    rw [heq i c hi, if_pos rfl]
    exact hfin c s h
  | succ d ih =>
    rw [heq i c hi, if_neg (by omega)]
    exact returns_bind_of (hbody i c s (by omega) h) fun c' s' h' => ih (by omega) h' (by omega)

/-- **A loop that runs until it fails.** -/
theorem raises_at {Q : ε → σ → Prop} (heq : ∀ i c, loop i c = body i c >>= loop (i + 1))
    (hbody : ∀ i c s, i < n → Inv i c s → Returns (body i c) s (Inv (i + 1)))
    (hend : ∀ c s, Inv n c s → Raises (body n c) s Q) (hi : i ≤ n) (h : Inv i c s) :
    Raises (loop i c) s Q := by
  induction hd : n - i generalizing i c s with
  | zero =>
    obtain rfl : i = n := by omega
    rw [heq]
    exact raises_bind (hend c s h)
  | succ d ih =>
    rw [heq]
    exact raises_bind_of (hbody i c s (by omega) h) fun c' s' h' => ih (by omega) h' (by omega)

end Loops

end TotalRun
