import Mathlib.Tactic

/-!
# Maps of lists by functions with a state

A function with a state is mapped over a list from its first element on.  The result and
the state after a number of elements are what one call more makes of the state before.

## Main definitions

* `stateAt` — the state after a number of elements.

## Main results

* `mapM_step` — one call, between two states.
-/

namespace StateMap

variable {α β τ : Type} (g : α → StateM τ β)

def stateAt (l : List α) (t : τ) (i : ℕ) : τ := (((l.take i).mapM g).run t).2

theorem mapM_cons_run (a : α) (l : List α) (t : τ) :
    ((a :: l).mapM g).run t =
      (((g a).run t).1 :: ((l.mapM g).run ((g a).run t).2).1,
        ((l.mapM g).run ((g a).run t).2).2) := by
  rw [List.mapM_cons]
  rfl

theorem stateAt_length (l : List α) (t : τ) : stateAt g l t l.length = ((l.mapM g).run t).2 := by
  unfold stateAt
  rw [List.take_length]

theorem length_mapM (l : List α) (t : τ) : ((l.mapM g).run t).1.length = l.length := by
  induction l generalizing t with
  | nil => rfl
  | cons a l ih => rw [mapM_cons_run, List.length_cons, List.length_cons, ih]

/-- **One call**, between two states. -/
theorem mapM_step (l : List α) (t : τ) {i : ℕ} (hi : i < l.length) (d : β) :
    (g l[i]).run (stateAt g l t i) =
      (((l.mapM g).run t).1.getD i d, stateAt g l t (i + 1)) := by
  unfold stateAt
  induction l generalizing t i with
  | nil => exact absurd hi (Nat.not_lt_zero i)
  | cons a l ih =>
    rw [mapM_cons_run]
    cases i with
    | zero => rfl
    | succ i =>
      rw [List.take_succ_cons, List.take_succ_cons, mapM_cons_run, mapM_cons_run,
        List.getD_cons_succ, List.getElem_cons_succ]
      exact ih _ (Nat.lt_of_succ_lt_succ hi)

end StateMap
