import Mathlib.Data.List.Chain

/-!
# Operator precedence

A sequence of items, some of them operators, is read as a tree.  Two operators meet at the operand
between them, and a relation says whether the earlier one takes it.  The relation is arbitrary, and
need not come from an order, so that operators of a precedence may differ in associativity.

## Main definitions

* `Tree` — the trees, and `Tree.items`, their items from left to right.
* `Grouped` — the trees in which each operand belongs to the operator that takes it.
* `WellFormed` — the sequences in which operators stand between operands.
* `resolve` — the machine that reads a sequence, with a stack of operators.

## Main results

* `grouped_resolve` — what is read from a well-formed sequence is grouped.
* `resolve_items` — a grouped tree is what is read from its items, so that there is one at most.
-/

namespace OperatorPrecedence

inductive Tree (ι : Type*)
  | item (i : ι)
  | app (f x : Tree ι)
  | op (o : ι) (l r : Tree ι)

variable {ι : Type*}

namespace Tree

@[simp] def items : Tree ι → List ι
  | item i => [i]
  | app f x => f.items ++ x.items
  | op o l r => l.items ++ o :: r.items

@[simp] def leftEdge : Tree ι → List ι
  | op o l _ => o :: l.leftEdge
  | _ => []

@[simp] def rightEdge : Tree ι → List ι
  | op o _ r => o :: r.rightEdge
  | _ => []

theorem leftEdge_eq_nil {t : Tree ι} (h : t.rightEdge = []) : t.leftEdge = [] := by
  cases t with
  | op o l r => cases h
  | _ => rfl

end Tree

variable (isOp : ι → Prop) (before : ι → ι → Prop)

/-- **The grouped trees.**  Application comes before all operators and associates to the left.  The
operators in the left operand of an operator that meet it take their operands before it does, and it
takes its operand before none of those that it meets in its right one. -/
inductive Grouped : Tree ι → Prop
  | item {i : ι} : ¬ isOp i → Grouped (.item i)
  | app {f : Tree ι} {i : ι} : Grouped f → f.rightEdge = [] → ¬ isOp i → Grouped (.app f (.item i))
  | op {o : ι} {l r : Tree ι} : isOp o → Grouped l → Grouped r →
      (∀ o' ∈ l.rightEdge, before o' o) → (∀ o' ∈ r.leftEdge, ¬ before o o') → Grouped (.op o l r)

/-- Operators neither begin nor end a sequence, and no two of them are adjacent. -/
def WellFormed (w : List ι) : Prop :=
  (∀ i ∈ w.head?, ¬ isOp i) ∧ (∀ i ∈ w.getLast?, ¬ isOp i) ∧
    w.IsChain fun i j => ¬ (isOp i ∧ isOp j)

/-- The rest of a well-formed sequence, where an operand is wanted or not. -/
def Fits : Prop → List ι → Prop
  | wanted, [] => ¬ wanted
  | wanted, i :: w => ¬ (wanted ∧ isOp i) ∧ Fits (isOp i) w

theorem fits_iff {wanted : Prop} {w : List ι} : Fits isOp wanted w ↔
    (w = [] → ¬ wanted) ∧ (∀ i ∈ w.head?, ¬ (wanted ∧ isOp i)) ∧ (∀ i ∈ w.getLast?, ¬ isOp i) ∧
      w.IsChain fun i j => ¬ (isOp i ∧ isOp j) := by
  induction w generalizing wanted with
  | nil => simp [Fits]
  | cons i w ih =>
    rw [Fits, ih]
    cases w with
    | nil => simp
    | cons j w =>
      simp only [List.head?_cons, List.getLast?_cons_cons, List.isChain_cons_cons, Option.mem_def,
        Option.some.injEq, forall_eq', reduceCtorEq, false_implies, true_and]
      tauto

theorem fits_true_iff {w : List ι} (hw : w ≠ []) : Fits isOp True w ↔ WellFormed isOp w := by
  simp [fits_iff, WellFormed, hw]

/-! ### The machine -/

/-- The operators that want their right operands, with their left ones, the last operator first. -/
abbrev Frames (ι : Type*) := List (Tree ι × ι)

/-- An operand is wanted, or one was found. -/
inductive State (ι : Type*)
  | wanted (fs : Frames ι)
  | found (fs : Frames ι) (t : Tree ι)

def State.Wanted : State ι → Prop
  | .wanted _ => True
  | .found _ _ => False

section Machine

variable [DecidablePred isOp] [DecidableRel before]

/-- The operators that come before a new one take their operands. -/
def push : Frames ι → Tree ι → ι → Frames ι
  | [], t, o => [(t, o)]
  | (l, o') :: fs, t, o => if before o' o then push fs (.op o' l t) o else (t, o) :: (l, o') :: fs

def step : State ι → ι → State ι
  | .wanted fs, i => .found fs (.item i)
  | .found fs t, i => if isOp i then .wanted (push before fs t i) else .found fs (.app t (.item i))

def close : Frames ι → Tree ι → Tree ι
  | [], t => t
  | (l, o) :: fs, t => close fs (.op o l t)

def finish : State ι → Option (Tree ι)
  | .found fs t => some (close fs t)
  | .wanted ((l, o) :: fs) => some (close fs (.app l (.item o)))
  | .wanted [] => none

def resolve (w : List ι) : Option (Tree ι) := finish (w.foldl (step isOp before) (.wanted []))

end Machine

variable {isOp before} {fs : Frames ι} {s : State ι} {t l : Tree ι} {o i : ι} {w : List ι}

/-! ### The items -/

@[simp] def Frames.items : Frames ι → List ι
  | [] => []
  | (l, o) :: fs => Frames.items fs ++ l.items ++ [o]

@[simp] def State.items : State ι → List ι
  | .wanted fs => Frames.items fs
  | .found fs t => Frames.items fs ++ t.items

theorem items_push [DecidableRel before] :
    (push before fs t o).items = fs.items ++ t.items ++ [o] := by
  induction fs generalizing t with
  | nil => simp [push]
  | cons f fs ih =>
    rw [push]
    split
    · simp [ih]
    · simp

theorem items_close : (close fs t).items = fs.items ++ t.items := by
  induction fs generalizing t with
  | nil => simp [close]
  | cons f fs ih => simp [close, ih]

theorem items_foldl [DecidablePred isOp] [DecidableRel before] :
    (w.foldl (step isOp before) s).items = s.items ++ w := by
  induction w generalizing s with
  | nil => simp
  | cons i w ih =>
    rw [List.foldl_cons, ih]
    cases s with
    | wanted fs => simp [step]
    | found fs t =>
      rw [step]
      split
      · simp [items_push]
      · simp

theorem items_finish (h : finish s = some t) : t.items = s.items := by
  cases s with
  | found fs t' =>
    cases h
    exact items_close
  | wanted fs =>
    cases fs with
    | nil => cases h
    | cons f fs =>
      cases h
      simp [items_close]

theorem items_resolve [DecidablePred isOp] [DecidableRel before]
    (h : resolve isOp before w = some t) : t.items = w := by
  rw [items_finish h, items_foldl]
  rfl

/-! ### The trees that are read are grouped -/

/-- An operator leaves its left operand to the last operator of the stack. -/
def Under (before : ι → ι → Prop) (fs : Frames ι) (o : ι) : Prop := ∀ f ∈ fs.head?, ¬ before f.2 o

/-- **The invariant of the stack.** -/
inductive Stacked (isOp : ι → Prop) (before : ι → ι → Prop) : Frames ι → Prop
  | nil : Stacked isOp before []
  | cons {fs : Frames ι} {l : Tree ι} {o : ι} : Stacked isOp before fs → isOp o →
      Grouped isOp before l → (∀ o' ∈ l.rightEdge, before o' o) →
      (∀ o' ∈ o :: l.leftEdge, Under before fs o') → Stacked isOp before ((l, o) :: fs)

theorem Stacked.reduce (h : Stacked isOp before ((l, o) :: fs)) (ht : Grouped isOp before t)
    (hleft : ∀ o' ∈ t.leftEdge, Under before ((l, o) :: fs) o') :
    Stacked isOp before fs ∧ Grouped isOp before (.op o l t) ∧
      ∀ o' ∈ (Tree.op o l t).leftEdge, Under before fs o' := by
  obtain _ | ⟨hfs, ho, hl, hright, hunder⟩ := h
  exact ⟨hfs, .op ho hl ht hright fun o' ho' => hleft o' ho' _ rfl, hunder⟩

theorem stacked_push [DecidableRel before] (hfs : Stacked isOp before fs)
    (ht : Grouped isOp before t) (ho : isOp o) (hright : ∀ o' ∈ t.rightEdge, before o' o)
    (hleft : ∀ o' ∈ t.leftEdge, Under before fs o') : Stacked isOp before (push before fs t o) := by
  induction fs generalizing t with
  | nil => exact .cons hfs ho ht hright fun _ _ _ hf => by cases hf
  | cons f fs ih =>
    rw [push]
    split
    · next hbefore =>
      obtain ⟨hfs, ht, hleft⟩ := hfs.reduce ht hleft
      exact ih hfs ht (List.forall_mem_cons.2 ⟨hbefore, hright⟩) hleft
    · next hbefore =>
      refine .cons hfs ho ht hright (List.forall_mem_cons.2 ⟨?_, hleft⟩)
      rintro _ ⟨⟩
      exact hbefore

theorem grouped_close (hfs : Stacked isOp before fs) (ht : Grouped isOp before t)
    (hleft : ∀ o' ∈ t.leftEdge, Under before fs o') : Grouped isOp before (close fs t) := by
  induction fs generalizing t with
  | nil => exact ht
  | cons f fs ih =>
    obtain ⟨hfs, ht, hleft⟩ := hfs.reduce ht hleft
    exact ih hfs ht hleft

def Good (isOp : ι → Prop) (before : ι → ι → Prop) : State ι → Prop
  | .wanted fs => Stacked isOp before fs
  | .found fs t => Stacked isOp before fs ∧ Grouped isOp before t ∧ t.rightEdge = []

theorem good_step [DecidablePred isOp] [DecidableRel before] (hs : Good isOp before s)
    (hi : ¬ (s.Wanted ∧ isOp i)) : Good isOp before (step isOp before s i) := by
  cases s with
  | wanted fs => exact ⟨hs, .item fun h => hi ⟨trivial, h⟩, rfl⟩
  | found fs t =>
    obtain ⟨hfs, ht, hedge⟩ := hs
    rw [step]
    split
    · next hop =>
      refine stacked_push hfs ht hop ?_ ?_
      · simp [hedge]
      · simp [Tree.leftEdge_eq_nil hedge]
    · next hop => exact ⟨hfs, .app ht hedge hop, rfl⟩

theorem wanted_step [DecidablePred isOp] [DecidableRel before]
    (hi : ¬ (s.Wanted ∧ isOp i)) : (step isOp before s i).Wanted ↔ isOp i := by
  cases s with
  | wanted fs => exact iff_of_false id fun h => hi ⟨trivial, h⟩
  | found fs t =>
    rw [step]
    split
    · next hop => exact iff_of_true trivial hop
    · next hop => exact iff_of_false id hop

theorem exists_grouped_finish [DecidablePred isOp] [DecidableRel before] (hs : Good isOp before s)
    (hw : Fits isOp s.Wanted w) :
    ∃ t, finish (w.foldl (step isOp before) s) = some t ∧ Grouped isOp before t := by
  induction w generalizing s with
  | nil =>
    cases s with
    | wanted fs => exact absurd trivial hw
    | found fs t =>
      obtain ⟨hfs, ht, hedge⟩ := hs
      exact ⟨_, rfl, grouped_close hfs ht (by simp [Tree.leftEdge_eq_nil hedge])⟩
  | cons i w ih =>
    refine ih (good_step hs hw.1) ?_
    rw [wanted_step hw.1]
    exact hw.2

/-- **What is read from a well-formed sequence is grouped.** -/
theorem grouped_resolve [DecidablePred isOp] [DecidableRel before] (hne : w ≠ [])
    (hw : WellFormed isOp w) : ∃ t, resolve isOp before w = some t ∧ Grouped isOp before t :=
  exists_grouped_finish (s := .wanted []) .nil ((fits_true_iff isOp hne).2 hw)

/-! ### Grouped trees are read from their items -/

@[grind =] def unwind : Tree ι → Frames ι → State ι
  | .op o l r, fs => unwind r ((l, o) :: fs)
  | t, fs => .found fs t

theorem unwind_eq_found (h : t.rightEdge = []) : unwind t fs = .found fs t := by
  cases t with
  | op o l r => cases h
  | _ => rfl

theorem finish_unwind : finish (unwind t fs) = some (close fs t) := by
  induction t generalizing fs with
  | op o l r _ ihr => exact ihr
  | _ => rfl

variable [DecidablePred isOp] [DecidableRel before]

theorem step_unwind (ho : isOp o) (h : ∀ o' ∈ t.rightEdge, before o' o) :
    step isOp before (unwind t fs) o = .wanted (push before fs t o) := by
  induction t generalizing fs with
  | op o' l r _ ihr =>
    obtain ⟨ho', hr⟩ := List.forall_mem_cons.1 h
    rw [unwind, ihr hr, push, if_pos ho']
  | _ => exact if_pos ho

theorem push_of_under (h : Under before fs o) : push before fs t o = (t, o) :: fs := by
  cases fs with
  | nil => rfl
  | cons f fs => exact if_neg (h f rfl)

theorem foldl_items (ht : Grouped isOp before t) (h : ∀ o' ∈ t.leftEdge, Under before fs o') :
    t.items.foldl (step isOp before) (.wanted fs) = unwind t fs := by
  induction ht generalizing fs with
  | item _ => rfl
  | app _ hedge hi ih =>
    have hleft := Tree.leftEdge_eq_nil hedge
    rw [Tree.items, List.foldl_append, ih (by simp [hleft]), unwind_eq_found hedge]
    simp only [Tree.items, List.foldl_cons, List.foldl_nil, step]
    rw [if_neg hi]
    rfl
  | op ho _ _ hl hr ihl ihr =>
    obtain ⟨hunder, hleft⟩ := List.forall_mem_cons.1 h
    rw [Tree.items, List.foldl_append, ihl hleft, List.foldl_cons, step_unwind ho hl,
      push_of_under hunder, unwind]
    refine ihr fun o' ho' => ?_
    rintro _ ⟨⟩
    exact hr o' ho'

/-- **A grouped tree is read from its items.** -/
theorem resolve_items (ht : Grouped isOp before t) : resolve isOp before t.items = some t := by
  rw [resolve, foldl_items ht fun _ _ _ hf => (by cases hf), finish_unwind]
  rfl

end OperatorPrecedence
