import Mathlib.Data.List.Basic

/-!
# Queues as pairs of lists

A queue is kept as a list of its first elements and the reversed list of the others.

## Main definitions

* `TwoListQueue.toList` — the elements of a queue, the first one first.
* `TwoListQueue.enqueue`, `TwoListQueue.dequeue` — the operations.
-/

/-- A queue: its first elements, and the others in reverse. -/
structure TwoListQueue (α : Type*) where
  front : List α
  rear : List α
  deriving DecidableEq

namespace TwoListQueue

variable {α : Type*}

def toList (q : TwoListQueue α) : List α := q.front ++ q.rear.reverse

def empty : TwoListQueue α := ⟨[], []⟩

@[simp] theorem toList_empty : (empty : TwoListQueue α).toList = [] := rfl

def enqueue (q : TwoListQueue α) (x : α) : TwoListQueue α := { q with rear := x :: q.rear }

@[simp] theorem toList_enqueue (q : TwoListQueue α) (x : α) :
    (q.enqueue x).toList = q.toList ++ [x] := by
  simp [toList, enqueue]

/-- Take the first element, if there is one. -/
def dequeue : TwoListQueue α → Option (α × TwoListQueue α)
  | ⟨x :: r, rear⟩ => some (x, ⟨r, rear⟩)
  | ⟨[], rear⟩ =>
      match rear.reverse with
      | [] => none
      | x :: r => some (x, ⟨r, []⟩)

theorem toList_of_dequeue {q q' : TwoListQueue α} {x : α} (h : q.dequeue = some (x, q')) :
    q.toList = x :: q'.toList := by
  obtain ⟨_ | ⟨y, r⟩, rear⟩ := q
  · simp only [dequeue] at h
    split at h
    · simp at h
    · next y r hr =>
      obtain ⟨rfl, rfl⟩ := Prod.mk.inj (Option.some.inj h)
      simp [toList, hr]
  · obtain ⟨rfl, rfl⟩ := Prod.mk.inj (Option.some.inj h)
    rfl

theorem exists_dequeue {q : TwoListQueue α} (h : q.toList ≠ []) :
    ∃ x q', q.dequeue = some (x, q') := by
  obtain ⟨_ | ⟨y, r⟩, rear⟩ := q
  · simp only [toList, List.nil_append] at h
    rcases hr : rear.reverse with _ | ⟨y, r⟩
    · exact absurd hr h
    · exact ⟨y, ⟨r, []⟩, by simp [dequeue, hr]⟩
  · exact ⟨y, ⟨r, rear⟩, rfl⟩

theorem toList_eq_nil_iff {q : TwoListQueue α} : q.toList = [] ↔ q = empty := by
  obtain ⟨front, rear⟩ := q
  simp [toList, empty]

end TwoListQueue
