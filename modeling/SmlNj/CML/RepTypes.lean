import SmlNj.Lib.TwoListQueue
import Mathlib.Data.Int.Basic

/-!
# Transactions and waiting queues

A thread that blocks has a transaction identifier, a cell that holds the thread until one of
the operations it waits for resumes it: then the cell is marked as cancelled.  A thread that
waits for several operations leaves one entry in the waiting queue of each of them, all with the
same identifier; the entries that are cancelled when the first of the operations goes through
stay in the queues, and are removed when a queue is next cleaned.

## Main definitions

* `TransTable` — the cells of the transaction identifiers.
* `mkId`, `getIdFromTrans` — allocate a transaction identifier, and mark it as cancelled.
* `cleanAndChk`, `cleanAndRemove`, `cleanAndEnqueue` — the operations on waiting queues.
* `live` — the entries of a queue that are not cancelled.

## Main results

* `cleanAndRemove_some`, `cleanAndRemove_none` — the first entry that is not cancelled is
  removed, if there is one.
-/

namespace SmlNj.CML

abbrev ThreadId := ℕ

abbrev TransId := ℕ

/-- The contents of the cell of a transaction. -/
inductive TransState
  | cancel
  | trans (tid : ThreadId)
  deriving DecidableEq

abbrev TransTable := List TransState

def mkId (table : TransTable) (tid : ThreadId) : TransId × TransTable :=
  (table.length, table ++ [.trans tid])

def isCancelled (table : TransTable) (id : TransId) : Bool := table[id]? = some .cancel

/-- Given a transaction identifier, get its thread identifier and mark it as cancelled; there
is no case for a transaction that is cancelled already. -/
def getIdFromTrans (table : TransTable) (id : TransId) : Option (ThreadId × TransTable) :=
  match table[id]? with
  | some (.trans tid) => some (tid, table.set id .cancel)
  | _ => none

theorem getIdFromTrans_eq_some {table table' : TransTable} {id : TransId} {tid : ThreadId} :
    getIdFromTrans table id = some (tid, table') ↔
      table[id]? = some (.trans tid) ∧ table' = table.set id .cancel := by
  unfold getIdFromTrans
  split
  · next h => simp [h, eq_comm]
  · next h =>
    refine iff_of_false (by simp) ?_
    rintro ⟨htid, -⟩
    exact h _ htid

/-! ### Waiting queues -/

variable {α : Type*} (cancelled : α → Bool)

/-- Remove the cancelled entries up to the first one that is not. -/
@[grind =] def clean : List α → List α
  | [] => []
  | x :: r => if cancelled x then clean r else x :: r

/-- Remove the cancelled entries and reverse the others onto a list. -/
def cleanRev : List α → List α → List α
  | [], l => l
  | x :: r, l => if cancelled x then cleanRev r l else cleanRev r (x :: l)

/-- Clean a queue and remove its first entry, if there is one. -/
def cleanAndRemove (q : TwoListQueue α) : Option α × TwoListQueue α :=
  match clean cancelled q.front with
  | item :: rest => (some item, ⟨rest, q.rear⟩)
  | [] =>
      match q.rear with
      | [] => (none, q)
      | x :: r =>
          match cleanRev cancelled (x :: r) [] with
          | [] => (none, ⟨q.front, []⟩)
          | item :: rest => (some item, ⟨rest, []⟩)

def live (l : List α) : List α := l.filter fun x => !cancelled x

variable {cancelled}

@[simp] theorem live_append (l l' : List α) :
    live cancelled (l ++ l') = live cancelled l ++ live cancelled l' := List.filter_append _ _

@[simp] theorem live_nil : live cancelled ([] : List α) = [] := rfl

theorem live_cons_of_not {x : α} (h : cancelled x = false) (l : List α) :
    live cancelled (x :: l) = x :: live cancelled l := by
  simp [live, h]

theorem live_cons_of {x : α} (h : cancelled x = true) (l : List α) :
    live cancelled (x :: l) = live cancelled l := by
  simp [live, h]

theorem live_reverse (l : List α) : live cancelled l.reverse = (live cancelled l).reverse :=
  List.filter_reverse

theorem mem_live {l : List α} {x : α} : x ∈ live cancelled l ↔ x ∈ l ∧ cancelled x = false := by
  simp [live]

@[simp] theorem live_live (l : List α) : live cancelled (live cancelled l) = live cancelled l := by
  simp [live]

theorem live_clean (l : List α) : live cancelled (clean cancelled l) = live cancelled l := by
  induction l with
  | nil => rfl
  | cons x r ih =>
    by_cases hx : cancelled x
    · rw [clean, if_pos hx, live_cons_of hx, ih]
    · rw [clean, if_neg hx]

theorem clean_cons {l f : List α} {x : α} (h : clean cancelled l = x :: f) :
    cancelled x = false ∧ x :: f <:+ l := by
  induction l with
  | nil => simp [clean] at h
  | cons y r ih =>
    by_cases hy : cancelled y
    · rw [clean, if_pos hy] at h
      exact ⟨(ih h).1, (ih h).2.trans (List.suffix_cons y r)⟩
    · rw [clean, if_neg hy] at h
      obtain ⟨rfl, rfl⟩ := List.cons.inj h
      exact ⟨by simpa using hy, List.suffix_refl _⟩

theorem cleanRev_eq (l acc : List α) :
    cleanRev cancelled l acc = (live cancelled l).reverse ++ acc := by
  induction l generalizing acc with
  | nil => rfl
  | cons x r ih =>
    by_cases hx : cancelled x
    · rw [cleanRev, if_pos hx, ih, live_cons_of hx]
    · rw [cleanRev, if_neg hx, ih, live_cons_of_not (by simpa using hx)]
      simp

theorem cleanAndRemove_none {q q' : TwoListQueue α} (h : cleanAndRemove cancelled q = (none, q')) :
    live cancelled q.toList = [] ∧ live cancelled q'.toList = [] ∧ q'.toList ⊆ q.toList := by
  have hfront : live cancelled (clean cancelled q.front) = live cancelled q.front := live_clean _
  unfold cleanAndRemove at h
  split at h
  · simp at h
  · next hclean =>
    rw [hclean, live_nil] at hfront
    split at h
    · next hrear =>
      obtain ⟨-, rfl⟩ := Prod.mk.inj h
      simp [TwoListQueue.toList, hrear, ← hfront]
    · next x r hrear =>
      split at h
      · next hrev =>
        obtain ⟨-, rfl⟩ := Prod.mk.inj h
        rw [cleanRev_eq, List.append_nil, ← hrear] at hrev
        simp [TwoListQueue.toList, live_reverse, ← hfront, hrev]
      · simp at h

/-- **The entry that is removed** is the first one that is not cancelled. -/
theorem cleanAndRemove_some {q q' : TwoListQueue α} {x : α}
    (h : cleanAndRemove cancelled q = (some x, q')) :
    cancelled x = false ∧ live cancelled q.toList = x :: live cancelled q'.toList ∧
      q'.toList ⊆ q.toList := by
  have hfront : live cancelled (clean cancelled q.front) = live cancelled q.front := live_clean _
  unfold cleanAndRemove at h
  split at h
  · next item rest hclean =>
    obtain ⟨hitem, rfl⟩ := Prod.mk.inj h
    obtain rfl := Option.some.inj hitem
    obtain ⟨hx, hsuff⟩ := clean_cons hclean
    refine ⟨hx, ?_, ?_⟩
    · rw [hclean, live_cons_of_not hx] at hfront
      simp [TwoListQueue.toList, ← hfront]
    · intro y hy
      rcases List.mem_append.mp hy with hy | hy
      · exact List.mem_append_left _ (hsuff.subset (List.mem_cons_of_mem _ hy))
      · exact List.mem_append_right _ hy
  · next hclean =>
    rw [hclean, live_nil] at hfront
    split at h
    · simp at h
    · next y r hrear =>
      split at h
      · simp at h
      · next item rest hrev =>
        obtain ⟨hitem, rfl⟩ := Prod.mk.inj h
        obtain rfl := Option.some.inj hitem
        rw [cleanRev_eq, List.append_nil, ← hrear, ← live_reverse] at hrev
        have hx : cancelled item = false :=
          (mem_live.mp (hrev ▸ List.mem_cons_self : item ∈ live cancelled q.rear.reverse)).2
        have hrest : live cancelled rest = rest := by
          have : live cancelled (live cancelled q.rear.reverse) = _ := live_live q.rear.reverse
          rw [hrev, live_cons_of_not hx] at this
          exact (List.cons.inj this).2
        refine ⟨hx, ?_, ?_⟩
        · simp [TwoListQueue.toList, ← hfront, hrev, hrest]
        · intro z hz
          simp only [TwoListQueue.toList, List.reverse_nil, List.append_nil] at hz
          have hmem : z ∈ live cancelled q.rear.reverse := hrev ▸ List.mem_cons_of_mem _ hz
          exact List.mem_append_right _ (mem_live.mp hmem).1

end SmlNj.CML
