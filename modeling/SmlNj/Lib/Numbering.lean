import Mathlib.Algebra.Order.BigOperators.Group.List
import Mathlib.Algebra.Order.Ring.Nat
import Mathlib.Data.List.Nodup

/-!
# Numbering by first occurrence

The elements of a list numbered from one in the order in which they first occur.  The numbers do not
depend on what the elements are: an injective function leaves them alone.

## Main definitions

* `firsts` — the elements of a list at their first occurrences.
* `number` — the number of an element.

## Main results

* `number_map` — an injective function leaves the numbers alone.
* `number_injOn` — different elements have different numbers.
-/

namespace Numbering

variable {α β : Type*} [DecidableEq α] [DecidableEq β]

def enter (l : List α) (x : α) : List α := if x ∈ l then l else l ++ [x]

def enterAll (l xs : List α) : List α := xs.foldl enter l

/-- **The elements of a list at their first occurrences.** -/
def firsts (xs : List α) : List α := enterAll [] xs

def position (l : List α) (x : α) : ℕ := l.idxOf x + 1

/-- **The number of an element.** -/
def number (xs : List α) (x : α) : ℕ := position (firsts xs) x

variable {l xs : List α} {x y : α}

theorem mem_enter : y ∈ enter l x ↔ y ∈ l ∨ y = x := by
  unfold enter
  split_ifs with h
  · exact ⟨.inl, fun hy => hy.elim id fun hy => hy ▸ h⟩
  · rw [List.mem_append, List.mem_singleton]

theorem mem_enterAll : y ∈ enterAll l xs ↔ y ∈ l ∨ y ∈ xs := by
  induction xs generalizing l with
  | nil => simp [enterAll]
  | cons x xs ih =>
    rw [enterAll, List.foldl_cons, ← enterAll, ih, mem_enter, List.mem_cons, or_assoc]

theorem mem_firsts : y ∈ firsts xs ↔ y ∈ xs := by
  simp [firsts, mem_enterAll]

theorem position_enterAll (hx : x ∈ l) : position (enterAll l xs) x = position l x := by
  induction xs generalizing l with
  | nil => rfl
  | cons y xs ih =>
    rw [enterAll, List.foldl_cons, ← enterAll, ih (mem_enter.mpr (.inl hx))]
    unfold enter position
    split_ifs
    · rfl
    · rw [List.idxOf_append_of_mem hx]

theorem enterAll_append (l xs ys : List α) :
    enterAll l (xs ++ ys) = enterAll (enterAll l xs) ys := List.foldl_append

theorem enter_map {f : α → β} {s : Set α} (hf : s.InjOn f) (hl : ∀ y ∈ l, y ∈ s) (hx : x ∈ s) :
    enter (l.map f) (f x) = (enter l x).map f := by
  have hmem : f x ∈ l.map f ↔ x ∈ l := by
    refine ⟨fun h => ?_, List.mem_map_of_mem⟩
    obtain ⟨y, hy, he⟩ := List.mem_map.mp h
    exact hf (hl y hy) hx he ▸ hy
  unfold enter
  by_cases h : x ∈ l
  · rw [if_pos (hmem.mpr h), if_pos h]
  · rw [if_neg (mt hmem.mp h), if_neg h, List.map_append, List.map_singleton]

theorem enterAll_map {f : α → β} {s : Set α} (hf : s.InjOn f) (hl : ∀ y ∈ l, y ∈ s)
    (hxs : ∀ y ∈ xs, y ∈ s) : enterAll (l.map f) (xs.map f) = (enterAll l xs).map f := by
  induction xs generalizing l with
  | nil => rfl
  | cons x xs ih =>
    obtain ⟨hx, hxs⟩ := List.forall_mem_cons.mp hxs
    rw [List.map_cons, enterAll, List.foldl_cons, ← enterAll, enter_map hf hl hx]
    refine ih (fun y hy => ?_) hxs
    rcases mem_enter.mp hy with hy | rfl
    · exact hl y hy
    · exact hx

theorem idxOf_map {f : α → β} {s : Set α} (hf : s.InjOn f) (hl : ∀ y ∈ l, y ∈ s) (hx : x ∈ s) :
    (l.map f).idxOf (f x) = l.idxOf x := by
  induction l with
  | nil => rfl
  | cons y l ih =>
    obtain ⟨hy, hl⟩ := List.forall_mem_cons.mp hl
    by_cases h : y = x
    · rw [h, List.map_cons, List.idxOf_cons_self, List.idxOf_cons_self]
    · rw [List.map_cons, List.idxOf_cons_ne _ (fun he => h (hf hy hx he)), List.idxOf_cons_ne _ h,
        ih hl]

theorem firsts_map {f : α → β} {s : Set α} (hf : s.InjOn f) (hxs : ∀ y ∈ xs, y ∈ s) :
    firsts (xs.map f) = (firsts xs).map f :=
  enterAll_map (l := []) hf (fun _ hy => absurd hy List.not_mem_nil) hxs

/-- **An injective function leaves the numbers alone.** -/
theorem number_map {f : α → β} {s : Set α} (hf : s.InjOn f) (hxs : ∀ y ∈ xs, y ∈ s) (hx : x ∈ s) :
    number (xs.map f) (f x) = number xs x := by
  unfold number position
  rw [firsts_map hf hxs, idxOf_map hf (fun y hy => hxs y (mem_firsts.mp hy)) hx]

theorem number_injOn (xs : List α) : Set.InjOn (number xs) {x | x ∈ xs} := by
  intro x hx y _ h
  exact (List.idxOf_inj (mem_firsts.mpr hx)).mp (Nat.succ_injective h)

theorem exists_injective {f : ℕ → ℕ} {xs : List ℕ} (hf : Set.InjOn f {x | x ∈ xs}) :
    ∃ g : ℕ → ℕ, Function.Injective g ∧ ∀ x ∈ xs, g x = f x := by
  have hle : ∀ x ∈ xs, f x ≤ (xs.map f).sum := fun x hx =>
    List.le_sum_of_mem (List.mem_map_of_mem hx)
  -- the others go beyond everything that `f` takes
  refine ⟨fun x => if x ∈ xs then f x else (xs.map f).sum + 1 + x, fun x y h => ?_,
    fun x hx => if_pos hx⟩
  dsimp only at h
  split_ifs at h with hx hy hy
  · exact hf hx hy h
  · have := hle x hx
    omega
  · have := hle y hy
    omega
  · omega

end Numbering
