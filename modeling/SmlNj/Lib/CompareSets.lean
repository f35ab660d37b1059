import Mathlib.Data.List.Nodup
import Mathlib.Data.List.Perm.Subperm
import Mathlib.Data.Set.Basic

/-!
# Ordered lists as sets, by a comparison

A three-way comparison that is oriented and transitive need not tell all elements
apart.  An ascending list stands for the set of all elements that compare as equal to
one of its own; sets of this kind are closed under equality, and the sizes of the
lists behave like cardinalities.

## Main definitions

* `below cmp x`, `above cmp x`, `same cmp x` — what is smaller, greater, or equal.
* `Ascending cmp l` — every element is smaller than all later ones.
* `toSet cmp l` — the set that a list stands for.

## Main results

* `ascending_append_cons`, `toSet_append_cons` — lists around an element.
* `length_le_of_subset`, `subset_of_length_le` — counting.
-/

namespace CompareSets

variable {α : Type*} (cmp : α → α → Ordering)

/-- The elements that are smaller than `x`. -/
def below (x : α) : Set α := {y | cmp y x = .lt}

/-- The elements that are greater than `x`. -/
def above (x : α) : Set α := {y | cmp x y = .lt}

/-- The elements that are equal to `x`. -/
def same (x : α) : Set α := {y | cmp y x = .eq}

def Ascending (l : List α) : Prop := l.Pairwise fun x y => cmp x y = .lt

def toSet (l : List α) : Set α := {x | ∃ y ∈ l, cmp x y = .eq}

variable {x y v : α} {l m : List α}

@[simp] theorem mem_below : y ∈ below cmp x ↔ cmp y x = .lt := Iff.rfl

@[simp] theorem mem_above : y ∈ above cmp x ↔ cmp x y = .lt := Iff.rfl

@[simp] theorem mem_same : y ∈ same cmp x ↔ cmp y x = .eq := Iff.rfl

@[simp] theorem ascending_nil : Ascending cmp [] := List.Pairwise.nil

@[simp] theorem toSet_nil : toSet cmp [] = ∅ := by
  ext x
  simp [toSet]

theorem mem_toSet : x ∈ toSet cmp l ↔ ∃ y ∈ l, cmp x y = .eq := Iff.rfl

theorem toSet_append_cons (l r : List α) (v : α) :
    toSet cmp (l ++ v :: r) = toSet cmp l ∪ same cmp v ∪ toSet cmp r := by
  ext x
  simp only [mem_toSet, List.mem_append, List.mem_cons, Set.mem_union, mem_same]
  constructor
  · rintro ⟨y, hy | rfl | hy, h⟩
    · exact .inl (.inl ⟨y, hy, h⟩)
    · exact .inl (.inr h)
    · exact .inr ⟨y, hy, h⟩
  · rintro ((⟨y, hy, h⟩ | h) | ⟨y, hy, h⟩)
    · exact ⟨y, .inl hy, h⟩
    · exact ⟨v, .inr (.inl rfl), h⟩
    · exact ⟨y, .inr (.inr hy), h⟩

variable {cmp} [Std.TransCmp cmp]

theorem lt_of_gt (h : cmp x y = .gt) : cmp y x = .lt := Std.OrientedCmp.lt_of_gt h

theorem eq_self (x : α) : cmp x x = .eq := Std.ReflCmp.compare_self

theorem lt_irrefl (x : α) : cmp x x ≠ .lt := by simp [eq_self x]

variable (cmp) in
theorem cases_cmp (x y : α) : cmp x y = .lt ∨ cmp x y = .eq ∨ cmp y x = .lt := by
  cases h : cmp x y with
  | lt => exact .inl rfl
  | eq => exact .inr (.inl rfl)
  | gt => exact .inr (.inr (lt_of_gt h))

theorem mem_toSet_self (h : x ∈ l) : x ∈ toSet cmp l :=
  ⟨x, h, eq_self x⟩

omit [Std.TransCmp cmp] in
theorem toSet_subset {S : Set α} (hS : ∀ x y, cmp x y = .eq → y ∈ S → x ∈ S) (h : ∀ x ∈ l, x ∈ S) :
    toSet cmp l ⊆ S := by
  rintro x ⟨y, hy, hxy⟩
  exact hS x y hxy (h y hy)

theorem below_closed (v : α) : ∀ x y, cmp x y = .eq → y ∈ below cmp v → x ∈ below cmp v :=
  fun _ _ h hy => Std.TransCmp.lt_of_eq_of_lt h hy

theorem above_closed (v : α) : ∀ x y, cmp x y = .eq → y ∈ above cmp v → x ∈ above cmp v :=
  fun _ _ h hy => Std.TransCmp.lt_of_lt_of_eq hy (Std.OrientedCmp.eq_symm h)

theorem toSet_subset_below : toSet cmp l ⊆ below cmp v ↔ ∀ x ∈ l, cmp x v = .lt :=
  ⟨fun h _ hx => h (mem_toSet_self hx), fun h => toSet_subset (below_closed v) h⟩

theorem toSet_subset_above : toSet cmp l ⊆ above cmp v ↔ ∀ x ∈ l, cmp v x = .lt :=
  ⟨fun h _ hx => h (mem_toSet_self hx), fun h => toSet_subset (above_closed v) h⟩

theorem toSet_closed (h : cmp x y = .eq) (hy : y ∈ toSet cmp l) : x ∈ toSet cmp l := by
  obtain ⟨z, hz, hyz⟩ := hy
  exact ⟨z, hz, Std.TransCmp.eq_trans h hyz⟩

theorem ascending_append_cons {r : List α} :
    Ascending cmp (l ++ v :: r) ↔ Ascending cmp l ∧ Ascending cmp r ∧
      toSet cmp l ⊆ below cmp v ∧ toSet cmp r ⊆ above cmp v := by
  unfold Ascending
  rw [List.pairwise_append, List.pairwise_cons, toSet_subset_below, toSet_subset_above]
  constructor
  · rintro ⟨hl, ⟨hvr, hr⟩, hlr⟩
    exact ⟨hl, hr, fun x hx => hlr x hx v List.mem_cons_self, hvr⟩
  · rintro ⟨hl, hr, hlv, hvr⟩
    refine ⟨hl, ⟨hvr, hr⟩, ?_⟩
    intro x hx y hy
    rcases List.mem_cons.mp hy with rfl | hy
    · exact hlv x hx
    · exact Std.TransCmp.lt_trans (hlv x hx) (hvr y hy)

theorem subperm_of_subset (hl : Ascending cmp l) (h : toSet cmp l ⊆ toSet cmp m) :
    ∃ f : α → α, (∀ x ∈ l, cmp x (f x) = .eq) ∧ (l.map f).Subperm m := by
  have hex : ∀ x, ∃ y, x ∈ l → y ∈ m ∧ cmp x y = .eq := by
    intro x
    by_cases hx : x ∈ l
    · obtain ⟨y, hy, hxy⟩ := h (mem_toSet_self hx)
      exact ⟨y, fun _ => ⟨hy, hxy⟩⟩
    · exact ⟨x, fun hx' => absurd hx' hx⟩
  choose f hf using hex
  refine ⟨f, fun x hx => (hf x hx).2, List.subperm_of_subset ?_ ?_⟩
  · unfold List.Nodup
    rw [List.pairwise_map]
    refine List.Pairwise.imp_of_mem ?_ hl
    intro x y hx hy hxy heq
    have hx' := (hf x hx).2
    have hy' := (hf y hy).2
    rw [heq] at hx'
    have := Std.TransCmp.eq_trans hx' (Std.OrientedCmp.eq_symm hy')
    rw [hxy] at this
    cases this
  · intro y hy
    obtain ⟨x, hx, rfl⟩ := List.mem_map.mp hy
    exact (hf x hx).1

theorem length_le_of_subset (hl : Ascending cmp l) (h : toSet cmp l ⊆ toSet cmp m) :
    l.length ≤ m.length := by
  obtain ⟨f, _, hsub⟩ := subperm_of_subset hl h
  simpa using hsub.length_le

theorem subset_of_length_le (hl : Ascending cmp l) (h : toSet cmp l ⊆ toSet cmp m)
    (hlen : m.length ≤ l.length) : toSet cmp m ⊆ toSet cmp l := by
  obtain ⟨f, hf, hsub⟩ := subperm_of_subset hl h
  have hperm := hsub.perm_of_length_le (by simpa using hlen)
  rintro x ⟨y, hy, hxy⟩
  obtain ⟨z, hz, rfl⟩ := List.mem_map.mp (hperm.symm.subset hy)
  exact ⟨z, hz, Std.TransCmp.eq_trans hxy (Std.OrientedCmp.eq_symm (hf z hz))⟩

end CompareSets
