import Mathlib.Order.RelClasses
import Mathlib.Data.List.Basic

/-!
# Stable rearrangements of lists

A sort is stable when elements that the order does not tell apart stay in the order in which they
were.  The notion is that of a rearrangement that leaves the list of the elements of each class of
equivalent elements as it is; it is transitive and compatible with the concatenation of lists, so
that a sorting algorithm can be checked move by move.

The order is given by a strict weak order `gt` with values in the booleans.

## Main definitions

* `Ascending gt xs` — no element is greater than a later one.
* `Stable gt xs l` — `xs` has the elements of `l`, and equivalent ones in the same order.
* `Sorts gt xs l` — `xs` is the list `l`, sorted in a stable way.

## Main results

* `stable_cross` — an element may pass elements that are not equivalent to it.
* `stable_reverse` — a list in strictly descending order may be reversed.
* `ascending_merge`, `stable_merge` — merging two lists in ascending order.
-/

namespace StableOrder

variable {α : Type*} (gt : α → α → Bool)

def Ascending (xs : List α) : Prop := xs.Pairwise fun a b => gt a b = false

def equiv (a x : α) : Bool := !gt a x && !gt x a

def Stable (xs l : List α) : Prop :=
  xs.Perm l ∧ ∀ a, xs.filter (equiv gt a) = l.filter (equiv gt a)

/-- A stable sort of a list. -/
structure Sorts (xs l : List α) : Prop where
  ascending : Ascending gt xs
  stable : Stable gt xs l

abbrev Weak : Prop := IsStrictWeakOrder α fun a b => gt a b = true

variable {gt}

variable {a x y : α} {xs ys : List α}

theorem equiv_iff : equiv gt a x = true ↔ gt a x = false ∧ gt x a = false := by
  simp [equiv, Bool.not_eq_true']

theorem gt_asymm (hgt : Weak gt) {b : α} (h : gt a b = true) : gt b a = false := by
  rw [Bool.eq_false_iff]
  intro h'
  exact hgt.irrefl a (hgt.trans _ _ _ h h')

theorem not_gt_trans (hgt : Weak gt) {b c : α} (hab : gt a b = false) (hbc : gt b c = false) :
    gt a c = false := by
  rw [Bool.eq_false_iff]
  intro hac
  have hcb : gt c b = false := by
    rw [Bool.eq_false_iff]
    intro hcb
    have := hgt.trans _ _ _ hac hcb
    rw [hab] at this
    cases this
  have hba : gt b a = false := by
    rw [Bool.eq_false_iff]
    intro hba
    have := hgt.trans _ _ _ hba hac
    rw [hbc] at this
    cases this
  have hincomp := hgt.incomp_trans a b c (by simp [hab, hba]) (by simp [hbc, hcb])
  exact hincomp.1 hac

theorem equiv_separates (hgt : Weak gt) (h : equiv gt x y = false) (hx : equiv gt a x = true) :
    equiv gt a y = false := by
  rw [Bool.eq_false_iff] at h ⊢
  intro hy
  rw [equiv_iff] at hx hy
  exact h (equiv_iff.2 ⟨not_gt_trans hgt hx.2 hy.1, not_gt_trans hgt hy.2 hx.1⟩)

theorem not_equiv_of_gt (h : gt y x = true) : equiv gt x y = false := by
  rw [equiv, h]
  exact Bool.and_false _

theorem not_equiv_of_gt' (h : gt x y = true) : equiv gt x y = false := by
  rw [equiv, h]
  exact Bool.false_and _

namespace Stable

theorem refl (l : List α) : Stable gt l l := ⟨List.Perm.refl l, fun _ => rfl⟩

theorem trans {zs : List α} (h : Stable gt xs ys) (h' : Stable gt ys zs) : Stable gt xs zs :=
  ⟨h.1.trans h'.1, fun a => (h.2 a).trans (h'.2 a)⟩

theorem symm (h : Stable gt xs ys) : Stable gt ys xs :=
  ⟨h.1.symm, fun a => (h.2 a).symm⟩

theorem append {xs' ys' : List α} (h : Stable gt xs xs') (h' : Stable gt ys ys') :
    Stable gt (xs ++ ys) (xs' ++ ys') := by
  refine ⟨h.1.append h'.1, fun a => ?_⟩
  rw [List.filter_append, List.filter_append, h.2, h'.2]

theorem cons {xs ys : List α} (x : α) (h : Stable gt xs ys) : Stable gt (x :: xs) (x :: ys) :=
  (refl [x]).append h

end Stable

theorem Sorts.of_stable {l l' : List α} (h : Sorts gt xs l) (hl : Stable gt l l') :
    Sorts gt xs l' := ⟨h.ascending, h.stable.trans hl⟩

theorem stable_cross (hgt : Weak gt) (h : ∀ y ∈ ys, equiv gt x y = false) :
    Stable gt (x :: ys) (ys ++ [x]) := by
  refine ⟨(List.perm_append_singleton x ys).symm, fun a => ?_⟩
  rw [List.filter_append, List.filter_cons, List.filter_singleton]
  by_cases hx : equiv gt a x = true
  · have hys : ys.filter (equiv gt a) = [] := by
      rw [List.filter_eq_nil_iff]
      intro y hy
      rw [equiv_separates hgt (h y hy) hx]
      exact Bool.false_ne_true
    rw [if_pos hx, hys, hx]
    rfl
  · rw [if_neg hx, Bool.eq_false_iff.2 hx]
    exact (List.append_nil _).symm

theorem stable_reverse (hgt : Weak gt) (h : xs.Pairwise fun a b => gt a b = true) :
    Stable gt xs.reverse xs := by
  induction xs with
  | nil => exact Stable.refl []
  | cons x xs ih =>
    obtain ⟨hx, hxs⟩ := List.pairwise_cons.1 h
    rw [List.reverse_cons]
    have hcross := stable_cross hgt fun y hy => not_equiv_of_gt' (hx y hy)
    exact ((ih hxs).append (Stable.refl [x])).trans hcross.symm

theorem ascending_merge (hgt : Weak gt) (hxs : Ascending gt xs) (hys : Ascending gt ys) :
    Ascending gt (xs.merge ys fun a b => !gt a b) := by
  have hle : ∀ {zs : List α}, Ascending gt zs ↔ zs.Pairwise fun a b => (!gt a b) = true := by
    intro zs
    simp [Ascending, Bool.not_eq_true']
  rw [hle] at *
  refine List.pairwise_merge ?_ ?_ xs ys hxs hys
  · intro a b c hab hbc
    rw [Bool.not_eq_true'] at *
    exact not_gt_trans hgt hab hbc
  · intro a b
    cases h : gt a b with
    | false => rfl
    | true => rw [gt_asymm hgt h]; rfl

/-- Merging is stable when the elements of the first list come first. -/
theorem stable_merge (hgt : Weak gt) (hxs : Ascending gt xs) :
    Stable gt (xs.merge ys fun a b => !gt a b) (xs ++ ys) := by
  induction xs generalizing ys with
  | nil =>
    rw [List.nil_merge]
    exact Stable.refl ys
  | cons x xs ih =>
    obtain ⟨hx, hxs⟩ := List.pairwise_cons.1 hxs
    induction ys with
    | nil =>
      rw [List.merge_right, List.append_nil]
      exact Stable.refl _
    | cons y ys ihy =>
      cases hxy : gt x y with
      | false =>
        rw [List.cons_merge_cons_pos _ _ _ (by rw [hxy]; rfl)]
        exact (ih hxs).cons x
      | true =>
        -- the second list goes first: its head passes the whole first list
        rw [List.cons_merge_cons_neg _ _ _ (by rw [hxy]; decide)]
        have hgreater : ∀ z ∈ x :: xs, gt z y = true := by
          rintro z (_ | ⟨_, hz⟩)
          · exact hxy
          · rw [← Bool.not_eq_false]
            intro hzy
            have := not_gt_trans hgt (hx z hz) hzy
            rw [hxy] at this
            cases this
        have hcross := (stable_cross hgt fun z hz => not_equiv_of_gt (hgreater z hz)).append (Stable.refl ys)
        rw [List.append_assoc] at hcross
        exact (ihy.cons y).trans hcross

end StableOrder
