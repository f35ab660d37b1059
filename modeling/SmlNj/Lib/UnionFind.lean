import Mathlib.Order.Fin.Basic
import Mathlib.Order.MinMax

/-!
# Union-find with least roots

Disjoint sets of the numbers below `n`, kept as a forest in which an element points to its parent
and a root to itself.  No parent is larger than its child, so the walk to the root ends, and of two
roots the larger one is put below the other: the root of a set is its least element.

## Main definitions

* `Forest` — a forest whose parents are not larger than their children.
* `Forest.ascend`, `Forest.union` — the root above an element, and the union of two sets.
* `Forest.Represents` — the sets are the classes of the equivalence that a relation generates.

## Main results

* `Forest.ascend_union` — the root of a union is the smaller one of the two roots.
* `Forest.Represents.union` — a union adds one pair to the relation.
-/

namespace UnionFind

open Relation

/-- A forest on the numbers below `n`. -/
structure Forest (n : ℕ) where
  parent : Fin n → Fin n
  parent_le : ∀ u, parent u ≤ u

namespace Forest

variable {n : ℕ}

def discrete (n : ℕ) : Forest n := ⟨id, fun u => le_refl u⟩

/-- **The root above an element.** -/
def ascend (t : Forest n) (u : Fin n) : Fin n :=
  if t.parent u = u then u else ascend t (t.parent u)
termination_by u
decreasing_by exact Fin.lt_def.mp (lt_of_le_of_ne (t.parent_le u) ‹_›)

/-- The forest in which `r` is a child of `s`. -/
def link (t : Forest n) (r s : Fin n) (h : s ≤ r) : Forest n where
  parent := Function.update t.parent r s
  parent_le u := by
    by_cases hu : u = r
    · rw [hu, Function.update_self]
      exact h
    · rw [Function.update_of_ne hu]
      exact t.parent_le u

/-- **The union of two sets**: the larger one of their roots becomes a child of the other. -/
def union (t : Forest n) (a b : Fin n) : Forest n :=
  if t.ascend a = t.ascend b then t
  else if h : t.ascend a < t.ascend b then t.link (t.ascend b) (t.ascend a) h.le
  else t.link (t.ascend a) (t.ascend b) (not_lt.mp h)

variable {t : Forest n} {u v r s : Fin n}

theorem ascend_of_root (h : t.parent u = u) : t.ascend u = u := by
  rw [ascend, if_pos h]

theorem ascend_of_ne (h : t.parent u ≠ u) : t.ascend u = t.ascend (t.parent u) := by
  rw [ascend, if_neg h]

theorem ascend_spec (t : Forest n) (u : Fin n) :
    t.parent (t.ascend u) = t.ascend u ∧ t.ascend u ≤ u := by
  induction u using WellFoundedLT.induction with
  | ind u ih =>
    by_cases h : t.parent u = u
    · rw [ascend_of_root h]
      exact ⟨h, le_refl u⟩
    · rw [ascend_of_ne h]
      obtain ⟨hroot, hle⟩ := ih _ (lt_of_le_of_ne (t.parent_le u) h)
      exact ⟨hroot, hle.trans (t.parent_le u)⟩

theorem parent_ascend (t : Forest n) (u : Fin n) : t.parent (t.ascend u) = t.ascend u :=
  (t.ascend_spec u).1

theorem ascend_le (t : Forest n) (u : Fin n) : t.ascend u ≤ u := (t.ascend_spec u).2

@[simp] theorem ascend_discrete (u : Fin n) : (discrete n).ascend u = u :=
  ascend_of_root (t := discrete n) rfl

theorem ascend_link (hr : t.parent r = r) (hs : t.parent s = s) (h : s < r) (u : Fin n) :
    (t.link r s h.le).ascend u = if t.ascend u = r then s else t.ascend u := by
  have hparent : ∀ x, x ≠ r → (t.link r s h.le).parent x = t.parent x := fun x hx =>
    Function.update_of_ne hx ..
  have hroot : (t.link r s h.le).ascend s = s := ascend_of_root ((hparent s h.ne).trans hs)
  induction u using WellFoundedLT.induction with
  | ind u ih =>
    by_cases hu : u = r
    · have hlink : (t.link r s h.le).parent u = s := by
        rw [hu]
        exact Function.update_self ..
      have hne : (t.link r s h.le).parent u ≠ u := by
        rw [hlink, hu]
        exact h.ne
      rw [ascend_of_ne hne, hlink, hroot, hu, ascend_of_root hr, if_pos rfl]
    · by_cases hp : t.parent u = u
      · rw [ascend_of_root ((hparent u hu).trans hp), ascend_of_root hp, if_neg hu]
      · have hne : (t.link r s h.le).parent u ≠ u := by rwa [hparent u hu]
        rw [ascend_of_ne hne, ascend_of_ne hp, hparent u hu]
        exact ih _ (lt_of_le_of_ne (t.parent_le u) hp)

/-- **The root of the union of two sets is the smaller one of their roots.** -/
theorem ascend_union (t : Forest n) (a b u : Fin n) :
    (t.union a b).ascend u =
      if t.ascend u = t.ascend a ∨ t.ascend u = t.ascend b then min (t.ascend a) (t.ascend b)
      else t.ascend u := by
  have ha := t.parent_ascend a
  have hb := t.parent_ascend b
  unfold union
  split
  · next heq =>
    rw [heq, min_self]
    split_ifs with hu
    · exact hu.elim id id
    · rfl
  · next hne =>
    split
    · next hlt =>
      rw [ascend_link hb ha hlt, min_eq_left hlt.le]
      by_cases hub : t.ascend u = t.ascend b
      · rw [if_pos hub, if_pos (.inr hub)]
      · rw [if_neg hub]
        split_ifs with hu
        · exact hu.resolve_right hub
        · rfl
    · next hlt =>
      have hlt' : t.ascend b < t.ascend a := lt_of_le_of_ne (not_lt.mp hlt) (Ne.symm hne)
      rw [ascend_link ha hb hlt', min_eq_right hlt'.le]
      by_cases hua : t.ascend u = t.ascend a
      · rw [if_pos hua, if_pos (.inl hua)]
      · rw [if_neg hua]
        split_ifs with hu
        · exact hu.resolve_left hua
        · rfl

theorem ascend_union_eq_iff (t : Forest n) (a b u v : Fin n) :
    (t.union a b).ascend u = (t.union a b).ascend v ↔ t.ascend u = t.ascend v ∨
      ((t.ascend u = t.ascend a ∨ t.ascend u = t.ascend b) ∧
        (t.ascend v = t.ascend a ∨ t.ascend v = t.ascend b)) := by
  have hmin : min (t.ascend a) (t.ascend b) = t.ascend a ∨
      min (t.ascend a) (t.ascend b) = t.ascend b := min_choice ..
  rw [ascend_union, ascend_union]
  split_ifs with hu hv hv
  · exact ⟨fun _ => .inr ⟨hu, hv⟩, fun _ => rfl⟩
  · refine ⟨fun h => absurd (hmin.imp (h.symm.trans ·) (h.symm.trans ·)) hv, ?_⟩
    rintro (h | ⟨-, h⟩)
    · exact absurd (hu.imp (h.symm.trans ·) (h.symm.trans ·)) hv
    · exact absurd h hv
  · refine ⟨fun h => absurd (hmin.imp (h.trans ·) (h.trans ·)) hu, ?_⟩
    rintro (h | ⟨h, -⟩)
    · exact absurd (hv.imp (h.trans ·) (h.trans ·)) hu
    · exact absurd h hu
  · exact ⟨.inl, fun h => h.resolve_right fun h' => hu h'.1⟩

/-- The sets of a forest are the classes of the equivalence that a relation generates. -/
def Represents (t : Forest n) (R : Fin n → Fin n → Prop) : Prop :=
  ∀ u v, t.ascend u = t.ascend v ↔ EqvGen R u v

variable {R R' : Fin n → Fin n → Prop}

theorem represents_discrete : (discrete n).Represents fun _ _ => False := by
  intro u v
  rw [ascend_discrete, ascend_discrete]
  constructor
  · rintro rfl
    exact .refl u
  · intro h
    induction h with
    | rel _ _ h => exact h.elim
    | refl => rfl
    | symm _ _ _ ih => exact ih.symm
    | trans _ _ _ _ _ ih ih' => exact ih.trans ih'

theorem Represents.congr (h : t.Represents R) (hR : ∀ u v, R u v ↔ R' u v) : t.Represents R' := by
  have he : R = R' := funext fun u => funext fun v => propext (hR u v)
  exact he ▸ h

/-- **A union adds one pair to the relation.** -/
theorem Represents.union (h : t.Represents R) (a b : Fin n) :
    (t.union a b).Represents fun u v => R u v ∨ (u = a ∧ v = b) := by
  have hmono : ∀ {u v}, t.ascend u = t.ascend v →
      EqvGen (fun u v => R u v ∨ (u = a ∧ v = b)) u v := fun huv =>
    ((h _ _).mp huv).mono fun _ _ => .inl
  have hab : EqvGen (fun u v => R u v ∨ (u = a ∧ v = b)) a b := .rel _ _ (.inr ⟨rfl, rfl⟩)
  intro u v
  rw [ascend_union_eq_iff]
  constructor
  · rintro (huv | ⟨hu | hu, hv | hv⟩)
    · exact hmono huv
    · exact hmono (hu.trans hv.symm)
    · exact .trans _ _ _ (hmono hu) (.trans _ _ _ hab (hmono hv.symm))
    · exact .trans _ _ _ (hmono hu) (.trans _ _ _ (.symm _ _ hab) (hmono hv.symm))
    · exact hmono (hu.trans hv.symm)
  · rw [← ascend_union_eq_iff]
    intro huv
    induction huv with
    | rel x y hxy =>
      rw [ascend_union_eq_iff]
      rcases hxy with hxy | ⟨rfl, rfl⟩
      · exact .inl ((h x y).mpr (.rel _ _ hxy))
      · exact .inr ⟨.inl rfl, .inr rfl⟩
    | refl => rfl
    | symm _ _ _ ih => exact ih.symm
    | trans _ _ _ _ _ ih ih' => exact ih.trans ih'

end Forest

end UnionFind
