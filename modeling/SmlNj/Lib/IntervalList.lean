import Mathlib.Data.List.Pairwise
import Mathlib.Order.SuccPred.Basic

/-!
# Sets of points as lists of closed intervals

A list of pairs over a linear order is read as the union of the closed intervals its members
span.  When every interval runs upwards and a free point lies between any two of them the list is
*separated*, and then it is determined by its points: the first interval starts at the least
point and ends before the first point that is missing.

## Main definitions

* `IntervalList.points` — the points of a list of intervals.
* `IntervalList.Separated` — the intervals are ordered, disjoint and not adjacent.

## Main results

* `Separated.eq_of_points_eq` — separated lists with the same points are equal.
* `end_le_of_subset` — an interval of points of a separated list stays in one of its intervals.
-/

open Order (succ)
open Set (Icc)

namespace IntervalList

variable {α : Type*} [LinearOrder α]

variable {a b k x : α} {l r : List (α × α)}

theorem Icc_union_Icc_of_covBy {c d : α} (hab : a ≤ b) (h : b ⋖ c) (hcd : c ≤ d) :
    Icc a b ∪ Icc c d = Icc a d := by
  ext z
  constructor
  · rintro (hz | hz)
    · exact ⟨hz.1, hz.2.trans (h.le.trans hcd)⟩
    · exact ⟨(hab.trans h.le).trans hz.1, hz.2⟩
  · intro hz
    rcases le_or_gt z b with hzb | hbz
    · exact .inl ⟨hz.1, hzb⟩
    · exact .inr ⟨h.ge_of_gt hbz, hz.2⟩

def points (l : List (α × α)) : Set α := {x | ∃ i ∈ l, i.1 ≤ x ∧ x ≤ i.2}

@[simp] theorem points_nil : points ([] : List (α × α)) = ∅ := by
  simp [points]

@[simp] theorem points_cons (a b : α) (r : List (α × α)) :
    points ((a, b) :: r) = Icc a b ∪ points r := by
  ext x
  simp [points]

@[simp] theorem points_append (l r : List (α × α)) :
    points (l ++ r) = points l ∪ points r := by
  ext x
  simp [points, or_and_right, exists_or]

@[simp] theorem points_reverse (l : List (α × α)) : points l.reverse = points l := by
  ext x
  simp [points]

/-- `k` lies before every interval of the list. -/
def Above (k : α) (l : List (α × α)) : Prop := ∀ i ∈ l, k < i.1

@[simp] theorem above_nil (k : α) : Above k [] := by
  simp [Above]

@[simp] theorem above_cons (k a b : α) (r : List (α × α)) :
    Above k ((a, b) :: r) ↔ k < a ∧ Above k r := by
  simp [Above]

theorem Above.mono {k' : α} (h : Above k l) (hk : k' ≤ k) : Above k' l :=
  fun i hi => hk.trans_lt (h i hi)

theorem Above.lt (h : Above k l) (hx : x ∈ points l) : k < x := by
  obtain ⟨i, hi, hix, -⟩ := hx
  exact (h i hi).trans_le hix

theorem Above.notMem (h : Above k l) (hx : x ≤ k) :
    x ∉ points l := fun hm => absurd (h.lt hm) hx.not_gt

variable [SuccOrder α]

/-- Every interval runs upwards, and past the end of an interval at least one point stays free
before the next one: the list is ordered, its intervals are disjoint and none is adjacent to
another. -/
structure Separated (l : List (α × α)) : Prop where
  le : ∀ i ∈ l, i.1 ≤ i.2
  /-- The successor of an end lies before every later start. -/
  gap : l.Pairwise fun i j => succ i.2 < j.1

@[simp] theorem separated_nil : Separated ([] : List (α × α)) :=
  ⟨by simp, List.Pairwise.nil⟩

@[simp] theorem separated_cons :
    Separated ((a, b) :: r) ↔ a ≤ b ∧ Above (succ b) r ∧ Separated r := by
  constructor
  · intro h
    obtain ⟨hr, hp⟩ := List.pairwise_cons.1 h.gap
    exact ⟨h.le _ List.mem_cons_self, hr, fun i hi => h.le i (List.mem_cons_of_mem _ hi), hp⟩
  · rintro ⟨hab, hr, hs⟩
    exact ⟨List.forall_mem_cons.2 ⟨hab, hs.le⟩, List.pairwise_cons.2 ⟨hr, hs.gap⟩⟩

theorem Separated.append {m : List (α × α)} (hl : Separated l) (hm : Separated m)
    (h : ∀ i ∈ l, Above (succ i.2) m) : Separated (l ++ m) := by
  refine ⟨fun i hi => ?_, List.pairwise_append.2 ⟨hl.gap, hm.gap, h⟩⟩
  rcases List.mem_append.1 hi with hi | hi
  · exact hl.le i hi
  · exact hm.le i hi

theorem above_of_succ (h : Above (succ b) r) : Above b r :=
  h.mono (Order.le_succ b)

theorem Separated.above (h : Separated l) (hk : ∀ x ∈ points l, k < x) : Above k l :=
  fun i hi => hk _ ⟨i, hi, le_rfl, h.le i hi⟩

theorem Separated.points_eq_empty (h : Separated l) : points l = ∅ ↔ l = [] := by
  constructor
  · intro he
    rcases l with _ | ⟨⟨a, b⟩, r⟩
    · rfl
    · have ha : a ∈ points ((a, b) :: r) := by
        simp [(separated_cons.1 h).1]
      simp [he] at ha
  · rintro rfl
    simp

/-- The points of a list from the head's start on: only the head's interval reaches below the
successor of its end. -/
theorem mem_points_cons_of_le (hr : Above (succ b) r) (hx : x ≤ succ b) :
    x ∈ points ((a, b) :: r) ↔ a ≤ x ∧ x ≤ b := by
  simp [hr.notMem hx]

/-- An interval whose points all lie in a separated list, and which starts no later than the end
of the list's head, ends no later than the head. -/
theorem end_le_of_subset {y : α} (hr : Above (succ b) r) (h : Icc x y ⊆ points ((a, b) :: r))
    (hxb : x ≤ b) : y ≤ b := by
  by_contra hlt
  rw [not_le] at hlt
  -- else the point after the head would be one of the list
  have hb : b < succ b := Order.lt_succ_of_not_isMax (not_isMax_of_lt hlt)
  have hs : succ b ∈ points ((a, b) :: r) := h ⟨hxb.trans hb.le, Order.succ_le_of_lt hlt⟩
  exact absurd ((mem_points_cons_of_le hr le_rfl).1 hs).2 hb.not_ge

/-- **The intervals are determined by the points**: separated lists with the same points are
equal. -/
theorem Separated.eq_of_points_eq {m : List (α × α)} (hl : Separated l) (hm : Separated m)
    (h : points l = points m) : l = m := by
  induction l generalizing m with
  | nil => exact (hm.points_eq_empty.1 (by simpa using h.symm)).symm
  | cons i l ih =>
    obtain ⟨a, b⟩ := i
    rcases m with _ | ⟨⟨x, y⟩, m⟩
    · exact absurd (hl.points_eq_empty.1 (by simpa using h)) (by simp)
    obtain ⟨hab, hlr, hls⟩ := separated_cons.1 hl
    obtain ⟨hxy, hmr, hms⟩ := separated_cons.1 hm
    -- the starts are the least points
    have hle : ∀ {p q r s : α} {t u : List (α × α)}, p ≤ q → r ≤ s → Above (succ s) u →
        points ((p, q) :: t) = points ((r, s) :: u) → r ≤ p := by
      intro p q r s t u hpq hrs hu he
      have hp : p ∈ points ((r, s) :: u) := he ▸ by simp [hpq]
      rw [points_cons] at hp
      rcases hp with hp | hp
      · exact hp.1
      · exact (hrs.trans (Order.le_succ s)).trans (hu.lt hp).le
    have hax : a = x := le_antisymm (hle hxy hab hlr h.symm) (hle hab hxy hmr h)
    subst hax
    -- and each end is where the points first break off
    have hsub : Icc a b ⊆ points ((a, y) :: m) := by
      rw [← h, points_cons]
      exact Set.subset_union_left
    have hsub' : Icc a y ⊆ points ((a, b) :: l) := by
      rw [h, points_cons]
      exact Set.subset_union_left
    have hyb : y ≤ b := end_le_of_subset hlr hsub' hab
    have hby : b ≤ y := end_le_of_subset hmr hsub hxy
    have hb : b = y := le_antisymm hby hyb
    subst hb
    have hrest : points l = points m := by
      ext z
      have hz := Set.ext_iff.1 h z
      rw [points_cons, points_cons] at hz
      constructor
      · intro hzl
        exact (hz.1 (.inr hzl)).resolve_left fun hi => (above_of_succ hlr).notMem hi.2 hzl
      · intro hzm
        exact (hz.2 (.inr hzm)).resolve_left fun hi => (above_of_succ hmr).notMem hi.2 hzm
    rw [ih hls hms hrest]

/-! ### The runs of a set -/

/-- The interval from `a` to `b` is a run of a set of points: its points are in the set, and it
can be extended neither downwards nor upwards. -/
structure IsRun (S : Set α) (a b : α) : Prop where
  le : a ≤ b
  /-- The points of the interval are in the set. -/
  subset : Icc a b ⊆ S
  /-- An interval that starts earlier leaves the set. -/
  start : ∀ x, x < a → ¬Icc x b ⊆ S
  /-- An interval that ends later leaves the set. -/
  last : ∀ y, b < y → ¬Icc a y ⊆ S

theorem Separated.trichotomy (h : Separated l) {i j : α × α} (hi : i ∈ l) (hj : j ∈ l) :
    i = j ∨ succ i.2 < j.1 ∨ succ j.2 < i.1 := by
  let apart (i j : α × α) : Prop := succ i.2 < j.1 ∨ succ j.2 < i.1
  have : Std.Symm apart := ⟨fun _ _ h => h.symm⟩
  have hapart : l.Pairwise apart := h.gap.imp fun h => .inl h
  by_cases hij : i = j
  · exact .inl hij
  · exact .inr (hapart.forall hi hj hij)

theorem Separated.succ_notMem (h : Separated l) {i : α × α} (hi : i ∈ l) {y : α} (hy : i.2 < y) :
    succ i.2 ∉ points l := by
  have hs : i.2 < succ i.2 := Order.lt_succ_of_not_isMax (not_isMax_of_lt hy)
  rintro ⟨j, hj, hji, hij⟩
  rcases h.trichotomy hi hj with rfl | h' | h'
  · exact absurd hij hs.not_ge
  · exact absurd hji h'.not_ge
  · have : j.2 < i.2 := ((Order.le_succ j.2).trans_lt h').trans_le (h.le i hi)
    exact absurd hij (this.trans hs).not_ge

/-- **The intervals of a separated list are the runs of its points.** -/
theorem Separated.mem_iff (h : Separated l) : (a, b) ∈ l ↔ IsRun (points l) a b := by
  have hsub : ∀ i ∈ l, Icc i.1 i.2 ⊆ points l := fun i hi x hx => ⟨i, hi, hx.1, hx.2⟩
  constructor
  · intro hi
    have hab : a ≤ b := h.le _ hi
    refine ⟨hab, hsub _ hi, fun x hx hsub => ?_, fun y hy hsub => ?_⟩
    · -- the interval of an earlier point ends, and leaves a point free, before this one
      obtain ⟨j, hj, hjx, hxj⟩ := hsub ⟨le_rfl, hx.le.trans hab⟩
      rcases h.trichotomy hi hj with rfl | h' | h'
      · exact absurd hjx hx.not_ge
      · exact absurd (hjx.trans hx.le) ((hab.trans (Order.le_succ b)).trans_lt h').not_ge
      · refine h.succ_notMem hj ((Order.le_succ j.2).trans_lt h') (hsub ⟨?_, h'.le.trans hab⟩)
        exact hxj.trans (Order.le_succ _)
    · exact h.succ_notMem hi hy
        (hsub ⟨hab.trans (Order.le_succ b), Order.succ_le_of_lt hy⟩)
  · rintro ⟨hab, hsubset, hstart, hlast⟩
    obtain ⟨⟨x, y⟩, hj, hxa, hay⟩ := hsubset ⟨le_rfl, hab⟩
    have hby : b ≤ y := by
      by_contra hyb
      rw [not_le] at hyb
      exact h.succ_notMem hj hyb
        (hsubset ⟨hay.trans (Order.le_succ y), Order.succ_le_of_lt hyb⟩)
    have hax : a = x := by
      refine le_antisymm (not_lt.1 fun hlt => ?_) hxa
      exact hstart x hlt ((Set.Icc_subset_Icc le_rfl hby).trans (hsub _ hj))
    have hyb : y = b := by
      refine le_antisymm (not_lt.1 fun hlt => ?_) hby
      exact hlast y hlt ((Set.Icc_subset_Icc hxa le_rfl).trans (hsub _ hj))
    rwa [hax, ← hyb]

end IntervalList
