import SmlNj.Library.IntervalSetOps

/-!
# The union and the complement of interval sets

The merge of two lists of intervals adds their points in every case.  It leaves out one position
of two intervals: when an interval of the first list starts before one of the second list, reaches
into it, and ends before it, both intervals are emitted, and they overlap.

The complement is the list of the gaps.  The loop emits the last gap only when it has more than
one point, so the complement misses the greatest point of the domain when only that point follows
the intervals.

## Main definitions

* `Straddles` — an interval of the first list reaches into one of the second list from below.
* `gaps` — the gaps of a list of intervals, as the loop emits them.

## Main results

* `points_join` — the points of the merged list.
* `separated_join_iff` — the merged list is in its form exactly when no interval straddles.
* `implements_union_iff` — when the union is right.
* `points_complement` — the points of the complement.
* `implements_complement_iff`, `implements_difference_iff` — when the complement and the
  difference are right.
-/

open Order (succ)
open Set (Icc)
open IntervalList

namespace SmlNj.IntervalSet

variable {Point : Type*} [LinearOrder Point]

/-- The first interval starts before the second one, reaches into it, and ends before it. -/
def Straddle (i j : Point × Point) : Prop := i.1 < j.1 ∧ j.1 ≤ i.2 ∧ i.2 < j.2

/-- An interval of the first list starts before one of the second list, reaches into it, and ends
before it. -/
def Straddles (l m : List (Point × Point)) : Prop := ∃ i ∈ l, ∃ j ∈ m, Straddle i j

theorem straddles_cons_left (i : Point × Point) (l m : List (Point × Point)) :
    Straddles (i :: l) m ↔ (∃ j ∈ m, Straddle i j) ∨ Straddles l m := by
  simp [Straddles, exists_or]

theorem straddles_cons_right (j : Point × Point) (l m : List (Point × Point)) :
    Straddles l (j :: m) ↔ (∃ i ∈ l, Straddle i j) ∨ Straddles l m := by
  simp [Straddles, exists_or, and_or_left]

theorem not_straddle_of_above {i : Point × Point} {b : Point} {m : List (Point × Point)}
    (hm : Above b m) (hi : i.2 ≤ b) : ¬∃ j ∈ m, Straddle i j := by
  rintro ⟨j, hj, -, hji, -⟩
  exact absurd (hji.trans hi) (hm j hj).not_ge

theorem not_straddle_of_below {j : Point × Point} {b : Point} {l : List (Point × Point)}
    (hl : Above b l) (hj : j.1 ≤ b) : ¬∃ i ∈ l, Straddle i j := by
  rintro ⟨i, hi, hij, -⟩
  exact absurd (hij.trans_le hj) (hl i hi).not_gt

section Drop

variable {i j : Point × Point} {l m : List (Point × Point)}

theorem straddles_drop_right (hij : ¬Straddle i j) (hl : ¬∃ i' ∈ l, Straddle i' j) :
    Straddles (i :: l) (j :: m) ↔ Straddles (i :: l) m := by
  rw [straddles_cons_right, or_iff_right]
  rintro ⟨i', hi', h⟩
  rcases List.mem_cons.1 hi' with rfl | hi'
  · exact hij h
  · exact hl ⟨i', hi', h⟩

theorem straddles_drop_left (hij : ¬Straddle i j) (hm : ¬∃ j' ∈ m, Straddle i j') :
    Straddles (i :: l) (j :: m) ↔ Straddles l (j :: m) := by
  rw [straddles_cons_left, or_iff_right]
  rintro ⟨j', hj', h⟩
  rcases List.mem_cons.1 hj' with rfl | hj'
  · exact hij h
  · exact hm ⟨j', hj', h⟩

theorem straddles_drop_both (hij : ¬Straddle i j) (hl : ¬∃ i' ∈ l, Straddle i' j)
    (hm : ¬∃ j' ∈ m, Straddle i j') : Straddles (i :: l) (j :: m) ↔ Straddles l m := by
  rw [straddles_drop_left hij hm, straddles_cons_right, or_iff_right hl]

end Drop

variable [IntervalDomain Point]

section Points

variable {a₁ b₁ a₂ b₂ : Point} {r₁ r₂ : List (Point × Point)}

omit [IntervalDomain Point] in
theorem points_union_heads {E : Set Point} (hE : Icc a₁ b₁ ∪ Icc a₂ b₂ = E) :
    points ((a₁, b₁) :: r₁) ∪ points ((a₂, b₂) :: r₂) = E ∪ (points r₁ ∪ points r₂) := by
  rw [points_cons, points_cons, ← hE]
  ac_rfl

omit [IntervalDomain Point] in
theorem Icc_union_eq_left (ha : a₁ ≤ a₂) (hb : b₂ ≤ b₁) : Icc a₁ b₁ ∪ Icc a₂ b₂ = Icc a₁ b₁ :=
  Set.union_eq_left.2 (Set.Icc_subset_Icc ha hb)

omit [IntervalDomain Point] in
theorem Icc_union_eq_right (ha : a₂ ≤ a₁) (hb : b₁ ≤ b₂) : Icc a₁ b₁ ∪ Icc a₂ b₂ = Icc a₂ b₂ :=
  Set.union_eq_right.2 (Set.Icc_subset_Icc ha hb)

/-- **The merge adds the points** of both lists, whatever the positions of the intervals. -/
theorem points_join {l m : List (Point × Point)} (hl : ∀ i ∈ l, i.1 ≤ i.2)
    (hm : ∀ i ∈ m, i.1 ≤ i.2) : points (union.join l m) = points l ∪ points m := by
  fun_induction union.join l m with
  | case1 m => simp
  | case2 l h => simp
  | case3 a₁ b₁ r₁ a₂ b₂ r₂ ha hb hs ih =>
    obtain ⟨h₁, hl⟩ := List.forall_mem_cons.1 hl
    obtain ⟨h₂, hm⟩ := List.forall_mem_cons.1 hm
    have h : a₁ ≤ b₂ := (compare_lt_iff_lt.1 ha).le.trans h₂
    rw [ih hl (List.forall_mem_cons.2 ⟨h, hm⟩), points_cons,
      points_union_heads (Icc_union_Icc_of_covBy h₁ ((isSucc_iff _ _).1 hs) h₂)]
    ac_rfl
  | case4 a₁ b₁ r₁ a₂ b₂ r₂ ha hb hs ih =>
    rw [points_cons, ih (List.forall_mem_cons.1 hl).2 hm, points_cons a₁]
    ac_rfl
  | case5 a₁ b₁ r₁ a₂ b₂ r₂ ha hb ih | case8 a₁ b₁ r₁ a₂ b₂ r₂ ha hb ih =>
    have ha : a₁ ≤ a₂ := compare_le_iff_le.1 (by simp [ha])
    rw [points_cons, ih (List.forall_mem_cons.1 hl).2 (List.forall_mem_cons.1 hm).2,
      points_union_heads (Icc_union_eq_left ha (compare_eq_iff_eq.1 hb).ge)]
  | case6 a₁ b₁ r₁ a₂ b₂ r₂ ha hb ih | case9 a₁ b₁ r₁ a₂ b₂ r₂ ha hb ih =>
    have ha : a₁ ≤ a₂ := compare_le_iff_le.1 (by simp [ha])
    rw [points_union_heads (Icc_union_eq_left ha (compare_gt_iff_gt.1 hb).le),
      ih hl (List.forall_mem_cons.1 hm).2, points_cons]
    ac_rfl
  | case7 a₁ b₁ r₁ a₂ b₂ r₂ ha hb ih | case10 a₁ b₁ r₁ a₂ b₂ r₂ ha _ hb ih =>
    have ha : a₂ ≤ a₁ := compare_ge_iff_ge.1 (by simp [ha])
    rw [points_union_heads (Icc_union_eq_right ha (compare_lt_iff_lt.1 hb).le),
      ih (List.forall_mem_cons.1 hl).2 hm, points_cons]
    ac_rfl
  | case11 a₁ b₁ r₁ a₂ b₂ r₂ ha _ hb ih =>
    rw [points_cons, ih (List.forall_mem_cons.1 hl).2 (List.forall_mem_cons.1 hm).2,
      points_union_heads (Icc_union_eq_right (compare_gt_iff_gt.1 ha).le
        (compare_eq_iff_eq.1 hb).le)]
  | case12 a₁ b₁ r₁ a₂ b₂ r₂ ha hab hb ih | case13 a₁ b₁ r₁ a₂ b₂ r₂ ha hab ih =>
    obtain ⟨h₁, hl⟩ := List.forall_mem_cons.1 hl
    obtain ⟨h₂, hm⟩ := List.forall_mem_cons.1 hm
    have ha : a₂ ≤ a₁ := (compare_gt_iff_gt.1 ha).le
    have hab' : a₁ ≤ b₂ := compare_le_iff_le.1 (by simp [hab])
    have hE : Icc a₁ b₁ ∪ Icc a₂ b₂ = Icc a₂ b₁ := by
      rw [Set.Icc_union_Icc' (ha.trans h₁) hab', min_eq_right ha, max_eq_left]
      first
        | exact (compare_gt_iff_gt.1 hb).le
        | exact (compare_eq_iff_eq.1 hab).ge.trans h₁
    rw [ih (List.forall_mem_cons.2 ⟨ha.trans h₁, hl⟩) hm, points_cons, points_union_heads hE]
    ac_rfl
  | case14 a₁ b₁ r₁ a₂ b₂ r₂ ha hab hs ih =>
    obtain ⟨h₁, hl⟩ := List.forall_mem_cons.1 hl
    obtain ⟨h₂, hm⟩ := List.forall_mem_cons.1 hm
    have ha : a₂ ≤ a₁ := (compare_gt_iff_gt.1 ha).le
    have hE : Icc a₁ b₁ ∪ Icc a₂ b₂ = Icc a₂ b₁ := by
      rw [Set.union_comm, Icc_union_Icc_of_covBy h₂ ((isSucc_iff _ _).1 hs) h₁]
    rw [ih (List.forall_mem_cons.2 ⟨ha.trans h₁, hl⟩) hm, points_cons, points_union_heads hE]
    ac_rfl
  | case15 a₁ b₁ r₁ a₂ b₂ r₂ ha hab hs ih =>
    rw [points_cons, ih hl (List.forall_mem_cons.1 hm).2, points_cons a₂]
    ac_rfl

end Points

section Form

variable {a b : Point} {l m n : List (Point × Point)}

theorem separated_cons_join (hab : a ≤ b) (hl : Separated l) (hm : Separated m)
    (hbl : Above (succ b) l) (hbm : Above (succ b) m) :
    Separated ((a, b) :: union.join l m) ↔ Separated (union.join l m) := by
  rw [separated_cons, and_iff_right hab, and_iff_right_iff_imp]
  refine fun h => h.above fun x hx => ?_
  rw [points_join hl.le hm.le] at hx
  exact hx.elim hbl.lt hbm.lt

end Form

theorem straddles_same_end {a₁ a₂ b : Point} {r₁ r₂ : List (Point × Point)}
    (hr₁ : Above (succ b) r₁) (hr₂ : Above (succ b) r₂) (h₂ : a₂ ≤ b) :
    Straddles ((a₁, b) :: r₁) ((a₂, b) :: r₂) ↔ Straddles r₁ r₂ := by
  refine straddles_drop_both (fun h => lt_irrefl _ h.2.2) ?_ ?_
  · exact not_straddle_of_below hr₁ (h₂.trans (Order.le_succ _))
  · exact not_straddle_of_above hr₂ (Order.le_succ b)

/-- The first list's head may be extended downwards, to a start at or before the end of the
dropped head of the second list, without a change to what it straddles there. -/
theorem straddles_extend {a₁ b₁ a₂ b₂ : Point} {r₁ r₂ : List (Point × Point)}
    (hr₂ : Above (succ b₂) r₂) (ha : a₂ ≤ a₁) (hab : a₁ ≤ succ b₂) (h₁ : a₁ ≤ b₁)
    (hr₁ : Above (succ b₁) r₁) :
    Straddles ((a₁, b₁) :: r₁) ((a₂, b₂) :: r₂) ↔ Straddles ((a₂, b₁) :: r₁) r₂ := by
  have hij : ¬Straddle (a₁, b₁) (a₂, b₂) := fun h => absurd h.1 ha.not_gt
  have hl : ¬∃ i ∈ r₁, Straddle i (a₂, b₂) :=
    not_straddle_of_below hr₁ (ha.trans (h₁.trans (Order.le_succ _)))
  rw [straddles_drop_right hij hl, straddles_cons_left, straddles_cons_left]
  refine or_congr_left (exists_congr fun j => and_congr_right fun hj => ?_)
  have hj : a₁ < j.1 := hab.trans_lt (hr₂ j hj)
  simp [Straddle, hj, ha.trans_lt hj]

/-- **The merged list is in its form** exactly when no interval of the first list reaches into one
of the second list from below. -/
theorem separated_join_iff {l m : List (Point × Point)} (hl : Separated l) (hm : Separated m) :
    Separated (union.join l m) ↔ ¬Straddles l m := by
  fun_induction union.join l m with
  | case1 m => simp [Straddles, hm]
  | case2 l h => simp [Straddles, hl]
  | case3 a₁ b₁ r₁ a₂ b₂ r₂ ha hb hs ih =>
    obtain ⟨h₁, hr₁, hs₁⟩ := separated_cons.1 hl
    obtain ⟨h₂, hr₂, hs₂⟩ := separated_cons.1 hm
    have ha : a₁ < a₂ := compare_lt_iff_lt.1 ha
    have hb : b₁ < b₂ := compare_lt_iff_lt.1 hb
    have hs : b₁ ⋖ a₂ := (isSucc_iff _ _).1 hs
    have hm' := not_straddle_of_above (i := (a₁, b₁)) hr₂ (hb.le.trans (Order.le_succ _))
    rw [ih hs₁ (separated_cons.2 ⟨ha.le.trans h₂, hr₂, hs₂⟩),
      straddles_drop_both (fun h => absurd h.2.1 hs.lt.not_ge)
        (not_straddle_of_below hr₁ hs.succ_eq.ge) hm',
      straddles_cons_right, or_iff_right]
    exact not_straddle_of_below hr₁ (h₁.trans (Order.le_succ _))
  | case4 a₁ b₁ r₁ a₂ b₂ r₂ ha hb hs ih =>
    obtain ⟨h₁, hr₁, hs₁⟩ := separated_cons.1 hl
    obtain ⟨h₂, hr₂, -⟩ := separated_cons.1 hm
    have ha : a₁ < a₂ := compare_lt_iff_lt.1 ha
    have hb : b₁ < b₂ := compare_lt_iff_lt.1 hb
    rcases lt_or_ge b₁ a₂ with hba | hab
    · -- the intervals are apart
      have hba : succ b₁ < a₂ := succ_lt_of_isSucc_false hba hs
      have habove : Above (succ b₁) ((a₂, b₂) :: r₂) := by
        refine (above_cons ..).2 ⟨hba, hr₂.mono ?_⟩
        exact hba.le.trans (h₂.trans (Order.le_succ _))
      rw [separated_cons_join h₁ hs₁ hm hr₁ habove, ih hs₁ hm, straddles_cons_left,
        or_iff_right (not_straddle_of_above habove (Order.le_succ _))]
    · -- the first interval reaches into the second one, and both are emitted
      refine iff_of_false (fun h => ?_) (not_not.2
        ⟨(a₁, b₁), List.mem_cons_self, (a₂, b₂), List.mem_cons_self, ha, hab, hb⟩)
      have hmem : a₂ ∈ points (union.join r₁ ((a₂, b₂) :: r₂)) := by
        rw [points_join hs₁.le hm.le]
        simp [h₂]
      exact absurd ((above_of_succ (separated_cons.1 h).2.1).lt hmem) hab.not_gt
  | case5 a₁ b₁ r₁ a₂ b₂ r₂ ha hb ih | case8 a₁ b₁ r₁ a₂ b₂ r₂ ha hb ih =>
    obtain ⟨h₁, hr₁, hs₁⟩ := separated_cons.1 hl
    obtain ⟨h₂, hr₂, hs₂⟩ := separated_cons.1 hm
    obtain rfl := compare_eq_iff_eq.1 hb
    rw [separated_cons_join h₁ hs₁ hs₂ hr₁ hr₂, ih hs₁ hs₂, straddles_same_end hr₁ hr₂ h₂]
  | case6 a₁ b₁ r₁ a₂ b₂ r₂ ha hb ih | case9 a₁ b₁ r₁ a₂ b₂ r₂ ha hb ih =>
    obtain ⟨-, hr₁, -⟩ := separated_cons.1 hl
    obtain ⟨h₂, -, hs₂⟩ := separated_cons.1 hm
    have hb : b₂ < b₁ := compare_gt_iff_gt.1 hb
    rw [ih hl hs₂, straddles_drop_right (fun h => absurd h.2.2 hb.not_gt)
      (not_straddle_of_below hr₁ ((h₂.trans hb.le).trans (Order.le_succ _)))]
  | case7 a₁ b₁ r₁ a₂ b₂ r₂ ha hb ih | case10 a₁ b₁ r₁ a₂ b₂ r₂ ha _ hb ih =>
    obtain ⟨-, -, hs₁⟩ := separated_cons.1 hl
    obtain ⟨-, hr₂, -⟩ := separated_cons.1 hm
    have ha : a₂ ≤ a₁ := compare_ge_iff_ge.1 (by simp [ha])
    have hb : b₁ < b₂ := compare_lt_iff_lt.1 hb
    rw [ih hs₁ hm, straddles_drop_left (fun h => absurd h.1 ha.not_gt)
      (not_straddle_of_above hr₂ (hb.le.trans (Order.le_succ _)))]
  | case11 a₁ b₁ r₁ a₂ b₂ r₂ ha _ hb ih =>
    obtain ⟨h₁, hr₁, hs₁⟩ := separated_cons.1 hl
    obtain ⟨h₂, hr₂, hs₂⟩ := separated_cons.1 hm
    obtain rfl := compare_eq_iff_eq.1 hb
    rw [separated_cons_join h₂ hs₁ hs₂ hr₁ hr₂, ih hs₁ hs₂, straddles_same_end hr₁ hr₂ h₂]
  | case12 a₁ b₁ r₁ a₂ b₂ r₂ ha hab hb ih | case13 a₁ b₁ r₁ a₂ b₂ r₂ ha hab ih =>
    obtain ⟨h₁, hr₁, hs₁⟩ := separated_cons.1 hl
    obtain ⟨-, hr₂, hs₂⟩ := separated_cons.1 hm
    have ha : a₂ < a₁ := compare_gt_iff_gt.1 ha
    have hab : a₁ ≤ b₂ := compare_le_iff_le.1 (by simp [hab])
    rw [ih (separated_cons.2 ⟨ha.le.trans h₁, hr₁, hs₁⟩) hs₂,
      straddles_extend hr₂ ha.le (hab.trans (Order.le_succ _)) h₁ hr₁]
  | case14 a₁ b₁ r₁ a₂ b₂ r₂ ha hab hs ih =>
    obtain ⟨h₁, hr₁, hs₁⟩ := separated_cons.1 hl
    obtain ⟨-, hr₂, hs₂⟩ := separated_cons.1 hm
    have ha : a₂ < a₁ := compare_gt_iff_gt.1 ha
    have hs : b₂ ⋖ a₁ := (isSucc_iff _ _).1 hs
    rw [ih (separated_cons.2 ⟨ha.le.trans h₁, hr₁, hs₁⟩) hs₂,
      straddles_extend hr₂ ha.le hs.succ_eq.ge h₁ hr₁]
  | case15 a₁ b₁ r₁ a₂ b₂ r₂ ha hab hs ih =>
    obtain ⟨h₁, hr₁, hs₁⟩ := separated_cons.1 hl
    obtain ⟨h₂, hr₂, hs₂⟩ := separated_cons.1 hm
    have ha : a₂ < a₁ := compare_gt_iff_gt.1 ha
    have hba : succ b₂ < a₁ := succ_lt_of_isSucc_false (compare_gt_iff_gt.1 hab) hs
    have habove : Above (succ b₂) ((a₁, b₁) :: r₁) := by
      refine (above_cons ..).2 ⟨hba, hr₁.mono ?_⟩
      exact hba.le.trans (h₁.trans (Order.le_succ _))
    rw [separated_cons_join h₂ hl hs₂ habove hr₂, ih hl hs₂,
      straddles_drop_right (fun h => absurd h.1 ha.not_gt)
        (not_straddle_of_below hr₁ (ha.le.trans (h₁.trans (Order.le_succ _))))]

/-- **The union is right** exactly when no interval of the first set reaches into one of the second
set from below. -/
theorem implements_union_iff {s t : IntervalSet Point} {S T : Set Point} (hs : Implements s S)
    (ht : Implements t T) :
    Implements (union s t) (S ∪ T) ↔ ¬Straddles s.intervals t.intervals := by
  obtain ⟨hl, rfl⟩ := implements_iff.1 hs
  obtain ⟨hm, rfl⟩ := implements_iff.1 ht
  rw [implements_iff, union, points_join hl.le hm.le, and_iff_left rfl, separated_join_iff hl hm]

end SmlNj.IntervalSet

/-! ## The complement of an interval set -/

open Order (succ)
open Set (Icc)
open IntervalList

namespace SmlNj.IntervalSet

variable {Point : Type*} [LinearOrder Point] [IntervalDomain Point]

/-- The gaps of a list of intervals from `start` on, as the complement's loop emits them. -/
def gaps (start : Point) : List (Point × Point) → List (Point × Point)
  | (a, b) :: r => (start, Order.pred a) :: gaps (succ b) r
  | [] => if start < maxPt then [(start, maxPt)] else []

theorem comp_eq (start : Point) (r acc : List (Point × Point)) :
    complement.comp start r acc = SET (acc.reverse ++ gaps start r) := by
  induction r generalizing start acc with
  | nil =>
    rw [complement.comp, gaps]
    split
    case h_1 h => simp [compare_lt_iff_lt.1 h]
    case h_2 h => simp [(compare_ge_iff_ge.1 h).not_gt]
  | cons i r ih =>
    rw [complement.comp, gaps, ih]
    simp

/-- The gap that follows an interval has a point, and is not a last gap of one point, as the
loop sees it and as the points tell it. -/
theorem gap_after_iff {a b x : Point} (hab : a ≤ b) :
    succ b ≤ x ∧ (x = ⊤ → succ b ≠ ⊤) ↔ b < x ∧ (x = ⊤ → Order.pred ⊤ ∉ Icc a b) := by
  constructor
  · rintro ⟨hbx, ht⟩
    have hb : b < ⊤ := by
      refine lt_top_iff_ne_top.2 fun hb => ?_
      subst hb
      exact ht (top_le_iff.1 ((Order.le_succ _).trans hbx)) Order.succ_top
    refine ⟨(Order.lt_succ_of_not_isMax (not_isMax_of_lt hb)).trans_le hbx, fun hx hp => ht hx ?_⟩
    have hbt : b = Order.pred ⊤ := le_antisymm (Order.le_pred_of_lt hb) hp.2
    rw [hbt, Order.succ_pred_of_not_isMin (not_isMin_of_lt hb)]
  · rintro ⟨hbx, ht⟩
    have hb : b < ⊤ := hbx.trans_le le_top
    refine ⟨Order.succ_le_of_lt hbx, fun hx hs => ht hx ?_⟩
    have hbt : Order.pred ⊤ = b := by
      rw [← hs, Order.pred_succ_of_not_isMax (not_isMax_of_lt hb)]
    exact ⟨hbt ▸ hab, hbt.le⟩

/-- A gap has the points from its start on that are in no interval, except that a last gap of
one point is not emitted. -/
theorem mem_points_gaps {start : Point} {r : List (Point × Point)} (hr : Separated r)
    (hs : Above start r) (x : Point) :
    x ∈ points (gaps start r) ↔
      start ≤ x ∧ x ∉ points r ∧ (x = ⊤ → start ≠ ⊤ ∧ Order.pred ⊤ ∉ points r) := by
  induction r generalizing start with
  | nil =>
    by_cases h : start = ⊤
    · simp [gaps, maxPt, h]
    · simp [gaps, maxPt, h, lt_top_iff_ne_top]
  | cons i r ih =>
    obtain ⟨a, b⟩ := i
    obtain ⟨hab, hbr, hr⟩ := separated_cons.1 hr
    have hsa : start < a := ((above_cons ..).1 hs).1
    have hst : start ≠ ⊤ := (hsa.trans_le le_top).ne
    rw [gaps, points_cons, Set.mem_union, ih hr hbr, points_cons, Set.mem_union, Set.mem_union]
    rcases lt_or_ge x a with hxa | hax
    · -- before the interval
      have hxr : x ∉ points r := (above_of_succ hbr).notMem (hxa.le.trans hab)
      have hbx : ¬succ b ≤ x := ((hxa.trans_le hab).trans_le (Order.le_succ b)).not_ge
      have hxt : x ≠ ⊤ := (hxa.trans_le le_top).ne
      simp [hxr, hbx, hxt, hxa.not_ge, Order.le_pred_of_lt hxa]
    · -- from the interval on
      have hpx : x ∉ Icc start (Order.pred a) := fun hx =>
        absurd (hx.2.trans_lt (Order.pred_lt_of_not_isMin (not_isMin_of_lt hsa))) hax.not_gt
      have hgap := gap_after_iff (x := x) hab
      have hx : x ∈ Icc a b ↔ ¬b < x := by simp [hax]
      have hsx : start ≤ x := hsa.le.trans hax
      tauto

theorem separated_gaps {start : Point} {r : List (Point × Point)} (hr : Separated r)
    (hs : Above start r) : Separated (gaps start r) := by
  induction r generalizing start with
  | nil =>
    rw [gaps]
    split <;> simp [maxPt]
  | cons i r ih =>
    obtain ⟨a, b⟩ := i
    obtain ⟨hab, hbr, hr⟩ := separated_cons.1 hr
    have hsa : start < a := ((above_cons ..).1 hs).1
    refine separated_cons.2 ⟨Order.le_pred_of_lt hsa, (ih hr hbr).above fun x hx => ?_, ih hr hbr⟩
    obtain ⟨hbx, -, ht⟩ := (mem_points_gaps hr hbr x).1 hx
    rw [Order.succ_pred_of_not_isMin (not_isMin_of_lt hsa)]
    refine hab.trans_lt ?_
    -- the interval does not reach the end of the domain, as a gap follows
    by_contra hxb
    have hb : b = ⊤ := (Order.max_of_succ_le (hbx.trans (not_lt.1 hxb))).eq_top
    subst hb
    exact (ht (top_le_iff.1 ((Order.le_succ _).trans hbx))).1 Order.succ_top

theorem complement_cons (a b : Point) (r : List (Point × Point)) :
    complement (SET ((a, b) :: r)) =
      SET (if ⊥ < a then gaps ⊥ ((a, b) :: r) else gaps (succ b) r) := by
  rw [complement]
  split
  case h_1 h =>
    have : (⊥ : Point) < a := compare_lt_iff_lt.1 h
    simp [comp_eq, gaps, this, minPt]
  case h_2 h =>
    have : ¬(⊥ : Point) < a := (compare_ge_iff_ge.1 h).not_gt
    simp [comp_eq, this]

/-- **The points of the complement** are those outside the set, except that the greatest point is
missed when its predecessor is in the set. -/
theorem points_complement {s : IntervalSet Point} (hs : Separated s.intervals) :
    Separated (complement s).intervals ∧ points (complement s).intervals =
      {x | x ∉ points s.intervals ∧ (x = ⊤ → Order.pred ⊤ ∉ points s.intervals)} := by
  obtain ⟨_ | ⟨⟨a, b⟩, r⟩⟩ := s
  · have himp : Implements («universe» : IntervalSet Point) Set.univ := implements_universe
    have hu := implements_iff.1 himp
    refine ⟨hu.1, ?_⟩
    rw [complement, hu.2]
    simp
  obtain ⟨hab, hbr, hr⟩ := separated_cons.1 hs
  rw [complement_cons]
  split
  case isTrue ha =>
    have habove : Above ⊥ ((a, b) :: r) := by
      refine (above_cons ..).2 ⟨ha, hbr.mono bot_le⟩
    refine ⟨separated_gaps hs habove, Set.ext fun x => ?_⟩
    have hbt : (⊥ : Point) ≠ ⊤ := (ha.trans_le le_top).ne
    rw [mem_points_gaps hs habove]
    simp [hbt]
  case isFalse ha =>
    -- the first interval starts with the domain
    obtain rfl : a = ⊥ := by simpa using ha
    refine ⟨separated_gaps hr hbr, Set.ext fun x => ?_⟩
    have hgap := gap_after_iff (x := x) hab
    have hx : x ∈ Icc ⊥ b ↔ ¬b < x := by simp
    rw [mem_points_gaps hr hbr, points_cons, Set.mem_ofPred_eq, Set.mem_union, Set.mem_union]
    tauto

/-- **The complement is right** exactly when the set does not stop one point before the end of
the domain. -/
theorem implements_complement_iff {s : IntervalSet Point} {S : Set Point} (hs : Implements s S) :
    Implements (complement s) Sᶜ ↔ (Order.pred ⊤ ∈ S → ⊤ ∈ S) := by
  obtain ⟨hsep, rfl⟩ := implements_iff.1 hs
  obtain ⟨hc, hp⟩ := points_complement hsep
  rw [implements_iff, hp, and_iff_right hc]
  constructor
  · intro h hpred
    by_contra htop
    have := (Set.ext_iff.1 h ⊤).2 htop
    exact this.2 rfl hpred
  · intro h
    ext x
    constructor
    · exact And.left
    · intro hx
      exact ⟨hx, fun ht hpred => hx (ht ▸ h hpred)⟩

/-- **The difference is right** exactly when the first set lacks the greatest point or the
complement of the second one has it when it should. -/
theorem implements_difference_iff {s t : IntervalSet Point} {S T : Set Point}
    (hs : Implements s S) (ht : Implements t T) :
    Implements (difference s t) (S \ T) ↔ (⊤ ∈ S → Order.pred ⊤ ∈ T → ⊤ ∈ T) := by
  obtain ⟨hsep, rfl⟩ := implements_iff.1 ht
  have himp := implements_intersect hs (implements_iff.2 (points_complement hsep))
  constructor
  · intro h hS hpred
    by_contra htop
    have hmem := (h.member_iff ⊤).2 ⟨hS, htop⟩
    exact ((himp.member_iff ⊤).1 hmem).2.2 rfl hpred
  · intro h
    refine ⟨himp.separated, fun x => ?_⟩
    rw [difference, himp.member_iff]
    constructor
    · exact fun hx => ⟨hx.1, hx.2.1⟩
    · exact fun hx => ⟨hx.1, hx.2, fun ht hpred => hx.2 (ht ▸ h (ht ▸ hx.1) hpred)⟩

end SmlNj.IntervalSet
