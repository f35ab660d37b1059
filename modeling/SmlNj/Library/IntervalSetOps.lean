import SmlNj.Lib.IntervalList
import SmlNj.Library.IntervalSet

/-!
# The operations of interval sets that are right

Membership, the insertion of points and intervals, the intersection, and the tests agree with the
sets of points when the intervals are ordered, disjoint and not adjacent, and the results keep
that form.

## Main definitions

* `Implements` — an interval set is in its form and has the points of a set.

## Main results

* `member_iff` — the test for membership.
* `implements_addInt`, `implements_add`, `implements_fromList`, `implements_intersect` — the
  operations.
* `compare_eq_iff`, `isSubset_iff`, `isUniverse_iff` — the tests.
-/

open Order (succ)
open Set (Icc)
open IntervalList

namespace SmlNj.IntervalSet

variable {Point : Type*} [LinearOrder Point]

/-- **An interval set implements a set of points**: its intervals are ordered, disjoint and not
adjacent, and its members are the points of the set. -/
structure Implements [SuccOrder Point] (s : IntervalSet Point) (S : Set Point) : Prop where
  /-- The intervals are ordered, disjoint and not adjacent. -/
  separated : Separated s.intervals
  /-- The members are the points of the set. -/
  member_iff : ∀ x, member s x = true ↔ x ∈ S

@[simp] theorem min_eq (a b : Point) : min a b = a ⊓ b := by
  unfold min
  split
  case h_1 h => exact (inf_of_le_left (compare_lt_iff_lt.1 h).le).symm
  case h_2 h => exact (inf_of_le_right (compare_ge_iff_ge.1 h)).symm

/-! ### Membership -/

theorem look_iff {l : List (Point × Point)} (hle : ∀ i ∈ l, i.1 ≤ i.2)
    (hl : l.Pairwise fun i j => i.1 ≤ j.1) (x : Point) :
    member.look x l = true ↔ x ∈ points l := by
  fun_induction member.look x l with
  | case1 => simp
  | case2 a b r hax hxb ih =>
    rw [ih (List.forall_mem_cons.1 hle).2 hl.of_cons]
    simp [(compare_gt_iff_gt.1 hxb).not_ge]
  | case3 a b r hax hxb =>
    simp [(compare_lt_iff_lt.1 hax).le, compare_le_iff_le.1 hxb]
  | case4 a b r hax =>
    obtain rfl := compare_eq_iff_eq.1 hax
    simp [show a ≤ b from hle (a, b) List.mem_cons_self]
  | case5 a b r hax =>
    -- the intervals that follow start even later
    have hx : x < a := compare_gt_iff_gt.1 hax
    have hr : x ∉ points r := by
      rintro ⟨i, hi, hix, -⟩
      exact absurd (hix.trans_lt hx) (List.rel_of_pairwise_cons hl hi).not_gt
    simp [hx.not_ge, hr]

theorem starts_of_separated [SuccOrder Point] {l : List (Point × Point)} (hl : Separated l) :
    l.Pairwise fun i j => i.1 ≤ j.1 := by
  refine hl.gap.imp_of_mem fun hi _ h => ?_
  exact ((hl.le _ hi).trans (Order.le_succ _)).trans h.le

variable [IntervalDomain Point]

theorem member_iff {s : IntervalSet Point} (hs : Separated s.intervals) (x : Point) :
    member s x = true ↔ x ∈ points s.intervals :=
  look_iff hs.le (starts_of_separated hs) x

theorem implements_iff {s : IntervalSet Point} {S : Set Point} :
    Implements s S ↔ Separated s.intervals ∧ points s.intervals = S := by
  constructor
  · intro h
    refine ⟨h.separated, Set.ext fun x => ?_⟩
    rw [← member_iff h.separated, h.member_iff]
  · rintro ⟨hs, rfl⟩
    exact ⟨hs, member_iff hs⟩

theorem implements_empty : Implements (empty : IntervalSet Point) ∅ :=
  implements_iff.2 ⟨separated_nil, points_nil⟩

theorem implements_universe : Implements («universe» : IntervalSet Point) Set.univ := by
  rw [implements_iff]
  simp [«universe», minPt, maxPt]

theorem implements_singleton (x : Point) : Implements (singleton x) {x} := by
  rw [implements_iff]
  simp [singleton]

/-- An interval raises the exception exactly when it is ill-formed, and else it is the set of its
points. -/
theorem implements_interval (a b : Point) :
    if a ≤ b then ∃ s, interval a b = .ok s ∧ Implements s (Icc a b)
    else interval a b = .error .domain := by
  split
  case isTrue hab =>
    refine ⟨SET [(a, b)], ?_, implements_iff.2 (by simp [hab])⟩
    unfold interval
    split
    case h_1 h => exact absurd h (compare_le_iff_le.2 hab)
    case h_2 => rfl
  case isFalse hab => simp [interval, compare_gt_iff_gt.2 (not_le.1 hab)]

/-! ### Insertion -/

theorem succ_lt_of_isSucc_false {b x : Point} (h : b < x) (hs : ¬isSucc b x = true) :
    succ b < x := by
  refine lt_of_le_of_ne (Order.succ_le_of_lt h) fun he => hs ?_
  rw [isSucc_iff, ← he]
  exact Order.covBy_succ_of_not_isMax (not_isMax_of_lt h)

section AddInt

variable {a b : Point} {l : List (Point × Point)}

/-- The insertion of an interval adds its points. -/
theorem points_addInt_ins (hab : a ≤ b) (hl : ∀ i ∈ l, i.1 ≤ i.2) :
    points (addInt.ins a b l) = Icc a b ∪ points l := by
  fun_induction addInt.ins a b l with
  | case1 => simp
  | case2 a b x y r hbx hs =>
    have hxy : x ≤ y := hl (x, y) List.mem_cons_self
    rw [points_cons, points_cons, ← Set.union_assoc,
      Icc_union_Icc_of_covBy hab ((isSucc_iff _ _).1 hs) hxy]
  | case3 => simp
  | case4 a b x y r hbx =>
    obtain rfl := compare_eq_iff_eq.1 hbx
    have hxy : b ≤ y := hl (b, y) List.mem_cons_self
    rw [points_cons, points_cons, ← Set.union_assoc, Set.Icc_union_Icc_eq_Icc hab hxy]
  | case5 a b x y r hbx hay hs ih =>
    have hxy : x ≤ y := hl (x, y) List.mem_cons_self
    rw [ih (compare_gt_iff_gt.1 hbx).le (List.forall_mem_cons.1 hl).2, points_cons,
      ← Icc_union_Icc_of_covBy hxy ((isSucc_iff _ _).1 hs) hab, Set.union_comm (Icc x y),
      Set.union_assoc]
  | case6 a b x y r hbx hay hs ih =>
    rw [points_cons, ih hab (List.forall_mem_cons.1 hl).2, points_cons, Set.union_left_comm]
  | case7 a b x y r hbx hay ih =>
    obtain rfl := compare_eq_iff_eq.1 hay
    have hxy : x ≤ a := hl (x, a) List.mem_cons_self
    rw [ih (compare_gt_iff_gt.1 hbx).le (List.forall_mem_cons.1 hl).2, points_cons,
      ← Set.Icc_union_Icc_eq_Icc hxy hab, Set.union_comm (Icc x a), Set.union_assoc]
  | case8 a b x y r hbx hay hby ih =>
    have hxb : x ≤ b := (compare_gt_iff_gt.1 hbx).le
    have hay : a ≤ y := (compare_lt_iff_lt.1 hay).le
    have hyb : y ≤ b := (compare_gt_iff_gt.1 hby).le
    rw [ih (by simp [hab]) (List.forall_mem_cons.1 hl).2, points_cons, ← Set.union_assoc,
      Set.Icc_union_Icc' hxb hay, max_eq_left hyb, min_eq]
  | case9 a b x y r hbx hay hby ih =>
    have hxb : x ≤ b := (compare_gt_iff_gt.1 hbx).le
    have hay : a ≤ y := (compare_lt_iff_lt.1 hay).le
    have hby : b ≤ y := compare_le_iff_le.1 hby
    rw [ih (by simp [hay]) (List.forall_mem_cons.1 hl).2, points_cons, ← Set.union_assoc,
      Set.Icc_union_Icc' hxb hay, max_eq_right hby, min_eq]

theorem above_addInt_ins {k : Point} (ha : k < a) (hl : Above k l) :
    Above k (addInt.ins a b l) := by
  fun_induction addInt.ins a b l with
  | case1 => simpa using ha
  | case2 | case3 | case4 => simp_all
  | case5 a b x y r hbx hay hs ih | case7 a b x y r hbx hay ih =>
    exact ih ((above_cons ..).1 hl).1 ((above_cons ..).1 hl).2
  | case6 a b x y r hbx hay hs ih =>
    obtain ⟨hx, hr⟩ := (above_cons ..).1 hl
    exact (above_cons ..).2 ⟨hx, ih ha hr⟩
  | case8 a b x y r hbx hay hby ih | case9 a b x y r hbx hay hby ih =>
    obtain ⟨hx, hr⟩ := (above_cons ..).1 hl
    exact ih (by simp [ha, hx]) hr

theorem separated_addInt_ins (hab : a ≤ b) (hl : Separated l) :
    Separated (addInt.ins a b l) := by
  fun_induction addInt.ins a b l with
  | case1 => simp [hab]
  | case2 a b x y r hbx hs =>
    obtain ⟨hxy, hyr, hr⟩ := separated_cons.1 hl
    exact separated_cons.2 ⟨hab.trans ((compare_lt_iff_lt.1 hbx).le.trans hxy), hyr, hr⟩
  | case3 a b x y r hbx hs =>
    obtain ⟨hxy, hyr, hr⟩ := separated_cons.1 hl
    have hbx : succ b < x := succ_lt_of_isSucc_false (compare_lt_iff_lt.1 hbx) hs
    have hby : succ b ≤ succ y := hbx.le.trans (hxy.trans (Order.le_succ y))
    exact separated_cons.2 ⟨hab, (above_cons ..).2 ⟨hbx, hyr.mono hby⟩, hl⟩
  | case4 a b x y r hbx =>
    obtain ⟨hxy, hyr, hr⟩ := separated_cons.1 hl
    obtain rfl := compare_eq_iff_eq.1 hbx
    exact separated_cons.2 ⟨hab.trans hxy, hyr, hr⟩
  | case5 a b x y r hbx hay hs ih =>
    exact ih (compare_gt_iff_gt.1 hbx).le (separated_cons.1 hl).2.2
  | case6 a b x y r hbx hay hs ih =>
    obtain ⟨hxy, hyr, hr⟩ := separated_cons.1 hl
    have hya : succ y < a := succ_lt_of_isSucc_false (compare_gt_iff_gt.1 hay) hs
    exact separated_cons.2 ⟨hxy, above_addInt_ins hya hyr, ih hab hr⟩
  | case7 a b x y r hbx hay ih =>
    exact ih (compare_gt_iff_gt.1 hbx).le (separated_cons.1 hl).2.2
  | case8 a b x y r hbx hay hby ih => exact ih (by simp [hab]) (separated_cons.1 hl).2.2
  | case9 a b x y r hbx hay hby ih =>
    have hay : a ≤ y := (compare_lt_iff_lt.1 hay).le
    exact ih (by simp [hay]) (separated_cons.1 hl).2.2

end AddInt

/-- **The insertion of an interval** raises the exception exactly when the interval is ill-formed,
and else it adds the points of the interval. -/
theorem implements_addInt {s : IntervalSet Point} {S : Set Point} (hs : Implements s S)
    (a b : Point) :
    if a ≤ b then ∃ t, addInt s (a, b) = .ok t ∧ Implements t (S ∪ Icc a b)
    else addInt s (a, b) = .error .domain := by
  obtain ⟨l⟩ := s
  obtain ⟨hsep, rfl⟩ := implements_iff.1 hs
  split
  case isTrue hab =>
    refine ⟨SET (addInt.ins a b l), ?_, implements_iff.2 ⟨separated_addInt_ins hab hsep, ?_⟩⟩
    · simp only [addInt]
      split
      case h_1 h => exact absurd h (compare_le_iff_le.2 hab)
      case h_2 => rfl
    · rw [points_addInt_ins hab hsep.le, Set.union_comm]
  case isFalse hab => simp [addInt, compare_gt_iff_gt.2 (not_le.1 hab)]

section Add

variable {a : Point} {l : List (Point × Point)}

theorem addInt_ins_of_above {b : Point} {r : List (Point × Point)} (h : Above (succ b) r) :
    addInt.ins a b r = (a, b) :: r := by
  rcases r with _ | ⟨⟨x, y⟩, r⟩
  · rfl
  · have hbx : succ b < x := ((above_cons ..).1 h).1
    have hs : ¬isSucc b x = true := by
      rw [isSucc_iff]
      exact fun hc => absurd hc.succ_eq hbx.ne
    simp [addInt.ins, compare_lt_iff_lt.2 ((Order.le_succ b).trans_lt hbx), hs]

theorem addInt_ins_of_lt {r : List (Point × Point)} {b : Point} (h : Above b r) :
    ∃ y' r', ∀ c, addInt.ins c b r = (c, y') :: r' := by
  rcases r with _ | ⟨⟨x, y⟩, r⟩
  · exact ⟨b, [], fun c => rfl⟩
  · have hbx : b < x := ((above_cons ..).1 h).1
    by_cases hs : isSucc b x = true
    · exact ⟨y, r, fun c => by simp [addInt.ins, compare_lt_iff_lt.2 hbx, hs]⟩
    · exact ⟨b, (x, y) :: r, fun c => by simp [addInt.ins, compare_lt_iff_lt.2 hbx, hs]⟩

/-- **The insertion of a point** has a result, as the case that the code deems impossible is so:
it is the insertion of the interval of the point. -/
theorem add_ins_eq (hl : Separated l) : add.ins a l = some (addInt.ins a a l) := by
  induction l with
  | nil => rfl
  | cons i r ih =>
    obtain ⟨x, y⟩ := i
    obtain ⟨hxy, hyr, hr⟩ := separated_cons.1 hl
    rcases lt_trichotomy a x with hax | rfl | hxa
    · by_cases hs : isSucc a x = true
      · simp [add.ins, addInt.ins, compare_lt_iff_lt.2 hax]
      · simp [add.ins, addInt.ins, compare_lt_iff_lt.2 hax]
    · simp [add.ins, addInt.ins]
    simp only [add.ins, addInt.ins, compare_gt_iff_gt.2 hxa]
    rcases lt_trichotomy a y with hay | rfl | hya
    · -- the point lies inside the interval
      simp [compare_lt_iff_lt.2 hay, hxa.le, addInt_ins_of_above hyr]
    · simp [addInt_ins_of_above hyr]
    rw [compare_gt_iff_gt.2 hya, ih hr]
    by_cases hs : isSucc y a = true
    · -- the interval is extended by the point, and perhaps meets the next one
      have hya : succ y = a := ((isSucc_iff _ _).1 hs).succ_eq
      obtain ⟨y', r', hins⟩ := addInt_ins_of_lt (hya ▸ hyr)
      simp [hs, hins]
    · simp [hs]

end Add

theorem implements_add {s : IntervalSet Point} {S : Set Point} (hs : Implements s S) (a : Point) :
    ∃ t, add s a = some t ∧ Implements t (insert a S) := by
  obtain ⟨l⟩ := s
  obtain ⟨hsep, rfl⟩ := implements_iff.1 hs
  refine ⟨SET (addInt.ins a a l), by simp [add, add_ins_eq hsep], implements_iff.2
    ⟨separated_addInt_ins le_rfl hsep, ?_⟩⟩
  rw [points_addInt_ins le_rfl hsep.le, Set.Icc_self, Set.insert_eq]

theorem implements_fromList (items : List Point) :
    ∃ t, fromList items = some t ∧ Implements t {x | x ∈ items} := by
  -- the set grows with each item
  have hfold : ∀ (s : IntervalSet Point) (S : Set Point), Implements s S →
      ∃ t, items.foldlM (fun m x => add' x m) s = some t ∧ Implements t (S ∪ {x | x ∈ items}) := by
    induction items with
    | nil =>
      intro s S hs
      exact ⟨s, rfl, by simpa using hs⟩
    | cons a items ih =>
      intro s S hs
      obtain ⟨s', hadd, hs'⟩ := implements_add hs a
      obtain ⟨t, hfold, ht⟩ := ih s' _ hs'
      refine ⟨t, by simpa [add', hadd] using hfold, ?_⟩
      convert ht using 1
      ext x
      simp only [Set.mem_union, Set.mem_setOf_eq, List.mem_cons, Set.mem_insert_iff]
      tauto
  obtain ⟨t, ht, himp⟩ := hfold empty ∅ implements_empty
  exact ⟨t, ht, by simpa using himp⟩

/-! ### Intersection -/

section Intersect

variable {a b : Point} {l m r : List (Point × Point)}

omit [IntervalDomain Point] in
@[simp] theorem points_cons_front : points (cons a b r) = Icc a b ∪ points r := by
  unfold cons
  split
  case h_1 h => simp [Set.Icc_eq_empty (compare_gt_iff_gt.1 h).not_ge]
  case h_2 h => simp

theorem separated_cons_front (hb : Above (succ b) r) (hr : Separated r) :
    Separated (cons a b r) := by
  unfold cons
  split
  case h_1 h => exact hr
  case h_2 h => exact separated_cons.2 ⟨compare_le_iff_le.1 h, hb, hr⟩

def Meets (n l m : List (Point × Point)) : Prop :=
  points n = points l ∩ points m ∧ Separated n

theorem Meets.symm {n : List (Point × Point)} (h : Meets n l m) : Meets n m l :=
  ⟨h.1.trans (Set.inter_comm _ _), h.2⟩

section Heads

variable {a₁ b₁ a₂ b₂ p : Point} {r₁ r₂ m' n : List (Point × Point)}

theorem Meets.drop (hm : Separated ((a₂, b₂) :: r₂)) (h : b₁ < a₂)
    (hn : Meets n r₁ ((a₂, b₂) :: r₂)) : Meets n ((a₁, b₁) :: r₁) ((a₂, b₂) :: r₂) := by
  refine ⟨?_, hn.2⟩
  have hab : Above b₁ ((a₂, b₂) :: r₂) := by
    obtain ⟨hab, hr, -⟩ := separated_cons.1 hm
    exact (above_cons ..).2 ⟨h, hr.mono (h.le.trans (hab.trans (Order.le_succ _)))⟩
  rw [hn.1, points_cons a₁, Set.union_inter_distrib_right]
  ext z
  constructor
  · exact .inr
  · rintro (⟨hz, hzm⟩ | hz)
    · exact absurd hzm (hab.notMem hz.2)
    · exact hz

/-- The first list's interval ends no later than that of the second list, and they meet: the
common part goes in front, and the intersection goes on with the rest of the first list and the
points of the second one past the end. -/
theorem Meets.cons (hl : Separated ((a₁, b₁) :: r₁)) (hm : Separated ((a₂, b₂) :: r₂))
    (h21 : a₂ ≤ b₁) (h12 : b₁ ≤ b₂) (hp : p = a₁ ⊔ a₂)
    (hm' : ∀ z, b₁ < z → (z ∈ points m' ↔ z ∈ points ((a₂, b₂) :: r₂))) (hn : Meets n r₁ m') :
    Meets ((p, b₁) :: n) ((a₁, b₁) :: r₁) ((a₂, b₂) :: r₂) := by
  obtain ⟨h₁, hr₁, -⟩ := separated_cons.1 hl
  obtain ⟨h₂, hr₂, -⟩ := separated_cons.1 hm
  subst hp
  constructor
  · ext z
    simp only [points_cons, hn.1]
    rcases le_or_gt z b₁ with hz | hz
    · -- up to the end only the heads have points
      have hz₁ : z ∉ points r₁ := (above_of_succ hr₁).notMem hz
      have hz₂ : z ∉ points r₂ := (above_of_succ hr₂).notMem (hz.trans h12)
      simp [hz, hz₁, hz₂, hz.trans h12]
    · have := hm' z hz
      simp [hz.not_ge, this]
  · refine separated_cons.2 ⟨sup_le h₁ h21, hn.2.above fun x hx => ?_, hn.2⟩
    rw [hn.1] at hx
    exact hr₁.lt hx.1

end Heads

/-- Past a point of the head's interval, the list has the points of the interval from the next
point on and of the rest. -/
theorem mem_points_cons_succ {x z : Point} (hab : a ≤ x) (hz : x < z) :
    z ∈ points (cons (succ x) b r) ↔ z ∈ points ((a, b) :: r) := by
  simp [Order.succ_le_of_lt hz, (hab.trans hz.le)]

theorem mem_points_of_lt {z : Point} (hz : b < z) :
    z ∈ points r ↔ z ∈ points ((a, b) :: r) := by
  simp [hz.not_ge]

/-- **The intersection of lists**: every position of two intervals leads to their common part. -/
theorem meets_meet (hl : Separated l) (hm : Separated m) : Meets (intersect.meet l m) l m := by
  fun_induction intersect.meet l m with
  | case1 m => simp [Meets]
  | case2 l h => simp [Meets]
  | case3 a₁ b₁ r₁ a₂ b₂ r₂ _ _ ha hb ih =>
    exact .drop hm (compare_lt_iff_lt.1 hb) (ih (separated_cons.1 hl).2.2 hm)
  | case4 a₁ b₁ r₁ a₂ b₂ r₂ _ _ ha hb ih =>
    obtain ⟨-, hr₁, hs₁⟩ := separated_cons.1 hl
    obtain ⟨h₂, hr₂, hs₂⟩ := separated_cons.1 hm
    have ha : a₁ < a₂ := compare_lt_iff_lt.1 ha
    obtain rfl := compare_eq_iff_eq.1 hb
    exact .cons hl hm le_rfl h₂ (by simp [ha.le]) (fun z => mem_points_cons_succ le_rfl)
      (ih hs₁ (separated_cons_front hr₂ hs₂))
  | case5 a₁ b₁ r₁ a₂ b₂ r₂ _ _ ha hb hbb ih =>
    obtain ⟨-, hr₁, hs₁⟩ := separated_cons.1 hl
    obtain ⟨-, hr₂, hs₂⟩ := separated_cons.1 hm
    have ha : a₁ < a₂ := compare_lt_iff_lt.1 ha
    have hb : a₂ < b₁ := compare_gt_iff_gt.1 hb
    exact .cons hl hm hb.le (compare_lt_iff_lt.1 hbb).le (by simp [ha.le])
      (fun z => mem_points_cons_succ hb.le) (ih hs₁ (separated_cons_front hr₂ hs₂))
  | case6 a₁ b₁ r₁ a₂ b₂ r₂ _ _ ha hb hbb ih =>
    have ha : a₁ < a₂ := compare_lt_iff_lt.1 ha
    have hb : a₂ < b₁ := compare_gt_iff_gt.1 hb
    obtain rfl := compare_eq_iff_eq.1 hbb
    exact .cons hl hm hb.le le_rfl (by simp [ha.le]) (fun z => mem_points_of_lt)
      (ih (separated_cons.1 hl).2.2 (separated_cons.1 hm).2.2)
  | case7 a₁ b₁ r₁ a₂ b₂ r₂ _ _ ha hb hbb ih =>
    obtain ⟨-, hr₁, hs₁⟩ := separated_cons.1 hl
    obtain ⟨h₂, hr₂, hs₂⟩ := separated_cons.1 hm
    have ha : a₁ < a₂ := compare_lt_iff_lt.1 ha
    exact (Meets.cons hm hl (ha.le.trans h₂) (compare_gt_iff_gt.1 hbb).le (by simp [ha.le])
      (fun z => mem_points_cons_succ (ha.le.trans h₂))
      (ih (separated_cons_front hr₁ hs₁) hs₂).symm).symm
  | case8 a₁ b₁ r₁ a₂ b₂ r₂ _ _ ha hbb ih =>
    obtain ⟨h₁, hr₁, hs₁⟩ := separated_cons.1 hl
    obtain ⟨-, hr₂, hs₂⟩ := separated_cons.1 hm
    obtain rfl := compare_eq_iff_eq.1 ha
    exact .cons hl hm h₁ (compare_lt_iff_lt.1 hbb).le (by simp)
      (fun z => mem_points_cons_succ h₁) (ih hs₁ (separated_cons_front hr₂ hs₂))
  | case9 a₁ b₁ r₁ a₂ b₂ r₂ _ _ ha hbb ih =>
    obtain rfl := compare_eq_iff_eq.1 ha
    obtain rfl := compare_eq_iff_eq.1 hbb
    exact .cons hl hm (separated_cons.1 hl).1 le_rfl (by simp) (fun z => mem_points_of_lt)
      (ih (separated_cons.1 hl).2.2 (separated_cons.1 hm).2.2)
  | case10 a₁ b₁ r₁ a₂ b₂ r₂ _ _ ha hbb ih =>
    obtain ⟨-, hr₁, hs₁⟩ := separated_cons.1 hl
    obtain ⟨h₂, hr₂, hs₂⟩ := separated_cons.1 hm
    obtain rfl := compare_eq_iff_eq.1 ha
    have hbb : b₂ < b₁ := compare_gt_iff_gt.1 hbb
    refine (Meets.cons hm hl h₂ hbb.le (by simp) (fun z hz => ?_)
      (ih (separated_cons.2 ⟨Order.succ_le_of_lt hbb, hr₁, hs₁⟩) hs₂).symm).symm
    simp [Order.succ_le_of_lt hz, (h₂.trans hz.le)]
  | case11 a₁ b₁ r₁ a₂ b₂ r₂ _ _ ha hb ih =>
    exact (Meets.drop hl (compare_lt_iff_lt.1 hb) (ih hl (separated_cons.1 hm).2.2).symm).symm
  | case12 a₁ b₁ r₁ a₂ b₂ r₂ _ _ ha hb ih =>
    obtain ⟨h₁, hr₁, hs₁⟩ := separated_cons.1 hl
    obtain ⟨-, hr₂, hs₂⟩ := separated_cons.1 hm
    have ha : a₂ < a₁ := compare_gt_iff_gt.1 ha
    obtain rfl := compare_eq_iff_eq.1 hb
    exact (Meets.cons hm hl le_rfl h₁ (by simp [ha.le]) (fun z => mem_points_cons_succ le_rfl)
      (ih (separated_cons_front hr₁ hs₁) hs₂).symm).symm
  | case13 a₁ b₁ r₁ a₂ b₂ r₂ _ _ ha hb hbb ih =>
    obtain ⟨h₁, hr₁, hs₁⟩ := separated_cons.1 hl
    obtain ⟨-, hr₂, hs₂⟩ := separated_cons.1 hm
    have ha : a₂ < a₁ := compare_gt_iff_gt.1 ha
    exact .cons hl hm (ha.le.trans h₁) (compare_lt_iff_lt.1 hbb).le (by simp [ha.le])
      (fun z => mem_points_cons_succ (ha.le.trans h₁)) (ih hs₁ (separated_cons_front hr₂ hs₂))
  | case14 a₁ b₁ r₁ a₂ b₂ r₂ _ _ ha hb hbb ih =>
    have ha : a₂ < a₁ := compare_gt_iff_gt.1 ha
    obtain rfl := compare_eq_iff_eq.1 hbb
    exact .cons hl hm (ha.le.trans (separated_cons.1 hl).1) le_rfl (by simp [ha.le])
      (fun z => mem_points_of_lt) (ih (separated_cons.1 hl).2.2 (separated_cons.1 hm).2.2)
  | case15 a₁ b₁ r₁ a₂ b₂ r₂ _ _ ha hb hbb ih =>
    obtain ⟨-, hr₁, hs₁⟩ := separated_cons.1 hl
    obtain ⟨-, hr₂, hs₂⟩ := separated_cons.1 hm
    have ha : a₂ < a₁ := compare_gt_iff_gt.1 ha
    have hb : a₁ < b₂ := compare_gt_iff_gt.1 hb
    exact (Meets.cons hm hl hb.le (compare_gt_iff_gt.1 hbb).le (by simp [ha.le])
      (fun z => mem_points_cons_succ hb.le) (ih (separated_cons_front hr₁ hs₁) hs₂).symm).symm

end Intersect

/-- **The intersection** has the points of both sets. -/
theorem implements_intersect {s t : IntervalSet Point} {S T : Set Point} (hs : Implements s S)
    (ht : Implements t T) : Implements (intersect s t) (S ∩ T) := by
  obtain ⟨hl, rfl⟩ := implements_iff.1 hs
  obtain ⟨hm, rfl⟩ := implements_iff.1 ht
  obtain ⟨hp, hn⟩ := meets_meet hl hm
  exact implements_iff.2 ⟨hn, hp⟩

omit [IntervalDomain Point] in
theorem filterInt_f'_eq (p : Point × Point → Bool) (l acc : List (Point × Point)) :
    filterInt.f' p l acc = SET (acc.reverse ++ l.filter p) := by
  induction l generalizing acc with
  | nil => simp [filterInt.f']
  | cons i l ih => by_cases hi : p i <;> simp [filterInt.f', ih, hi]

theorem implements_filterInt {s : IntervalSet Point} (hs : Separated s.intervals)
    (p : Point × Point → Bool) :
    Implements (filterInt p s) {x | ∃ i ∈ s.intervals, p i = true ∧ i.1 ≤ x ∧ x ≤ i.2} := by
  rw [implements_iff, filterInt, filterInt_f'_eq]
  refine ⟨⟨fun i hi => hs.le i (List.mem_filter.1 hi).1, hs.gap.filter _⟩, ?_⟩
  simp [points, and_assoc]

/-! ### The tests -/

section Tests

variable {s t : IntervalSet Point} {S T : Set Point}

theorem isEmpty_iff (hs : Implements s S) : isEmpty s = true ↔ S = ∅ := by
  obtain ⟨l⟩ := s
  obtain ⟨hl, rfl⟩ := implements_iff.1 hs
  rw [hl.points_eq_empty]
  cases l <;> simp [isEmpty]

omit [IntervalDomain Point] in
theorem comp_eq_iff (l m : List (Point × Point)) :
    IntervalSet.compare.comp l m = .eq ↔ l = m := by
  fun_induction IntervalSet.compare.comp l m with
  | case1 => simp
  | case2 a₁ b₁ r₁ a₂ b₂ r₂ ha hb ih =>
    rw [ih, compare_eq_iff_eq.1 ha, compare_eq_iff_eq.1 hb]
    simp
  | case3 a₁ b₁ r₁ a₂ b₂ r₂ ha hb =>
    simp_all
  | case4 a₁ b₁ r₁ a₂ b₂ r₂ ha =>
    simp_all
  | case5 m hm => cases m <;> simp_all
  | case6 l hl => cases l <;> simp_all

theorem compare_eq_iff (hs : Implements s S) (ht : Implements t T) :
    IntervalSet.compare s t = .eq ↔ S = T := by
  obtain ⟨hl, rfl⟩ := implements_iff.1 hs
  obtain ⟨hm, rfl⟩ := implements_iff.1 ht
  rw [IntervalSet.compare, comp_eq_iff]
  exact ⟨fun h => h ▸ rfl, hl.eq_of_points_eq hm⟩

theorem isUniverse_iff (hs : Implements s S) : isUniverse s = true ↔ S = Set.univ := by
  rw [← compare_eq_iff hs implements_universe]
  obtain ⟨l⟩ := s
  rw [IntervalSet.compare, «universe», comp_eq_iff]
  rcases l with _ | ⟨⟨a, b⟩, _ | ⟨i, r⟩⟩ <;> simp [isUniverse]

omit [IntervalDomain Point] in
theorem isCovered_iff (a b x y : Point) : isCovered a b x y = true ↔ x ≤ a ∧ b ≤ y := by
  unfold isCovered
  split
  case h_1 h => simp [(compare_lt_iff_lt.1 h).not_ge]
  case h_2 h =>
    have hxa : x ≤ a := compare_ge_iff_ge.1 h
    split
    case h_1 h => simp [(compare_lt_iff_lt.1 h).not_ge]
    case h_2 h => simp [hxa, compare_ge_iff_ge.1 h]

theorem test_iff {l m : List (Point × Point)} (hl : Separated l) (hm : Separated m) :
    isSubset.test l m = true ↔ points l ⊆ points m := by
  fun_induction isSubset.test l m with
  | case1 m => simp
  | case2 l h =>
    rw [points_nil, Set.subset_empty_iff, hl.points_eq_empty]
    simpa using h
  | case3 a₁ b₁ r₁ a₂ b₂ r₂ hc ih =>
    obtain ⟨ha, hb⟩ := (isCovered_iff ..).1 hc
    have hhead : Icc a₁ b₁ ⊆ points ((a₂, b₂) :: r₂) := by
      rw [points_cons]
      exact (Set.Icc_subset_Icc ha hb).trans Set.subset_union_left
    rw [ih (separated_cons.1 hl).2.2 hm, points_cons a₁, Set.union_subset_iff]
    exact ⟨fun h => ⟨hhead, h⟩, And.right⟩
  | case4 a₁ b₁ r₁ a₂ b₂ r₂ hc hb ih =>
    -- the second list's head lies before the first list
    have hb : b₂ < a₁ := compare_lt_iff_lt.1 hb
    obtain ⟨h₁, hr₁, -⟩ := separated_cons.1 hl
    have hab : Above b₂ ((a₁, b₁) :: r₁) :=
      (above_cons ..).2 ⟨hb, hr₁.mono (hb.le.trans (h₁.trans (Order.le_succ _)))⟩
    rw [ih hl (separated_cons.1 hm).2.2]
    exact forall₂_congr fun z hz => mem_points_of_lt (hab.lt hz)
  | case5 a₁ b₁ r₁ a₂ b₂ r₂ hc hb =>
    have hb : a₁ ≤ b₂ := compare_ge_iff_ge.1 hb
    obtain ⟨h₁, -, -⟩ := separated_cons.1 hl
    obtain ⟨-, hr₂, -⟩ := separated_cons.1 hm
    refine iff_of_false Bool.false_ne_true fun hsub => hc ((isCovered_iff ..).2 ?_)
    have hhead : Icc a₁ b₁ ⊆ points ((a₂, b₂) :: r₂) := by
      rw [points_cons a₁, Set.union_subset_iff] at hsub
      exact hsub.1
    have ha := (mem_points_cons_of_le hr₂ (hb.trans (Order.le_succ _))).1 (hhead ⟨le_rfl, h₁⟩)
    exact ⟨ha.1, end_le_of_subset hr₂ hhead hb⟩

theorem isSubset_iff (hs : Implements s S) (ht : Implements t T) :
    isSubset s t = true ↔ S ⊆ T := by
  obtain ⟨hl, rfl⟩ := implements_iff.1 hs
  obtain ⟨hm, rfl⟩ := implements_iff.1 ht
  exact test_iff hl hm

end Tests

end SmlNj.IntervalSet
