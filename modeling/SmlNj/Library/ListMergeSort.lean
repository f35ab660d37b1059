import Mathlib.Order.Compare
import SmlNj.Lib.StableOrder

/-!
# The merge sort of lists

The list is cut into runs, which are ascending or strictly descending; neighbouring runs are merged
in passes over the list of runs, and each pass leaves that list in the reverse order.  The runs of
`sort` keep equivalent elements in their order, those of `uniqueSort` drop elements that are equal
to one that they have.

Along a run of `sort` the elements that have been read are in the runs of a list, the last run
first, and in the run that is being read.  Every run keeps equivalent elements in their order and
every merge takes the earlier run as its second list, from which it prefers to take elements, so
the runs always make up a stable rearrangement of what has been read.

`uniqueSort` needs less: every run has the elements that have been read, in strictly ascending
order.

## Main definitions

* `merge`, `mergeNeighbors`, `mergeNeighborsRev`, `init`, `sort` — the stable sort.
* `mergeU`, `mergeNeighborsU`, `initU`, `uniqueSort` — the sort that drops duplicates.

## Main results

* `mergeNeighbors_sorts` — the passes over a list of runs.
* `mergeSort_correct` — both sorts.
-/

namespace SmlNj.ListMergeSort

variable {α : Type*}

@[grind =] def revAppend : List α → List α → List α
  | [], ys => ys
  | x :: xs, ys => revAppend xs (x :: ys)

def reverse (x : α) (xs : List α) : List α := revAppend xs [x]

/-! ### The stable sort -/

section StableSort

variable (gt : α → α → Bool)

/-- Merge two sorted lists in front of what is reversed in `acc`; of equivalent elements that of
the second list comes first. -/
@[grind =] def merge : List α → List α → List α → List α
  | [], ys, acc => revAppend acc ys
  | x :: xr, [], acc => revAppend acc (x :: xr)
  | x :: xr, y :: yr, acc =>
    if gt y x then merge xr (y :: yr) (x :: acc) else merge (x :: xr) yr (y :: acc)
termination_by xs ys => xs.length + ys.length

mutual

/-- Merge neighbouring lists of a list of lists that has the last ones first. -/
@[grind =] def mergeNeighbors : List (List α) → List (List α) → List α
  | [], yss => finishPass yss
  | [xs], yss => finishPass (xs :: yss)
  | xs1 :: xs2 :: xss, yss => mergeNeighbors xss (merge gt xs1 xs2 [] :: yss)
termination_by xss yss => 3 * (xss.length + yss.length) + if xss.length ≤ 1 then 2 else 0
decreasing_by all_goals grind

/-- Finish a pass of `mergeNeighbors`. -/
@[grind =] def finishPass : List (List α) → List α
  | [] => []
  | [xs] => xs
  | xs1 :: xs2 :: xss => mergeNeighborsRev (xs1 :: xs2 :: xss) []
termination_by xss => 3 * xss.length + 1

/-- Merge neighbouring lists of a list of lists that has the first ones first. -/
@[grind =] def mergeNeighborsRev : List (List α) → List (List α) → List α
  | [], yss => finishPassRev yss
  | [xs], yss => finishPassRev (xs :: yss)
  | xs1 :: xs2 :: xss, yss => mergeNeighborsRev xss (merge gt xs2 xs1 [] :: yss)
termination_by xss yss => 3 * (xss.length + yss.length) + if xss.length ≤ 1 then 2 else 0
decreasing_by all_goals grind

/-- Finish a pass of `mergeNeighborsRev`. -/
@[grind =] def finishPassRev : List (List α) → List α
  | [] => []
  | [xs] => xs
  | xs1 :: xs2 :: xss => mergeNeighbors (xs1 :: xs2 :: xss) []
termination_by xss => 3 * xss.length + 1

end

mutual

/-- Start a run. -/
@[grind =] def init : α → List α → List (List α) → List α
  | prev, [], yss => mergeNeighbors gt ([prev] :: yss) []
  | prev, x :: xs, yss =>
    if gt prev x then runDn x xs [prev] yss
    else if gt x prev then runUp x xs [prev] yss
    else runEq x xs [prev] yss

@[grind =] def runUp : α → List α → List α → List (List α) → List α
  | prev, [], run, yss => mergeNeighbors gt (reverse prev run :: yss) []
  | prev, x :: xr, run, yss =>
    if gt x prev then runUp x xr (prev :: run) yss else init x xr (reverse prev run :: yss)

@[grind =] def runDn : α → List α → List α → List (List α) → List α
  | prev, [], run, yss => mergeNeighbors gt ((prev :: run) :: yss) []
  | prev, x :: xr, run, yss =>
    if gt prev x then runDn x xr (prev :: run) yss else init x xr ((prev :: run) :: yss)

/-- Go on with a run of equivalent elements. -/
@[grind =] def runEq : α → List α → List α → List (List α) → List α
  | prev, [], run, yss => mergeNeighbors gt (reverse prev run :: yss) []
  | prev, x :: xr, run, yss =>
    if gt prev x || gt x prev then init x xr (reverse prev run :: yss)
    else runEq x xr (prev :: run) yss

end

def sort : List α → List α
  | [] => []
  | x :: xs => init gt x xs []

end StableSort

/-! ### The sort without duplicates -/

section UniqueSort

variable (cmp : α → α → Ordering)

/-- Merge two sorted lists in front of what is reversed in `acc`. -/
@[grind =] def mergeU : List α → List α → List α → List α
  | [], ys, acc => revAppend acc ys
  | x :: xr, [], acc => revAppend acc (x :: xr)
  | x :: xr, y :: yr, acc =>
    match cmp x y with
    | .lt => mergeU xr (y :: yr) (x :: acc)
    | .eq => mergeU xr yr (x :: acc)
    | .gt => mergeU (x :: xr) yr (y :: acc)
termination_by xs ys => xs.length + ys.length

mutual

/-- Merge neighbouring lists. -/
@[grind =] def mergeNeighborsU : List (List α) → List (List α) → List α
  | [], yss => finishPassU yss
  | [xs], yss => finishPassU (xs :: yss)
  | xs1 :: xs2 :: xss, yss => mergeNeighborsU xss (mergeU cmp xs1 xs2 [] :: yss)
termination_by xss yss => 3 * (xss.length + yss.length) + if xss.length ≤ 1 then 2 else 0
decreasing_by all_goals grind

/-- Finish a pass of `mergeNeighborsU`. -/
@[grind =] def finishPassU : List (List α) → List α
  | [] => []
  | [xs] => xs
  | xs1 :: xs2 :: xss => mergeNeighborsU (xs1 :: xs2 :: xss) []
termination_by xss => 3 * xss.length + 1

end

mutual

/-- Start a run. -/
@[grind =] def initU : α → List α → List (List α) → List α
  | prev, [], yss => mergeNeighborsU cmp ([prev] :: yss) []
  | prev, x :: xs, yss =>
    match cmp prev x with
    | .lt => runUpU x xs [prev] yss
    | .eq => initU prev xs yss
    | .gt => runDnU x xs [prev] yss

/-- Go on with an ascending run. -/
@[grind =] def runUpU : α → List α → List α → List (List α) → List α
  | prev, [], run, yss => mergeNeighborsU cmp (reverse prev run :: yss) []
  | prev, x :: xr, run, yss =>
    match cmp prev x with
    | .lt => runUpU x xr (prev :: run) yss
    | .eq => runUpU prev xr run yss
    | .gt => initU x xr (reverse prev run :: yss)

/-- Go on with a descending run. -/
@[grind =] def runDnU : α → List α → List α → List (List α) → List α
  | prev, [], run, yss => mergeNeighborsU cmp ((prev :: run) :: yss) []
  | prev, x :: xr, run, yss =>
    match cmp prev x with
    | .lt => initU x xr ((prev :: run) :: yss)
    | .eq => runDnU prev xr run yss
    | .gt => runDnU x xr (prev :: run) yss

end

def uniqueSort : List α → List α
  | [] => []
  | x :: xs => initU cmp x xs []

end UniqueSort

end SmlNj.ListMergeSort

/-! ## The merge sort of lists is a stable sort -/

namespace SmlNj.ListMergeSort

open StableOrder

variable {α : Type*}

theorem revAppend_eq (xs ys : List α) : revAppend xs ys = xs.reverse ++ ys := by
  induction xs generalizing ys with
  | nil => rfl
  | cons x xs ih => rw [revAppend, ih, List.reverse_cons, List.append_assoc, List.singleton_append]

theorem reverse_eq (x : α) (xs : List α) : reverse x xs = (x :: xs).reverse := by
  rw [reverse, revAppend_eq, List.reverse_cons]

variable {xs run orig : List α} {yss : List (List α)}

section StableSort

variable {gt : α → α → Bool}

theorem merge_eq (xs ys acc : List α) :
    merge gt xs ys acc = acc.reverse ++ ys.merge xs fun a b => !gt a b := by
  fun_induction merge gt xs ys acc with
  | case1 ys acc => rw [revAppend_eq, List.merge_right]
  | case2 x xr acc => rw [revAppend_eq, List.nil_merge]
  | case3 x xr y yr acc h ih =>
    rw [ih, List.cons_merge_cons_neg _ _ _ (by rw [h]; decide), List.reverse_cons,
      List.append_assoc, List.singleton_append]
  | case4 x xr y yr acc h ih =>
    rw [Bool.not_eq_true] at h
    rw [ih, List.cons_merge_cons_pos _ _ _ (by rw [h]; rfl), List.reverse_cons,
      List.append_assoc, List.singleton_append]

theorem merge_sorts (hgt : Weak gt) {ys : List α} (hxs : Ascending gt xs) (hys : Ascending gt ys) :
    Sorts gt (merge gt xs ys []) (ys ++ xs) := by
  rw [merge_eq]
  exact ⟨ascending_merge hgt hys hxs, stable_merge hgt hys⟩

theorem stable_flatten {l r : List (List α)} {zs ys : List α} (h : Stable gt zs (xs ++ ys)) :
    Stable gt (l ++ zs :: r).flatten (l ++ xs :: ys :: r).flatten := by
  have heq : (l ++ xs :: ys :: r).flatten = l.flatten ++ ((xs ++ ys) ++ r.flatten) := by
    simp
  rw [heq, List.flatten_append]
  exact (Stable.refl _).append (h.append (Stable.refl _))

/-! ### The passes -/

def Runs (gt : α → α → Bool) (xss : List (List α)) : Prop := ∀ xs ∈ xss, Ascending gt xs

theorem runs_cons {xss : List (List α)} :
    Runs gt (xs :: xss) ↔ Ascending gt xs ∧ Runs gt xss := List.forall_mem_cons

theorem runs_nil : Runs gt [] := fun _ h => absurd h List.not_mem_nil

mutual

/-- **The passes sort.**  The lists of the first argument are in the reverse order. -/
theorem mergeNeighbors_sorts (hgt : Weak gt) : ∀ {xss yss : List (List α)}, Runs gt xss →
    Runs gt yss → Sorts gt (mergeNeighbors gt xss yss) (xss.reverse ++ yss).flatten
  | [], yss, _, hyss => by
    rw [mergeNeighbors]
    exact finishPass_sorts hgt hyss
  | [xs], yss, hxss, hyss => by
    rw [mergeNeighbors]
    exact finishPass_sorts hgt (runs_cons.2 ⟨(runs_cons.1 hxss).1, hyss⟩)
  | xs1 :: xs2 :: xss, yss, hxss, hyss => by
    obtain ⟨h1, h2, hxss⟩ := by simpa only [runs_cons] using hxss
    have hmerge := merge_sorts hgt h1 h2
    have hrest := mergeNeighbors_sorts hgt hxss (runs_cons.2 ⟨hmerge.ascending, hyss⟩)
    rw [mergeNeighbors]
    have heq : (xs1 :: xs2 :: xss).reverse ++ yss = xss.reverse ++ xs2 :: xs1 :: yss := by
      simp
    rw [heq]
    exact hrest.of_stable (stable_flatten hmerge.stable)
termination_by xss yss => 3 * (xss.length + yss.length) + if xss.length ≤ 1 then 2 else 0
decreasing_by all_goals grind

theorem finishPass_sorts (hgt : Weak gt) : ∀ {xss : List (List α)}, Runs gt xss →
    Sorts gt (finishPass gt xss) xss.flatten
  | [], _ => by
    rw [finishPass]
    exact ⟨List.Pairwise.nil, Stable.refl _⟩
  | [xs], hxss => by
    rw [finishPass, List.flatten_singleton]
    exact ⟨(runs_cons.1 hxss).1, Stable.refl _⟩
  | xs1 :: xs2 :: xss, hxss => by
    have h := mergeNeighborsRev_sorts hgt hxss runs_nil
    rw [List.reverse_nil, List.nil_append] at h
    rw [finishPass]
    exact h
termination_by xss => 3 * xss.length + 1
decreasing_by all_goals grind

theorem mergeNeighborsRev_sorts (hgt : Weak gt) : ∀ {xss yss : List (List α)}, Runs gt xss →
    Runs gt yss → Sorts gt (mergeNeighborsRev gt xss yss) (yss.reverse ++ xss).flatten
  | [], yss, _, hyss => by
    rw [mergeNeighborsRev, List.append_nil]
    exact finishPassRev_sorts hgt hyss
  | [xs], yss, hxss, hyss => by
    have h := finishPassRev_sorts hgt (runs_cons.2 ⟨(runs_cons.1 hxss).1, hyss⟩)
    rw [List.reverse_cons] at h
    rw [mergeNeighborsRev]
    exact h
  | xs1 :: xs2 :: xss, yss, hxss, hyss => by
    obtain ⟨h1, h2, hxss⟩ := by simpa only [runs_cons] using hxss
    have hmerge := merge_sorts hgt h2 h1
    have hrest := mergeNeighborsRev_sorts hgt hxss (runs_cons.2 ⟨hmerge.ascending, hyss⟩)
    rw [List.reverse_cons, List.append_assoc, List.singleton_append] at hrest
    rw [mergeNeighborsRev]
    exact hrest.of_stable (stable_flatten hmerge.stable)
termination_by xss yss => 3 * (xss.length + yss.length) + if xss.length ≤ 1 then 2 else 0
decreasing_by all_goals grind

theorem finishPassRev_sorts (hgt : Weak gt) : ∀ {xss : List (List α)}, Runs gt xss →
    Sorts gt (finishPassRev gt xss) xss.reverse.flatten
  | [], _ => by
    rw [finishPassRev]
    exact ⟨List.Pairwise.nil, Stable.refl _⟩
  | [xs], hxss => by
    rw [finishPassRev, List.reverse_singleton, List.flatten_singleton]
    exact ⟨(runs_cons.1 hxss).1, Stable.refl _⟩
  | xs1 :: xs2 :: xss, hxss => by
    have h := mergeNeighbors_sorts hgt hxss runs_nil
    rw [List.append_nil] at h
    rw [finishPassRev]
    exact h
termination_by xss => 3 * xss.length + 1
decreasing_by all_goals grind

end

/-! ### The runs -/

theorem sorts_of_run {r rest : List α} (h : Sorts gt r ((run :: yss).reverse.flatten ++ rest))
    (hrun : Stable gt run orig) : Sorts gt r (yss.reverse.flatten ++ (orig ++ rest)) := by
  refine h.of_stable ?_
  rw [List.reverse_cons, List.flatten_append, List.flatten_singleton, List.append_assoc]
  exact (Stable.refl _).append (hrun.append (Stable.refl _))

theorem mergeNeighbors_runs (hgt : Weak gt) (hrun : Ascending gt run) (hyss : Runs gt yss)
    (horig : Stable gt run orig) :
    Sorts gt (mergeNeighbors gt (run :: yss) []) (yss.reverse.flatten ++ orig) := by
  have h : Sorts gt (mergeNeighbors gt (run :: yss) []) ((run :: yss).reverse.flatten ++ []) := by
    have h := mergeNeighbors_sorts hgt (runs_cons.2 ⟨hrun, hyss⟩) runs_nil
    rwa [List.append_nil] at h ⊢
  have hr := sorts_of_run h horig
  rwa [List.append_nil] at hr

def Up (gt : α → α → Bool) (run : List α) : Prop := run.Pairwise fun a b => gt a b = true

def Dn (gt : α → α → Bool) (run : List α) : Prop := run.Pairwise fun a b => gt b a = true

def Eqv (gt : α → α → Bool) (run : List α) : Prop := run.Pairwise fun a b => equiv gt a b = true

theorem Up.ascending (hgt : Weak gt) (h : Up gt run) : Ascending gt run.reverse :=
  List.pairwise_reverse.2 (h.imp fun hab => gt_asymm hgt hab)

theorem Dn.ascending (hgt : Weak gt) (h : Dn gt run) : Ascending gt run :=
  h.imp fun hab => gt_asymm hgt hab

theorem Dn.stable (hgt : Weak gt) (h : Dn gt run) : Stable gt run run.reverse := by
  have hrev := stable_reverse hgt (List.pairwise_reverse.2 h)
  rwa [List.reverse_reverse] at hrev

theorem Eqv.ascending (h : Eqv gt run) : Ascending gt run.reverse :=
  List.pairwise_reverse.2 (h.imp fun hab => (equiv_iff.1 hab).2)

theorem pairwise_push {R : α → α → Prop} (htrans : ∀ a b c, R a b → R b c → R a c) {x prev : α}
    (hx : R x prev) (h : (prev :: run).Pairwise R) : (x :: prev :: run).Pairwise R := by
  refine List.pairwise_cons.2 ⟨?_, h⟩
  rintro y (_ | ⟨_, hy⟩)
  · exact hx
  · exact htrans _ _ _ hx ((List.pairwise_cons.1 h).1 y hy)

theorem equiv_trans (hgt : Weak gt) (a b c : α) (hab : equiv gt a b = true)
    (hbc : equiv gt b c = true) : equiv gt a c = true := by
  rw [equiv_iff] at *
  exact ⟨not_gt_trans hgt hab.1 hbc.1, not_gt_trans hgt hbc.2 hab.2⟩

theorem read_next (x prev : α) (xr run : List α) :
    (prev :: run).reverse ++ x :: xr = (x :: prev :: run).reverse ++ xr := by
  rw [List.reverse_cons (a := x), List.append_assoc, List.singleton_append]

mutual

/-- **The runs are sorted**: those that are complete, in the reverse order, and the run that starts
with `prev`. -/
theorem init_sorts (hgt : Weak gt) : ∀ {prev : α} {xs : List α} {yss : List (List α)},
    Runs gt yss → Sorts gt (init gt prev xs yss) (yss.reverse.flatten ++ prev :: xs)
  | prev, [], yss, hyss => by
    rw [init]
    exact mergeNeighbors_runs hgt (List.pairwise_singleton _ _) hyss (Stable.refl _)
  | prev, x :: xs, yss, hyss => by
    rw [init]
    split_ifs with hdn hup
    · exact runDn_sorts hgt (List.pairwise_pair.2 hdn) hyss
    · exact runUp_sorts hgt (List.pairwise_pair.2 hup) hyss
    · rw [Bool.not_eq_true] at hdn hup
      exact runEq_sorts hgt (List.pairwise_pair.2 (equiv_iff.2 ⟨hup, hdn⟩)) hyss

theorem runUp_sorts (hgt : Weak gt) : ∀ {prev : α} {xs run : List α} {yss : List (List α)},
    Up gt (prev :: run) → Runs gt yss →
      Sorts gt (runUp gt prev xs run yss) (yss.reverse.flatten ++ ((prev :: run).reverse ++ xs))
  | prev, [], run, yss, hrun, hyss => by
    rw [runUp, reverse_eq, List.append_nil]
    exact mergeNeighbors_runs hgt (hrun.ascending hgt) hyss (Stable.refl _)
  | prev, x :: xr, run, yss, hrun, hyss => by
    rw [runUp, reverse_eq]
    split_ifs with h
    · rw [read_next]
      exact runUp_sorts hgt (pairwise_push (fun a b c => hgt.trans a b c) h hrun) hyss
    · exact sorts_of_run (init_sorts hgt (runs_cons.2 ⟨hrun.ascending hgt, hyss⟩)) (Stable.refl _)

theorem runDn_sorts (hgt : Weak gt) : ∀ {prev : α} {xs run : List α} {yss : List (List α)},
    Dn gt (prev :: run) → Runs gt yss →
      Sorts gt (runDn gt prev xs run yss) (yss.reverse.flatten ++ ((prev :: run).reverse ++ xs))
  | prev, [], run, yss, hrun, hyss => by
    rw [runDn, List.append_nil]
    exact mergeNeighbors_runs hgt (hrun.ascending hgt) hyss (hrun.stable hgt)
  | prev, x :: xr, run, yss, hrun, hyss => by
    rw [runDn]
    split_ifs with h
    · rw [read_next]
      refine runDn_sorts hgt (pairwise_push ?_ h hrun) hyss
      exact fun a b c hba hcb => hgt.trans c b a hcb hba
    · exact sorts_of_run (init_sorts hgt (runs_cons.2 ⟨hrun.ascending hgt, hyss⟩)) (hrun.stable hgt)

theorem runEq_sorts (hgt : Weak gt) : ∀ {prev : α} {xs run : List α} {yss : List (List α)},
    Eqv gt (prev :: run) → Runs gt yss →
      Sorts gt (runEq gt prev xs run yss) (yss.reverse.flatten ++ ((prev :: run).reverse ++ xs))
  | prev, [], run, yss, hrun, hyss => by
    rw [runEq, reverse_eq, List.append_nil]
    exact mergeNeighbors_runs hgt hrun.ascending hyss (Stable.refl _)
  | prev, x :: xr, run, yss, hrun, hyss => by
    rw [runEq, reverse_eq]
    split_ifs with h
    · exact sorts_of_run (init_sorts hgt (runs_cons.2 ⟨hrun.ascending, hyss⟩)) (Stable.refl _)
    · have hx : equiv gt x prev = true := by
        rw [Bool.or_eq_true, not_or, Bool.not_eq_true, Bool.not_eq_true] at h
        exact equiv_iff.2 ⟨h.2, h.1⟩
      rw [read_next]
      exact runEq_sorts hgt (pairwise_push (equiv_trans hgt) hx hrun) hyss

end

theorem sort_sorts (hgt : Weak gt) (l : List α) : Sorts gt (sort gt l) l := by
  cases l with
  | nil => exact ⟨List.Pairwise.nil, Stable.refl _⟩
  | cons x xs => exact init_sorts hgt runs_nil

end StableSort

section UniqueSort

variable {cmp : α → α → Ordering}

/-! ### Sorting without duplicates -/

/-- A list in strictly ascending order that has the elements of another one. -/
structure Dedups (cmp : α → α → Ordering) (xs l : List α) : Prop where
  strict : xs.Pairwise fun a b => cmp a b = .lt
  mem_iff : ∀ z, z ∈ xs ↔ z ∈ l

theorem Dedups.of_mem {l l' : List α} (h : Dedups cmp xs l) (hl : ∀ z, z ∈ l ↔ z ∈ l') :
    Dedups cmp xs l' := ⟨h.strict, fun z => (h.mem_iff z).trans (hl z)⟩

theorem Dedups.self (h : xs.Pairwise fun a b => cmp a b = .lt) :
    Dedups cmp xs xs := ⟨h, fun _ => Iff.rfl⟩

theorem lt_trans' [Std.TransCmp cmp] (a b c : α) (hab : cmp a b = .lt) (hbc : cmp b c = .lt) :
    cmp a c = .lt := Std.TransCmp.lt_trans hab hbc

variable [Std.TransCmp cmp] [Std.LawfulEqCmp cmp]

/-- The elements that are merged, in front of an accumulator with smaller ones. -/
theorem mergeU_dedups (xs ys acc : List α) (hxs : xs.Pairwise fun a b => cmp a b = .lt)
    (hys : ys.Pairwise fun a b => cmp a b = .lt)
    (hacc : acc.reverse.Pairwise fun a b => cmp a b = .lt)
    (hax : ∀ a ∈ acc, ∀ b ∈ xs, cmp a b = .lt) (hay : ∀ a ∈ acc, ∀ b ∈ ys, cmp a b = .lt) :
    Dedups cmp (mergeU cmp xs ys acc) (acc ++ (xs ++ ys)) := by
  -- an element that goes to the accumulator is above those that are there
  have push : ∀ {acc : List α} {x : α}, acc.reverse.Pairwise (fun a b => cmp a b = .lt) →
      (∀ a ∈ acc, cmp a x = .lt) → (x :: acc).reverse.Pairwise fun a b => cmp a b = .lt := by
    intro acc x hacc hx
    rw [List.pairwise_reverse] at hacc ⊢
    exact List.pairwise_cons.2 ⟨hx, hacc⟩
  fun_induction mergeU cmp xs ys acc with
  | case1 ys acc =>
    rw [revAppend_eq, List.nil_append]
    refine ⟨List.pairwise_append.2 ⟨hacc, hys, ?_⟩, fun z => by simp⟩
    exact fun a ha b hb => hay a (List.mem_reverse.1 ha) b hb
  | case2 x xr acc =>
    rw [revAppend_eq, List.append_nil]
    refine ⟨List.pairwise_append.2 ⟨hacc, hxs, ?_⟩, fun z => by simp⟩
    exact fun a ha b hb => hax a (List.mem_reverse.1 ha) b hb
  | case3 x xr y yr acc h ih =>
    obtain ⟨hx, hxr⟩ := List.pairwise_cons.1 hxs
    obtain ⟨hy, hyr⟩ := List.pairwise_cons.1 hys
    have hxys : ∀ b ∈ y :: yr, cmp x b = .lt := by
      rintro b (_ | ⟨_, hb⟩)
      · exact h
      · exact lt_trans' _ _ _ h (hy b hb)
    refine (ih hxr hys (push hacc fun a ha => hax a ha x (by simp)) ?_ ?_).of_mem ?_
    · exact List.forall_mem_cons.2 ⟨hx, fun a ha b hb => hax a ha b (by simp [hb])⟩
    · exact List.forall_mem_cons.2 ⟨hxys, hay⟩
    · intro z
      simp only [List.mem_append, List.mem_cons]
      tauto
  | case4 x xr y yr acc h ih =>
    obtain rfl := Std.LawfulEqCmp.eq_of_compare h
    obtain ⟨hx, hxr⟩ := List.pairwise_cons.1 hxs
    obtain ⟨hy, hyr⟩ := List.pairwise_cons.1 hys
    refine (ih hxr hyr (push hacc fun a ha => hax a ha x (by simp)) ?_ ?_).of_mem ?_
    · exact List.forall_mem_cons.2 ⟨hx, fun a ha b hb => hax a ha b (by simp [hb])⟩
    · exact List.forall_mem_cons.2 ⟨hy, fun a ha b hb => hay a ha b (by simp [hb])⟩
    · intro z
      simp only [List.mem_append, List.mem_cons]
      tauto
  | case5 x xr y yr acc h ih =>
    have hyx : cmp y x = .lt := Std.OrientedCmp.gt_iff_lt.1 h
    obtain ⟨hx, hxr⟩ := List.pairwise_cons.1 hxs
    obtain ⟨hy, hyr⟩ := List.pairwise_cons.1 hys
    have hyxs : ∀ b ∈ x :: xr, cmp y b = .lt := by
      rintro b (_ | ⟨_, hb⟩)
      · exact hyx
      · exact lt_trans' _ _ _ hyx (hx b hb)
    refine (ih hxs hyr (push hacc fun a ha => hay a ha y (by simp)) ?_ ?_).of_mem ?_
    · exact List.forall_mem_cons.2 ⟨hyxs, hax⟩
    · exact List.forall_mem_cons.2 ⟨hy, fun a ha b hb => hay a ha b (by simp [hb])⟩
    · intro z
      simp only [List.mem_append, List.mem_cons]
      tauto

def RunsU (cmp : α → α → Ordering) (xss : List (List α)) : Prop :=
  ∀ xs ∈ xss, xs.Pairwise fun a b => cmp a b = .lt

theorem runsU_cons {xss : List (List α)} :
    RunsU cmp (xs :: xss) ↔ (xs.Pairwise fun a b => cmp a b = .lt) ∧ RunsU cmp xss :=
  List.forall_mem_cons

theorem runsU_nil : RunsU cmp [] := fun _ h => absurd h List.not_mem_nil

mutual

/-- **The passes merge all runs.** -/
theorem mergeNeighborsU_dedups : ∀ {xss yss : List (List α)}, RunsU cmp xss → RunsU cmp yss →
    Dedups cmp (mergeNeighborsU cmp xss yss) (xss ++ yss).flatten
  | [], yss, _, hyss => by
    rw [mergeNeighborsU]
    exact finishPassU_dedups hyss
  | [xs], yss, hxss, hyss => by
    rw [mergeNeighborsU]
    exact finishPassU_dedups (runsU_cons.2 ⟨(runsU_cons.1 hxss).1, hyss⟩)
  | xs1 :: xs2 :: xss, yss, hxss, hyss => by
    obtain ⟨h1, h2, hxss⟩ := by simpa only [runsU_cons] using hxss
    have hmerge := mergeU_dedups xs1 xs2 [] h1 h2 List.Pairwise.nil
      (fun a ha => absurd ha List.not_mem_nil) (fun a ha => absurd ha List.not_mem_nil)
    rw [mergeNeighborsU]
    refine (mergeNeighborsU_dedups hxss (runsU_cons.2 ⟨hmerge.strict, hyss⟩)).of_mem fun z => ?_
    have hz := hmerge.mem_iff z
    simp only [List.flatten_append, List.flatten_cons, List.mem_append, List.nil_append] at hz ⊢
    tauto
termination_by xss yss => 3 * (xss.length + yss.length) + if xss.length ≤ 1 then 2 else 0
decreasing_by all_goals grind

theorem finishPassU_dedups : ∀ {xss : List (List α)}, RunsU cmp xss →
    Dedups cmp (finishPassU cmp xss) xss.flatten
  | [], _ => by
    rw [finishPassU]
    exact Dedups.self List.Pairwise.nil
  | [xs], hxss => by
    rw [finishPassU, List.flatten_singleton]
    exact Dedups.self (runsU_cons.1 hxss).1
  | xs1 :: xs2 :: xss, hxss => by
    have h := mergeNeighborsU_dedups hxss runsU_nil
    rw [List.append_nil] at h
    rw [finishPassU]
    exact h
termination_by xss => 3 * xss.length + 1
decreasing_by all_goals grind

end

theorem mergeNeighborsU_runs (hrun : run.Pairwise fun a b => cmp a b = .lt) (hyss : RunsU cmp yss)
    (horig : ∀ z, z ∈ run ↔ z ∈ orig) :
    Dedups cmp (mergeNeighborsU cmp (run :: yss) []) (yss.flatten ++ orig) := by
  refine (mergeNeighborsU_dedups (runsU_cons.2 ⟨hrun, hyss⟩) runsU_nil).of_mem fun z => ?_
  simp only [List.append_nil, List.flatten_cons, List.mem_append, horig z]
  tauto

mutual

/-- **The runs have all elements**, those that are complete and the run that starts with `prev`. -/
theorem initU_dedups : ∀ {prev : α} {xs : List α} {yss : List (List α)}, RunsU cmp yss →
    Dedups cmp (initU cmp prev xs yss) (yss.flatten ++ prev :: xs)
  | prev, [], yss, hyss => by
    rw [initU]
    exact mergeNeighborsU_runs (List.pairwise_singleton _ _) hyss fun _ => Iff.rfl
  | prev, x :: xs, yss, hyss => by
    rw [initU]
    split
    · next h =>
      refine (runUpU_dedups (List.pairwise_pair.2 h) hyss).of_mem fun z => ?_
      simp only [List.mem_append, List.mem_cons, List.not_mem_nil]
      tauto
    · next h =>
      obtain rfl := Std.LawfulEqCmp.eq_of_compare h
      refine (initU_dedups hyss).of_mem fun z => ?_
      simp only [List.mem_append, List.mem_cons]
      tauto
    · next h =>
      refine (runDnU_dedups (List.pairwise_pair.2 (Std.OrientedCmp.gt_iff_lt.1 h))
        hyss).of_mem fun z => ?_
      simp only [List.mem_append, List.mem_cons, List.not_mem_nil]
      tauto

theorem runUpU_dedups : ∀ {prev : α} {xs run : List α} {yss : List (List α)},
    ((prev :: run).Pairwise fun a b => cmp b a = .lt) → RunsU cmp yss →
      Dedups cmp (runUpU cmp prev xs run yss) (yss.flatten ++ (prev :: run ++ xs))
  | prev, [], run, yss, hrun, hyss => by
    rw [runUpU, reverse_eq, List.append_nil]
    exact mergeNeighborsU_runs (List.pairwise_reverse.2 hrun) hyss fun z => List.mem_reverse
  | prev, x :: xr, run, yss, hrun, hyss => by
    rw [runUpU, reverse_eq]
    split
    · next h =>
      have hrun' := pairwise_push (R := fun a b => cmp b a = .lt)
        (fun a b c hba hcb => lt_trans' c b a hcb hba) h hrun
      refine (runUpU_dedups hrun' hyss).of_mem fun z => ?_
      simp only [List.mem_append, List.mem_cons]
      tauto
    · next h =>
      obtain rfl := Std.LawfulEqCmp.eq_of_compare h
      refine (runUpU_dedups hrun hyss).of_mem fun z => ?_
      simp only [List.mem_append, List.mem_cons]
      tauto
    · have hyss' := runsU_cons.2 ⟨List.pairwise_reverse.2 hrun, hyss⟩
      refine (initU_dedups hyss').of_mem fun z => ?_
      simp only [List.flatten_cons, List.mem_append, List.mem_reverse]
      tauto

theorem runDnU_dedups : ∀ {prev : α} {xs run : List α} {yss : List (List α)},
    ((prev :: run).Pairwise fun a b => cmp a b = .lt) → RunsU cmp yss →
      Dedups cmp (runDnU cmp prev xs run yss) (yss.flatten ++ (prev :: run ++ xs))
  | prev, [], run, yss, hrun, hyss => by
    rw [runDnU, List.append_nil]
    exact mergeNeighborsU_runs hrun hyss fun z => Iff.rfl
  | prev, x :: xr, run, yss, hrun, hyss => by
    rw [runDnU]
    split
    · refine (initU_dedups (runsU_cons.2 ⟨hrun, hyss⟩)).of_mem fun z => ?_
      simp only [List.flatten_cons, List.mem_append]
      tauto
    · next h =>
      obtain rfl := Std.LawfulEqCmp.eq_of_compare h
      refine (runDnU_dedups hrun hyss).of_mem fun z => ?_
      simp only [List.mem_append, List.mem_cons]
      tauto
    · next h =>
      have hrun' := pairwise_push lt_trans' (Std.OrientedCmp.gt_iff_lt.1 h) hrun
      refine (runDnU_dedups hrun' hyss).of_mem fun z => ?_
      simp only [List.mem_append, List.mem_cons]
      tauto

end

theorem uniqueSort_dedups (l : List α) : Dedups cmp (uniqueSort cmp l) l := by
  cases l with
  | nil => exact Dedups.self List.Pairwise.nil
  | cons x xs => exact initU_dedups runsU_nil

end UniqueSort

/-- **The sorts are correct.**  For a strict weak order `sort` is a stable sort: it returns a
permutation in which no element is greater than a later one and the elements of every class are in
their order.  For a total order `uniqueSort` returns the elements in strictly ascending order. -/
theorem mergeSort_correct :
    (∀ gt : α → α → Bool, (IsStrictWeakOrder α fun a b => gt a b = true) → ∀ l : List α,
      (sort gt l).Perm l ∧ (sort gt l).Pairwise (fun a b => gt a b = false) ∧
        ∀ a, (sort gt l).filter (fun x => !gt a x && !gt x a) =
          l.filter fun x => !gt a x && !gt x a) ∧
    ∀ cmp : α → α → Ordering, Std.TransCmp cmp → Std.LawfulEqCmp cmp → ∀ l : List α,
      ((uniqueSort cmp l).Pairwise fun a b => cmp a b = .lt) ∧
        ∀ z, z ∈ uniqueSort cmp l ↔ z ∈ l := by
  constructor
  · intro gt hgt l
    obtain ⟨hasc, hperm, hclass⟩ := sort_sorts hgt l
    exact ⟨hperm, hasc, hclass⟩
  · intro cmp _ _ l
    obtain ⟨hstrict, hmem⟩ : Dedups cmp (uniqueSort cmp l) l := uniqueSort_dedups l
    exact ⟨hstrict, hmem⟩

/-- Numbers in the order of their tens. -/
theorem mergeSort_correct_tens :
    (sort (fun a b : ℕ => decide (b / 10 < a / 10)) [25, 17, 12]).Perm [25, 17, 12] ∧
      ∀ z, z ∈ uniqueSort compare [2, 1, 2] ↔ z ∈ [2, 1, 2] := by
  have hgt : IsStrictWeakOrder ℕ fun a b => decide (b / 10 < a / 10) = true := by
    refine { irrefl := ?_, trans := ?_, incomp_trans := ?_ }
    · simp only [decide_eq_true_eq]
      omega
    · simp only [decide_eq_true_eq]
      omega
    · simp only [decide_eq_true_eq]
      omega
  exact ⟨(mergeSort_correct.1 _ hgt _).1, (mergeSort_correct.2 _ inferInstance inferInstance _).2⟩

end SmlNj.ListMergeSort
