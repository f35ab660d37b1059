import Mathlib
import SmlNj.Library.ArrayQSort

/-!
# The quicksort of arrays is correct

Everything that the sort does to the array is a rearrangement of a range of its elements: one array
is read from another through a permutation of the indices that moves only indices in the range.
Such rearrangements compose, and what holds of all elements of a range still holds of them after
a rearrangement of the range.

## Main definitions

* `Moves lo hi arr arr'` — `arr'` is `arr` with the range from `lo` to `hi` rearranged.
* `All arr lo hi P` — all indices from `lo` to `hi` are in bounds and their elements have `P`.
* `SortedOn cmp arr lo hi` — the range is in ascending order.

## Main results

* `sortRange_correct` — the sort, by what it returns.
-/

namespace SmlNj.ArrayQSort

open TotalRun

variable {α : Type} {arr arr' arr'' : Array α} {lo hi i j k : ℤ}

theorem item_some_iff : (∃ x, item arr i = some x) ↔ 0 ≤ i ∧ i < arr.size := by
  unfold item
  split_ifs with h
  · rw [← Option.isSome_iff_exists, isSome_getElem?]
    omega
  · constructor
    · rintro ⟨x, hx⟩
      cases hx
    · exact fun hi => absurd hi.1 h

theorem item_of_bounds (arr : Array α) (i : ℤ) (h0 : 0 ≤ i) (h1 : i < arr.size) :
    ∃ x, item arr i = some x := item_some_iff.2 ⟨h0, h1⟩

variable {x : α} {lo' hi' start limit n pn : ℤ} {size : ℕ}

theorem returns_sub {Q : α → Array α → Prop} (hx : item arr i = some x) (hQ : Q x arr) :
    Returns (sub i) arr Q := by
  refine ⟨x, arr, ?_, hQ⟩
  simp only [sub, ExceptT.mk, ExceptT.run, StateT.run, hx]

theorem returns_sub_bind {β : Type} {f : α → Run Exn (Array α) β} {Q : β → Array α → Prop}
    (hx : item arr i = some x) (hf : Returns (f x) arr Q) :
    Returns (sub i >>= f) arr Q := returns_bind (returns_sub hx hf)

theorem item_setIfInBounds (h0 : 0 ≤ i) (h1 : i < arr.size) (x : α) (k : ℤ) :
    item (arr.setIfInBounds i.toNat x) k = if k = i then some x else item arr k := by
  unfold item
  by_cases hk : 0 ≤ k
  · rw [if_pos hk, if_pos hk, Array.getElem?_setIfInBounds]
    by_cases hki : k = i
    · subst hki
      rw [if_pos rfl, if_pos rfl, if_pos (by omega)]
    · rw [if_neg (by omega), if_neg hki]
  · rw [if_neg hk, if_neg hk, if_neg (by omega)]

theorem returns_update (h0 : 0 ≤ i) (h1 : i < arr.size) (x : α) :
    Returns (update i x) arr fun _ arr' =>
      arr'.size = arr.size ∧ ∀ k, item arr' k = if k = i then some x else item arr k := by
  refine ⟨(), arr.setIfInBounds i.toNat x, if_pos ⟨h0, h1⟩, ?_, item_setIfInBounds h0 h1 x⟩
  exact Array.size_setIfInBounds

/-! ### Rearrangements -/

/-- The range from `lo` to `hi` is rearranged, and the rest is as it was. -/
def Moves (lo hi : ℤ) (arr arr' : Array α) : Prop :=
  arr'.size = arr.size ∧ ∃ σ : Equiv.Perm ℤ,
    (∀ k, ¬ (lo ≤ k ∧ k < hi) → σ k = k) ∧ ∀ k, item arr' k = item arr (σ k)

theorem perm_mem_range {σ : Equiv.Perm ℤ} (hσ : ∀ k, ¬ (lo ≤ k ∧ k < hi) → σ k = k)
    (hk : lo ≤ k ∧ k < hi) : lo ≤ σ k ∧ σ k < hi := by
  by_contra hout
  have hfix := σ.injective (hσ _ hout)
  rw [hfix] at hout
  exact hout hk

namespace Moves

theorem refl (lo hi : ℤ) (arr : Array α) : Moves lo hi arr arr :=
  ⟨rfl, Equiv.refl ℤ, fun _ _ => rfl, fun _ => rfl⟩

theorem trans (h : Moves lo hi arr arr') (h' : Moves lo hi arr' arr'') :
    Moves lo hi arr arr'' := by
  obtain ⟨hsize, σ, hσ, hitem⟩ := h
  obtain ⟨hsize', τ, hτ, hitem'⟩ := h'
  refine ⟨hsize'.trans hsize, τ.trans σ, fun k hk => ?_, fun k => ?_⟩
  · rw [Equiv.trans_apply, hτ k hk, hσ k hk]
  · rw [hitem', hitem, Equiv.trans_apply]

theorem mono (h : Moves lo hi arr arr') (hlo : lo' ≤ lo) (hhi : hi ≤ hi') :
    Moves lo' hi' arr arr' := by
  obtain ⟨hsize, σ, hσ, hitem⟩ := h
  exact ⟨hsize, σ, fun k hk => hσ k (by omega), hitem⟩

theorem item_eq (h : Moves lo hi arr arr') (hk : ¬ (lo ≤ k ∧ k < hi)) :
    item arr' k = item arr k := by
  obtain ⟨-, σ, hσ, hitem⟩ := h
  rw [hitem, hσ k hk]

end Moves

/-- **A swap** exchanges two elements. -/
theorem returns_swap (hi0 : 0 ≤ i) (hi1 : i < arr.size) (hj0 : 0 ≤ j) (hj1 : j < arr.size) :
    Returns (swap i j) arr fun _ arr' =>
      arr'.size = arr.size ∧ ∀ k, item arr' k = item arr (Equiv.swap i j k) := by
  obtain ⟨x, hx⟩ := item_of_bounds arr i hi0 hi1
  obtain ⟨y, hy⟩ := item_of_bounds arr j hj0 hj1
  refine returns_sub_bind hx (returns_sub_bind hy ?_)
  refine returns_bind_of (returns_update hi0 hi1 y) ?_
  rintro - arr1 ⟨hsize, hitem⟩
  refine (returns_update hj0 (by omega) x).mono ?_
  rintro - arr2 ⟨hsize', hitem'⟩
  refine ⟨hsize'.trans hsize, fun k => ?_⟩
  rw [hitem', hitem, Equiv.swap_apply_def]
  split_ifs with h1 h2 h3
  · rw [h1] at h2
    rw [← hx, h2]
  · exact hx.symm
  · exact hy.symm
  · rfl

theorem moves_swap (hmem : lo ≤ i ∧ i < hi) (hmem' : lo ≤ j ∧ j < hi)
    (hsize : arr'.size = arr.size) (hitem : ∀ k, item arr' k = item arr (Equiv.swap i j k)) :
    Moves lo hi arr arr' := by
  refine ⟨hsize, Equiv.swap i j, fun k hk => ?_, hitem⟩
  refine Equiv.swap_apply_of_ne_of_ne ?_ ?_
  · rintro rfl
    exact hk hmem
  · rintro rfl
    exact hk hmem'

/-! ### Properties of ranges -/

/-- All indices of a range are in bounds and their elements have a property. -/
def All (arr : Array α) (lo hi : ℤ) (P : α → Prop) : Prop :=
  ∀ k, lo ≤ k → k < hi → ∃ x, item arr k = some x ∧ P x

variable {P : α → Prop}

theorem All.nil (h : hi ≤ lo) : All arr lo hi P := fun k hk hk' => by omega

theorem All.moves (h : All arr lo hi P) (hm : Moves lo' hi' arr arr') (hlo : lo ≤ lo')
    (hhi : hi' ≤ hi) : All arr' lo hi P := by
  obtain ⟨-, σ, hσ, hitem⟩ := hm.mono hlo hhi
  intro k hk hk'
  obtain ⟨hσk, hσk'⟩ := perm_mem_range hσ ⟨hk, hk'⟩
  rw [hitem]
  exact h (σ k) hσk hσk'

theorem All.apart (h : All arr lo hi P) (hm : Moves lo' hi' arr arr')
    (hapart : hi ≤ lo' ∨ hi' ≤ lo) : All arr' lo hi P := by
  intro k hk hk'
  rw [hm.item_eq (by omega)]
  exact h k hk hk'

theorem All.append {mid : ℤ} (h : All arr lo mid P) (h' : All arr mid hi P) :
    All arr lo hi P := by
  intro k hk hk'
  rcases lt_or_ge k mid with hlt | hge
  · exact h k hk hlt
  · exact h' k hge hk'

theorem All.snoc (h : All arr lo hi P) (hx : item arr hi = some x) (hP : P x) :
    All arr lo (hi + 1) P := by
  intro k hk hk'
  rcases eq_or_ne k hi with rfl | hne
  · exact ⟨x, hx, hP⟩
  · exact h k hk (by omega)

theorem All.cons (h : All arr (lo + 1) hi P) {x : α} (hx : item arr lo = some x) (hP : P x) :
    All arr lo hi P := by
  intro k hk hk'
  rcases eq_or_ne k lo with rfl | hne
  · exact ⟨x, hx, hP⟩
  · exact h k (by omega) hk'

section Order

variable (cmp : α → α → Ordering)

def SortedOn (arr : Array α) (lo hi : ℤ) : Prop :=
  ∀ k l x y, lo ≤ k → k < l → l < hi → item arr k = some x → item arr l = some y →
    (cmp x y).isLE

/-- The range is in ascending order, except that the element at `j` may be too small. -/
def SortedBut (arr : Array α) (lo hi j : ℤ) : Prop :=
  ∀ k l x y, lo ≤ k → k < l → l < hi → l ≠ j → item arr k = some x → item arr l = some y →
    (cmp x y).isLE

def Sorts (lo hi : ℤ) (arr arr' : Array α) : Prop :=
  Moves lo hi arr arr' ∧ SortedOn cmp arr' lo hi

variable {cmp}

theorem SortedOn.trivial (h : hi ≤ lo + 1) : SortedOn cmp arr lo hi := by
  intro k l x y hk hkl hl
  omega

theorem Sorts.of_moves (hm : Moves lo hi arr arr') (h : Sorts cmp lo hi arr' arr'') :
    Sorts cmp lo hi arr arr'' := ⟨hm.trans h.1, h.2⟩

theorem SortedOn.apart (h : SortedOn cmp arr lo hi) (hm : Moves lo' hi' arr arr')
    (hapart : hi ≤ lo' ∨ hi' ≤ lo) : SortedOn cmp arr' lo hi := by
  intro k l x y hk hkl hl hx hy
  rw [hm.item_eq (by omega)] at hx hy
  exact h k l x y hk hkl hl hx hy

/-! ### The sort by insertion -/

variable [Std.TransCmp cmp]

/-- **One step of an insertion**: the element at `j` changes places with the greater one before
it. -/
theorem SortedBut.swap {x' : α} (h : SortedBut cmp arr start hi j)
    (hx' : item arr (j - 1) = some x') (hx : item arr j = some x) (hgt : cmp x' x = .gt)
    (hstart : start < j) (hj : j < hi)
    (hitem : ∀ k, item arr' k = item arr (Equiv.swap j (j - 1) k)) :
    SortedBut cmp arr' start hi (j - 1) := by
  intro k l y z hk hkl hl hne hy hz
  rw [hitem, Equiv.swap_apply_def] at hy hz
  rw [if_neg hne] at hz
  by_cases hkj : k = j - 1
  · -- the element that is inserted is below the one that it passes and all after it
    rw [if_neg (by omega), if_pos hkj, hx, Option.some.injEq] at hy
    subst hy
    by_cases hlj : l = j
    · rw [if_pos hlj, hx', Option.some.injEq] at hz
      subst hz
      exact Ordering.isLE_of_eq_lt (Std.OrientedCmp.gt_iff_lt.1 hgt)
    · rw [if_neg hlj] at hz
      exact h j l x z (by omega) (by omega) hl hlj hx hz
  by_cases hkj' : k = j
  · -- the element that has been passed
    rw [if_pos hkj', hx', Option.some.injEq] at hy
    subst hy
    rw [if_neg (by omega)] at hz
    exact h (j - 1) l x' z (by omega) (by omega) hl (by omega) hx' hz
  · rw [if_neg hkj', if_neg hkj] at hy
    by_cases hlj : l = j
    · rw [if_pos hlj] at hz
      exact h k (j - 1) y z hk (by omega) (by omega) (by omega) hy hz
    · rw [if_neg hlj] at hz
      exact h k l y z hk hkl hl hlj hy hz

theorem SortedBut.sorted {x' : α} (h : SortedBut cmp arr start hi j)
    (hx' : item arr (j - 1) = some x') (hx : item arr j = some x) (hle : cmp x' x ≠ .gt)
    (hj : j < hi) : SortedOn cmp arr start hi := by
  intro k l y z hk hkl hl hy hz
  by_cases hlj : l = j
  · subst hlj
    rw [hx, Option.some.injEq] at hz
    subst hz
    have hle' : (cmp x' x).isLE := Ordering.ne_gt_iff_isLE.1 hle
    by_cases hkj : k = l - 1
    · rw [hkj, hx', Option.some.injEq] at hy
      subst hy
      exact hle'
    · exact Std.TransCmp.isLE_trans (h k (l - 1) y x' hk (by omega) (by omega) (by omega) hy hx') hle'
  · exact h k l y z hk hkl hl hlj hy hz

theorem inner_returns {i : ℤ} (h0 : 0 ≤ start) (hi : i < limit) (hlimit : limit ≤ size)
    (next : ∀ arr : Array α, arr.size = size → SortedOn cmp arr start (i + 1) →
      Returns (outer cmp start limit (i + 1)) arr fun _ => Sorts cmp start limit arr) (m : ℕ) :
    ∀ arr : Array α, arr.size = size → start + m ≤ i →
      SortedBut cmp arr start (i + 1) (start + m) →
      Returns (inner cmp start limit i (start + m)) arr fun _ => Sorts cmp start limit arr := by
  induction m with
  | zero =>
    intro arr hsize hj hsorted
    rw [Nat.cast_zero, add_zero] at *
    rw [inner, if_pos rfl]
    refine next arr hsize fun k l x y hk hkl hl => ?_
    exact hsorted k l x y hk hkl hl (by omega)
  | succ m ih =>
    intro arr hsize hj hsorted
    have hpred : start + ((m + 1 : ℕ) : ℤ) - 1 = start + m := by
      push_cast
      ring
    obtain ⟨x', hx'⟩ := item_of_bounds arr (start + m) (by omega) (by omega)
    obtain ⟨x, hx⟩ := item_of_bounds arr (start + (m + 1 : ℕ)) (by omega)
      (by push_cast; omega)
    rw [inner, if_neg (by push_cast; omega), hpred]
    refine returns_sub_bind hx' (returns_sub_bind hx ?_)
    split_ifs with hgt
    · refine returns_bind_of (returns_swap (by omega) (by push_cast; omega) (by omega)
        (by omega)) ?_
      rintro - arr1 ⟨hsize1, hitem⟩
      have hsorted1 : SortedBut cmp arr1 start (i + 1) (start + m) := by
        rw [← hpred] at hx' hitem ⊢
        exact hsorted.swap hx' hx hgt (by push_cast; omega) (by push_cast; omega) hitem
      refine (ih arr1 (hsize1.trans hsize) (by omega) hsorted1).mono fun _ arr2 h => ?_
      refine h.of_moves (moves_swap ?_ ?_ hsize1 hitem)
      · push_cast
        omega
      · omega
    · refine next arr hsize ?_
      rw [← hpred] at hx'
      exact hsorted.sorted hx' hx hgt (by push_cast; omega)

theorem outer_returns (h0 : 0 ≤ start) (hlimit : limit ≤ size) (m : ℕ) :
    ∀ (arr : Array α) (i : ℤ), arr.size = size → start < i → limit ≤ i + m →
      SortedOn cmp arr start i →
      Returns (outer cmp start limit i) arr fun _ => Sorts cmp start limit arr := by
  induction m with
  | zero =>
    intro arr i hsize hi hm hsorted
    rw [Nat.cast_zero, add_zero] at hm
    rw [outer, if_pos hm]
    refine returns_pure ⟨Moves.refl _ _ _, fun k l x y hk hkl hl => ?_⟩
    exact hsorted k l x y hk hkl (by omega)
  | succ m ih =>
    intro arr i hsize hi hm hsorted
    rw [outer]
    split_ifs with hend
    · refine returns_pure ⟨Moves.refl _ _ _, fun k l x y hk hkl hl => ?_⟩
      exact hsorted k l x y hk hkl (by omega)
    · obtain ⟨d, rfl⟩ : ∃ d : ℕ, i = start + d := ⟨(i - start).toNat, by omega⟩
      refine inner_returns h0 (by omega) hlimit ?_ d arr hsize le_rfl ?_
      · intro arr1 hsize1 hsorted1
        exact ih arr1 _ hsize1 (by omega) (by push_cast at hm; omega) hsorted1
      · intro k l x y hk hkl hl hne
        exact hsorted k l x y hk hkl (by omega)

/-- **The sort by insertion** sorts its range. -/
theorem insertSort_returns (h0 : 0 ≤ start) (hn : start + n ≤ arr.size) :
    Returns (insertSort cmp start n) arr fun _ => Sorts cmp start (start + n) arr :=
  outer_returns h0 hn n.toNat arr (start + 1) rfl (by omega) (by omega)
    (SortedOn.trivial le_rfl)

omit [Std.TransCmp cmp] in
theorem med3_returns {a b c : ℤ} (ha : lo ≤ a ∧ a < hi) (hb : lo ≤ b ∧ b < hi)
    (hc : lo ≤ c ∧ c < hi) (h0 : 0 ≤ lo) (hsize : hi ≤ arr.size) :
    Returns (med3 cmp a b c) arr fun m arr' => (lo ≤ m ∧ m < hi) ∧ arr' = arr := by
  obtain ⟨x, hx⟩ := item_of_bounds arr a (by omega) (by omega)
  obtain ⟨y, hy⟩ := item_of_bounds arr b (by omega) (by omega)
  obtain ⟨z, hz⟩ := item_of_bounds arr c (by omega) (by omega)
  refine returns_sub_bind hx (returns_sub_bind hy (returns_sub_bind hz ?_))
  split
  · exact returns_pure ⟨hb, rfl⟩
  · split
    · exact returns_pure ⟨hc, rfl⟩
    · exact returns_pure ⟨ha, rfl⟩
  · exact returns_pure ⟨hb, rfl⟩
  · split
    · exact returns_pure ⟨ha, rfl⟩
    · exact returns_pure ⟨hc, rfl⟩

omit [Std.TransCmp cmp] in
theorem getPivot_returns {a : ℤ} (h0 : 0 ≤ a) (hn : 1 ≤ n) (hsize : a + n ≤ arr.size) :
    Returns (getPivot cmp a n) arr fun m arr' => (a ≤ m ∧ m < a + n) ∧ arr' = arr := by
  unfold getPivot
  split_ifs with h7 h40
  · exact returns_pure ⟨by omega, rfl⟩
  · exact med3_returns (by omega) (by omega) (by omega) h0 hsize
  · refine returns_bind_of (med3_returns (by omega) (by omega) (by omega) h0 hsize) ?_
    rintro p1 _ ⟨h1, rfl⟩
    refine returns_bind_of (med3_returns (by omega) (by omega) (by omega) h0 hsize) ?_
    rintro pm _ ⟨hm, rfl⟩
    refine returns_bind_of (med3_returns (by omega) (by omega) (by omega) h0 hsize) ?_
    rintro pn _ ⟨hn, rfl⟩
    exact med3_returns h1 hm hn h0 hsize

/-! ### The partition -/

def Cmp (cmp : α → α → Ordering) (p : α) (o : Ordering) (arr : Array α) (lo hi : ℤ) : Prop :=
  All arr lo hi fun x => cmp x p = o

variable {p : α} {a : ℤ}

omit [Std.TransCmp cmp] in
theorem Cmp.of_item {o : Ordering} (h : Cmp cmp p o arr lo hi) (hk : lo ≤ k) (hk' : k < hi)
    (hx : item arr k = some x) : cmp x p = o := by
  obtain ⟨y, hy, hyp⟩ := h k hk hk'
  rw [hx, Option.some.injEq] at hy
  rw [hy, hyp]

omit [Std.TransCmp cmp] in
/-- **Going up**: equal elements are collected at the front, and the element after the smaller
ones, if it is not behind `limit`, is greater. -/
theorem bottom_returns (h0 : 0 ≤ a) (hlimit : limit < size) (m : ℕ) :
    ∀ (arr : Array α) (pa pb : ℤ), arr.size = size → item arr a = some p → a < pa → pa ≤ pb →
      pb + m = limit + 1 → Cmp cmp p .eq arr (a + 1) pa → Cmp cmp p .lt arr pa pb →
      Returns (bottom cmp a limit pa pb) arr fun r arr' =>
        (pa ≤ r.1 ∧ r.1 ≤ r.2 ∧ pb ≤ r.2 ∧ r.2 ≤ limit + 1) ∧ Moves pa r.2 arr arr' ∧
          Cmp cmp p .eq arr' (a + 1) r.1 ∧ Cmp cmp p .lt arr' r.1 r.2 ∧
            (r.2 ≤ limit → ∃ x, item arr' r.2 = some x ∧ cmp x p = .gt) := by
  induction m with
  | zero =>
    intro arr pa pb hsize hp ha hab hm heq hlt
    rw [bottom, if_pos (by omega)]
    exact returns_pure ⟨by omega, Moves.refl _ _ _, heq, hlt, fun h => by omega⟩
  | succ m ih =>
    intro arr pa pb hsize hp ha hab hm heq hlt
    obtain ⟨x, hx⟩ := item_of_bounds arr pb (by omega) (by omega)
    rw [bottom, if_neg (by omega)]
    refine returns_sub_bind hx (returns_sub_bind hp ?_)
    split
    · next hgt =>
      exact returns_pure ⟨by omega, Moves.refl _ _ _, heq, hlt, fun _ => ⟨x, hx, hgt⟩⟩
    · next hlt' =>
      refine (ih arr pa (pb + 1) hsize hp ha (by omega) (by omega) heq
        (hlt.snoc hx hlt')).mono ?_
      rintro ⟨pa', pb'⟩ arr' ⟨hbounds, hrest⟩
      exact ⟨by simp only at hbounds ⊢; omega, hrest⟩
    · next heq' =>
      refine returns_bind_of (returns_swap (by omega) (by omega) (by omega) (by omega)) ?_
      rintro - arr1 ⟨hsize1, hitem⟩
      have hmoves : Moves pa (pb + 1) arr arr1 :=
        moves_swap (by omega) (by omega) hsize1 hitem
      have hp1 : item arr1 a = some p := (hmoves.item_eq (by omega)).trans hp
      have heq1 : Cmp cmp p .eq arr1 (a + 1) (pa + 1) := by
        refine (heq.apart hmoves (by omega)).snoc (x := x) ?_ heq'
        rw [hitem, Equiv.swap_apply_left, hx]
      have hlt1 : Cmp cmp p .lt arr1 (pa + 1) (pb + 1) := by
        intro k hk hk'
        rw [hitem, Equiv.swap_apply_def, if_neg (by omega)]
        split_ifs with hkb
        · exact hlt pa le_rfl (by omega)
        · exact hlt k (by omega) (by omega)
      refine (ih arr1 (pa + 1) (pb + 1) (hsize1.trans hsize) hp1 (by omega) (by omega) (by omega)
        heq1 hlt1).mono ?_
      rintro ⟨pa', pb'⟩ arr' ⟨hbounds, hmoves', hrest⟩
      exact ⟨by omega, (hmoves.mono le_rfl (by omega)).trans (hmoves'.mono (by omega) le_rfl),
        hrest⟩

omit [Std.TransCmp cmp] in
/-- **Going down**: equal elements are collected at the back, and the element before the greater
ones, if it is not before `limit`, is smaller. -/
theorem top_returns (limit pn : ℤ) (h0 : 0 ≤ a) (ha : a < limit) (hpn : pn ≤ size) (m : ℕ) :
    ∀ (arr : Array α) (pc pd : ℤ), arr.size = size → item arr a = some p → pc ≤ pd → pd < pn →
      pc + 1 = limit + m → Cmp cmp p .gt arr (pc + 1) (pd + 1) →
      Cmp cmp p .eq arr (pd + 1) pn →
      Returns (top cmp a limit pc pd) arr fun r arr' =>
        (r.1 ≤ r.2 ∧ r.1 ≤ pc ∧ r.2 ≤ pd ∧ limit ≤ r.1 + 1) ∧
          Moves (r.1 + 1) (pd + 1) arr arr' ∧
          Cmp cmp p .gt arr' (r.1 + 1) (r.2 + 1) ∧ Cmp cmp p .eq arr' (r.2 + 1) pn ∧
            (limit ≤ r.1 → ∃ x, item arr' r.1 = some x ∧ cmp x p = .lt) := by
  induction m with
  | zero =>
    intro arr pc pd hsize hp hcd hdn hm hgt heq
    rw [top, if_pos (by omega)]
    exact returns_pure ⟨by omega, Moves.refl _ _ _, hgt, heq, fun h => by omega⟩
  | succ m ih =>
    intro arr pc pd hsize hp hcd hdn hm hgt heq
    obtain ⟨x, hx⟩ := item_of_bounds arr pc (by omega) (by omega)
    rw [top, if_neg (by omega)]
    refine returns_sub_bind hx (returns_sub_bind hp ?_)
    split
    · next hlt' =>
      exact returns_pure ⟨by omega, Moves.refl _ _ _, hgt, heq, fun _ => ⟨x, hx, hlt'⟩⟩
    · next hgt' =>
      have hgt1 : Cmp cmp p .gt arr (pc - 1 + 1) (pd + 1) := by
        rw [sub_add_cancel]
        exact hgt.cons hx hgt'
      refine (ih arr (pc - 1) pd hsize hp (by omega) hdn (by omega) hgt1 heq).mono ?_
      rintro ⟨pc', pd'⟩ arr' ⟨hbounds, hrest⟩
      exact ⟨by simp only at hbounds ⊢; omega, hrest⟩
    · next heq' =>
      refine returns_bind_of (returns_swap (by omega) (by omega) (by omega) (by omega)) ?_
      rintro - arr1 ⟨hsize1, hitem⟩
      have hmoves : Moves pc (pd + 1) arr arr1 :=
        moves_swap (by omega) (by omega) hsize1 hitem
      have hp1 : item arr1 a = some p := (hmoves.item_eq (by omega)).trans hp
      have heq1 : Cmp cmp p .eq arr1 (pd - 1 + 1) pn := by
        rw [sub_add_cancel]
        refine (heq.apart hmoves (by omega)).cons (x := x) ?_ heq'
        rw [hitem, Equiv.swap_apply_right, hx]
      have hgt1 : Cmp cmp p .gt arr1 (pc - 1 + 1) (pd - 1 + 1) := by
        intro k hk hk'
        rw [hitem, Equiv.swap_apply_def]
        split_ifs with hkc hkd
        · exact hgt pd (by omega) (by omega)
        · omega
        · exact hgt k (by omega) (by omega)
      refine (ih arr1 (pc - 1) (pd - 1) (hsize1.trans hsize) hp1 (by omega) (by omega) (by omega)
        hgt1 heq1).mono ?_
      rintro ⟨pc', pd'⟩ arr' ⟨hbounds, hmoves', hrest⟩
      exact ⟨by omega, (hmoves.mono (by omega) le_rfl).trans (hmoves'.mono le_rfl (by omega)),
        hrest⟩

/-- A partition of the range from `a` to `pn` that is under way: what has been seen compares with
the pivot `p` as it should, and the elements from `pb` to `pc` have not been seen. -/
structure Part (cmp : α → α → Ordering) (p : α) (a pn : ℤ) (arr : Array α) (pa pb pc pd : ℤ) :
    Prop where
  pivot : item arr a = some p
  eq_left : Cmp cmp p .eq arr (a + 1) pa
  lt_left : Cmp cmp p .lt arr pa pb
  gt_right : Cmp cmp p .gt arr (pc + 1) (pd + 1)
  eq_right : Cmp cmp p .eq arr (pd + 1) pn
  lt_pa : a < pa
  pa_le : pa ≤ pb
  pb_le : pb ≤ pc + 1
  pc_le : pc ≤ pd
  pd_lt : pd < pn

omit [Std.TransCmp cmp] in
/-- **One round of the partition**: up, down and, when the two have not met, a swap. -/
theorem split_step {pa pb pc pd : ℤ} (h0 : 0 ≤ a) (hpn : pn ≤ arr.size)
    (h : Part cmp p a pn arr pa pb pc pd)
    (next : ∀ (arr' : Array α) (pa' pb' pc' pd' : ℤ), Moves (a + 1) pn arr arr' →
      Part cmp p a pn arr' pa' pb' pc' pd' → pc' - pb' + 2 ≤ pc - pb →
      Returns (split cmp a pa' pb' pc' pd') arr' fun r arr'' => Moves (a + 1) pn arr' arr'' ∧
        r.2.1 = r.2.2.1 + 1 ∧ Part cmp p a pn arr'' r.1 r.2.1 r.2.2.1 r.2.2.2) :
    Returns (split cmp a pa pb pc pd) arr fun r arr' => Moves (a + 1) pn arr arr' ∧
      r.2.1 = r.2.2.1 + 1 ∧ Part cmp p a pn arr' r.1 r.2.1 r.2.2.1 r.2.2.2 := by
  obtain ⟨hp, heq, hlt, hgt, heq', h1, h2, h3, h4, h5⟩ := h
  rw [split]
  refine returns_bind_of (bottom_returns h0 (by omega) (pc + 1 - pb).toNat arr pa pb rfl hp h1 h2
    (by omega) heq hlt) ?_
  rintro ⟨pa1, pb1⟩ arr1 ⟨hb1, hm1, heq1, hlt1, hstop1⟩
  simp only at hb1 hm1 heq1 hlt1 hstop1 ⊢
  have hp1 : item arr1 a = some p := (hm1.item_eq (by omega)).trans hp
  refine returns_bind_of (top_returns pb1 pn h0 (by omega) hpn
    (pc + 1 - pb1).toNat arr1 pc pd hm1.1 hp1 h4 h5 (by omega) (hgt.apart hm1 (by omega))
    (heq'.apart hm1 (by omega))) ?_
  rintro ⟨pc2, pd2⟩ arr2 ⟨hb2, hm2, hgt2, heq2, hstop2⟩
  have hp2 : item arr2 a = some p := (hm2.item_eq (by omega)).trans hp1
  have hmoves : Moves (a + 1) pn arr arr2 :=
    (hm1.mono (by omega) (by omega)).trans (hm2.mono (by omega) (by omega))
  have heql : Cmp cmp p .eq arr2 (a + 1) pa1 := heq1.apart hm2 (by omega)
  have hltl : Cmp cmp p .lt arr2 pa1 pb1 := hlt1.apart hm2 (by omega)
  split_ifs with hmet
  · exact returns_pure ⟨hmoves, by simp only; omega, hp2, heql, hltl, hgt2, heq2,
      by simp only; omega, by simp only; omega, by simp only; omega, by simp only; omega,
      by simp only; omega⟩
  · -- a greater element on the left and a smaller one on the right change places
    obtain ⟨x, hx, hxp⟩ := hstop1 (by omega)
    obtain ⟨y, hy, hyp⟩ := hstop2 (by omega)
    have hsize2 : arr2.size = arr.size := hmoves.1
    have hx2 : item arr2 pb1 = some x := (hm2.item_eq (by omega)).trans hx
    have hne : pb1 ≠ pc2 := by
      rintro rfl
      rw [hx2, Option.some.injEq] at hy
      rw [hy, hyp] at hxp
      cases hxp
    refine returns_bind_of (returns_swap (by omega) (by omega) (by omega) (by omega)) ?_
    rintro - arr3 ⟨hsize3, hitem3⟩
    have hm3 : Moves pb1 (pc2 + 1) arr2 arr3 := moves_swap (by omega) (by omega) hsize3 hitem3
    have hmoves3 : Moves (a + 1) pn arr arr3 := hmoves.trans (hm3.mono (by omega) (by omega))
    have hlt3 : Cmp cmp p .lt arr3 pa1 (pb1 + 1) := by
      refine (hltl.apart hm3 (by omega)).snoc (x := y) ?_ hyp
      rw [hitem3, Equiv.swap_apply_left, hy]
    have hgt3 : Cmp cmp p .gt arr3 (pc2 - 1 + 1) (pd2 + 1) := by
      rw [sub_add_cancel]
      refine (hgt2.apart hm3 (by omega)).cons (x := x) ?_ hxp
      rw [hitem3, Equiv.swap_apply_right, hx2]
    have hpart : Part cmp p a pn arr3 pa1 (pb1 + 1) (pc2 - 1) pd2 :=
      ⟨(hm3.item_eq (by omega)).trans hp2, heql.apart hm3 (by omega), hlt3, hgt3,
        heq2.apart hm3 (by omega), by omega, by omega, by omega, by omega, by omega⟩
    refine (next arr3 pa1 (pb1 + 1) (pc2 - 1) pd2 hmoves3 hpart (by omega)).mono ?_
    rintro r arr4 ⟨hm4, hrest⟩
    exact ⟨hmoves3.trans hm4, hrest⟩

omit [Std.TransCmp cmp] in
/-- **The partition** ends, with nothing between the smaller and the greater elements. -/
theorem split_returns (h0 : 0 ≤ a) (m : ℕ) : ∀ (arr : Array α) (pa pb pc pd : ℤ),
    pn ≤ arr.size → pc < pb + m → Part cmp p a pn arr pa pb pc pd →
      Returns (split cmp a pa pb pc pd) arr fun r arr' => Moves (a + 1) pn arr arr' ∧
        r.2.1 = r.2.2.1 + 1 ∧ Part cmp p a pn arr' r.1 r.2.1 r.2.2.1 r.2.2.2 := by
  induction m with
  | zero =>
    intro arr pa pb pc pd hpn hm h
    refine split_step h0 hpn h fun arr' pa' pb' pc' pd' _ hpart' hlt => ?_
    have := hpart'.pb_le
    omega
  | succ m ih =>
    intro arr pa pb pc pd hpn hm h
    refine split_step h0 hpn h fun arr' pa' pb' pc' pd' hmoves' hpart' hlt => ?_
    exact ih arr' pa' pb' pc' pd' (by rw [hmoves'.1]; exact hpn) (by omega) hpart'

/-! ### Swaps of ranges -/

/-- The index that is swapped with `k` by a swap of the ranges of length `n` at `i` and at `j`. -/
def vecswapIndex (i j n k : ℤ) : ℤ :=
  if i ≤ k ∧ k < i + n then k - i + j else if j ≤ k ∧ k < j + n then k - j + i else k

/-- **A swap of ranges** that do not overlap. -/
theorem vecswap_returns (n : ℕ) : ∀ (arr : Array α) (i j : ℤ), lo ≤ i → i + n ≤ j → j + n ≤ hi →
    0 ≤ lo → hi ≤ arr.size →
    Returns (vecswap i j n) arr fun _ arr' =>
      Moves lo hi arr arr' ∧ ∀ k, item arr' k = item arr (vecswapIndex i j n k) := by
  induction n with
  | zero =>
    intro arr i j hlo hij hhi h0 hsize
    rw [vecswap]
    refine returns_pure ⟨Moves.refl _ _ _, fun k => ?_⟩
    rw [vecswapIndex, if_neg (by omega), if_neg (by omega)]
  | succ n ih =>
    intro arr i j hlo hij hhi h0 hsize
    have hpred : ((n + 1 : ℕ) : ℤ) - 1 = n := by push_cast; ring
    rw [vecswap, hpred]
    refine returns_bind_of (returns_swap (by omega) (by omega) (by omega) (by omega)) ?_
    rintro - arr1 ⟨hsize1, hitem1⟩
    have hmoves1 : Moves lo hi arr arr1 := moves_swap (by omega) (by omega) hsize1 hitem1
    refine (ih arr1 (i + 1) (j + 1) (by omega) (by omega) (by omega) h0 (by omega)).mono ?_
    rintro - arr2 ⟨hmoves2, hitem2⟩
    refine ⟨hmoves1.trans hmoves2, fun k => ?_⟩
    rw [hitem2, hitem1]
    congr 1
    simp only [vecswapIndex, Equiv.swap_apply_def]
    split_ifs <;> omega

theorem All.of_vecswap {P : α → Prop} (h : All arr lo hi P)
    (hitem : ∀ k, item arr' k = item arr (vecswapIndex i j n k)) (hrange : ∀ k, lo' ≤ k → k < hi' →
      lo ≤ vecswapIndex i j n k ∧ vecswapIndex i j n k < hi) : All arr' lo' hi' P := by
  intro k hk hk'
  obtain ⟨h1, h2⟩ := hrange k hk hk'
  rw [hitem]
  exact h _ h1 h2

/-- **The swaps that complete the partition**: the equal elements at both ends go into the
middle. -/
theorem center_returns {pa pb pc pd : ℤ} (h0 : 0 ≤ a) (hpn : pn ≤ arr.size) (hmet : pb = pc + 1)
    (h : Part cmp p a pn arr pa pb pc pd) :
    Returns (vecswap a (pb - min (pa - a) (pb - pa)) (min (pa - a) (pb - pa))) arr fun _ arr1 =>
      Returns (vecswap pb (pn - min (pd - pc) (pn - pd - 1)) (min (pd - pc) (pn - pd - 1))) arr1
        fun _ arr' => Moves a pn arr arr' ∧ Cmp cmp p .lt arr' a (a + (pb - pa)) ∧
          Cmp cmp p .eq arr' (a + (pb - pa)) (pn - (pd - pc)) ∧
          Cmp cmp p .gt arr' (pn - (pd - pc)) pn := by
  obtain ⟨hp, heq, hlt, hgt, heq', h1, h2, h3, h4, h5⟩ := h
  have heq0 : Cmp cmp p .eq arr a pa := heq.cons hp Std.ReflCmp.compare_self
  obtain ⟨r, hr⟩ : ∃ r : ℕ, min (pa - a) (pb - pa) = r := ⟨(min (pa - a) (pb - pa)).toNat, by omega⟩
  obtain ⟨t, ht⟩ : ∃ t : ℕ, min (pd - pc) (pn - pd - 1) = t :=
    ⟨(min (pd - pc) (pn - pd - 1)).toNat, by omega⟩
  rw [hr, ht]
  have hfirst : Returns (vecswap a (pb - r) r) arr fun _ arr' =>
      Moves a pb arr arr' ∧ ∀ k, item arr' k = item arr (vecswapIndex a (pb - r) r k) :=
    vecswap_returns r arr a (pb - r) le_rfl (by omega) (by omega) h0 (by omega)
  refine hfirst.mono ?_
  rintro - arr1 ⟨hm1, hitem1⟩
  have hlt1 : Cmp cmp p .lt arr1 a (a + (pb - pa)) := by
    refine hlt.of_vecswap hitem1 fun k hk hk' => ?_
    unfold vecswapIndex
    split_ifs <;> omega
  have heq1 : Cmp cmp p .eq arr1 (a + (pb - pa)) pb := by
    refine heq0.of_vecswap hitem1 fun k hk hk' => ?_
    unfold vecswapIndex
    split_ifs <;> omega
  have hgt1 : Cmp cmp p .gt arr1 pb (pd + 1) := by
    refine All.apart ?_ hm1 (by omega)
    rw [hmet]
    exact hgt
  have heq1' : Cmp cmp p .eq arr1 (pd + 1) pn := heq'.apart hm1 (by omega)
  have hsecond : Returns (vecswap pb (pn - t) t) arr1 fun _ arr' =>
      Moves pb pn arr1 arr' ∧ ∀ k, item arr' k = item arr1 (vecswapIndex pb (pn - t) t k) :=
    vecswap_returns t arr1 pb (pn - t) le_rfl (by omega) (by omega) (by omega)
      (by rw [hm1.1]; exact hpn)
  refine hsecond.mono ?_
  rintro - arr2 ⟨hm2, hitem2⟩
  have hgt2 : Cmp cmp p .gt arr2 (pn - (pd - pc)) pn := by
    refine hgt1.of_vecswap hitem2 fun k hk hk' => ?_
    unfold vecswapIndex
    split_ifs <;> omega
  have heq2 : Cmp cmp p .eq arr2 pb (pn - (pd - pc)) := by
    refine heq1'.of_vecswap hitem2 fun k hk hk' => ?_
    unfold vecswapIndex
    split_ifs <;> omega
  exact ⟨(hm1.mono le_rfl (by omega)).trans (hm2.mono (by omega) le_rfl),
    hlt1.apart hm2 (by omega), (heq1.apart hm2 (by omega)).append heq2, hgt2⟩

/-! ### The sort -/

theorem SortedOn.of_cmp {mid mid' : ℤ} (hlt : Cmp cmp p .lt arr lo mid)
    (heq : Cmp cmp p .eq arr mid mid') (hgt : Cmp cmp p .gt arr mid' hi)
    (hleft : SortedOn cmp arr lo mid) (hright : SortedOn cmp arr mid' hi) :
    SortedOn cmp arr lo hi := by
  -- an element before the greater ones is at most the pivot, one after the smaller ones at least
  have hle : ∀ k x, lo ≤ k → k < mid' → item arr k = some x → (cmp x p).isLE := by
    intro k x hk hk' hx
    rcases lt_or_ge k mid with hlt' | hge
    · exact Ordering.isLE_of_eq_lt (hlt.of_item hk hlt' hx)
    · exact Ordering.isLE_of_eq_eq (heq.of_item hge hk' hx)
  have hge : ∀ k x, mid ≤ k → k < hi → item arr k = some x → (cmp p x).isLE := by
    intro k x hk hk' hx
    rcases lt_or_ge k mid' with hlt' | hge
    · exact Ordering.isLE_of_eq_eq (Std.OrientedCmp.eq_symm (heq.of_item hk hlt' hx))
    · exact Ordering.isLE_of_eq_lt (Std.OrientedCmp.lt_of_gt (hgt.of_item hge hk' hx))
  intro k l x y hk hkl hl hx hy
  rcases lt_or_ge l mid with hl1 | hl1
  · exact hleft k l x y hk hkl hl1 hx hy
  rcases lt_or_ge k mid' with hk1 | hk1
  · exact Std.TransCmp.isLE_trans (hle k x hk hk1 hx) (hge l y hl1 hl hy)
  · exact hright k l x y hk1 hkl hl hx hy

theorem part_returns (a n' : ℤ) (hn' : 0 ≤ n') (hlt : n' < n)
    (ih : ∀ (arr : Array α) (a n' : ℤ), arr.size = size → 0 ≤ a → 0 ≤ n' → n' < n →
      a + n' ≤ size → Returns (sort cmp a n') arr fun _ => Sorts cmp a (a + n') arr)
    (hsize : arr.size = size) (h0 : 0 ≤ a) (ha : a + n' ≤ size) :
    Returns (if n' > 1 then sort cmp a n' else pure ()) arr fun _ =>
      Sorts cmp a (a + n') arr := by
  split_ifs with h1
  · exact ih arr a n' hsize h0 hn' hlt ha
  · exact returns_pure ⟨Moves.refl _ _ _, SortedOn.trivial (by omega)⟩

/-- **The quicksort** sorts its range when it sorts every shorter one. -/
theorem quickSort_returns (h0 : 0 ≤ a) (hn : 1 ≤ n) (hend : a + n ≤ size) (hsize : arr.size = size)
    (ih : ∀ (arr : Array α) (a n' : ℤ), arr.size = size → 0 ≤ a → 0 ≤ n' → n' < n →
      a + n' ≤ size → Returns (sort cmp a n') arr fun _ => Sorts cmp a (a + n') arr) :
    Returns (quickSort cmp a n) arr fun _ => Sorts cmp a (a + n) arr := by
  rw [quickSort]
  refine returns_bind_of (getPivot_returns h0 hn (by omega)) ?_
  rintro pm arr0 ⟨hpm, harr⟩
  rw [harr]
  refine returns_bind_of (returns_swap h0 (by omega) (by omega) (by omega)) ?_
  rintro - arr1 ⟨hsize1, hitem1⟩
  have hm1 : Moves a (a + n) arr arr1 := moves_swap (by omega) hpm hsize1 hitem1
  obtain ⟨p, hp⟩ := item_of_bounds arr1 a h0 (by omega)
  have hpart : Part cmp p a (a + n) arr1 (a + 1) (a + 1) (a + (n - 1)) (a + (n - 1)) :=
    ⟨hp, All.nil le_rfl, All.nil le_rfl, All.nil le_rfl, All.nil (by omega), by omega, le_rfl,
      by omega, le_rfl, by omega⟩
  refine returns_bind_of (split_returns h0 (n - 1).toNat arr1 _ _ _ _ (by omega) (by omega)
    hpart) ?_
  rintro ⟨pa, pb, pc, pd⟩ arr2 ⟨hm2, hmet, hpart2⟩
  simp only at hmet hpart2 ⊢
  have hpa := hpart2.lt_pa
  have hab := hpart2.pa_le
  have hcd := hpart2.pc_le
  have hdn := hpart2.pd_lt
  have hm12 : Moves a (a + n) arr arr2 := hm1.trans (hm2.mono (by omega) le_rfl)
  have hsize2 : arr2.size = size := hm12.1.trans hsize
  refine returns_bind ((center_returns h0 (by omega) hmet hpart2).mono fun _ arr3 h3 => ?_)
  refine returns_bind (h3.mono ?_)
  rintro - arr4 ⟨hm4, hlt4, heq4, hgt4⟩
  have hm14 : Moves a (a + n) arr arr4 := hm12.trans hm4
  refine returns_bind_of (part_returns a (pb - pa) (by omega) (by omega) ih (hm14.1.trans hsize) h0
    (by omega)) ?_
  rintro - arr5 ⟨hm5, hsorted5⟩
  have hm15 : Moves a (a + n) arr arr5 := hm14.trans (hm5.mono le_rfl (by omega))
  refine (part_returns (a + n - (pd - pc)) (pd - pc) (by omega) (by omega) ih
    (hm15.1.trans hsize) (by omega) (by omega)).mono ?_
  rintro - arr6 ⟨hm6, hsorted6⟩
  rw [sub_add_cancel] at hm6 hsorted6
  have hlt6 : Cmp cmp p .lt arr6 a (a + (pb - pa)) :=
    (hlt4.moves hm5 le_rfl le_rfl).apart hm6 (by omega)
  have heq6 : Cmp cmp p .eq arr6 (a + (pb - pa)) (a + n - (pd - pc)) :=
    (heq4.apart hm5 (by omega)).apart hm6 (by omega)
  have hgt6 : Cmp cmp p .gt arr6 (a + n - (pd - pc)) (a + n) :=
    (hgt4.apart hm5 (by omega)).moves hm6 le_rfl le_rfl
  exact ⟨hm15.trans (hm6.mono (by omega) le_rfl),
    SortedOn.of_cmp hlt6 heq6 hgt6 (hsorted5.apart hm6 (by omega)) hsorted6⟩

/-- **The sort** ends and sorts its range. -/
theorem sort_returns (m : ℕ) : ∀ (arr : Array α) (a n : ℤ), arr.size = size → 0 ≤ a →
    0 ≤ n → n < m → a + n ≤ size →
      Returns (sort cmp a n) arr fun _ => Sorts cmp a (a + n) arr := by
  induction m with
  | zero => intro arr a n _ _ hn hm; omega
  | succ m ih =>
    intro arr a n hsize h0 hn hm hend
    rw [sort]
    split_ifs with h7
    · exact insertSort_returns h0 (by omega)
    · refine quickSort_returns h0 (by omega) hend hsize fun arr a n' hsize h0 hn' hlt hend => ?_
      exact ih arr a n' hsize h0 hn' (by push_cast at hm; omega) hend

end Order

/-! ### The elements of a range -/

def indices (lo : ℤ) (n : ℕ) : List ℤ := (List.range n).map fun k : ℕ => lo + k

theorem mem_indices {n : ℕ} : k ∈ indices lo n ↔ lo ≤ k ∧ k < lo + n := by
  simp only [indices, List.mem_map, List.mem_range]
  constructor
  · rintro ⟨d, hd, rfl⟩
    omega
  · rintro ⟨h1, h2⟩
    exact ⟨(k - lo).toNat, by omega, by omega⟩

theorem nodup_indices (lo : ℤ) (n : ℕ) : (indices lo n).Nodup := by
  refine List.Nodup.map (fun a b h => ?_) List.nodup_range
  exact Nat.cast_injective (add_left_cancel h)

theorem extract_eq {start n : ℕ} (h : start + n ≤ arr.size) :
    (arr.extract start (start + n)).toList.map some = (indices start n).map (item arr) := by
  refine List.ext_getElem ?_ fun d h1 h2 => ?_
  · simp only [indices, List.length_map, Array.length_toList, Array.size_extract, List.length_range]
    omega
  · simp only [indices, List.length_map, List.length_range] at h2
    have hitem : item arr (start + d : ℕ) = some (arr[start + d]) := by
      rw [item, if_pos (Int.natCast_nonneg _), Int.toNat_natCast, Array.getElem?_eq_getElem]
    simp only [indices, List.getElem_map, List.getElem_range, Array.getElem_toList,
      Array.getElem_extract]
    rw [← hitem]
    rfl

theorem Moves.perm {start n : ℕ} (h : Moves start (start + n) arr arr')
    (hsize : start + n ≤ arr.size) :
    (arr'.extract start (start + n)).toList.Perm (arr.extract start (start + n)).toList := by
  obtain ⟨hsize', σ, hσ, hitem⟩ := h
  have hperm : ((indices start n).map σ).Perm (indices start n) := by
    refine (List.perm_ext_iff_of_nodup ((nodup_indices _ _).map σ.injective)
      (nodup_indices _ _)).2 fun k => ?_
    rw [List.mem_map, mem_indices]
    constructor
    · rintro ⟨l, hl, rfl⟩
      exact perm_mem_range hσ (mem_indices.1 hl)
    · intro hk
      refine ⟨σ.symm k, mem_indices.2 ?_, σ.apply_symm_apply k⟩
      by_contra hout
      have hfix := hσ _ hout
      rw [σ.apply_symm_apply] at hfix
      rw [← hfix] at hout
      exact hout hk
  have hsome : ((arr'.extract start (start + n)).toList.map some).Perm
      ((arr.extract start (start + n)).toList.map some) := by
    rw [extract_eq hsize, extract_eq (by omega)]
    have hmap : (indices start n).map (item arr') = ((indices start n).map σ).map (item arr) := by
      rw [List.map_map]
      exact List.map_congr_left fun k _ => hitem k
    rw [hmap]
    exact hperm.map _
  have := hsome.filterMap id
  simpa only [List.filterMap_map, Function.id_comp, List.filterMap_some] using this

theorem SortedOn.pairwise {cmp : α → α → Ordering} {start n : ℕ}
    (h : SortedOn cmp arr start (start + n)) (hsize : start + n ≤ arr.size) :
    (arr.extract start (start + n)).toList.Pairwise fun x y => cmp x y ≠ .gt := by
  rw [List.pairwise_iff_getElem]
  intro d e hd he hde
  simp only [Array.length_toList, Array.size_extract] at hd he
  have hitem : ∀ d : ℕ, ∀ hd : start + d < arr.size, item arr (start + d) = some arr[start + d] := by
    intro d hd
    rw [item, if_pos (by omega)]
    have : ((start : ℤ) + d).toNat = start + d := by omega
    rw [this, Array.getElem?_eq_getElem]
  simp only [Array.getElem_toList, Array.getElem_extract]
  refine Ordering.ne_gt_iff_isLE.2 (h (start + d) (start + e) _ _ (by omega) (by omega) (by omega)
    (hitem d (by omega)) (hitem e (by omega)))

/-- **The sort of a range is correct.**  For every comparison that is a total preorder, every
array and every range in its bounds, the sort ends without an exception, so all accesses are in
bounds; the range of the array that it leaves is an ascending permutation of what was there, and
every other element is the same. -/
theorem sortRange_correct (cmp : α → α → Ordering) [Std.TransCmp cmp] (arr : Array α)
    (start n : ℕ) (h : start + n ≤ arr.size) :
    ∃ arr', (sortRange cmp start n).run.run arr = some (.ok (), arr') ∧
      arr'.size = arr.size ∧
      (arr'.extract start (start + n)).toList.Perm (arr.extract start (start + n)).toList ∧
      ((arr'.extract start (start + n)).toList.Pairwise fun x y => cmp x y ≠ .gt) ∧
      ∀ k, k < start ∨ start + n ≤ k → arr'[k]? = arr[k]? := by
  have hsort : Returns (sort cmp start n) arr fun _ => Sorts cmp start (start + n) arr :=
    sort_returns (n + 1) arr start n rfl (by omega) (by omega) (by omega) (by omega)
  obtain ⟨⟨⟩, arr', hrun, hmoves, hsorted⟩ := hsort
  refine ⟨arr', hrun, hmoves.1, hmoves.perm h, hsorted.pairwise (by rw [hmoves.1]; exact h), ?_⟩
  intro k hk
  have hitem := hmoves.item_eq (k := k) (by omega)
  simpa only [item, if_pos (Int.natCast_nonneg _), Int.toNat_natCast] using hitem

/-- Seven pairs, of which the first component is compared, are partitioned. -/
theorem sortRange_correct_pairs :
    ∃ arr', (sortRange (compareOn Prod.fst) 1 7).run.run
        #[(9, 0), (3, 1), (1, 2), (2, 3), (3, 4), (1, 5), (5, 6), (0, 7)] = some (.ok (), arr') ∧
      arr'[0]? = some ((9, 0) : ℕ × ℕ) := by
  obtain ⟨arr', hrun, -, -, -, hrest⟩ := sortRange_correct (compareOn Prod.fst)
    #[((9, 0) : ℕ × ℕ), (3, 1), (1, 2), (2, 3), (3, 4), (1, 5), (5, 6), (0, 7)] 1 7 (by decide)
  exact ⟨arr', hrun, hrest 0 (Or.inl (by decide))⟩

end SmlNj.ArrayQSort
