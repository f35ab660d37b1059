import Mathlib
import SmlNj.Lib.KeyedList
import SmlNj.Library.RedBlackBalance

/-!
# The items of red-black trees in order

The operations on trees do to the items in order what the operations on ordered lists do: a tree
is inserted into, deleted from and merged as the list of its items is.  A zipper has the items
before and after its place, a stack those that are still to come, and digits those so far.

## Main results

* `toList_ins`, `snd_ins` — the insertion of an item, and the counter.
* `toList_del` — the deletion of an item.
* `toList_linkAll`, `toList_addItem` — the construction from an ordered sequence.
* `union'_eq`, `intersect_eq`, `diff_eq`, `merge_eq` — trees from two trees.
-/

namespace SmlNj.RedBlack

open Color RedBlack.Tree Zipper KeyedList

variable {α κ : Type*} [LinearOrder κ] {key : α → κ}

/-! ### Insertion -/

section Insert

variable {x : α} {upd : α → α} {nItems : ℕ}

/-- **The insertion** does to the items in order what the insertion into a list does. -/
theorem toList_ins {t : Tree α} {m : ℕ} (h : Ascending key (toList t)) :
    toList (ins key x upd nItems t m).1 = KeyedList.insert key x upd (toList t) := by
  fun_induction ins key x upd nItems t m with
  | case1 => rfl
  | case2 color y b m hy c z d hz e w f m' hins ih
  | case3 color y b m hy c z d hz c' m' hne hins ih =>
    have hyx : key x < key y := compare_lt_iff_lt.1 hy
    have hzx : key x < key z := compare_lt_iff_lt.1 hz
    rw [hins] at ih
    have hc := ih h.around.1.1.around.1.1
    simp only [toList] at hc ⊢
    rw [insert_append_of_lt _ _ hyx, insert_append_of_lt _ _ hzx]
    simp [← hc]
  | case4 color y b m hy c z d hz =>
    have hyx : key x < key y := compare_lt_iff_lt.1 hy
    have hzx : key x = key z := compare_eq_iff_eq.1 hz
    have ha := h.around.1.1.around.1.2
    simp only [toList]
    rw [insert_append_of_lt _ _ hyx, insert_append_of_eq _ (hzx ▸ ha) hzx]
  | case5 color y b m hy c z d hz e w f m' hins ih
  | case6 color y b m hy c z d hz d' m' hne hins ih =>
    have hyx : key x < key y := compare_lt_iff_lt.1 hy
    have hzx : key z < key x := compare_gt_iff_gt.1 hz
    rw [hins] at ih
    have hd := ih h.around.1.1.around.2.1
    simp only [toList] at hd ⊢
    rw [insert_append_of_lt _ _ hyx, h.around.1.1.insert_around_of_gt hzx]
    simp [← hd]
  | case7 color y b m hy a hne a' m' hins ih =>
    have hyx : key x < key y := compare_lt_iff_lt.1 hy
    rw [hins] at ih
    have ha := ih h.around.1.1
    simp only [toList] at ha ⊢
    rw [insert_append_of_lt _ _ hyx, ← ha]
  | case8 color a y b m hy =>
    have hyx : key x = key y := compare_eq_iff_eq.1 hy
    simp only [toList]
    rw [insert_append_of_eq _ (hyx ▸ h.around.1.2) hyx]
  | case9 color a y m hy c z d hz e w f m' hins ih
  | case10 color a y m hy c z d hz c' m' hne hins ih =>
    have hyx : key y < key x := compare_gt_iff_gt.1 hy
    have hzx : key x < key z := compare_lt_iff_lt.1 hz
    rw [hins] at ih
    have hc := ih h.around.2.1.around.1.1
    simp only [toList] at hc h ⊢
    rw [h.insert_around_of_gt hyx, insert_append_of_lt _ _ hzx]
    simp [← hc]
  | case11 color a y m hy c z d hz =>
    have hyx : key y < key x := compare_gt_iff_gt.1 hy
    have hzx : key x = key z := compare_eq_iff_eq.1 hz
    have ha := h.around.2.1.around.1.2
    simp only [toList] at h ⊢
    rw [h.insert_around_of_gt hyx, insert_append_of_eq _ (hzx ▸ ha) hzx]
  | case12 color a y m hy c z d hz e w f m' hins ih
  | case13 color a y m hy c z d hz d' m' hne hins ih =>
    have hyx : key y < key x := compare_gt_iff_gt.1 hy
    have hzx : key z < key x := compare_gt_iff_gt.1 hz
    rw [hins] at ih
    have hd := ih h.around.2.1.around.2.1
    simp only [toList] at hd h ⊢
    rw [h.insert_around_of_gt hyx, h.around.2.1.insert_around_of_gt hzx]
    simp [← hd]
  | case14 color a y m hy b hne b' m' hins ih =>
    have hyx : key y < key x := compare_gt_iff_gt.1 hy
    rw [hins] at ih
    have hb := ih h.around.2.1
    simp only [toList] at hb h ⊢
    rw [h.insert_around_of_gt hyx, ← hb]

/-- **The counter** is set when the key is new. -/
theorem snd_ins {t : Tree α} {m : ℕ} (h : Ascending key (toList t)) :
    (ins key x upd nItems t m).2 =
      (KeyedList.find key (key x) (toList t)).elim (nItems + 1) fun _ => m := by
  fun_induction ins key x upd nItems t m with
  | case1 => rfl
  | case2 color y b m hy c z d hz e w f m' hins ih
  | case3 color y b m hy c z d hz c' m' hne hins ih =>
    have ih := ih h.around.1.1.around.1.1
    rw [hins] at ih
    simp only [toList] at h ⊢
    rw [h.find_around_of_lt (compare_lt_iff_lt.1 hy),
      h.around.1.1.find_around_of_lt (compare_lt_iff_lt.1 hz)]
    exact ih
  | case4 color y b m hy c z d hz =>
    simp only [toList] at h ⊢
    rw [h.find_around_of_lt (compare_lt_iff_lt.1 hy),
      h.around.1.1.find_around_of_eq (compare_eq_iff_eq.1 hz)]
    rfl
  | case5 color y b m hy c z d hz e w f m' hins ih
  | case6 color y b m hy c z d hz d' m' hne hins ih =>
    have ih := ih h.around.1.1.around.2.1
    rw [hins] at ih
    simp only [toList] at h ⊢
    rw [h.find_around_of_lt (compare_lt_iff_lt.1 hy),
      h.around.1.1.find_around_of_gt (compare_gt_iff_gt.1 hz)]
    exact ih
  | case7 color y b m hy a hne a' m' hins ih =>
    have ih := ih h.around.1.1
    rw [hins] at ih
    simp only [toList] at h ⊢
    rw [h.find_around_of_lt (compare_lt_iff_lt.1 hy)]
    exact ih
  | case8 color a y b m hy =>
    simp only [toList] at h ⊢
    rw [h.find_around_of_eq (compare_eq_iff_eq.1 hy)]
    rfl
  | case9 color a y m hy c z d hz e w f m' hins ih
  | case10 color a y m hy c z d hz c' m' hne hins ih =>
    have ih := ih h.around.2.1.around.1.1
    rw [hins] at ih
    simp only [toList] at h ⊢
    rw [h.find_around_of_gt (compare_gt_iff_gt.1 hy),
      h.around.2.1.find_around_of_lt (compare_lt_iff_lt.1 hz)]
    exact ih
  | case11 color a y m hy c z d hz =>
    simp only [toList] at h ⊢
    rw [h.find_around_of_gt (compare_gt_iff_gt.1 hy),
      h.around.2.1.find_around_of_eq (compare_eq_iff_eq.1 hz)]
    rfl
  | case12 color a y m hy c z d hz e w f m' hins ih
  | case13 color a y m hy c z d hz d' m' hne hins ih =>
    have ih := ih h.around.2.1.around.2.1
    rw [hins] at ih
    simp only [toList] at h ⊢
    rw [h.find_around_of_gt (compare_gt_iff_gt.1 hy),
      h.around.2.1.find_around_of_gt (compare_gt_iff_gt.1 hz)]
    exact ih
  | case14 color a y m hy b hne b' m' hins ih =>
    have ih := ih h.around.2.1
    rw [hins] at ih
    simp only [toList] at h ⊢
    rw [h.find_around_of_gt (compare_gt_iff_gt.1 hy)]
    exact ih

end Insert

theorem find'_eq {t : Tree α} {k : κ} (h : Ascending key (toList t)) :
    find' key k t = KeyedList.find key k (toList t) := by
  fun_induction find' key k t with
  | case1 => rfl
  | case2 color a y b hk ih =>
    rw [ih h.around.1.1]
    exact (h.find_around_of_lt (compare_lt_iff_lt.1 hk)).symm
  | case3 color a y b hk => exact (h.find_around_of_eq (compare_eq_iff_eq.1 hk)).symm
  | case4 color a y b hk ih =>
    rw [ih h.around.2.1]
    exact (h.find_around_of_gt (compare_gt_iff_gt.1 hk)).symm

/-! ### Deletion -/

section Delete

def Zipper.before : Zipper α → List α
  | TOP => []
  | LEFT _ _ _ p => p.before
  | RIGHT _ a x p => p.before ++ (toList a ++ [x])

def Zipper.after : Zipper α → List α
  | TOP => []
  | LEFT _ x b p => x :: toList b ++ p.after
  | RIGHT _ _ _ p => p.after

theorem toList_zip (z : Zipper α) (t : Tree α) :
    toList (zip z t) = z.before ++ toList t ++ z.after := by
  induction z generalizing t with
  | TOP => simp [zip, Zipper.before, Zipper.after]
  | LEFT color x b p ih => simp [zip, ih, Zipper.before, Zipper.after, toList]
  | RIGHT color a x p ih => simp [zip, ih, Zipper.before, Zipper.after, toList]

theorem toList_fixupZip {z : Zipper α} {t : Tree α} {r : Bool × Tree α}
    (h : fixupZip z t = .ok r) : toList r.2 = z.before ++ toList t ++ z.after := by
  induction z, t using fixupZip.induct with
  | case1 t =>
    rw [fixupZip] at h
    obtain rfl := Except.ok.inj h
    simp [Zipper.before, Zipper.after]
  | case2 | case3 | case4 | case6 | case7 | case8 | case10 | case11 | case12 | case13 | case14
  | case16 =>
    -- rotations and recolourings keep the order
    rw [fixupZip] at h
    · obtain rfl := Except.ok.inj h
      simp [toList_zip, toList, Zipper.before, Zipper.after]
    all_goals assumption
  | case5 x y b p t a _ _ _ ih | case9 a x y p t b _ _ _ ih | case15 x a y b p t _ _ ih
  | case17 a x b y p t _ _ ih | case18 _ y p t ih | case19 _ y p t ih =>
    rw [fixupZip] at h
    · rw [ih h]
      simp [toList, Zipper.before, Zipper.after]
    all_goals assumption
  | case20 =>
    rw [fixupZip] at h
    · cases h
    all_goals assumption

theorem toList_delMin {t : Tree α} {z : Zipper α} {y : α} {r : Bool × Tree α}
    (h : delMin t z = .ok (y, r)) :
    ∃ rest, toList t = y :: rest ∧ toList r.2 = z.before ++ rest ++ z.after := by
  fun_induction delMin t z with
  | case1 y b p | case2 y a' y' b' p =>
    obtain ⟨rfl, rfl⟩ := Prod.mk.inj (Except.ok.inj h)
    exact ⟨_, rfl, toList_zip p _⟩
  | case3 y p =>
    rcases hr : fixupZip p E with e | r'
    · rw [hr] at h
      cases h
    · rw [hr] at h
      obtain ⟨rfl, rfl⟩ := Prod.mk.inj (Except.ok.inj h)
      exact ⟨[], rfl, toList_fixupZip hr⟩
  | case4 color a y b p _ _ _ ih =>
    obtain ⟨rest, ha, hr⟩ := ih h
    refine ⟨rest ++ y :: toList b, by simp [toList, ha], ?_⟩
    rw [hr]
    simp [Zipper.before, Zipper.after]
  | case5 => cases h

/-- What a deletion yields: the item of the key, and the tree without it. -/
theorem toList_del {t : Tree α} {z : Zipper α} {k : κ} {o : Option (α × Tree α)}
    (ht : Ascending key (toList t)) (h : del key k t z = .ok o) :
    o.map Prod.fst = KeyedList.find key k (toList t) ∧ ∀ r, o = some r →
      toList r.2 = z.before ++ KeyedList.delete key k (toList t) ++ z.after := by
  fun_induction del key k t z with
  | case1 p =>
    obtain rfl := Except.ok.inj h
    exact ⟨rfl, fun r hr => by cases hr⟩
  | case2 color a y b p hk ih =>
    have hk : k < key y := compare_lt_iff_lt.1 hk
    obtain ⟨hfst, hsnd⟩ := ih ht.around.1.1 h
    simp only [toList] at ht ⊢
    refine ⟨hfst.trans (ht.find_around_of_lt hk).symm, fun r hr => ?_⟩
    rw [hsnd r hr, ht.delete_around_of_lt hk]
    simp [Zipper.before, Zipper.after]
  | case3 y p hk =>
    have hk : k = key y := compare_eq_iff_eq.1 hk
    obtain rfl := Except.ok.inj h
    simp only [toList] at ht ⊢
    refine ⟨(ht.find_around_of_eq hk).symm, fun r hr => ?_⟩
    obtain rfl := Option.some.inj hr
    rw [ht.delete_around_of_eq hk]
    exact toList_zip p E
  | case4 y p hk =>
    have hk : k = key y := compare_eq_iff_eq.1 hk
    rcases hr : fixupZip p E with e | r'
    · rw [hr] at h
      cases h
    rw [hr] at h
    obtain rfl := Except.ok.inj h
    simp only [toList] at ht ⊢
    refine ⟨(ht.find_around_of_eq hk).symm, fun r hr' => ?_⟩
    obtain rfl := Option.some.inj hr'
    rw [ht.delete_around_of_eq hk]
    exact toList_fixupZip hr
  | case5 color y p hk color' a' y' b' | case6 color y p hk color' a' y' b' =>
    have hk : k = key y := compare_eq_iff_eq.1 hk
    obtain rfl := Except.ok.inj h
    simp only [toList] at ht ⊢
    refine ⟨(ht.find_around_of_eq hk).symm, fun r hr => ?_⟩
    obtain rfl := Option.some.inj hr
    rw [ht.delete_around_of_eq hk]
    simp [toList_zip, toList]
  | case7 color a y b p hk _ _ _ _ =>
    have hk : k = key y := compare_eq_iff_eq.1 hk
    rcases hr : delMin b TOP with e | ⟨m, d, b'⟩
    · rw [hr] at h
      cases h
    obtain ⟨rest, hb, hb'⟩ := toList_delMin hr
    simp only [Zipper.before, Zipper.after] at hb'
    rw [hr] at h
    simp only [toList] at ht ⊢
    rw [ht.find_around_of_eq hk, ht.delete_around_of_eq hk, hb]
    rcases d with _ | _
    · obtain rfl := Except.ok.inj h
      refine ⟨rfl, fun r hr => ?_⟩
      obtain rfl := Option.some.inj hr
      simp [toList_zip, toList, hb']
    · rcases hf : fixupZip (RIGHT color a m p) b' with e | r'
      · simp [bind, Except.bind, hf] at h
      · simp only [bind, Except.bind, hf] at h
        obtain rfl := Except.ok.inj h
        refine ⟨rfl, fun r hr => ?_⟩
        obtain rfl := Option.some.inj hr
        rw [toList_fixupZip hf]
        simp [Zipper.before, Zipper.after, hb']
  | case8 color a y b p hk ih =>
    have hk : key y < k := compare_gt_iff_gt.1 hk
    obtain ⟨hfst, hsnd⟩ := ih ht.around.2.1 h
    simp only [toList] at ht ⊢
    refine ⟨hfst.trans (ht.find_around_of_gt hk).symm, fun r hr => ?_⟩
    rw [hsnd r hr, ht.delete_around_of_gt hk]
    simp [Zipper.before, Zipper.after]

end Delete

def stackList : List (Tree α) → List α
  | [] => []
  | E :: _ => []
  | T _ _ x b :: rest => x :: toList b ++ stackList rest

theorem stackList_left (t : Tree α) (s : List (Tree α)) :
    stackList (left t s) = toList t ++ stackList s := by
  induction t generalizing s with
  | E => rfl
  | T color a x b iha _ => simp [left, iha, stackList, toList]

theorem stackList_start (t : Tree α) : stackList (start t) = toList t := by
  simp [start, stackList_left, stackList]

theorem stackList_of_next_E {s s' : List (Tree α)} (h : next s = (E, s')) : stackList s = [] := by
  rcases s with _ | ⟨_ | ⟨color, a, x, b⟩, s⟩
  · rfl
  · rfl
  · exact nomatch h

theorem stackList_of_next_T {s s' : List (Tree α)} {color : Color} {a b : Tree α} {x : α}
    (h : next s = (T color a x b, s')) : stackList s = x :: stackList s' := by
  rcases s with _ | ⟨_ | ⟨color, a, x, b⟩, s⟩
  · exact nomatch h
  · exact nomatch h
  · obtain ⟨ht, rfl⟩ := Prod.mk.inj h
    obtain ⟨rfl, rfl, rfl, rfl⟩ := Tree.T.inj ht
    rw [stackList_left]
    rfl

/-! ### Construction -/

section Construct

open Digit

def digitList : Digit α → List α
  | ZERO => []
  | ONE a t r => digitList r ++ (toList t ++ [a])
  | TWO a1 t1 a2 t2 r => digitList r ++ (toList t2 ++ a2 :: toList t1 ++ [a1])

theorem digitList_incr (a : α) (t : Tree α) (l : Digit α) :
    digitList (addItem.incr a t l) = digitList l ++ (toList t ++ [a]) := by
  fun_induction addItem.incr a t l with
  | case1 => simp [digitList]
  | case2 => simp [digitList]
  | case3 a t a2 t2 a3 t3 r ih => simp [digitList, ih, toList]

theorem digitList_addItem (a : α) (l : Digit α) :
    digitList (addItem a l) = digitList l ++ [a] := by
  simp [addItem, digitList_incr, toList]

theorem toList_link (t : Tree α) (l : Digit α) :
    toList (linkAll.link t l) = digitList l ++ toList t := by
  fun_induction linkAll.link t l with
  | case1 => simp [digitList]
  | case2 t a t2 r ih => simp [ih, digitList, toList]
  | case3 t a1 t1 a2 t2 r ih => simp [ih, digitList, toList]

theorem toList_linkAll (l : Digit α) : toList (linkAll l) = digitList l := by
  simp [linkAll, toList_link, toList]

/-- The digits have the items of a list, and the counter has their number. -/
def Collects (acc : ℕ × Digit α) (l : List α) : Prop :=
  acc.1 = l.length ∧ acc.2.Balanced 0 ∧ digitList acc.2 = l

theorem collects_zero : Collects (0, (ZERO : Digit α)) [] :=
  ⟨rfl, trivial, rfl⟩

theorem Collects.add {n : ℕ} {result : Digit α} {l : List α} (h : Collects (n, result) l) (x : α) :
    Collects (n + 1, addItem x result) (l ++ [x]) := by
  obtain ⟨hn, hbal, hlist⟩ := h
  refine ⟨?_, balanced_addItem hbal x, ?_⟩
  · rw [List.length_append, ← hn]
    rfl
  · rw [digitList_addItem, hlist]

theorem Collects.condAdd {acc : ℕ × Digit α} {l : List α} (h : Collects acc l) (o : Option α) :
    Collects (condAdd o acc) (l ++ o.toList) := by
  rcases o with _ | x
  · simpa [RedBlack.condAdd] using h
  · exact h.add x

theorem Collects.insRest {n : ℕ} {result : Digit α} {l : List α} (h : Collects (n, result) l)
    (s : List (Tree α)) : Collects (insRest (next s) n result) (l ++ stackList s) := by
  induction hr : stackList s generalizing s n result l with
  | nil =>
    rcases hs : next s with ⟨_ | ⟨color, a, x, b⟩, s'⟩
    · simpa [RedBlack.insRest] using h
    · exact absurd ((stackList_of_next_T hs).symm.trans hr) (by simp)
  | cons y r ih =>
    rcases hs : next s with ⟨_ | ⟨color, a, x, b⟩, s'⟩
    · exact absurd ((stackList_of_next_E hs).symm.trans hr) (by simp)
    · obtain ⟨rfl, hr'⟩ := List.cons.inj ((stackList_of_next_T hs).symm.trans hr)
      have := ih (h.add x) s' hr'
      rw [RedBlack.insRest]
      simpa using this

theorem Collects.filterWalk {pred : α → Bool} {acc : ℕ × Digit α} {l : List α}
    (h : Collects acc l) (t : Tree α) :
    Collects (filterWalk pred t acc) (l ++ (toList t).filter pred) := by
  induction t generalizing acc l with
  | E => simpa [RedBlack.filterWalk, toList] using h
  | T color a x b iha ihb =>
    rw [RedBlack.filterWalk]
    have ha := iha h
    rcases hw : RedBlack.filterWalk pred a acc with ⟨n, result⟩
    rw [hw] at ha
    by_cases hx : pred x = true
    · simpa [hx, toList] using ihb (ha.add x)
    · simpa [hx, toList] using ihb ha

theorem Collects.partitionWalk {pred : α → Bool} {acc : (ℕ × Digit α) × (ℕ × Digit α)}
    {l₁ l₂ : List α} (h₁ : Collects acc.1 l₁) (h₂ : Collects acc.2 l₂) (t : Tree α) :
    Collects (partitionWalk pred t acc).1 (l₁ ++ (toList t).filter pred) ∧
      Collects (partitionWalk pred t acc).2 (l₂ ++ (toList t).filter fun x => !pred x) := by
  induction t generalizing acc l₁ l₂ with
  | E => simpa [toList] using ⟨h₁, h₂⟩
  | T color a x b iha ihb =>
    rw [RedBlack.partitionWalk]
    obtain ⟨ha₁, ha₂⟩ := iha h₁ h₂
    rcases hw : RedBlack.partitionWalk pred a acc with ⟨⟨n1, result1⟩, ⟨n2, result2⟩⟩
    rw [hw] at ha₁ ha₂
    by_cases hx : pred x = true
    · have := @ihb ((n1 + 1, addItem x result1), (n2, result2)) _ _ (ha₁.add x) ha₂
      simpa [hx, toList] using this
    · have := @ihb ((n1, result1), (n2 + 1, addItem x result2)) _ _ ha₁ (ha₂.add x)
      simpa [hx, toList] using this

theorem Collects.wrap {acc : ℕ × Digit α} {l : List α} (h : Collects acc l) :
    (wrap acc).1 = l.length ∧ (∃ n, Balanced (wrap acc).2 B n) ∧ toList (wrap acc).2 = l :=
  ⟨h.1, balanced_linkAll h.2.1, (toList_linkAll _).trans h.2.2⟩

end Construct

/-! ### Trees from two trees -/

section Merge

open Digit

variable {β γ : Type*} {key' : β → κ}

def unionOf (mergeFn : α → α → α) : Option α → Option α → Option α
  | some x, some y => some (mergeFn x y)
  | some x, none => some x
  | none, o => o

def intersectOf (mergeFn : α → β → γ) : Option α → Option β → Option γ
  | some x, some y => some (mergeFn x y)
  | _, _ => none

def differenceOf : Option α → Option α → Option α
  | some x, none => some x
  | _, _ => none

variable {s1 s2 : List (Tree α)} {n : ℕ} {result : Digit α} {l : List α}

/-- **The union** collects the merged items. -/
theorem Collects.union' (mergeFn : α → α → α) (h : Collects (n, result) l) :
    Collects (union' key mergeFn s1 s2 n result)
      (l ++ KeyedList.merge key key (unionOf mergeFn) (stackList s1) (stackList s2)) := by
  fun_induction RedBlack.union' key mergeFn s1 s2 n result generalizing l with
  | case1 s1 s2 n result _ _ h1 h2 =>
    simpa [stackList_of_next_E h1, stackList_of_next_E h2, merge_nil_left] using h
  | case2 s1 s2 n result _ h1 _ =>
    simpa [stackList_of_next_E h1, merge_nil_left, unionOf] using h.insRest s2
  | case3 s1 s2 n result _ h2 _ =>
    simpa [stackList_of_next_E h2, merge_nil_right, unionOf] using h.insRest s1
  | case4 s1 s2 n result _ _ x _ r1 _ _ y _ r2 h1 h2 hc ih =>
    have := ih (h.add x)
    rw [stackList_of_next_T h2] at this ⊢
    rw [stackList_of_next_T h1, merge_of_lt hc]
    simpa [unionOf] using this
  | case5 s1 s2 n result _ _ x _ r1 _ _ y _ r2 h1 h2 hc ih =>
    have := ih (h.add (mergeFn x y))
    rw [stackList_of_next_T h1, stackList_of_next_T h2, merge_of_eq hc]
    simpa [unionOf] using this
  | case6 s1 s2 n result _ _ x _ r1 _ _ y _ r2 h1 h2 hc ih =>
    have := ih (h.add y)
    rw [stackList_of_next_T h1] at this ⊢
    rw [stackList_of_next_T h2, merge_of_gt hc]
    simpa [unionOf] using this

/-- **The intersection** collects the merged items. -/
theorem Collects.intersect {s1 : List (Tree α)} {s2 : List (Tree β)} {result : Digit γ}
    {l : List γ} (mergeFn : α → β → γ) (h : Collects (n, result) l) :
    Collects (intersect key key' mergeFn s1 s2 n result)
      (l ++ KeyedList.merge key key' (intersectOf mergeFn) (stackList s1) (stackList s2)) := by
  fun_induction RedBlack.intersect key key' mergeFn s1 s2 n result generalizing l with
  | case1 s1 s2 n result _ _ x _ r1 _ _ y _ r2 h1 h2 hc ih =>
    have := ih h
    rw [stackList_of_next_T h2] at this ⊢
    rw [stackList_of_next_T h1, merge_of_lt hc]
    simpa [intersectOf] using this
  | case2 s1 s2 n result _ _ x _ r1 _ _ y _ r2 h1 h2 hc ih =>
    have := ih (h.add (mergeFn x y))
    rw [stackList_of_next_T h1, stackList_of_next_T h2, merge_of_eq hc]
    simpa [intersectOf] using this
  | case3 s1 s2 n result _ _ x _ r1 _ _ y _ r2 h1 h2 hc ih =>
    have := ih h
    rw [stackList_of_next_T h1] at this ⊢
    rw [stackList_of_next_T h2, merge_of_gt hc]
    simpa [intersectOf] using this
  | case4 s1 s2 n result hend =>
    -- one of the walks has ended
    rcases h1 : next s1 with ⟨_ | ⟨c1, a1, x, b1⟩, r1⟩
    · simpa [stackList_of_next_E h1, merge_nil_left, intersectOf] using h
    rcases h2 : next s2 with ⟨_ | ⟨c2, a2, y, b2⟩, r2⟩
    · simpa [stackList_of_next_E h2, merge_nil_right, intersectOf] using h
    · exact (hend _ _ _ _ _ _ _ _ _ _ h1 h2).elim

/-- **The difference** collects the merged items. -/
theorem Collects.diff (h : Collects (n, result) l) :
    Collects (diff key s1 s2 n result)
      (l ++ KeyedList.merge key key differenceOf (stackList s1) (stackList s2)) := by
  fun_induction RedBlack.diff key s1 s2 n result generalizing l with
  | case1 s1 s2 n result _ h1 =>
    simpa [stackList_of_next_E h1, merge_nil_left, differenceOf] using h
  | case2 s1 s2 n result _ h2 _ =>
    simpa [stackList_of_next_E h2, merge_nil_right, differenceOf] using h.insRest s1
  | case3 s1 s2 n result _ _ x _ r1 _ _ y _ r2 h1 h2 hc ih =>
    have := ih (h.add x)
    rw [stackList_of_next_T h2] at this ⊢
    rw [stackList_of_next_T h1, merge_of_lt hc]
    simpa [differenceOf] using this
  | case4 s1 s2 n result _ _ x _ r1 _ _ y _ r2 h1 h2 hc ih =>
    have := ih h
    rw [stackList_of_next_T h1, stackList_of_next_T h2, merge_of_eq hc]
    simpa [differenceOf] using this
  | case5 s1 s2 n result _ _ x _ r1 _ _ y _ r2 h1 h2 hc ih =>
    have := ih h
    rw [stackList_of_next_T h1] at this ⊢
    rw [stackList_of_next_T h2, merge_of_gt hc]
    simpa [differenceOf] using this

/-- **The merge** collects the merged items. -/
theorem Collects.merge {s1 : List (Tree α)} {s2 : List (Tree β)} {l : List γ}
    {mergeFn : Option α → Option β → Option γ} {acc : ℕ × Digit γ} (h : Collects acc l) :
    Collects (merge key key' mergeFn s1 s2 acc)
      (l ++ KeyedList.merge key key' mergeFn (stackList s1) (stackList s2)) := by
  fun_induction RedBlack.merge key key' mergeFn s1 s2 acc generalizing l with
  | case1 s1 s2 acc _ _ h1 h2 =>
    simpa [stackList_of_next_E h1, stackList_of_next_E h2, merge_nil_left] using h
  | case2 s1 s2 acc _ _ _ y _ r2 h1 h2 ih =>
    have := ih (h.condAdd (mergeFn none (some y)))
    rw [stackList_of_next_E h1, merge_nil_left] at this ⊢
    rw [stackList_of_next_T h2]
    rcases hf : mergeFn none (some y) with _ | z
    · simpa [hf] using this
    · simpa [hf] using this
  | case3 s1 s2 acc _ _ x _ r1 _ h1 h2 ih =>
    have := ih (h.condAdd (mergeFn (some x) none))
    rw [stackList_of_next_E h2, merge_nil_right] at this ⊢
    rw [stackList_of_next_T h1]
    rcases hf : mergeFn (some x) none with _ | z
    · simpa [hf] using this
    · simpa [hf] using this
  | case4 s1 s2 acc _ _ x _ r1 _ _ y _ r2 h1 h2 hc ih =>
    have := ih (h.condAdd (mergeFn (some x) none))
    rw [stackList_of_next_T h2] at this ⊢
    rw [stackList_of_next_T h1, merge_of_lt hc]
    simpa using this
  | case5 s1 s2 acc _ _ x _ r1 _ _ y _ r2 h1 h2 hc ih =>
    have := ih (h.condAdd (mergeFn (some x) (some y)))
    rw [stackList_of_next_T h1, stackList_of_next_T h2, merge_of_eq hc]
    simpa using this
  | case6 s1 s2 acc _ _ x _ r1 _ _ y _ r2 h1 h2 hc ih =>
    have := ih (h.condAdd (mergeFn none (some y)))
    rw [stackList_of_next_T h1] at this ⊢
    rw [stackList_of_next_T h2, merge_of_gt hc]
    simpa using this

end Merge

/-! ### Well-formed trees -/

/-- **A tree with its number of items is well-formed**: it is balanced and its root is black, its
keys ascend, and the number is right. -/
structure WellFormed (key : α → κ) (nItems : ℕ) (t : Tree α) : Prop where
  balanced : ∃ n, Balanced t B n
  ascending : Ascending key (toList t)
  count : nItems = (toList t).length

section WellFormed

variable {nItems : ℕ} {t : Tree α}

theorem wellFormed_leaf : WellFormed key 0 (E : Tree α) :=
  ⟨⟨0, .leaf⟩, ascending_nil, rfl⟩

theorem wellFormed_single (x : α) : WellFormed key 1 (T B E x E) :=
  ⟨⟨1, .black .leaf .leaf⟩, by simp [toList], rfl⟩

/-- **The insertion** into a well-formed tree raises no exception, and its result is well-formed
and has the items with the new one. -/
theorem WellFormed.insert {x : α} {upd : α → α} (h : WellFormed key nItems t)
    (hupd : ∀ y, key y = key x → key (upd y) = key x) :
    ∃ nItems' t', insert key x upd nItems t = .ok (nItems', t') ∧ WellFormed key nItems' t' ∧
      toList t' = KeyedList.insert key x upd (toList t) := by
  obtain ⟨n, hbal⟩ := h.balanced
  obtain ⟨color, a, y, b, hins, hok, hbal'⟩ :
      ∃ color a y b, (ins key x upd nItems t nItems).1 = T color a y b ∧
        RedBlack.insert key x upd nItems t = .ok ((ins key x upd nItems t nItems).2, T B a y b) ∧
        ∃ n', Balanced (T B a y b) B n' := balanced_insert hbal
  have hlist : toList (T B a y b) = KeyedList.insert key x upd (toList t) := by
    have hins' : toList (ins key x upd nItems t nItems).1 = _ := toList_ins h.ascending
    rw [← hins', hins]
    rfl
  refine ⟨_, _, hok, ⟨hbal', hlist ▸ h.ascending.insert hupd, ?_⟩, hlist⟩
  rw [snd_ins h.ascending, hlist, length_insert h.ascending, ← h.count]

/-- **The deletion** from a well-formed tree raises no exception; it yields the item of the key,
and what it leaves is well-formed and has the other items. -/
theorem WellFormed.del (h : WellFormed key nItems t) (k : κ) :
    ∃ o, del key k t TOP = .ok o ∧ o.map Prod.fst = KeyedList.find key k (toList t) ∧
      ∀ r, o = some r → blacken r.2 = r.2 ∧ WellFormed key (nItems - 1) r.2 ∧
        toList r.2 = KeyedList.delete key k (toList t) := by
  obtain ⟨n, hbal⟩ := h.balanced
  obtain ⟨o, ho, hleft⟩ : ∃ o, RedBlack.del key k t TOP = .ok o ∧ ∀ r, o = some r →
      blacken r.2 = r.2 ∧ ∃ m, Balanced r.2 B m := del_top_spec hbal
  obtain ⟨hfst, hsnd⟩ := toList_del h.ascending ho
  refine ⟨o, ho, hfst, fun r hr => ?_⟩
  obtain ⟨hblack, hbal'⟩ := hleft r hr
  have hlist : toList r.2 = KeyedList.delete key k (toList t) := by
    simpa [Zipper.before, Zipper.after] using hsnd r hr
  refine ⟨hblack, ⟨hbal', hlist ▸ h.ascending.delete k, ?_⟩, hlist⟩
  have hfind : KeyedList.find key k (toList t) = some r.1 := by
    rw [← hfst, hr]
    rfl
  rw [hlist, h.count, ← length_delete h.ascending hfind, Nat.add_sub_cancel]

theorem Collects.wellFormed {acc : ℕ × Digit α} {l : List α} (h : Collects acc l)
    (hl : Ascending key l) :
    WellFormed key (RedBlack.wrap acc).1 (RedBlack.wrap acc).2 ∧
      toList (RedBlack.wrap acc).2 = l := by
  obtain ⟨hn, hbal, hlist⟩ := h.wrap
  exact ⟨⟨hbal, hlist ▸ hl, hlist ▸ hn⟩, hlist⟩

end WellFormed

end SmlNj.RedBlack
