import Mathlib.Data.Finset.Range
import Mathlib.Data.List.Lex
import Mathlib.Data.List.NodupEquivFin

/-!
# Sets as sorted lists

The finite sets of ordered values that are represented by the list of their items in increasing
order.  A set carries the order of its list, so that two sets of the same items are equal.

## Main definitions

* `ListSet` — a set.
* `add`, `union`, `addList`, `delete`, `member`, `map`, `filter` — the operations.

## Main results

* `mem_add`, `mem_union`, `mem_addList`, `mem_delete`, `mem_map` — the items of the results.
* `ListSet.ext` — sets of the same items are equal.
-/

namespace SmlNj

variable {κ κ' : Type} [LinearOrder κ] [LinearOrder κ']

/-- A set: its items, in increasing order. -/
structure ListSet (κ : Type) [LinearOrder κ] where
  items : List κ
  sorted : items.Pairwise (· < ·)

namespace ListSet

instance : Membership κ (ListSet κ) := ⟨fun s x => x ∈ s.items⟩

variable {s : ListSet κ} {x item : κ} {l : List κ}

theorem mem_items : x ∈ s.items ↔ x ∈ s := Iff.rfl

theorem items_injective : Function.Injective (items : ListSet κ → List κ) := by
  rintro ⟨l, hl⟩ ⟨l', hl'⟩ rfl
  rfl

/-- **Sets of the same items are equal.** -/
@[ext] theorem ext {t : ListSet κ} (h : ∀ x, x ∈ s ↔ x ∈ t) : s = t := by
  have hperm : s.items.Perm t.items :=
    (List.perm_ext_iff_of_nodup (s.sorted.imp ne_of_lt) (t.sorted.imp ne_of_lt)).2 h
  exact items_injective (hperm.eq_of_pairwise (fun _ _ _ _ h h' => absurd h h'.not_gt) s.sorted
    t.sorted)

/-- Sets are compared by their items, the first ones first. -/
instance : LinearOrder (ListSet κ) := LinearOrder.lift' items items_injective

def empty : ListSet κ := ⟨[], .nil⟩

def singleton (x : κ) : ListSet κ := ⟨[x], List.pairwise_singleton _ x⟩

@[simp] theorem not_mem_empty (x : κ) : x ∉ (empty : ListSet κ) := List.not_mem_nil

@[simp] theorem mem_singleton {y : κ} : x ∈ singleton y ↔ x = y := List.mem_singleton

/-- Add an item to a sorted list. -/
@[grind =] def addItem (item : κ) : List κ → List κ
  | [] => [item]
  | elem :: r =>
    match compare item elem with
    | .lt => item :: elem :: r
    | .eq => item :: r
    | .gt => elem :: addItem item r

theorem mem_addItem : x ∈ addItem item l ↔ x = item ∨ x ∈ l := by
  induction l with
  | nil => simp [addItem]
  | cons elem r ih =>
    rw [addItem]
    split
    · rw [List.mem_cons]
    · next h =>
      rw [compare_eq_iff_eq.1 h, List.mem_cons]
      tauto
    · rw [List.mem_cons, ih, List.mem_cons]
      tauto

theorem sorted_addItem (h : l.Pairwise (· < ·)) : (addItem item l).Pairwise (· < ·) := by
  induction l with
  | nil => exact List.pairwise_singleton _ item
  | cons elem r ih =>
    obtain ⟨helem, hr⟩ := List.pairwise_cons.1 h
    rw [addItem]
    split
    · next hlt =>
      have hlt := compare_lt_iff_lt.1 hlt
      refine List.pairwise_cons.2 ⟨fun x hx => ?_, h⟩
      rcases List.mem_cons.1 hx with rfl | hx
      · exact hlt
      · exact hlt.trans (helem x hx)
    · next heq =>
      rw [compare_eq_iff_eq.1 heq]
      exact h
    · next hgt =>
      refine List.pairwise_cons.2 ⟨fun x hx => ?_, ih hr⟩
      rcases mem_addItem.1 hx with rfl | hx
      · exact compare_gt_iff_gt.1 hgt
      · exact helem x hx

def add (s : ListSet κ) (item : κ) : ListSet κ := ⟨addItem item s.items, sorted_addItem s.sorted⟩

@[simp] theorem mem_add : x ∈ s.add item ↔ x = item ∨ x ∈ s :=
  mem_addItem

/-! ### Union -/

/-- Merge sorted lists. -/
def merge : List κ → List κ → List κ
  | [], l2 => l2
  | x :: r1, [] => x :: r1
  | x :: r1, y :: r2 =>
    match compare x y with
    | .lt => x :: merge r1 (y :: r2)
    | .eq => x :: merge r1 r2
    | .gt => y :: merge (x :: r1) r2
  termination_by l1 l2 => l1.length + l2.length

theorem mem_merge {l1 l2 : List κ} : x ∈ merge l1 l2 ↔ x ∈ l1 ∨ x ∈ l2 := by
  fun_induction merge l1 l2 with
  | case1 l2 => simp
  | case2 a r1 => simp
  | case3 a r1 b r2 _ ih =>
    rw [List.mem_cons, ih, or_assoc.symm, ← List.mem_cons]
  | case4 a r1 b r2 heq ih =>
    obtain rfl := compare_eq_iff_eq.1 heq
    rw [List.mem_cons, ih, List.mem_cons, List.mem_cons]
    tauto
  | case5 a r1 b r2 _ ih =>
    rw [List.mem_cons, ih, List.mem_cons, List.mem_cons]
    tauto

theorem sorted_merge {l1 l2 : List κ} (h1 : l1.Pairwise (· < ·)) (h2 : l2.Pairwise (· < ·)) :
    (merge l1 l2).Pairwise (· < ·) := by
  fun_induction merge l1 l2 with
  | case1 l2 => exact h2
  | case2 a r1 => exact h1
  | case3 a r1 b r2 hlt ih =>
    obtain ⟨ha, hr1⟩ := List.pairwise_cons.1 h1
    obtain ⟨hb, hr2⟩ := List.pairwise_cons.1 h2
    have hlt := compare_lt_iff_lt.1 hlt
    refine List.pairwise_cons.2 ⟨fun x hx => ?_, ih hr1 h2⟩
    rcases mem_merge.1 hx with hx | hx
    · exact ha x hx
    · rcases List.mem_cons.1 hx with rfl | hx
      · exact hlt
      · exact hlt.trans (hb x hx)
  | case4 a r1 b r2 heq ih =>
    obtain ⟨ha, hr1⟩ := List.pairwise_cons.1 h1
    obtain ⟨hb, hr2⟩ := List.pairwise_cons.1 h2
    obtain rfl := compare_eq_iff_eq.1 heq
    refine List.pairwise_cons.2 ⟨fun x hx => ?_, ih hr1 hr2⟩
    exact (mem_merge.1 hx).elim (ha x) (hb x)
  | case5 a r1 b r2 hgt ih =>
    obtain ⟨ha, hr1⟩ := List.pairwise_cons.1 h1
    obtain ⟨hb, hr2⟩ := List.pairwise_cons.1 h2
    have hgt := compare_gt_iff_gt.1 hgt
    refine List.pairwise_cons.2 ⟨fun x hx => ?_, ih h1 hr2⟩
    rcases mem_merge.1 hx with hx | hx
    · rcases List.mem_cons.1 hx with rfl | hx
      · exact hgt
      · exact lt_trans hgt (ha x hx)
    · exact hb x hx

def union (s1 s2 : ListSet κ) : ListSet κ :=
  ⟨merge s1.items s2.items, sorted_merge s1.sorted s2.sorted⟩

@[simp] theorem mem_union {s1 s2 : ListSet κ} : x ∈ s1.union s2 ↔ x ∈ s1 ∨ x ∈ s2 :=
  mem_merge

omit [LinearOrder κ'] in
theorem mem_foldl_add {f : κ' → κ} {l : List κ'} :
    x ∈ l.foldl (fun s y => s.add (f y)) s ↔ x ∈ s ∨ ∃ y ∈ l, f y = x := by
  induction l generalizing s with
  | nil => simp
  | cons y l ih =>
    rw [List.foldl_cons, ih, mem_add, List.exists_mem_cons_iff]
    tauto

def addList (s : ListSet κ) (items : List κ) : ListSet κ :=
  s.union (items.foldl (fun set x => set.add x) empty)

@[simp] theorem mem_addList {items : List κ} : x ∈ s.addList items ↔ x ∈ s ∨ x ∈ items := by
  rw [addList, mem_union]
  have h := mem_foldl_add (x := x) (f := (id : κ → κ)) (l := items) (s := empty)
  simp only [id] at h
  rw [h]
  simp

def map (f : κ' → κ) (s : ListSet κ') : ListSet κ := s.items.foldl (fun s x => s.add (f x)) empty

@[simp] theorem mem_map {f : κ' → κ} {s : ListSet κ'} : x ∈ s.map f ↔ ∃ y ∈ s, f y = x := by
  rw [map, mem_foldl_add]
  simp [mem_items]

def filter (p : κ → Bool) (s : ListSet κ) : ListSet κ :=
  ⟨s.items.filter p, s.sorted.sublist List.filter_sublist⟩

@[simp] theorem mem_filter {p : κ → Bool} :
    x ∈ s.filter p ↔ x ∈ s ∧ p x = true := List.mem_filter

/-! ### Membership and deletion -/

/-- Whether an item is in a sorted list. -/
def memberItem (item : κ) : List κ → Bool
  | [] => false
  | elem :: r =>
    match compare item elem with
    | .lt => false
    | .eq => true
    | .gt => memberItem item r

def member (s : ListSet κ) (item : κ) : Bool := memberItem item s.items

theorem memberItem_iff (h : l.Pairwise (· < ·)) : memberItem item l = true ↔ item ∈ l := by
  induction l with
  | nil => simp [memberItem]
  | cons elem r ih =>
    obtain ⟨helem, hr⟩ := List.pairwise_cons.1 h
    rw [memberItem, List.mem_cons]
    split
    · next hlt =>
      have hlt := compare_lt_iff_lt.1 hlt
      refine iff_of_false Bool.false_ne_true ?_
      rintro (rfl | hmem)
      · exact lt_irrefl _ hlt
      · exact lt_asymm hlt (helem item hmem)
    · next heq => exact iff_of_true rfl (.inl (compare_eq_iff_eq.1 heq))
    · next hgt =>
      have hne : item ≠ elem := ne_of_gt (compare_gt_iff_gt.1 hgt)
      rw [ih hr]
      exact (or_iff_right hne).symm

@[simp] theorem member_iff : s.member item = true ↔ item ∈ s :=
  memberItem_iff s.sorted

/-- Delete an item of a sorted list; it is an error if it is not there. -/
def deleteItem (item : κ) : List κ → Option (List κ)
  | [] => none
  | elem :: r =>
    match compare item elem with
    | .lt => none
    | .eq => some r
    | .gt => (deleteItem item r).map (elem :: ·)

theorem deleteItem_sublist {l' : List κ} (h : deleteItem item l = some l') : l'.Sublist l := by
  induction l generalizing l' with
  | nil => cases h
  | cons elem r ih =>
    rw [deleteItem] at h
    split at h
    · cases h
    · cases h
      exact List.sublist_cons_self elem r
    · obtain ⟨r', hr', rfl⟩ := Option.map_eq_some_iff.1 h
      exact (ih hr').cons_cons elem

theorem deleteItem_of_mem (h : l.Pairwise (· < ·)) (hmem : item ∈ l) :
    deleteItem item l = some (l.erase item) := by
  induction l with
  | nil => cases hmem
  | cons elem r ih =>
    obtain ⟨helem, hr⟩ := List.pairwise_cons.1 h
    rw [deleteItem]
    split
    · next hlt =>
      have hlt := compare_lt_iff_lt.1 hlt
      rcases List.mem_cons.1 hmem with rfl | hmem
      · exact absurd hlt (lt_irrefl _)
      · exact absurd (helem item hmem) hlt.asymm
    · next heq => rw [compare_eq_iff_eq.1 heq, List.erase_cons_head]
    · next hgt =>
      have hne : item ≠ elem := ne_of_gt (compare_gt_iff_gt.1 hgt)
      rw [ih hr ((List.mem_cons.1 hmem).resolve_left hne),
        List.erase_cons_tail (by simpa using hne.symm)]
      rfl

def delete (s : ListSet κ) (item : κ) : Option (ListSet κ) :=
  match h : deleteItem item s.items with
  | none => none
  | some r => some ⟨r, s.sorted.sublist (deleteItem_sublist h)⟩

theorem delete_of_mem (h : item ∈ s) :
    ∃ r, s.delete item = some r ∧ ∀ x, x ∈ r ↔ x ≠ item ∧ x ∈ s := by
  have hdel := deleteItem_of_mem s.sorted h
  refine ⟨⟨s.items.erase item, s.sorted.sublist List.erase_sublist⟩, ?_, fun x => ?_⟩
  · unfold delete
    split
    · next hnone => rw [hnone] at hdel; cases hdel
    · next r hr => rw [hr] at hdel; cases hdel; rfl
  · exact List.Nodup.mem_erase_iff (s.sorted.imp ne_of_lt)

def isEmpty (s : ListSet κ) : Bool := s.items.isEmpty

def numItems (s : ListSet κ) : ℕ := s.items.length

theorem numItems_eq {s : ListSet ℕ} {k : ℕ} (h : ∀ x, x ∈ s ↔ x < k) : s.numItems = k := by
  have hs : s = ⟨List.range k, List.pairwise_lt_range⟩ := by
    ext x
    rw [h, ← mem_items, List.mem_range]
  rw [hs]
  exact List.length_range

end ListSet

end SmlNj
