import SmlNj.Library.RedBlackOrder
import Mathlib.Data.Finset.Sort
import Mathlib.Data.Finset.Option

/-!
# Sets as red-black trees

The functional sets of the library: a set is a red-black tree of its items with their number.

## Main definitions

* `RBSet` — the representation.
* `add`, `delete`, `fromList`, `union`, `intersection`, `difference`, `combineWith`, `filter`,
  `partition` — the operations.
* `SetExpr` — programs that build sets, with the finite sets that they denote.

## Main results

* `SetExpr.eval_spec` — every program builds a well-formed tree of the finite set that it denotes,
  unless it deletes an item that is not there.
-/

namespace SmlNj.RedBlack

open Color RedBlack.Tree Zipper Digit

/-- A set is a tree of its items with their number. -/
structure RBSet (κ : Type*) where
  /-- The constructor of the representation. -/
  SET ::
  nItems : ℕ
  tree : Tree κ
  deriving DecidableEq

namespace RBSet

variable {κ : Type*} [LinearOrder κ]

def empty : RBSet κ := SET 0 E

def singleton (x : κ) : RBSet κ := SET 1 (T B E x E)

def add : RBSet κ → κ → Except Exn (RBSet κ)
  | SET nItems m, x => do
    let (nItems', t) ← insert id x (fun _ => x) nItems m
    return SET nItems' t

def addList : RBSet κ → List κ → Except Exn (RBSet κ)
  | s, [] => .ok s
  | s, x :: r => do addList (← add s x) r

/-- An item is removed.  It is an error when it is not there. -/
def delete : RBSet κ → κ → Except Exn (RBSet κ)
  | SET nItems t, k => do
    match ← del id k t TOP with
    | none => .error .notFound
    | some (_, t) => return SET (nItems - 1) (blacken t)

def member : RBSet κ → κ → Bool
  | SET _ t, k => (find' id k t).isSome

def numItems : RBSet κ → ℕ
  | SET n _ => n

def ofWalk (acc : ℕ × Digit κ) : RBSet κ := SET (wrap acc).1 (wrap acc).2

/-- The set of the items of a list, in linear time as long as they ascend. -/
def fromList : List κ → Except Exn (RBSet κ)
  | [] => .ok empty
  | first :: rest => add' first rest 1 (addItem first ZERO)
where
  /-- The loop over the list after the item `prev`. -/
  add' (prev : κ) : List κ → ℕ → Digit κ → Except Exn (RBSet κ)
    | x :: xs, n, accum =>
      match compare prev x with
      | .lt => add' x xs (n + 1) (addItem x accum)
      | _ => addList (SET n (linkAll accum)) (x :: xs)
    | [], n, accum => .ok (SET n (linkAll accum))

def union : RBSet κ → RBSet κ → RBSet κ
  | SET _ s1, SET _ s2 => ofWalk (union' id (fun x _ => x) (start s1) (start s2) 0 ZERO)

def intersection : RBSet κ → RBSet κ → RBSet κ
  | SET _ s1, SET _ s2 => ofWalk (intersect id id (fun x _ => x) (start s1) (start s2) 0 ZERO)

def difference : RBSet κ → RBSet κ → RBSet κ
  | SET _ s1, SET _ s2 => ofWalk (diff id (start s1) (start s2) 0 ZERO)

/-- What becomes of the items of a key in a combination. -/
def combineOf (pred : κ → Bool → Bool → Bool) : Option κ → Option κ → Option κ
  | some x, none => if pred x true false then some x else none
  | none, some x => if pred x false true then some x else none
  | some x1, some _ => if pred x1 true true then some x1 else none
  | none, none => none

/-- A set of the items that a predicate chooses by the sets that they are in. -/
def combineWith (pred : κ → Bool → Bool → Bool) : RBSet κ → RBSet κ → RBSet κ
  | SET _ s1, SET _ s2 => ofWalk (merge id id (combineOf pred) (start s1) (start s2) (0, ZERO))

def subtract (s : RBSet κ) (item : κ) : RBSet κ := difference s (singleton item)

def subtractList (l : RBSet κ) (items : List κ) : Except Exn (RBSet κ) := do
  return difference l (← items.foldlM (fun set x => add set x) (SET 0 E))

def toList : RBSet κ → List κ
  | SET _ t => RedBlack.toList t

def map (f : κ → κ) (s : RBSet κ) : Except Exn (RBSet κ) :=
  s.toList.foldlM (fun m x => add m (f x)) empty

/-- The set of the images of the items that have one. -/
def mapPartial (f : κ → Option κ) (s : RBSet κ) : Except Exn (RBSet κ) :=
  s.toList.foldlM (fun acc x =>
    match f x with
    | some x' => add acc x'
    | none => .ok acc) empty

def filter (pred : κ → Bool) : RBSet κ → RBSet κ
  | SET _ t => ofWalk (filterWalk pred t (0, ZERO))

def partition (pred : κ → Bool) : RBSet κ → RBSet κ × RBSet κ
  | SET _ t =>
    match partitionWalk pred t ((0, ZERO), (0, ZERO)) with
    | (acc1, acc2) => (ofWalk acc1, ofWalk acc2)

/-! ### The operations one by one -/

/-- **A set implements a finite set**: its tree is well-formed, and its items are those of the
finite set. -/
structure Implements (s : RBSet κ) (S : Finset κ) : Prop where
  /-- The red, black and search order invariants, and the count. -/
  wellFormed : WellFormed id s.nItems s.tree
  mem_iff : ∀ x, x ∈ RedBlack.toList s.tree ↔ x ∈ S

variable {s s₁ s₂ : RBSet κ} {S S₁ S₂ : Finset κ}

theorem find_isSome_iff {l : List κ} {k : κ} :
    (KeyedList.find id k l).isSome = true ↔ k ∈ l := by
  rw [Option.isSome_iff_exists]
  constructor
  · rintro ⟨x, hx⟩
    obtain rfl : x = k := KeyedList.key_of_find hx
    exact KeyedList.mem_of_find hx
  · intro hk
    rw [← Option.ne_none_iff_exists']
    exact fun hnone => KeyedList.find_eq_none.1 hnone k hk rfl

theorem Implements.member_iff (h : Implements s S) (x : κ) : member s x = true ↔ x ∈ S := by
  rw [member, find'_eq h.wellFormed.ascending, find_isSome_iff]
  exact h.mem_iff x

theorem Implements.numItems_eq (h : Implements s S) : numItems s = S.card := by
  obtain ⟨n, t⟩ := s
  have hS : S = (RedBlack.toList t).toFinset := by
    ext x
    rw [List.mem_toFinset]
    exact (h.mem_iff x).symm
  have hnodup : (RedBlack.toList t).Nodup :=
    h.wellFormed.ascending.imp fun hxy => ne_of_lt hxy
  rw [hS, List.toFinset_card_of_nodup hnodup]
  exact h.wellFormed.count

theorem implements_empty : Implements (empty : RBSet κ) ∅ :=
  ⟨wellFormed_leaf, by simp [empty, RedBlack.toList]⟩

theorem implements_singleton (x : κ) : Implements (singleton x) {x} :=
  ⟨wellFormed_single x, by simp [singleton, RedBlack.toList]⟩

theorem mem_insert_iff {l : List κ} (hl : KeyedList.Ascending id l) {x y : κ} :
    y ∈ KeyedList.insert id x (fun _ => x) l ↔ y = x ∨ y ∈ l := by
  have hupd : ∀ y : κ, id y = id x → id ((fun _ => x) y) = id x := fun _ _ => rfl
  rw [← find_isSome_iff, KeyedList.find_insert hupd hl, ← find_isSome_iff (k := y)]
  by_cases hxy : x = y
  · simp [hxy]
  · simp [hxy, Ne.symm hxy]

theorem implements_add (h : Implements s S) (x : κ) :
    ∃ s', add s x = .ok s' ∧ Implements s' (Insert.insert x S) := by
  have hupd : ∀ y : κ, id y = id x → id ((fun _ => x) y) = id x := fun _ _ => rfl
  obtain ⟨n', t', hok, hwf, hlist⟩ := h.wellFormed.insert hupd
  refine ⟨SET n' t', by simp [add, hok, bind, Except.bind, pure, Except.pure], hwf, fun y => ?_⟩
  rw [hlist, mem_insert_iff h.wellFormed.ascending, h.mem_iff, Finset.mem_insert]

theorem implements_addList (h : Implements s S) (l : List κ) :
    ∃ s', addList s l = .ok s' ∧ Implements s' (S ∪ l.toFinset) := by
  induction l generalizing s S with
  | nil => exact ⟨s, rfl, by simpa using h⟩
  | cons x l ih =>
    obtain ⟨s', hadd, hs'⟩ := implements_add h x
    obtain ⟨s'', hlist, hs''⟩ := ih hs'
    refine ⟨s'', by rw [addList, hadd]; exact hlist, ?_⟩
    convert hs'' using 1
    simp

theorem implements_delete (h : Implements s S) (k : κ) :
    if k ∈ S then ∃ s', delete s k = .ok s' ∧ Implements s' (S.erase k)
    else delete s k = .error .notFound := by
  obtain ⟨n, t⟩ := s
  obtain ⟨o, ho, hfst, hsnd⟩ := h.wellFormed.del k
  have hk : k ∈ S ↔ o.isSome = true := by
    rw [← h.mem_iff, ← find_isSome_iff, ← hfst, Option.isSome_map]
  rcases o with _ | r
  · rw [if_neg (by simp [hk])]
    simp [delete, ho, bind, Except.bind]
  · rw [if_pos (by simp [hk])]
    obtain ⟨hblack, hwf, hlist⟩ := hsnd r rfl
    refine ⟨SET (n - 1) r.2, by simp [delete, ho, hblack, bind, Except.bind, pure, Except.pure],
      hwf, fun x => ?_⟩
    rw [hlist, KeyedList.delete, List.mem_filter, h.mem_iff]
    simp [and_comm]

theorem implements_ofWalk {acc : ℕ × Digit κ} {l : List κ} (hacc : Collects acc l)
    (hl : KeyedList.Ascending id l) (hS : ∀ x, x ∈ l ↔ x ∈ S) : Implements (ofWalk acc) S := by
  obtain ⟨hwf, hlist⟩ := hacc.wellFormed hl
  exact ⟨hwf, fun x => by rw [ofWalk, hlist, hS]⟩

theorem implements_fromList_add' {prev : κ} {xs l : List κ} {n : ℕ} {accum : Digit κ}
    (hacc : Collects (n, accum) l) (hl : KeyedList.Ascending id l) (hprev : ∀ x ∈ l, x ≤ prev) :
    ∃ s, fromList.add' prev xs n accum = .ok s ∧ Implements s (l.toFinset ∪ xs.toFinset) := by
  have hstop : Implements (SET n (linkAll accum)) l.toFinset :=
    implements_ofWalk hacc hl fun x => List.mem_toFinset.symm
  induction xs generalizing prev l n accum with
  | nil => exact ⟨_, rfl, by simpa using hstop⟩
  | cons x xs ih =>
    rw [fromList.add']
    split
    case h_1 hlt =>
      -- the item is greater than those before
      have hx : prev < x := compare_lt_iff_lt.1 hlt
      have hl' : KeyedList.Ascending id (l ++ [x]) := by
        refine KeyedList.ascending_append.2 ⟨hl, by simp, fun y hy z hz => ?_⟩
        rw [List.mem_singleton.1 hz]
        exact (hprev y hy).trans_lt hx
      have hprev' : ∀ y ∈ l ++ [x], y ≤ x := by
        intro y hy
        rcases List.mem_append.1 hy with hy | hy
        · exact (hprev y hy).trans hx.le
        · exact (List.mem_singleton.1 hy).le
      obtain ⟨s, hs, himp⟩ := ih (hacc.add x) hl' hprev'
        (implements_ofWalk (hacc.add x) hl' fun y => List.mem_toFinset.symm)
      refine ⟨s, hs, ?_⟩
      convert himp using 1
      simp
    case h_2 => exact implements_addList hstop (x :: xs)

theorem implements_fromList (items : List κ) :
    ∃ s, fromList items = .ok s ∧ Implements s items.toFinset := by
  rcases items with _ | ⟨first, rest⟩
  · exact ⟨empty, rfl, by simpa using implements_empty⟩
  · have hprev : ∀ x ∈ [] ++ [first], x ≤ first := by simp
    obtain ⟨s, hs, himp⟩ : ∃ s, fromList.add' first rest (0 + 1) (addItem first ZERO) = .ok s ∧
        Implements s (([] ++ [first]).toFinset ∪ rest.toFinset) :=
      implements_fromList_add' (collects_zero.add first) (by simp) hprev
    exact ⟨s, hs, by simpa using himp⟩

theorem find_id {l : List κ} (k : κ) :
    KeyedList.find id k l = if k ∈ l then some k else none := by
  split
  case isTrue hk =>
    obtain ⟨x, hx⟩ := Option.isSome_iff_exists.1 (find_isSome_iff.2 hk)
    obtain rfl : x = k := KeyedList.key_of_find hx
    exact hx
  case isFalse hk =>
    rw [KeyedList.find_eq_none]
    rintro x hx rfl
    exact hk hx

theorem implements_merge {f : Option κ → Option κ → Option κ} {acc : ℕ × Digit κ}
    (h₁ : Implements s₁ S₁) (h₂ : Implements s₂ S₂) (hf : KeyedList.Keyed id id id f)
    (hacc : Collects acc (KeyedList.merge id id f (RedBlack.toList s₁.tree)
      (RedBlack.toList s₂.tree)))
    (hS : ∀ x, x ∈ S ↔ (f (if x ∈ S₁ then some x else none)
      (if x ∈ S₂ then some x else none)).isSome = true) : Implements (ofWalk acc) S := by
  have hasc₁ := h₁.wellFormed.ascending
  have hasc₂ := h₂.wellFormed.ascending
  refine implements_ofWalk hacc (hasc₁.merge hf hasc₂) fun x => ?_
  rw [← find_isSome_iff, KeyedList.find_merge hf hasc₁ hasc₂, find_id, find_id, hS]
  simp [h₁.mem_iff, h₂.mem_iff]

theorem implements_union (h₁ : Implements s₁ S₁) (h₂ : Implements s₂ S₂) :
    Implements (union s₁ s₂) (S₁ ∪ S₂) := by
  obtain ⟨n₁, t₁⟩ := s₁
  obtain ⟨n₂, t₂⟩ := s₂
  have hacc : Collects (union' id (fun x _ => x) (start t₁) (start t₂) 0 ZERO) _ :=
    collects_zero.union' _
  rw [stackList_start, stackList_start] at hacc
  refine implements_merge h₁ h₂ ⟨rfl, ?_, ?_, ?_⟩ hacc fun x => ?_
  · simp [unionOf]
  · simp [unionOf]
  · simp [unionOf]
  · by_cases hx₁ : x ∈ S₁ <;> by_cases hx₂ : x ∈ S₂ <;> simp [unionOf, hx₁, hx₂]

theorem implements_intersection (h₁ : Implements s₁ S₁) (h₂ : Implements s₂ S₂) :
    Implements (intersection s₁ s₂) (S₁ ∩ S₂) := by
  obtain ⟨n₁, t₁⟩ := s₁
  obtain ⟨n₂, t₂⟩ := s₂
  have hacc : Collects (intersect id id (fun x _ => x) (start t₁) (start t₂) 0 ZERO) _ :=
    collects_zero.intersect _
  rw [stackList_start, stackList_start] at hacc
  refine implements_merge h₁ h₂ ⟨rfl, ?_, ?_, ?_⟩ hacc fun x => ?_
  · simp [intersectOf]
  · simp [intersectOf]
  · simp [intersectOf]
  · by_cases hx₁ : x ∈ S₁ <;> by_cases hx₂ : x ∈ S₂ <;> simp [intersectOf, hx₁, hx₂]

theorem implements_difference (h₁ : Implements s₁ S₁) (h₂ : Implements s₂ S₂) :
    Implements (difference s₁ s₂) (S₁ \ S₂) := by
  obtain ⟨n₁, t₁⟩ := s₁
  obtain ⟨n₂, t₂⟩ := s₂
  have hacc : Collects (diff id (start t₁) (start t₂) 0 ZERO) _ := collects_zero.diff
  rw [stackList_start, stackList_start] at hacc
  refine implements_merge h₁ h₂ ⟨rfl, ?_, ?_, ?_⟩ hacc fun x => ?_
  · simp [differenceOf]
  · simp [differenceOf]
  · simp [differenceOf]
  · by_cases hx₁ : x ∈ S₁ <;> by_cases hx₂ : x ∈ S₂ <;> simp [differenceOf, hx₁, hx₂]

theorem implements_combineWith (pred : κ → Bool → Bool → Bool) (h₁ : Implements s₁ S₁)
    (h₂ : Implements s₂ S₂) : Implements (combineWith pred s₁ s₂)
      ((S₁ ∪ S₂).filter fun x => pred x (decide (x ∈ S₁)) (decide (x ∈ S₂)) = true) := by
  obtain ⟨n₁, t₁⟩ := s₁
  obtain ⟨n₂, t₂⟩ := s₂
  have hacc : Collects (merge id id (combineOf pred) (start t₁) (start t₂) (0, ZERO)) _ :=
    collects_zero.merge
  rw [stackList_start, stackList_start] at hacc
  refine implements_merge h₁ h₂ ⟨rfl, ?_, ?_, ?_⟩ hacc fun x => ?_
  · intro x z hz
    simp only [combineOf] at hz
    split at hz <;> simp_all
  · intro x z hz
    simp only [combineOf] at hz
    split at hz <;> simp_all
  · intro x y z hxy hz
    simp only [combineOf] at hz
    split at hz <;> simp_all
  · by_cases hx₁ : x ∈ S₁ <;> by_cases hx₂ : x ∈ S₂ <;>
      simp [combineOf, hx₁, hx₂]

theorem implements_subtract (h : Implements s S) (item : κ) :
    Implements (subtract s item) (S.erase item) := by
  rw [← Finset.sdiff_singleton_eq_erase]
  exact implements_difference h (implements_singleton item)

theorem implements_foldlM {g : RBSet κ → κ → Except Exn (RBSet κ)} {F : κ → Finset κ}
    (hg : ∀ s S x, Implements s S → ∃ s', g s x = .ok s' ∧ Implements s' (S ∪ F x))
    (h : Implements s S) (l : List κ) :
    ∃ s', l.foldlM g s = .ok s' ∧ Implements s' (S ∪ l.toFinset.biUnion F) := by
  induction l generalizing s S with
  | nil => exact ⟨s, rfl, by simpa using h⟩
  | cons x l ih =>
    obtain ⟨s', hs', himp⟩ := hg s S x h
    obtain ⟨s'', hs'', himp'⟩ := ih himp
    refine ⟨s'', by rw [List.foldlM_cons, hs']; exact hs'', ?_⟩
    convert himp' using 1
    simp

theorem implements_subtractList (h : Implements s S) (items : List κ) :
    ∃ s', subtractList s items = .ok s' ∧ Implements s' (S \ items.toFinset) := by
  obtain ⟨t, ht, himp⟩ := implements_foldlM (g := fun set x => add set x) (F := fun x => {x})
    (fun s S x hs => by simpa using implements_add hs x)
    implements_empty items
  refine ⟨difference s t, ?_, ?_⟩
  · change (items.foldlM (fun set x => add set x) empty >>= _) = _
    rw [ht]
    rfl
  · simpa using implements_difference h himp

theorem implements_map (f : κ → κ) (h : Implements s S) :
    ∃ s', map f s = .ok s' ∧ Implements s' (S.image f) := by
  obtain ⟨n, t⟩ := s
  obtain ⟨s', hs', himp⟩ := implements_foldlM (g := fun m x => add m (f x)) (F := fun x => {f x})
    (fun s S x hs => by simpa using implements_add hs (f x))
    implements_empty (RedBlack.toList t)
  refine ⟨s', hs', ?_⟩
  convert himp using 1
  ext y
  simp [h.mem_iff, eq_comm]

theorem implements_mapPartial (f : κ → Option κ) (h : Implements s S) :
    ∃ s', mapPartial f s = .ok s' ∧ Implements s' (S.biUnion fun x => (f x).toFinset) := by
  obtain ⟨n, t⟩ := s
  -- an item is added where it has an image
  have hstep : ∀ (s : RBSet κ) (S : Finset κ) (x : κ), Implements s S →
      ∃ s', (match f x with | some x' => add s x' | none => .ok s) = .ok s' ∧
        Implements s' (S ∪ (f x).toFinset) := by
    intro s S x hs
    rcases hfx : f x with _ | x'
    · exact ⟨s, rfl, by simpa using hs⟩
    · simpa using implements_add hs x'
  obtain ⟨s', hs', himp⟩ := implements_foldlM hstep implements_empty (RedBlack.toList t)
  refine ⟨s', hs', ?_⟩
  convert himp using 1
  ext y
  simp [h.mem_iff]

theorem implements_filter (pred : κ → Bool) (h : Implements s S) :
    Implements (filter pred s) (S.filter fun x => pred x = true) := by
  obtain ⟨n, t⟩ := s
  have hacc : Collects (filterWalk pred t (0, ZERO)) _ := collects_zero.filterWalk t
  rw [List.nil_append] at hacc
  refine implements_ofWalk hacc (h.wellFormed.ascending.filter _) fun x => ?_
  rw [List.mem_filter, h.mem_iff, Finset.mem_filter]

theorem implements_partition (pred : κ → Bool) (h : Implements s S) :
    Implements (partition pred s).1 (S.filter fun x => pred x = true) ∧
      Implements (partition pred s).2 (S.filter fun x => pred x = false) := by
  obtain ⟨n, t⟩ := s
  obtain ⟨hacc₁, hacc₂⟩ :=
    @Collects.partitionWalk κ pred ((0, ZERO), (0, ZERO)) [] [] collects_zero collects_zero t
  rw [List.nil_append] at hacc₁ hacc₂
  constructor
  · refine implements_ofWalk hacc₁ (h.wellFormed.ascending.filter _) fun x => ?_
    rw [List.mem_filter, h.mem_iff, Finset.mem_filter]
  · refine implements_ofWalk hacc₂ (h.wellFormed.ascending.filter _) fun x => ?_
    rw [List.mem_filter, h.mem_iff]
    simp

end RBSet

/-! ### Programs -/

/-- A program that builds a set by the operations. -/
inductive SetExpr (κ : Type*)
  | empty
  | singleton (x : κ)
  | add (e : SetExpr κ) (x : κ)
  | addList (e : SetExpr κ) (l : List κ)
  | fromList (l : List κ)
  | delete (e : SetExpr κ) (x : κ)
  | union (e₁ e₂ : SetExpr κ)
  | intersection (e₁ e₂ : SetExpr κ)
  | difference (e₁ e₂ : SetExpr κ)
  | combineWith (pred : κ → Bool → Bool → Bool) (e₁ e₂ : SetExpr κ)
  | subtract (e : SetExpr κ) (x : κ)
  | subtractList (e : SetExpr κ) (l : List κ)
  | map (f : κ → κ) (e : SetExpr κ)
  | mapPartial (f : κ → Option κ) (e : SetExpr κ)
  | filter (pred : κ → Bool) (e : SetExpr κ)
  | partition1 (pred : κ → Bool) (e : SetExpr κ)
  | partition2 (pred : κ → Bool) (e : SetExpr κ)

namespace SetExpr

variable {κ : Type*} [LinearOrder κ]

/-- The set that a program builds, or the exception that it raises. -/
def eval : SetExpr κ → Except Exn (RBSet κ)
  | empty => .ok RBSet.empty
  | singleton x => .ok (RBSet.singleton x)
  | add e x => do RBSet.add (← e.eval) x
  | addList e l => do RBSet.addList (← e.eval) l
  | fromList l => RBSet.fromList l
  | delete e x => do RBSet.delete (← e.eval) x
  | union e₁ e₂ => do return RBSet.union (← e₁.eval) (← e₂.eval)
  | intersection e₁ e₂ => do return RBSet.intersection (← e₁.eval) (← e₂.eval)
  | difference e₁ e₂ => do return RBSet.difference (← e₁.eval) (← e₂.eval)
  | combineWith pred e₁ e₂ => do return RBSet.combineWith pred (← e₁.eval) (← e₂.eval)
  | subtract e x => do return RBSet.subtract (← e.eval) x
  | subtractList e l => do RBSet.subtractList (← e.eval) l
  | map f e => do RBSet.map f (← e.eval)
  | mapPartial f e => do RBSet.mapPartial f (← e.eval)
  | filter pred e => do return RBSet.filter pred (← e.eval)
  | partition1 pred e => do return (RBSet.partition pred (← e.eval)).1
  | partition2 pred e => do return (RBSet.partition pred (← e.eval)).2

/-- The finite set that a program denotes; it denotes none when an item is deleted that is not
there. -/
def denote : SetExpr κ → Option (Finset κ)
  | empty => some ∅
  | singleton x => some {x}
  | add e x => do return Insert.insert x (← e.denote)
  | addList e l => do return (← e.denote) ∪ l.toFinset
  | fromList l => some l.toFinset
  | delete e x => do
    let S ← e.denote
    if x ∈ S then return S.erase x else none
  | union e₁ e₂ => do return (← e₁.denote) ∪ (← e₂.denote)
  | intersection e₁ e₂ => do return (← e₁.denote) ∩ (← e₂.denote)
  | difference e₁ e₂ => do return (← e₁.denote) \ (← e₂.denote)
  | combineWith pred e₁ e₂ => do
    let S₁ ← e₁.denote
    let S₂ ← e₂.denote
    return (S₁ ∪ S₂).filter fun x => pred x (decide (x ∈ S₁)) (decide (x ∈ S₂)) = true
  | subtract e x => do return (← e.denote).erase x
  | subtractList e l => do return (← e.denote) \ l.toFinset
  | map f e => do return (← e.denote).image f
  | mapPartial f e => do return (← e.denote).biUnion fun x => (f x).toFinset
  | filter pred e => do return (← e.denote).filter fun x => pred x = true
  | partition1 pred e => do return (← e.denote).filter fun x => pred x = true
  | partition2 pred e => do return (← e.denote).filter fun x => pred x = false

def Agrees (r : Except Exn (RBSet κ)) : Option (Finset κ) → Prop
  | some S => ∃ s, r = .ok s ∧ RBSet.Implements s S
  | none => r = .error .notFound

theorem Agrees.bind {r : Except Exn (RBSet κ)} {d : Option (Finset κ)} (h : Agrees r d)
    {g : RBSet κ → Except Exn (RBSet κ)} {k : Finset κ → Option (Finset κ)}
    (hg : ∀ s S, RBSet.Implements s S → Agrees (g s) (k S)) : Agrees (r >>= g) (d >>= k) := by
  rcases d with _ | S
  · obtain rfl : r = .error .notFound := h
    rfl
  · obtain ⟨s, rfl, hs⟩ := h
    exact hg s S hs

/-- **Programs build what they denote**: every program builds a well-formed tree of the finite set
that it denotes, and raises no exception but the one for an item that is not there. -/
theorem eval_spec (e : SetExpr κ) : Agrees e.eval e.denote := by
  induction e with
  | empty => exact ⟨_, rfl, RBSet.implements_empty⟩
  | singleton x => exact ⟨_, rfl, RBSet.implements_singleton x⟩
  | add e x ih => exact ih.bind fun s S hs => RBSet.implements_add hs x
  | addList e l ih => exact ih.bind fun s S hs => RBSet.implements_addList hs l
  | fromList l => exact RBSet.implements_fromList l
  | delete e x ih =>
    refine ih.bind fun s S hs => ?_
    have h := RBSet.implements_delete hs x
    split at h
    case isTrue hx =>
      rw [if_pos hx]
      exact h
    case isFalse hx =>
      rw [if_neg hx]
      exact h
  | union e₁ e₂ ih₁ ih₂ =>
    exact ih₁.bind fun s₁ S₁ h₁ => ih₂.bind fun s₂ S₂ h₂ =>
      ⟨_, rfl, RBSet.implements_union h₁ h₂⟩
  | intersection e₁ e₂ ih₁ ih₂ =>
    exact ih₁.bind fun s₁ S₁ h₁ => ih₂.bind fun s₂ S₂ h₂ =>
      ⟨_, rfl, RBSet.implements_intersection h₁ h₂⟩
  | difference e₁ e₂ ih₁ ih₂ =>
    exact ih₁.bind fun s₁ S₁ h₁ => ih₂.bind fun s₂ S₂ h₂ =>
      ⟨_, rfl, RBSet.implements_difference h₁ h₂⟩
  | combineWith pred e₁ e₂ ih₁ ih₂ =>
    exact ih₁.bind fun s₁ S₁ h₁ => ih₂.bind fun s₂ S₂ h₂ =>
      ⟨_, rfl, RBSet.implements_combineWith pred h₁ h₂⟩
  | subtract e x ih => exact ih.bind fun s S hs => ⟨_, rfl, RBSet.implements_subtract hs x⟩
  | subtractList e l ih => exact ih.bind fun s S hs => RBSet.implements_subtractList hs l
  | map f e ih => exact ih.bind fun s S hs => RBSet.implements_map f hs
  | mapPartial f e ih => exact ih.bind fun s S hs => RBSet.implements_mapPartial f hs
  | filter pred e ih => exact ih.bind fun s S hs => ⟨_, rfl, RBSet.implements_filter pred hs⟩
  | partition1 pred e ih =>
    exact ih.bind fun s S hs => ⟨_, rfl, (RBSet.implements_partition pred hs).1⟩
  | partition2 pred e ih =>
    exact ih.bind fun s S hs => ⟨_, rfl, (RBSet.implements_partition pred hs).2⟩

end SetExpr

end SmlNj.RedBlack
