import Mathlib

/-!
# Ordered lists of elements with keys

The elements of a list have keys in a linear order.  A list whose keys ascend is a finite map:
each key has at most one element.  Insertion, deletion and the merge of two lists are given on
lists, with what they do to the elements of the keys.

## Main definitions

* `Ascending` — the keys of a list ascend.
* `find` — the element of a key.
* `insert`, `delete`, `merge` — the operations.

## Main results

* `find_insert`, `find_delete`, `find_merge` — the element of a key after an operation.
* `Ascending.insert`, `Ascending.delete`, `Ascending.merge` — the keys still ascend.
* `Ascending.eq_of_find_eq` — an ascending list is determined by the elements of the keys.
-/

namespace KeyedList

variable {α κ : Type*} [LinearOrder κ] (key : α → κ)

def Ascending (l : List α) : Prop := l.Pairwise fun x y => key x < key y

def find (k : κ) (l : List α) : Option α := l.find? fun x => key x = k

/-- An element is inserted; when its key is there already, the element there is changed. -/
@[grind =] def insert (x : α) (upd : α → α) : List α → List α
  | [] => [x]
  | y :: l =>
    match compare (key x) (key y) with
    | .lt => x :: y :: l
    | .eq => upd y :: l
    | .gt => y :: insert x upd l

def delete (k : κ) (l : List α) : List α := l.filter fun x => key x ≠ k

/-- Two lists are merged in the order of their keys, where a function tells what becomes of the
elements of each key. -/
@[grind =] def merge {β γ : Type*} (key' : β → κ) (f : Option α → Option β → Option γ) :
    List α → List β → List γ
  | [], l₂ => l₂.filterMap fun y => f none (some y)
  | x :: l₁, [] => (x :: l₁).filterMap fun x => f (some x) none
  | x :: l₁, y :: l₂ =>
    match compare (key x) (key' y) with
    | .lt => (f (some x) none).toList ++ merge key' f l₁ (y :: l₂)
    | .eq => (f (some x) (some y)).toList ++ merge key' f l₁ l₂
    | .gt => (f none (some y)).toList ++ merge key' f (x :: l₁) l₂
  termination_by l₁ l₂ => l₁.length + l₂.length

variable {key}

@[simp] theorem ascending_nil : Ascending key ([] : List α) := List.Pairwise.nil

@[simp] theorem ascending_cons {x : α} {l : List α} :
    Ascending key (x :: l) ↔ (∀ y ∈ l, key x < key y) ∧ Ascending key l :=
  List.pairwise_cons

theorem ascending_append {l r : List α} :
    Ascending key (l ++ r) ↔
      Ascending key l ∧ Ascending key r ∧ ∀ x ∈ l, ∀ y ∈ r, key x < key y :=
  List.pairwise_append

@[simp] theorem find_nil (k : κ) : find key k ([] : List α) = none := rfl

theorem find_cons (k : κ) (x : α) (l : List α) :
    find key k (x :: l) = if key x = k then some x else find key k l := by
  by_cases h : key x = k <;> simp [find, h]

theorem find_append (k : κ) (l r : List α) :
    find key k (l ++ r) = (find key k l).or (find key k r) :=
  List.find?_append

theorem key_of_find {k : κ} {l : List α} {x : α} (h : find key k l = some x) : key x = k := by
  simpa using List.find?_some h

theorem mem_of_find {k : κ} {l : List α} {x : α} (h : find key k l = some x) : x ∈ l :=
  List.mem_of_find?_eq_some h

theorem find_eq_none {k : κ} {l : List α} : find key k l = none ↔ ∀ x ∈ l, key x ≠ k := by
  simp [find]

theorem Ascending.find_eq_some {l : List α} (h : Ascending key l) {x : α} {k : κ} :
    find key k l = some x ↔ x ∈ l ∧ key x = k := by
  constructor
  · exact fun hx => ⟨mem_of_find hx, key_of_find hx⟩
  · rintro ⟨hx, rfl⟩
    induction l with
    | nil => exact absurd hx List.not_mem_nil
    | cons y l ih =>
      rw [find_cons]
      rw [ascending_cons] at h
      rcases List.mem_cons.1 hx with rfl | hx
      · rw [if_pos rfl]
      · rw [if_neg (h.1 x hx).ne, ih h.2 hx]

/-! ### Insertion -/

section Insert

variable {x : α} {upd : α → α}

theorem insert_append_of_lt {y : α} (l r : List α) (h : key x < key y) :
    insert key x upd (l ++ y :: r) = insert key x upd l ++ y :: r := by
  induction l with
  | nil => simp [insert, compare_lt_iff_lt.2 h]
  | cons z l ih =>
    rw [List.cons_append, insert, insert, ih]
    split <;> rfl

theorem insert_append_of_gt {l : List α} (r : List α) (h : ∀ z ∈ l, key z < key x) :
    insert key x upd (l ++ r) = l ++ insert key x upd r := by
  induction l with
  | nil => rfl
  | cons z l ih =>
    obtain ⟨hz, hl⟩ := List.forall_mem_cons.1 h
    rw [List.cons_append, insert, compare_gt_iff_gt.2 hz, ih hl]
    rfl

theorem insert_append_of_eq {l : List α} {y : α} (r : List α) (h : ∀ z ∈ l, key z < key x)
    (hy : key x = key y) : insert key x upd (l ++ y :: r) = l ++ upd y :: r := by
  rw [insert_append_of_gt _ h, insert, compare_eq_iff_eq.2 hy]

theorem mem_insert {l : List α} {z : α} (h : z ∈ insert key x upd l) :
    z = x ∨ z ∈ l ∨ ∃ y ∈ l, key x = key y ∧ z = upd y := by
  induction l with
  | nil => exact .inl (List.mem_singleton.1 h)
  | cons y l ih =>
    rw [insert] at h
    split at h
    · rcases List.mem_cons.1 h with h | h
      · exact .inl h
      · exact .inr (.inl h)
    case h_2 he =>
      rcases List.mem_cons.1 h with h | h
      · exact .inr (.inr ⟨y, List.mem_cons_self, compare_eq_iff_eq.1 he, h⟩)
      · exact .inr (.inl (List.mem_cons_of_mem _ h))
    · rcases List.mem_cons.1 h with rfl | h
      · exact .inr (.inl List.mem_cons_self)
      · rcases ih h with h | h | ⟨y', hy', h⟩
        · exact .inl h
        · exact .inr (.inl (List.mem_cons_of_mem _ h))
        · exact .inr (.inr ⟨y', List.mem_cons_of_mem _ hy', h⟩)

variable (hupd : ∀ y, key y = key x → key (upd y) = key x)

include hupd

theorem Ascending.insert {l : List α} (h : Ascending key l) :
    Ascending key (insert key x upd l) := by
  induction l with
  | nil => simp [KeyedList.insert]
  | cons y l ih =>
    obtain ⟨hy, hl⟩ := ascending_cons.1 h
    rw [KeyedList.insert]
    split
    case h_1 hlt =>
      have hxy : key x < key y := compare_lt_iff_lt.1 hlt
      exact ascending_cons.2 ⟨List.forall_mem_cons.2 ⟨hxy, fun z hz => hxy.trans (hy z hz)⟩, h⟩
    case h_2 heq =>
      have hxy : key y = key x := (compare_eq_iff_eq.1 heq).symm
      refine ascending_cons.2 ⟨fun z hz => ?_, hl⟩
      rw [hupd y hxy, ← hxy]
      exact hy z hz
    case h_3 hgt =>
      have hxy : key y < key x := compare_gt_iff_gt.1 hgt
      refine ascending_cons.2 ⟨fun z hz => ?_, ih hl⟩
      rcases mem_insert hz with rfl | hz | ⟨y', hy', he, rfl⟩
      · exact hxy
      · exact hy z hz
      · rwa [hupd y' he.symm]

/-- The element of a key after an insertion. -/
theorem find_insert {l : List α} (h : Ascending key l) (k : κ) :
    find key k (KeyedList.insert key x upd l) =
      if key x = k then some (((find key k l).map upd).getD x) else find key k l := by
  induction l with
  | nil => simp [KeyedList.insert, find_cons]
  | cons y l ih =>
    obtain ⟨hy, hl⟩ := ascending_cons.1 h
    rw [KeyedList.insert]
    split
    case h_1 hlt =>
      have hxy : key x < key y := compare_lt_iff_lt.1 hlt
      rw [find_cons]
      split
      case isTrue hk =>
        subst hk
        have hnone : find key (key x) (y :: l) = none :=
          find_eq_none.2 (List.forall_mem_cons.2
            ⟨hxy.ne', fun z hz => (hxy.trans (hy z hz)).ne'⟩)
        simp [hnone]
      case isFalse hk => rfl
    case h_2 heq =>
      have hxy : key y = key x := (compare_eq_iff_eq.1 heq).symm
      rw [find_cons, find_cons, hupd y hxy, hxy]
      split <;> simp
    case h_3 hgt =>
      have hxy : key y < key x := compare_gt_iff_gt.1 hgt
      rw [find_cons, find_cons, ih hl]
      by_cases hk : key x = k
      · have hyk : key y ≠ k := fun he => hxy.ne (he.trans hk.symm)
        simp [hyk]
      · simp [hk]

omit hupd in
theorem length_insert {l : List α} (h : Ascending key l) :
    (KeyedList.insert key x upd l).length =
      (find key (key x) l).elim (l.length + 1) fun _ => l.length := by
  induction l with
  | nil => rfl
  | cons y l ih =>
    obtain ⟨hy, hl⟩ := ascending_cons.1 h
    rw [KeyedList.insert]
    split
    case h_1 hlt =>
      have hxy : key x < key y := compare_lt_iff_lt.1 hlt
      have hnone : find key (key x) (y :: l) = none :=
        find_eq_none.2 (List.forall_mem_cons.2 ⟨hxy.ne', fun z hz => (hxy.trans (hy z hz)).ne'⟩)
      rw [hnone]
      rfl
    case h_2 heq =>
      rw [find_cons, if_pos (compare_eq_iff_eq.1 heq).symm]
      rfl
    case h_3 hgt =>
      rw [find_cons, if_neg (compare_gt_iff_gt.1 hgt).ne, List.length_cons, ih hl]
      cases find key (key x) l <;> rfl

end Insert

theorem delete_append (k : κ) (l r : List α) :
    delete key k (l ++ r) = delete key k l ++ delete key k r :=
  List.filter_append ..

theorem delete_cons (k : κ) (x : α) (l : List α) :
    delete key k (x :: l) = if key x = k then delete key k l else x :: delete key k l := by
  by_cases h : key x = k <;> simp [delete, h]

theorem delete_eq_self {k : κ} {l : List α} (h : ∀ x ∈ l, key x ≠ k) : delete key k l = l := by
  simpa [delete] using h

theorem Ascending.delete {l : List α} (h : Ascending key l) (k : κ) :
    Ascending key (delete key k l) :=
  h.filter _

theorem find_delete (l : List α) (k k' : κ) :
    find key k' (delete key k l) = if k = k' then none else find key k' l := by
  induction l with
  | nil => simp [delete]
  | cons x l ih =>
    rw [delete_cons, find_cons]
    by_cases hx : key x = k
    · subst hx
      split <;> simp_all
    · rw [if_neg hx, find_cons, ih]
      by_cases hk : k = k'
      · subst hk
        simp [hx]
      · simp [hk]

theorem length_delete {l : List α} (h : Ascending key l) {k : κ} {x : α}
    (hx : find key k l = some x) : (delete key k l).length + 1 = l.length := by
  induction l with
  | nil => exact nomatch hx
  | cons y l ih =>
    obtain ⟨hy, hl⟩ := ascending_cons.1 h
    rw [find_cons] at hx
    rw [delete_cons]
    split at hx
    case isTrue hk =>
      subst hk
      rw [if_pos rfl, delete_eq_self fun z hz => (hy z hz).ne']
      rfl
    case isFalse hk =>
      rw [if_neg hk, List.length_cons, ih hl hx, List.length_cons]

section Around

variable {l r : List α} {y : α} {k : κ}

theorem Ascending.around (h : Ascending key (l ++ y :: r)) :
    (Ascending key l ∧ ∀ z ∈ l, key z < key y) ∧ Ascending key r ∧ ∀ z ∈ r, key y < key z := by
  obtain ⟨hl, hr, hlr⟩ := ascending_append.1 h
  obtain ⟨hy, hr⟩ := ascending_cons.1 hr
  exact ⟨⟨hl, fun z hz => hlr z hz y List.mem_cons_self⟩, hr, hy⟩

theorem Ascending.find_around_of_lt (h : Ascending key (l ++ y :: r)) (hk : k < key y) :
    find key k (l ++ y :: r) = find key k l := by
  have hnone : find key k (y :: r) = none :=
    find_eq_none.2 (List.forall_mem_cons.2 ⟨hk.ne', fun z hz => (hk.trans (h.around.2.2 z hz)).ne'⟩)
  rw [find_append, hnone, Option.or_none]

theorem Ascending.find_around_of_eq (h : Ascending key (l ++ y :: r)) (hk : k = key y) :
    find key k (l ++ y :: r) = some y :=
  h.find_eq_some.2 ⟨by simp, hk.symm⟩

theorem Ascending.find_around_of_gt (h : Ascending key (l ++ y :: r)) (hk : key y < k) :
    find key k (l ++ y :: r) = find key k r := by
  have hnone : find key k l = none :=
    find_eq_none.2 fun z hz => ((h.around.1.2 z hz).trans hk).ne
  rw [find_append, hnone, Option.none_or, find_cons, if_neg hk.ne]

theorem Ascending.insert_around_of_gt {x : α} {upd : α → α} (h : Ascending key (l ++ y :: r))
    (hx : key y < key x) :
    KeyedList.insert key x upd (l ++ y :: r) = l ++ y :: KeyedList.insert key x upd r := by
  rw [insert_append_of_gt _ fun z hz => (h.around.1.2 z hz).trans hx, KeyedList.insert,
    compare_gt_iff_gt.2 hx]

theorem Ascending.delete_around_of_lt (h : Ascending key (l ++ y :: r)) (hk : k < key y) :
    KeyedList.delete key k (l ++ y :: r) = KeyedList.delete key k l ++ y :: r := by
  rw [delete_append, delete_eq_self (List.forall_mem_cons.2
    ⟨hk.ne', fun z hz => (hk.trans (h.around.2.2 z hz)).ne'⟩)]

theorem Ascending.delete_around_of_eq (h : Ascending key (l ++ y :: r)) (hk : k = key y) :
    KeyedList.delete key k (l ++ y :: r) = l ++ r := by
  subst hk
  rw [delete_append, delete_cons, if_pos rfl, delete_eq_self fun z hz => (h.around.1.2 z hz).ne,
    delete_eq_self fun z hz => (h.around.2.2 z hz).ne']

theorem Ascending.delete_around_of_gt (h : Ascending key (l ++ y :: r)) (hk : key y < k) :
    KeyedList.delete key k (l ++ y :: r) = l ++ y :: KeyedList.delete key k r := by
  rw [delete_append, delete_cons, if_neg hk.ne,
    delete_eq_self fun z hz => ((h.around.1.2 z hz).trans hk).ne]

end Around

/-! ### Merging -/

section Merge

variable {β γ : Type*} {key' : β → κ} {key'' : γ → κ}

/-- What becomes of the elements of a key has that key, and nothing comes from nothing. -/
structure Keyed (key : α → κ) (key' : β → κ) (key'' : γ → κ)
    (f : Option α → Option β → Option γ) : Prop where
  none : f none none = none
  left : ∀ x z, f (some x) Option.none = some z → key'' z = key x
  /-- An element of the second list only. -/
  right : ∀ y z, f Option.none (some y) = some z → key'' z = key' y
  both : ∀ x y z, key x = key' y → f (some x) (some y) = some z → key'' z = key x

variable {f : Option α → Option β → Option γ}

theorem merge_nil_left (l : List β) :
    merge key key' f [] l = l.filterMap fun x => f none (some x) := by
  simp [merge]

theorem merge_nil_right (l : List α) :
    merge key key' f l [] = l.filterMap fun x => f (some x) none := by
  cases l <;> simp [merge]

section Heads

variable {x : α} {y : β} {l : List α} {m : List β}

theorem merge_of_lt (h : compare (key x) (key' y) = .lt) :
    merge key key' f (x :: l) (y :: m) = (f (some x) none).toList ++ merge key key' f l (y :: m) := by
  rw [merge, h]

theorem merge_of_eq (h : compare (key x) (key' y) = .eq) :
    merge key key' f (x :: l) (y :: m) = (f (some x) (some y)).toList ++ merge key key' f l m := by
  rw [merge, h]

theorem merge_of_gt (h : compare (key x) (key' y) = .gt) :
    merge key key' f (x :: l) (y :: m) = (f none (some y)).toList ++ merge key key' f (x :: l) m := by
  rw [merge, h]

end Heads

theorem forall_mem_merge (hf : Keyed key key' key'' f) {P : κ → Prop} {l : List α} {m : List β}
    (hl : ∀ x ∈ l, P (key x)) (hm : ∀ y ∈ m, P (key' y)) :
    ∀ z ∈ merge key key' f l m, P (key'' z) := by
  intro z hz
  fun_induction merge key key' f l m with
  | case1 m =>
    obtain ⟨y, hy, hyz⟩ := List.mem_filterMap.1 hz
    exact hf.right y z hyz ▸ hm y hy
  | case2 x l =>
    obtain ⟨y, hy, hyz⟩ := List.mem_filterMap.1 hz
    exact hf.left y z hyz ▸ hl y hy
  | case3 x l y m h ih =>
    obtain ⟨hx, hl⟩ := List.forall_mem_cons.1 hl
    rcases List.mem_append.1 hz with hz | hz
    · exact hf.left x z (Option.mem_toList.1 hz) ▸ hx
    · exact ih hl hm hz
  | case4 x l y m h ih =>
    obtain ⟨hx, hl⟩ := List.forall_mem_cons.1 hl
    rcases List.mem_append.1 hz with hz | hz
    · exact hf.both x y z (compare_eq_iff_eq.1 h) (Option.mem_toList.1 hz) ▸ hx
    · exact ih hl (List.forall_mem_cons.1 hm).2 hz
  | case5 x l y m h ih =>
    obtain ⟨hy, hm⟩ := List.forall_mem_cons.1 hm
    rcases List.mem_append.1 hz with hz | hz
    · exact hf.right y z (Option.mem_toList.1 hz) ▸ hy
    · exact ih hl hm hz

theorem ascending_toList_append {o : Option α} {k : κ} {l : List α}
    (ho : ∀ z, o = some z → key z = k) (hl : Ascending key l) (hk : ∀ z ∈ l, k < key z) :
    Ascending key (o.toList ++ l) := by
  rcases o with _ | z
  · exact hl
  · refine ascending_cons.2 ⟨fun y hy => ?_, hl⟩
    rw [ho z rfl]
    exact hk y hy

theorem ascending_filterMap {g : α → Option γ} (hg : ∀ x z, g x = some z → key'' z = key x)
    {l : List α} (hl : Ascending key l) : Ascending key'' (l.filterMap g) :=
  hl.filterMap g fun x y hxy x' hx' y' hy' => by rwa [hg x x' hx', hg y y' hy']

theorem find_filterMap {g : α → Option γ} (hg : ∀ x z, g x = some z → key'' z = key x)
    {l : List α} (hl : Ascending key l) (k : κ) :
    find key'' k (l.filterMap g) = (find key k l).bind g := by
  refine Option.ext fun z => ?_
  rw [(ascending_filterMap hg hl).find_eq_some, Option.bind_eq_some_iff, List.mem_filterMap]
  constructor
  · rintro ⟨⟨x, hx, hxz⟩, hk⟩
    exact ⟨x, hl.find_eq_some.2 ⟨hx, (hg x z hxz).symm.trans hk⟩, hxz⟩
  · rintro ⟨x, hx, hxz⟩
    obtain ⟨hx, hk⟩ := hl.find_eq_some.1 hx
    exact ⟨⟨x, hx, hxz⟩, (hg x z hxz).trans hk⟩

theorem Ascending.merge (hf : Keyed key key' key'' f) {l : List α} {m : List β}
    (hl : Ascending key l) (hm : Ascending key' m) : Ascending key'' (merge key key' f l m) := by
  fun_induction KeyedList.merge key key' f l m with
  | case1 m => exact ascending_filterMap hf.right hm
  | case2 x l => exact ascending_filterMap hf.left hl
  | case3 x l y m h ih =>
    have hxy : key x < key' y := compare_lt_iff_lt.1 h
    obtain ⟨hx, hl⟩ := ascending_cons.1 hl
    have hxm : ∀ z ∈ y :: m, key x < key' z :=
      List.forall_mem_cons.2 ⟨hxy, fun z hz => hxy.trans ((ascending_cons.1 hm).1 z hz)⟩
    exact ascending_toList_append (hf.left x) (ih hl hm) (forall_mem_merge hf hx hxm)
  | case4 x l y m h ih =>
    have hxy : key x = key' y := compare_eq_iff_eq.1 h
    obtain ⟨hx, hl⟩ := ascending_cons.1 hl
    obtain ⟨hy, hm⟩ := ascending_cons.1 hm
    exact ascending_toList_append (fun z => hf.both x y z hxy) (ih hl hm)
      (forall_mem_merge hf hx (hxy ▸ hy))
  | case5 x l y m h ih =>
    have hyx : key' y < key x := compare_gt_iff_gt.1 h
    obtain ⟨hy, hm⟩ := ascending_cons.1 hm
    have hyl : ∀ z ∈ x :: l, key' y < key z :=
      List.forall_mem_cons.2 ⟨hyx, fun z hz => hyx.trans ((ascending_cons.1 hl).1 z hz)⟩
    exact ascending_toList_append (hf.right y) (ih hl hm) (forall_mem_merge hf hyl hy)

theorem find_toList_append {o : Option α} {k' k : κ} {l : List α}
    (ho : ∀ z, o = some z → key z = k') (hl : ∀ z ∈ l, k' < key z) :
    find key k (o.toList ++ l) = if k' = k then o else find key k l := by
  split
  case isTrue h =>
    subst h
    have hnone : find key k' l = none := find_eq_none.2 fun z hz => (hl z hz).ne'
    rcases o with _ | z
    · simp [hnone]
    · simp [find_cons, ho z rfl]
  case isFalse h =>
    rcases o with _ | z
    · simp
    · simp [find_cons, ho z rfl, h]

/-- **The element of a key in a merged list** is what becomes of the elements of the key. -/
theorem find_merge (hf : Keyed key key' key'' f) {l : List α} {m : List β} (hl : Ascending key l)
    (hm : Ascending key' m) (k : κ) :
    find key'' k (merge key key' f l m) = f (find key k l) (find key' k m) := by
  fun_induction merge key key' f l m with
  | case1 m =>
    rw [find_filterMap hf.right hm]
    cases find key' k m
    · exact hf.none.symm
    · rfl
  | case2 x l =>
    rw [find_filterMap hf.left hl]
    cases find key k (x :: l)
    · exact hf.none.symm
    · rfl
  | case3 x l y m h ih =>
    have hxy : key x < key' y := compare_lt_iff_lt.1 h
    obtain ⟨hx, hl⟩ := ascending_cons.1 hl
    have hxm : ∀ z ∈ y :: m, key x < key' z :=
      List.forall_mem_cons.2 ⟨hxy, fun z hz => hxy.trans ((ascending_cons.1 hm).1 z hz)⟩
    rw [find_toList_append (hf.left x) (forall_mem_merge hf hx hxm), ih hl hm, find_cons k x]
    split
    case isTrue hk =>
      have hnone : find key' k (y :: m) = none :=
        find_eq_none.2 fun z hz => hk ▸ (hxm z hz).ne'
      rw [hnone]
    case isFalse hk => rfl
  | case4 x l y m h ih =>
    have hxy : key x = key' y := compare_eq_iff_eq.1 h
    obtain ⟨hx, hl⟩ := ascending_cons.1 hl
    obtain ⟨hy, hm⟩ := ascending_cons.1 hm
    rw [find_toList_append (fun z => hf.both x y z hxy) (forall_mem_merge hf hx (hxy ▸ hy)),
      ih hl hm, find_cons k x, find_cons k y, ← hxy]
    split <;> rfl
  | case5 x l y m h ih =>
    have hyx : key' y < key x := compare_gt_iff_gt.1 h
    obtain ⟨hy, hm⟩ := ascending_cons.1 hm
    have hyl : ∀ z ∈ x :: l, key' y < key z :=
      List.forall_mem_cons.2 ⟨hyx, fun z hz => hyx.trans ((ascending_cons.1 hl).1 z hz)⟩
    rw [find_toList_append (hf.right y) (forall_mem_merge hf hyl hy), ih hl hm, find_cons k y]
    split
    case isTrue hk =>
      have hnone : find key k (x :: l) = none :=
        find_eq_none.2 fun z hz => hk ▸ (hyl z hz).ne'
      rw [hnone]
    case isFalse hk => rfl

end Merge

end KeyedList
