import SmlNj.Library.RedBlackSet

/-!
# Maps as red-black trees

The functional maps of the library: a map is a red-black tree of the pairs of its keys and values
with their number.  The maps are generic in the type of the values.

## Main definitions

* `OrdMap` — the representation.
* `insert`, `insertWithi`, `remove`, `unionWithi`, `intersectWithi`, `mergeWithi`, `map`, `filter`,
  `mapPartial` — the operations.
* `MapExpr` — programs that build maps, with the finite maps that they denote.

## Main results

* `MapExpr.eval_spec` — every program builds a well-formed tree of the finite map that it denotes,
  unless it removes a key that is not there.
* `red_black_correct` — the sets and the maps are right.
-/

namespace SmlNj.RedBlack

open Color RedBlack.Tree Zipper Digit

/-- A map is a tree of the pairs of its keys and values with their number. -/
structure OrdMap (κ β : Type*) where
  /-- The constructor of the representation. -/
  MAP ::
  nItems : ℕ
  tree : Tree (κ × β)
  deriving DecidableEq

def mapf {α β : Type*} (f : α → β) : Tree α → Tree β
  | E => E
  | T color a x b => T color (mapf f a) (f x) (mapf f b)

namespace OrdMap

universe u v

variable {κ : Type u} [LinearOrder κ] {β γ δ : Type v}

def empty : OrdMap κ β := MAP 0 E

def singleton (xk : κ) (x : β) : OrdMap κ β := MAP 1 (T B E (xk, x) E)

def insert : OrdMap κ β → κ → β → Except Exn (OrdMap κ β)
  | MAP nItems m, xk, x => do
    let (nItems', t) ← RedBlack.insert Prod.fst (xk, x) (fun _ => (xk, x)) nItems m
    return MAP nItems' t

/-- A key is mapped to a value, which is combined with the one that was there. -/
def insertWithi (comb : κ → β → β → β) : OrdMap κ β → κ → β → Except Exn (OrdMap κ β)
  | MAP nItems m, xk, x => do
    let (nItems', t) ←
      RedBlack.insert Prod.fst (xk, x) (fun old => (xk, comb xk old.2 x)) nItems m
    return MAP nItems' t

/-- A key is mapped to a value, which is combined with the one that was there. -/
def insertWith (comb : β → β → β) : OrdMap κ β → κ → β → Except Exn (OrdMap κ β) :=
  insertWithi fun _ x1 x2 => comb x1 x2

def inDomain : OrdMap κ β → κ → Bool
  | MAP _ t, k => (find' Prod.fst k t).isSome

def find : OrdMap κ β → κ → Option β
  | MAP _ t, k => (find' Prod.fst k t).map Prod.snd

/-- The value of a key.  It is an error when it is not there. -/
def lookup : OrdMap κ β → κ → Except Exn β
  | MAP _ t, k =>
    match find' Prod.fst k t with
    | some y => .ok y.2
    | none => .error .notFound

/-- A key is removed, and its value is returned.  It is an error when it is not there. -/
def remove : OrdMap κ β → κ → Except Exn (OrdMap κ β × β)
  | MAP nItems t, k => do
    match ← del Prod.fst k t TOP with
    | some (item, t) => return (MAP (nItems - 1) (blacken t), item.2)
    | none => .error .notFound

/-- A key is removed, and its value is returned, if it is there. -/
def findAndRemove : OrdMap κ β → κ → Except Exn (Option (OrdMap κ β × β))
  | MAP nItems t, k => do
    match ← del Prod.fst k t TOP with
    | some (item, t) => return some (MAP (nItems - 1) (blacken t), item.2)
    | none => return none

def numItems : OrdMap κ β → ℕ
  | MAP n _ => n

def listItemsi : OrdMap κ β → List (κ × β)
  | MAP _ t => toList t

def ofWalk (acc : ℕ × Digit (κ × β)) : OrdMap κ β := MAP (wrap acc).1 (wrap acc).2

/-- The union of two maps, which merges the values of common keys. -/
def unionWithi (mergeFn : κ → β → β → β) : OrdMap κ β → OrdMap κ β → OrdMap κ β
  | MAP _ m1, MAP _ m2 =>
    ofWalk (union' Prod.fst (fun x y => (x.1, mergeFn x.1 x.2 y.2)) (start m1) (start m2) 0 ZERO)

/-- The union of two maps, which merges the values of common keys. -/
def unionWith (mergeFn : β → β → β) : OrdMap κ β → OrdMap κ β → OrdMap κ β :=
  unionWithi fun _ x y => mergeFn x y

/-- The map of the common keys of two maps, which merges their values. -/
def intersectWithi (mergeFn : κ → β → γ → δ) : OrdMap κ β → OrdMap κ γ → OrdMap κ δ
  | MAP _ m1, MAP _ m2 =>
    ofWalk (intersect Prod.fst Prod.fst (fun x y => (x.1, mergeFn x.1 x.2 y.2)) (start m1)
      (start m2) 0 ZERO)

/-- The map of the common keys of two maps, which merges their values. -/
def intersectWith (mergeFn : β → γ → δ) : OrdMap κ β → OrdMap κ γ → OrdMap κ δ :=
  intersectWithi fun _ x y => mergeFn x y

/-- What becomes of the items of a key in a merge. -/
def mergef (mergeFn : κ → Option β → Option γ → Option δ) :
    Option (κ × β) → Option (κ × γ) → Option (κ × δ)
  | none, some (yk, y) => (mergeFn yk none (some y)).map (yk, ·)
  | some (xk, x), none => (mergeFn xk (some x) none).map (xk, ·)
  | some (xk, x), some (_, y) => (mergeFn xk (some x) (some y)).map (xk, ·)
  | none, none => none

/-- A map from two maps by a function that tells what becomes of the values of each key. -/
def mergeWithi (mergeFn : κ → Option β → Option γ → Option δ) :
    OrdMap κ β → OrdMap κ γ → OrdMap κ δ
  | MAP _ m1, MAP _ m2 =>
    ofWalk (merge Prod.fst Prod.fst (mergef mergeFn) (start m1) (start m2) (0, ZERO))

/-- A map from two maps by a function that tells what becomes of the values of each key. -/
def mergeWith (mergeFn : Option β → Option γ → Option δ) : OrdMap κ β → OrdMap κ γ → OrdMap κ δ :=
  mergeWithi fun _ x y => mergeFn x y

def mapi (f : κ → β → γ) : OrdMap κ β → OrdMap κ γ
  | MAP n m => MAP n (mapf (fun x => (x.1, f x.1 x.2)) m)

def map (f : β → γ) : OrdMap κ β → OrdMap κ γ := mapi fun _ x => f x

def filteri (pred : κ → β → Bool) : OrdMap κ β → OrdMap κ β
  | MAP _ t => ofWalk (filterWalk (fun x => pred x.1 x.2) t (0, ZERO))

def filter (pred : β → Bool) : OrdMap κ β → OrdMap κ β := filteri fun _ x => pred x

/-- A map of the images of the values that have one. -/
def mapPartiali (f : κ → β → Option γ) (m : OrdMap κ β) : Except Exn (OrdMap κ γ) :=
  m.listItemsi.foldlM (fun acc x =>
    match f x.1 x.2 with
    | none => .ok acc
    | some y => insert acc x.1 y) empty

def mapPartial (f : β → Option γ) : OrdMap κ β → Except Exn (OrdMap κ γ) :=
  mapPartiali fun _ x => f x

/-! ### The operations one by one -/

/-- **A map implements a finite map**: its tree is well-formed, and the item of a key is made up of
the key and its value. -/
structure Implements (m : OrdMap κ β) (F : κ → Option β) : Prop where
  /-- The red, black and search order invariants, and the count. -/
  wellFormed : WellFormed Prod.fst m.nItems m.tree
  find_eq : ∀ k, KeyedList.find Prod.fst k (toList m.tree) = (F k).map (Prod.mk k)

variable {m : OrdMap κ β} {F : κ → Option β}

theorem Implements.find_eq' (h : Implements m F) (k : κ) : find m k = F k := by
  rw [find, find'_eq h.wellFormed.ascending, h.find_eq, Option.map_map]
  exact Option.map_id'

theorem Implements.inDomain_eq (h : Implements m F) (k : κ) : inDomain m k = (F k).isSome := by
  rw [inDomain, find'_eq h.wellFormed.ascending, h.find_eq, Option.isSome_map]

theorem Implements.lookup_eq (h : Implements m F) (k : κ) :
    lookup m k = match F k with | some y => .ok y | none => .error .notFound := by
  rw [lookup, find'_eq h.wellFormed.ascending, h.find_eq]
  cases F k <;> rfl

theorem Implements.mem_listItemsi (h : Implements m F) (k : κ) (x : β) :
    (k, x) ∈ listItemsi m ↔ F k = some x := by
  have hfind := h.wellFormed.ascending.find_eq_some (x := (k, x)) (k := k)
  rw [h.find_eq] at hfind
  simpa [listItemsi] using hfind.symm

theorem Implements.numItems_eq (h : Implements m F) :
    ∃ S : Finset κ, (∀ k, k ∈ S ↔ (F k).isSome = true) ∧ numItems m = S.card := by
  refine ⟨((listItemsi m).map Prod.fst).toFinset, fun k => ?_, ?_⟩
  · rw [List.mem_toFinset, List.mem_map, Option.isSome_iff_exists]
    constructor
    · rintro ⟨⟨k', x⟩, hx, rfl⟩
      exact ⟨x, (h.mem_listItemsi k' x).1 hx⟩
    · rintro ⟨x, hx⟩
      exact ⟨(k, x), (h.mem_listItemsi k x).2 hx, rfl⟩
  · obtain ⟨n, t⟩ := m
    have hnodup : ((toList t).map Prod.fst).Nodup :=
      List.pairwise_map.2 (h.wellFormed.ascending.imp fun hxy => ne_of_lt hxy)
    rw [listItemsi, List.toFinset_card_of_nodup hnodup, List.length_map]
    exact h.wellFormed.count

theorem implements_empty : Implements (empty : OrdMap κ β) fun _ => none :=
  ⟨wellFormed_leaf, fun _ => rfl⟩

theorem implements_singleton (xk : κ) (x : β) :
    Implements (singleton xk x) (Function.update (fun _ => none) xk (some x)) := by
  refine ⟨wellFormed_single (xk, x), fun k => ?_⟩
  simp only [singleton, toList, List.nil_append, KeyedList.find_cons]
  split
  case isTrue hk =>
    obtain rfl : xk = k := hk
    simp
  case isFalse hk =>
    rw [Function.update_of_ne (Ne.symm hk)]
    rfl

theorem implements_insertWithi (comb : κ → β → β → β) (h : Implements m F) (xk : κ) (x : β) :
    ∃ m', insertWithi comb m xk x = .ok m' ∧ Implements m' (Function.update F xk
      (some (match F xk with | some y => comb xk y x | none => x))) := by
  have hupd : ∀ y : κ × β, y.1 = xk → ((xk, comb xk y.2 x) : κ × β).1 = xk := fun _ _ => rfl
  obtain ⟨n', t', hok, hwf, hlist⟩ := h.wellFormed.insert (x := (xk, x)) hupd
  refine ⟨MAP n' t', ?_, hwf, fun k => ?_⟩
  · rw [insertWithi]
    exact congrArg (· >>= fun p => pure (MAP p.1 p.2)) hok
  · rw [hlist, KeyedList.find_insert hupd h.wellFormed.ascending, h.find_eq]
    split
    case isTrue hk =>
      obtain rfl : xk = k := hk
      rw [Function.update_self]
      cases F xk <;> rfl
    case isFalse hk =>
      rw [Function.update_of_ne (Ne.symm hk)]

theorem insert_eq (m : OrdMap κ β) (xk : κ) (x : β) :
    insert m xk x = insertWithi (fun _ _ x => x) m xk x := rfl

theorem implements_insert (h : Implements m F) (xk : κ) (x : β) :
    ∃ m', insert m xk x = .ok m' ∧ Implements m' (Function.update F xk (some x)) := by
  obtain ⟨m', hok, himp⟩ := implements_insertWithi (fun _ _ x => x) h xk x
  refine ⟨m', hok, ?_⟩
  cases hF : F xk <;> simpa only [hF] using himp

theorem Implements.del (h : Implements m F) (k : κ) :
    ∃ o, RedBlack.del Prod.fst k m.tree TOP = .ok o ∧ o.map (fun r => r.1.2) = F k ∧
      ∀ r, o = some r → Implements (MAP (m.nItems - 1) (blacken r.2)) (Function.update F k none) := by
  obtain ⟨o, ho, hfst, hsnd⟩ := h.wellFormed.del k
  refine ⟨o, ho, ?_, fun r hr => ?_⟩
  · have := congrArg (Option.map Prod.snd) (hfst.trans (h.find_eq k))
    simpa [Function.comp_def] using this
  · obtain ⟨hblack, hwf, hlist⟩ := hsnd r hr
    rw [hblack]
    refine ⟨hwf, fun k' => ?_⟩
    rw [hlist, KeyedList.find_delete]
    split
    case isTrue hk =>
      obtain rfl : k = k' := hk
      simp
    case isFalse hk =>
      rw [Function.update_of_ne (Ne.symm hk), h.find_eq]

theorem implements_remove (h : Implements m F) (k : κ) :
    match F k with
    | some x => ∃ m', remove m k = .ok (m', x) ∧ Implements m' (Function.update F k none)
    | none => remove m k = .error .notFound := by
  obtain ⟨o, ho, hval, himp⟩ := h.del k
  rw [← hval]
  rcases o with _ | r
  · exact congrArg (· >>= _) ho
  · exact ⟨_, congrArg (· >>= _) ho, himp r rfl⟩

theorem implements_findAndRemove (h : Implements m F) (k : κ) :
    match F k with
    | some x =>
      ∃ m', findAndRemove m k = .ok (some (m', x)) ∧ Implements m' (Function.update F k none)
    | none => findAndRemove m k = .ok none := by
  obtain ⟨o, ho, hval, himp⟩ := h.del k
  rw [← hval]
  rcases o with _ | r
  · exact congrArg (· >>= _) ho
  · exact ⟨_, congrArg (· >>= _) ho, himp r rfl⟩

/-! ### The walks -/

theorem implements_ofWalk {acc : ℕ × Digit (κ × β)} {l : List (κ × β)} (hacc : Collects acc l)
    (hl : KeyedList.Ascending Prod.fst l)
    (hF : ∀ k, KeyedList.find Prod.fst k l = (F k).map (Prod.mk k)) : Implements (ofWalk acc) F := by
  obtain ⟨hwf, hlist⟩ := hacc.wellFormed hl
  exact ⟨hwf, fun k => by rw [ofWalk, hlist, hF]⟩

variable {m₁ : OrdMap κ β} {m₂ : OrdMap κ γ} {F₁ : κ → Option β} {F₂ : κ → Option γ}

theorem implements_merge {f : Option (κ × β) → Option (κ × γ) → Option (κ × δ)}
    {acc : ℕ × Digit (κ × δ)} {F : κ → Option δ} (h₁ : Implements m₁ F₁) (h₂ : Implements m₂ F₂)
    (hf : KeyedList.Keyed Prod.fst Prod.fst Prod.fst f)
    (hacc : Collects acc (KeyedList.merge Prod.fst Prod.fst f (toList m₁.tree) (toList m₂.tree)))
    (hF : ∀ k, f ((F₁ k).map (Prod.mk k)) ((F₂ k).map (Prod.mk k)) = (F k).map (Prod.mk k)) :
    Implements (ofWalk acc) F := by
  have hasc₁ := h₁.wellFormed.ascending
  have hasc₂ := h₂.wellFormed.ascending
  refine implements_ofWalk hacc (hasc₁.merge hf hasc₂) fun k => ?_
  rw [KeyedList.find_merge hf hasc₁ hasc₂, h₁.find_eq, h₂.find_eq, hF]

/-- The finite map of a union. -/
def unionMap (mergeFn : κ → β → β → β) (F₁ F₂ : κ → Option β) (k : κ) : Option β :=
  match F₁ k, F₂ k with
  | some x, some y => some (mergeFn k x y)
  | some x, none => some x
  | none, o => o

theorem implements_unionWithi (mergeFn : κ → β → β → β) {m₂ : OrdMap κ β} {F₂ : κ → Option β}
    (h₁ : Implements m₁ F₁) (h₂ : Implements m₂ F₂) :
    Implements (unionWithi mergeFn m₁ m₂) (unionMap mergeFn F₁ F₂) := by
  obtain ⟨n₁, t₁⟩ := m₁
  obtain ⟨n₂, t₂⟩ := m₂
  have hacc : Collects (union' Prod.fst (fun x y : κ × β => (x.1, mergeFn x.1 x.2 y.2))
      (start t₁) (start t₂) 0 ZERO) _ := collects_zero.union' _
  rw [stackList_start, stackList_start] at hacc
  refine implements_merge h₁ h₂ ⟨rfl, ?_, ?_, ?_⟩ hacc fun k => ?_
  · rintro x z ⟨⟩
    rfl
  · rintro y z ⟨⟩
    rfl
  · rintro x y z - ⟨⟩
    rfl
  · rw [unionMap]
    cases F₁ k <;> cases F₂ k <;> rfl

/-- The finite map of an intersection. -/
def intersectMap (mergeFn : κ → β → γ → δ) (F₁ : κ → Option β) (F₂ : κ → Option γ) (k : κ) :
    Option δ :=
  match F₁ k, F₂ k with
  | some x, some y => some (mergeFn k x y)
  | _, _ => none

theorem implements_intersectWithi (mergeFn : κ → β → γ → δ) (h₁ : Implements m₁ F₁)
    (h₂ : Implements m₂ F₂) :
    Implements (intersectWithi mergeFn m₁ m₂) (intersectMap mergeFn F₁ F₂) := by
  obtain ⟨n₁, t₁⟩ := m₁
  obtain ⟨n₂, t₂⟩ := m₂
  have hacc : Collects (intersect Prod.fst Prod.fst
      (fun (x : κ × β) (y : κ × γ) => (x.1, mergeFn x.1 x.2 y.2)) (start t₁) (start t₂) 0 ZERO)
      _ := collects_zero.intersect _
  rw [stackList_start, stackList_start] at hacc
  refine implements_merge h₁ h₂ ⟨rfl, ?_, ?_, ?_⟩ hacc fun k => ?_
  · rintro x z ⟨⟩
  · rintro y z ⟨⟩
  · rintro x y z - ⟨⟩
    rfl
  · rw [intersectMap]
    cases F₁ k <;> cases F₂ k <;> rfl

/-- The finite map of a merge. -/
def mergeMap (mergeFn : κ → Option β → Option γ → Option δ) (F₁ : κ → Option β)
    (F₂ : κ → Option γ) (k : κ) : Option δ :=
  match F₁ k, F₂ k with
  | none, none => none
  | x, y => mergeFn k x y

omit [LinearOrder κ] in
theorem keyed_mergef (mergeFn : κ → Option β → Option γ → Option δ) :
    KeyedList.Keyed Prod.fst Prod.fst Prod.fst (mergef mergeFn) := by
  have hfst : ∀ (k : κ) (o : Option δ) z, o.map (k, ·) = some z → z.1 = k := by
    rintro k (_ | y) z ⟨⟩
    rfl
  exact ⟨rfl, fun x z => hfst x.1 _ z, fun y z => hfst y.1 _ z, fun x y z _ => hfst x.1 _ z⟩

theorem implements_mergeWithi (mergeFn : κ → Option β → Option γ → Option δ)
    (h₁ : Implements m₁ F₁) (h₂ : Implements m₂ F₂) :
    Implements (mergeWithi mergeFn m₁ m₂) (mergeMap mergeFn F₁ F₂) := by
  obtain ⟨n₁, t₁⟩ := m₁
  obtain ⟨n₂, t₂⟩ := m₂
  have hacc : Collects (merge Prod.fst Prod.fst (mergef mergeFn) (start t₁) (start t₂)
      (0, ZERO)) _ := collects_zero.merge
  rw [stackList_start, stackList_start] at hacc
  refine implements_merge h₁ h₂ (keyed_mergef mergeFn) hacc fun k => ?_
  rw [mergeMap]
  cases F₁ k <;> cases F₂ k <;> rfl

theorem implements_filteri (pred : κ → β → Bool) (h : Implements m F) :
    Implements (filteri pred m) fun k => (F k).filter (pred k) := by
  obtain ⟨n, t⟩ := m
  have hacc : Collects (filterWalk (fun x : κ × β => pred x.1 x.2) t (0, ZERO)) _ :=
    collects_zero.filterWalk t
  rw [List.nil_append] at hacc
  refine implements_ofWalk hacc (h.wellFormed.ascending.filter _) fun k => ?_
  have hguard : ∀ x z : κ × β, Option.guard (fun x => pred x.1 x.2) x = some z → z.1 = x.1 := by
    intro x z hz
    rw [(Option.guard_eq_some_iff.1 hz).1]
  have hfind := KeyedList.find_filterMap hguard h.wellFormed.ascending k
  rw [List.filterMap_eq_filter] at hfind
  rw [hfind, h.find_eq]
  cases F k with
  | none => rfl
  | some x => by_cases hx : pred k x = true <;> simp [Option.guard, Option.filter]

/-! ### Images -/

theorem toList_mapf {α α' : Type*} (f : α → α') (t : Tree α) :
    toList (mapf f t) = (toList t).map f := by
  induction t with
  | E => rfl
  | T color a x b iha ihb => simp [mapf, toList, iha, ihb]

theorem balanced_mapf {α α' : Type*} (f : α → α') {t : Tree α} {color : Color} {n : ℕ}
    (h : Balanced t color n) : Balanced (mapf f t) color n := by
  induction h with
  | leaf => exact .leaf
  | red _ _ iha ihb => exact .red iha ihb
  | black _ _ iha ihb => exact .black iha ihb

theorem implements_mapi (f : κ → β → γ) (h : Implements m F) :
    Implements (mapi f m) fun k => (F k).map (f k) := by
  obtain ⟨height, hbal⟩ := h.wellFormed.balanced
  set g : κ × β → κ × γ := fun x => (x.1, f x.1 x.2)
  have hg : ∀ x z, (some ∘ g) x = some z → z.1 = x.1 := by
    rintro x z ⟨⟩
    rfl
  have hasc := KeyedList.ascending_filterMap hg h.wellFormed.ascending
  have hfind := KeyedList.find_filterMap hg h.wellFormed.ascending
  rw [List.filterMap_eq_map] at hasc hfind
  refine ⟨⟨⟨height, balanced_mapf g hbal⟩, ?_, ?_⟩, fun k => ?_⟩
  · rw [mapi, toList_mapf]
    exact hasc
  · rw [mapi, toList_mapf, List.length_map]
    exact h.wellFormed.count
  · rw [mapi, toList_mapf, hfind, h.find_eq]
    cases F k <;> rfl

/-- The loop over a list that inserts the images of its items. -/
theorem implements_foldlM_insert (f : κ → β → Option γ) {l : List (κ × β)}
    (hl : KeyedList.Ascending Prod.fst l) {acc : OrdMap κ γ} {F : κ → Option γ}
    (h : Implements acc F) :
    ∃ m', l.foldlM (fun acc x =>
        match f x.1 x.2 with
        | none => Except.ok acc
        | some y => insert acc x.1 y) acc = .ok m' ∧
      Implements m' fun k =>
        ((KeyedList.find Prod.fst k l).bind fun x => f x.1 x.2).or (F k) := by
  induction l generalizing acc F with
  | nil => exact ⟨acc, rfl, by simpa using h⟩
  | cons x l ih =>
    obtain ⟨hx, hl⟩ := KeyedList.ascending_cons.1 hl
    -- the keys after the first one are greater
    have hnone : KeyedList.find Prod.fst x.1 l = none :=
      KeyedList.find_eq_none.2 fun z hz => (hx z hz).ne'
    rw [List.foldlM_cons]
    rcases hfx : f x.1 x.2 with _ | y
    · obtain ⟨m', hok, himp⟩ := ih hl h
      refine ⟨m', hok, ?_⟩
      convert himp using 2 with k
      rw [KeyedList.find_cons]
      split
      case isTrue hk =>
        obtain rfl : x.1 = k := hk
        simp [hnone, hfx]
      case isFalse hk => rfl
    · obtain ⟨acc', hacc, himp⟩ := implements_insert h x.1 y
      obtain ⟨m', hok, himp'⟩ := ih hl himp
      refine ⟨m', ?_, ?_⟩
      · exact (congrArg (· >>= _) hacc).trans hok
      · convert himp' using 2 with k
        rw [KeyedList.find_cons]
        split
        case isTrue hk =>
          obtain rfl : x.1 = k := hk
          simp [hnone, hfx]
        case isFalse hk => rw [Function.update_of_ne (Ne.symm hk)]

theorem implements_mapPartiali (f : κ → β → Option γ) (h : Implements m F) :
    ∃ m', mapPartiali f m = .ok m' ∧ Implements m' fun k => (F k).bind (f k) := by
  obtain ⟨m', hok, himp⟩ :=
    implements_foldlM_insert f h.wellFormed.ascending implements_empty
  refine ⟨m', hok, ?_⟩
  convert himp using 2 with k
  rw [h.find_eq]
  cases F k <;> simp

end OrdMap

/-! ### Programs -/

/-- A program that builds a map by the operations; the values may change their type. -/
inductive MapExpr (κ : Type u) : Type v → Type (max u (v + 1))
  | empty {β : Type v} : MapExpr κ β
  | singleton {β : Type v} (xk : κ) (x : β) : MapExpr κ β
  | insert {β : Type v} (e : MapExpr κ β) (xk : κ) (x : β) : MapExpr κ β
  | insertWithi {β : Type v} (comb : κ → β → β → β) (e : MapExpr κ β) (xk : κ) (x : β) :
    MapExpr κ β
  | insertWith {β : Type v} (comb : β → β → β) (e : MapExpr κ β) (xk : κ) (x : β) : MapExpr κ β
  | remove {β : Type v} (e : MapExpr κ β) (k : κ) : MapExpr κ β
  | findAndRemove {β : Type v} (e : MapExpr κ β) (k : κ) : MapExpr κ β
  | unionWithi {β : Type v} (mergeFn : κ → β → β → β) (e₁ e₂ : MapExpr κ β) : MapExpr κ β
  | unionWith {β : Type v} (mergeFn : β → β → β) (e₁ e₂ : MapExpr κ β) : MapExpr κ β
  | intersectWithi {β γ δ : Type v} (mergeFn : κ → β → γ → δ) (e₁ : MapExpr κ β)
    (e₂ : MapExpr κ γ) : MapExpr κ δ
  | intersectWith {β γ δ : Type v} (mergeFn : β → γ → δ) (e₁ : MapExpr κ β) (e₂ : MapExpr κ γ) :
    MapExpr κ δ
  | mergeWithi {β γ δ : Type v} (mergeFn : κ → Option β → Option γ → Option δ)
    (e₁ : MapExpr κ β) (e₂ : MapExpr κ γ) : MapExpr κ δ
  | mergeWith {β γ δ : Type v} (mergeFn : Option β → Option γ → Option δ) (e₁ : MapExpr κ β)
    (e₂ : MapExpr κ γ) : MapExpr κ δ
  | mapi {β γ : Type v} (f : κ → β → γ) (e : MapExpr κ β) : MapExpr κ γ
  | map {β γ : Type v} (f : β → γ) (e : MapExpr κ β) : MapExpr κ γ
  | filteri {β : Type v} (pred : κ → β → Bool) (e : MapExpr κ β) : MapExpr κ β
  | filter {β : Type v} (pred : β → Bool) (e : MapExpr κ β) : MapExpr κ β
  | mapPartiali {β γ : Type v} (f : κ → β → Option γ) (e : MapExpr κ β) : MapExpr κ γ
  | mapPartial {β γ : Type v} (f : β → Option γ) (e : MapExpr κ β) : MapExpr κ γ

namespace MapExpr

variable {κ : Type u} [LinearOrder κ] {β γ δ : Type v}

def withoutKey (m : OrdMap κ β) (k : κ) : Except Exn (OrdMap κ β) := do
  match ← OrdMap.findAndRemove m k with
  | some (m', _) => return m'
  | none => return m

/-- The map that a program builds, or the exception that it raises. -/
def eval : {β : Type v} → MapExpr κ β → Except Exn (OrdMap κ β)
  | _, empty => .ok OrdMap.empty
  | _, singleton xk x => .ok (OrdMap.singleton xk x)
  | _, insert e xk x => do OrdMap.insert (← e.eval) xk x
  | _, insertWithi comb e xk x => do OrdMap.insertWithi comb (← e.eval) xk x
  | _, insertWith comb e xk x => do OrdMap.insertWith comb (← e.eval) xk x
  | _, remove e k => do return (← OrdMap.remove (← e.eval) k).1
  | _, findAndRemove e k => do withoutKey (← e.eval) k
  | _, unionWithi mergeFn e₁ e₂ => do
    return OrdMap.unionWithi mergeFn (← e₁.eval) (← e₂.eval)
  | _, unionWith mergeFn e₁ e₂ => do return OrdMap.unionWith mergeFn (← e₁.eval) (← e₂.eval)
  | _, intersectWithi mergeFn e₁ e₂ => do
    return OrdMap.intersectWithi mergeFn (← e₁.eval) (← e₂.eval)
  | _, intersectWith mergeFn e₁ e₂ => do
    return OrdMap.intersectWith mergeFn (← e₁.eval) (← e₂.eval)
  | _, mergeWithi mergeFn e₁ e₂ => do
    return OrdMap.mergeWithi mergeFn (← e₁.eval) (← e₂.eval)
  | _, mergeWith mergeFn e₁ e₂ => do
    return OrdMap.mergeWith mergeFn (← e₁.eval) (← e₂.eval)
  | _, mapi f e => do return OrdMap.mapi f (← e.eval)
  | _, map f e => do return OrdMap.map f (← e.eval)
  | _, filteri pred e => do return OrdMap.filteri pred (← e.eval)
  | _, filter pred e => do return OrdMap.filter pred (← e.eval)
  | _, mapPartiali f e => do OrdMap.mapPartiali f (← e.eval)
  | _, mapPartial f e => do OrdMap.mapPartial f (← e.eval)

/-- The finite map that a program denotes, as a function that yields the value of a key in the
domain; the program denotes none when a key is removed that is not there. -/
def denote : {β : Type v} → MapExpr κ β → Option (κ → Option β)
  | _, empty => some fun _ => none
  | _, singleton xk x => some (Function.update (fun _ => none) xk (some x))
  | _, insert e xk x => do return Function.update (← e.denote) xk (some x)
  | _, insertWithi comb e xk x => do
    let F ← e.denote
    return Function.update F xk (some (match F xk with | some y => comb xk y x | none => x))
  | _, insertWith comb e xk x => do
    let F ← e.denote
    return Function.update F xk (some (match F xk with | some y => comb y x | none => x))
  | _, remove e k => do
    let F ← e.denote
    match F k with
    | some _ => return Function.update F k none
    | none => none
  | _, findAndRemove e k => do return Function.update (← e.denote) k none
  | _, unionWithi mergeFn e₁ e₂ => do
    return OrdMap.unionMap mergeFn (← e₁.denote) (← e₂.denote)
  | _, unionWith mergeFn e₁ e₂ => do
    return OrdMap.unionMap (fun _ => mergeFn) (← e₁.denote) (← e₂.denote)
  | _, intersectWithi mergeFn e₁ e₂ => do
    return OrdMap.intersectMap mergeFn (← e₁.denote) (← e₂.denote)
  | _, intersectWith mergeFn e₁ e₂ => do
    return OrdMap.intersectMap (fun _ => mergeFn) (← e₁.denote) (← e₂.denote)
  | _, mergeWithi mergeFn e₁ e₂ => do
    return OrdMap.mergeMap mergeFn (← e₁.denote) (← e₂.denote)
  | _, mergeWith mergeFn e₁ e₂ => do
    return OrdMap.mergeMap (fun _ => mergeFn) (← e₁.denote) (← e₂.denote)
  | _, mapi f e => do
    let F ← e.denote
    return fun k => (F k).map (f k)
  | _, map f e => do
    let F ← e.denote
    return fun k => (F k).map f
  | _, filteri pred e => do
    let F ← e.denote
    return fun k => (F k).filter (pred k)
  | _, filter pred e => do
    let F ← e.denote
    return fun k => (F k).filter pred
  | _, mapPartiali f e => do
    let F ← e.denote
    return fun k => (F k).bind (f k)
  | _, mapPartial f e => do
    let F ← e.denote
    return fun k => (F k).bind f

def Agrees (r : Except Exn (OrdMap κ β)) : Option (κ → Option β) → Prop
  | some F => ∃ m, r = .ok m ∧ OrdMap.Implements m F
  | none => r = .error .notFound

theorem Agrees.bind {r : Except Exn (OrdMap κ β)} {d : Option (κ → Option β)} (h : Agrees r d)
    {g : OrdMap κ β → Except Exn (OrdMap κ γ)} {k : (κ → Option β) → Option (κ → Option γ)}
    (hg : ∀ m F, OrdMap.Implements m F → Agrees (g m) (k F)) : Agrees (r >>= g) (d >>= k) := by
  rcases d with _ | F
  · obtain rfl : r = .error .notFound := h
    rfl
  · obtain ⟨m, rfl, hm⟩ := h
    exact hg m F hm

theorem agrees_remove {m : OrdMap κ β} {F : κ → Option β} (h : OrdMap.Implements m F) (k : κ) :
    Agrees (do return (← OrdMap.remove m k).1)
      (match F k with
        | some _ => some (Function.update F k none)
        | none => none) := by
  have hr := OrdMap.implements_remove h k
  split at hr
  case h_1 x hx =>
    obtain ⟨m', hok, himp⟩ := hr
    simp only [hok]
    exact ⟨m', rfl, himp⟩
  case h_2 hx =>
    simp only [hr]
    rfl

theorem agrees_withoutKey {m : OrdMap κ β} {F : κ → Option β} (h : OrdMap.Implements m F)
    (k : κ) : Agrees (withoutKey m k) (some (Function.update F k none)) := by
  have hr := OrdMap.implements_findAndRemove h k
  split at hr
  case h_1 x hx =>
    obtain ⟨m', hok, himp⟩ := hr
    exact ⟨m', by rw [withoutKey, hok]; rfl, himp⟩
  case h_2 hx =>
    refine ⟨m, by rw [withoutKey, hr]; rfl, ?_⟩
    have hF : Function.update F k none = F := by rw [← hx, Function.update_eq_self]
    rwa [hF]

/-- **Programs build what they denote**: every program builds a well-formed tree of the finite map
that it denotes, and raises no exception but the one for a key that is not there. -/
theorem eval_spec (e : MapExpr κ β) : Agrees e.eval e.denote := by
  induction e with
  | empty => exact ⟨_, rfl, OrdMap.implements_empty⟩
  | singleton xk x => exact ⟨_, rfl, OrdMap.implements_singleton xk x⟩
  | insert e xk x ih => exact ih.bind fun m F h => OrdMap.implements_insert h xk x
  | insertWithi comb e xk x ih =>
    exact ih.bind fun m F h => OrdMap.implements_insertWithi comb h xk x
  | insertWith comb e xk x ih =>
    exact ih.bind fun m F h => OrdMap.implements_insertWithi (fun _ => comb) h xk x
  | remove e k ih => exact ih.bind fun m F h => agrees_remove h k
  | findAndRemove e k ih => exact ih.bind fun m F h => agrees_withoutKey h k
  | unionWithi mergeFn e₁ e₂ ih₁ ih₂ =>
    exact ih₁.bind fun m₁ F₁ h₁ => ih₂.bind fun m₂ F₂ h₂ =>
      ⟨_, rfl, OrdMap.implements_unionWithi mergeFn h₁ h₂⟩
  | unionWith mergeFn e₁ e₂ ih₁ ih₂ =>
    exact ih₁.bind fun m₁ F₁ h₁ => ih₂.bind fun m₂ F₂ h₂ =>
      ⟨_, rfl, OrdMap.implements_unionWithi (fun _ => mergeFn) h₁ h₂⟩
  | intersectWithi mergeFn e₁ e₂ ih₁ ih₂ =>
    exact ih₁.bind fun m₁ F₁ h₁ => ih₂.bind fun m₂ F₂ h₂ =>
      ⟨_, rfl, OrdMap.implements_intersectWithi mergeFn h₁ h₂⟩
  | intersectWith mergeFn e₁ e₂ ih₁ ih₂ =>
    exact ih₁.bind fun m₁ F₁ h₁ => ih₂.bind fun m₂ F₂ h₂ =>
      ⟨_, rfl, OrdMap.implements_intersectWithi (fun _ => mergeFn) h₁ h₂⟩
  | mergeWithi mergeFn e₁ e₂ ih₁ ih₂ =>
    exact ih₁.bind fun m₁ F₁ h₁ => ih₂.bind fun m₂ F₂ h₂ =>
      ⟨_, rfl, OrdMap.implements_mergeWithi mergeFn h₁ h₂⟩
  | mergeWith mergeFn e₁ e₂ ih₁ ih₂ =>
    exact ih₁.bind fun m₁ F₁ h₁ => ih₂.bind fun m₂ F₂ h₂ =>
      ⟨_, rfl, OrdMap.implements_mergeWithi (fun _ => mergeFn) h₁ h₂⟩
  | mapi f e ih => exact ih.bind fun m F h => ⟨_, rfl, OrdMap.implements_mapi f h⟩
  | map f e ih => exact ih.bind fun m F h => ⟨_, rfl, OrdMap.implements_mapi (fun _ => f) h⟩
  | filteri pred e ih => exact ih.bind fun m F h => ⟨_, rfl, OrdMap.implements_filteri pred h⟩
  | filter pred e ih =>
    exact ih.bind fun m F h => ⟨_, rfl, OrdMap.implements_filteri (fun _ => pred) h⟩
  | mapPartiali f e ih => exact ih.bind fun m F h => OrdMap.implements_mapPartiali f h
  | mapPartial f e ih => exact ih.bind fun m F h => OrdMap.implements_mapPartiali (fun _ => f) h

end MapExpr

/-- **Red-black sets and maps are right**: for every linear order of the keys, a program of the set
operations builds the finite set that it denotes, and a program of the map operations the finite
map that it denotes.  The trees are balanced, their roots are black, their keys ascend, and the
stored counts are right; the only exception is the one for the deletion of what is not there. -/
theorem red_black_correct (κ : Type u) [LinearOrder κ] :
    (∀ e : SetExpr κ,
      match e.denote with
      | some S => ∃ s, e.eval = .ok s ∧ WellFormed id s.nItems s.tree ∧ s.numItems = S.card ∧
          (∀ x, s.member x = true ↔ x ∈ S) ∧ ∀ x, x ∈ s.toList ↔ x ∈ S
      | none => e.eval = .error .notFound) ∧
    ∀ (β : Type v) (e : MapExpr κ β),
      match e.denote with
      | some F => ∃ m, e.eval = .ok m ∧ WellFormed Prod.fst m.nItems m.tree ∧
          (∃ D : Finset κ, (∀ k, k ∈ D ↔ (F k).isSome = true) ∧ m.numItems = D.card) ∧
          (∀ k, m.find k = F k) ∧ (∀ k, m.inDomain k = (F k).isSome) ∧
          (∀ k, m.lookup k = match F k with | some x => .ok x | none => .error .notFound) ∧
          (∀ k x, (k, x) ∈ m.listItemsi ↔ F k = some x) ∧
          ∀ k x, F k = some x → ∃ m', m.remove k = .ok (m', x)
      | none => e.eval = .error .notFound := by
  constructor
  · intro e
    have h := e.eval_spec
    split
    case h_1 S hS =>
      rw [hS] at h
      obtain ⟨s, hok, himp⟩ := h
      exact ⟨s, hok, himp.wellFormed, himp.numItems_eq, himp.member_iff, himp.mem_iff⟩
    case h_2 hS =>
      rw [hS] at h
      exact h
  · intro β e
    have h := e.eval_spec
    split
    case h_1 F hF =>
      rw [hF] at h
      obtain ⟨m, hok, himp⟩ := h
      refine ⟨m, hok, himp.wellFormed, himp.numItems_eq, himp.find_eq', himp.inDomain_eq,
        himp.lookup_eq, himp.mem_listItemsi, fun k x hx => ?_⟩
      have hr := OrdMap.implements_remove himp k
      rw [hx] at hr
      obtain ⟨m', hok', -⟩ := hr
      exact ⟨m', hok'⟩
    case h_2 hF =>
      rw [hF] at h
      exact h

end SmlNj.RedBlack
