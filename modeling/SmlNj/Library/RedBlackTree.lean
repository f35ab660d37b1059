import Mathlib

/-!
# Red-black trees

The trees of the functional sets and maps of the library.  The insertion is that of Okasaki, the
deletion is done on a zipper, which is zipped up while a black deficit is resolved, and ordered
sequences are made into trees in linear time by way of digits.

The items of the trees are the elements of a set, or the pairs of a key and a value of a map.
Where the code of the sets and that of the maps differ in no more than this, they have one
definition here, which is given the key of an item.

## Main definitions

* `Tree`, `Zipper`, `Digit` — the data.
* `ins` — the insertion of an item.
* `zip`, `fixupZip`, `delMin`, `del` — the deletion of an item.
* `next`, `left`, `start` — the walk over a tree with a stack of parents.
* `addItem`, `linkAll` — the construction of a tree from an ordered sequence.
* `union'`, `intersect`, `diff`, `merge` — the walks over two trees.
-/

namespace SmlNj.RedBlack

/-- The colours of nodes. -/
inductive Color
  | R
  | B
  deriving DecidableEq

/-- The trees: a node has a colour, a left subtree, an item and a right subtree. -/
inductive Tree (α : Type*)
  | E
  | T (color : Color) (a : Tree α) (y : α) (b : Tree α)
  deriving DecidableEq

/-- The way from a subtree up to the root: `LEFT` when the subtree is a left one. -/
inductive Zipper (α : Type*)
  | TOP
  | LEFT (color : Color) (x : α) (b : Tree α) (p : Zipper α)
  | RIGHT (color : Color) (a : Tree α) (x : α) (p : Zipper α)

/-- The exceptions that the operations raise. -/
inductive Exn
  | notFound
  | fail (msg : String)
  | match_
  | bind
  deriving DecidableEq

open Color RedBlack.Tree Zipper

variable {α : Type*}

section Insert

variable {κ : Type*} [LinearOrder κ] (key : α → κ) (x : α) (upd : α → α) (nItems : ℕ)

/-- The insertion of an item.  An item with the same key is changed to `upd` of it.  The counter
`nItems'` is a reference of the code, which is set when the item is new. -/
def ins : Tree α → ℕ → Tree α × ℕ
  | E, _ => (T R E x E, nItems + 1)
  | T color a y b, nItems' =>
    match compare (key x) (key y) with
    | .lt =>
      match a with
      | T R c z d =>
        match compare (key x) (key z) with
        | .lt =>
          match ins c nItems' with
          | (T R e w f, nItems') => (T R (T B e w f) z (T B d y b), nItems')
          | (c, nItems') => (T B (T R c z d) y b, nItems')
        | .eq => (T color (T R c (upd z) d) y b, nItems')
        | .gt =>
          match ins d nItems' with
          | (T R e w f, nItems') => (T R (T B c z e) w (T B f y b), nItems')
          | (d, nItems') => (T B (T R c z d) y b, nItems')
      | a =>
        match ins a nItems' with
        | (a, nItems') => (T B a y b, nItems')
    | .eq => (T color a (upd y) b, nItems')
    | .gt =>
      match b with
      | T R c z d =>
        match compare (key x) (key z) with
        | .lt =>
          match ins c nItems' with
          | (T R e w f, nItems') => (T R (T B a y e) w (T B f z d), nItems')
          | (c, nItems') => (T B a y (T R c z d), nItems')
        | .eq => (T color a y (T R c (upd z) d), nItems')
        | .gt =>
          match ins d nItems' with
          | (T R e w f, nItems') => (T R (T B a y c) z (T B e w f), nItems')
          | (d, nItems') => (T B a y (T R c z d), nItems')
      | b =>
        match ins b nItems' with
        | (b, nItems') => (T B a y b, nItems')

def insert (m : Tree α) : Except Exn (ℕ × Tree α) :=
  match ins key x upd nItems m nItems with
  | (T _ a y b, nItems') => .ok (nItems', T B a y b)
  | (E, _) => .error .bind

end Insert

/-! ### Deletion -/

def zip : Zipper α → Tree α → Tree α
  | TOP, t => t
  | LEFT color x b p, a => zip p (T color a x b)
  | RIGHT color a x p, b => zip p (T color a x b)

def Tree.size : Tree α → ℕ
  | E => 0
  | T _ a _ b => a.size + b.size + 1

def Zipper.weight : Zipper α → ℕ
  | TOP => 0
  | LEFT _ _ b p => 2 * b.size + 1 + p.weight
  | RIGHT _ a _ p => 2 * a.size + 1 + p.weight

/-- The zipper is zipped up while a black deficit is resolved: the tree's black height is one less
than that of its place.  The result tells whether the deficit is left over at the top. -/
@[grind =] def fixupZip : Zipper α → Tree α → Except Exn (Bool × Tree α)
  | TOP, t => .ok (true, t)
  -- case 1: the sibling is red
  | LEFT B x (T R a y b) p, t =>
    match a with
    | T _ (T R a11 w a12) z a2 =>
      .ok (false, zip p (T B (T R (T B t x a11) w (T B a12 z a2)) y b))
    | T _ a1 z (T R a21 w t22) =>
      .ok (false, zip p (T B (T R (T B t x a1) z (T B a21 w t22)) y b))
    | T _ a1 z a2 => .ok (false, zip p (T B (T B t x (T R a1 z a2)) y b))
    | a => fixupZip (LEFT R x a (LEFT B y b p)) t
  | RIGHT B (T R a x b) y p, t =>
    match b with
    | T _ b1 z (T R b21 w b22) =>
      .ok (false, zip p (T B a x (T R (T B b1 z b21) w (T B b22 y t))))
    | T _ (T R b11 w b12) z b2 =>
      .ok (false, zip p (T B a x (T R (T B b11 w b12) z (T B b2 y t))))
    | T _ b1 z b2 => .ok (false, zip p (T B a x (T B (T R b1 z b2) y t)))
    | b => fixupZip (RIGHT R b y (RIGHT B a x p)) t
  -- case 3: the sibling's inner child is red
  | LEFT color x (T B (T R a1 y a2) z b) p, t =>
    .ok (false, zip p (T color (T B t x a1) y (T B a2 z b)))
  | RIGHT color (T B a x (T R b1 y b2)) z p, t =>
    .ok (false, zip p (T color (T B a x b1) y (T B b2 z t)))
  -- case 4: the sibling's outer child is red
  | LEFT color x (T B a y (T R b1 z b2)) p, t =>
    .ok (false, zip p (T color (T B t x a) y (T B b1 z b2)))
  | RIGHT color (T B (T R a1 z a2) x b) y p, t =>
    .ok (false, zip p (T color (T B a1 z a2) x (T B b y t)))
  -- case 2: the sibling and its children are black
  | LEFT R x (T B a y b) p, t => .ok (false, zip p (T B t x (T R a y b)))
  | LEFT B x (T B a y b) p, t => fixupZip p (T B t x (T R a y b))
  | RIGHT R (T B a x b) y p, t => .ok (false, zip p (T B (T R a x b) y t))
  | RIGHT B (T B a x b) y p, t => fixupZip p (T B (T R a x b) y t)
  -- the deficit is pushed up by the recolouring of a node
  | LEFT _ y E p, t => fixupZip p (T R t y E)
  | RIGHT _ E y p, t => fixupZip p (T R E y t)
  | _, _ => .error (.fail "Red invariant violation")
  termination_by z => z.weight
  decreasing_by all_goals simp only [Zipper.weight, Tree.size]; omega

/-- The least item of a tree is deleted.  The result has that item, whether the rest has a black
deficit, and the rest. -/
@[grind =] def delMin : Tree α → Zipper α → Except Exn (α × Bool × Tree α)
  | T R E y b, p => .ok (y, false, zip p b)
  | T B E y (T R a' y' b'), p => .ok (y, false, zip p (T B a' y' b'))
  | T B E y E, p => do
    let (blkDeficit, t) ← fixupZip p E
    return (y, blkDeficit, t)
  | T color a y b, z => delMin a (LEFT color y b z)
  | E, _ => .error .match_

section Delete

variable {κ : Type*} [LinearOrder κ] (key : α → κ) (k : κ)

/-- The item of a key is deleted.  The result has the item and the rest, or nothing when there is
no such item. -/
@[grind =] def del : Tree α → Zipper α → Except Exn (Option (α × Tree α))
  | E, _ => .ok none
  | T color a y b, p =>
    match compare k (key y) with
    | .lt => del a (LEFT color y b p)
    | .eq =>
      match color, a, b with
      | R, E, E => .ok (some (y, zip p E))
      | B, E, E => do return some (y, (← fixupZip p E).2)
      -- the node is black and its left child is red
      | _, T _ a' y' b', E => .ok (some (y, zip p (T B a' y' b')))
      -- the node is black and its right child is red
      | _, E, T _ a' y' b' => .ok (some (y, zip p (T B a' y' b')))
      | _, _, _ => do
        let (minSucc, blkDeficit, b) ← delMin b TOP
        if blkDeficit then return some (y, (← fixupZip (RIGHT color a minSucc p) b).2)
        else return some (y, zip p (T color a minSucc b))
    | .gt => del b (RIGHT color a y p)

def blacken : Tree α → Tree α
  | T R a x b => T B a x b
  | t => t

/-- The look-up of the item of a key. -/
def find' : Tree α → Option α
  | E => none
  | T _ a y b =>
    match compare k (key y) with
    | .lt => find' a
    | .eq => some y
    | .gt => find' b

end Delete

def toList : Tree α → List α
  | E => []
  | T _ a x b => toList a ++ x :: toList b

def left : Tree α → List (Tree α) → List (Tree α)
  | E, rest => rest
  | T color a x b, rest => left a (T color a x b :: rest)

/-- The next node of a walk, and the stack for the nodes that follow; `E` at the end. -/
def next : List (Tree α) → Tree α × List (Tree α)
  | T color a x b :: rest => (T color a x b, left b rest)
  | _ => (E, [])

def start (m : Tree α) : List (Tree α) := left m []

/-! ### Construction in linear time -/

/-- The digits: each one has one or two items, and a tree of the digit's rank below each item.
The greatest items come first. -/
inductive Digit (α : Type*)
  | ZERO
  | ONE (a : α) (t : Tree α) (r : Digit α)
  | TWO (a1 : α) (t1 : Tree α) (a2 : α) (t2 : Tree α) (r : Digit α)

open Digit

/-- An item that is greater than the others is added to the digits. -/
def addItem (a : α) (l : Digit α) : Digit α := incr a E l
where
  incr (a1 : α) (t1 : Tree α) : Digit α → Digit α
    | ZERO => ONE a1 t1 ZERO
    | ONE a2 t2 r => TWO a1 t1 a2 t2 r
    | TWO a2 t2 a3 t3 r => ONE a1 t1 (incr a2 (T B t3 a3 t2) r)

/-- The digits are linked into a tree. -/
def linkAll (l : Digit α) : Tree α := link E l
where
  /-- The digits are linked to a tree of greater items. -/
  link (t : Tree α) : Digit α → Tree α
    | ZERO => t
    | ONE a t2 r => link (T B t2 a t) r
    | TWO a1 t1 a2 t2 r => link (T B (T R t2 a2 t1) a1 t) r

def stackSize (s : List (Tree α)) : ℕ := (s.map fun
  | E => 0
  | T _ _ _ b => b.size + 1).sum

theorem stackSize_left (t : Tree α) (s : List (Tree α)) :
    stackSize (left t s) = t.size + stackSize s := by
  induction t generalizing s with
  | E => simp [left, Tree.size]
  | T color a x b iha ihb =>
    rw [left, iha]
    simp [stackSize, Tree.size]
    omega

theorem stackSize_next {s : List (Tree α)} {color : Color} {a b : Tree α} {x : α}
    {r : List (Tree α)} (h : next s = (T color a x b, r)) : stackSize s = stackSize r + 1 := by
  rcases s with _ | ⟨_ | ⟨color', a', x', b'⟩, s⟩
  · exact nomatch h
  · exact nomatch h
  · obtain ⟨-, rfl⟩ := Prod.mk.inj h
    rw [stackSize_left]
    simp [stackSize]
    omega

/-- The rest of a walk, from a node that was found next, is added to the digits. -/
def insRest : Tree α × List (Tree α) → ℕ → Digit α → ℕ × Digit α
  | (E, _), n, result => (n, result)
  | (T _ _ x _, r), n, result => insRest (next r) (n + 1) (addItem x result)
  termination_by s => (match s.1 with | E => 0 | T _ _ _ _ => 1) + stackSize s.2
  decreasing_by
    rcases h : next r with ⟨_ | ⟨color, a, y, b⟩, r'⟩
    · rcases r with _ | ⟨_ | ⟨color, a, y, b⟩, r⟩
      · obtain ⟨-, rfl⟩ := Prod.mk.inj h
        simp [stackSize]
      · obtain ⟨-, rfl⟩ := Prod.mk.inj h
        simp only [stackSize, List.map_nil, List.sum_nil]
        omega
      · exact nomatch h
    · simp [stackSize_next h]

/-! ### Trees from two trees -/

section Merge

variable {β γ κ : Type*} [LinearOrder κ] (key : α → κ) (key' : β → κ)

/-- The walk over two trees for their union, where `mergeFn` tells what becomes of two items with
the same key. -/
@[grind =] def union' (mergeFn : α → α → α) (t1 t2 : List (Tree α)) (n : ℕ) (result : Digit α) :
    ℕ × Digit α :=
  match _h1 : next t1, _h2 : next t2 with
  | (E, _), (E, _) => (n, result)
  | (E, _), t2 => insRest t2 n result
  | t1, (E, _) => insRest t1 n result
  | (T _ _ x _, r1), (T _ _ y _, r2) =>
    match compare (key x) (key y) with
    | .lt => union' mergeFn r1 t2 (n + 1) (addItem x result)
    | .eq => union' mergeFn r1 r2 (n + 1) (addItem (mergeFn x y) result)
    | .gt => union' mergeFn t1 r2 (n + 1) (addItem y result)
  termination_by stackSize t1 + stackSize t2
  decreasing_by all_goals simp_all only [stackSize_next _h1, stackSize_next _h2]; omega

/-- The walk over two trees for their intersection. -/
def intersect (mergeFn : α → β → γ) (t1 : List (Tree α)) (t2 : List (Tree β)) (n : ℕ)
    (result : Digit γ) : ℕ × Digit γ :=
  match _h1 : next t1, _h2 : next t2 with
  | (T _ _ x _, r1), (T _ _ y _, r2) =>
    match compare (key x) (key' y) with
    | .lt => intersect mergeFn r1 t2 n result
    | .eq => intersect mergeFn r1 r2 (n + 1) (addItem (mergeFn x y) result)
    | .gt => intersect mergeFn t1 r2 n result
  | _, _ => (n, result)
  termination_by stackSize t1 + stackSize t2
  decreasing_by all_goals simp_all only [stackSize_next _h1, stackSize_next _h2]; omega

/-- The walk over two trees for their difference. -/
@[grind =] def diff (t1 t2 : List (Tree α)) (n : ℕ) (result : Digit α) : ℕ × Digit α :=
  match _h1 : next t1, _h2 : next t2 with
  | (E, _), _ => (n, result)
  | t1, (E, _) => insRest t1 n result
  | (T _ _ x _, r1), (T _ _ y _, r2) =>
    match compare (key x) (key y) with
    | .lt => diff r1 t2 (n + 1) (addItem x result)
    | .eq => diff r1 r2 n result
    | .gt => diff t1 r2 n result
  termination_by stackSize t1 + stackSize t2
  decreasing_by all_goals simp_all only [stackSize_next _h1, stackSize_next _h2]; omega

def condAdd : Option α → ℕ × Digit α → ℕ × Digit α
  | none, acc => acc
  | some y, (n, result) => (n + 1, addItem y result)

/-- The walk over two trees with a function that tells what becomes of the items of each key. -/
def merge (mergeFn : Option α → Option β → Option γ) (t1 : List (Tree α)) (t2 : List (Tree β))
    (acc : ℕ × Digit γ) : ℕ × Digit γ :=
  match _h1 : next t1, _h2 : next t2 with
  | (E, _), (E, _) => acc
  | (E, _), (T _ _ y _, r2) => merge mergeFn t1 r2 (condAdd (mergeFn none (some y)) acc)
  | (T _ _ x _, r1), (E, _) => merge mergeFn r1 t2 (condAdd (mergeFn (some x) none) acc)
  | (T _ _ x _, r1), (T _ _ y _, r2) =>
    match compare (key x) (key' y) with
    | .lt => merge mergeFn r1 t2 (condAdd (mergeFn (some x) none) acc)
    | .eq => merge mergeFn r1 r2 (condAdd (mergeFn (some x) (some y)) acc)
    | .gt => merge mergeFn t1 r2 (condAdd (mergeFn none (some y)) acc)
  termination_by stackSize t1 + stackSize t2
  decreasing_by
    · simp only [stackSize_next _h2]; omega
    · simp only [stackSize_next _h1]; omega
    · simp only [stackSize_next _h1]; omega
    · simp only [stackSize_next _h1, stackSize_next _h2]; omega
    · simp only [stackSize_next _h2]; omega

end Merge

/-- The walk over a tree that keeps the items that pass a test. -/
def filterWalk (pred : α → Bool) : Tree α → ℕ × Digit α → ℕ × Digit α
  | E, acc => acc
  | T _ a x b, acc =>
    match filterWalk pred a acc with
    | (n, result) =>
      if pred x then filterWalk pred b (n + 1, addItem x result)
      else filterWalk pred b (n, result)

/-- The walk over a tree that parts the items by a test. -/
def partitionWalk (pred : α → Bool) :
    Tree α → (ℕ × Digit α) × (ℕ × Digit α) → (ℕ × Digit α) × (ℕ × Digit α)
  | E, acc => acc
  | T _ a x b, acc =>
    match partitionWalk pred a acc with
    | ((n1, result1), (n2, result2)) =>
      if pred x then partitionWalk pred b ((n1 + 1, addItem x result1), (n2, result2))
      else partitionWalk pred b ((n1, result1), (n2 + 1, addItem x result2))

def wrap : ℕ × Digit α → ℕ × Tree α
  | (n, result) => (n, linkAll result)

end SmlNj.RedBlack
