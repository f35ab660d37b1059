import Mathlib.Tactic.Common

/-!
# Sets as trees of bounded balance

The functional sets that keep the size of a tree in every node, over a comparison of
keys.  The rebalancing constructor is `T'`; the operations build all nodes with it
whose subtrees they have changed.  As a ghost state, a computation records the calls
of `T'` that it makes, which is all that a study of the balance needs to know of it.

## Main definitions

* `BinarySet.Tree` — the trees, with `BinarySet.elems` and `BinarySet.size`.
* `BinarySet.T'` — the rebalancing constructor, by single and double rotations.
* `BinarySet.add`, `BinarySet.delete`, `BinarySet.union`, `BinarySet.intersection`,
  `BinarySet.difference`, `BinarySet.filter` — the operations.
* `BinarySet.member`, `BinarySet.isSubset`, `BinarySet.equal` — the tests.
-/

namespace SmlNj.BinarySet

/-- The exceptions of the operations. -/
inductive Exn
  | match_
  | notFound
  deriving DecidableEq

/-- A set. -/
inductive Tree (α : Type)
  | E
  /-- An element, the number of elements, and the subtrees. -/
  | T (elt : α) (cnt : ℕ) (left right : Tree α)
  deriving DecidableEq

open BinarySet.Tree

variable {α : Type}

def numItems : Tree α → ℕ
  | E => 0
  | T _ cnt _ _ => cnt

def mkT (v : α) (n : ℕ) (l r : Tree α) : Tree α := T v n l r

/-- `N(v,l,r) = T(v,1+numItems(l)+numItems(r),l,r)` -/
def N : α → Tree α → Tree α → Tree α
  | v, E, E => mkT v 1 E E
  | v, E, r@(T _ n _ _) => mkT v (n + 1) E r
  | v, l@(T _ n _ _), E => mkT v (n + 1) l E
  | v, l@(T _ n _ _), r@(T _ m _ _) => mkT v (n + m + 1) l r

/-! ### Rotations -/

def single_L : α → Tree α → Tree α → Except Exn (Tree α)
  | a, x, T b _ y z => .ok (N b (N a x y) z)
  | _, _, _ => .error .match_

def single_R : α → Tree α → Tree α → Except Exn (Tree α)
  | b, T a _ x y, z => .ok (N a x (N b y z))
  | _, _, _ => .error .match_

def double_L : α → Tree α → Tree α → Except Exn (Tree α)
  | a, w, T c _ (T b _ x y) z => .ok (N b (N a w x) (N c y z))
  | _, _, _ => .error .match_

def double_R : α → Tree α → Tree α → Except Exn (Tree α)
  | c, T a _ w (T b _ x y), z => .ok (N b (N a w x) (N c y z))
  | _, _, _ => .error .match_

/-- `weight * i`, with a weight of 3. -/
def wt (i : ℕ) : ℕ := i + i + i

/-- The rebalancing constructor. -/
def T' : α → Tree α → Tree α → Except Exn (Tree α)
  | v, E, E => .ok (mkT v 1 E E)
  | v, E, r@(T _ _ E E) => .ok (mkT v 2 E r)
  | v, l@(T _ _ E E), E => .ok (mkT v 2 l E)
  | v, E, r@(T _ _ (T _ _ _ _) E) => double_L v E r
  | v, l@(T _ _ E (T _ _ _ _)), E => double_R v l E
  -- these cases almost never happen with small weight
  | v, E, r@(T _ _ (T _ ln _ _) (T _ rn _ _)) =>
      if ln < rn then single_L v E r else double_L v E r
  | v, l@(T _ _ (T _ ln _ _) (T _ rn _ _)), E =>
      if ln > rn then single_R v l E else double_R v l E
  | v, E, r@(T _ _ E _) => single_L v E r
  | v, l@(T _ _ _ E), E => single_R v l E
  | v, l@(T _ ln ll lr), r@(T _ rn rl rr) =>
      -- right is too big
      if rn ≥ wt ln then
        let rln := numItems rl
        let rrn := numItems rr
        if rln < rrn then single_L v l r else double_L v l r
      -- left is too big
      else if ln ≥ wt rn then
        let lln := numItems ll
        let lrn := numItems lr
        if lrn < lln then single_R v l r else double_R v l r
      else .ok (mkT v (ln + rn + 1) l r)

/-- The arguments of a call of `T'`. -/
structure Call (α : Type) where
  elt : α
  left : Tree α
  right : Tree α

/-- Computations that may raise an exception, and record the calls of `T'`. -/
abbrev M (α : Type) := StateT (List (Call α)) (Except Exn)

/-- A call of `T'`. -/
def T'.call (v : α) (l r : Tree α) : M α (Tree α) := do
  modify (⟨v, l, r⟩ :: ·)
  T' v l r

def result {β : Type} (m : M α β) : Except Exn β := m.run' []

/-! ### The operations -/

section Operations

variable (compare : α → α → Ordering)

/-- Add an item. -/
def add : Tree α → α → M α (Tree α)
  | E, x => return mkT x 1 E E
  | T v cnt l r, x =>
      match compare x v with
      | .lt => do T'.call v (← add l x) r
      | .gt => do T'.call v l (← add r x)
      | .eq => return mkT x cnt l r

/-- Join two trees and an element between them. -/
@[grind =] def concat3 : Tree α → α → Tree α → M α (Tree α)
  | E, v, r => add compare r v
  | l, v, E => add compare l v
  | l@(T v1 n1 l1 r1), v, r@(T v2 n2 l2 r2) =>
      if wt n1 < n2 then do T'.call v2 (← concat3 l v l2) r2
      else if wt n2 < n1 then do T'.call v1 l1 (← concat3 r1 v r)
      else return N v l r
termination_by l _ r => sizeOf l + sizeOf r

/-- The elements smaller than `x`. -/
def split_lt : Tree α → α → M α (Tree α)
  | E, _ => return E
  | T v _ l r, x =>
      match compare v x with
      | .gt => split_lt l x
      | .lt => do concat3 compare l v (← split_lt r x)
      | _ => return l

/-- The elements greater than `x`. -/
def split_gt : Tree α → α → M α (Tree α)
  | E, _ => return E
  | T v _ l r, x =>
      match compare v x with
      | .lt => split_gt r x
      | .gt => do concat3 compare (← split_gt l x) v r
      | _ => return r

def min : Tree α → Except Exn α
  | T v _ E _ => .ok v
  | T _ _ l _ => min l
  | E => .error .match_

def delmin : Tree α → M α (Tree α)
  | T _ _ E r => return r
  | T v _ l r => do T'.call v (← delmin l) r
  | E => throw .match_

/-- Join two trees of almost the same size. -/
def delete' : Tree α → Tree α → M α (Tree α)
  | E, r => return r
  | l, E => return l
  | l, r => do
      let v ← min r
      T'.call v l (← delmin r)

/-- Join two trees. -/
def concat : Tree α → Tree α → M α (Tree α)
  | E, s => return s
  | s, E => return s
  | t1@(T v1 n1 l1 r1), t2@(T v2 n2 l2 r2) =>
      if wt n1 < n2 then do T'.call v2 (← concat t1 l2) r2
      else if wt n2 < n1 then do T'.call v1 l1 (← concat r1 t2)
      else do
        let v ← min t2
        T'.call v t1 (← delmin t2)
termination_by t1 t2 => sizeOf t1 + sizeOf t2

/-- Go down to a root between `lo` and `hi`. -/
def trim (lo hi : α) : Tree α → Tree α
  | E => E
  | s@(T v _ l r) =>
      if compare v lo = .gt then
        if compare v hi = .lt then s else trim lo hi l
      else trim lo hi r

/-- The union of a set between `lo` and `hi` with what another has there. -/
def uni_bd : Tree α → Tree α → α → α → M α (Tree α)
  | s, E, _, _ => return s
  | E, T v _ l r, lo, hi => do
      let l ← split_gt compare l lo
      let r ← split_lt compare r hi
      concat3 compare l v r
  | T v _ l1 r1, s2@(T _ _ _ _), lo, hi => do
      let l ← uni_bd l1 (trim compare lo v s2) lo v
      let r ← uni_bd r1 (trim compare v hi s2) v hi
      -- inv:  lo < v < hi
      concat3 compare l v r

/-- Go down to a root above `lo`. -/
def trim_lo (lo : α) : Tree α → Tree α
  | E => E
  | s@(T v _ _ r) =>
      match compare v lo with
      | .gt => s
      | _ => trim_lo lo r

/-- Go down to a root below `hi`. -/
def trim_hi (hi : α) : Tree α → Tree α
  | E => E
  | s@(T v _ l _) =>
      match compare v hi with
      | .lt => s
      | _ => trim_hi hi l

/-- The union of a set below `hi` with what another has there. -/
def uni_hi : Tree α → Tree α → α → M α (Tree α)
  | s, E, _ => return s
  | E, T v _ l r, hi => do
      let r ← split_lt compare r hi
      concat3 compare l v r
  | T v _ l1 r1, s2@(T _ _ _ _), hi => do
      let l ← uni_hi l1 (trim_hi compare v s2) v
      let r ← uni_bd compare r1 (trim compare v hi s2) v hi
      concat3 compare l v r

/-- The union of a set above `lo` with what another has there. -/
def uni_lo : Tree α → Tree α → α → M α (Tree α)
  | s, E, _ => return s
  | E, T v _ l r, lo => do
      let l ← split_gt compare l lo
      concat3 compare l v r
  | T v _ l1 r1, s2@(T _ _ _ _), lo => do
      let l ← uni_bd compare l1 (trim compare lo v s2) lo v
      let r ← uni_lo r1 (trim_lo compare v s2) v
      concat3 compare l v r

/-- The hedge union. -/
def uni : Tree α → Tree α → M α (Tree α)
  | s, E => return s
  | E, s => return s
  | T v _ l1 r1, s2@(T _ _ _ _) => do
      let l ← uni_hi compare l1 (trim_hi compare v s2) v
      let r ← uni_lo compare r1 (trim_lo compare v s2) v
      concat3 compare l v r

def union : Tree α → Tree α → M α (Tree α) := uni compare

def empty : Tree α := E

def singleton (x : α) : Tree α := T x 1 E E

/-- Is `x` in the set? -/
def member : Tree α → α → Bool
  | E, _ => false
  | T v _ l r, x =>
      match compare x v with
      | .lt => member l x
      | .eq => true
      | .gt => member r x

/-- Is every item of a tree in `t'`?  It is asked in the order of the source: the
root, and the subtrees that are not empty. -/
@[grind =] def treeIn (t' : Tree α) : Tree α → Bool
  | E => true
  | T elt _ E E => member compare t' elt
  | T elt _ left E => member compare t' elt && treeIn t' left
  | T elt _ E right => member compare t' elt && treeIn t' right
  | T elt _ left right => member compare t' elt && treeIn t' left && treeIn t' right

def isSubset : Tree α → Tree α → Bool
  | E, _ => true
  | _, E => false
  | t@(T _ n _ _), t'@(T _ n' _ _) => decide (n ≤ n') && treeIn compare t' t

def equal : Tree α → Tree α → Bool
  | E, E => true
  | t@(T _ n _ _), t'@(T _ n' _ _) => n == n' && treeIn compare t' t
  | _, _ => false

/-- Delete an item. -/
def delete : Tree α → α → M α (Tree α)
  | E, _ => throw .notFound
  | T v _ l r, x =>
      match compare x v with
      | .lt => do T'.call v (← delete l x) r
      | .gt => do T'.call v l (← delete r x)
      | _ => delete' l r

/-- The intersection. -/
def intersection : Tree α → Tree α → M α (Tree α)
  | E, _ => return E
  | _, E => return E
  | s@(T _ _ _ _), T v _ l r => do
      let l2 ← split_lt compare s v
      let r2 ← split_gt compare s v
      if member compare s v then
        let l ← intersection l2 l
        let r ← intersection r2 r
        concat3 compare l v r
      else
        let l ← intersection l2 l
        let r ← intersection r2 r
        concat l r

/-- The difference. -/
def difference : Tree α → Tree α → M α (Tree α)
  | E, _ => return E
  | s, E => return s
  | s@(T _ _ _ _), T v _ l r => do
      let l2 ← split_lt compare s v
      let r2 ← split_gt compare s v
      let l ← difference l2 l
      let r ← difference r2 r
      concat l r

/-- Fold over the elements in ascending order. -/
def foldl {β : Type} (f : α → β → M α β) : β → Tree α → M α β
  | b, E => return b
  | b, T elt _ left right => do
      let b ← foldl f b left
      let b ← f elt b
      foldl f b right

def filter (pred : α → Bool) (set : Tree α) : M α (Tree α) :=
  foldl (fun item s => if pred item then add compare s item else return s) empty set

end Operations

end SmlNj.BinarySet
