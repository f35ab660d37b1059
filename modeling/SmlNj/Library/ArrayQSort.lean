import Mathlib.Data.Int.Basic
import Mathlib.Order.Basic
import SmlNj.Lib.TotalRun

/-!
# The quicksort of arrays

The sort of a range of an array in place, with the three-way partition of Bentley and McIlroy:
elements equal to the pivot are collected at both ends of the range and swapped into its middle
when the partition is complete.  Short ranges are sorted by insertion.

An array access out of bounds raises `Subscript`.  The loops are the least solutions of their
equations; they call themselves by `apply`, which keeps the place of the call in the text out of
the solution.

## Main definitions

* `swap`, `vecswap` — swaps of elements and of ranges.
* `insertSort` — the sort by insertion.
* `getPivot`, `bottom`, `top`, `split` — the partition.
* `sortRange` — the sort of a range.
-/

namespace SmlNj.ArrayQSort

open TotalRun

/-- The exception of an array access out of bounds. -/
inductive Exn
  | subscript
  deriving DecidableEq

variable {α : Type}

def item (arr : Array α) (i : ℤ) : Option α := if 0 ≤ i then arr[i.toNat]? else none

/-- `A.sub` -/
def sub (i : ℤ) : Run Exn (Array α) α := ExceptT.mk fun arr =>
  match item arr i with
  | some x => some (.ok x, arr)
  | none => some (.error .subscript, arr)

/-- `A.update` -/
def update (i : ℤ) (x : α) : Run Exn (Array α) Unit := ExceptT.mk fun arr =>
  if 0 ≤ i ∧ i < arr.size then some (.ok (), arr.setIfInBounds i.toNat x)
  else some (.error .subscript, arr)

def swap (i j : ℤ) : Run Exn (Array α) Unit := do
  let tmp ← sub i
  update i (← sub j)
  update j tmp

def vecswap (i j n : ℤ) : Run Exn (Array α) Unit :=
  if n = 0 then pure ()
  else do
    swap i j
    (by apply vecswap : ℤ → ℤ → ℤ → Run Exn (Array α) Unit) (i + 1) (j + 1) (n - 1)
partial_fixpoint

variable (cmp : α → α → Ordering)

mutual

/-- Insert the elements from `i` on. -/
def outer (start limit i : ℤ) : Run Exn (Array α) Unit :=
  if i ≥ limit then pure ()
  else (by apply inner : ℤ → ℤ → ℤ → ℤ → Run Exn (Array α) Unit) start limit i i
partial_fixpoint

/-- Insert the element `j` among those before it. -/
def inner (start limit i j : ℤ) : Run Exn (Array α) Unit :=
  if j = start then (by apply outer : ℤ → ℤ → ℤ → Run Exn (Array α) Unit) start limit (i + 1)
  else do
    let j' := j - 1
    let x' ← sub j'
    let x ← sub j
    if cmp x' x = .gt then do
      swap j j'
      (by apply inner : ℤ → ℤ → ℤ → ℤ → Run Exn (Array α) Unit) start limit i j'
    else (by apply outer : ℤ → ℤ → ℤ → Run Exn (Array α) Unit) start limit (i + 1)
partial_fixpoint

end

def insertSort (start n : ℤ) : Run Exn (Array α) Unit := outer cmp start (start + n) (start + 1)

/-- The index of the median of three elements. -/
def med3 (a b c : ℤ) : Run Exn (Array α) ℤ := do
  let a' ← sub a
  let b' ← sub b
  let c' ← sub c
  match cmp a' b', cmp b' c' with
  | .lt, .lt => pure b
  | .lt, _ =>
    match cmp a' c' with
    | .lt => pure c
    | _ => pure a
  | _, .gt => pure b
  | _, _ =>
    match cmp a' c' with
    | .lt => pure a
    | _ => pure c

/-- The index of the pivot. -/
def getPivot (a n : ℤ) : Run Exn (Array α) ℤ :=
  if n ≤ 7 then pure (a + n / 2)
  else do
    let p1 := a
    let pm := a + n / 2
    let pn := a + n - 1
    if n ≤ 40 then med3 cmp p1 pm pn
    else do
      let d := n / 8
      let p1 ← med3 cmp p1 (p1 + d) (p1 + 2 * d)
      let pm ← med3 cmp (pm - d) pm (pm + d)
      let pn ← med3 cmp (pn - 2 * d) (pn - d) pn
      med3 cmp p1 pm pn

/-- Go up over the elements that are not greater than the pivot, which is at `a`. -/
def bottom (a limit pa pb : ℤ) : Run Exn (Array α) (ℤ × ℤ) :=
  if pb > limit then pure (pa, pb)
  else do
    let x ← sub pb
    let pivot ← sub a
    match cmp x pivot with
    | .gt => pure (pa, pb)
    | .lt => (by apply bottom : ℤ → ℤ → ℤ → ℤ → Run Exn (Array α) (ℤ × ℤ)) a limit pa (pb + 1)
    | .eq => do
      swap pa pb
      (by apply bottom : ℤ → ℤ → ℤ → ℤ → Run Exn (Array α) (ℤ × ℤ)) a limit (pa + 1) (pb + 1)
partial_fixpoint

/-- Go down over the elements that are not less than the pivot. -/
def top (a limit pc pd : ℤ) : Run Exn (Array α) (ℤ × ℤ) :=
  if limit > pc then pure (pc, pd)
  else do
    let x ← sub pc
    let pivot ← sub a
    match cmp x pivot with
    | .lt => pure (pc, pd)
    | .gt => (by apply top : ℤ → ℤ → ℤ → ℤ → Run Exn (Array α) (ℤ × ℤ)) a limit (pc - 1) pd
    | .eq => do
      swap pc pd
      (by apply top : ℤ → ℤ → ℤ → ℤ → Run Exn (Array α) (ℤ × ℤ)) a limit (pc - 1) (pd - 1)
partial_fixpoint

/-- The partition: equal elements before `pa`, smaller ones from there to `pb`, greater ones after
`pc` up to `pd`, and equal ones after that. -/
def split (a pa pb pc pd : ℤ) : Run Exn (Array α) (ℤ × ℤ × ℤ × ℤ) := do
  let (pa, pb) ← bottom cmp a pc pa pb
  let (pc, pd) ← top cmp a pb pc pd
  if pb > pc then pure (pa, pb, pc, pd)
  else do
    swap pb pc
    (by apply split : ℤ → ℤ → ℤ → ℤ → ℤ → Run Exn (Array α) (ℤ × ℤ × ℤ × ℤ))
      a pa (pb + 1) (pc - 1) pd
partial_fixpoint

mutual

def quickSort (a n : ℤ) : Run Exn (Array α) Unit := do
  let pm ← getPivot cmp a n
  swap a pm
  let pa := a + 1
  let pc := a + (n - 1)
  let (pa, pb, pc, pd) ← split cmp a pa pa pc pc
  let pn := a + n
  let r := min (pa - a) (pb - pa)
  vecswap a (pb - r) r
  let r := min (pd - pc) (pn - pd - 1)
  vecswap pb (pn - r) r
  let n' := pb - pa
  let _ ← (if n' > 1 then (by apply sort : ℤ → ℤ → Run Exn (Array α) Unit) a n' else pure ())
  let n' := pd - pc
  (if n' > 1 then (by apply sort : ℤ → ℤ → Run Exn (Array α) Unit) (pn - n') n' else pure ())
partial_fixpoint

def sort (a n : ℤ) : Run Exn (Array α) Unit :=
  if n < 7 then insertSort cmp a n
  else (by apply quickSort : ℤ → ℤ → Run Exn (Array α) Unit) a n
partial_fixpoint

end

/-- Sort `n` elements of an array from the index `start` on. -/
def sortRange (start n : ℤ) : Run Exn (Array α) Unit := sort cmp start n

end SmlNj.ArrayQSort
