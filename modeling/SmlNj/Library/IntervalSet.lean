import Mathlib.Order.SuccPred.Basic

/-!
# Interval sets

Sets over a discrete ordered domain, represented by lists of intervals.  The representation is
meant for dense sets, such as classes of characters.

## Main definitions

* `IntervalDomain` — the domains over which interval sets are defined.
* `IntervalSet` — the representation.
* `add`, `addInt`, `complement`, `union`, `intersect`, `difference`, `filter` — its operations.
* `member`, `compare`, `isSubset`, `isUniverse`, `isEmpty` — its tests.
-/

open Order (succ)

namespace SmlNj

/-- A discrete ordered domain: a linear order with least and greatest points, the successor and
predecessor functions, which stay at the ends, and a test for adjacent points. -/
class IntervalDomain (Point : Type*) [LinearOrder Point] extends
    BoundedOrder Point, SuccOrder Point, PredOrder Point where
  /-- The test whether the second point is the successor of the first one. -/
  isSucc : Point → Point → Bool
  isSucc_iff : ∀ a b, isSucc a b = true ↔ a ⋖ b

export IntervalDomain (isSucc isSucc_iff)

def minPt {Point : Type*} [LinearOrder Point] [IntervalDomain Point] : Point := ⊥

def maxPt {Point : Type*} [LinearOrder Point] [IntervalDomain Point] : Point := ⊤

/-- A set of points is represented by an ordered list of disjoint, non-adjacent intervals. -/
structure IntervalSet (Point : Type*) where
  /-- The constructor of the representation. -/
  SET ::
  intervals : List (Point × Point)
  deriving DecidableEq

namespace IntervalSet

/-- The exception that an ill-formed interval raises. -/
inductive Domain
  | domain
  deriving DecidableEq

variable {Point : Type*} [LinearOrder Point]

def min (a b : Point) : Point :=
  match compare a b with
  | .lt => a
  | _ => b

def empty : IntervalSet Point := SET []

def isEmpty : IntervalSet Point → Bool
  | SET [] => true
  | _ => false

def singleton (x : Point) : IntervalSet Point := SET [(x, x)]

def interval (a b : Point) : Except Domain (IntervalSet Point) :=
  match compare a b with
  | .gt => .error .domain
  | _ => .ok (SET [(a, b)])

/-- Is a point in any of the intervals in the set? -/
def member : IntervalSet Point → Point → Bool
  | SET l, pt => look pt l
where
  look (pt : Point) : List (Point × Point) → Bool
    | [] => false
    | (a, b) :: r =>
      match compare a pt with
      | .lt =>
        match compare pt b with
        | .gt => look pt r
        | _ => true
      | .eq => true
      | .gt => false

/-- The intervals that pass a test. -/
def filterInt (pred : Point × Point → Bool) : IntervalSet Point → IntervalSet Point
  | SET l => f' l []
where
  /-- The loop over the intervals, which collects those that pass in reverse order. -/
  f' : List (Point × Point) → List (Point × Point) → IntervalSet Point
    | [], l => SET l.reverse
    | i :: r, l => if pred i then f' r (i :: l) else f' r l

/-- The order of sets: the intervals are compared from the first one on, by their starts and
then by their ends. -/
protected def compare : IntervalSet Point → IntervalSet Point → Ordering
  | SET l1, SET l2 => comp l1 l2
where
  /-- The comparison of the lists of intervals. -/
  comp : List (Point × Point) → List (Point × Point) → Ordering
    | [], [] => .eq
    | (a1, b1) :: r1, (a2, b2) :: r2 =>
      match compare a1 a2 with
      | .eq =>
        match compare b1 b2 with
        | .eq => comp r1 r2
        | someOrder => someOrder
      | someOrder => someOrder
    | [], _ => .lt
    | _, [] => .gt

/-- Is the interval from `a` to `b` covered by that from `x` to `y`? -/
def isCovered (a b x y : Point) : Bool :=
  match compare a x with
  | .lt => false
  | _ =>
    match compare y b with
    | .lt => false
    | _ => true

/-- The test for subsets. -/
def isSubset : IntervalSet Point → IntervalSet Point → Bool
  | SET l1, SET l2 => test l1 l2
where
  /-- The test on the lists of intervals. -/
  test : List (Point × Point) → List (Point × Point) → Bool
    | [], _ => true
    | _, [] => false
    | (a1, b1) :: r1, (a2, b2) :: r2 =>
      if isCovered a1 b1 a2 b2 then test r1 ((a2, b2) :: r2)
      else
        match compare b2 a1 with
        | .lt => test ((a1, b1) :: r1) r2
        | _ => false
  termination_by l1 l2 => l1.length + l2.length

variable [IntervalDomain Point]

def «universe» : IntervalSet Point := SET [(minPt, maxPt)]

def isUniverse : IntervalSet Point → Bool
  | SET [(a, b)] => compare a minPt == .eq && compare b maxPt == .eq
  | _ => false

/-- An interval is added. -/
def addInt : IntervalSet Point → Point × Point → Except Domain (IntervalSet Point)
  | SET l, (a, b) =>
    match compare a b with
    | .gt => .error .domain
    | _ => .ok (SET (ins a b l))
where
  /-- The insertion of an interval, which swallows those that it meets. -/
  ins (a b : Point) : List (Point × Point) → List (Point × Point)
    | [] => [(a, b)]
    | (x, y) :: r =>
      match compare b x with
      | .lt => if isSucc b x then (a, y) :: r else (a, b) :: (x, y) :: r
      | .eq => (a, y) :: r
      | .gt =>
        match compare a y with
        | .gt => if isSucc y a then ins x b r else (x, y) :: ins a b r
        | .eq => ins x b r
        | .lt =>
          match compare b y with
          | .gt => ins (min a x) b r
          | _ => ins (min a x) y r

def addInt' (x : Point × Point) (m : IntervalSet Point) : Except Domain (IntervalSet Point) :=
  addInt m x

/-- A point is added.  The insertion has no result when the inner one yields an empty list, where
the code fails as "impossible". -/
def add : IntervalSet Point → Point → Option (IntervalSet Point)
  | SET l, a => (ins a l).map SET
where
  ins (a : Point) : List (Point × Point) → Option (List (Point × Point))
    | [] => some [(a, a)]
    | (x, y) :: r =>
      match compare a x with
      | .lt => some (if isSucc a x then (a, y) :: r else (a, a) :: (x, y) :: r)
      | .eq => some ((a, y) :: r)
      | .gt =>
        match compare a y with
        | .gt =>
          if isSucc y a then
            match ins a r with
            | some ((_, y') :: r') => some ((x, y') :: r')
            | _ => none
          else (ins a r).map ((x, y) :: ·)
        | _ => some ((x, y) :: r)

def add' (x : Point) (m : IntervalSet Point) : Option (IntervalSet Point) := add m x

def fromList (items : List Point) : Option (IntervalSet Point) :=
  items.foldlM (fun m x => add' x m) empty

/-- The points that are not in the set. -/
def complement : IntervalSet Point → IntervalSet Point
  | SET [] => «universe»
  | SET ((a, b) :: r) =>
    match compare minPt a with
    | .lt => comp (succ b) r [(minPt, Order.pred a)]
    | _ => comp (succ b) r []
where
  /-- The loop over the intervals, which collects the gaps in reverse order.  The point `start`
  follows the intervals so far. -/
  comp (start : Point) : List (Point × Point) → List (Point × Point) → IntervalSet Point
    | (a, b) :: r, l => comp (succ b) r ((start, Order.pred a) :: l)
    | [], l =>
      match compare start maxPt with
      | .lt => SET ((start, maxPt) :: l).reverse
      | _ => SET l.reverse

/-- The points that are in one of two sets. -/
def union : IntervalSet Point → IntervalSet Point → IntervalSet Point
  | SET l1, SET l2 => SET (join l1 l2)
where
  /-- The merge of the lists of intervals. -/
  join : List (Point × Point) → List (Point × Point) → List (Point × Point)
    | [], l2 => l2
    | l1, [] => l1
    | (a1, b1) :: r1, (a2, b2) :: r2 =>
      match compare a1 a2 with
      | .lt =>
        match compare b1 b2 with
        | .lt =>
          if isSucc b1 a2 then join r1 ((a1, b2) :: r2)
          else (a1, b1) :: join r1 ((a2, b2) :: r2)
        | .eq => (a1, b1) :: join r1 r2
        | .gt => join ((a1, b1) :: r1) r2
      | .eq =>
        match compare b1 b2 with
        | .lt => join r1 ((a2, b2) :: r2)
        | .eq => (a1, b1) :: join r1 r2
        | .gt => join ((a1, b1) :: r1) r2
      | .gt =>
        match compare a1 b2 with
        | .lt =>
          match compare b1 b2 with
          | .lt => join r1 ((a2, b2) :: r2)
          | .eq => (a2, b2) :: join r1 r2
          | .gt => join ((a2, b1) :: r1) r2
        -- here `a2 < a1`, `a1 = b2` and `b2 ≤ b1`
        | .eq => join ((a2, b1) :: r1) r2
        | .gt =>
          if isSucc b2 a1 then join ((a2, b1) :: r1) r2
          else (a2, b2) :: join ((a1, b1) :: r1) r2
  termination_by l1 l2 => l1.length + l2.length

def cons (a b : Point) (l : List (Point × Point)) : List (Point × Point) :=
  match compare a b with
  | .gt => l
  | _ => (a, b) :: l

omit [IntervalDomain Point] in
theorem length_cons_le (a b : Point) (l : List (Point × Point)) :
    (cons a b l).length ≤ l.length + 1 := by
  unfold cons
  split <;> simp

/-- The points that are in both of two sets. -/
def intersect : IntervalSet Point → IntervalSet Point → IntervalSet Point
  | SET l1, SET l2 => SET (meet l1 l2)
where
  /-- The intersection of the lists of intervals. -/
  meet : List (Point × Point) → List (Point × Point) → List (Point × Point)
    | [], _ => []
    | _, [] => []
    | (a1, b1) :: r1, (a2, b2) :: r2 =>
      have := length_cons_le (succ b1) b2 r2
      have := length_cons_le (succ b2) b1 r1
      match compare a1 a2 with
      | .lt =>
        match compare b1 a2 with
        | .lt => meet r1 ((a2, b2) :: r2)
        | .eq => (b1, b1) :: meet r1 (cons (succ b1) b2 r2)
        | .gt =>
          match compare b1 b2 with
          | .lt => (a2, b1) :: meet r1 (cons (succ b1) b2 r2)
          | .eq => (a2, b1) :: meet r1 r2
          | .gt => (a2, b2) :: meet (cons (succ b2) b1 r1) r2
      | .eq =>
        match compare b1 b2 with
        | .lt => (a1, b1) :: meet r1 (cons (succ b1) b2 r2)
        | .eq => (a1, b1) :: meet r1 r2
        | .gt => (a1, b2) :: meet ((succ b2, b1) :: r1) r2
      | .gt =>
        match compare b2 a1 with
        | .lt => meet ((a1, b1) :: r1) r2
        | .eq => (b2, b2) :: meet (cons (succ b2) b1 r1) r2
        | .gt =>
          match compare b1 b2 with
          | .lt => (a1, b1) :: meet r1 (cons (succ b1) b2 r2)
          | .eq => (a1, b1) :: meet r1 r2
          | .gt => (a1, b2) :: meet (cons (succ b2) b1 r1) r2
  termination_by l1 l2 => l1.length + l2.length

def difference (s1 s2 : IntervalSet Point) : IntervalSet Point := intersect s1 (complement s2)

mutual

/-- The points of an interval are filtered: the points from `start` to `item` pass, and the next
one is tried.  The subintervals that pass go in front of the list. -/
def filter.lp (pred : Point → Bool) :
    ℕ → Point → Point → Point → List (Point × Point) → Option (List (Point × Point))
  | 0, _, _, _, _ => none
  | fuel + 1, start, item, last, l =>
    let next := succ item
    if pred next then
      if compare next last = .eq then some ((start, next) :: l)
      else filter.lp pred fuel start next last l
    else filter.scan pred fuel (succ next) last ((start, item) :: l)

/-- The search for the next point that passes. -/
def filter.scan (pred : Point → Bool) :
    ℕ → Point → Point → List (Point × Point) → Option (List (Point × Point))
  | 0, _, _, _ => none
  | fuel + 1, next, last, l =>
    if pred next then filter.lp pred fuel next next last l
    else if compare next last = .eq then some l
    else filter.scan pred fuel (succ next) last l

end

/-- The points of the set that pass a test.  There is no result when the loop over the points of
an interval does not end within `fuel` steps. -/
def filter (fuel : ℕ) (pred : Point → Bool) : IntervalSet Point → Option (IntervalSet Point)
  | SET l => filter' l []
where
  /-- The points of an interval are filtered, and the subintervals that pass are added to the
  list. -/
  filterInt (i : Point × Point) (l : List (Point × Point)) : Option (List (Point × Point)) :=
    filter.scan pred fuel i.1 i.2 l
  filter' : List (Point × Point) → List (Point × Point) → Option (IntervalSet Point)
    | [], l => some (SET l.reverse)
    | i :: r, l => do filter' r (← filterInt i l)

end IntervalSet

end SmlNj
