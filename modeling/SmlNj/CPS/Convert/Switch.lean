import SmlNj.Basics.LambdaVar

/-!
# Switches on tagged numbers

The translation of a case analysis on tagged numbers and constructor tags to CPS.  The
sorted cases are grouped into chunks without gaps; a chunk that is large enough becomes a
`SWITCH` table, and a binary search selects the chunk.

## Main definitions

* `Chunk`, `groupCases` — the chunks and the grouping of the cases.
* `gen` — the binary search.
* `taggedNumSwitchWith` — the switch.
-/

namespace SmlNj.CPS.Switch

/-- The builder of terms: a supply of fresh variables, and the compiler's exceptions. -/
abbrev Build := StateT Lvar (Except Exn)

def mkv : Build Lvar := fun n => .ok (n, n + 1)

def bug {α : Type} : Build α := fun _ => .error .impossible

def pure (rator : P.Pure) (args : List Value) (ty : Cty) (k : Value → Build Cexp) :
    Build Cexp := do
  let x ← mkv
  return .pure rator args x ty (← k (.var x))

/-- The least number of cases for a `SWITCH`, in place of conditional branches. -/
def switchLimit : ℕ := 4

def tagNumTy : Cty := .numt ⟨Target.defaultIntSz, true⟩

def tagNum (n : ℤ) : Value := .num ⟨n, ⟨Target.defaultIntSz, true⟩⟩

/-- The tag of a constructor, which has come from an `int`. -/
def tagEnum (n : ℤ) : Value := .enum n

def tagIntKind : P.NumKind := .int Target.defaultIntSz

def tagWordKind : P.NumKind := .uint Target.defaultIntSz

def numSort (cases : List (ℤ × Cexp)) : List (ℤ × Cexp) :=
  cases.mergeSort fun i j => decide (i.1 ≤ j.1)

/-- Cases without gaps, with the least and the greatest label and the number of cases. -/
structure Chunk where
  lb : ℤ
  ub : ℤ
  n : ℕ
  cases : List (ℤ × Cexp)

section Group

variable (default : Cexp)

/-- Fill the gap above `ub` with the default. -/
def fill (ub i : ℤ) (n : ℕ) (cases : List (ℤ × Cexp)) : ℕ × List (ℤ × Cexp) :=
  if ub < i then fill ub (i - 1) (n + 1) ((i, default) :: cases) else (n, cases)
termination_by (i - ub).toNat

/-- Merge a chunk into the chunks above it. -/
def merge (lb ub : ℤ) (n : ℕ) (cases : List (ℤ × Cexp)) : List Chunk → List Chunk
  | [] => [⟨lb, ub, n, cases⟩]
  | ⟨lb', ub', n', cases'⟩ :: chunkr =>
    -- will the merged chunk cover about half of its range or more?
    if 2 * ((n : ℤ) + n') < ub' - lb then ⟨lb, ub, n, cases⟩ :: ⟨lb', ub', n', cases'⟩ :: chunkr
    else
      let (n', cases') := fill default ub (lb' - 1) n' cases'
      merge lb ub' (n + n') (cases ++ cases') chunkr

/-- The chunks of sorted cases, before the small ones are taken apart. -/
def initialChunks (cases : List (ℤ × Cexp)) : List Chunk :=
  cases.foldr (fun ic chunks => merge default ic.1 ic.1 1 [ic] chunks) []

end Group

/-- Split a chunk that is too small for a `SWITCH` into singletons. -/
def separate (chunk : Chunk) (chunks : List Chunk) : List Chunk :=
  if chunk.n < switchLimit then
    chunk.cases.foldr (fun ic chunks => ⟨ic.1, ic.1, 1, [ic]⟩ :: chunks) chunks
  else chunk :: chunks

/-- Group sorted cases into chunks; one that is not a singleton has at least `switchLimit`
cases. -/
def groupCases (cases : List (ℤ × Cexp)) (default : Cexp) : List Chunk :=
  (initialChunks default cases).foldr separate []

/-- A kind of tagged numbers, and how its literals are written. -/
structure TagType where
  tagValue : ℤ → Value
  kind : P.NumKind

section Generate

variable (ty : TagType) (arg : Value) (default : Cexp)

def ifeq (i : ℤ) (tr fl : Cexp) : Build Cexp := do
  return .branch (.cmp .eql ty.kind) [arg, ty.tagValue i] (← mkv) tr fl

def ifless (a b : Value) (tr fl : Cexp) : Build Cexp := do
  return .branch (.cmp .lt ty.kind) [a, b] (← mkv) tr fl

/-- Convert the selected tag to a zero-based index. -/
def subtract (arg : Value) (lb : ℤ) (k : Value → Build Cexp) : Build Cexp :=
  match ty.kind with
  | .enum =>
    pure .cast [arg] tagNumTy fun arg' =>
      -- an index, not a tag
      pure (.pureArith .sub tagWordKind) [arg', tagNum lb] tagNumTy k
  | kind => pure (.pureArith .sub kind) [arg, tagNum lb] tagNumTy k

def table (lb : ℤ) (actions : List Cexp) : Build Cexp :=
  if lb = 0 then do return .switch arg (← mkv) actions
  else subtract ty arg lb fun arg' => do return .switch arg' (← mkv) actions

def lowerCheck (lo lb : ℤ) (exp : Cexp) : Build Cexp :=
  if lo < lb then ifless ty arg (ty.tagValue lb) default exp else return exp

def upperCheck (ub hi : ℤ) (exp : Cexp) : Build Cexp :=
  if ub < hi then ifless ty (ty.tagValue ub) arg default exp else return exp

/-- The switch for chunks, where the argument is known to be between `lo` and `hi`.  The
source passes the number of chunks along. -/
@[grind =] def gen : List Chunk → ℤ → ℤ → Build Cexp
  | [⟨_, _, _, [(i, act)]⟩], lo, hi =>
    if lo = i ∧ hi = i then return act else ifeq ty arg i act default
  | [⟨lb, ub, _, cases⟩], lo, hi => do
    let actions := cases.map Prod.snd
    let exp ← table ty arg lb actions
    let exp ← lowerCheck ty arg default lo lb exp
    upperCheck ty arg default ub hi exp
  | [], _, _ => bug
  | c :: c' :: cs, lo, hi =>
    let m := (c :: c' :: cs).length / 2
    let c1 := (c :: c' :: cs).take m
    match _ : (c :: c' :: cs).drop m with
    | [] => bug
    | ⟨midVal, ub, n, cases⟩ :: c2 => do
      let tr ← gen c1 lo (midVal - 1)
      let fl ← gen (⟨midVal, ub, n, cases⟩ :: c2) midVal hi
      ifless ty arg (ty.tagValue midVal) tr fl
termination_by chunks => chunks.length
decreasing_by
  · rw [List.length_take]
    exact lt_of_le_of_lt (min_le_left _ _) (Nat.div_lt_self (Nat.succ_pos _) (by decide))
  · have h := congrArg List.length ‹_ = _›
    simp only [m, List.length_drop, List.length_cons] at h ⊢
    omega

/-- The switch on cases whose labels go from `lo0` to `hi0`. -/
def switch' (cases : List (ℤ × Cexp)) (lo0 hi0 : ℤ) : Build Cexp :=
  gen ty arg default (groupCases cases default) lo0 hi0

def ifelseWDefault : List (ℤ × Cexp) → Build Cexp
  | [] => return default
  | (i, act) :: r => do ifeq ty arg i act (← ifelseWDefault r)

def ifelse : List (ℤ × Cexp) → Build Cexp
  | [] => bug
  | [(_, act)] => return act
  | (i, act) :: c :: r => do ifeq ty arg i act (← ifelse (c :: r))

def unsigned : P.NumKind → Bool
  | .uint _ => true
  | .enum => true
  | _ => false

end Generate

/-- **The switch on tagged numbers.**  If `optRange` is `some n`, then the range of possible
values is from zero to `n`. -/
def taggedNumSwitchWith (ty : TagType) (arg : Value) (cases : List (ℤ × Cexp)) (default : Cexp)
    (optRange : Option ℤ) : Build Cexp :=
  match cases with
  | [] => return default
  | _ :: _ =>
    let nCases := cases.length
    let cases := numSort cases
    match decide (nCases < switchLimit), optRange with
    | true, none => ifelseWDefault ty arg default cases
    | true, some n =>
      if nCases ≤ n then ifelseWDefault ty arg default cases else ifelse ty arg cases
    | false, none =>
      match cases with
      | [] => bug
      | (lo, act) :: r => do
        let hi := (((lo, act) :: r).getLast (List.cons_ne_nil _ _)).1
        let exp ← ifless ty (ty.tagValue hi) arg default
          (← switch' ty arg default ((lo, act) :: r) lo hi)
        if unsigned ty.kind ∧ lo = 0 then return exp
        else ifless ty arg (ty.tagValue lo) default exp
    | false, some n => switch' ty arg default cases 0 n

def taggedNumSwitch (arg : Value) (nk : P.NumKind) (cases : List (ℤ × Cexp)) (default : Cexp)
    (optRange : Option ℤ) : Build Cexp :=
  taggedNumSwitchWith ⟨tagNum, nk⟩ arg cases default optRange

def enumSwitch (arg : Value) (cases : List (ℤ × Cexp)) (default : Cexp) (optRange : Option ℤ) :
    Build Cexp :=
  taggedNumSwitchWith ⟨tagEnum, .enum⟩ arg cases default optRange

end SmlNj.CPS.Switch
