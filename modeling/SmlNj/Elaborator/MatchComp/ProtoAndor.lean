import SmlNj.Elaborator.MatchComp.Preprocessing
import SmlNj.Lib.ExceptList

/-!
# Proto-and-or trees

The first pass of the match compiler layers the patterns of the rules into one
tree.  A node for records has a child for each field, and a node for a choice a
case for each constant met so far, with the rules that have the constant there.

## Main definitions

* `ProtoAndor` — the tree.
* `genAndor` — the tree of one pattern; `mergeAndor` — layering a pattern onto a tree.
* `makeProtoAndor` — the tree of a list of patterns.
-/

namespace SmlNj.MatchComp

abbrev Ruleset := Finset ℕ

/-- What is below a case: nothing for constants, the argument of a constructor, the elements of a
vector. -/
inductive Subcase (α : Type)
  | const
  | dcarg (arg : α)
  | velems (elems : List α)

/-- **Proto-and-or trees.** -/
inductive ProtoAndor
  | and (varRules : Ruleset) (children : List ProtoAndor)
  | or (varRules : Ruleset) (sign : Consig) (cases : List (Con × Ruleset × Subcase ProtoAndor))
  | var (varRules : Ruleset)
  | wc

abbrev ProtoVariant := Con × Ruleset × Subcase ProtoAndor

/-- The tree where a rule has a variable. -/
def addVarRule (rule : ℕ) : ProtoAndor → ProtoAndor
  | .and varRules children => .and (insert rule varRules) children
  | .or varRules sign cases => .or (insert rule varRules) sign cases
  | .var varRules => .var (insert rule varRules)
  | .wc => .var {rule}

mutual

/-- **The tree of one pattern.** -/
@[grind =] def genAndor : Pat → ℕ → Except Exn ProtoAndor
  | .var _, rule => .ok (.var {rule})
  | .wild, _ => .ok .wc
  | .constraint pat, rule => genAndor pat rule
  | .layered lpat bpat, rule =>
    match stripConstraints lpat with
    | .var _ => do return addVarRule rule (← genAndor bpat rule)
    | _ => .error .impossible
  | .num ival ty, rule => .ok (.or ∅ .cnil [(numToCon ival ty, {rule}, .const)])
  | .string s, rule => .ok (.or ∅ .cnil [(.string s, {rule}, .const)])
  | .char s, rule => .ok (.or ∅ .cnil [(charCon s, {rule}, .const)])
  | .record fields, rule => do return .and ∅ (← multiGen fields rule)
  | .vector pats, rule => do
    return .or ∅ .cnil [(.vlen pats.length, {rule}, .velems (← multiGen pats rule))]
  | .con k, rule => .ok (.or ∅ k.sign [(.data k, {rule}, .const)])
  | .app k pat, rule => do
    return .or ∅ k.sign [(.data k, {rule}, .dcarg (← genAndor pat rule))]
  | .or _ _, _ | .mark _, _ => .error .impossible

def multiGen : List Pat → ℕ → Except Exn (List ProtoAndor)
  | [], _ => .ok []
  | pat :: pats, rule => do return (← genAndor pat rule) :: (← multiGen pats rule)

end

/-- What is below the case of a new constant: `gen` are the trees of the patterns `pats` of its
arguments. -/
def newSubcase (con : Con) (pats : List Pat) (gen : Except Exn (List ProtoAndor)) :
    Except Exn (Subcase ProtoAndor) :=
  match con, pats with
  | .vlen _, _ => do return .velems (← gen)
  | _, [] => .ok .const
  | .data _, [_] => do
    match ← gen with
    | [pandor] => return .dcarg pandor
    | _ => .error .impossible
  | _, _ => .error .impossible

/-- What is below an existing case, after the patterns `pats` were layered on it by `merge`. -/
def mergeSubcase (pats : List Pat) (merge : List ProtoAndor → Except Exn (List ProtoAndor)) :
    Subcase ProtoAndor → Except Exn (Subcase ProtoAndor)
  | .const => if pats.isEmpty then .ok .const else .error .nomatch
  | .dcarg pandor =>
    match pats with
    | [_] => do
      match ← merge [pandor] with
      | [pandor'] => return .dcarg pandor'
      | _ => .error .nomatch
    | _ => .error .nomatch
  | .velems velems => do return .velems (← merge velems)

/-- **Adding a rule with the constant `con`, and patterns `pats` for its arguments, to the cases.**
`gen` are the trees of these patterns, and `merge` layers them on existing trees. -/
def addACase (con : Con) (pats : List Pat) (gen : Except Exn (List ProtoAndor))
    (merge : List ProtoAndor → Except Exn (List ProtoAndor)) (rule : ℕ) :
    List ProtoVariant → Except Exn (List ProtoVariant)
  | [] => do return [(con, {rule}, ← newSubcase con pats gen)]
  | (con', rules, subcase) :: rest =>
    if eqCon con con' then do
      return (con, insert rule rules, ← mergeSubcase pats merge subcase) :: rest
    else do
      return (con', rules, subcase) :: (← addACase con pats gen merge rule rest)

def mergeNone : List ProtoAndor → Except Exn (List ProtoAndor)
  | [] => .ok []
  | _ => .error .unequalLengths

/-- Layering one pattern, by `merge`. -/
def mergeOne (merge : ProtoAndor → Except Exn ProtoAndor) :
    List ProtoAndor → Except Exn (List ProtoAndor)
  | [pandor] => do return [← merge pandor]
  | _ => .error .unequalLengths

mutual

/-- **Layering a pattern onto a tree.** -/
@[grind =] def mergeAndor : Pat → ProtoAndor → ℕ → Except Exn ProtoAndor
  | pat, .wc, rule => genAndor pat rule
  | .var _, andor, rule => .ok (addVarRule rule andor)
  | .wild, andor, _ => .ok andor
  | .constraint pat, andor, rule => mergeAndor pat andor rule
  | .layered lpat bpat, andor, rule =>
    match stripConstraints lpat with
    | .var _ => do return addVarRule rule (← mergeAndor bpat andor rule)
    | _ => .error .impossible
  | .con k, .var varRules, rule => .ok (.or varRules k.sign [(.data k, {rule}, .const)])
  | .app k pat, .var varRules, rule => do
    return .or varRules k.sign [(.data k, {rule}, .dcarg (← genAndor pat rule))]
  | pat, .var varRules, rule => do
    match ← genAndor pat rule with
    | .or _ sign cases => return .or varRules sign cases
    | .and _ children => return .and varRules children
    | .var newVarRules => return .var (newVarRules ∪ varRules)
    | .wc => return .var varRules
  | .num ival ty, .or varRules sign cases, rule => do
    return .or varRules sign (← addACase (numToCon ival ty) [] (.ok []) mergeNone rule cases)
  | .string s, .or varRules sign cases, rule => do
    return .or varRules sign (← addACase (.string s) [] (.ok []) mergeNone rule cases)
  | .char s, .or varRules sign cases, rule => do
    return .or varRules sign (← addACase (charCon s) [] (.ok []) mergeNone rule cases)
  | .record fields, .and varRules children, rule => do
    return .and varRules (← multiMerge fields children rule)
  | .vector pats, .or varRules sign cases, rule => do
    return .or varRules sign (← addACase (.vlen pats.length) pats (multiGen pats rule)
      (fun velems => multiMerge pats velems rule) rule cases)
  | .con k, .or varRules sign cases, rule => do
    return .or varRules sign (← addACase (.data k) [] (.ok []) mergeNone rule cases)
  | .app k pat, .or varRules sign cases, rule => do
    return .or varRules sign (← addACase (.data k) [pat] (do return [← genAndor pat rule])
      (mergeOne fun pandor => mergeAndor pat pandor rule) rule cases)
  | _, _, _ => .error .impossible

/-- Layering patterns onto as many trees. -/
@[grind =] def multiMerge : List Pat → List ProtoAndor → ℕ → Except Exn (List ProtoAndor)
  | [], [], _ => .ok []
  | pat :: pats, sandor :: sandors, rule => do
    return (← mergeAndor pat sandor rule) :: (← multiMerge pats sandors rule)
  | _, _, _ => .error .unequalLengths

end

/-- Layering the patterns of the rules from `ruleno` on. -/
def mergePats : List Pat → ℕ → ProtoAndor → Except Exn ProtoAndor
  | [], _, pandor => .ok pandor
  | pat :: rest, ruleno, pandor => do mergePats rest (ruleno + 1) (← mergeAndor pat pandor ruleno)

/-- **The tree of a list of patterns.** -/
def makeProtoAndor : List Pat → Except Exn ProtoAndor
  | [] => .error .bind
  | pat0 :: rest => do mergePats rest 1 (← genAndor pat0 0)

attribute [simp] addVarRule genAndor multiGen mergeAndor multiMerge

end SmlNj.MatchComp
