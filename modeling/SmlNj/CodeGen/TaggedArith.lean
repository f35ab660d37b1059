import SmlNj.CodeGen.Cfg
import SmlNj.Library.ConstArith

/-!
# Tagged arithmetic

The translation of arithmetic on tagged numbers to machine arithmetic.  A tagged number `n` is
represented by the word `2 * n + 1`.

## Main definitions

* `genV`, `genCmp` — an operand, and a branch on numbers.
* `TaggedArith.pure` — the expression for an operation that cannot overflow.
* `TaggedArith.trapping` — the statement for one that may.
-/

namespace SmlNj

namespace CPStoCFG

open CPS CFG

def ity : ℕ := Target.mlValueSz

def num (iv : ℤ) : Exp := .num iv ity

def mlInt' (n : ℤ) : Exp := num (n + n + 1)

/-- The expression that a variable is bound to, if its binding is not a variable of the graph. -/
def binding (exps : Lvar → Option Exp) (x : Lvar) : Exp :=
  match exps x with
  | none => .var x
  | some e => e

/-- **An operand.** -/
def genV (exps : Lvar → Option Exp) : Value → Except Exn Exp
  | .var x => .ok (binding exps x)
  | .label lab => .ok (.label lab)
  | .num ⟨ival, ⟨sz, tag⟩⟩ => .ok (if tag then mlInt' ival else .num ival sz)
  | .enum i => .ok (mlInt' i)
  | _ => .error .impossible

def isTaggedInt (sz : ℕ) : Bool := decide (sz < Target.mlValueSz)

def normSz (sz : ℕ) : ℕ := if isTaggedInt sz then ity else sz

def unkProb : Probability := 0

/-- A branch on numbers. -/
def genCmp (exps : Lvar → Option Exp) (oper : P.CmpOp) (kind : P.NumKind) (args : List Value)
    (k1 k2 : Stm) : Except Exn Stm :=
  let mkBr (test' : Prim.Branch) : Except Exn Stm := do
    return .branch test' (← args.mapM (genV exps)) unkProb k1 k2
  match kind with
  | .int sz => mkBr (.cmp oper true (normSz sz))
  | .uint sz => mkBr (.cmp oper false (normSz sz))
  | .enum => mkBr (.cmp oper false ity)
  | .float _ => .error .impossible

end CPStoCFG

namespace TaggedArith

open CPS CFG LambdaVar

def ity : ℕ := Target.mlValueSz

def ity' : Ty := .numt ity

def pureOp (rator : Prim.PureOp) (sz : ℕ) (args : List Exp) : Exp :=
  .pure (.pureArith rator sz) args

def zExt (from_ to_ : ℕ) (arg : Exp) : Exp := .pure (.extend false from_ to_) [arg]

def maxInt : ℤ := 2 ^ (Target.defaultIntSz - 1) - 1

def num (iv : ℤ) : Exp := .num iv ity

def one : Exp := num 1

def two : Exp := num 2

/-! ### Tagging and untagging -/

def orTag (e : Exp) : Exp := pureOp .orb ity [e, one]

def addTag (e : Exp) : Exp := pureOp .add ity [e, one]

def stripTag (e : Exp) : Exp := pureOp .sub ity [e, one]

def untagInt (e : Exp) : Exp := pureOp .ashr ity [e, one]

def untagUInt (e : Exp) : Exp := pureOp .lshr ity [e, one]

def untag (signed : Bool) (e : Exp) : Exp := if signed then untagInt e else untagUInt e

def tag (e : Exp) : Exp := orTag (pureOp .shl ity [e, one])

section Translate

variable (comp : Value → Except Exn Exp)

def divOperand (signed : Bool) : Value → Except Exn Exp
  | .num c => .ok (num c.ival)
  | v => do return untag signed (← comp v)

/-- **Arithmetic that cannot overflow**, on numbers of size `sz`. -/
def pure : P.PureOp → Bool → ℕ → List Value → Except Exn Exp
  | .add, _, _, [.num c, v2] => do
    return pureOp .add ity [num (c.ival + c.ival), ← comp v2]
  | .add, _, _, [v1, .num c] => do
    return pureOp .add ity [← comp v1, num (c.ival + c.ival)]
  | .add, _, _, [v1, v2] => do
    return pureOp .add ity [← comp v1, stripTag (← comp v2)]
  | .sub, _, _, [.num c, v2] => do
    return pureOp .sub ity [num (ConstArith.uNarrow ity (c.ival + c.ival + 2)), ← comp v2]
  | .sub, _, _, [v1, .num c] => do
    return pureOp .sub ity [← comp v1, num (c.ival + c.ival)]
  | .sub, _, _, [v1, v2] => do
    return addTag (pureOp .sub ity [← comp v1, ← comp v2])
  | .mul, _, _, [.num n, .num m] => do
    return addTag (pureOp .mul ity [num (n.ival + n.ival), num m.ival])
  | .mul, signed, _, [.num c, v2] => do
    return addTag (pureOp .mul ity [num (c.ival + c.ival), untag signed (← comp v2)])
  | .mul, signed, _, [v1, .num c] => do
    return addTag (pureOp .mul ity [untag signed (← comp v1), num (c.ival + c.ival)])
  | .mul, signed, _, [v1, v2] => do
    return addTag (pureOp .mul ity [stripTag (← comp v1), untag signed (← comp v2)])
  | .quot, signed, _, [v1, v2] => do
    return tag (pureOp .udiv ity [← divOperand comp signed v1, ← divOperand comp signed v2])
  | .rem, signed, _, [v1, v2] => do
    return tag (pureOp .urem ity [← divOperand comp signed v1, ← divOperand comp signed v2])
  | .neg, _, _, [v] => do return pureOp .sub ity [two, ← comp v]
  | .lshift, _, _, [v1, .num c] => do
    return addTag (pureOp .shl ity [stripTag (← comp v1), num c.ival])
  | .lshift, _, _, [.num c, v2] => do
    return addTag (pureOp .shl ity [num (c.ival + c.ival), untagUInt (← comp v2)])
  | .lshift, _, _, [v1, v2] => do
    return addTag (pureOp .shl ity [stripTag (← comp v1), untagUInt (← comp v2)])
  | .rshift, _, _, [v1, .num c] => do
    return orTag (pureOp .ashr ity [← comp v1, num c.ival])
  | .rshift, _, _, [v1, v2] => do
    return orTag (pureOp .ashr ity [← comp v1, untagUInt (← comp v2)])
  | .rshiftl, _, _, [v1, .num c] => do
    return orTag (pureOp .lshr ity [← comp v1, num c.ival])
  | .rshiftl, _, _, [v1, v2] => do
    return orTag (pureOp .lshr ity [← comp v1, untagUInt (← comp v2)])
  | .orb, _, _, [v1, v2] => do return pureOp .orb ity [← comp v1, ← comp v2]
  | .xorb, _, _, [.num c, v2] => do
    return pureOp .xorb ity [num (c.ival + c.ival), ← comp v2]
  | .xorb, _, _, [v1, .num c] => do
    return pureOp .xorb ity [← comp v1, num (c.ival + c.ival)]
  | .xorb, _, _, [v1, v2] => do
    return addTag (pureOp .xorb ity [← comp v1, ← comp v2])
  | .andb, _, _, [v1, v2] => do return pureOp .andb ity [← comp v1, ← comp v2]
  | .notb, _, sz, [v] => do
    -- ones for the bits of the number, and a zero for the tag
    let mask := 2 ^ (sz + 1) - 2
    return pureOp .xorb ity [← comp v, num mask]
  | .cntpop, _, _, [v] => do return tag (pureOp .cntpop ity [untagUInt (← comp v)])
  | .cntlz, _, sz, [v] => do
    if sz < Target.defaultIntSz then
      return tag (pureOp .sub ity [pureOp .cntlz ity [zExt sz ity (← comp v)],
        num (Target.defaultIntSz - sz)])
    else
      -- the tag does not change the number of leading zeros
      return tag (pureOp .cntlz ity [← comp v])
  | .cnttz, _, sz, [v] => do
    if sz < Target.defaultIntSz then
      return tag (pureOp .cnttz ity [pureOp .orb ity [num (2 ^ sz), untagUInt (← comp v)]])
    else
      -- the tag becomes the high-order bit, above the zeros
      return tag (pureOp .cnttz ity [pureOp .rotr ity [← comp v, one]])
  | _, _, _, _ => .error .impossible

def arith (oper : Prim.Arithop) : Prim.Arith := .arith oper ity

def continue_ (x : Lvar) (k : Exp → Supply Stm) (oper : Prim.Arithop) (args : List Exp) :
    Supply Stm := do
  return .arith (arith oper) args ⟨x, ity'⟩ (← k (.var x))

def tagResult (k : Exp → Supply Stm) (oper : Prim.Arithop) (args : List Exp) : Supply Stm := do
  let tmp ← mkLvar
  return .arith (arith oper) args ⟨tmp, ity'⟩ (← k (addTag (.var tmp)))

/-- A division.  It overflows only where its result is tagged again, so that the division itself
is a pure operation. -/
def divOp (k : Exp → Supply Stm) (oper : Prim.PureOp) (a b : Value) : Supply Stm := do
  let tmp1 ← mkLvar
  let tmp2 ← mkLvar
  let exp := pureOp oper ity [← divOperand comp true a, ← divOperand comp true b]
  return .letE exp ⟨tmp1, ity'⟩
    (.arith (arith .iadd) [.var tmp1, .var tmp1] ⟨tmp2, ity'⟩ (← k (addTag (.var tmp2))))

/-- **Arithmetic that may overflow**: the result goes to the rest of the code. -/
def trapping (rator : P.ArithOp) (args : List Value) (x : Lvar) (k : Exp → Supply Stm) :
    Supply Stm :=
  match rator, args with
  | .iadd, [.num c, b] => do continue_ x k .iadd [num (c.ival + c.ival), ← comp b]
  | .iadd, [a, .num c] => do continue_ x k .iadd [← comp a, num (c.ival + c.ival)]
  | .iadd, [a, b] => do continue_ x k .iadd [← comp a, stripTag (← comp b)]
  | .isub, [.num c, b] => do
    if c.ival = maxInt then
      continue_ x k .isub [num (c.ival + c.ival + 1), stripTag (← comp b)]
    else continue_ x k .isub [num (c.ival + c.ival + 2), ← comp b]
  | .isub, [a, .num c] => do continue_ x k .isub [← comp a, num (c.ival + c.ival)]
  | .isub, [a, b] => do tagResult k .isub [← comp a, ← comp b]
  | .imul, [.num m, .num n] => tagResult k .imul [num (m.ival + m.ival), num n.ival]
  | .imul, [.num c, b] => do tagResult k .imul [num (c.ival + c.ival), untagInt (← comp b)]
  | .imul, [a, .num c] => do tagResult k .imul [untagInt (← comp a), num (c.ival + c.ival)]
  | .imul, [a, b] => do tagResult k .imul [stripTag (← comp a), untagInt (← comp b)]
  | .iquot, [a, b] => divOp comp k .sdiv a b
  | .irem, [a, b] => divOp comp k .srem a b
  | .ineg, [a] => do continue_ x k .isub [two, ← comp a]
  | _, _ => impossible

end Translate

end TaggedArith

end SmlNj
