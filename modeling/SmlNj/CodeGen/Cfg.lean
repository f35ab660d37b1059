import SmlNj.CPS.Syntax

/-!
# The control-flow graphs of the code generator

The syntax of the intermediate representation that CPS terms are translated to.  Its numbers are
machine words: a tagged number `n` has become the word `2 * n + 1`.

## Main definitions

* `Prim.PureOp`, `Prim.Pure`, `Prim.Arith`, `Prim.Branch`, … — the primitive operators.
* `Exp`, `Stm` — expressions, and the statements of a fragment.
-/

namespace SmlNj.CFG

namespace Prim

inductive Numkind
  | int | flt
  deriving DecidableEq, Inhabited

/-- A field of a raw record; its size is in bits. -/
structure RawTy where
  kind : Numkind
  sz : ℕ
  deriving DecidableEq, Inhabited

/-- Allocation. -/
inductive Alloc
  | special
  | record (desc : ℤ) (isMut : Bool)
  | rawRecord (desc : ℤ) (align : ℕ) (fields : List RawTy)
  | rawAlloc (desc : Option ℤ) (align len : ℕ)
  deriving DecidableEq, Inhabited

/-- Arithmetic that may overflow. -/
inductive Arithop
  | iadd | isub | imul | idiv | irem
  deriving DecidableEq, Inhabited

/-- Rounding modes of conversions. -/
inductive RoundingMode
  | toNearest | toNeginf | toPosinf | toZero
  deriving DecidableEq, Inhabited

/-- The operators that may trap. -/
inductive Arith
  | arith (oper : Arithop) (sz : ℕ)
  | floatToInt (mode : RoundingMode) (from_ to_ : ℕ)
  deriving DecidableEq, Inhabited

/-- Arithmetic that does not overflow; signed and unsigned divisions are told apart. -/
inductive PureOp
  | add | sub | mul
  | sdiv | srem
  | udiv | urem
  | shl | ashr | lshr
  | orb | xorb | andb
  | cntpop | cntlz | cnttz
  | rotl | rotr
  | fadd | fsub | fmul | fdiv | frem
  | fmadd
  | fneg | fabs | fcopysign
  | fsqrt
  | fceil | ffloor | fround | ftrunc
  deriving DecidableEq, Inhabited

/-- The operators that neither trap nor access the store. -/
inductive Pure
  | pureArith (oper : PureOp) (sz : ℕ)
  | extend (signed : Bool) (from_ to_ : ℕ)
  | trunc (from_ to_ : ℕ)
  | intToFloat (from_ to_ : ℕ)
  | floatToBits (sz : ℕ)
  | bitsToFloat (sz : ℕ)
  | pureSubscript
  | pureRawSubscript (kind : Numkind) (sz : ℕ)
  | rawSelect (kind : Numkind) (sz offset : ℕ)
  deriving DecidableEq, Inhabited

/-- The operators that fetch from the store. -/
inductive Looker
  | deref
  | subscript
  | rawSubscript (kind : Numkind) (sz : ℕ)
  | rawLoad (kind : Numkind) (sz : ℕ)
  | getHdlr
  | getVar
  deriving DecidableEq, Inhabited

/-- The operators that update the store. -/
inductive Setter
  | unboxedUpdate | update
  | unboxedAssign | assign
  | rawUpdate (kind : Numkind) (sz : ℕ)
  | rawStore (kind : Numkind) (sz : ℕ)
  | setHdlr
  | setVar
  deriving DecidableEq, Inhabited

/-- Two-way branches dependent on pure inputs. -/
inductive Branch
  | cmp (oper : CPS.P.CmpOp) (signed : Bool) (sz : ℕ)
  | fcmp (oper : CPS.P.FcmpOp) (sz : ℕ)
  | fsgn (sz : ℕ)
  | peql | pneq
  | limit (w : ℕ)
  deriving DecidableEq, Inhabited

end Prim

/-- The types of variables. -/
inductive Ty
  | labt | ptrt | tagt
  | numt (sz : ℕ)
  | fltt (sz : ℕ)
  deriving DecidableEq, Inhabited

/-- A parameter of a fragment, or a variable that a statement binds. -/
structure Param where
  name : Lvar
  ty : Ty
  deriving DecidableEq, Inhabited

/-- Branch probabilities in thousandths; zero where there is no information. -/
abbrev Probability := ℕ

/-- Expressions. -/
inductive Exp
  | var (name : Lvar)
  | label (name : Lvar)
  | num (iv : ℤ) (sz : ℕ)
  | looker (oper : Prim.Looker) (args : List Exp)
  | pure (oper : Prim.Pure) (args : List Exp)
  | select (idx : ℕ) (arg : Exp)
  deriving Inhabited

/-- Statements. -/
inductive Stm
  | letE (e : Exp) (x : Param) (k : Stm)
  | alloc (p : Prim.Alloc) (args : List Exp) (x : Lvar) (k : Stm)
  | apply (f : Exp) (args : List Exp) (tys : List Ty)
  | throw (f : Exp) (args : List Exp) (tys : List Ty)
  | goto (lab : Lvar) (args : List Exp)
  | switch (e : Exp) (cases : List Stm)
  | branch (p : Prim.Branch) (args : List Exp) (prob : Probability) (k1 k2 : Stm)
  | arith (p : Prim.Arith) (args : List Exp) (x : Param) (k : Stm)
  | setter (p : Prim.Setter) (args : List Exp) (k : Stm)
  | callgc (roots : List Exp) (newRoots : List Lvar) (k : Stm)
  | rcc (reentrant : Bool) (linkage : SmlString) (proto : CTypes.CProto) (cfn : Exp)
      (args : List Exp) (results live : List Param) (k : Stm)
  deriving Inhabited

/-- The kinds of fragments. -/
inductive FragKind
  | stdFun | stdCont | knownFun | internal
  deriving DecidableEq, Inhabited

/-- An extended basic block. -/
structure Frag where
  kind : FragKind
  lab : Lvar
  params : List Param
  body : Stm
  deriving Inhabited

/-- The attributes of a cluster. -/
structure Attrs where
  alignHP : ℕ
  needsBasePtr : Bool
  hasTrapArith : Bool
  hasRCC : Bool
  deriving DecidableEq, Inhabited

/-- A maximal flow graph where every known call is to a fragment of the cluster. -/
structure Cluster where
  attrs : Attrs
  frags : List Frag
  deriving Inhabited

end SmlNj.CFG
