import SmlNj.Basics.RealLit

/-!
# The CPS intermediate representation

The syntax of the compiler's continuation-passing-style terms, shared by every
pass that is modelled over them.  Names of constructors are the source's, in
lower case.

Bit widths are naturals: the negative width that the front end uses for
arbitrary-precision integers does not occur in CPS terms.  A string is the list
of its bytes.

## Main definitions

* `Arith`, `Pure`, `Branch`, `Setter`, `Looker` — the primitive operators.
* `Value`, `AccessPath` — operands.
* `Cexp`, `Function` — terms.
* `Cluster` — a group of first-order functions.
-/

namespace SmlNj

abbrev SmlString := List UInt8

abbrev Lvar := ℕ

namespace CTypes

/-- The C integer types. -/
inductive CInt
  | char | short | int | long | longLong
  deriving DecidableEq, Inhabited

/-- The C types of a foreign prototype. -/
inductive CType
  | void | float | double | longDouble
  | unsigned (i : CInt) | signed (i : CInt)
  | ptr
  | array (elem : CType) (n : ℕ)
  | struct (fields : List CType)
  | union (fields : List CType)
  deriving Inhabited

/-- A prototype describing a C function. -/
structure CProto where
  conv : SmlString
  retTy : CType
  paramTys : List CType
  deriving Inhabited

end CTypes

namespace CPS

/-- The representation of a mixed record. -/
structure RecordRep where
  ptrLen : ℕ
  rawLen : ℕ
  deriving DecidableEq, Inhabited

/-- The purpose of a record, which also decides its layout. -/
inductive RecordKind
  | vector
  | record
  /-- The closure record of an escaping function. -/
  | escape
  /-- The closure record of a continuation. -/
  | cont
  /-- The closure record for unboxed 64-bit aligned data. -/
  | fcont
  /-- The closure record of a known function. -/
  | known
  /-- A record of pointers followed by raw words. -/
  | mixed (rep : RecordRep)
  | rawblock
  deriving DecidableEq, Inhabited

/-- What is known about the object behind a pointer. -/
inductive PKind
  | vpt
  | rpt (rep : RecordRep)
  deriving DecidableEq, Inhabited

/-- The kind of an integer: its size in bits, and whether it is tagged. -/
structure IntTy where
  sz : ℕ
  tag : Bool
  deriving DecidableEq, Inhabited

/-- The types of CPS variables. -/
inductive Cty
  | numt (ty : IntTy)
  | enumt
  | ptrt (pk : PKind)
  | funt
  | fltt (sz : ℕ)
  | cntt (tys : List Cty)
  deriving Inhabited

/-- `ptrTy`: a pointer to an unknown object. -/
def ptrTy : Cty := .ptrt .vpt

/-- `rPtrTy n`: a pointer to a record of `n` words. -/
def rPtrTy (n : ℕ) : Cty := .ptrt (.rpt ⟨n, 0⟩)

/-- `fPtrTy n`: a pointer to a raw block of `n` words. -/
def fPtrTy (n : ℕ) : Cty := .ptrt (.rpt ⟨0, n⟩)

/-! ### Primitive operators -/

namespace P

/-- The kinds of numbers, with their sizes in bits. -/
inductive NumKind
  | int (sz : ℕ) | uint (sz : ℕ) | float (sz : ℕ) | enum
  deriving DecidableEq, Inhabited

/-- Integer arithmetic that may overflow. -/
inductive ArithOp
  | iadd | isub | imul | idiv | imod | iquot | irem | ineg
  deriving DecidableEq, Inhabited

/-- Arithmetic that cannot overflow. -/
inductive PureOp
  | add | sub | mul | quot | rem | neg
  | lshift | rshift | rshiftl
  | orb | xorb | andb | notb
  | cntpop | cntlz | cnttz
  | rotl | rotr
  | fdiv | fabs | fsqrt | fceil | ffloor | fround | ftrunc
  deriving DecidableEq, Inhabited

/-- Comparison operators. -/
inductive CmpOp
  | gt | gte | lt | lte | eql | neq
  deriving DecidableEq, Inhabited

/-- Floating-point comparisons. -/
inductive FcmpOp
  | eq | ulg | un | leg | gt | ge | ugt | uge | lt | le | ult | ule | lg | ue
  deriving DecidableEq, Inhabited

/-- Two-way branches dependent on pure inputs. -/
inductive Branch
  | cmp (oper : CmpOp) (kind : NumKind)
  | fcmp (oper : FcmpOp) (size : ℕ)
  | fsgn (sz : ℕ)
  | isPow2 (sz : ℕ)
  | boxed | unboxed | peql | pneq
  | streql (s : SmlString)
  deriving DecidableEq, Inhabited

/-- The operators that update the store. -/
inductive Setter
  | numupdate (kind : NumKind)
  | unboxedupdate | update
  | unboxedassign | assign
  | sethdlr | setvar | setspecial
  | rawstore (kind : NumKind)
  | rawupdate (ty : Cty)
  deriving Inhabited

/-- The operators that fetch from the store. -/
inductive Looker
  | deref | subscript
  | numsubscript (kind : NumKind)
  | getspecial | gethdlr | getvar
  | rawload (kind : NumKind)
  deriving DecidableEq, Inhabited

/-- The operators that might raise an exception. -/
inductive Arith
  | iarith (oper : ArithOp) (sz : ℕ)
  | test (from_ to_ : ℕ)
  | testu (from_ to_ : ℕ)
  | testInf (to_ : ℕ)
  | realToInt (floor : Bool) (from_ to_ : ℕ)
  deriving DecidableEq, Inhabited

/-- The operators that neither raise exceptions nor access the store. -/
inductive Pure
  | pureArith (oper : PureOp) (kind : NumKind)
  | pureNumsubscript (kind : NumKind)
  | length | objlength | makeref
  | copy (from_ to_ : ℕ)
  | extend (from_ to_ : ℕ)
  | trunc (from_ to_ : ℕ)
  | copyInf (from_ : ℕ)
  | extendInf (from_ : ℕ)
  | truncInf (to_ : ℕ)
  | intToReal (from_ to_ : ℕ)
  | bitsToReal (sz : ℕ)
  | realToBits (sz : ℕ)
  | subscriptv
  | gettag | mkspecial | cast | getcon | getexn
  | box | unbox
  | wrap (kind : NumKind) | unwrap (kind : NumKind)
  | getseqdata | recsubscript | raw64subscript | newarray0
  | rawrecord (rk : Option RecordKind)
  deriving DecidableEq, Inhabited

end P

/-! ### Operands and terms -/

/-- An integer literal with its type. -/
structure IntConst where
  ival : ℤ
  ty : IntTy
  deriving DecidableEq, Inhabited

/-- A real literal with its size. -/
structure RealConst where
  rval : RealLit
  ty : ℕ
  deriving DecidableEq, Inhabited

/-- Operands. -/
inductive Value
  | var (x : Lvar)
  | label (l : Lvar)
  | num (n : IntConst)
  | enum (i : ℤ)
  | real (r : RealConst)
  | string (s : SmlString)
  | void
  deriving DecidableEq, Inhabited

/-- How the value of a record field is reached from its operand. -/
inductive AccessPath
  | offp (i : ℕ)
  | selp (i : ℕ) (p : AccessPath)
  deriving DecidableEq, Inhabited

/-- The kinds of functions. -/
inductive FunKind
  | cont
  | known
  | knownRec
  /-- A known function that needs a heap-limit check. -/
  | knownCheck
  | knownTail
  | knownCont
  | escape
  /-- A user function into which nothing is inlined. -/
  | noInlineInto
  deriving DecidableEq, Inhabited

mutual

/-- CPS terms. -/
inductive Cexp
  | record (rk : RecordKind) (fields : List (Value × AccessPath)) (x : Lvar) (e : Cexp)
  | select (i : ℕ) (v : Value) (x : Lvar) (ty : Cty) (e : Cexp)
  | offset (i : ℕ) (v : Value) (x : Lvar) (e : Cexp)
  | app (f : Value) (args : List Value)
  | fix (fns : List Function) (e : Cexp)
  | switch (v : Value) (id : Lvar) (cases : List Cexp)
  | branch (p : P.Branch) (args : List Value) (id : Lvar) (e1 e2 : Cexp)
  | setter (p : P.Setter) (args : List Value) (e : Cexp)
  | looker (p : P.Looker) (args : List Value) (x : Lvar) (ty : Cty) (e : Cexp)
  | arith (p : P.Arith) (args : List Value) (x : Lvar) (ty : Cty) (e : Cexp)
  | pure (p : P.Pure) (args : List Value) (x : Lvar) (ty : Cty) (e : Cexp)
  | rcc (reentrant : Bool) (linkage : SmlString) (proto : CTypes.CProto) (args : List Value)
      (results : List (Lvar × Cty)) (e : Cexp)

/-- A CPS function: its kind, name, parameters with their types, and body. -/
inductive Function
  | mk (kind : FunKind) (name : Lvar) (params : List Lvar) (tys : List Cty) (body : Cexp)

end

namespace Function

def kind : Function → FunKind
  | mk k _ _ _ _ => k

def name : Function → Lvar
  | mk _ f _ _ _ => f

def params : Function → List Lvar
  | mk _ _ xs _ _ => xs

def tys : Function → List Cty
  | mk _ _ _ ts _ => ts

def body : Function → Cexp
  | mk _ _ _ _ e => e

@[simp] theorem name_mk (k : FunKind) (f : Lvar) (xs : List Lvar) (ts : List Cty) (e : Cexp) :
    (mk k f xs ts e).name = f := rfl

@[simp] theorem kind_mk (k : FunKind) (f : Lvar) (xs : List Lvar) (ts : List Cty) (e : Cexp) :
    (mk k f xs ts e).kind = k := rfl

@[simp] theorem params_mk (k : FunKind) (f : Lvar) (xs : List Lvar) (ts : List Cty)
    (e : Cexp) : (mk k f xs ts e).params = xs := rfl

@[simp] theorem tys_mk (k : FunKind) (f : Lvar) (xs : List Lvar) (ts : List Cty) (e : Cexp) :
    (mk k f xs ts e).tys = ts := rfl

@[simp] theorem body_mk (k : FunKind) (f : Lvar) (xs : List Lvar) (ts : List Cty) (e : Cexp) :
    (mk k f xs ts e).body = e := rfl

end Function

end CPS

end SmlNj
