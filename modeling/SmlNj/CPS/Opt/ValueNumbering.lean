import SmlNj.Basics.LambdaVar

/-!
# Value numbering

The elimination of redundant computations from CPS terms.  A walk over the term
carries a renaming of variables, a map from the expressions that are available
to the variables that hold them, and the history of the branches taken; an
expression that is available is dropped and its variable renamed, and a test
whose outcome the history tells is replaced by the branch it takes.

The map is keyed by an ordering of expressions.  Each class of operators is
ordered by the position of its clause in the comparison, then by its operands;
`*Codes` list those numbers.

## Main definitions

* `AvailValue` — the expressions that can be available.
* `cmpAvailVal` — their ordering, the key of `AVMap`.
* `xform` — the walk; `transform` — the pass.
-/

namespace SmlNj.ValueNumbering

open CPS

/-- The expressions that can be available. -/
inductive AvailValue
  | record (rk : RecordKind) (fields : List (Value × AccessPath))
  | select (i : ℕ) (v : Value)
  | arith (p : P.Arith) (args : List Value)
  | pure (p : P.Pure) (args : List Value)
  deriving DecidableEq, Inhabited

/-- A test that was made, with its outcome. -/
inductive Branch
  | switch (v : Value) (n : ℕ)
  | branch (p : P.Branch) (args : List Value) (b : Bool)
  deriving DecidableEq, Inhabited

/-! ### Operator comparisons -/

def andThen (o f : Except Exn Ordering) : Except Exn Ordering :=
  match o with
  | .ok .eq => f
  | _ => o

@[grind =] def cmpList {α : Type} (cmp : α → α → Except Exn Ordering) :
    List α → List α → Except Exn Ordering
  | [], [] => .ok .eq
  | [], _ => .ok .lt
  | _, [] => .ok .gt
  | x :: xs, y :: ys => andThen (cmp x y) (cmpList cmp xs ys)

def cmpCode (c1 c2 : ℕ) : Except Exn Ordering := .ok (compare c1 c2)

def cmpCodes : List ℕ → List ℕ → Except Exn Ordering := cmpList cmpCode

def numKindCodes : P.NumKind → List ℕ
  | .int n => [0, n]
  | .uint n => [1, n]
  | .float n => [2, n]
  | .enum => [3]

def recordKindCode : RecordKind → Except Exn ℕ
  | .vector => .ok 0
  | .record => .ok 1
  | .escape => .ok 2
  | .cont => .ok 3
  | .fcont => .ok 4
  | .known => .ok 5
  | .mixed _ => .error .fail
  | .rawblock => .ok 6

def cmpRecordKind (rk1 rk2 : RecordKind) : Except Exn Ordering :=
  match recordKindCode rk1, recordKindCode rk2 with
  | .ok c1, .ok c2 => cmpCode c1 c2
  | .error e, _ => .error e
  | _, .error e => .error e

def arithOpCode : P.ArithOp → ℕ
  | .iadd => 0
  | .isub => 1
  | .imul => 2
  | .idiv => 3
  | .imod => 4
  | .iquot => 5
  | .irem => 6
  | .ineg => 7

def arithCodes : P.Arith → List ℕ
  | .iarith oper sz => [0, arithOpCode oper, sz]
  | .test n p => [1, n, p]
  | .testu n p => [2, n, p]
  | .testInf p => [3, p]
  | .realToInt floor n p => [4, floor.toNat, n, p]

def cmpArith (p q : P.Arith) : Except Exn Ordering := cmpCodes (arithCodes p) (arithCodes q)

def pureOpCode : P.PureOp → ℕ
  | .add => 0
  | .sub => 1
  | .mul => 2
  | .quot => 3
  | .rem => 4
  | .neg => 5
  | .lshift => 6
  | .rshift => 7
  | .rshiftl => 8
  | .orb => 9
  | .xorb => 10
  | .andb => 11
  | .notb => 12
  | .cntpop => 13
  | .cntlz => 14
  | .cnttz => 15
  | .rotl => 17
  | .rotr => 18
  | .fdiv => 19
  | .fabs => 20
  | .fsqrt => 21
  | .fceil => 22
  | .ffloor => 23
  | .fround => 24
  | .ftrunc => 25

def pureCodes : P.Pure → List ℕ
  | .pureArith oper kind => 0 :: pureOpCode oper :: numKindCodes kind
  | .pureNumsubscript kind => 1 :: numKindCodes kind
  | .length => [2]
  | .objlength => [3]
  | .makeref => [4]
  | .copy n p => [5, n, p]
  | .extend n p => [6, n, p]
  | .trunc n p => [7, n, p]
  | .copyInf n => [8, n]
  | .extendInf n => [9, n]
  | .truncInf n => [10, n]
  | .intToReal n p => [11, n, p]
  | .bitsToReal sz => [12, sz]
  | .realToBits sz => [13, sz]
  | .subscriptv => [14]
  | .gettag => [15]
  | .mkspecial => [16]
  | .cast => [17]
  | .getcon => [18]
  | .getexn => [19]
  | .box => [20]
  | .unbox => [21]
  | .wrap kind => 22 :: numKindCodes kind
  | .unwrap kind => 23 :: numKindCodes kind
  | .getseqdata => [24]
  | .recsubscript => [25]
  | .raw64subscript => [26]
  | .newarray0 => [27]
  | .rawrecord none => [28]
  | .rawrecord (some _) => [29]

def cmpPure (p q : P.Pure) : Except Exn Ordering :=
  match p, q with
  | .rawrecord (some rk1), .rawrecord (some rk2) => cmpRecordKind rk1 rk2
  | p, q => cmpCodes (pureCodes p) (pureCodes q)

def cmpTy (ty1 ty2 : IntTy) : Except Exn Ordering :=
  if ty1.tag = ty2.tag then cmpCode ty1.sz ty2.sz
  else if ty1.tag then .ok .gt
  else .ok .lt

/-- The ordering of operands; it does not expect two of `VOID` and `LABEL`. -/
def cmpValue : Value → Value → Except Exn Ordering
  | .var x1, .var x2 => cmpCode x1 x2
  | .var _, _ => .ok .lt
  | _, .var _ => .ok .gt
  | .num n1, .num n2 => andThen (.ok (compare n1.ival n2.ival)) (cmpTy n1.ty n2.ty)
  | .num _, _ => .ok .lt
  | _, .num _ => .ok .gt
  | .enum i1, .enum i2 => .ok (compare i1 i2)
  | .enum _, _ => .ok .lt
  | _, .enum _ => .ok .gt
  | .real r1, .real r2 => andThen (.ok (RealLit.compare r1.rval r2.rval)) (cmpCode r1.ty r2.ty)
  | .real _, _ => .ok .lt
  | _, .real _ => .ok .gt
  | .string s1, .string s2 => cmpCodes (s1.map UInt8.toNat) (s2.map UInt8.toNat)
  | .string _, _ => .ok .lt
  | _, .string _ => .ok .gt
  | _, _ => .error .impossible

def cmpValues : List Value → List Value → Except Exn Ordering := cmpList cmpValue

@[grind =] def sameValue : Value → Value → Bool
  | .var x1, .var x2 => x1 == x2
  | .label l1, .label l2 => l1 == l2
  | .num n1, .num n2 => n1.ty.sz == n2.ty.sz && n1.ival == n2.ival && n1.ty.tag == n2.ty.tag
  | .enum i1, .enum i2 => i1 == i2
  | .real r1, .real r2 => r1.ty == r2.ty && RealLit.same r1.rval r2.rval
  | .string s1, .string s2 => s1 == s2
  | _, _ => false

def cmpAccess : AccessPath → AccessPath → Except Exn Ordering
  | .offp n1, .offp n2 => cmpCode n1 n2
  | .offp _, _ => .ok .lt
  | _, .offp _ => .ok .gt
  | .selp n1 ap1, .selp n2 ap2 => andThen (cmpCode n1 n2) (cmpAccess ap1 ap2)

def cmpField (f1 f2 : Value × AccessPath) : Except Exn Ordering :=
  andThen (cmpValue f1.1 f2.1) (cmpAccess f1.2 f2.2)

/-- The ordering of available expressions. -/
def cmpAvailVal : AvailValue → AvailValue → Except Exn Ordering
  | .record rk1 flds1, .record rk2 flds2 =>
      andThen (cmpRecordKind rk1 rk2) (cmpList cmpField flds1 flds2)
  | .record _ _, _ => .ok .lt
  | _, .record _ _ => .ok .gt
  | .select i1 v1, .select i2 v2 => andThen (cmpCode i1 i2) (cmpValue v1 v2)
  | .select _ _, _ => .ok .lt
  | _, .select _ _ => .ok .gt
  | .arith op1 vs1, .arith op2 vs2 => andThen (cmpArith op1 op2) (cmpValues vs1 vs2)
  | .arith _ _, _ => .ok .lt
  | _, .arith _ _ => .ok .gt
  | .pure op1 vs1, .pure op2 vs2 => andThen (cmpPure op1 op2) (cmpValues vs1 vs2)

/-- Search the branch history for a matching switch. -/
def matchSwitch (bh : List Branch) : Value → Option ℕ
  | .var x =>
      bh.findSome? fun
        | .switch (.var y) n => if x = y then some n else none
        | _ => none
  | _ => none

def allEq : List Value → List Value → Bool
  | [], [] => true
  | v :: vs, w :: ws => sameValue v w && allEq vs ws
  | _, _ => false

/-- Search the branch history for a matching branch.  The equality of tests is that of their
representation. -/
def matchBranch (bh : List Branch) (tst : P.Branch) (vs : List Value) : Option Bool :=
  bh.findSome? fun
    | .branch tst' vs' b => if tst = tst' ∧ allEq vs vs' then some b else none
    | _ => none

abbrev Rename := List (Lvar × Lvar)

def rename (rn : Rename) (x : Lvar) : Lvar := (rn.lookup x).getD x

def rnValue (rn : Rename) : Value → Value
  | .var x => .var (rename rn x)
  | v => v

def rnField (rn : Rename) (f : Value × AccessPath) : Value × AccessPath := (rnValue rn f.1, f.2)

abbrev AVMap := List (AvailValue × Lvar)

def AVMap.find : AVMap → AvailValue → Except Exn (Option Lvar)
  | [], _ => .ok none
  | (k, y) :: m, av =>
      match cmpAvailVal av k with
      | .ok .eq => .ok (some y)
      | .ok _ => AVMap.find m av
      | .error e => .error e

def AVMap.insert : AVMap → AvailValue → Lvar → Except Exn AVMap
  | [], av, x => .ok [(av, x)]
  | (k, y) :: m, av, x =>
      match cmpAvailVal av k with
      | .ok .eq => .ok ((av, x) :: m)
      | .ok _ => (AVMap.insert m av x).map fun m => (k, y) :: m
      | .error e => .error e

/-! ### The pass -/

/-- The control flags of the pass. -/
structure Flags where
  condElim : Bool
  recordElim : Bool
  selectElim : Bool
  primElim : Bool
  deriving DecidableEq

def findAvail (enabled : Bool) (avail : AVMap) (av : AvailValue) : Except Exn (Option Lvar) :=
  if enabled then avail.find av else .ok none

mutual

/-- **The transformation of a term**, under a renaming map, the map from available values to the
variables that hold them, and the branch history. -/
@[grind =] def xform (fl : Flags) (rn : Rename) (avail : AVMap) (bh : List Branch) :
    Cexp → Except Exn Cexp
  | .record rk flds x k => do
      let flds' := flds.map (rnField rn)
      let av := .record rk flds'
      match ← findAvail fl.recordElim avail av with
      | some y => xform fl ((x, y) :: rn) avail bh k
      | none => do
          let avail ← avail.insert av x
          let k ← xform fl rn avail bh k
          .ok (.record rk flds' x k)
  | .select n v x cty k => do
      let v' := rnValue rn v
      let av := .select n v'
      match ← findAvail fl.selectElim avail av with
      | some y => xform fl ((x, y) :: rn) avail bh k
      | none => do
          let avail ← avail.insert av x
          let k ← xform fl rn avail bh k
          .ok (.select n v' x cty k)
  | .offset .. => .error .impossible
  | .app f args => .ok (.app (rnValue rn f) (args.map (rnValue rn)))
  | .fix fbs k => do
      let fbs ← xformFuns fl rn avail bh fbs
      let k ← xform fl rn avail bh k
      .ok (.fix fbs k)
  | .switch arg id cases =>
      let arg' := rnValue rn arg
      match if fl.condElim then matchSwitch bh arg' else none with
      | some n => xformNth fl rn avail bh cases n
      | none => do
          let cases ← xformCases fl rn avail bh arg' 0 cases
          .ok (.switch arg' id cases)
  | .branch tst args id trueK falseK =>
      let args' := args.map (rnValue rn)
      match if fl.condElim then matchBranch bh tst args' else none with
      | some true => xform fl rn avail bh trueK
      | some false => xform fl rn avail bh falseK
      | none => do
          let trueK ← xform fl rn avail (.branch tst args' true :: bh) trueK
          let falseK ← xform fl rn avail (.branch tst args' false :: bh) falseK
          .ok (.branch tst args' id trueK falseK)
  | .setter rator args k => do
      let k ← xform fl rn avail bh k
      .ok (.setter rator (args.map (rnValue rn)) k)
  | .looker rator args x cty k => do
      let k ← xform fl rn avail bh k
      .ok (.looker rator (args.map (rnValue rn)) x cty k)
  | .arith rator args x cty k => do
      let args' := args.map (rnValue rn)
      let av := .arith rator args'
      match ← findAvail fl.primElim avail av with
      | some y => xform fl ((x, y) :: rn) avail bh k
      | none => do
          let avail ← avail.insert av x
          let k ← xform fl rn avail bh k
          .ok (.arith rator args' x cty k)
  | .pure rator args x cty k =>
      let args' := args.map (rnValue rn)
      match rator with
      | .makeref | .newarray0 | .mkspecial | .rawrecord _ => do
          let k ← xform fl rn avail bh k
          .ok (.pure rator args' x cty k)
      | _ => do
          let av := .pure rator args'
          match ← findAvail fl.primElim avail av with
          | some y => xform fl ((x, y) :: rn) avail bh k
          | none => do
              let avail ← avail.insert av x
              let k ← xform fl rn avail bh k
              .ok (.pure rator args' x cty k)
  | .rcc re cc ty args tys k => do
      let k ← xform fl rn avail bh k
      .ok (.rcc re cc ty (args.map (rnValue rn)) tys k)

/-- The transformation of the cases of a `SWITCH` on `arg'`, the first of which is case `i`. -/
def xformCases (fl : Flags) (rn : Rename) (avail : AVMap) (bh : List Branch) (arg' : Value)
    (i : ℕ) : List Cexp → Except Exn (List Cexp)
  | [] => .ok []
  | ce :: ces => do
      let ce ← xform fl rn avail (.switch arg' i :: bh) ce
      let ces ← xformCases fl rn avail bh arg' (i + 1) ces
      .ok (ce :: ces)

/-- The transformation of one case, selected by its index. -/
@[grind =] def xformNth (fl : Flags) (rn : Rename) (avail : AVMap) (bh : List Branch) :
    List Cexp → ℕ → Except Exn Cexp
  | [], _ => .error .subscript
  | ce :: _, 0 => xform fl rn avail bh ce
  | _ :: ces, n + 1 => xformNth fl rn avail bh ces n

/-- The transformation of the functions of a `FIX`. -/
def xformFuns (fl : Flags) (rn : Rename) (avail : AVMap) (bh : List Branch) :
    List Function → Except Exn (List Function)
  | [] => .ok []
  | f :: fs => do
      let f ← xformFun fl rn avail bh f
      let fs ← xformFuns fl rn avail bh fs
      .ok (f :: fs)

/-- The transformation of a function. -/
def xformFun (fl : Flags) (rn : Rename) (avail : AVMap) (bh : List Branch) :
    Function → Except Exn Function
  | .mk fk f xs ctys body => do
      let body ← xform fl rn avail bh body
      .ok (.mk fk f xs ctys body)

end

attribute [simp] xform xformCases xformNth xformFuns xformFun

/-- **Redundant-computation elimination.** -/
def transform (fl : Flags) (function : Function) : Except Exn Function :=
  xformFun fl [] [] [] function

end SmlNj.ValueNumbering
