import SmlNj.CPS.Numbers

/-!
# Lambda terms, and the inline expansion of numeric operators

The part of the front end's lambda language that the inline expansion of numeric operations
produces, without its types, and what its terms evaluate to.

A number is held in a register as a sequence of bits: numbers that are smaller than a default
integer are held in a register for default integers.  The sequence is a natural number here.  A
function is only applied where it is written, so that no term evaluates to one.  Evaluation is
stuck where the source leaves the meaning open, as for a division primitive whose divisor is zero.

The translation to lambda terms of the division operators of integers and words, with their tests
for the divisors zero and minus one, of the shifts by any amount, and of the operators that count
bits, compare two numbers or take an absolute value.  Names for variables come from a counter.

## Main definitions

* `Lexp` — terms.
* `Value`, `Fault` — what terms evaluate to, and why they do not.
* `eval` — evaluation.
* `mkInlineOps` — the inline operations and constants of a numeric kind.
* `inldiv`, `inlmod` — the division and modulo operators with their tests.
* `inlineLogicalShift`, `inlArithmeticShiftRight` — the shifts with their tests.
* `inlPopCount`, `inlCntLZ`, `inlCntTZ`, `inlCeilLog2` — counting bits.
* `inlminmax`, `inlabs` — minimum, maximum and absolute value.
* `trans` — the translation of a primitive operator.
* `divide`, `operate` — the operators of the Basis library.
-/

namespace SmlNj

namespace PLambda

open CPS

/-- The primitive operators of numbers. -/
inductive Prim
  | arith (oper : P.ArithOp) (sz : ℕ)
  | pure (oper : P.PureOp) (kind : P.NumKind)
  | cmp (oper : P.CmpOp) (kind : P.NumKind)
  | copy (fromSz toSz : ℕ)
  deriving DecidableEq

/-- A numeric literal with its size. -/
structure IntConst where
  ival : ℤ
  ty : ℕ
  deriving DecidableEq

abbrev ExnPath := List String

/-- Terms. -/
inductive Lexp
  | var (x : Lvar)
  | int (n : IntConst)
  | word (n : IntConst)
  /-- The constructor of an exception of the core environment, applied. -/
  | exn (path : ExnPath)
  | fn (x : Lvar) (body : Lexp)
  | letE (x : Lvar) (rhs body : Lexp)
  | app (rator rand : Lexp)
  | record (fields : List Lexp)
  | select (i : ℕ) (e : Lexp)
  | prim (p : Prim)
  /-- `SWITCH` on the two constructors of truth values, whose variables nothing uses. -/
  | cond (arg true' false' : Lexp)
  | raise (e : Lexp)

/-- What terms evaluate to. -/
inductive Value
  | num (bits : ℕ)
  | bool (b : Bool)
  | exn (path : ExnPath)
  | record (fields : List Value)

/-- Why a term has no value. -/
inductive Fault
  | raised (path : ExnPath)
  | stuck
  deriving DecidableEq

/-! ### Numbers -/

def regSz (sz : ℕ) : ℕ := if sz ≤ Target.defaultIntSz then Target.defaultIntSz else sz

/-- The bits of a register of size `w` that holds an integer. -/
def encode (w : ℕ) (i : ℤ) : ℕ := (i % 2 ^ w).toNat

/-- The integer that a register of size `w` holds. -/
def signed (w bits : ℕ) : ℤ := if bits < 2 ^ (w - 1) then bits else bits - 2 ^ w

def overflowExn : ExnPath := ["Assembly", "Overflow"]

def checked (w : ℕ) (i : ℤ) : Except Fault Value :=
  if -2 ^ (w - 1) ≤ i ∧ i < 2 ^ (w - 1) then .ok (.num (encode w i))
  else .error (.raised overflowExn)

/-- A trapping operation on integers. -/
def evalArith (w : ℕ) : P.ArithOp → List ℤ → Except Fault Value
  | .iadd, [i, j] => checked w (i + j)
  | .isub, [i, j] => checked w (i - j)
  | .imul, [i, j] => checked w (i * j)
  | .idiv, [i, j] => if j = 0 then .error .stuck else checked w (i.fdiv j)
  | .imod, [i, j] => if j = 0 then .error .stuck else checked w (i.fmod j)
  | .iquot, [i, j] => if j = 0 then .error .stuck else checked w (i.tdiv j)
  | .irem, [i, j] => if j = 0 then .error .stuck else checked w (i.tmod j)
  | .ineg, [i] => checked w (-i)
  | _, _ => .error .stuck

/-- An operation on words that cannot overflow. -/
def evalPure (w : ℕ) : P.PureOp → List ℕ → Except Fault Value
  | .add, [i, j] => .ok (.num (encode w (i + j)))
  | .sub, [i, j] => .ok (.num (encode w (i - j)))
  | .mul, [i, j] => .ok (.num (encode w (i * j)))
  | .quot, [i, j] => if j = 0 then .error .stuck else .ok (.num (i / j))
  | .rem, [i, j] => if j = 0 then .error .stuck else .ok (.num (i % j))
  | .neg, [i] => .ok (.num (encode w (-i)))
  | _, _ => .error .stuck

def numOf (sz bits : ℕ) : CPS.Num := if sz < Target.mlValueSz then .tagged bits else .native bits

/-- A numeric operator of the target that neither traps nor accesses the store. -/
def evalNum (p : P.Pure) (bits : List ℕ) : Except Fault Value :=
  match ContractPrim.sizes p with
  | some (szs, _) => match execPureNum p (List.zipWith numOf szs bits) with
    | some d => .ok (.num d.toWord.toNat)
    | none => .error .stuck
  | none => .error .stuck

/-- An operation on words of a size: arithmetic, or an operation on their bits. -/
def evalWord (sz : ℕ) (oper : P.PureOp) (bits : List ℕ) : Except Fault Value :=
  match oper with
  | .lshift | .rshift | .rshiftl | .andb | .notb | .cntpop | .cntlz | .cnttz =>
    evalNum (.pureArith oper (.uint sz)) bits
  | _ => evalPure (regSz sz) oper bits

/-- A comparison. -/
def evalCmp (i j : ℤ) : P.CmpOp → Bool
  | .gt => i > j
  | .gte => i ≥ j
  | .lt => i < j
  | .lte => i ≤ j
  | .eql => i = j
  | .neq => i ≠ j

def operands : Value → Option (List ℕ)
  | .num i => some [i]
  | .record [.num i, .num j] => some [i, j]
  | _ => none

/-- The application of a primitive. -/
def evalPrim (p : Prim) (arg : Value) : Except Fault Value :=
  match p, operands arg with
  | .arith oper sz, some bits => evalArith (regSz sz) oper (bits.map (signed (regSz sz)))
  | .pure oper (.uint sz), some bits => evalWord sz oper bits
  | .pure oper (.int sz), some bits => evalNum (.pureArith oper (.int sz)) bits
  | .cmp oper (.int sz), some [i, j] =>
    .ok (.bool (evalCmp (signed (regSz sz) i) (signed (regSz sz) j) oper))
  | .cmp oper (.uint _), some [i, j] => .ok (.bool (evalCmp i j oper))
  | .copy fromSz toSz, some bits => evalNum (.copy fromSz toSz) bits
  | _, _ => .error .stuck

/-! ### Evaluation -/

abbrev Env := Lvar → Option Value

def Env.bind (ρ : Env) (x : Lvar) (v : Value) : Env := fun y => if y = x then some v else ρ y

mutual

/-- **The value of a term.** -/
@[grind =] def eval (ρ : Env) : Lexp → Except Fault Value
  | .var x => match ρ x with
    | some v => .ok v
    | none => .error .stuck
  | .int n => .ok (.num (encode (regSz n.ty) n.ival))
  | .word n => .ok (.num (encode (regSz n.ty) n.ival))
  | .exn path => .ok (.exn path)
  | .fn _ _ => .error .stuck
  | .letE x rhs body => do eval (ρ.bind x (← eval ρ rhs)) body
  | .app (.prim p) rand => do evalPrim p (← eval ρ rand)
  | .app (.fn x body) rand => do eval (ρ.bind x (← eval ρ rand)) body
  | .app _ _ => .error .stuck
  | .record fields => do return .record (← evalFields ρ fields)
  | .select i e => do
    match ← eval ρ e with
    | .record vs => match vs[i]? with
      | some v => .ok v
      | none => .error .stuck
    | _ => .error .stuck
  | .prim _ => .error .stuck
  | .cond arg t f => do
    match ← eval ρ arg with
    | .bool true => eval ρ t
    | .bool false => eval ρ f
    | _ => .error .stuck
  | .raise e => do
    match ← eval ρ e with
    | .exn path => .error (.raised path)
    | _ => .error .stuck

@[grind =] def evalFields (ρ : Env) : List Lexp → Except Fault (List Value)
  | [] => .ok []
  | e :: es => do return (← eval ρ e) :: (← evalFields ρ es)

end

end PLambda

/-! ## The inline expansion of numeric operators -/

namespace TransPrim

open CPS hiding Value Env
open PLambda

/-- The operators that are expanded. -/
inductive InlineOp
  | div (kind : P.NumKind)
  | mod (kind : P.NumKind)
  | quot (kind : P.NumKind)
  | rem (kind : P.NumKind)
  | lshift (sz : ℕ)
  | rshift (sz : ℕ)
  | rshiftl (sz : ℕ)
  | cntz (sz : ℕ)
  | cnto (sz : ℕ)
  | cntlz (sz : ℕ)
  | cntlo (sz : ℕ)
  | cnttz (sz : ℕ)
  | cntto (sz : ℕ)
  /-- The logarithm to base two, rounded up. -/
  | ceilLog2 (sz : ℕ)
  | min (kind : P.NumKind)
  | max (kind : P.NumKind)
  | abs (kind : P.NumKind)
  deriving DecidableEq

abbrev Gen := StateT Lvar (Except Exn)

def mkv : Gen Lvar := do
  let x ← get
  set (x + 1)
  return x

def mkFn (body : Lexp → Gen Lexp) : Gen Lexp := do
  let x ← mkv
  return .fn x (← body (.var x))

def mkLet (rhs : Lexp) (body : Lexp → Gen Lexp) : Gen Lexp := do
  let x ← mkv
  return .letE x rhs (← body (.var x))

def mkApp2 (rator x y : Lexp) : Lexp := .app rator (.record [x, y])

def mkCOND (a b c : Lexp) : Lexp := .cond a b c

def pPURE (p : P.PureOp) (kind : P.NumKind) : Lexp := .prim (.pure p kind)

def pCMP (tst : P.CmpOp) (kind : P.NumKind) : Lexp := .prim (.cmp tst kind)

def pINT (n sz : ℕ) : Lexp := .int ⟨n, sz⟩

def pSUBU : Lexp := pPURE .sub (.uint Target.defaultIntSz)

def promote (fromSz : ℕ) (arg : Lexp) : Lexp := .app (.prim (.copy fromSz Target.defaultIntSz)) arg

/-- Inline operations and constants for a numeric kind. -/
structure InlineOps where
  negate : Lexp
  less : Lexp
  greater : Lexp
  equal : Lexp
  zero : Lexp
  negOne : Lexp

/-- The inline operations and constants of an integer or word kind. -/
def mkInlineOps (nk : P.NumKind) : Except Exn InlineOps :=
  match nk with
  | .int sz => .ok
    { negate := .prim (.arith .ineg sz)
      less := pCMP .lt nk
      greater := pCMP .gt nk
      equal := pCMP .eql nk
      zero := .int ⟨0, sz⟩
      negOne := .int ⟨-1, sz⟩ }
  | .uint sz => .ok
    { negate := .prim (.pure .neg nk)
      less := pCMP .lt nk
      greater := pCMP .gt nk
      equal := pCMP .eql nk
      zero := .word ⟨0, sz⟩
      negOne := .word ⟨-1, sz⟩ }
  | .float _ | .enum => .error .impossible

/-! ### Shifts -/

def rshiftOp (kind : P.NumKind) : Lexp := pPURE .rshift kind

def rshiftlOp (kind : P.NumKind) : Lexp := pPURE .rshiftl kind

def lshiftOp (kind : P.NumKind) : Lexp := pPURE .lshift kind

def lword0 (sz : ℕ) : Lexp := .word ⟨0, sz⟩

def lword (n : ℕ) : Lexp := .word ⟨n, Target.defaultIntSz⟩

def cmpShiftAmt : Lexp := pCMP .lte (.uint Target.defaultIntSz)

/-- **A logical shift**, right or left, with a check of its amount. -/
def inlineLogicalShift (shiftOp : P.NumKind → Lexp) (sz : ℕ) : Gen Lexp :=
  let kind := .uint sz
  let shiftLimit := lword sz
  mkFn fun p =>
    mkLet (.select 0 p) fun w =>
      mkLet (.select 1 p) fun cnt =>
        return mkCOND (mkApp2 cmpShiftAmt shiftLimit cnt) (lword0 sz) (mkApp2 (shiftOp kind) w cnt)

/-- **An arithmetic shift to the right**, with a check of its amount.  A word that is smaller than a
default one is shifted to the left first, to get the sign bit right, and at the end to the right
with zeros. -/
def inlArithmeticShiftRight (sz : ℕ) : Gen Lexp :=
  let kind := .uint sz
  let shiftLimit := lword sz
  let shiftWidth := lword Target.defaultIntSz
  if sz < Target.defaultIntSz then
    let delta := Target.defaultIntSz - sz
    let delta' := lword delta
    let wordKind := .uint Target.defaultIntSz
    mkFn fun p =>
      mkLet (.select 0 p) fun w =>
        mkLet (.select 1 p) fun cnt =>
          mkLet (mkApp2 (lshiftOp wordKind) w delta') fun w' =>
            return mkCOND (mkApp2 cmpShiftAmt shiftLimit cnt)
              (mkApp2 (rshiftlOp wordKind) (mkApp2 (rshiftOp wordKind) w' shiftWidth) delta')
              (mkApp2 (rshiftlOp wordKind) (mkApp2 (rshiftOp wordKind) w' cnt) delta')
  else
    mkFn fun p =>
      mkLet (.select 0 p) fun w =>
        mkLet (.select 1 p) fun cnt =>
          return mkCOND (mkApp2 cmpShiftAmt shiftLimit cnt)
            (mkApp2 (rshiftOp kind) w shiftWidth)
            (mkApp2 (rshiftOp kind) w cnt)

def inlPopCount (sz : ℕ) (w : Lexp) : Lexp :=
  let count (w : Lexp) (sz : ℕ) : Lexp := .app (pPURE .cntpop (.uint sz)) w
  if sz < Target.defaultIntSz then count (promote sz w) Target.defaultIntSz else count w sz

def inlCntLZ (sz : ℕ) (w : Lexp) : Lexp := .app (pPURE .cntlz (.uint sz)) w

def inlCntTZ (sz : ℕ) (w : Lexp) : Lexp := .app (pPURE .cnttz (.uint sz)) w

def notb (sz : ℕ) (w : Lexp) : Lexp := .app (pPURE .notb (.uint sz)) w

/-- **The logarithm of `x`**, rounded up, from the leading zeros of `x - 1`. -/
def inlCeilLog2 (sz : ℕ) : Gen Lexp :=
  let (sz', argCopy) :=
    -- smaller integer types are promoted to the default size
    if sz < Target.defaultIntSz then (Target.defaultIntSz, promote sz) else (sz, id)
  let k := .uint sz'
  mkFn fun w =>
    return mkApp2 pSUBU (pINT sz' Target.defaultIntSz)
      (.app (pPURE .cntlz k) (mkApp2 (pPURE .sub k) (argCopy w) (.int ⟨1, sz'⟩)))

/-- **The minimum or maximum.** -/
def inlminmax (nk : P.NumKind) (ismax : Bool) : Gen Lexp := do
  let ops ← mkInlineOps nk
  let cmpop := if ismax then ops.greater else ops.less
  mkFn fun z =>
    mkLet (.select 0 z) fun x =>
      mkLet (.select 1 z) fun y =>
        return mkCOND (mkApp2 cmpop x y) x
          (match nk with
            -- testing for NaN
            | .float _ => mkCOND (mkApp2 (pCMP .eql nk) y y) y x
            | _ => y)

/-- **The absolute value of an integer.** -/
def inlabs (nk : P.NumKind) : Gen Lexp := do
  let ops ← mkInlineOps nk
  mkFn fun x => return mkCOND (mkApp2 ops.greater x ops.zero) x (.app ops.negate x)

/-! ### Divisions -/

def divExn : ExnPath := ["Assembly", "Div"]

section

-- the access to the exceptions of the core environment, which its own files do not have
variable (coreExn : ExnPath → Option Lexp)

/-- Division operators with an explicit test for zero and minus one divisors. -/
def inldiv (nk : P.NumKind) (po : Prim) : Gen Lexp := do
  let oper := Lexp.prim po
  match coreExn divExn with
  | some exn => do
    let ops ← mkInlineOps nk
    mkFn fun z =>
      mkLet (.select 1 z) fun y =>
        return mkCOND (mkApp2 ops.equal y ops.zero) (.raise exn)
          (mkCOND (mkApp2 ops.equal y ops.negOne)
            -- `x / ~1` is `~ x`, to get `Overflow` for the least integer
            (.app ops.negate (.select 0 z))
            (.app oper z))
  | none => return oper

/-- Modulo operators with explicit tests for zero and minus one divisors. -/
def inlmod (nk : P.NumKind) (po : Prim) : Gen Lexp := do
  let oper := Lexp.prim po
  match coreExn divExn with
  | some exn => do
    let ops ← mkInlineOps nk
    mkFn fun z =>
      mkLet (.select 1 z) fun y =>
        return mkCOND (mkApp2 ops.equal y ops.zero) (.raise exn)
          (mkCOND (mkApp2 ops.equal y ops.negOne) ops.zero (.app oper z))
  | none => return oper

/-- **The translation of an operator.** -/
def trans : InlineOp → Gen Lexp
  | .div (.int sz) => inldiv coreExn (.int sz) (.arith .idiv sz)
  | .mod (.int sz) => inlmod coreExn (.int sz) (.arith .imod sz)
  | .quot (.int sz) => inldiv coreExn (.int sz) (.arith .iquot sz)
  | .quot k => inldiv coreExn k (.pure .quot k)
  | .rem (.int sz) => inlmod coreExn (.int sz) (.arith .irem sz)
  | .rem k => inlmod coreExn k (.pure .rem k)
  | .lshift sz => inlineLogicalShift lshiftOp sz
  | .rshift sz => inlArithmeticShiftRight sz
  | .rshiftl sz => inlineLogicalShift rshiftlOp sz
  | .cntz sz => mkFn fun w =>
    return mkApp2 (pPURE .sub (.int Target.defaultIntSz)) (pINT sz Target.defaultIntSz)
      (inlPopCount sz w)
  | .cnto sz => mkFn fun w => return inlPopCount sz w
  | .cntlz sz => mkFn fun w => return inlCntLZ sz w
  | .cntlo sz => mkFn fun w => return inlCntLZ sz (notb sz w)
  | .cnttz sz => mkFn fun w => return inlCntTZ sz w
  | .cntto sz => mkFn fun w => return inlCntTZ sz (notb sz w)
  | .ceilLog2 sz => inlCeilLog2 sz
  | .min k => inlminmax k false
  | .max k => inlminmax k true
  | .abs k => inlabs k
  | _ => throw .impossible

end

/-- The access to the exceptions of the core environment in every other file. -/
def coreExn (path : ExnPath) : Option Lexp := some (.exn path)

/-- The application of a translated operator to two numbers, in their registers.  The variable zero
stands for the operands. -/
def apply (p : InlineOp) (x y : ℕ) : Except Fault Value :=
  match (trans coreExn p).run 1 with
  | .ok (e, _) => eval (Env.bind (fun _ => none) 0 (.record [.num x, .num y])) (.app e (.var 0))
  | .error _ => .error .stuck

def applyTo (p : InlineOp) (arg : Value) : Except Fault Value :=
  match (trans coreExn p).run 1 with
  | .ok (e, _) => eval (Env.bind (fun _ => none) 0 arg) (.app e (.var 0))
  | .error _ => .error .stuck

/-- The check of the result of an operator on integers that are smaller than their registers. -/
def i32chk (sz : ℕ) (res : Except Fault Value) : Except Fault Value := do
  match ← res with
  | .num bits =>
    let i := signed (regSz sz) bits
    if i < -2 ^ (sz - 1) ∨ 2 ^ (sz - 1) - 1 < i then .error (.raised overflowExn)
    else .ok (.num bits)
  | _ => .error .stuck

/-- The result of a quotient of integers, which is checked if they are smaller than their
registers. -/
def checkedResult (sz : ℕ) (res : Except Fault Value) : Except Fault Value :=
  if sz < regSz sz then i32chk sz res else res

/-- **A division operator of the Basis library.** -/
def divide : InlineOp → ℕ → ℕ → Except Fault Value
  | .div (.int sz), x, y => checkedResult sz (apply (.div (.int sz)) x y)
  | .quot (.int sz), x, y => checkedResult sz (apply (.quot (.int sz)) x y)
  | p, x, y => apply p x y

def w8adapt (sz : ℕ) (res : Except Fault Value) : Except Fault Value := do
  evalPrim (.pure .andb (.uint sz)) (.record [← res, .num (2 ^ sz - 1)])

/-- **The operators of the Basis library that are not divisions.**  The result of a shift to the
left of words that are smaller than their registers is clamped. -/
def operate : InlineOp → Value → Except Fault Value
  | .lshift sz, arg =>
    if sz < regSz sz then w8adapt sz (applyTo (.lshift sz) arg) else applyTo (.lshift sz) arg
  | .abs (.int sz), arg => checkedResult sz (applyTo (.abs (.int sz)) arg)
  | p, arg => applyTo p arg

end TransPrim

end SmlNj
