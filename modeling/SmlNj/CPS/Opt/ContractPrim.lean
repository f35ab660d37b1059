import SmlNj.Library.ConstArith

/-!
# Contraction of primitive operations

The rewriting of one primitive application at a time, in the light of its
constant operands and of what is known about its variable operands.  Each
operator has its own definition, whose cases are the source's rules in the
source's order; `arith`, `pure` and `branch` dispatch to them.

A rule may raise an exception while it computes a constant.  `arith` turns every
such exception into "no contraction"; `pure` lets it escape.
-/

namespace SmlNj.ContractPrim

open CPS

/-- What is known about the binding of a variable. -/
inductive Info
  | fnInfo
  | recInfo (rk : RecordKind) (fields : List (Value × AccessPath))
  | selInfo (i : ℕ) (v : Value) (ty : Cty)
  | arithInfo (p : P.Arith) (args : List Value)
  | pureInfo (p : P.Pure) (args : List Value)
  | ifIdiomInfo
  | miscInfo (ty : Cty)

abbrev GetInfo := Lvar → Info

/-- The result of contracting a primitive application. -/
inductive Result
  | none
  | val (v : Value)
  /-- Strength reduction to an arithmetic operation. -/
  | arith (p : P.Arith) (args : List Value)
  /-- Strength reduction to a pure operation. -/
  | pure (p : P.Pure) (args : List Value)
  deriving DecidableEq, Inhabited

def tagInt (n : ℤ) : Value := .num ⟨n, ⟨Target.defaultIntSz, true⟩⟩

/-- The size of an integer kind. -/
def sizeOfKind : P.NumKind → Except Exn ℕ
  | .int sz => .ok sz
  | .uint sz => .ok sz
  | .float _ => .error .impossible
  | .enum => .error .impossible

def mkNum (sz : ℕ) (ival : ℤ) : Value :=
  if sz ≤ Target.defaultIntSz then .num ⟨ival, ⟨Target.defaultIntSz, true⟩⟩
  else .num ⟨ival, ⟨sz, false⟩⟩

/-- The exponent of a power of two. -/
def log2 (n : ℤ) : Option ℕ :=
  if n > 0 then
    let k := n.toNat.log2
    if (2 : ℤ) ^ k = n then some k else none
  else none

def lshift (sz : ℕ) : P.Pure := .pureArith .lshift (.uint sz)

def rshift (sz : ℕ) : P.Pure := .pureArith .rshift (.int sz)

def rshiftl (sz : ℕ) : P.Pure := .pureArith .rshiftl (.uint sz)

def andb (sz : ℕ) : P.Pure := .pureArith .andb (.uint sz)

def mulByConst (sz : ℕ) (v : Value) (ival : ℤ) : Result :=
  match log2 ival with
  | some k => .pure (lshift sz) [v, tagInt k]
  | none => .none

/-- A `COPY` conversion, or its argument when it is the identity. -/
def mkCOPY (from_ to_ : ℕ) (arg : Value) : Result :=
  if from_ = to_ then .val arg else .pure (.copy from_ to_) [arg]

/-- An expression that is sure to raise `Overflow`. -/
def raiseOvflw : Result :=
  let maxInt : Value := .num ⟨2 ^ (Target.mlValueSz - 1) - 1, ⟨Target.mlValueSz, false⟩⟩
  .arith (.iarith .iadd Target.mlValueSz) [maxInt, maxInt]

def fold (r : Except Exn ℤ) (ty : IntTy) : Except Exn Result :=
  r.map fun n => .val (.num ⟨n, ty⟩)

/-- `r handle Overflow => alt`. -/
def handleOverflow (r : Except Exn Result) (alt : Result) : Except Exn Result :=
  match r with
  | .error .overflow => .ok alt
  | _ => r

/-! ### Integer arithmetic that may overflow -/

def iadd (sz : ℕ) : List Value → Except Exn Result
  | [.num ⟨0, _⟩, v] => .ok (.val v)
  | [v, .num ⟨0, _⟩] => .ok (.val v)
  | [.num i, .num j] => fold (ConstArith.sAdd sz i.ival j.ival) i.ty
  | _ => .ok .none

def isub (sz : ℕ) : List Value → Except Exn Result
  | [v, .num ⟨0, _⟩] => .ok (.val v)
  | [.num i, .num j] => fold (ConstArith.sSub sz i.ival j.ival) i.ty
  | _ => .ok .none

def imul (sz : ℕ) : List Value → Except Exn Result
  | .num ⟨1, _⟩ :: v :: _ => .ok (.val v)
  | v :: .num ⟨1, _⟩ :: _ => .ok (.val v)
  | .num ⟨0, ty⟩ :: _ => .ok (.val (.num ⟨0, ty⟩))
  | _ :: .num ⟨0, ty⟩ :: _ => .ok (.val (.num ⟨0, ty⟩))
  | .num i :: .num j :: _ => fold (ConstArith.sMul sz i.ival j.ival) i.ty
  | .num ⟨-1, _⟩ :: v :: _ => .ok (.arith (.iarith .ineg sz) [v])
  | v :: .num ⟨-1, _⟩ :: _ => .ok (.arith (.iarith .ineg sz) [v])
  | .num ⟨2, _⟩ :: v :: _ => .ok (.arith (.iarith .iadd sz) [v, v])
  | v :: .num ⟨2, _⟩ :: _ => .ok (.arith (.iarith .iadd sz) [v, v])
  | _ => .ok .none

def idiv (sz : ℕ) : List Value → Except Exn Result
  | v :: .num ⟨1, _⟩ :: _ => .ok (.val v)
  | _ :: .num ⟨0, _⟩ :: _ => .ok .none
  | .num i :: .num j :: _ =>
      handleOverflow (fold (ConstArith.sDiv sz i.ival j.ival) i.ty) raiseOvflw
  | v :: .num ⟨-1, _⟩ :: _ => .ok (.arith (.iarith .ineg sz) [v])
  | v :: .num j :: _ =>
      match log2 j.ival with
      | some k => .ok (.pure (rshift sz) [v, tagInt k])
      | none => .ok .none
  | _ => .ok .none

def imod (sz : ℕ) : List Value → Except Exn Result
  | .num i :: .num j :: _ => fold (ConstArith.sMod sz i.ival j.ival) i.ty
  | v :: .num j :: _ =>
      match log2 j.ival with
      | some _ => .ok (.pure (andb sz) [v, mkNum sz (j.ival - 1)])
      | none => .ok .none
  | _ => .ok .none

def iquot (sz : ℕ) : List Value → Except Exn Result
  | v :: .num ⟨1, _⟩ :: _ => .ok (.val v)
  | _ :: .num ⟨0, _⟩ :: _ => .ok .none
  | .num i :: .num j :: _ =>
      handleOverflow (fold (ConstArith.sQuot sz i.ival j.ival) i.ty) raiseOvflw
  | v :: .num ⟨-1, _⟩ :: _ => .ok (.arith (.iarith .ineg sz) [v])
  | _ => .ok .none

def irem (sz : ℕ) : List Value → Except Exn Result
  | .num i :: .num j :: _ => fold (ConstArith.sRem sz i.ival j.ival) i.ty
  | _ => .ok .none

def ineg (sz : ℕ) : List Value → Except Exn Result
  | [.num i] => fold (ConstArith.sNeg sz i.ival) i.ty
  | _ => .ok .none

/-- The rules for trapping integer arithmetic. -/
def iarith (oper : P.ArithOp) (sz : ℕ) (args : List Value) : Except Exn Result :=
  match oper with
  | .iadd => iadd sz args
  | .isub => isub sz args
  | .imul => imul sz args
  | .idiv => idiv sz args
  | .imod => imod sz args
  | .iquot => iquot sz args
  | .irem => irem sz args
  | .ineg => ineg sz args

/-- `TEST`; its optional second argument is the conversion function of 32-bit targets. -/
def test (get : GetInfo) (n p : ℕ) : List Value → Except Exn Result
  | v :: _ =>
      if n = p then .ok (.val v)
      else match v with
        | .num i =>
            (ConstArith.sNarrow p (ConstArith.toSigned n i.ival)).map fun ival' =>
              .val (mkNum p ival')
        | .var x =>
            match get x with
            | .arithInfo (.test m _) args => .ok (.arith (.test m p) args)
            | .arithInfo (.testInf _) [u, f] => .ok (.arith (.testInf p) [u, f])
            | .pureInfo (.copy m _) [u] =>
                if p ≥ m then .ok (mkCOPY m p u) else .ok (.arith (.test m p) [u])
            | .pureInfo (.extend m _) [u] =>
                if p ≥ m then .ok (.pure (.extend m p) [u]) else .ok (.arith (.test m p) [u])
            | _ => .ok .none
        | _ => .error .impossible
  | _ => .ok .none

/-- `TESTU`, which is not the identity when the sizes agree. -/
def testu (get : GetInfo) (from_ p : ℕ) : List Value → Except Exn Result
  | .num i :: _ =>
      (ConstArith.sNarrow p (ConstArith.toUnsigned from_ i.ival)).map fun n =>
        .val (mkNum p n)
  | .var v :: _ =>
      match get v with
      | .arithInfo (.testu m _) [u] => .ok (.arith (.testu m p) [u])
      | .pureInfo (.copy m _) [u] =>
          if p > m then .ok (mkCOPY m p u) else .ok (.arith (.testu m p) [u])
      | .pureInfo (.extend m _) [u] =>
          if p ≥ m then .ok (.pure (.extend m p) [u]) else .ok (.arith (.testu m p) [u])
      | _ => .ok .none
  | _ => .ok .none

/-- `TEST_INF`; its second argument is the `testInf` function. -/
def testInf (get : GetInfo) (p : ℕ) : List Value → Except Exn Result
  | .var v :: _ =>
      match get v with
      | .pureInfo (.copyInf m) (u :: _) =>
          if p ≥ m then .ok (mkCOPY m p u) else .ok (.arith (.test m p) [u])
      | .pureInfo (.extendInf m) (u :: _) =>
          if p ≥ m then .ok (.pure (.extend m p) [u]) else .ok (.arith (.test m p) [u])
      | _ => .ok .none
  | _ => .ok .none

/-- **The contraction of operations that may raise an exception.** -/
def arith (get : GetInfo) (p : P.Arith) (args : List Value) : Result :=
  let r := match p with
    | .iarith oper sz => iarith oper sz args
    | .test n p => test get n p args
    | .testu n p => testu get n p args
    | .testInf p => testInf get p args
    | .realToInt .. => .ok .none
  match r with
  | .ok r => r
  | .error _ => .none

/-! ### Pure arithmetic -/

def add : P.NumKind → List Value → Except Exn Result
  | _, [.num ⟨0, _⟩, v] => .ok (.val v)
  | _, [v, .num ⟨0, _⟩] => .ok (.val v)
  | .uint sz, [.num i, .num j] => fold (.ok (ConstArith.uAdd sz i.ival j.ival)) i.ty
  | _, _ => .ok .none

def sub : P.NumKind → List Value → Except Exn Result
  | _, [v, .num ⟨0, _⟩] => .ok (.val v)
  | .uint sz, [.num i, .num j] => fold (.ok (ConstArith.uSub sz i.ival j.ival)) i.ty
  | _, _ => .ok .none

def mul : P.NumKind → List Value → Except Exn Result
  | _, .num ⟨1, _⟩ :: v :: _ => .ok (.val v)
  | _, v :: .num ⟨1, _⟩ :: _ => .ok (.val v)
  | _, .num ⟨0, ty⟩ :: _ => .ok (.val (.num ⟨0, ty⟩))
  | _, _ :: .num ⟨0, ty⟩ :: _ => .ok (.val (.num ⟨0, ty⟩))
  | .uint sz, .num i :: .num j :: _ => fold (.ok (ConstArith.uMul sz i.ival j.ival)) i.ty
  | .int sz, .num i :: v :: _ => .ok (mulByConst sz v i.ival)
  | .int sz, v :: .num i :: _ => .ok (mulByConst sz v i.ival)
  | .uint sz, .num i :: v :: _ => .ok (mulByConst sz v i.ival)
  | .uint sz, v :: .num i :: _ => .ok (mulByConst sz v i.ival)
  | _, _ => .ok .none

def quot : P.NumKind → List Value → Except Exn Result
  | _, v :: .num ⟨1, _⟩ :: _ => .ok (.val v)
  | kind, v :: .num ⟨-1, _⟩ :: _ => .ok (.pure (.pureArith .neg kind) [v])
  | _, _ :: .num ⟨0, _⟩ :: _ => .ok .none
  | .uint sz, .num i :: .num j :: _ => fold (ConstArith.uDiv sz i.ival j.ival) i.ty
  | .uint sz, v :: .num j :: _ =>
      match log2 j.ival with
      | some k => .ok (.pure (rshiftl sz) [v, tagInt k])
      | none => .ok .none
  | _, _ => .ok .none

def rem : P.NumKind → List Value → Except Exn Result
  | _, _ :: .num ⟨1, ty⟩ :: _ => .ok (.val (.num ⟨0, ty⟩))
  | _, _ :: .num ⟨0, _⟩ :: _ => .ok .none
  | .uint sz, .num i :: .num j :: _ => fold (ConstArith.uMod sz i.ival j.ival) i.ty
  | .uint sz, v :: .num j :: _ =>
      match log2 j.ival with
      | some k => if k < sz then .ok (.pure (andb sz) [v, mkNum sz (j.ival - 1)]) else .ok .none
      | none => .ok .none
  | _, _ => .ok .none

def neg : P.NumKind → List Value → Except Exn Result
  | .uint sz, [.num i] => fold (.ok (ConstArith.uNeg sz i.ival)) i.ty
  | _, _ => .ok .none

def lshiftOp : P.NumKind → List Value → Except Exn Result
  | _, [.num ⟨0, ty⟩, _] => .ok (.val (.num ⟨0, ty⟩))
  | _, [v, .num ⟨0, _⟩] => .ok (.val v)
  | .int sz, [.num i, .num j] =>
      handleOverflow (fold (ConstArith.sShL sz i.ival j.ival) i.ty) .none
  | .uint sz, [.num i, .num j] => fold (.ok (ConstArith.uShL sz i.ival j.ival)) i.ty
  | _, _ => .ok .none

def rshiftOp : P.NumKind → List Value → Except Exn Result
  | _, [.num ⟨0, ty⟩, _] => .ok (.val (.num ⟨0, ty⟩))
  | _, [v, .num ⟨0, _⟩] => .ok (.val v)
  | .int sz, [.num i, .num j] => fold (ConstArith.sShR sz i.ival j.ival) i.ty
  | .uint sz, [.num i, .num j] =>
      -- sign extension needs a signed literal, and back again
      fold ((ConstArith.sShR sz (ConstArith.toSigned sz i.ival) j.ival).map
        (ConstArith.toUnsigned sz)) i.ty
  | _, _ => .ok .none

def rshiftlOp : P.NumKind → List Value → Except Exn Result
  | _, [.num ⟨0, ty⟩, _] => .ok (.val (.num ⟨0, ty⟩))
  | _, [v, .num ⟨0, _⟩] => .ok (.val v)
  | .uint sz, [.num i, .num j] => fold (.ok (ConstArith.uShR sz i.ival j.ival)) i.ty
  | _, _ => .ok .none

/-- `ORB` and `XORB`, which have the same identity. -/
def orLike (f : ℕ → ℤ → ℤ → ℤ) : P.NumKind → List Value → Except Exn Result
  | _, [.num ⟨0, _⟩, v] => .ok (.val v)
  | _, [v, .num ⟨0, _⟩] => .ok (.val v)
  | kind, [.num i, .num j] =>
      fold ((sizeOfKind kind).map fun sz => f sz i.ival j.ival) i.ty
  | _, _ => .ok .none

def orb : P.NumKind → List Value → Except Exn Result := orLike ConstArith.bOr

def xorb : P.NumKind → List Value → Except Exn Result := orLike ConstArith.bXor

def andbOp : P.NumKind → List Value → Except Exn Result
  | _, [.num ⟨0, ty⟩, _] => .ok (.val (.num ⟨0, ty⟩))
  | _, [_, .num ⟨0, ty⟩] => .ok (.val (.num ⟨0, ty⟩))
  | kind, [.num i, .num j] =>
      fold ((sizeOfKind kind).map fun sz => ConstArith.bAnd sz i.ival j.ival) i.ty
  | _, _ => .ok .none

def notb : P.NumKind → List Value → Except Exn Result
  | kind, [.num i] => fold ((sizeOfKind kind).map fun sz => ConstArith.bNot sz i.ival) i.ty
  | _, _ => .ok .none

/-- The reduction of a constant rotation amount, shared by `ROTL` and `ROTR`. -/
def rotateBy (oper : P.PureOp) (sz : ℕ) (v : Value) (ival : ℤ) : Except Exn Result :=
  if sz = 0 then .error .div
  else
    let n := ival % sz
    if n = 0 then .ok (.val v)
    else if (sz : ℤ) ≠ n then .ok (.pure (.pureArith oper (.uint sz)) [v, tagInt n])
    else .ok .none

def rotl : P.NumKind → List Value → Except Exn Result
  | kind, [.num n, .num m] =>
      fold ((sizeOfKind kind).map fun sz => ConstArith.bRotateL sz n.ival m.ival) n.ty
  | _, [.num ⟨0, ty⟩, _] => .ok (.val (.num ⟨0, ty⟩))
  | .uint sz, [v, .num i] => rotateBy .rotl sz v i.ival
  | _, _ => .ok .none

def rotr : P.NumKind → List Value → Except Exn Result
  | _, [.num ⟨0, ty⟩, _] => .ok (.val (.num ⟨0, ty⟩))
  | .uint sz, [v, .num i] => rotateBy .rotr sz v i.ival
  | kind, [.num n, .num m] =>
      fold ((sizeOfKind kind).map fun sz => ConstArith.bRotateR sz n.ival m.ival) n.ty
  | _, _ => .ok .none

/-- The rules for pure arithmetic. -/
def pureArith (oper : P.PureOp) (kind : P.NumKind) (args : List Value) : Except Exn Result :=
  match oper with
  | .add => add kind args
  | .sub => sub kind args
  | .mul => mul kind args
  | .quot => quot kind args
  | .rem => rem kind args
  | .neg => neg kind args
  | .lshift => lshiftOp kind args
  | .rshift => rshiftOp kind args
  | .rshiftl => rshiftlOp kind args
  | .orb => orb kind args
  | .xorb => xorb kind args
  | .andb => andbOp kind args
  | .notb => notb kind args
  | .rotl => rotl kind args
  | .rotr => rotr kind args
  | _ => .ok .none

/-! ### Pure conversions -/

def copy (get : GetInfo) (n p : ℕ) : List Value → Except Exn Result
  | [v] =>
      if n = p then .ok (.val v)
      else match v with
        | .num i => .ok (.val (mkNum p i.ival))
        | .var x =>
            match get x with
            | .pureInfo (.copy m _) [u] => .ok (mkCOPY m p u)
            | _ => .ok .none
        | _ => .error .impossible
  | _ => .ok .none

def extend (get : GetInfo) (n p : ℕ) : List Value → Except Exn Result
  | [v] =>
      if n = p then .ok (.val v)
      else match v with
        | .num i =>
            if i.ival > 0 ∧ Int.land (2 ^ (n - 1)) i.ival ≠ 0 then
              .ok (.val (mkNum p (i.ival - 2 ^ n)))
            else .ok (.val (mkNum p i.ival))
        | .var x =>
            match get x with
            | .pureInfo (.extend m _) arg => .ok (.pure (.extend m p) arg)
            | .pureInfo (.copy m n) [u] => if n > m then .ok (mkCOPY m p u) else .ok .none
            | _ => .ok .none
        | _ => .error .impossible
  | _ => .ok .none

def trunc (get : GetInfo) (n p : ℕ) : List Value → Except Exn Result
  | [v] =>
      if n = p then .ok (.val v)
      else match v with
        | .num i => .ok (.val (mkNum p (Int.land (2 ^ p - 1) i.ival)))
        | .var x =>
            match get x with
            | .pureInfo (.trunc m _) arg => .ok (.pure (.trunc m p) arg)
            | .pureInfo (.truncInf _) arg => .ok (.pure (.truncInf p) arg)
            | .pureInfo (.copy m _) [u] =>
                if p ≥ m then .ok (mkCOPY m p u) else .ok (.pure (.trunc m p) [u])
            | .pureInfo (.extend m _) arg =>
                if p ≥ m then .ok (.pure (.extend m p) arg) else .ok (.pure (.trunc m p) arg)
            | _ => .ok .none
        | _ => .error .impossible
  | _ => .ok .none

def copyInf (get : GetInfo) : List Value → Except Exn Result
  | [.var v, f] =>
      match get v with
      | .pureInfo (.copy m _) [u] => .ok (.pure (.copyInf m) [u, f])
      | _ => .ok .none
  | _ => .ok .none

def extendInf (get : GetInfo) (n : ℕ) : List Value → Except Exn Result
  | [.var v, f] =>
      match get v with
      | .pureInfo (.extend m _) [u] => .ok (.pure (.extendInf m) [u, f])
      | .pureInfo (.copy m _) [u] =>
          if m < n then .ok (.pure (.copyInf m) [u, f]) else .ok (.pure (.extendInf m) [u, f])
      | _ => .ok .none
  | _ => .ok .none

def truncInf (get : GetInfo) (p : ℕ) : List Value → Except Exn Result
  | [.var v, _] =>
      match get v with
      | .pureInfo (.copyInf m) [u, _] =>
          if p ≥ m then .ok (mkCOPY m p u) else .ok (.pure (.trunc m p) [u])
      | .pureInfo (.extendInf m) [u, _] =>
          if p ≥ m then .ok (.pure (.extend m p) [u]) else .ok (.pure (.trunc m p) [u])
      | _ => .ok .none
  | _ => .ok .none

/-! ### Other pure operators -/

/-- `PURE_NUMSUBSCRIPT` on a literal string. -/
def pureNumsubscript : List Value → Except Exn Result
  | [.string s, .num i] =>
      if 0 ≤ i.ival ∧ i.ival < s.length then
        .ok (.val (.num ⟨(s.getD i.ival.toNat 0).toNat, ⟨8, true⟩⟩))
      else .error .subscript
  | _ => .ok .none

/-- The cancellation of an operator by its inverse, where `inverse` recognises the inner
operator. -/
def cancel (get : GetInfo) (inverse : P.Pure → Except Exn Bool) : List Value →
    Except Exn Result
  | [.var v] =>
      match get v with
      | .pureInfo p [u] => (inverse p).map fun b => if b then .val u else .none
      | _ => .ok .none
  | _ => .ok .none

/-- `WRAP` of an `UNWRAP` of the same kind; a conflict of sizes is a compiler bug. -/
def sameKind (k k' : P.NumKind) : Except Exn Bool :=
  match k, k' with
  | .int sz, .int sz' => if sz = sz' then .ok true else .error .impossible
  | .float sz, .float sz' => if sz = sz' then .ok true else .error .impossible
  | _, _ => .ok false

section

variable (fromInt : ℤ → RealLit) (toBits : RealLit → List UInt8)

def bytesToInt (bv : List UInt8) : ℤ := bv.foldl (fun w b => w * 256 + b.toNat) 0

def realToBits (get : GetInfo) (sz : ℕ) : List Value → Except Exn Result
  | [.real r] => if sz = 64 then .ok (.val (mkNum 64 (bytesToInt (toBits r.rval)))) else .ok .none
  | args => cancel get (fun p => .ok (p matches .bitsToReal _)) args

/-- **The contraction of pure operations.** `fromInt` and `toBits` convert between integers,
real literals and the bytes of 64-bit reals. -/
@[grind =] def pure (get : GetInfo) (p : P.Pure) (args : List Value) : Except Exn Result :=
  match p with
  | .pureArith oper kind => pureArith oper kind args
  | .pureNumsubscript _ => pureNumsubscript args
  | .copy n p => copy get n p args
  | .extend n p => extend get n p args
  | .trunc n p => trunc get n p args
  | .copyInf _ => copyInf get args
  | .extendInf n => extendInf get n args
  | .truncInf p => truncInf get p args
  | .length =>
      match args with
      | [.string s] => .ok (.val (tagInt s.length))
      | _ => .ok .none
  | .intToReal _ to_ =>
      match args with
      | [.num i] => .ok (.val (.real ⟨fromInt i.ival, to_⟩))
      | _ => .ok .none
  | .bitsToReal _ => cancel get (fun p => .ok (p matches .realToBits _)) args
  | .realToBits sz => realToBits toBits get sz args
  | .box => cancel get (fun p => .ok (p matches .unbox)) args
  | .unbox => cancel get (fun p => .ok (p matches .box)) args
  | .wrap k =>
      cancel get (fun p => match p with | .unwrap k' => sameKind k k' | _ => .ok false) args
  | .unwrap k =>
      cancel get (fun p => match p with | .wrap k' => sameKind k k' | _ => .ok false) args
  | _ => .ok .none

end

/-! ### Tests -/

@[grind =] def boxed (get : GetInfo) : List Value → Option Bool
  | [.num i] => some !i.ty.tag
  | [.enum _] => some false
  | [.string _] => some true
  | [.var x] =>
      match get x with
      | .recInfo _ _ => some true
      | .pureInfo .mkspecial _ => some true
      | .pureInfo .box _ => some true
      | .pureInfo (.wrap _) _ => some true
      | _ => none
  | _ => none

def isPow2 : List Value → Option Bool
  | [.num i] => some (i.ival ≠ 0 ∧ Int.land i.ival (i.ival - 1) = 0)
  | _ => none

def less (get : GetInfo) : P.NumKind → List Value → Option Bool
  | _, [.var x, .var y] => if x = y then some false else none
  | .int sz, [.num i, .num j] =>
      some (ConstArith.toSigned sz i.ival < ConstArith.toSigned sz j.ival)
  | .uint sz, [.num i, .num j] => some (ConstArith.uLess sz i.ival j.ival)
  | .enum, [.enum i, .enum j] => some (i < j)
  | .uint _, [_, .num ⟨0, _⟩] => some false
  | .uint _, [.var x, .num ⟨256, _⟩] =>
      -- this might be a conversion of a byte to a character
      match get x with
      | .pureInfo (.copy 8 p) [_] => if p > 8 then some true else none
      | _ => none
  | _, _ => none

def lessEq : P.NumKind → List Value → Option Bool
  | _, [.var x, .var y] => if x = y then some true else none
  | .int sz, [.num i, .num j] =>
      some (ConstArith.toSigned sz i.ival ≤ ConstArith.toSigned sz j.ival)
  | .uint sz, [.num i, .num j] => some (ConstArith.uLessEq sz i.ival j.ival)
  | .enum, [.enum i, .enum j] => some (i ≤ j)
  | .uint _, [.num ⟨0, _⟩, _] => some true
  | _, _ => none

def equal : P.NumKind → List Value → Option Bool
  | .float _, _ => none
  | _, [.var x, .var y] => if x = y then some true else none
  | .int k, [.num i, .num j] => some (ConstArith.uEq k i.ival j.ival)
  | .uint k, [.num i, .num j] => some (ConstArith.uEq k i.ival j.ival)
  | .enum, [.enum i, .enum j] => some (i = j)
  | _, _ => none

def ptrEqual : List Value → Option Bool
  | [.num i, .num j] => some (ConstArith.uEq Target.pointerSz i.ival j.ival)
  | [.enum i, .enum j] => some (i = j)
  | _ => none

/-- **The decision of tests.**  The other comparisons swap the operands of `LT`, or negate. -/
def branch (get : GetInfo) (p : P.Branch) (args : List Value) : Option Bool :=
  match p with
  | .boxed => boxed get args
  | .unboxed => (boxed get args).map not
  | .isPow2 _ => isPow2 args
  | .cmp .lt kind => less get kind args
  | .cmp .lte kind => lessEq kind args
  | .cmp .gt kind =>
      match args with
      | [w, v] => less get kind [v, w]
      | _ => none
  | .cmp .gte kind => (less get kind args).map not
  | .cmp .eql kind => equal kind args
  | .cmp .neq kind => (equal kind args).map not
  | .peql => ptrEqual args
  | .pneq => (ptrEqual args).map not
  | _ => none

end SmlNj.ContractPrim
