import SmlNj.CodeGen.InvokeGC
import SmlNj.CodeGen.TaggedArith

/-!
# The primitives in the code generator

The translation of the primitives that fetch from the store, update it or compute without a trap,
from CPS operators to expressions and statements on machine words.

## Main definitions

* `untagSigned`, `untagUnsigned`, `trunc`, `toMLWord` — between tagged numbers and machine words.
* `genLooker`, `genPure`, `genSetter` — the primitives.
* `genMkspecial`, `genSwitch` — the terms with an index that are translated apart from these.
-/

namespace SmlNj

namespace ObjectDesc

def tagSpecial : ℕ := mkTag 6

/-- `makeDesc'`: a descriptor with a length of any size. -/
def makeDescInf (len : ℤ) (t : ℕ) : ℤ := Int.lor (len <<< tagWidth) t

def descSpecial : ℤ := makeDescInf 0 tagSpecial

def powTagWidth : ℤ := 2 ^ tagWidth

end ObjectDesc

namespace CPStoCFG

open CPS CFG ObjectDesc
open TaggedArith (pureOp one two orTag addTag tag)

def ws : ℤ := (ity / 8 : ℕ)

def zero (sz : ℕ) : Exp := .num 0 sz

/-- Ones in `sz` bits. -/
def allOnes (sz : ℕ) : Exp := num (ConstArith.bNot sz 0)

def looker (oper : Prim.Looker) (args : List Exp) : Exp := .looker oper args

def zExt (from_ to_ : ℕ) (arg : Exp) : Exp := .pure (.extend false from_ to_) [arg]

def sExt (from_ to_ : ℕ) (arg : Exp) : Exp := .pure (.extend true from_ to_) [arg]

def signExtend (from_ : ℕ) (arg : Exp) : Exp := sExt from_ ity arg

def zeroExtend (from_ : ℕ) (arg : Exp) : Exp := zExt from_ ity arg

def getDescriptor (obj : Exp) : Exp := looker (.rawLoad .int ity) [obj, num (-ws)]

def getObjLength (obj : Exp) : Exp :=
  orTag (pureOp .lshr ity [getDescriptor obj, num (tagWidth - 1 : ℕ)])

def getSeqData (obj : Exp) : Exp := .select 0 obj

def getSeqLen (obj : Exp) : Exp := .select 1 obj

def rawLoad (kind : P.NumKind) (args : List Exp) : Except Exn Exp :=
  match kind with
  | .int sz =>
    let load := looker (.rawLoad .int (normSz sz)) args
    .ok (if sz < ity then signExtend sz load else load)
  | .uint sz =>
    let load := looker (.rawLoad .int (normSz sz)) args
    .ok (if sz < ity then zeroExtend sz load else load)
  | .float sz => .ok (looker (.rawLoad .flt sz) args)
  | .enum => .error .impossible

def rawStore : P.NumKind → Except Exn Prim.Setter
  | .int sz => .ok (.rawStore .int (normSz sz))
  | .uint sz => .ok (.rawStore .int (normSz sz))
  | .float sz => .ok (.rawStore .flt sz)
  | .enum => .error .impossible

section Translate

variable (exps : Lvar → Option Exp)

def untagSigned : Value → Except Exn Exp
  | .num ⟨ival, ⟨_, true⟩⟩ => .ok (num ival)
  | .num _ => .error .impossible
  | v => do return pureOp .ashr ity [← genV exps v, one]

def untagUnsigned : Value → Except Exn Exp
  | .num ⟨ival, ⟨_, true⟩⟩ => .ok (num ival)
  | .num _ => .error .impossible
  | v => do return pureOp .lshr ity [← genV exps v, one]

/-- The low `sz` bits of an operand. -/
def trunc (sz : ℕ) (signed : Bool) : Value → Except Exn Exp
  | .num ⟨ival, _⟩ => .ok (.num ival sz)
  | v => do
    return .pure (.trunc ity sz) [← if signed then untagSigned exps v else untagUnsigned exps v]

def toMLWord (exp : Exp) : Exp := pureOp .add ity [pureOp .shl ity [exp, one], one]

def genRawSubscript (kind : Prim.Numkind) (sz : ℕ) (vec idx : Value) : Except Exn Exp := do
  return .pure (.pureRawSubscript kind sz) [getSeqData (← genV exps vec), ← untagSigned exps idx]

/-- Signed integers; those of eight bits are not extended. -/
def genRawIntSubscript (sz : ℕ) (vec idx : Value) : Except Exn Exp :=
  if sz = 8 then do return toMLWord (← genRawSubscript exps .int 8 vec idx)
  else if sz < Target.defaultIntSz then do
    return toMLWord (signExtend sz (← genRawSubscript exps .int sz vec idx))
  else if sz = Target.defaultIntSz then do
    -- for default-size integers, the native size
    return toMLWord (← genRawSubscript exps .int ity vec idx)
  else genRawSubscript exps .int sz vec idx

/-- Words. -/
def genRawWordSubscript (sz : ℕ) (vec idx : Value) : Except Exn Exp :=
  if sz < Target.defaultIntSz then do
    return toMLWord (zeroExtend sz (← genRawSubscript exps .int sz vec idx))
  else if sz = Target.defaultIntSz then do
    return toMLWord (← genRawSubscript exps .int ity vec idx)
  else genRawSubscript exps .int sz vec idx

/-- An element of a numeric sequence, for both `NUMSUBSCRIPT` and `PURE_NUMSUBSCRIPT`. -/
def genNumSubscript (kind : P.NumKind) (vec idx : Value) : Except Exn Exp :=
  match kind with
  | .int sz => genRawIntSubscript exps sz vec idx
  | .uint sz => genRawWordSubscript exps sz vec idx
  | .float sz => genRawSubscript exps .flt sz vec idx
  | .enum => .error .impossible

/-! ### The primitives -/

/-- **The operators that fetch from the store.** -/
def genLooker (oper : P.Looker) (args : List Value) : Except Exn Exp :=
  match oper, args with
  | .deref, _ => do return looker .deref (← args.mapM (genV exps))
  | .subscript, [arr, ix] => do
    return looker .subscript [.select 0 (← genV exps arr), ← untagSigned exps ix]
  | .numsubscript kind, [arr, ix] => genNumSubscript exps kind arr ix
  | .getspecial, [obj] => do return getObjLength (← genV exps obj)
  | .gethdlr, _ => do return looker .getHdlr (← args.mapM (genV exps))
  | .getvar, _ => do return looker .getVar (← args.mapM (genV exps))
  | .rawload kind, [adr] => do rawLoad kind [← genV exps adr, zero ity]
  | .rawload kind, [adr, ix] => do rawLoad kind [← genV exps adr, ← genV exps ix]
  | _, _ => .error .impossible

/-- Arithmetic on native numbers.  A shift amount is always a tagged word. -/
def genNative (oper : P.PureOp) (signed : Bool) (sz : ℕ) (args : List Value) : Except Exn Exp :=
  let binOp (rator : Prim.PureOp) (a b : Value) : Except Exn Exp := do
    return pureOp rator sz [← genV exps a, ← genV exps b]
  let shiftOp (rator : Prim.PureOp) (a b : Value) : Except Exn Exp := do
    return pureOp rator sz [← genV exps a, ← untagUnsigned exps b]
  match oper, args with
  | .neg, [v] => do return pureOp .sub sz [zero sz, ← genV exps v]
  | .add, [v1, v2] => binOp .add v1 v2
  | .sub, [v1, v2] => binOp .sub v1 v2
  | .mul, [v1, v2] => binOp .mul v1 v2
  | .quot, [v1, v2] => binOp (if signed then .sdiv else .udiv) v1 v2
  | .rem, [v1, v2] => binOp (if signed then .srem else .urem) v1 v2
  | .lshift, [v1, v2] => shiftOp .shl v1 v2
  | .rshift, [v1, v2] => shiftOp .ashr v1 v2
  | .rshiftl, [v1, v2] => shiftOp .lshr v1 v2
  | .orb, [v1, v2] => binOp .orb v1 v2
  | .xorb, [v1, v2] => binOp .xorb v1 v2
  | .andb, [v1, v2] => binOp .andb v1 v2
  | oper, args =>
    -- the other operators are those on words
    if signed then .error .impossible
    else match oper, args with
      | .notb, [v] => do return pureOp .xorb sz [← genV exps v, allOnes sz]
      | .cntpop, [v] => do return tag (pureOp .cntpop sz [← genV exps v])
      | .cntlz, [v] => do return tag (pureOp .cntlz sz [← genV exps v])
      | .cnttz, [v] => do return tag (pureOp .cnttz sz [← genV exps v])
      | .rotl, [v1, v2] => shiftOp .rotl v1 v2
      | .rotr, [v1, v2] => shiftOp .rotr v1 v2
      | _, _ => .error .impossible

/-- Arithmetic on floating-point numbers. -/
def genFloat (oper : P.PureOp) (sz : ℕ) (args : List Value) : Except Exn Exp := do
  let args ← args.mapM (genV exps)
  match oper with
  | .add => return pureOp .fadd sz args
  | .sub => return pureOp .fsub sz args
  | .mul => return pureOp .fmul sz args
  | .neg => return pureOp .fneg sz args
  | .fdiv => return pureOp .fdiv sz args
  | .fabs => return pureOp .fabs sz args
  | .fsqrt => return pureOp .fsqrt sz args
  | .fceil => return pureOp .fceil sz args
  | .ffloor => return pureOp .ffloor sz args
  | .fround => return pureOp .fround sz args
  | .ftrunc => return pureOp .ftrunc sz args
  | _ => .error .impossible

def genCopy (from_ to_ : ℕ) (v : Value) : Except Exn Exp :=
  if from_ = to_ then genV exps v
  else if from_ = Target.defaultIntSz ∧ to_ = ity then untagUnsigned exps v
  else if from_ < Target.defaultIntSz then
    if to_ ≤ Target.defaultIntSz then do return zeroExtend from_ (← genV exps v)
    else untagUnsigned exps v
  else .error .impossible

def genExtend (from_ to_ : ℕ) (v : Value) : Except Exn Exp :=
  if from_ = to_ then genV exps v
  else if from_ = Target.defaultIntSz ∧ to_ = ity then do
    return pureOp .ashr ity [← genV exps v, one]
  else if from_ < Target.defaultIntSz then do
    -- the sign bit becomes the leftmost one
    let sa : ℤ := (Target.defaultIntSz - from_ : ℕ)
    let exp := pureOp .shl ity [← genV exps v, num sa]
    if isTaggedInt to_ then return pureOp .ashr ity [exp, num sa]
    else return pureOp .ashr ity [exp, num (sa + 1)]
  else .error .impossible

def genTrunc (from_ to_ : ℕ) (v : Value) : Except Exn Exp := do
  let e ← genV exps v
  if from_ = to_ then return e
  else if to_ = Target.defaultIntSz ∧ from_ = ity then return orTag (pureOp .shl ity [e, one])
  else if !isTaggedInt to_ then return .pure (.trunc from_ to_) [e]
  else if isTaggedInt from_ then return pureOp .andb ity [e, num (2 ^ (to_ + 1) - 1)]
  else return addTag (pureOp .shl ity [pureOp .andb ity [e, num (2 ^ to_ - 1)], one])

/-- An element of a record.  A constant index must be an `int` for `IntInf.toInt`; the index of a
selection is not negative. -/
def genRecSubscript (v1 v2 : Value) : Except Exn Exp :=
  match v2 with
  | .num ⟨ival, ⟨_, true⟩⟩ =>
    if 0 ≤ ival ∧ ival < 2 ^ (Target.defaultIntSz - 1) then do
      return .select ival.toNat (← genV exps v1)
    else .error .overflow
  | _ => do return .pure .pureSubscript [← genV exps v1, ← untagSigned exps v2]

/-- **The operators that neither trap nor access the store**, but for those that allocate. -/
def genPure (p : P.Pure) (args : List Value) : Except Exn Exp :=
  match p, args with
  | .pureArith oper (.int sz), _ =>
    if isTaggedInt sz then TaggedArith.pure (genV exps) oper true sz args
    else genNative exps oper true sz args
  | .pureArith oper (.uint sz), _ =>
    if isTaggedInt sz then TaggedArith.pure (genV exps) oper false sz args
    else genNative exps oper false sz args
  | .pureArith oper (.float sz), _ => genFloat exps oper sz args
  | .pureNumsubscript kind, [v1, v2] => genNumSubscript exps kind v1 v2
  | .length, [v] => do return getSeqLen (← genV exps v)
  | .objlength, [v] => do return getObjLength (← genV exps v)
  | .copy from_ to_, [v] => genCopy exps from_ to_ v
  | .extend from_ to_, [v] => genExtend exps from_ to_ v
  | .trunc from_ to_, [v] => genTrunc exps from_ to_ v
  | .intToReal from_ to_, [v] => do
    let e ← if isTaggedInt from_ then untagSigned exps v else genV exps v
    return .pure (.intToFloat ity to_) [e]
  | .bitsToReal sz, [v] => do return .pure (.bitsToFloat sz) [← genV exps v]
  | .realToBits sz, [v] => do return .pure (.floatToBits sz) [← genV exps v]
  | .subscriptv, [v1, v2] => do
    return .pure .pureSubscript [getSeqData (← genV exps v1), ← untagSigned exps v2]
  | .gettag, [v] => do
    return toMLWord (pureOp .andb ity [getDescriptor (← genV exps v), num (powTagWidth - 1)])
  | .cast, [v] => genV exps v
  | .getcon, [v] => do return .select 0 (← genV exps v)
  | .getexn, [v] => do return .select 0 (← genV exps v)
  | .box, [v] => genV exps v
  | .unbox, [v] => genV exps v
  | .unwrap (.int sz), [v] => do return looker (.rawLoad .int sz) [← genV exps v, zero ity]
  | .unwrap (.float sz), [v] => do return looker (.rawLoad .flt sz) [← genV exps v, zero ity]
  | .getseqdata, [v] => do return getSeqData (← genV exps v)
  | .recsubscript, [v1, v2] => genRecSubscript exps v1 v2
  | .raw64subscript, [v1, v2] => do
    return .pure (.pureRawSubscript .flt 64) [← genV exps v1, ← untagSigned exps v2]
  | _, _ => .error .impossible

def coerceInt (sz : ℕ) (signed : Bool) (v : Value) : Except Exn Exp :=
  if sz = Target.defaultIntSz ∨ sz = ity then genV exps v
  else if sz < Target.defaultIntSz then trunc exps sz signed v
  else .error .impossible

/-- An update of a numeric sequence. -/
def genNumUpdate (kind : P.NumKind) (arr ix v : Value) (k : Stm) : Except Exn Stm :=
  let set (kind : Prim.Numkind) (sz : ℕ) (arg : Exp) : Except Exn Stm := do
    return .setter (.rawUpdate kind sz)
      [getSeqData (← genV exps arr), ← untagSigned exps ix, arg] k
  match kind with
  | .int sz => do set .int sz (← coerceInt exps sz true v)
  | .uint sz => do set .int sz (← coerceInt exps sz false v)
  | .float sz => do set .flt sz (← genV exps v)
  | .enum => .error .impossible

/-- The descriptor of a special object. -/
def specialDesc (len : Value) (i : Value) : Except Exn Exp :=
  match i with
  | .num ⟨ival, ⟨_, true⟩⟩ => .ok (num (makeDescInf ival tagSpecial))
  | _ => do
    return pureOp .orb ity [pureOp .shl ity [← untagSigned exps len, num tagWidth], num descSpecial]

def genSetSpecial (v i : Value) (k : Stm) : Except Exn Stm := do
  -- where the index is no constant, it is the object whose tag is dropped
  let desc ← specialDesc exps v i
  return .setter (.rawStore .int ity) [← genV exps v, num (-ws), desc] k

/-- **The operators that update the store.** -/
def genSetter (oper : P.Setter) (args : List Value) (k : Stm) : Except Exn Stm :=
  match oper, args with
  | .rawupdate cty, [r, .num ⟨ival, _⟩, v] => do
    match cty with
    | .fltt 64 => return .setter (.rawUpdate .flt 64) [← genV exps r, num ival, ← genV exps v] k
    | _ => return .setter (.rawUpdate .int ity) [← genV exps r, num ival, ← genV exps v] k
  | .numupdate kind, [arr, ix, v] => genNumUpdate exps kind arr ix v k
  | .unboxedupdate, [arr, ix, v] => do
    return .setter .unboxedUpdate
      [getSeqData (← genV exps arr), ← untagSigned exps ix, ← genV exps v] k
  | .update, [arr, ix, v] => do
    return .setter .update
      [getSeqData (← genV exps arr), ← untagSigned exps ix, ← genV exps v] k
  | .unboxedassign, [r, v] => do
    return .setter .unboxedAssign [← genV exps r, ← genV exps v] k
  | .assign, [r, v] => do return .setter .assign [← genV exps r, ← genV exps v] k
  | .sethdlr, [v] => do return .setter .setHdlr [← genV exps v] k
  | .setvar, [v] => do return .setter .setVar [← genV exps v] k
  | .setspecial, [v, i] => genSetSpecial exps v i k
  | .rawstore kind, [adr, v] => do
    return .setter (← rawStore kind) [← genV exps adr, zero ity, ← genV exps v] k
  | .rawstore kind, [adr, offset, v] => do
    return .setter (← rawStore kind) [← genV exps adr, ← genV exps offset, ← genV exps v] k
  | _, _ => .error .impossible

/-- `MKSPECIAL`: the allocation of a special object. -/
def genMkspecial (i v : Value) (x : Lvar) (k : Stm) : Except Exn Stm := do
  let desc ← specialDesc exps i i
  return .alloc .special [desc, ← genV exps v] x k

/-- `SWITCH`. -/
def genSwitch (v : Value) (cases : List Stm) : Except Exn Stm := do
  return .switch (← untagSigned exps v) cases

end Translate

end CPStoCFG

end SmlNj
