import SmlNj.CPS.Semantics
import SmlNj.CPS.Opt.PureFolding

/-!
# The numbers of the 64-bit target

What the numeric operators of CPS terms compute once the sizes of the target are fixed.  A number
of less than 64 bits is a tagged one, in a container of 63 bits: a signed number is extended to the
container by copies of its sign and a word by zeros.  A number of 64 bits is a native word.

Arithmetic on tagged numbers is carried out on the whole container, whatever the size of the
numbers.

## Main definitions

* `Num` — a number by its pattern.
* `execTagged` — pure arithmetic on tagged numbers.
* `execPureNum`, `execArithNum`, `execBranchNum` — the numeric operators.
* `Numbers` — the interpretations with these numbers.
-/

namespace SmlNj.CPS

open TwosComplement ContractPrim

/-- A number: the pattern of a tagged one or of a native one. -/
inductive Num
  | tagged (p : ℤ) | native (p : ℤ)
  deriving DecidableEq

namespace Num

/-- The number `i` of size `sz`. -/
def ofInt (sz : ℕ) (i : ℤ) : Num :=
  if sz < Target.mlValueSz then tagged (unsigned Target.defaultIntSz i)
  else native (unsigned Target.mlValueSz i)

def ofConst (c : IntConst) : Num :=
  if c.ty.tag then tagged (unsigned Target.defaultIntSz c.ival)
  else native (unsigned Target.mlValueSz c.ival)

def toInt : Num → ℤ
  | tagged p => signed Target.defaultIntSz p
  | native p => signed Target.mlValueSz p

def toWord : Num → ℤ
  | tagged p => p
  | native p => p

/-- Is this the representation of a number of `sz` bits? -/
def HasSize (sz : ℕ) : Num → Prop
  | tagged _ => sz < Target.mlValueSz
  | native _ => sz = Target.mlValueSz

instance (sz : ℕ) (d : Num) : Decidable (d.HasSize sz) := by
  cases d <;> unfold HasSize <;> infer_instance

section Sizes

variable {sz : ℕ} {i : ℤ}

theorem hasSize_ofInt (hsz : sz ≤ 64) (i : ℤ) : (ofInt sz i).HasSize sz := by
  unfold ofInt
  split
  · next h => exact h
  · next h => exact le_antisymm hsz (not_lt.1 h)

theorem toInt_ofInt (hpos : 0 < sz) (hsz : sz ≤ 64) (hi : -2 ^ (sz - 1) ≤ i)
    (hi' : i < 2 ^ (sz - 1)) : (ofInt sz i).toInt = i := by
  unfold ofInt
  split
  · next h =>
    have hlt : sz < 64 := h
    have hpow : (2 : ℤ) ^ (sz - 1) ≤ 2 ^ (63 - 1) := two_pow_le (by omega)
    exact (signed_emod 63 i).trans (signed_of_bounds (by decide) (by omega) (by omega))
  · have hpow : (2 : ℤ) ^ (sz - 1) ≤ 2 ^ (64 - 1) := two_pow_le (by omega)
    exact (signed_emod 64 i).trans (signed_of_bounds (by decide) (by omega) (by omega))

theorem toInt_small (sz : ℕ) (hi : -2 ^ 62 ≤ i) (hi' : i < 2 ^ 62) :
    (ofInt sz i).toInt = i := by
  unfold ofInt
  split
  · exact (signed_emod 63 i).trans (signed_of_bounds (by decide) (by omega) (by omega))
  · exact (signed_emod 64 i).trans (signed_of_bounds (by decide) (by omega) (by omega))

theorem toWord_ofInt (hsz : sz ≤ 64) (hi : Pattern sz i) : (ofInt sz i).toWord = i := by
  unfold ofInt
  split
  · next h =>
    have hle : sz ≤ 63 := Nat.lt_succ_iff.1 h
    exact unsigned_of_pattern (hi.mono hle)
  · exact unsigned_of_pattern (hi.mono hsz)

end Sizes

end Num

/-- **Pure arithmetic on tagged numbers of size `sz`.**  A shift by the size of the machine word or
more has no meaning, nor has a division by zero. -/
@[grind =] def execTagged : P.PureOp → Bool → ℕ → List ℤ → Option ℤ
  | .lshift, _, _, [a, k] =>
    if k < Target.mlValueSz then some (unsigned Target.defaultIntSz (a * 2 ^ k.toNat)) else none
  | .rshift, _, _, [a, k] =>
    if k < Target.mlValueSz then
      some (unsigned Target.defaultIntSz (signed Target.defaultIntSz a / 2 ^ k.toNat))
    else none
  | .rshiftl, _, _, [a, k] =>
    if k < Target.mlValueSz then some (a / 2 ^ k.toNat) else none
  | .notb, _, sz, [a] => some (Int.xor a (2 ^ sz - 1))
  | .cntpop, _, _, [a] => some (BitCount.popCount Target.defaultIntSz a.toNat)
  | .cntlz, _, sz, [a] => some (BitCount.leadingZeros sz a.toNat)
  | .cnttz, _, sz, [a] => some (BitCount.trailingZeros sz a.toNat)
  | .rotl, _, _, _ => none
  | .rotr, _, _, _ => none
  | oper, isSigned, _, ds => execSized oper isSigned Target.defaultIntSz ds

/-- Pure arithmetic on numbers of size `sz`.  The amount of a shift or of a rotation is tagged, and
so is a count. -/
@[grind =] def execPureArith (oper : P.PureOp) (isSigned : Bool) (sz : ℕ) : List Num → Option Num
  | [.tagged a] =>
    if sz < Target.mlValueSz then (execTagged oper isSigned sz [a]).map .tagged else none
  | [.tagged a, .tagged b] =>
    if sz < Target.mlValueSz then (execTagged oper isSigned sz [a, b]).map .tagged else none
  | [.native a] =>
    if sz = Target.mlValueSz then
      match oper with
      | .cntpop => some (.tagged (BitCount.popCount sz a.toNat))
      | .cntlz => some (.tagged (BitCount.leadingZeros sz a.toNat))
      | .cnttz => some (.tagged (BitCount.trailingZeros sz a.toNat))
      | _ => (execSized oper isSigned sz [a]).map .native
    else none
  | [.native a, .native b] =>
    if sz = Target.mlValueSz ∧ argSizes sz oper = [sz, sz] then
      (execSized oper isSigned sz [a, b]).map .native
    else none
  | [.native a, .tagged k] =>
    if sz = Target.mlValueSz ∧ argSizes sz oper = [sz, Target.defaultIntSz] then
      (execSized oper isSigned sz [a, k]).map .native
    else none
  | _ => none

/-- The numeric operators that neither trap nor access the store.  A conversion to the same size is
the identity. -/
@[grind =] def execPureNum : P.Pure → List Num → Option Num
  | .pureArith oper (.int sz), ds => execPureArith oper true sz ds
  | .pureArith oper (.uint sz), ds => execPureArith oper false sz ds
  | .copy n p, [d] =>
    if d.HasSize n ∧ n ≤ p then
      some (if n = p then d else .ofInt p (unsigned n d.toWord))
    else none
  | .extend n p, [d] =>
    if d.HasSize n ∧ n ≤ p then some (if n = p then d else .ofInt p (signed n d.toWord)) else none
  | .trunc n p, [d] =>
    if d.HasSize n ∧ p ≤ n then
      some (if n = p then d else .ofInt p (unsigned p d.toWord))
    else none
  | _, _ => none

theorem execPureNum_extend {n p : ℕ} {d : Num} (h : d.HasSize n) (hnp : n < p) :
    execPureNum (.extend n p) [d] = some (.ofInt p (signed n d.toWord)) := by
  refine Eq.trans (b := some (if n = p then d else Num.ofInt p (signed n d.toWord)))
    (if_pos ⟨h, hnp.le⟩) ?_
  rw [if_neg hnp.ne]

/-- The number `i` of size `sz`, or `none` if it does not fit. -/
def checkedNum (sz : ℕ) (i : ℤ) : Option Num :=
  if -2 ^ (sz - 1) ≤ i ∧ i < 2 ^ (sz - 1) then some (.ofInt sz i) else none

/-- The numeric operators that may overflow (`some none`).  Arithmetic on tagged numbers overflows
the container; a test overflows the size that it converts to. -/
def execArithNum : P.Arith → List Num → Option (Option Num)
  | .iarith oper sz, ds =>
    if ∀ d ∈ ds, d.HasSize sz then
      (execSigned oper (ds.map Num.toInt)).map
        (checkedNum (if sz < Target.mlValueSz then Target.defaultIntSz else sz))
    else none
  | .test n p, [d] =>
    if d.HasSize n ∧ p ≤ Target.mlValueSz then some (checkedNum p d.toInt) else none
  | .testu n p, [d] =>
    if d.HasSize n ∧ p ≤ Target.mlValueSz then some (checkedNum p d.toWord) else none
  | _, _ => none

theorem execArithNum_iarith {oper : P.ArithOp} {sz : ℕ} {ds : List Num}
    (h : ∀ d ∈ ds, d.HasSize sz) : execArithNum (.iarith oper sz) ds =
      (execSigned oper (ds.map Num.toInt)).map
        (checkedNum (if sz < Target.mlValueSz then Target.defaultIntSz else sz)) :=
  if_pos h

theorem execArithNum_test {n p : ℕ} {d : Num} (h : d.HasSize n) (hp : p ≤ Target.mlValueSz) :
    execArithNum (.test n p) [d] = some (checkedNum p d.toInt) :=
  if_pos ⟨h, hp⟩

theorem execArithNum_testu {n p : ℕ} {d : Num} (h : d.HasSize n) (hp : p ≤ Target.mlValueSz) :
    execArithNum (.testu n p) [d] = some (checkedNum p d.toWord) :=
  if_pos ⟨h, hp⟩

/-- A comparison. -/
def compareNum (oper : P.CmpOp) (a b : ℤ) : Bool :=
  match oper with
  | .gt => b < a
  | .gte => b ≤ a
  | .lt => a < b
  | .lte => a ≤ b
  | .eql => a = b
  | .neq => a ≠ b

/-- The numeric branches. -/
@[grind =] def execBranchNum : P.Branch → List Num → Option Bool
  | .cmp oper (.int sz), [a, b] =>
    if a.HasSize sz ∧ b.HasSize sz then some (compareNum oper a.toInt b.toInt) else none
  | .cmp oper (.uint sz), [a, b] =>
    if a.HasSize sz ∧ b.HasSize sz then some (compareNum oper a.toWord b.toWord) else none
  | _, _ => none

/-- **An interpretation has the numbers of the target** if its numeric operators compute what they
do there; its closures are functions. -/
structure Numbers {D W : Type} (I : Interp D W) where
  num : Num → D
  unfn (n : ℕ) : I.unfn (I.fn n) = some n
  lit (c : IntConst) : I.lit (.num c) = num (.ofConst c)
  pure (p : P.Pure) (ds : List Num) {d : Num} (h : execPureNum p ds = some d) :
    I.pure p (ds.map num) = some (num d)
  arith (p : P.Arith) (ds : List Num) {r : Option Num} (h : execArithNum p ds = some r) :
    I.arith p (ds.map num) = some (r.map num)
  branch (p : P.Branch) (ds : List Num) {b : Bool} (h : execBranchNum p ds = some b) :
    I.branch p (ds.map num) = some b

/-- Numbers, functions, and one more value for everything else. -/
inductive NumVal
  | num (d : Num) | fn (n : ℕ) | other
  deriving DecidableEq

def NumVal.toNum : NumVal → Option Num
  | num d => some d
  | _ => none

theorem NumVal.mapM_toNum (ds : List Num) : (ds.map NumVal.num).mapM NumVal.toNum = some ds := by
  induction ds with
  | nil => rfl
  | cons d ds ih =>
    rw [List.map_cons, List.mapM_cons, ih]
    rfl

/-- An interpretation that has numbers and functions only. -/
def numInterp : Interp NumVal Unit where
  fn := .fn
  unfn
    | .fn n => some n
    | _ => none
  lit
    | .num c => .num (.ofConst c)
    | _ => .other
  path _ _ := none
  record _ _ := none
  select _ _ := none
  offset _ _ := none
  switch _ := none
  branch p ds := (ds.mapM NumVal.toNum).bind (execBranchNum p)
  arith p ds := ((ds.mapM NumVal.toNum).bind (execArithNum p)).map (Option.map .num)
  pure p ds := ((ds.mapM NumVal.toNum).bind (execPureNum p)).map .num
  alloc _ _ _ := none
  setter _ _ _ := none
  looker _ _ _ := none
  overflow _ := some (.other, [])
  rcc _ _ _ _ _ := none

/-- It has the numbers of the target. -/
def numInterpNumbers : Numbers numInterp where
  num := .num
  unfn _ := rfl
  lit _ := rfl
  pure p ds d h := by
    simp only [numInterp, NumVal.mapM_toNum, Option.bind_some, h, Option.map_some]
  arith p ds r h := by
    simp only [numInterp, NumVal.mapM_toNum, Option.bind_some, h, Option.map_some]
  branch p ds b h := by
    simp only [numInterp, NumVal.mapM_toNum, Option.bind_some, h]

end SmlNj.CPS
