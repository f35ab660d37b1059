import SmlNj.Lib.WordBits
import SmlNj.CPS.Opt.Conversions

/-!
# What arithmetic computes

The meaning of the pure operators on machine words, and when a contraction keeps it.  A word is its
bit pattern.  A literal is any integer with that pattern, signed or unsigned: folding leaves both
kinds behind, whatever the kind of the operator that uses them.

A shift by the size of the word or more has no meaning here, nor has a division by zero: the code
that uses the operators tests for them.  A rotation takes its amount modulo the size.

The same for the operators on signed numbers that raise `Overflow`: a conversion between words and
integers of the same size leaves the literal as it is, so that an unsigned one may be an operand.

## Main definitions

* `execArith`, `exec` — what an operator computes.
* `WellFormed` — the operands with which an operator is used.
* `Faithful` — what is substituted for the operation computes the same.
* `Misfolded` — the operands for which it does not.
* `execTrapping` — what an operator computes; the sizes of integers are more than two bits.
* `FaithfulTrapping` — what is substituted for the operation has the same outcome.
* `MisfoldedTrapping` — the operands for which it has not.
-/

namespace SmlNj.ContractPrim

open CPS TwosComplement

/-! ### The meaning of an operator -/

/-- What an operator on `sz`-bit words computes, for signed or unsigned words. -/
def execSized : P.PureOp → Bool → ℕ → List ℤ → Option ℤ
  | .add, _, sz, [a, b] => some (unsigned sz (a + b))
  | .sub, _, sz, [a, b] => some (unsigned sz (a - b))
  | .mul, _, sz, [a, b] => some (unsigned sz (a * b))
  | .quot, true, sz, [a, b] =>
    if b = 0 then none else some (unsigned sz ((signed sz a).tdiv (signed sz b)))
  | .quot, false, _, [a, b] => if b = 0 then none else some (a / b)
  | .rem, true, sz, [a, b] =>
    if b = 0 then none else some (unsigned sz ((signed sz a).tmod (signed sz b)))
  | .rem, false, _, [a, b] => if b = 0 then none else some (a % b)
  | .neg, _, sz, [a] => some (unsigned sz (-a))
  | .lshift, _, sz, [a, k] => if k < sz then some (unsigned sz (a * 2 ^ k.toNat)) else none
  | .rshift, _, sz, [a, k] =>
    if k < sz then some (unsigned sz (signed sz a / 2 ^ k.toNat)) else none
  | .rshiftl, _, sz, [a, k] => if k < sz then some (a / 2 ^ k.toNat) else none
  | .orb, _, sz, [a, b] => some (unsigned sz (Int.lor a b))
  | .xorb, _, sz, [a, b] => some (unsigned sz (Int.xor a b))
  | .andb, _, sz, [a, b] => some (unsigned sz (Int.land a b))
  | .notb, _, sz, [a] => some (2 ^ sz - 1 - a)
  | .rotl, _, sz, [a, k] => some (Rotation.rotate sz (k.toNat % sz) a)
  | .rotr, _, sz, [a, k] => some (Rotation.rotate sz (sz - k.toNat % sz) a)
  | _, _, _, _ => none

section

variable {sz : ℕ} {b : Bool} {x y k : ℤ}

theorem execSized_add : execSized .add b sz [x, y] = some (unsigned sz (x + y)) := rfl

theorem execSized_sub : execSized .sub b sz [x, y] = some (unsigned sz (x - y)) := rfl

theorem execSized_mul : execSized .mul b sz [x, y] = some (unsigned sz (x * y)) := rfl

theorem execSized_quot_signed : execSized .quot true sz [x, y] =
    if y = 0 then none else some (unsigned sz ((signed sz x).tdiv (signed sz y))) := rfl

theorem execSized_quot_unsigned : execSized .quot false sz [x, y] =
    if y = 0 then none else some (x / y) := rfl

theorem execSized_rem_signed : execSized .rem true sz [x, y] =
    if y = 0 then none else some (unsigned sz ((signed sz x).tmod (signed sz y))) := rfl

theorem execSized_rem_unsigned : execSized .rem false sz [x, y] =
    if y = 0 then none else some (x % y) := rfl

theorem execSized_lshift : execSized .lshift b sz [x, k] =
    if k < sz then some (unsigned sz (x * 2 ^ k.toNat)) else none := rfl

theorem execSized_rshift : execSized .rshift b sz [x, k] =
    if k < sz then some (unsigned sz (signed sz x / 2 ^ k.toNat)) else none := rfl

theorem execSized_rshiftl : execSized .rshiftl b sz [x, k] =
    if k < sz then some (x / 2 ^ k.toNat) else none := rfl

theorem execSized_andb : execSized .andb b sz [x, y] = some (unsigned sz (Int.land x y)) := rfl

theorem execSized_rotl : execSized .rotl b sz [x, k] =
    some (Rotation.rotate sz (k.toNat % sz) x) := rfl

theorem execSized_rotr : execSized .rotr b sz [x, k] =
    some (Rotation.rotate sz (sz - k.toNat % sz) x) := rfl

end

def execArith (oper : P.PureOp) : P.NumKind → List ℤ → Option ℤ
  | .int sz, ds => execSized oper true sz ds
  | .uint sz, ds => execSized oper false sz ds
  | _, _ => none

/-- The sizes of the operands of an operator on `sz`-bit words.  The amount of a shift or of a
rotation is a default word. -/
def argSizes (sz : ℕ) : P.PureOp → List ℕ
  | .neg | .notb => [sz]
  | .lshift | .rshift | .rshiftl | .rotl | .rotr => [sz, Target.defaultIntSz]
  | _ => [sz, sz]

/-- The sizes of the operands of a numeric operator, and that of its result. -/
@[grind =] def sizes : P.Pure → Option (List ℕ × ℕ)
  | .pureArith oper (.int sz) | .pureArith oper (.uint sz) => some (argSizes sz oper, sz)
  | .copy n p | .extend n p | .trunc n p => some ([n], p)
  | _ => none

/-- The pattern of an operand of size `sz`. -/
def value (ρ : Lvar → ℤ) (sz : ℕ) : Value → ℤ
  | .var x => ρ x
  | .num n => unsigned sz n.ival
  | _ => 0

/-- What a numeric operator computes from the patterns of its operands. -/
def execPure (p : P.Pure) (ds : List ℤ) : Option ℤ :=
  match p, ds with
  | .pureArith oper kind, ds => execArith oper kind ds
  | .copy n p, [a] => (Conv.copy n p).eval a
  | .extend n p, [a] => (Conv.extend n p).eval a
  | .trunc n p, [a] => (Conv.trunc n p).eval a
  | _, _ => none

/-- **What an operation computes.** -/
def exec (ρ : Lvar → ℤ) (p : P.Pure) (args : List Value) : Option ℤ :=
  match sizes p with
  | some (szs, _) => execPure p (List.zipWith (value ρ) szs args)
  | none => none

/-- A literal for a word of size `sz`. -/
def Literal (sz : ℕ) (i : ℤ) : Prop := -2 ^ (sz - 1) ≤ i ∧ i < 2 ^ sz

instance (sz : ℕ) (i : ℤ) : Decidable (Literal sz i) := inferInstanceAs (Decidable (_ ∧ _))

/-- An operand of size `sz`: a variable bound to a word, or a literal for one. -/
def Operand (ρ : Lvar → ℤ) (sz : ℕ) : Value → Prop
  | .var x => Pattern sz (ρ x)
  | .num n => Literal sz n.ival
  | _ => False

/-- The operands with which an operator is used.  The conversions of variables are contracted with
other conversions, and not here. -/
def WellFormed (ρ : Lvar → ℤ) : P.Pure → List Value → Prop
  | .pureArith oper (.int sz), args | .pureArith oper (.uint sz), args =>
    0 < sz ∧ sz < 2 ^ (Target.defaultIntSz - 1) ∧ List.Forall₂ (Operand ρ) (argSizes sz oper) args
  | .copy n p, [.num i] | .extend n p, [.num i] => 0 < n ∧ n ≤ p ∧ Literal n i.ival
  | .trunc n p, [.num i] => 0 < p ∧ p ≤ n ∧ Literal n i.ival
  | _, _ => False

/-- What is computed after a contraction of the operation `p args`. -/
def Result.computes (ρ : Lvar → ℤ) (p : P.Pure) (args : List Value) : Result → Option ℤ
  | .none => exec ρ p args
  | .val v => (sizes p).map fun s => value ρ s.2 v
  | .pure q args => exec ρ q args
  | .arith _ _ => Option.none

/-- **A contraction is faithful**: when the operation has a meaning, what is substituted for it
computes the same word. -/
def Faithful (ρ : Lvar → ℤ) (p : P.Pure) (args : List Value) (result : Except Exn Result) : Prop :=
  ∀ r, result = .ok r → ∀ d, exec ρ p args = some d → r.computes ρ p args = some d

/-- The quotient of two literals that is folded as one of signed numbers is the quotient of the
words. -/
def QuotAgrees (sz : ℕ) (i j : ℤ) : Prop :=
  0 ≤ i ∧ 0 ≤ j ∨ i < 0 ∧ 2 ^ sz + i < j ∨ 0 ≤ i ∧ i < -j ∨ i < 0 ∧ i = j

/-- The remainder of two literals that is folded as one of signed numbers is the remainder of the
words. -/
def RemAgrees (sz : ℕ) (i j : ℤ) : Prop :=
  0 ≤ i ∧ 0 ≤ j ∨ i < 0 ∧ 0 < j ∧ (2 ^ sz + i < j ∨ j ∣ i ∧ j ∣ 2 ^ sz) ∨
    0 ≤ i ∧ j < 0 ∧ (i < -j ∨ 2 ^ sz + j ≤ i ∧ j ∣ 2 ^ sz) ∨ i < 0 ∧ i = j

/-- An amount that is a negative literal rotates a word to another one: the literal is reduced
modulo the size as a signed number. -/
def Misrotated (sz : ℕ) (a j : ℤ) : Prop :=
  j < 0 ∧ Rotation.rotate sz (2 ^ Target.defaultIntSz % sz) a ≠ a

/-- **The operands for which the contraction is not faithful.** -/
def Misfolded (ρ : Lvar → ℤ) : P.Pure → List Value → Prop
  | .pureArith .quot (.uint sz), [v, .num j] =>
    -- a division by minus one, which is the greatest word
    j.ival = -1 ∧ 0 < value ρ sz v ∧ value ρ sz v < 2 ^ sz - 1 ∨
      j.ival ≠ -1 ∧ j.ival ≠ 0 ∧ j.ival ≠ 1 ∧ ∃ i, v = .num i ∧ ¬QuotAgrees sz i.ival j.ival
  | .pureArith .rem (.uint sz), [.num i, .num j] =>
    j.ival ≠ 0 ∧ j.ival ≠ 1 ∧ ¬RemAgrees sz i.ival j.ival
  | .pureArith .rshift (.int sz), [.num i, .num j] =>
    -- an unsigned literal, which is not sign-extended
    2 ^ (sz - 1) ≤ i.ival ∧ 0 < j.ival ∧ j.ival < sz
  | .pureArith .rshiftl (.uint sz), [.num i, .num j] =>
    -- a signed literal, which is sign-extended
    i.ival < 0 ∧ 0 < j.ival ∧ j.ival < sz
  | .pureArith .rotl (.uint sz), [v, .num j] | .pureArith .rotr (.uint sz), [v, .num j] =>
    Misrotated sz (value ρ sz v) j.ival
  | .pureArith .rotl (.int sz), [.num i, .num j]
  | .pureArith .rotr (.int sz), [.num i, .num j] =>
    Misrotated sz (unsigned sz i.ival) j.ival
  | .copy n p, [.num i] => n < p ∧ i.ival < 0
  | _, _ => False

/-! ## What trapping arithmetic computes -/

open CPS TwosComplement

/-- The number that an operator computes.  Division by zero has no meaning: the code that divides
tests for it. -/
def execSigned : P.ArithOp → List ℤ → Option ℤ
  | .iadd, [x, y] => some (x + y)
  | .isub, [x, y] => some (x - y)
  | .imul, [x, y] => some (x * y)
  | .idiv, [x, y] => if y = 0 then none else some (x.fdiv y)
  | .imod, [x, y] => if y = 0 then none else some (x.fmod y)
  | .iquot, [x, y] => if y = 0 then none else some (x.tdiv y)
  | .irem, [x, y] => if y = 0 then none else some (x.tmod y)
  | .ineg, [x] => some (-x)
  | _, _ => none

def signedValue (ρ : Lvar → ℤ) (sz : ℕ) (v : Value) : ℤ := signed sz (value ρ sz v)

/-- **What a trapping operation computes**: a word, or `Overflow` (`some none`) if the number does
not fit. -/
def execTrapping (ρ : Lvar → ℤ) (oper : P.ArithOp) (sz : ℕ) (args : List Value) :
    Option (Option ℤ) :=
  (execSigned oper (args.map (signedValue ρ sz))).map (Conv.checked sz)

def arity : P.ArithOp → ℕ
  | .ineg => 1
  | _ => 2

/-- The operands with which an operator is used. -/
structure WellFormedTrapping (ρ : Lvar → ℤ) (oper : P.ArithOp) (sz : ℕ) (args : List Value) :
    Prop where
  size : 2 < sz
  lt : sz < 2 ^ (Target.defaultIntSz - 1)
  length : args.length = arity oper
  operands : ∀ v ∈ args, Operand ρ sz v

/-- The outcome after a contraction of an operation. -/
def Result.outcomeTrapping (ρ : Lvar → ℤ) (oper : P.ArithOp) (sz : ℕ) (args : List Value) :
    Result → Option (Option ℤ)
  | .none => execTrapping ρ oper sz args
  | .val v => some (some (value ρ sz v))
  | .pure q args => (exec ρ q args).map some
  | .arith (.iarith q s) args => execTrapping ρ q s args
  | .arith _ _ => Option.none

/-- **A contraction is faithful**: when the operation has a meaning, what is substituted for it
computes the same word, or overflows as the operation does. -/
def FaithfulTrapping (ρ : Lvar → ℤ) (oper : P.ArithOp) (sz : ℕ) (args : List Value) (r : Result) :
    Prop :=
  ∀ o, execTrapping ρ oper sz args = some o → r.outcomeTrapping ρ oper sz args = some o

def Wrapped (sz : ℕ) (i : ℤ) : Prop := 2 ^ (sz - 1) ≤ i

instance (sz : ℕ) (i : ℤ) : Decidable (Wrapped sz i) := inferInstanceAs (Decidable (_ ≤ _))

/-- **The operands for which the contraction is not faithful.**  There is an unsigned literal of a
negative number among them, except in a division by the least number as an unsigned literal, which
is a power of two. -/
def MisfoldedTrapping (ρ : Lvar → ℤ) (sz : ℕ) : P.ArithOp → List Value → Prop
  | .iadd, [.num i, .num j] =>
    (Wrapped sz i.ival ∨ Wrapped sz j.ival) ∧ i.ival + j.ival < 2 ^ (sz - 1)
  | .isub, [.num i, .num j] =>
    (Wrapped sz i.ival ↔ ¬Wrapped sz j.ival) ∧ -2 ^ (sz - 1) ≤ i.ival - j.ival ∧
      i.ival - j.ival < 2 ^ (sz - 1)
  | .imul, [.num i, .num j] =>
    i.ival = 2 ^ (sz - 1) ∧ j.ival = -1 ∨ i.ival = -1 ∧ j.ival = 2 ^ (sz - 1)
  | .ineg, [.num i] => i.ival = 2 ^ (sz - 1)
  | .idiv, [.num i, .num j] =>
    j.ival ≠ 0 ∧ j.ival ≠ 1 ∧ (Wrapped sz i.ival ∨ Wrapped sz j.ival) ∧ i.ival ≠ 0 ∧
      i.ival ≠ j.ival
  | .idiv, [v, .num j] => j.ival = 2 ^ (sz - 1) ∧ signedValue ρ sz v ≠ 0
  | .imod, [.num i, .num j] =>
    j.ival ≠ 0 ∧
      (Wrapped sz i.ival ∧ ¬Wrapped sz j.ival ∧ ¬j.ival ∣ 2 ^ sz ∨
        Wrapped sz i.ival ∧ Wrapped sz j.ival ∧ j.ival < i.ival ∨
        ¬Wrapped sz i.ival ∧ Wrapped sz j.ival ∧ i.ival ≠ 0 ∧ i.ival + j.ival ≠ 0 ∧
          (0 < i.ival ∨ i.ival + j.ival < 2 ^ (sz - 1)))
  | .imod, [v, .num j] =>
    j.ival = 2 ^ (sz - 1) ∧ signedValue ρ sz v ≠ 0 ∧ signedValue ρ sz v ≠ -2 ^ (sz - 1)
  | .iquot, [.num i, .num j] =>
    j.ival ≠ 0 ∧ j.ival ≠ 1 ∧
      (Wrapped sz i.ival ∧ i.ival ≠ j.ival ∨
        ¬Wrapped sz i.ival ∧ Wrapped sz j.ival ∧ 2 ^ sz ≤ j.ival + |i.ival|)
  | .irem, [.num i, .num j] =>
    j.ival ≠ 0 ∧
      (Wrapped sz i.ival ∧ ¬Wrapped sz j.ival ∧ ¬(j.ival ∣ i.ival ∧ j.ival ∣ 2 ^ sz) ∨
        Wrapped sz i.ival ∧ Wrapped sz j.ival ∧ j.ival < i.ival ∨
        ¬Wrapped sz i.ival ∧ Wrapped sz j.ival ∧ 2 ^ sz ≤ j.ival + |i.ival| ∧
          i.ival + j.ival ≠ 0)
  | _, _ => False

end SmlNj.ContractPrim
