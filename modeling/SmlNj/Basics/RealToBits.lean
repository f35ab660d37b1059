import SmlNj.Basics.FloatPowers
import SmlNj.Basics.RealLit

/-!
# Real literals in IEEE form

The two exported functions of the conversion: the class of the number that a literal
is rounded to, and the bytes that represent it, most significant one first.

## Main definitions

* `FloatParams.toBinary` — the fraction and the exponent of a literal, rounded.
* `FloatParams.pack`, `FloatParams.packSpecial` — the layout of a representation.
* `FloatParams.classify`, `FloatParams.toBits` — the two functions.
* `FloatParams.classOf` — the class of number that bytes represent.
-/

namespace SmlNj

namespace RealToBits

/-- `IEEEReal.float_class`. -/
inductive FloatClass
  | nan
  | inf
  | zero
  | normal
  | subnormal
  deriving DecidableEq

def w2b (w : BitVec 63) : BitVec 8 := w.setWidth 8

/-- Or the bits of `b` into the byte number `i`. -/
def orb (bytes : List (BitVec 8)) (i : ℤ) (b : BitVec 8) : Except Exn (List (BitVec 8)) :=
  if 0 ≤ i ∧ i < bytes.length then .ok (bytes.modify i.toNat (· ||| b)) else .error .subscript

/-- The loop of `makebits`: `i` bits from the mask `fracBit` on. -/
def makebits.getBits (frac : ℤ) : ℕ → ℤ → BitVec 63 → BitVec 63 → BitVec 8
  | 0, _, _, bits => w2b bits
  | i + 1, fracBit, bit, bits =>
      if 0 < fracBit then
        let fracBit' := fracBit >>> (1 : ℕ)
        let bit' := bit >>> 1
        if Int.land frac fracBit = 0 then makebits.getBits frac i fracBit' bit' bits
        else makebits.getBits frac i fracBit' bit' (bits ||| bit)
      else w2b bits

/-- The bits of `frac` from `start` to `start + width - 1`, numbered from the most
significant one. -/
def makebits (frac : ℤ) : Except Exn (ℕ → ℕ → BitVec 8) :=
  if frac = 0 then .ok fun _ _ => 0
  else do
    let s ← numBitsForInt frac
    let highBit : ℤ := 1 <<< (s - 1).toNat
    return fun start width =>
      let fracBit := highBit >>> start
      let bit := 1#63 <<< (width - 1)
      makebits.getBits frac width fracBit bit 0

/-- The loop of `packSpecial`. -/
def packSpecial.lp (mant : ℤ) (ix : ℤ) (bytes : List (BitVec 8)) :
    Except Exn (List (BitVec 8)) :=
  if 0 < mant then do
    let bytes ← orb bytes ix (BitVec.ofInt 8 mant)
    packSpecial.lp (mant >>> (8 : ℕ)) (ix - 1) bytes
  else .ok bytes
termination_by mant.toNat
decreasing_by
  rw [Int.shiftRight_eq_div_pow]
  omega

/-- One byte of the mantissa: where it is, and which bits it has. -/
structure FracByte where
  byte : ℕ
  /-- The first bit, from the most significant one. -/
  start : ℕ
  width : ℕ

end RealToBits

namespace FloatParams

open RealToBits

variable (P : FloatParams)

def maxExp : ℤ := RealToBits.maxExp P.expWidth

def minExp : ℤ := 1 - P.maxExp

def numBytes : ℕ := P.width / 8

def numMantBytes : ℕ := (P.significant + 6) / 8

def numExpBytes : ℕ := (P.expWidth + 8) / 8

def expShift : ℕ := 8 * P.numExpBytes - (P.expWidth + 1)

/-- The bit layout of the mantissa. -/
def fracLayout : List FracByte :=
  let firstByte := P.numBytes - P.numMantBytes
  let firstBitWidth := 8 - (P.expWidth + 1) % 8
  (List.range P.numMantBytes).map fun i =>
    if i = 0 then { byte := firstByte, start := 1, width := firstBitWidth }
    else { byte := firstByte + i, start := firstBitWidth + 1 + (i - 1) * 8, width := 8 }

/-- The sign and the exponent. -/
def mkSignAndExp (isNeg : Bool) (exp : BitVec 63) : Except Exn (List (BitVec 8)) := do
  let bytes := List.replicate P.numBytes 0#8
  let bytes ← (if isNeg then orb bytes 0 0x80#8 else .ok bytes :)
  let alignedExp := exp <<< P.expShift
  (List.range P.numExpBytes).foldlM
    (fun bytes (i : ℕ) => orb bytes i (w2b (alignedExp >>> (8 * (P.numExpBytes - i - 1))))) bytes

/-- The representation with a sign, a biased exponent, and a mantissa without its
first bit. -/
def pack (isNeg : Bool) (exp : BitVec 63) (frac : ℤ) : Except Exn (List (BitVec 8)) := do
  let bytes ← P.mkSignAndExp isNeg exp
  let bits ← makebits frac
  P.fracLayout.foldlM (fun bytes l => orb bytes l.byte (bits l.start l.width)) bytes

/-- The representation of a number that is not normal, with its whole mantissa. -/
def packSpecial (isNeg : Bool) (exp : BitVec 63) (frac : ℤ) :
    Except Exn (List (BitVec 8)) := do
  let bytes ← P.mkSignAndExp isNeg exp
  packSpecial.lp frac (P.numBytes - 1) bytes

def specialExp : BitVec 63 := (1#63 <<< P.expWidth) - 1#63

def zero (isNeg : Bool) : Except Exn (List (BitVec 8)) := P.pack isNeg 0 0

def posInf : Except Exn (List (BitVec 8)) := P.packSpecial false P.specialExp 0

def negInf : Except Exn (List (BitVec 8)) := P.packSpecial true P.specialExp 0

def quietNaN : Except Exn (List (BitVec 8)) := P.packSpecial false P.specialExp 1

def decimal (digits : List ℤ) (exp : ℤ) : ℤ × ℤ :=
  digits.foldl (fun (m, e) d => (d + 10 * m, e - 1)) (0, exp)

/-- What `classify` and `toBits` begin with: the rounded fraction, and the exponent of
its first bit. -/
def toBinary (digits : List ℤ) (exp : ℤ) : M RealToBits.Float := do
  -- convert the digits to an integer and adjust the exponent
  let (frac, exp) := decimal digits exp
  let exp_10 ← toInt exp
  -- convert to base 2
  let start ← round { frac := frac, exp := 0 } P.precision
  let flt ← P.raiseToPower start exp_10
  let flt ← round flt (P.significant + 1)
  -- adjust the exponent for the size of the fraction
  let bits ← numBitsForInt flt.frac
  let exp ← toInt (flt.exp + bits)
  let exp ← toInt (exp - 1)
  return { frac := flt.frac, exp := exp }

/-- The class of a finite literal with digits. -/
def classifyFlt (digits : List ℤ) (exp : ℤ) : M FloatClass := do
  let flt ← P.toBinary digits exp
  if flt.exp < P.minExp then
    let diff ← toInt (P.minExp - flt.exp)
    let frac := flt.frac >>> diff.toNat
    if 0 < frac then return .subnormal else return .zero
  else if P.maxExp < flt.exp then return .inf
  else return .normal

/-- The class of the number that a literal is rounded to. -/
def classify : RealLit → M FloatClass
  | .posInf => return .inf
  | .negInf => return .inf
  | .qNaN => return .nan
  | .flt _ [] _ => return .zero
  | .flt _ digits exp =>
      -- converting the exponent to finite precision can raise Overflow
      tryCatch (P.classifyFlt digits exp) fun
        | .overflow => return .inf
        | x => throw x

/-- The bytes of a finite literal with digits, and its class. -/
def toBitsFlt (isNeg : Bool) (digits : List ℤ) (exp : ℤ) :
    M (List (BitVec 8) × FloatClass) := do
  let flt ← P.toBinary digits exp
  if flt.exp < P.minExp then
    let diff ← toInt (P.minExp - flt.exp)
    let frac := flt.frac >>> diff.toNat
    if 0 < frac then return (← P.packSpecial isNeg 0 frac, .subnormal)
    else return (← P.zero isNeg, .zero)
  else if P.maxExp < flt.exp then throw .overflow
  else
    let biased ← toInt (flt.exp + P.maxExp)
    return (← P.pack isNeg (BitVec.ofInt 63 biased) flt.frac, .normal)

/-- The bytes that represent the number that a literal is rounded to, and its class. -/
def toBits : RealLit → M (List (BitVec 8) × FloatClass)
  | .posInf => return (← P.posInf, .inf)
  | .negInf => return (← P.negInf, .inf)
  | .qNaN => return (← P.quietNaN, .nan)
  | .flt isNeg [] _ => return (← P.zero isNeg, .zero)
  | .flt isNeg digits exp => P.toBitsFlt isNeg digits exp

/-- The bit number `k` of a representation, the sign being number 0. -/
def bit (bytes : List (BitVec 8)) (k : ℕ) : Bool :=
  (bytes.getD (k / 8) 0).getLsbD (7 - k % 8)

/-- The class of number that bytes represent: by an exponent with all bits or no bit
set, and a mantissa with or without one. -/
def classOf (bytes : List (BitVec 8)) : FloatClass :=
  let expBits := (List.range P.expWidth).map fun j => bit bytes (1 + j)
  let fracBits := (List.range (P.significant - 1)).map fun j => bit bytes (1 + P.expWidth + j)
  if expBits.all id then
    if fracBits.any id then .nan else .inf
  else if expBits.any id then .normal
  else if fracBits.any id then .subnormal
  else .zero

end FloatParams

end SmlNj
