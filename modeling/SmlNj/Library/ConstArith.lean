import Mathlib.Data.Int.Bitwise
import SmlNj.Basics.LambdaVar

/-!
# Constant arithmetic

Arithmetic on the integers that represent constants in the intermediate
representations: the signed operations trap when a result does not fit its
width, the unsigned ones wrap.  Shift amounts reach a shift through
`Word.fromLargeInt`, which wraps at the word size of the compiler.
-/

namespace SmlNj.ConstArith

/-- `pow2 w = 2^w`. -/
def pow2 (w : ℕ) : ℤ := 2 ^ w

def shiftAmt (b : ℤ) : ℕ := (b % 2 ^ Target.defaultIntSz).toNat

/-- Check that `n` is representable in `wid` bits. -/
def sNarrow (wid : ℕ) (n : ℤ) : Except Exn ℤ :=
  let limit := pow2 (wid - 1)
  if n < -limit ∨ limit ≤ n then .error .overflow else .ok n

def toSigned (wid : ℕ) (a : ℤ) : ℤ :=
  if a < pow2 (wid - 1) then a else a - pow2 wid

def sAdd (wid : ℕ) (a b : ℤ) : Except Exn ℤ := sNarrow wid (a + b)

def sSub (wid : ℕ) (a b : ℤ) : Except Exn ℤ := sNarrow wid (a - b)

def sMul (wid : ℕ) (a b : ℤ) : Except Exn ℤ := sNarrow wid (a * b)

def sDiv (wid : ℕ) (a b : ℤ) : Except Exn ℤ :=
  if b = 0 then .error .div else sNarrow wid (Int.fdiv a b)

def sMod (wid : ℕ) (a b : ℤ) : Except Exn ℤ :=
  if b = 0 then .error .div else sNarrow wid (Int.fmod a b)

def sQuot (wid : ℕ) (a b : ℤ) : Except Exn ℤ :=
  if b = 0 then .error .div else sNarrow wid (Int.tdiv a b)

def sRem (wid : ℕ) (a b : ℤ) : Except Exn ℤ :=
  if b = 0 then .error .div else sNarrow wid (Int.tmod a b)

def sNeg (wid : ℕ) (a : ℤ) : Except Exn ℤ := sNarrow wid (-a)

def sShL (wid : ℕ) (a b : ℤ) : Except Exn ℤ :=
  if a = 0 then .ok 0
  else if b ≥ wid then .error .overflow
  else sNarrow wid (a * 2 ^ shiftAmt b)

def sShR (wid : ℕ) (a b : ℤ) : Except Exn ℤ :=
  sNarrow wid (a / 2 ^ shiftAmt (min b wid))

/-- Keep the low `wid` bits. -/
def uNarrow (wid : ℕ) (n : ℤ) : ℤ := Int.land n (pow2 wid - 1)

def toUnsigned (wid : ℕ) (n : ℤ) : ℤ := uNarrow wid n

def uAdd (wid : ℕ) (a b : ℤ) : ℤ := uNarrow wid (a + b)

def uSub (wid : ℕ) (a b : ℤ) : ℤ := uNarrow wid (a - b)

def uMul (wid : ℕ) (a b : ℤ) : ℤ := uNarrow wid (a * b)

def uDiv (wid : ℕ) (a b : ℤ) : Except Exn ℤ :=
  if b = 0 then .error .div else .ok (uNarrow wid (Int.tdiv a b))

def uMod (wid : ℕ) (a b : ℤ) : Except Exn ℤ :=
  if b = 0 then .error .div else .ok (uNarrow wid (Int.tmod a b))

def uNeg (wid : ℕ) (a : ℤ) : ℤ :=
  let mask := pow2 wid - 1
  Int.land mask (Int.xor mask a + 1)

def uShL (wid : ℕ) (a b : ℤ) : ℤ :=
  if b ≥ wid then 0 else uNarrow wid (a * 2 ^ shiftAmt b)

def uShR (wid : ℕ) (a b : ℤ) : ℤ :=
  if b ≥ wid then 0 else uNarrow wid (a / 2 ^ shiftAmt b)

def uEq (wid : ℕ) (a b : ℤ) : Bool := toUnsigned wid a = toUnsigned wid b

def uLess (wid : ℕ) (a b : ℤ) : Bool := toUnsigned wid a < toUnsigned wid b

def uLessEq (wid : ℕ) (a b : ℤ) : Bool := toUnsigned wid a ≤ toUnsigned wid b

/-- Keep the low `wid` bits. -/
def narrow (wid : ℕ) (n : ℤ) : ℤ := Int.land n (pow2 wid - 1)

def bAnd (wid : ℕ) (a b : ℤ) : ℤ := narrow wid (Int.land a b)

def bOr (wid : ℕ) (a b : ℤ) : ℤ := narrow wid (Int.lor a b)

def bXor (wid : ℕ) (a b : ℤ) : ℤ := narrow wid (Int.xor a b)

def bNot (wid : ℕ) (a : ℤ) : ℤ := narrow wid (Int.xor a (pow2 wid - 1))

/-- Rotate left. -/
def bRotateL (wid : ℕ) (a b : ℤ) : ℤ :=
  let a := if a < 0 then narrow wid a else a
  match shiftAmt (b % wid) with
  | 0 => a
  | n => narrow wid (Int.lor (a * 2 ^ n) (a / 2 ^ (wid - n)))

/-- Rotate right. -/
def bRotateR (wid : ℕ) (a b : ℤ) : ℤ :=
  let a := if a < 0 then narrow wid a else a
  match shiftAmt (b % wid) with
  | 0 => a
  | n => narrow wid (Int.lor (a * 2 ^ (wid - n)) (a / 2 ^ n))

end SmlNj.ConstArith
