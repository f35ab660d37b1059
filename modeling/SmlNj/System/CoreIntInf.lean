import Mathlib.Data.Nat.Bitwise
import Mathlib.Data.Int.Basic

/-!
# Arbitrary-precision integers

The operations of the pervasive environment on arbitrary-precision integers, for
64-bit targets.  An integer is a sign and a list of 62-bit digits, least significant
first, stored in 63-bit words; zero is the empty list of digits.

Words are natural numbers, on which every primitive wraps around at its width; no
caller divides a word by zero, where the primitive would raise an exception.  The two
loops of the division that correct a trial quotient have no bound of their own
in the source; here they take a fuel.

## Main definitions

* `Rep` — the representation of an integer.
* `natadd0`, `natsub`, `natmul`, `natdivmod`, `natpow` — the operations on lists of digits.
* `add`, `sub`, `mul`, `quotRem'`, `divMod'`, `pow`, `lt`, `compare'` — the operations on
  integers.
-/

namespace SmlNj.CoreIntInf

/-- What an operation may raise. -/
inductive Exn
  /-- `Assembly.Overflow` -/
  | overflow
  /-- `Assembly.Div` -/
  | div
  /-- The local exception with which `natsub` reports a negative difference. -/
  | negative
  | outOfFuel
  deriving DecidableEq

def word63Add (a b : ℕ) : ℕ := (a + b) % 2 ^ 63

def word63Sub (a b : ℕ) : ℕ := (a + (2 ^ 63 - b)) % 2 ^ 63

def word63Mul (a b : ℕ) : ℕ := a * b % 2 ^ 63

def word63Lshift (a n : ℕ) : ℕ := a * 2 ^ n % 2 ^ 63

def word63Rshiftl (a n : ℕ) : ℕ := a / 2 ^ n

def word63Andb (a b : ℕ) : ℕ := a &&& b

def word64Add (a b : ℕ) : ℕ := (a + b) % 2 ^ 64

def word64Sub (a b : ℕ) : ℕ := (a + (2 ^ 64 - b)) % 2 ^ 64

def word64Mul (a b : ℕ) : ℕ := a * b % 2 ^ 64

def word64Lshift (a n : ℕ) : ℕ := a * 2 ^ n % 2 ^ 64

def word64Rshiftl (a n : ℕ) : ℕ := a / 2 ^ n

def word64Andb (a b : ℕ) : ℕ := a &&& b

def wToW64 (a : ℕ) : ℕ := a

/-- The conversion to the narrower word, which drops the top bit. -/
def w64ToW (a : ℕ) : ℕ := a % 2 ^ 63

def int63ToWord63 (j : ℤ) : ℕ := (j % 2 ^ 63).toNat

def hBaseBits : ℕ := 31

def baseBits : ℕ := word63Lshift hBaseBits 1

def base : ℕ := word63Lshift 1 baseBits

def maxDigit : ℕ := word63Sub base 1

def maxDigit64 : ℕ := wToW64 maxDigit

/-- The lower half of `maxDigit`. -/
def maxDigitL : ℕ := 0x7fffffff

def maxDigitL64 : ℕ := wToW64 maxDigitL

/-- The representation of an integer. -/
structure Rep where
  negative : Bool
  digits : List ℕ
  deriving DecidableEq

/-- A sign and digits, without the sign when there are no digits. -/
def bi (r : Rep) : Rep :=
  match r.digits with
  | [] => ⟨false, []⟩
  | _ :: _ => r

def abs' (r : Rep) : Rep := ⟨false, r.digits⟩

def neg (r : Rep) : Rep := bi ⟨!r.negative, r.digits⟩

def dcmp (x y : ℕ) : Ordering :=
  if x < y then .lt else if x > y then .gt else .eq

def natcmp : List ℕ → List ℕ → Ordering
  | [], [] => .eq
  | [], _ :: _ => .lt
  | _ :: _, [] => .gt
  | x :: xs, y :: ys =>
    match natcmp xs ys with
    | .eq => dcmp x y
    | unequal => unequal

def lt : Rep → Rep → Bool
  | ⟨false, _⟩, ⟨true, _⟩ => false
  | ⟨true, _⟩, ⟨false, _⟩ => true
  | ⟨negative, d1⟩, ⟨_, d2⟩ => natcmp d1 d2 == if negative then .gt else .lt

def gt (x y : Rep) : Bool := lt y x

def ge (x y : Rep) : Bool := !lt x y

def le (x y : Rep) : Bool := !gt x y

def compare' : Rep → Rep → Ordering
  | ⟨true, _⟩, ⟨false, _⟩ => .lt
  | ⟨false, _⟩, ⟨true, _⟩ => .gt
  | ⟨negative, d1⟩, ⟨_, d2⟩ => if negative then natcmp d2 d1 else natcmp d1 d2

/-! ### Addition and subtraction -/

def adddig (d1 d2 : ℕ) : Bool × ℕ :=
  let sum := word63Add d1 d2
  (decide (sum ≥ base), word63Andb sum maxDigit)

def natinc : List ℕ → List ℕ
  | [] => [1]
  | x :: xs => if x = maxDigit then 0 :: natinc xs else word63Add x 1 :: xs

/-- Subtract one. -/
@[grind =] def natdec : List ℕ → Except Exn (List ℕ)
  | 0 :: xs => do return maxDigit :: (← natdec xs)
  | [1] => .ok []
  | x :: xs => .ok (word63Sub x 1 :: xs)
  | [] => .error .overflow

mutual

/-- Add two naturals and a carry of one. -/
@[grind =] def natadd1 : List ℕ → List ℕ → List ℕ
  | xs, [] => natinc xs
  | [], ys => natinc ys
  | x :: xs, y :: ys =>
    let (carry, res) := adddig x y
    let (carry, res) := if res = maxDigit then (true, 0) else (carry, word63Add res 1)
    res :: if carry then natadd1 xs ys else natadd0 xs ys

/-- Add two naturals. -/
def natadd0 : List ℕ → List ℕ → List ℕ
  | xs, [] => xs
  | [], ys => ys
  | x :: xs, y :: ys =>
    let (carry, res) := adddig x y
    res :: if carry then natadd1 xs ys else natadd0 xs ys

end

def natadd01 (carry : Bool) (xs ys : List ℕ) : List ℕ :=
  if carry then natadd1 xs ys else natadd0 xs ys

/-- Subtract a natural and a carry from a natural that is hoped to be as large. -/
def natsub : List ℕ → List ℕ → Bool → Except Exn (List ℕ)
  | xs, [], false => .ok xs
  | xs, [], true => natsub xs [0] true
  | [], _ :: _, _ => .error .negative
  | x :: xs, y :: ys, c => do
    let y' := if c then word63Add y 1 else y
    let (res, carry) :=
      if x < y' then (word63Sub (word63Add x base) y', true) else (word63Sub x y', false)
    match ← natsub xs ys carry with
    | [] => return if res = 0 then [] else [res]
    | more => return res :: more
termination_by xs ys _ => (xs.length, if ys = [] then 1 else 0)

def natsub0 (xs ys : List ℕ) : Except Exn (List ℕ) := natsub xs ys false

def sub0 (xs ys : List ℕ) : Except Exn Rep :=
  match natsub0 xs ys with
  | .ok digits => .ok ⟨false, digits⟩
  | .error .negative => do return bi ⟨true, ← natsub0 ys xs⟩
  | .error e => .error e

def add0 : Bool → List ℕ → Bool → List ℕ → Except Exn Rep
  | false, xs1, false, xs2 => .ok ⟨false, natadd0 xs1 xs2⟩
  | true, xs1, true, xs2 => .ok ⟨true, natadd0 xs1 xs2⟩
  | false, xs1, true, xs2 => sub0 xs1 xs2
  | true, xs1, false, xs2 => sub0 xs2 xs1

def add (b1 b2 : Rep) : Except Exn Rep := add0 b1.negative b1.digits b2.negative b2.digits

def sub (b1 b2 : Rep) : Except Exn Rep := add0 b1.negative b1.digits (!b2.negative) b2.digits

/-- The product of two digits, as two digits, the high one first. -/
def ddmul (x y : ℕ) : ℕ × ℕ :=
  let high w64 := word64Rshiftl w64 hBaseBits
  let low w64 := word64Andb w64 maxDigitL64
  let xh := high (wToW64 x)
  let xl := low (wToW64 x)
  let yh := high (wToW64 y)
  let yl := low (wToW64 y)
  let a := word64Mul xh yh
  let c := word64Mul xl yl
  -- the mixed products `xh * yl + xl * yh`, by one multiplication
  let b' := word64Mul (word64Add xh xl) (word64Add yh yl)
  let b := word64Sub b' (word64Add a c)
  let bh := high b
  let bl := low b
  let l0 := word64Add c (word64Lshift bl hBaseBits)
  let l64 := word64Andb l0 maxDigit64
  let lc := word64Rshiftl l0 baseBits
  let h64 := word64Add (word64Add a bh) lc
  (w64ToW h64, w64ToW l64)

/-- Multiply a natural by a digit and add a digit. -/
@[grind =] def natmadd : ℕ → List ℕ → ℕ → List ℕ
  | 0, _, c => if c = 0 then [] else [c]
  | _ + 1, [], c => if c = 0 then [] else [c]
  | 1, x :: xs, c => if c = 0 then x :: xs else natadd0 (x :: xs) [c]
  | w + 2, x :: xs, c =>
    let (h, l) := ddmul (w + 2) x
    let (carry, l') := adddig l c
    let h' := if carry then word63Add h 1 else h
    l' :: natmadd (w + 2) xs h'

@[grind =] def natmul : List ℕ → List ℕ → List ℕ
  | [], _ => []
  | _ :: _, [] => []
  | x :: xs, ys =>
    if ys = [1] then x :: xs
    else if x :: xs = [1] then ys
    else natadd0 (natmadd x ys 0) (0 :: natmul xs ys)

def mul (x y : Rep) : Rep := bi ⟨x.negative != y.negative, natmul x.digits y.digits⟩

/-! ### Division -/

def one : Rep := ⟨false, [1]⟩

def negOne : Rep := ⟨true, [1]⟩

def zero : Rep := ⟨false, []⟩

def posi (digits : List ℕ) : Rep := ⟨false, digits⟩

def negi (digits : List ℕ) : Rep := ⟨true, digits⟩

def zneg (digits : List ℕ) : Rep := bi ⟨true, digits⟩

def consd : ℕ → List ℕ → List ℕ
  | 0, [] => []
  | x, xs => x :: xs

def scale (w : ℕ) : ℕ := base / word63Add w 1

/-- The length minus one, and the last element. -/
def length'n'last : List ℕ → ℤ × ℕ
  | [] => (0, 0)
  | [x] => (0, x)
  | _ :: y :: l =>
    let (len, last) := length'n'last (y :: l)
    (len + 1, last)

def nth : ℤ → List ℕ → ℕ
  | _, [] => 0
  | n, x :: xs => if n = 0 then x else nth (n - 1) xs

/-- The loop that corrects a trial half digit `q`. -/
def adjLoop (i y : ℕ) : ℕ → ℕ → ℕ → Except Exn (ℕ × ℕ)
  | 0, _, _ => .error .outOfFuel
  | fuel + 1, q, x =>
    if x ≥ y then .ok (q, word63Sub x y) else adjLoop i y fuel (word63Sub q 1) (word63Add x i)

/-- Divide a number of two digits by a digit; assumes `u < i` and `i ≥ base / 2`. -/
def natdivmod2 (fuel u v i : ℕ) : Except Exn (ℕ × ℕ) :=
  let low w := word63Andb w maxDigitL
  let high w := word63Rshiftl w hBaseBits
  let vh := high v
  let vl := low v
  let ih := high i
  let il := low i
  let adj q r vx :=
    let x := word63Add (word63Lshift r hBaseBits) vx
    let y := word63Mul q il
    adjLoop i y fuel q x
  do
    let (q1, r1) ← adj (u / ih) (u % ih) vh
    let (q0, r0) ← adj (r1 / ih) (r1 % ih) vl
    return (word63Add (word63Lshift q1 hBaseBits) q0, r0)

/-- Long division by the digit `i'`. -/
def dmi (fuel i' : ℕ) : List ℕ → Except Exn (List ℕ × ℕ)
  | [] => .ok ([], 0)
  | d :: r => do
    let (qt, rm) ← dmi fuel i' r
    let (q1, r1) ← natdivmod2 fuel rm d i'
    return (consd q1 qt, r1)

/-- Divide a natural by a digit greater than zero. -/
def natdivmodd (fuel : ℕ) (m : List ℕ) (i : ℕ) : Except Exn (List ℕ × ℕ) :=
  if i = 1 then .ok (m, 0)
  else
    let s := scale i
    let i' := word63Mul i s
    let m' := natmadd s m 0
    do
      let (q, r) ← dmi fuel i' m'
      return (q, r / s)

/-- The two digits of a remainder from position `i` on, the high one first. -/
def msds : List ℕ → ℤ → ℕ × ℕ
  | [], _ => (0, 0)
  | [d], i => if i = 0 then (0, d) else msds [] (i - 1)
  | [d2, d1], i => if i = 0 then (d1, d2) else msds [d1] (i - 1)
  | _ :: d :: e :: r, i => msds (d :: e :: r) (i - 1)

/-- The loop that corrects a trial digit `q`, with the product `qn' = q * n'`. -/
def tryLoop (m n' : List ℕ) : ℕ → ℕ → List ℕ → Except Exn (ℕ × List ℕ)
  | 0, _, _ => .error .outOfFuel
  | fuel + 1, q, qn' =>
    match natsub0 m qn' with
    | .ok rr => .ok (q, rr)
    | .error .negative => do tryLoop m n' fuel (word63Sub q 1) (← natsub0 qn' n')
    | .error e => .error e

/-- Long division by the scaled divisor `n'`, whose last digit is `n1`. -/
def divl (fuel : ℕ) (n' : List ℕ) (ln : ℤ) (n1 : ℕ) : List ℕ → Except Exn (List ℕ × List ℕ)
  | [] => .ok ([], [])
  | d :: r => do
    let (qt, rm) ← divl fuel n' ln n1 r
    let m := consd d rm
    let (m1, m2) := msds m ln
    let trial := if m1 = n1 then .ok maxDigit else Prod.fst <$> natdivmod2 fuel m1 m2 n1
    let tq ← trial
    let (q, rr) ← tryLoop m n' fuel tq (natmadd tq n' 0)
    return (consd q qt, rr)

/-- The quotient and the remainder of two naturals. -/
@[grind =] def natdivmod (fuel : ℕ) : List ℕ → List ℕ → Except Exn (List ℕ × List ℕ)
  | _, [] => .error .div
  | [], _ :: _ => .ok ([], [])
  | d :: r, 0 :: s => do
    let (qt, rm) ← natdivmod fuel r s
    return (qt, consd d rm)
  | m, [d] => do
    let (qt, rm) ← natdivmodd fuel m d
    return (qt, if rm = 0 then [] else [rm])
  | m, n => do
    let (ln, last) := length'n'last n
    let s := scale last
    let m' := natmadd s m 0
    let n' := natmadd s n 0
    let n1 := nth ln n'
    let (qt, rm') ← divl fuel n' ln n1 m'
    let (rm, _) ← natdivmodd fuel rm' s
    return (qt, rm)

/-- The general case of `quotRem'`. -/
def quotRem'' (fuel : ℕ) (x y : Rep) : Except Exn (Rep × Rep) := do
  let (q, r) ← natdivmod fuel x.digits y.digits
  return (if x.negative ≠ y.negative then zneg q else posi q,
    if x.negative then zneg r else posi r)

def quotRem' (fuel : ℕ) : Rep → Rep → Except Exn (Rep × Rep)
  | _, ⟨_, []⟩ => .error .div
  | ⟨_, []⟩, _ => .ok (zero, zero)
  | x, y => quotRem'' fuel x y

/-- The general case of `divMod'`. -/
def divMod'' (fuel : ℕ) (x y : Rep) : Except Exn (Rep × Rep) :=
  if x.negative = y.negative then do
    let (q, r) ← natdivmod fuel x.digits y.digits
    return (posi q, if x.negative then zneg r else posi r)
  else do
    let (q, r) ← natdivmod fuel (← natdec x.digits) y.digits
    let mdd ← natsub y.digits r true
    return (negi (natinc q), if x.negative then posi mdd else zneg mdd)

def divMod' (fuel : ℕ) : Rep → Rep → Except Exn (Rep × Rep)
  | _, ⟨_, []⟩ => .error .div
  | ⟨_, []⟩, _ => .ok (zero, zero)
  | x, y => divMod'' fuel x y

def div' (fuel : ℕ) (x y : Rep) : Except Exn Rep := Prod.fst <$> divMod' fuel x y

def quot' (fuel : ℕ) (x y : Rep) : Except Exn Rep := Prod.fst <$> quotRem' fuel x y

/-- The modulus; a divisor of two, of either sign, is special. -/
def mod' (fuel : ℕ) : Rep → Rep → Except Exn Rep
  | _, ⟨_, []⟩ => .error .div
  | ⟨_, []⟩, _ => .ok zero
  | ⟨_, low :: _⟩, ⟨negative, [2]⟩ =>
    .ok (if word63Andb low 1 = 0 then zero else ⟨negative, [1]⟩)
  | x, y => Prod.snd <$> divMod'' fuel x y

/-- The remainder; a divisor of two, of either sign, is special. -/
def rem' (fuel : ℕ) : Rep → Rep → Except Exn Rep
  | _, ⟨_, []⟩ => .error .div
  | ⟨_, []⟩, _ => .ok zero
  | ⟨negative, low :: _⟩, ⟨_, [2]⟩ =>
    .ok (if word63Andb low 1 = 0 then zero else ⟨negative, [1]⟩)
  | x, y => Prod.snd <$> quotRem'' fuel x y

/-- Repeated squaring. -/
def exp (m : List ℕ) (n : ℕ) : List ℕ :=
  if n = 0 then [1]
  else if n = 1 then m
  else
    let x := exp m (word63Rshiftl n 1)
    let y := natmul x x
    if word63Andb n 1 = 0 then y else natmul y m
termination_by n
decreasing_by simp only [word63Rshiftl]; omega

def natpow (xs : List ℕ) (n : ℤ) : Except Exn (List ℕ) :=
  if n = 0 then .ok [1]
  else
    match xs with
    | [] => if n < 0 then .error .div else .ok []
    | x :: xs => .ok (if n < 0 then [] else exp (x :: xs) (int63ToWord63 n))

/-- The power; a negative exponent rounds towards zero. -/
def pow (i : Rep) (j : ℤ) : Except Exn Rep :=
  if j = 0 then .ok ⟨false, [1]⟩
  else if j < 0 then
    match i with
    | ⟨false, [1]⟩ => .ok one
    | ⟨_, []⟩ => .error .div
    | ⟨true, [1]⟩ => .ok (if j % 2 = 0 then one else negOne)
    | _ => .ok zero
  else do return bi ⟨i.negative && Int.tmod j 2 = 1, ← natpow i.digits j⟩

end SmlNj.CoreIntInf
