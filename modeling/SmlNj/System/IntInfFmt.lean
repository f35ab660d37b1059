import SmlNj.System.IntInfShift
import SmlNj.System.ScanUtil

/-!
# Formatting and scanning of arbitrary-precision integers

The conversions between arbitrary-precision integers and strings.  Binary, octal and hexadecimal
numbers are cut into groups of bits; a group may span two digits of the representation.  Decimal
numbers are divided by the greatest power of ten that the source considers, and built from groups of
as many decimal digits.

A string is the list of its characters, and a stream the list of those still to be read.  The loops
that format have no bound of their own in the source; here they take a fuel.

## Main definitions

* `fmt` — the string of an integer.
* `scan` — read an integer.
* `scanString` — scan a string.
-/

namespace SmlNj.IntInf

open CoreIntInf

/-- `StringCvt.radix` -/
inductive Radix
  | bin | oct | dec | hex
  deriving DecidableEq

/-! ### Formatting -/

def addsign (negative : Bool) (l : List Char) : List Char := if negative then '~' :: l else l

/-- The digits of `c`, which has `cb` bits, and of the digits `xs` above it. -/
@[grind =] def bitfmtLoop (bits maxdig : ℕ) (digvec : List Char) (negative : Bool) :
    ℕ → List Char → List ℕ → ℕ → ℕ → Except CoreIntInf.Exn (List Char)
  | _, chars, [], 0, _ => .ok (addsign negative chars)
  | 0, _, _, _, _ => .error .outOfFuel
  | fuel + 1, chars, xs, c, cb =>
    let dig d := digvec.getD d ' '
    if cb ≥ bits then
      bitfmtLoop bits maxdig digvec negative fuel (dig (wordAndb c maxdig) :: chars) xs
        (word63Rshiftl c bits) (word63Sub cb bits)
    else
      let (x, xs') := match xs with
        | [] => (0, [])
        | x :: xs' => (x, xs')
      let a := wordAndb (wordOrb (word63Lshift x cb) c) maxdig
      bitfmtLoop bits maxdig digvec negative fuel (dig a :: chars) xs'
        (word63Rshiftl x (word63Sub bits cb)) (word63Add (word63Sub baseBits bits) cb)

/-- Formatting in a base that is a power of two. -/
def bitfmt (fuel bits maxdig : ℕ) (digvec : List Char) (i : Rep) :
    Except CoreIntInf.Exn (List Char) :=
  match i with
  | ⟨_, []⟩ => .ok ['0']
  | ⟨negative, digits⟩ => bitfmtLoop bits maxdig digvec negative fuel [] digits 0 0

/-- A power of ten that is no larger than the base, and its number of decimal digits. -/
def decTry (b d : ℕ) : ℕ × ℕ :=
  if b ≤ base then (b, d) else decTry (b / 10) (d - 1)
termination_by b
decreasing_by
  have : 0 < base := by decide
  omega

def decBase : ℕ := (decTry 1000000000 9).1

def decDigs : ℕ := (decTry 1000000000 9).2

/-- `WordImp.fmt StringCvt.DEC` -/
def toString' (d : ℕ) : List Char := Nat.toDigits 10 d

/-- `StringCvt.padLeft` -/
def padLeft (padChr : Char) (wid : ℕ) (s : List Char) : List Char :=
  List.replicate (wid - s.length) padChr ++ s

def decDig (d : ℕ) : List Char := padLeft '0' decDigs (toString' d)

/-- The groups of decimal digits of a natural, in front of those of `l`; `dfuel` is that of the
division. -/
@[grind =] def decfmtLoop (dfuel : ℕ) :
    ℕ → List (List Char) → List ℕ → Except CoreIntInf.Exn (List (List Char))
  | _, l, [] => .ok l
  | _, l, [x] => .ok (toString' x :: l)
  | 0, _, _ => .error .outOfFuel
  | fuel + 1, l, xs => do
    let (q, r) ← natdivmodd dfuel xs decBase
    decfmtLoop dfuel fuel (decDig r :: l) q

/-- Decimal formatting. -/
def decfmt (fuel : ℕ) (i : Rep) : Except CoreIntInf.Exn (List Char) :=
  match i with
  | ⟨_, []⟩ => .ok ['0']
  | ⟨negative, digits⟩ => do
    let l ← decfmtLoop fuel fuel [] digits
    return (if negative then ['~'] :: l else l).flatten

/-- **The string of an integer.** -/
def fmt (fuel : ℕ) : Radix → Rep → Except CoreIntInf.Exn (List Char)
  | .oct => bitfmt fuel 3 0x7 ['0', '1', '2', '3', '4', '5', '6', '7']
  | .hex => bitfmt fuel 4 0xf
      ['0', '1', '2', '3', '4', '5', '6', '7', '8', '9', 'A', 'B', 'C', 'D', 'E', 'F']
  | .bin => bitfmt fuel 1 0x1 ['0', '1']
  | .dec => decfmt fuel

/-! ### Scanning -/

/-- `PreBasis.isWS` -/
def isWS : Char → Bool
  | ' ' => true
  | '\t' => true
  | '\n' => true
  | '\x0b' => true
  | '\x0c' => true
  | '\r' => true
  | _ => false

/-- `StringCvt.skipWS` -/
def skipWS : List Char → List Char
  | c :: cs => if isWS c then skipWS cs else c :: cs
  | [] => []

/-- An optional sign, and an optional `x` when `hex` is set, in front of what `doit` reads. -/
def startscan {α : Type} (doit : Bool → List Char → Option α) (hex : Bool) (s : List Char) :
    Option α :=
  let hexprefix neg s :=
    match s with
    | 'x' :: s' | 'X' :: s' => doit neg s'
    | s => doit neg s
  let prefix' neg s := if hex then hexprefix neg s else doit neg s
  match skipWS s with
  | [] => none
  | '-' :: s' | '~' :: s' => prefix' true s'
  | '+' :: s' => prefix' false s'
  | s => prefix' false s

/-- What has been read: the lowest digit, in whose low `pos` bits nothing has been stored, and the
digits above it. -/
def bitscanDone (neg : Bool) (d pos : ℕ) (nat : List ℕ) (s : List Char) :
    Option (Rep × List Char) :=
  let i : Rep := match strip d nat with
    | [] => ⟨false, []⟩
    | nat => ⟨neg, nat⟩
  some (if pos = 0 then i else rshift i pos, s)

def bitscanLoop (bits : ℕ) (neg : Bool) : ℕ → ℕ → List ℕ → List Char → Option (Rep × List Char)
  | d, pos, nat, [] => bitscanDone neg d pos nat []
  | d, pos, nat, c :: s' =>
    let pos0 := word63Sub baseBits bits
    let maxDigit' := word63Sub (word63Lshift 1 bits) 1
    let v := ScanUtil.code c
    if maxDigit' < v then bitscanDone neg d pos nat (c :: s')
    else if pos < bits then
      if pos = 0 then bitscanLoop bits neg (word63Lshift v pos0) pos0 (strip d nat) s'
      else
        -- the bits of `v` go to two digits
        bitscanLoop bits neg (wordAndb (word63Lshift v (word63Add pos0 pos)) maxDigit)
          (word63Add pos0 pos) (strip (wordOrb d (word63Rshiftl v (word63Sub bits pos))) nat) s'
    else
      bitscanLoop bits neg (wordOrb d (word63Lshift v (word63Sub pos bits)))
        (word63Sub pos bits) nat s'

/-- Scanning in a base that is a power of two. -/
def bitscan (bits : ℕ) (prefixPat : ScanUtil.PrefixPat) (s : List Char) :
    Option (Rep × List Char) :=
  match ScanUtil.scanPrefix prefixPat s with
  | some ⟨neg, next, rest⟩ =>
    let pos0 := word63Sub baseBits bits
    bitscanLoop bits neg (word63Lshift next pos0) pos0 [] rest
  | none => none

def digVal (c : Char) : Option ℕ := if ScanUtil.code c ≤ 9 then some (ScanUtil.code c) else none

/-- The digits read are those of `nat` and, below them, those of `v`, with one power of ten in
`fact` for each. -/
def decscanLoop (negative : Bool) : List ℕ → ℕ → ℕ → List Char → Rep × List Char
  | nat, fact, v, [] => (bi ⟨negative, natmadd fact nat v⟩, [])
  | nat, fact, v, c :: s' =>
    let v' := ScanUtil.code c
    if v' > 9 then (bi ⟨negative, natmadd fact nat v⟩, c :: s')
    else if fact = decBase then decscanLoop negative (natmadd fact nat v) 10 v' s'
    else decscanLoop negative nat (word63Mul fact 10) (word63Add (word63Mul v 10) v') s'

def checkFirstDigit (negative : Bool) : List Char → Option (Rep × List Char)
  | [] => none
  | c :: s' =>
    match digVal c with
    | some v => some (decscanLoop negative [] 10 v s')
    | none => none

def decscan (s : List Char) : Option (Rep × List Char) := startscan checkFirstDigit false s

/-- **Read an integer**: the integer and what follows it. -/
def scan : Radix → List Char → Option (Rep × List Char)
  | .dec => decscan
  | .hex => bitscan 4 (ScanUtil.hexPat false)
  | .oct => bitscan 3 (ScanUtil.octPat false)
  | .bin => bitscan 1 (ScanUtil.binPat false)

/-- `StringCvt.scanString` -/
def scanString {α : Type} (scanFn : List Char → Option (α × List Char)) (s : List Char) :
    Option α :=
  match scanFn s with
  | none => none
  | some (x, _) => some x

end SmlNj.IntInf
