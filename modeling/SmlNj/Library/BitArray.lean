import Mathlib.Data.BitVec
import SmlNj.Lib.TotalRun

/-!
# Arrays of bits

The mutable arrays of booleans, packed into arrays of bytes: bit `n` is bit `n mod 8` of
byte `n div 8`, and the bits of the storage beyond the length are zero.

Integers and words have 63 bits.  Of the sums and differences, those of a length and an
argument may overflow, and raise `Overflow` then; words wrap around.  An access to an array
of bytes out of bounds raises `Subscript`, on which many of the loops rely to end.  The loops
call themselves by `apply`, which keeps the place of the call in the text out of their values.

## Main definitions

* `BitArray.Heap`, `BitArray.W8A` — the arrays of bytes.
* `BitArray.BA` — the arrays of bits.
* `BitArray.rightblt`, `BitArray.leftblt` — copies of blocks of bits.
* `BitArray.lshift_w`, `BitArray.rshift_w`, `BitArray.extend0`, `BitArray.extend1`.
* `BitArray.fromString`, `BitArray.toString`, `BitArray.ofBits`, `BitArray.getBits`.
* `BitArray.andb`, `BitArray.orb`, `BitArray.xorb`, `BitArray.notb`, `BitArray.eqBits`.
* `BitArray.union`, `BitArray.intersection`, `BitArray.complement` — in place.
* `BitArray.modify`, `BitArray.modifyi` — maps.
-/

namespace SmlNj.BitArray

open TotalRun

/-- The exceptions. -/
inductive Exn
  | subscript
  | size
  | overflow
  | domain
  | fail (msg : String)
  deriving DecidableEq

/-- The arrays of bytes that have been created. -/
structure Heap where
  next : ℕ
  mem : ℕ → List (BitVec 8)

abbrev Exec := Run Exn Heap

def checked (i : ℤ) : Exec ℤ :=
  if -2 ^ 62 ≤ i ∧ i < 2 ^ 62 then pure i else throw .overflow

/-- `Word.fromInt` -/
def word (i : ℤ) : BitVec 63 := BitVec.ofInt 63 i

/-- Unsigned comparison for bound checking: `0 <= i < len`. -/
def uLt (i len : ℤ) : Bool := (word i).ult (word len)

/-! ### Arrays and vectors of bytes -/

namespace W8A

/-- `Word8Array.maxLen` -/
def maxLen : ℤ := 2 ^ 56 - 1

def alloc (bytes : List (BitVec 8)) : Exec ℕ := ExceptT.mk fun s =>
  some (.ok s.next, ⟨s.next + 1, Function.update s.mem s.next bytes⟩)

/-- `Word8Array.array` -/
def array (len : ℤ) (v : BitVec 8) : Exec ℕ :=
  if len = 0 then alloc []
  else if uLt maxLen len then throw .size
  else alloc (List.replicate len.toNat v)

/-- `Word8Array.length` -/
def length (a : ℕ) : Exec ℤ := ExceptT.mk fun s => some (.ok (s.mem a).length, s)

/-- `Word8Array.sub` -/
def sub (a : ℕ) (i : ℤ) : Exec (BitVec 8) := ExceptT.mk fun s =>
  if 0 ≤ i ∧ i < (s.mem a).length then some (.ok ((s.mem a).getD i.toNat 0#8), s)
  else some (.error .subscript, s)

/-- `Word8Array.update` -/
def update (a : ℕ) (i : ℤ) (v : BitVec 8) : Exec Unit := ExceptT.mk fun s =>
  if 0 ≤ i ∧ i < (s.mem a).length then
    some (.ok (), ⟨s.next, Function.update s.mem a ((s.mem a).set i.toNat v)⟩)
  else some (.error .subscript, s)

/-- `Word8Array.vector` -/
def vector (a : ℕ) : Exec (List (BitVec 8)) := ExceptT.mk fun s => some (.ok (s.mem a), s)

end W8A

/-- `Word8Vector.sub` -/
def W8V.sub (v : List (BitVec 8)) (i : ℤ) : Exec (BitVec 8) :=
  if 0 ≤ i ∧ i < v.length then pure (v.getD i.toNat 0#8) else throw .subscript

def hexs : List (BitVec 8) :=
  "0123456789abcdef".toList.map fun c => BitVec.ofNat 8 c.toNat

def lomask : List (BitVec 8) :=
  [0x00#8, 0x01#8, 0x03#8, 0x07#8, 0x0f#8, 0x1f#8, 0x3f#8, 0x7f#8, 0xff#8]

def himask : List (BitVec 8) :=
  [0xff#8, 0xfe#8, 0xfc#8, 0xf8#8, 0xf0#8, 0xe0#8, 0xc0#8, 0x80#8, 0x00#8]

def hibits (i : ℤ) : Exec (BitVec 8) := W8V.sub himask i

def lobits (i : ℤ) : Exec (BitVec 8) := W8V.sub lomask i

def wmask7 (i : ℤ) : BitVec 63 := word i &&& 7#63

def mask7 (i : ℤ) : ℤ := (wmask7 i).toInt

/-- The number of bytes needed to represent the given number of bits. -/
def sizeOf (n : ℤ) : Exec ℤ := do return (← checked (n + 7)) / 8

/-- The index of the byte that holds bit `i`. -/
def byteOf (i : ℤ) : ℤ := i / 8

/-- The mask for bit `i` in a byte. -/
def bit (i : ℤ) : BitVec 8 := 1#8 <<< (word i &&& 7#63).toNat

/-! ### Creation -/

/-- An array of bits. -/
structure BA where
  nbits : ℤ
  bits : ℕ

def maxLen : ℤ := 8 * W8A.maxLen

/-- A new array of equal elements. -/
def array (len : ℤ) (init : Bool) : Exec BA :=
  if len = 0 then do
    let bits ← W8A.array 0 0#8
    return ⟨0, bits⟩
  else
    match init with
    | false => do
      let bits ← W8A.array (← sizeOf len) 0#8
      return ⟨len, bits⟩
    | true => do
      let sz ← sizeOf len
      let bits ← W8A.array sz 0xff#8
      if len % 8 = 0 then return ⟨len, bits⟩
      else do
        W8A.update bits (sz - 1) (← lobits (len % 8))
        return ⟨len, bits⟩

/-- The value of a hexadecimal digit. -/
def nibble (d : BitVec 8) : Exec (BitVec 8) :=
  if 0x30#8 ≤ d ∧ d ≤ 0x39#8 then pure (d - 0x30#8)
  else if 0x41#8 ≤ d ∧ d ≤ 0x46#8 then pure (d - 0x41#8 + 10#8)
  else if 0x61#8 ≤ d ∧ d ≤ 0x66#8 then pure (d - 0x61#8 + 10#8)
  else throw .domain

/-- Fill an array from hexadecimal digits, the lowest first. -/
def fromString.init (bv : BA) : List (BitVec 8) → ℤ → Exec (Option BA)
  | [], _ => return some bv
  | [x], i => do
    W8A.update bv.bits i (← nibble x)
    return some bv
  | x1 :: x2 :: r, i => do
    let n2 ← nibble x2
    let n1 ← nibble x1
    W8A.update bv.bits i ((n2 <<< 4) ||| n1)
    init bv r (i + 1)

/-- The array that a string of hexadecimal digits stands for. -/
def fromString (s : List (BitVec 8)) : Exec (Option BA) :=
  tryCatch (do
    let len : ℤ := 4 * s.length
    let bv ← array len false
    fromString.init bv s.reverse 0) fun _ => pure none

/-- Put the digits of the bytes from `i` on, the lowest at `j` and the others before it. -/
def toString.put (bits buf : ℕ) (i j : ℤ) : Exec Unit := do
  let v ← W8A.sub bits i
  W8A.update buf j (← W8V.sub hexs (v &&& 0x0f#8).toNat)
  W8A.update buf (j - 1) (← W8V.sub hexs (v >>> 4).toNat)
  (by apply put : ℕ → ℕ → ℤ → ℤ → Exec Unit) bits buf (i + 1) (j - 2)
partial_fixpoint

/-- The hexadecimal digits of an array. -/
def toString (ba : BA) : Exec (List (BitVec 8)) :=
  if ba.nbits = 0 then return []
  else do
    let len := (ba.nbits + 3) / 4
    let buf ← W8A.array len 0#8
    tryCatch (toString.put ba.bits buf 0 (len - 1)) fun _ => pure ()
    W8A.vector buf

/-- Set a bit. -/
def ofBits.init (bits : ℕ) (len i : ℤ) : Exec Unit :=
  if uLt i len then do
    let idx := byteOf i
    let b := 1#8 <<< (word i &&& 7#63).toNat
    W8A.update bits idx ((← W8A.sub bits idx) ||| b)
  else throw .subscript

/-- `bits`: an array with the given bits set. -/
def ofBits (len : ℤ) (l : List ℤ) : Exec BA :=
  if uLt len maxLen then do
    let bv ← array len false
    l.forM (ofBits.init bv.bits len)
    return bv
  else throw .size

/-- The bits of a byte that are set, from bit `bit` down, before a list. -/
def getBits.extractBits (bit : ℤ) (data : BitVec 8) (l : List ℤ) : Exec (List ℤ) :=
  if data = 0#8 then return l
  else
    let l' := if data &&& 0x80#8 = 0#8 then l else bit :: l
    (by apply extractBits : ℤ → BitVec 8 → List ℤ → Exec (List ℤ)) (bit - 1) (data <<< 1) l'
partial_fixpoint

/-- The bits that are set in the bytes from `i` down, before a list. -/
def getBits.extract (bits : ℕ) (i bitnum : ℤ) (l : List ℤ) : Exec (List ℤ) :=
  if i = -1 then return l
  else do
    let l' ← getBits.extractBits bitnum (← W8A.sub bits i) l
    (by apply extract : ℕ → ℤ → ℤ → List ℤ → Exec (List ℤ)) bits (i - 1) (bitnum - 8) l'
partial_fixpoint

/-- The bits that are set, in ascending order. -/
def getBits (ba : BA) : Exec (List ℤ) :=
  if ba.nbits = 0 then return []
  else do
    let maxbit := ba.nbits - 1
    let hiByte := byteOf maxbit
    let delta := word maxbit &&& 7#63
    let l ← getBits.extractBits maxbit ((← W8A.sub ba.bits hiByte) <<< (7#63 - delta).toNat) []
    getBits.extract ba.bits (hiByte - 1) (maxbit - delta.toInt - 1) l

/-- Copy the bytes from `i` on, as long as there are any. -/
def copybits.cpy (bits newbits : ℕ) (i : ℤ) : Exec Unit := do
  W8A.update newbits i (← W8A.sub bits i)
  (by apply cpy : ℕ → ℕ → ℤ → Exec Unit) bits newbits (i + 1)
partial_fixpoint

def copybits (bits newbits : ℕ) : Exec Unit :=
  tryCatch (copybits.cpy bits newbits 0) fun _ => pure ()

def mkCopy (ba : BA) : Exec BA := do
  let ba' ← array ba.nbits false
  copybits ba.bits ba'.bits
  return ba'

/-- Extend by zeros to the given length. -/
def extend0 (ba : BA) (n : ℤ) : Exec BA :=
  if ba.nbits ≥ n then mkCopy ba
  else do
    let newbits ← W8A.array (← sizeOf n) 0#8
    tryCatch (copybits.cpy ba.bits newbits 0) fun _ => pure ()
    return ⟨n, newbits⟩

/-- Clear what is beyond the length in the last of `len` bytes. -/
def extend1.last (newbits : ℕ) (len n : ℤ) : Exec Unit :=
  let lft := mask7 n
  if lft = 0 then pure ()
  else do
    let v ← W8A.sub newbits (len - 1)
    W8A.update newbits (len - 1) (v &&& (← lobits lft))

/-- The last byte of the old array, which the new ones may share. -/
def extend1.adjust (bits newbits : ℕ) (len left n j : ℤ) : Exec Unit := do
  let _ ← (if left = 0 then pure ()
    else do
      let v ← W8A.sub bits j
      W8A.update newbits j (v ||| (← hibits left)) :)
  extend1.last newbits len n

def extend1.cpy (bits newbits : ℕ) (len nbytes left n i : ℤ) : Exec Unit :=
  if i = nbytes then extend1.adjust bits newbits len left n i
  else do
    W8A.update newbits i (← W8A.sub bits i)
    (by apply cpy : ℕ → ℕ → ℤ → ℤ → ℤ → ℤ → ℤ → Exec Unit) bits newbits len nbytes left n (i + 1)
partial_fixpoint

/-- Extend by ones to the given length. -/
def extend1 (ba : BA) (n : ℤ) : Exec BA :=
  if ba.nbits ≥ n then mkCopy ba
  else do
    let len ← sizeOf n
    let newbits ← W8A.array len 0xff#8
    let nbytes := byteOf ba.nbits
    let left := mask7 ba.nbits
    extend1.cpy ba.bits newbits len nbytes left n 0
    return ⟨n, newbits⟩

/-! ### Blocks of bits -/

/-- The low bits of `rb` and the high bits of `lb`. -/
def fit (lb rb : BitVec 8) (rbits : ℤ) : Exec (BitVec 8) := do
  let lo ← lobits rbits
  let hi ← hibits rbits
  return (rb &&& lo) ||| (lb &&& hi)

/-- The last byte of a copy of `len` bits. -/
def simpleCopy.last (src dest : ℕ) (len s d : ℤ) : Exec Unit :=
  let lft := mask7 len
  if lft = 0 then do W8A.update dest d (← W8A.sub src s)
  else do
    let lb ← W8A.sub dest d
    let rb ← W8A.sub src s
    W8A.update dest d (← fit lb rb lft)

def simpleCopy.cpy (src dest : ℕ) (lastbyte len s d : ℤ) : Exec Unit :=
  if d = lastbyte then simpleCopy.last src dest len s d
  else do
    W8A.update dest d (← W8A.sub src s)
    (by apply cpy : ℕ → ℕ → ℤ → ℤ → ℤ → ℤ → Exec Unit) src dest lastbyte len (s + 1) (d + 1)
partial_fixpoint

/-- Copy from byte `s` on to byte `d` on. -/
def simpleCopy (src dest : ℕ) (lastbyte len s d : ℤ) : Exec Unit :=
  simpleCopy.cpy src dest lastbyte len s d

/-- The last byte of a copy to the right. -/
def rightblt.finish (src dest : ℕ) (bitshift : BitVec 63) (len : ℤ) (sb : BitVec 8) (s d : ℤ) :
    Exec Unit := do
  let lshift := 8#63 - bitshift
  let left := mask7 (len - 1) + 1
  -- enough bits in sb
  if word left ≤ lshift then do
    let lb ← W8A.sub dest d
    W8A.update dest d (← fit lb (sb >>> bitshift.toNat) left)
  else do
    let sb' := (sb >>> bitshift.toNat) ||| ((← W8A.sub src s) <<< lshift.toNat)
    let lb ← W8A.sub dest d
    W8A.update dest d (← fit lb sb' left)

def rightblt.loop (src dest : ℕ) (bitshift : BitVec 63) (len lastbyte : ℤ) (sb : BitVec 8)
    (s d : ℤ) : Exec Unit :=
  if d = lastbyte then rightblt.finish src dest bitshift len sb s d
  else do
    let lshift := 8#63 - bitshift
    let sb' ← W8A.sub src s
    W8A.update dest d ((sb >>> bitshift.toNat) ||| ((sb' <<< lshift.toNat) &&& 0xff#8))
    (by apply loop : ℕ → ℕ → BitVec 63 → ℤ → ℤ → BitVec 8 → ℤ → ℤ → Exec Unit)
      src dest bitshift len lastbyte sb' (s + 1) (d + 1)
partial_fixpoint

/-- `rightblt` copies bits `[shft,shft+len-1]` of `src` to bits `[0,len-1]` in target.
Assume all parameters and lengths are okay. -/
def rightblt (src dest : ℕ) (shft len : ℤ) : Exec Unit :=
  let byte := byteOf shft
  let bitshift := wmask7 shft
  if bitshift = 0#63 then simpleCopy src dest (byteOf (len - 1)) len byte 0
  else do
    let sb ← W8A.sub src byte
    rightblt.loop src dest bitshift len (byteOf (len - 1)) sb (byte + 1) 0

/-- A copy to the left within one byte. -/
def leftblt.sliceCopy (src dest : ℕ) (bitshift : BitVec 63) (s d len : ℤ) : Exec Unit := do
  let mask := (← lobits len) <<< bitshift.toNat
  let sb := ((← W8A.sub src s) <<< bitshift.toNat) &&& mask
  let db := (← W8A.sub dest d) &&& ~~~mask
  W8A.update dest d (sb ||| db)

/-- The last byte of a copy to the left. -/
def leftblt.finish (src dest : ℕ) (bitshift : BitVec 63) (shft len : ℤ) (sb : BitVec 8)
    (s d : ℤ) : Exec Unit := do
  let rshift := 8#63 - bitshift
  let left := mask7 (shft + len - 1) + 1
  -- enough bits in sb
  if word left ≤ bitshift then do
    let lb ← W8A.sub dest d
    W8A.update dest d (← fit lb (sb >>> rshift.toNat) left)
  else do
    let sb' := (sb >>> rshift.toNat) ||| ((← W8A.sub src s) <<< bitshift.toNat)
    let lb ← W8A.sub dest d
    W8A.update dest d (← fit lb sb' left)

def leftblt.loop (src dest : ℕ) (bitshift : BitVec 63) (shft len lastbyte : ℤ) (sb : BitVec 8)
    (s d : ℤ) : Exec Unit :=
  if d = lastbyte then leftblt.finish src dest bitshift shft len sb s d
  else do
    let rshift := 8#63 - bitshift
    let sb' ← W8A.sub src s
    W8A.update dest d ((sb >>> rshift.toNat) ||| ((sb' <<< bitshift.toNat) &&& 0xff#8))
    (by apply loop : ℕ → ℕ → BitVec 63 → ℤ → ℤ → ℤ → BitVec 8 → ℤ → ℤ → Exec Unit)
      src dest bitshift shft len lastbyte sb' (s + 1) (d + 1)
partial_fixpoint

/-- A copy to the left over more than one byte. -/
def leftblt.copy (src dest : ℕ) (bitshift : BitVec 63) (shft len byte lastbyte : ℤ) :
    Exec Unit := do
  let sb ← W8A.sub src 0
  let rb ← W8A.sub dest byte
  W8A.update dest byte (← fit (sb <<< bitshift.toNat) rb bitshift.toInt)
  leftblt.loop src dest bitshift shft len lastbyte sb 1 (byte + 1)

/-- `leftblt` copies bits `[0,len-1]` of `src` to bits `[shft,shft+len-1]` in target.
Assume all parameters and lengths are okay. -/
def leftblt (src dest : ℕ) (shft len : ℤ) : Exec Unit :=
  if len = 0 then pure ()
  else
    let byte := byteOf shft
    let bitshift := wmask7 shft
    let lastbyte := byteOf (shft + len - 1)
    if bitshift = 0#63 then simpleCopy src dest lastbyte len 0 byte
    else if lastbyte = byte then leftblt.sliceCopy src dest bitshift 0 byte len
    else leftblt.copy src dest bitshift shft len byte lastbyte

/-- `<<` -/
def lshift_w (ba : BA) (n : BitVec 63) : Exec BA :=
  if n = 0#63 then mkCopy ba
  else do
    let shft := n.toInt
    let newlen ← checked (ba.nbits + shft)
    let newbits ← W8A.array (← sizeOf newlen) 0#8
    leftblt ba.bits newbits shft ba.nbits
    return ⟨newlen, newbits⟩

def lshift (ba : BA) (shft : ℤ) : Exec BA :=
  if shft < 0 then throw (.fail "BitArray.lshift: negative shift")
  else lshift_w ba (word shft)

/-- `>>` -/
def rshift_w (ba : BA) (n : BitVec 63) : Exec BA :=
  if n = 0#63 then mkCopy ba
  else do
    let shft := n.toInt
    if shft ≥ ba.nbits then array 0 false
    else do
      let newlen ← checked (ba.nbits - shft)
      let newbits ← W8A.array (← sizeOf newlen) 0#8
      rightblt ba.bits newbits shft newlen
      return ⟨newlen, newbits⟩

def rshift (ba : BA) (shft : ℤ) : Exec BA :=
  if shft < 0 then throw (.fail "BitArray.rshift: negative shift")
  else rshift_w ba (word shft)

/-! ### Logical operations -/

/-- Clear what is beyond the length in the last byte. -/
def trim (tgt : ℕ) (len : ℤ) : Exec Unit :=
  let lft := mask7 len
  if lft = 0 then pure ()
  else do
    let n := (← W8A.length tgt) - 1
    let v ← W8A.sub tgt n
    W8A.update tgt n (v &&& (← lobits lft))

def andBlend.copy (bits bits' tgt : ℕ) (i : ℤ) : Exec Unit := do
  let b ← W8A.sub bits i
  let b' ← W8A.sub bits' i
  W8A.update tgt i (b &&& b')
  (by apply copy : ℕ → ℕ → ℕ → ℤ → Exec Unit) bits bits' tgt (i + 1)
partial_fixpoint

def andBlend (ba ba' : BA) (tgt : ℕ) (len : ℤ) : Exec Unit := do
  tryCatch (andBlend.copy ba.bits ba'.bits tgt 0) fun _ => pure ()
  trim tgt len

def orBlend.copy2 (bits tgt : ℕ) (i : ℤ) : Exec Unit := do
  W8A.update tgt i (← W8A.sub bits i)
  (by apply copy2 : ℕ → ℕ → ℤ → Exec Unit) bits tgt (i + 1)
partial_fixpoint

def orBlend.copy1 (f : BitVec 8 → BitVec 8 → BitVec 8) (bits bits' tgt : ℕ) (bnd i : ℤ) :
    Exec Unit :=
  if i = bnd then orBlend.copy2 bits tgt bnd
  else do
    let b ← W8A.sub bits i
    let b' ← W8A.sub bits' i
    W8A.update tgt i (f b b')
    (by apply copy1 : (BitVec 8 → BitVec 8 → BitVec 8) → ℕ → ℕ → ℕ → ℤ → ℤ → Exec Unit)
      f bits bits' tgt bnd (i + 1)
partial_fixpoint

def order (ba ba' : BA) : BA × BA := if ba.nbits ≥ ba'.nbits then (ba, ba') else (ba', ba)

def orBlend (f : BitVec 8 → BitVec 8 → BitVec 8) (ba ba' : BA) (tgt : ℕ) (len : ℤ) :
    Exec Unit := do
  let (ba, ba') := order ba ba'
  -- number of bytes in smaller array
  let bnd ← W8A.length ba'.bits
  tryCatch (orBlend.copy1 f ba.bits ba'.bits tgt bnd 0) fun _ => pure ()
  trim tgt len

def newblend (blendf : BA → BA → ℕ → ℤ → Exec Unit) (ba ba' : BA) (len : ℤ) : Exec BA := do
  let nb ← array len false
  blendf ba ba' nb.bits len
  return nb

def orb (ba ba' : BA) (len : ℤ) : Exec BA := newblend (orBlend (· ||| ·)) ba ba' len

def xorb (ba ba' : BA) (len : ℤ) : Exec BA := newblend (orBlend (· ^^^ ·)) ba ba' len

def andb (ba ba' : BA) (len : ℤ) : Exec BA := newblend andBlend ba ba' len

def union.loop (bits bits' : ℕ) (bnd i : ℤ) : Exec Unit :=
  if i = bnd then pure ()
  else do
    let b ← W8A.sub bits i
    let b' ← W8A.sub bits' i
    W8A.update bits i (b ||| b')
    (by apply loop : ℕ → ℕ → ℤ → ℤ → Exec Unit) bits bits' bnd (i + 1)
partial_fixpoint

/-- Or the second array into the first. -/
def union (ba ba' : BA) : Exec Unit := do
  let nbytes ← W8A.length ba.bits
  let nbytes' ← W8A.length ba'.bits
  if nbytes ≤ nbytes' then do
    union.loop ba.bits ba'.bits nbytes 0
    trim ba.bits ba.nbits
  else union.loop ba.bits ba'.bits nbytes' 0

def intersection.zeroFrom (b : ℕ) (i : ℤ) : Exec Unit := do
  W8A.update b i 0#8
  (by apply zeroFrom : ℕ → ℤ → Exec Unit) b (i + 1)
partial_fixpoint

/-- And the second array into the first. -/
def intersection (ba ba' : BA) : Exec Unit := do
  let nbytes ← W8A.length ba.bits
  let nbytes' ← W8A.length ba'.bits
  if nbytes ≤ nbytes' then andBlend ba ba' ba.bits (nbytes * 8)
  else do
    andBlend ba ba' ba.bits (nbytes' * 8)
    tryCatch (intersection.zeroFrom ba.bits nbytes') fun _ => pure ()

def flip.flp (src tgt : ℕ) (nbytes left i : ℤ) : Exec Unit :=
  if i = nbytes then
    if left = 0 then pure ()
    else do
      let v ← W8A.sub src i
      W8A.update tgt i (~~~v &&& (← lobits left))
  else do
    let v ← W8A.sub src i
    W8A.update tgt i (~~~v &&& 0xff#8)
    (by apply flp : ℕ → ℕ → ℤ → ℤ → ℤ → Exec Unit) src tgt nbytes left (i + 1)
partial_fixpoint

def flip (nbits : ℤ) (src tgt : ℕ) : Exec Unit :=
  flip.flp src tgt (byteOf nbits) (mask7 nbits) 0

def notb (ba : BA) : Exec BA := do
  let ba' ← array ba.nbits false
  flip ba.nbits ba.bits ba'.bits
  return ba'

def complement (ba : BA) : Exec Unit := flip ba.nbits ba.bits ba.bits

def eqBits.iszero (bits : ℕ) (i : ℤ) : Exec Bool := do
  if (← W8A.sub bits i) = 0#8 then
    (by apply iszero : ℕ → ℤ → Exec Bool) bits (i + 1)
  else return false
partial_fixpoint

def eqBits.cmp (bits bits' : ℕ) (minlen i : ℤ) : Exec Bool :=
  if i = minlen then eqBits.iszero bits i
  else do
    let b ← W8A.sub bits i
    let b' ← W8A.sub bits' i
    if b = b' then
      (by apply cmp : ℕ → ℕ → ℤ → ℤ → Exec Bool) bits bits' minlen (i + 1)
    else return false
partial_fixpoint

def eqBits (ba ba' : BA) : Exec Bool := do
  let (ba, ba') := order ba ba'
  let minlen ← W8A.length ba'.bits
  tryCatch (eqBits.cmp ba.bits ba'.bits minlen 0) fun _ => pure true

/-! ### Maps

The function that is mapped has a state of its own, which is passed along. -/

section Maps

variable {τ : Type}

/-- `Word8Array.modifyi`, from `i` on. -/
def W8A.modifyi.mdf (f : ℤ → BitVec 8 → StateM τ (BitVec 8)) (arr : ℕ) (len i : ℤ) (t : τ) :
    Exec τ :=
  if i ≥ len then return t
  else do
    let (v, t') := (f i (← W8A.sub arr i)).run t
    W8A.update arr i v
    (by apply mdf : (ℤ → BitVec 8 → StateM τ (BitVec 8)) → ℕ → ℤ → ℤ → τ → Exec τ)
      f arr len (i + 1) t'
partial_fixpoint

/-- `Word8Array.modifyi` -/
def W8A.modifyi (f : ℤ → BitVec 8 → StateM τ (BitVec 8)) (arr : ℕ) (t : τ) : Exec τ := do
  let len ← W8A.length arr
  W8A.modifyi.mdf f arr len 0 t

/-- The new byte, from its lowest bit on. -/
def modify.loop (f : Bool → StateM τ Bool) :
    ℕ → BitVec 8 → BitVec 8 → BitVec 8 → StateM τ (BitVec 8)
  | 0, _, a, _ => pure a
  | n + 1, byte, a, mask => do
    if ← f (byte &&& mask == mask) then loop f n byte (a &&& mask) (mask <<< 1)
    else loop f n byte a (mask <<< 1)

/-- Replace every element by its image. -/
def modify (f : Bool → StateM τ Bool) (ba : BA) (t : τ) : Exec τ :=
  if ba.nbits = 0 then return t
  else
    let last := byteOf (ba.nbits - 1)
    let f' := fun i byte =>
      if i < last then modify.loop f 8 byte 0#8 1#8
      else modify.loop f (mask7 (ba.nbits - 1) + 1).toNat byte 0#8 1#8
    W8A.modifyi f' ba.bits t

/-- The number of elements from `sbit` on, or the given one. -/
def valid (nbits sbit : ℤ) : Option ℤ → Exec ℤ
  | none => if sbit < 0 ∨ sbit > nbits then throw .subscript else return nbits - sbit
  | some len =>
    if sbit < 0 ∨ len < 0 ∨ sbit > nbits - len then throw .subscript else return len

def modifyi'.loop (f : ℤ → Bool → StateM τ Bool) (bits : ℕ) (last i : ℤ) (t : τ) : Exec τ :=
  if i = last then return t
  else do
    let index := byteOf i
    let biti := bit i
    let byte ← W8A.sub bits index
    let b := byte &&& biti != 0#8
    let (b', t') := (f i b).run t
    let _ ← (if b = b' then pure ()
      else if b' then W8A.update bits index (byte ||| biti)
      else W8A.update bits index (byte &&& ~~~biti) :)
    (by apply loop : (ℤ → Bool → StateM τ Bool) → ℕ → ℤ → ℤ → τ → Exec τ) f bits last (i + 1) t'
partial_fixpoint

/-- Replace the elements of a slice, by their indices. -/
def modifyi' (f : ℤ → Bool → StateM τ Bool) (ba : BA) (sbit : ℤ) (l : Option ℤ) (t : τ) :
    Exec τ :=
  if ba.nbits = 0 then return t
  else do
    let len ← valid ba.nbits sbit l
    let last := sbit + len
    modifyi'.loop f ba.bits last sbit t

def modifyi (f : ℤ → Bool → StateM τ Bool) (ba : BA) (t : τ) : Exec τ := modifyi' f ba 0 none t

end Maps

end SmlNj.BitArray
