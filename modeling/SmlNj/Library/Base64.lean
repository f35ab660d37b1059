import SmlNj.Lib.ExceptList

/-!
# Base64

Three bytes are four characters of an alphabet of 64; a last group of one or two bytes is padded.
The decoder takes a table for the characters, with or without white space.  It first looks at the
last four characters for padding, from the end of the string, and then decodes the characters before
them, from its start.

Strings are lists of characters; a place in a string is a number and the rest of the string there.

## Main definitions

* `encode` — encoding.
* `decode64`, `decode`, `decodeStrict` — decoding.
-/

namespace SmlNj.Base64

open ExceptList

abbrev Word8 := BitVec 8

abbrev Chr := UInt8

/-- The exceptions. -/
inductive Exn
  | Incomplete
  | Invalid (i : ℕ) (c : Chr)
  deriving DecidableEq

def encTbl : List Chr :=
  "ABCDEFGHIJKLMNOPQRSTUVWXYZabcdefghijklmnopqrstuvwxyz0123456789+/".toList.map fun c =>
    UInt8.ofNat c.toNat

def padChar : Chr := 61

def incByte (b : Word8) : Chr := encTbl.getD b.toNat 0

/-- A triple of bytes is encoded into four characters. -/
def encode3 (b1 b2 b3 : Word8) : List Chr :=
  let c1 := b1 >>> 2
  let c2 := (b1 &&& 0x3) <<< 4 ||| b2 >>> 4
  let c3 := (0xf &&& b2) <<< 2 ||| b3 >>> 6
  let c4 := 0x3f &&& b3
  [incByte c1, incByte c2, incByte c3, incByte c4]

/-- A pair of bytes is encoded into three characters and a padding character. -/
def encode2 (b1 b2 : Word8) : List Chr :=
  let c1 := b1 >>> 2
  let c2 := (b1 &&& 0x3) <<< 4 ||| b2 >>> 4
  let c3 := (0xf &&& b2) <<< 2
  [incByte c1, incByte c2, incByte c3, padChar]

/-- A byte is encoded into two characters and two padding characters. -/
def encode1 (b1 : Word8) : List Chr :=
  let c1 := b1 >>> 2
  let c2 := (b1 &&& 0x3) <<< 4
  [incByte c1, incByte c2, padChar, padChar]

/-- **Encoding**: triples, and one or two extra bytes. -/
def encode : List Word8 → List Chr
  | b1 :: b2 :: b3 :: vec => encode3 b1 b2 b3 ++ encode vec
  | [b1, b2] => encode2 b1 b2
  | [b1] => encode1 b1
  | [] => []

/-! ### Decoding -/

def errCode : Word8 := 255
def spCode : Word8 := 65

def strictDecTbl (c : Chr) : Word8 :=
  if c ∈ encTbl then BitVec.ofNat 8 (encTbl.idxOf c) else errCode

def decTbl (c : Chr) : Word8 :=
  if c ∈ encTbl then BitVec.ofNat 8 (encTbl.idxOf c)
  else if c = 9 ∨ c = 10 ∨ c = 13 ∨ c = 32 then spCode
  else errCode

section Decode

variable (decodeChr : Chr → Word8)

def trim (s : List Chr) : List Chr := (s.reverse.dropWhile fun c => decodeChr c = spCode).reverse

/-- The next character that is not a space: its code and the place after it. -/
def getc : ℕ → List Chr → Except Exn (Word8 × ℕ × List Chr)
  | i, c :: s =>
    let b := decodeChr c
    if b = errCode then .error (.Invalid i c)
    else if b = spCode then getc (i + 1) s
    else .ok (b, i + 1, s)
  | _, [] => .error .Incomplete

/-- The characters of the last quantum, from the end of a reversed string; the result also has the
number of characters before them. -/
@[grind =] def getTail : List Chr → ℕ → List (Chr × ℕ) → Except Exn (ℕ × List (Chr × ℕ))
  | rev, 4, chrs => .ok (rev.length, chrs)
  | [], _, _ => .error .Incomplete
  | c :: rev, n, chrs =>
    if c = padChar then getTail rev (n + 1) ((padChar, rev.length) :: chrs)
    else
      let b := decodeChr c
      if b = spCode then getTail rev n chrs
      else if b = errCode then .error (.Invalid rev.length c)
      else getTail rev (n + 1) ((c, rev.length) :: chrs)

def cvtTail (ci : Chr × ℕ) : Except Exn Word8 :=
  let b := decodeChr ci.1
  if b < 64 then .ok b else .error (.Invalid ci.2 ci.1)

/-- The last bytes of a padded string, and the limit for the decoding of the others: the position
before the last quantum, or the length of the string if there is no padding. -/
def lastQ (s : List Chr) : Except Exn (List Word8 × ℤ) :=
  getTail decodeChr s.reverse 0 [] >>= fun
    | (len, [ci0, ci1, ci2, ci3]) =>
      if ci2.1 = padChar ∧ ci3.1 = padChar then do
        let c0 ← cvtTail decodeChr ci0
        let c1 ← cvtTail decodeChr ci1
        return ([c0 <<< 2 ||| c1 >>> 4], (len : ℤ) - 1)
      else if ci3.1 = padChar then do
        let c0 ← cvtTail decodeChr ci0
        let c1 ← cvtTail decodeChr ci1
        let c2 ← cvtTail decodeChr ci2
        return ([c0 <<< 2 ||| c1 >>> 4, c1 <<< 4 ||| c2 >>> 2], (len : ℤ) - 1)
      else return ([], (s.length : ℤ))
    | _ => .error .Incomplete

/-- The codes of the next four characters and the place after them. -/
def getQuad (i : ℕ) (s : List Chr) :
    Except Exn ((Word8 × Word8 × Word8 × Word8) × ℕ × List Chr) := do
  let (c0, i, s) ← getc decodeChr i s
  let (c1, i, s) ← getc decodeChr i s
  let (c2, i, s) ← getc decodeChr i s
  let (c3, i, s) ← getc decodeChr i s
  return ((c0, c1, c2, c3), i, s)

def bytes3 : Word8 × Word8 × Word8 × Word8 → List Word8
  | (c0, c1, c2, c3) => [c0 <<< 2 ||| c1 >>> 4, c1 <<< 4 ||| c2 >>> 2, c2 <<< 6 ||| c3]

theorem length_lt_of_getc {i i' : ℕ} {s s' : List Chr} {b : Word8}
    (h : getc decodeChr i s = .ok (b, i', s')) : s'.length < s.length := by
  induction s generalizing i with
  | nil => cases h
  | cons c s ih =>
    rw [getc] at h
    split_ifs at h
    · exact (ih h).trans (Nat.lt_succ_self _)
    · cases h
      exact Nat.lt_succ_self _

theorem length_lt_of_getQuad {i i' : ℕ} {s s' : List Chr} {q : Word8 × Word8 × Word8 × Word8}
    (h : getQuad decodeChr i s = .ok (q, i', s')) : s'.length < s.length := by
  simp only [getQuad, bind_eq_ok] at h
  obtain ⟨⟨c0, i₀, s₀⟩, h₀, ⟨c1, i₁, s₁⟩, h₁, ⟨c2, i₂, s₂⟩, h₂, ⟨c3, i₃, s₃⟩, h₃, h⟩ := h
  cases h
  have l₀ := length_lt_of_getc decodeChr h₀
  have l₁ := length_lt_of_getc decodeChr h₁
  have l₂ := length_lt_of_getc decodeChr h₂
  have l₃ := length_lt_of_getc decodeChr h₃
  exact l₃.trans (l₂.trans (l₁.trans l₀))

/-- The characters before the last quantum are decoded up to a limit. -/
def cvt (len : ℤ) (i : ℕ) (s : List Chr) : Except Exn (List Word8) :=
  if (i : ℤ) < len then
    match h : getQuad decodeChr i s with
    | .error e => .error e
    | .ok (q, i', s') =>
      have : s'.length < s.length := length_lt_of_getQuad decodeChr h
      (cvt len i' s').map (bytes3 q ++ ·)
  else .ok []
termination_by s.length

/-- The size of the buffer for the output: an upper bound on the number of its bytes. -/
def nBytes (len : ℤ) (tailLen : ℕ) : ℕ := 3 * ((len + 3) / 4).toNat + tailLen

/-- **Decoding** with a table. -/
def decode64 (s : List Chr) : Except Exn (List Word8) :=
  let s := trim decodeChr s
  if s = [] then .ok []
  else do
    let (lastQ, len) ← lastQ decodeChr s
    let out ← cvt decodeChr len 0 s
    return out ++ lastQ

end Decode

def decode (s : List Chr) : Except Exn (List Word8) := decode64 decTbl s
def decodeStrict (s : List Chr) : Except Exn (List Word8) := decode64 strictDecTbl s

end SmlNj.Base64
