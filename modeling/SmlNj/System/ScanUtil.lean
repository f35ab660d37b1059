import Mathlib.Tactic

/-!
# Scanning the prefix of a number

What the scanners of numbers share: a table of the codes of characters, and the white space, the
sign and the radix prefix in front of the digits.  A stream is the list of the characters that are
still to be read.

## Main definitions

* `code` — the code of a character, which is its value when it is a digit.
* `scanPrefix` — read up to and including the first digit.

## Main results

* `code_eq_zero_iff`, `code_eq_wsCode_iff`, … — the characters that have a code.
-/

namespace SmlNj.ScanUtil

/-- The codes of the characters: 128 for white space, 129 for plus, 130 for minus, 131 for a dot,
the value of a digit, and 255 for what does not occur in a number. -/
def cvtTable : List ℕ := [
  255, 255, 255, 255, 255, 255, 255, 255, 255, 128, 128, 255, 255, 255, 255, 255,
  255, 255, 255, 255, 255, 255, 255, 255, 255, 255, 255, 255, 255, 255, 255, 255,
  128, 255, 255, 255, 255, 255, 255, 255, 255, 255, 255, 129, 255, 130, 131, 255,
    0,   1,   2,   3,   4,   5,   6,   7,   8,   9, 255, 255, 255, 255, 255, 255,
  255,  10,  11,  12,  13,  14,  15,  16,  17,  18,  19,  20,  21,  22,  23,  24,
   25,  26,  27,  28,  29,  30,  31, 255,  33,  34,  35, 255, 255, 255, 255, 255,
  255,  10,  11,  12,  13,  14,  15,  16,  17,  18,  19,  20,  21,  22,  23,  24,
   25,  26,  27,  28,  29,  30,  31,  32,  33,  34,  35, 255, 255, 255, 130, 255,
  255, 255, 255, 255, 255, 255, 255, 255, 255, 255, 255, 255, 255, 255, 255, 255,
  255, 255, 255, 255, 255, 255, 255, 255, 255, 255, 255, 255, 255, 255, 255, 255,
  255, 255, 255, 255, 255, 255, 255, 255, 255, 255, 255, 255, 255, 255, 255, 255,
  255, 255, 255, 255, 255, 255, 255, 255, 255, 255, 255, 255, 255, 255, 255, 255,
  255, 255, 255, 255, 255, 255, 255, 255, 255, 255, 255, 255, 255, 255, 255, 255,
  255, 255, 255, 255, 255, 255, 255, 255, 255, 255, 255, 255, 255, 255, 255, 255,
  255, 255, 255, 255, 255, 255, 255, 255, 255, 255, 255, 255, 255, 255, 255, 255,
  255, 255, 255, 255, 255, 255, 255, 255, 255, 255, 255, 255, 255, 255, 255, 255]

def code (c : Char) : ℕ := cvtTable.getD c.toNat 255

def wsCode : ℕ := 128

def plusCode : ℕ := 129

def minusCode : ℕ := 130

def wCode : ℕ := 32

def xCode : ℕ := 33

/-- What may stand in front of the digits. -/
structure PrefixPat where
  /-- `0w` is a prefix; signs are not. -/
  wOkay : Bool
  /-- `0x` is a prefix. -/
  xOkay : Bool
  maxDigit : ℕ
  deriving DecidableEq

/-- The sign, the first digit, and what follows it. -/
structure Scanned where
  neg : Bool
  next : ℕ
  rest : List Char
  deriving DecidableEq

section

variable (p : PrefixPat)

def getNext : List Char → Option (ℕ × List Char)
  | [] => none
  | c :: cs => some (code c, cs)

def skipWS : List Char → Option (ℕ × List Char)
  | [] => none
  | c :: cs => if code c = wsCode then skipWS cs else some (code c, cs)

def finish (neg : Bool) : ℕ × List Char → Option Scanned
  | (c, cs) => if p.maxDigit ≥ c then some ⟨neg, c, cs⟩ else none

def chkDigit (neg : Bool) (saved : ℕ × List Char) : Option (ℕ × List Char) → Option Scanned
  | none => finish p neg saved
  | some (c, cs) => if p.maxDigit ≥ c then some ⟨neg, c, cs⟩ else finish p neg saved

/-- An optional `x`, after a zero. -/
def getOptX (neg : Bool) (saved : ℕ × List Char) : Option (ℕ × List Char) → Option Scanned
  | none => finish p neg saved
  | some (c, cs) =>
    if c = xCode then chkDigit p neg saved (getNext cs) else chkDigit p neg saved (some (c, cs))

/-- An optional `w`, after a zero. -/
def getOptW (neg : Bool) (saved : ℕ × List Char) : Option (ℕ × List Char) → Option Scanned
  | none => finish p neg saved
  | some (c, cs) =>
    if c = wCode then chkDigit p neg saved (getNext cs) else finish p neg saved

/-- An optional `wx` or `x`, after a zero. -/
def getOptWX (neg : Bool) (saved : ℕ × List Char) : Option (ℕ × List Char) → Option Scanned
  | none => finish p neg saved
  | some (c, cs) =>
    if c = wCode then
      match getNext cs with
      | some (c', cs') =>
        if c' = xCode then chkDigit p neg saved (getNext cs') else finish p neg saved
      | none => finish p neg saved
    else getOptX p neg saved (some (c, cs))

def getOpt0 (neg : Bool) : Option (ℕ × List Char) → Option Scanned
  | none => none
  | some (c, cs) =>
    match c, p.wOkay, p.xOkay with
    | 0, true, true => getOptWX p neg (c, cs) (getNext cs)
    | 0, true, false => getOptW p neg (c, cs) (getNext cs)
    | 0, false, true => getOptX p neg (c, cs) (getNext cs)
    | _, _, _ => finish p neg (c, cs)

def getOptSign : Option (ℕ × List Char) → Option Scanned
  | none => none
  | some (c, cs) =>
    if p.wOkay then getOpt0 p false (some (c, cs))
    else if c = minusCode then getOpt0 p true (getNext cs)
    else if c = plusCode then getOpt0 p false (getNext cs)
    else getOpt0 p false (some (c, cs))

/-- **Read the prefix of a number** and its first digit. -/
def scanPrefix (cs : List Char) : Option Scanned := getOptSign p (skipWS cs)

end

def binPat (wOkay : Bool) : PrefixPat := ⟨wOkay, false, 1⟩

def octPat (wOkay : Bool) : PrefixPat := ⟨wOkay, false, 7⟩

def hexPat (wOkay : Bool) : PrefixPat := ⟨wOkay, true, 15⟩

theorem code_cases {P : ℕ → ℕ → Prop} (htable : ∀ n < 256, P n (cvtTable.getD n 255))
    (hout : ∀ n, 256 ≤ n → P n 255) (c : Char) : P c.toNat (code c) := by
  rcases Nat.lt_or_ge c.toNat 256 with h | h
  · exact htable _ h
  · have hlen : cvtTable.length = 256 := by decide +kernel
    have hnone : cvtTable[c.toNat]? = none := List.getElem?_eq_none (hlen.trans_le h)
    have hcode : code c = 255 := by rw [code, List.getD_eq_getElem?_getD, hnone, Option.getD_none]
    rw [hcode]
    exact hout _ h

theorem toNat_eq_iff {c : Char} (d : Char) : c.toNat = d.toNat ↔ c = d :=
  ⟨Char.toNat_inj.1, fun h => h ▸ rfl⟩

/-- What the codes tell of the characters. -/
theorem code_spec (c : Char) :
    (code c = wsCode ↔ c.toNat = 9 ∨ c.toNat = 10 ∨ c.toNat = 32) ∧
      (code c = minusCode ↔ c.toNat = 45 ∨ c.toNat = 126) ∧ (code c = plusCode ↔ c.toNat = 43) ∧
      (code c = xCode ↔ c.toNat = 120 ∨ c.toNat = 88) ∧ (code c = 0 ↔ c.toNat = 48) := by
  refine code_cases (P := fun n k => (k = wsCode ↔ n = 9 ∨ n = 10 ∨ n = 32) ∧
    (k = minusCode ↔ n = 45 ∨ n = 126) ∧ (k = plusCode ↔ n = 43) ∧
    (k = xCode ↔ n = 120 ∨ n = 88) ∧ (k = 0 ↔ n = 48)) (by decide +kernel) ?_ c
  intro n hn
  unfold wsCode minusCode plusCode xCode
  omega

theorem code_eq_wsCode_iff (c : Char) : code c = wsCode ↔ c = '\t' ∨ c = '\n' ∨ c = ' ' := by
  rw [← toNat_eq_iff '\t', ← toNat_eq_iff '\n', ← toNat_eq_iff ' ']
  exact (code_spec c).1

theorem code_eq_minusCode_iff (c : Char) : code c = minusCode ↔ c = '-' ∨ c = '~' := by
  rw [← toNat_eq_iff '-', ← toNat_eq_iff '~']
  exact (code_spec c).2.1

theorem code_eq_plusCode_iff (c : Char) : code c = plusCode ↔ c = '+' := by
  rw [← toNat_eq_iff '+']
  exact (code_spec c).2.2.1

theorem code_eq_xCode_iff (c : Char) : code c = xCode ↔ c = 'x' ∨ c = 'X' := by
  rw [← toNat_eq_iff 'x', ← toNat_eq_iff 'X']
  exact (code_spec c).2.2.2.1

theorem code_eq_zero_iff (c : Char) : code c = 0 ↔ c = '0' := by
  rw [← toNat_eq_iff '0']
  exact (code_spec c).2.2.2.2

end SmlNj.ScanUtil
