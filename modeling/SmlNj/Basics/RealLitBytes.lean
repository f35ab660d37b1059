import SmlNj.Basics.RealLit
import SmlNj.Lib.ExceptList

/-!
# The external representation of real literals

Real literals are pickled as a sequence of bytes: a sign byte, the digits, and the exponent in four
bytes, or a single byte for the infinities and NaN.  When the bytes are read back, the four bytes
of the exponent are put together in a word of 63 bits, whose sign bit they do not reach: what
is read is the exponent modulo `2^32`, which is not negative.

## Main definitions

* `toBytes`, `fromBytes` — the external representation, and the literal that bytes stand for.

## Main results

* `fromBytes_toBytes_flt` — what is read back of a finite literal.
* `fromBytes_toBytes_iff` — **the literals that round-trip.**
-/

namespace SmlNj.RealLit

abbrev Word8 := BitVec 8

abbrev Word := BitVec 63

/-- The exceptions that reading a literal may raise. -/
inductive Exn
  | fail (msg : String)
  | subscript
  deriving DecidableEq

/-- The `i`th byte of a word. -/
def byteOf (w : Word) (i : ℕ) : Word8 := (w >>> (8 * i)).setWidth 8

/-- The external representation of a literal. -/
def toBytes : RealLit → List Word8
  | posInf => [2]
  | negInf => [3]
  | qNaN => [4]
  | flt isNeg digits exp =>
      let sign : Word8 := if isNeg then 1 else 0
      let exp' := BitVec.ofInt 63 exp
      sign :: (digits.map (BitVec.ofInt 8) ++
        [byteOf exp' 3, byteOf exp' 2, byteOf exp' 1, byteOf exp' 0])

/-- The `i`th element of a vector of bytes. -/
def sub (v : List Word8) (i : ℕ) : Except Exn Word8 :=
  match v[i]? with
  | some b => .ok b
  | none => .error .subscript

def bogus : Exn := .fail "Bogus real-literal pickle"

def signOf (b : Word8) : Except Exn Bool :=
  if b = 0 then .ok false else if b = 1 then .ok true else .error bogus

def specialOf (b : Word8) : Except Exn RealLit :=
  if b = 2 then .ok posInf else if b = 3 then .ok negInf else if b = 4 then .ok qNaN
  else .error bogus

def digitOf (b : Word8) : Except Exn ℤ := if b.toNat < 10 then .ok b.toNat else .error bogus

/-- The `i`th byte of the exponent, as part of a word. -/
def expByte (v : List Word8) (ndigits i : ℕ) : Except Exn Word := do
  let b ← sub v (ndigits + 1 + i)
  return b.setWidth 63 <<< (8 * (3 - i))

/-- The literal that bytes stand for. -/
def fromBytes (v : List Word8) : Except Exn RealLit := do
  if v.length = 1 then
    specialOf (← sub v 0)
  else if v.length < 5 then
    .error bogus
  else
    let ndigits := v.length - 5
    let isNeg ← signOf (← sub v 0)
    let b3 ← expByte v ndigits 3
    let b2 ← expByte v ndigits 2
    let b1 ← expByte v ndigits 1
    let b0 ← expByte v ndigits 0
    let exp := (b3 ||| (b2 ||| (b1 ||| b0))).toInt
    let digits ← (List.range ndigits).mapM fun i => do digitOf (← sub v (i + 1))
    return flt isNeg digits exp

def IsLiteral : RealLit → Prop
  | flt _ digits _ => ∀ d ∈ digits, 0 ≤ d ∧ d < 10
  | _ => True

/-- The exponent of a finite literal fits in a signed integer of 32 bits. -/
def ExpFits : RealLit → Prop
  | flt _ _ exp => -2 ^ 31 ≤ exp ∧ exp < 2 ^ 31
  | _ => True

def ExpNonneg : RealLit → Prop
  | flt _ _ exp => 0 ≤ exp
  | _ => True

instance : DecidablePred IsLiteral
  | flt _ digits _ => inferInstanceAs (Decidable (∀ d ∈ digits, 0 ≤ d ∧ d < 10))
  | posInf | negInf | qNaN => .isTrue trivial

instance : DecidablePred ExpFits
  | flt _ _ exp => inferInstanceAs (Decidable (-2 ^ 31 ≤ exp ∧ exp < 2 ^ 31))
  | posInf | negInf | qNaN => .isTrue trivial

theorem bytes_or (w : Word) :
    ((byteOf w 0).setWidth 63 <<< 0 ||| ((byteOf w 1).setWidth 63 <<< 8 |||
      ((byteOf w 2).setWidth 63 <<< 16 ||| (byteOf w 3).setWidth 63 <<< 24))) =
      (w.setWidth 32).setWidth 63 := by
  ext i hi
  simp only [byteOf, BitVec.getElem_or, BitVec.getElem_shiftLeft, BitVec.getElem_setWidth,
    BitVec.getLsbD_setWidth, BitVec.getLsbD_ushiftRight]
  -- the bit comes from one byte, or from none
  rcases Nat.lt_or_ge i 8 with h | h
  · grind
  · rcases Nat.lt_or_ge i 16 with h | h
    · grind
    · rcases Nat.lt_or_ge i 24 with h | h
      · grind
      · grind

theorem toInt_lower (e : ℤ) :
    (((BitVec.ofInt 63 e).setWidth 32).setWidth 63).toInt = e % 2 ^ 32 := by
  have hlt : ((BitVec.ofInt 63 e).setWidth 32).toNat < 2 ^ 32 := BitVec.isLt _
  rw [BitVec.toInt_eq_toNat_of_lt]
  · rw [BitVec.toNat_setWidth_of_le (by decide), BitVec.toNat_setWidth, BitVec.toNat_ofInt]
    omega
  · rw [BitVec.toNat_setWidth_of_le (by decide)]
    omega

/-! ### Reading the bytes back -/

theorem digitOf_ofInt {d : ℤ} (h : 0 ≤ d ∧ d < 10) : digitOf (BitVec.ofInt 8 d) = .ok d := by
  have hnat : ((BitVec.ofInt 8 d).toNat : ℤ) = d := by
    rw [BitVec.toNat_ofInt]
    omega
  unfold digitOf
  rw [if_pos (by omega), hnat]

theorem signOf_sign (isNeg : Bool) : signOf (if isNeg then 1 else 0) = .ok isNeg := by
  cases isNeg <;> rfl

theorem mapM_digitOf (b : Word8) {digits : List ℤ} (h : ∀ d ∈ digits, 0 ≤ d ∧ d < 10)
    (r : List Word8) :
    ((List.range digits.length).mapM fun i => do
      digitOf (← sub (b :: (digits.map (BitVec.ofInt 8) ++ r)) (i + 1))) = .ok digits := by
  rw [ExceptList.mapM_eq_ok, List.forall₂_iff_get]
  refine ⟨List.length_range, ?_⟩
  intro i _ hi
  have hget : (b :: (digits.map (BitVec.ofInt 8) ++ r))[i + 1]? =
      some (BitVec.ofInt 8 digits[i]) := by
    rw [List.getElem?_cons_succ, List.getElem?_append_left (by simpa using hi)]
    simp [hi]
  simp only [List.get_eq_getElem, List.getElem_range, sub, hget]
  exact digitOf_ofInt (h _ (List.getElem_mem hi))

theorem expByte_eq {v : List Word8} {ndigits i : ℕ} {b : Word8}
    (h : v[ndigits + 1 + i]? = some b) :
    expByte v ndigits i = .ok (b.setWidth 63 <<< (8 * (3 - i))) := by
  simp only [expByte, sub, h]
  rfl

/-- **What is read back of a finite literal**: the sign, the digits, and the exponent modulo
`2^32`. -/
theorem fromBytes_toBytes_flt (isNeg : Bool) {digits : List ℤ} (exp : ℤ)
    (h : ∀ d ∈ digits, 0 ≤ d ∧ d < 10) :
    fromBytes (toBytes (flt isNeg digits exp)) = .ok (flt isNeg digits (exp % 2 ^ 32)) := by
  have hexp : ∀ i < 4, (toBytes (flt isNeg digits exp))[digits.length + 1 + i]? =
      some (byteOf (BitVec.ofInt 63 exp) (3 - i)) := by
    intro i hi
    have hidx : digits.length + 1 + i = digits.length + i + 1 := by omega
    rw [toBytes, hidx, List.getElem?_cons_succ, List.getElem?_append_right (by simp)]
    simp only [List.length_map, Nat.add_sub_cancel_left]
    interval_cases i <;> rfl
  have hlen : (toBytes (flt isNeg digits exp)).length = digits.length + 5 := by
    simp [toBytes]
  have hsign : sub (toBytes (flt isNeg digits exp)) 0 = .ok (if isNeg then 1 else 0) := rfl
  unfold fromBytes
  rw [hlen, if_neg (by omega), if_neg (by omega), Nat.add_sub_cancel]
  simp only [hsign, ExceptList.ok_bind, signOf_sign, expByte_eq (hexp _ (by decide : 3 < 4)),
    expByte_eq (hexp _ (by decide : 2 < 4)), expByte_eq (hexp _ (by decide : 1 < 4)),
    expByte_eq (hexp _ (by decide : 0 < 4))]
  have hdigits := mapM_digitOf (if isNeg then 1 else 0) h
    [byteOf (BitVec.ofInt 63 exp) 3, byteOf (BitVec.ofInt 63 exp) 2,
      byteOf (BitVec.ofInt 63 exp) 1, byteOf (BitVec.ofInt 63 exp) 0]
  have hor := congrArg BitVec.toInt (bytes_or (BitVec.ofInt 63 exp))
  rw [toInt_lower] at hor
  simp only [toBytes, hdigits, ExceptList.ok_bind]
  exact congrArg (fun e => Except.ok (flt isNeg digits e)) hor

/-- **The literals that round-trip** through their external representation are those that are not
finite, and those with an exponent that is not negative. -/
theorem fromBytes_toBytes_iff (r : RealLit) (hlit : r.IsLiteral) (hexp : r.ExpFits) :
    fromBytes (toBytes r) = .ok r ↔ r.ExpNonneg := by
  cases r with
  | flt isNeg digits exp =>
    rw [fromBytes_toBytes_flt isNeg exp hlit]
    simp only [ExpFits] at hexp
    simp only [ExpNonneg, Except.ok.injEq, flt.injEq, true_and]
    omega
  | _ => exact iff_of_true rfl trivial

/-- One tenth is such a literal, with the exponent `0`. -/
theorem fromBytes_toBytes_iff_tenth :
    fromBytes (toBytes (flt false [1] 0)) = .ok (flt false [1] 0) ↔
      ExpNonneg (flt false [1] 0) :=
  fromBytes_toBytes_iff (flt false [1] 0) (by decide) (by decide)

/-- One hundredth, whose exponent is `-1`, is not read back. -/
theorem fromBytes_toBytes_hundredth : ¬ ∀ r : RealLit, r.IsLiteral → r.ExpFits →
    fromBytes (toBytes r) = .ok r := by
  intro h
  have hr := h (flt false [1] (-1)) (by decide) (by decide)
  rw [fromBytes_toBytes_flt false (-1) (by decide)] at hr
  exact absurd hr (by decide)

end SmlNj.RealLit
