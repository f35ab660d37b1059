import Mathlib.Tactic

/-!
# Numbers in groups of seven bits

A number is written as a sequence of bytes with seven bits each, the lowest ones first.  Every
byte but the last one has its highest bit set.  Signed numbers take their sign from the seventh bit
of the last group.

## Main definitions

* `IsNumber` — the sequences of bytes that are one number.
* `value`, `signedValue` — the numbers that a sequence stands for.
* `unsigned`, `signed` — the shortest sequences.
* `Reads` — a reader reads some bytes.

## Main results

* `isNumber_unsigned`, `value_unsigned`, `isNumber_signed`, `signedValue_signed`.
-/

namespace Base128

abbrev Byte := BitVec 8

/-- The bytes are one number: all of them but the last one say that more follow. -/
@[grind =] def IsNumber : List Byte → Prop
  | [] => False
  | [b] => b.toNat < 128
  | b :: bs => 128 ≤ b.toNat ∧ IsNumber bs

def value : List Byte → ℕ
  | [] => 0
  | b :: bs => b.toNat % 128 + 128 * value bs

def signedValue : List Byte → ℤ
  | [] => 0
  | [b] => if b.toNat % 128 < 64 then (b.toNat % 128 : ℕ) else (b.toNat % 128 : ℕ) - 128
  | b :: bs => (b.toNat % 128 : ℕ) + 128 * signedValue bs

theorem isNumber_cons_iff {b : Byte} {bs : List Byte} :
    IsNumber (b :: bs) ↔ (b.toNat < 128 ∧ bs = []) ∨ (128 ≤ b.toNat ∧ IsNumber bs) := by
  cases bs with
  | nil => simp [IsNumber]
  | cons c bs => simp [IsNumber]

theorem IsNumber.ne_nil {bs : List Byte} (h : IsNumber bs) : bs ≠ [] := by
  rintro rfl
  exact h

theorem signedValue_cons {b : Byte} {bs : List Byte} (h : bs ≠ []) :
    signedValue (b :: bs) = (b.toNat % 128 : ℕ) + 128 * signedValue bs := by
  cases bs with
  | nil => exact absurd rfl h
  | cons c bs => rfl

theorem IsNumber.cons {b : Byte} {bs : List Byte} (hb : 128 ≤ b.toNat) (h : IsNumber bs) :
    IsNumber (b :: bs) := isNumber_cons_iff.2 (.inr ⟨hb, h⟩)

/-! ### The shortest sequences -/

/-- **Unsigned numbers**. -/
@[grind =] def unsigned (n : ℕ) : List Byte :=
  if n < 128 then [BitVec.ofNat 8 n] else BitVec.ofNat 8 (n % 128 + 128) :: unsigned (n / 128)

/-- **Signed numbers**. -/
@[grind =] def signed (n : ℤ) : List Byte :=
  if -64 ≤ n ∧ n < 64 then [BitVec.ofInt 8 (n % 128)]
  else BitVec.ofInt 8 (n % 128 + 128) :: signed (n / 128)
termination_by n.natAbs

theorem toNat_ofNat {n : ℕ} (h : n < 256) : (BitVec.ofNat 8 n).toNat = n := by
  rw [BitVec.toNat_ofNat, Nat.mod_eq_of_lt h]

theorem toNat_ofInt {n : ℤ} (h0 : 0 ≤ n) (h : n < 256) : (BitVec.ofInt 8 n).toNat = n.toNat := by
  rw [BitVec.toNat_ofInt]
  omega

theorem isNumber_unsigned (n : ℕ) : IsNumber (unsigned n) := by
  induction n using Nat.strong_induction_on with
  | _ n ih =>
    rw [unsigned]
    split_ifs with h
    · rw [IsNumber, toNat_ofNat (by omega)]
      exact h
    · refine IsNumber.cons ?_ (ih (n / 128) (by omega))
      rw [toNat_ofNat (by omega)]
      omega

theorem value_unsigned (n : ℕ) : value (unsigned n) = n := by
  induction n using Nat.strong_induction_on with
  | _ n ih =>
    rw [unsigned]
    split_ifs with h
    · rw [value, value, toNat_ofNat (by omega)]
      omega
    · rw [value, ih (n / 128) (by omega), toNat_ofNat (by omega)]
      omega

theorem isNumber_signed (n : ℤ) : IsNumber (signed n) := by
  induction n using signed.induct with
  | case1 n h =>
    rw [signed, if_pos h, IsNumber, toNat_ofInt (by omega) (by omega)]
    omega
  | case2 n h ih =>
    rw [signed, if_neg h]
    refine IsNumber.cons ?_ ih
    rw [toNat_ofInt (by omega) (by omega)]
    omega

theorem signedValue_signed (n : ℤ) : signedValue (signed n) = n := by
  induction n using signed.induct with
  | case1 n h =>
    rw [signed, if_pos h, signedValue, toNat_ofInt (by omega) (by omega)]
    split_ifs <;> omega
  | case2 n h ih =>
    rw [signed, if_neg h, signedValue_cons (isNumber_signed _).ne_nil, ih,
      toNat_ofInt (by omega) (by omega)]
    omega

def Reads {σ : Type*} (getB : σ → Option (Byte × σ)) : σ → List Byte → σ → Prop
  | s, [], s' => s = s'
  | s, b :: bs, s' => ∃ s₁, getB s = some (b, s₁) ∧ Reads getB s₁ bs s'

end Base128
