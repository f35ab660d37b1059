import SmlNj.Lib.IntBitwise

/-!
# LEB128

Numbers as groups of seven bits, the lowest group first; the highest bit of a byte says that more
follow.  The structure is specialized for words of 64 bits: the default integers and words have 63
bits, the native ones 64.

The loops of the decoders run on a reader that may go on for ever, so they have fuel; that of an
encoder ends since the rest of the number gets smaller, and so do those that count.  The number of
bits that were read is a natural number: it does not wrap for input that fits into memory.

## Main definitions

* `decodeIntInf`, `decodeInt`, `decodeNativeInt`, `decodeWord`, `decodeWord64`, `decodeUIntInf`.
* `sizeOfIntInf`, `sizeOfInt64`, `sizeOfInt`, `sizeOfWord64`, `sizeOfWord`, `sizeOfUIntInf`.
* `encodeIntInf`, `encodeNativeInt`, `encodeInt`, `encodeNativeWord`, `encodeWord`, `encodeUIntInf`.
* `toBytes` — the buffer that is written without checks.
-/

namespace SmlNj.LEB128

abbrev Word8 := BitVec 8

abbrev Word := BitVec 63

abbrev Word64 := BitVec 64

/-- The exceptions. -/
inductive Exn
  | Overflow
  | Domain
  deriving DecidableEq

def mask : Word8 := 0x7f
def signBit : Word8 := 0x40
def contBit : Word8 := 0x80

/-! ### Decoding -/

section Decode

variable {σ : Type} (getB : σ → Option (Word8 × σ))

/-- The result of a decoder: nothing when the fuel is used up; else an exception, the end of the
input, or a number and the rest of the input. -/
abbrev Decoded (α σ : Type) := Option (Except Exn (Option (α × σ)))

/-- The loop of `decodeIntInf`. -/
@[grind =] def decodeIntInfLp : ℕ → σ → ℤ → ℕ → Decoded ℤ σ
  | 0, _, _, _ => none
  | fuel + 1, inS, n, shift =>
    match getB inS with
    | some (b, rest) =>
      let slice : ℤ := (b &&& mask).toNat
      let n := slice <<< shift + n
      if b &&& contBit ≠ 0 then decodeIntInfLp fuel rest n (shift + 7)
      else if b &&& signBit = 0 then some (.ok (some (n, rest)))
      -- the result is sign extended
      else some (.ok (some (n - (1 : ℤ) <<< (shift + 7), rest)))
    | none => some (.ok none)

/-- **Signed numbers of any size**. -/
def decodeIntInf (fuel : ℕ) (inS : σ) : Decoded ℤ σ := decodeIntInfLp getB fuel inS 0 0

/-- An integer of `k` bits. -/
def fromLarge (k : ℕ) (n : ℤ) : Except Exn (BitVec k) :=
  if -2 ^ (k - 1) ≤ n ∧ n < 2 ^ (k - 1) then .ok (BitVec.ofInt k n) else .error .Overflow

def decodeSigned (k fuel : ℕ) (inS : σ) : Decoded (BitVec k) σ :=
  (decodeIntInf getB fuel inS).map fun r => r >>= fun
    | some (n, inS') => (fromLarge k n).map fun v => some (v, inS')
    | none => .ok none

def decodeInt (fuel : ℕ) (inS : σ) : Decoded Word σ := decodeSigned getB 63 fuel inS
def decodeNativeInt (fuel : ℕ) (inS : σ) : Decoded Word64 σ := decodeSigned getB 64 fuel inS

/-- The check for inputs that are too large for words of `k` bits. -/
def chkOverflow {k : ℕ} (shift : ℕ) (slice : BitVec k) : Bool :=
  if shift < k - 1 then false
  else if shift = k - 1 then slice <<< shift >>> shift ≠ slice
  else slice ≠ 0

/-- The loop of `decodeWord` and `decodeWord64`. -/
@[grind =] def decodeWordLp {k : ℕ} : ℕ → σ → BitVec k → ℕ → Decoded (BitVec k) σ
  | 0, _, _, _ => none
  | fuel + 1, inS, w, shift =>
    match getB inS with
    | some (b, rest) =>
      let slice : BitVec k := b.setWidth k &&& 0x7f
      let w := w ||| slice <<< shift
      if chkOverflow shift slice then some (.error .Overflow)
      else if contBit ≤ b then decodeWordLp fuel rest w (shift + 7)
      else some (.ok (some (w, rest)))
    | none => some (.ok none)

/-- **Words**. -/
def decodeWord (fuel : ℕ) (inS : σ) : Decoded Word σ := decodeWordLp getB fuel inS 0 0
def decodeWord64 (fuel : ℕ) (inS : σ) : Decoded Word64 σ := decodeWordLp getB fuel inS 0 0

/-- The loop of `decodeUIntInf`. -/
@[grind =] def decodeUIntInfLp : ℕ → σ → ℤ → ℕ → Decoded ℤ σ
  | 0, _, _, _ => none
  | fuel + 1, inS, n, shift =>
    match getB inS with
    | some (b, rest) =>
      let slice : ℤ := (b &&& mask).toNat
      let n := slice <<< shift + n
      if b &&& contBit ≠ 0 then decodeUIntInfLp fuel rest n (shift + 7)
      else some (.ok (some (n, rest)))
    | none => some (.ok none)

/-- **Unsigned numbers of any size**. -/
def decodeUIntInf (fuel : ℕ) (inS : σ) : Decoded ℤ σ := decodeUIntInfLp getB fuel inS 0 0

end Decode

/-! ### Sizes -/

/-- What is left of a number: its distance from the values that end the loops. -/
def left (n : ℤ) : ℕ := if 0 ≤ n then n.toNat else (-1 - n).toNat

theorem shiftRight_seven (n : ℤ) : n >>> (7 : ℕ) = n / 128 := Int.shiftRight_eq_div_pow n 7

theorem left_shiftRight_lt {n : ℤ} (h0 : n ≠ 0) (h1 : n ≠ -1) :
    left (n >>> (7 : ℕ)) < left n := by
  rw [shiftRight_seven, left, left]
  split_ifs <;> omega

def signOf (n : ℤ) : ℤ := if n < 0 then -1 else 0

theorem signOf_shiftRight (n : ℤ) : signOf (n >>> (7 : ℕ)) = signOf n := by
  rw [shiftRight_seven, signOf, signOf]
  split_ifs <;> omega

/-- The test of the loops that count: the rest is more than the sign, or the sign of the last group
is another one. -/
def more (value sign : ℤ) : Prop :=
  value >>> (7 : ℕ) ≠ sign ∨ Int.land (Int.xor (Int.land value 0x7f) sign) 0x40 ≠ 0

instance (value sign : ℤ) : Decidable (more value sign) := inferInstanceAs (Decidable (_ ∨ _))

theorem more_iff (n : ℤ) : more n (signOf n) ↔ ¬(-64 ≤ n ∧ n < 64) := by
  have hlow : Int.land n 0x7f = n % 128 := IntBitwise.land_two_pow_sub_one n 7
  have hbit : ∀ x, Int.land x 0x40 ≠ 0 ↔ 64 ≤ x % 128 :=
    fun x => IntBitwise.land_two_pow_ne_zero_iff x 6
  rw [more, hlow, hbit, shiftRight_seven, signOf]
  split_ifs with h
  · rw [IntBitwise.xor_neg_one]
    omega
  · rw [IntBitwise.xor_zero]
    omega

theorem left_lt_of_more {n : ℤ} (h : more n (signOf n)) : left (n >>> (7 : ℕ)) < left n := by
  rw [more_iff] at h
  exact left_shiftRight_lt (by omega) (by omega)

/-- The loop of `sizeOfIntInf`; the sign is that of the number. -/
@[grind =] def sizeOfIntInfLp (sign value : ℤ) (hsign : signOf value = sign) (sz : ℕ) : ℕ :=
  if h : more value sign then
    sizeOfIntInfLp sign (value >>> (7 : ℕ)) ((signOf_shiftRight value).trans hsign) (sz + 1)
  else sz
termination_by left value
decreasing_by exact left_lt_of_more (hsign ▸ h)

def sizeOfIntInf (n : ℤ) : ℕ := sizeOfIntInfLp (signOf n) n rfl 1

def signOf64 (n : Word64) : Word64 := if n.toInt < 0 then BitVec.allOnes 64 else 0

/-- The test of `sizeOfInt64`. -/
def more64 (value sign : Word64) : Prop :=
  value.sshiftRight 7 ≠ sign ∨ ((value &&& 0x7f) ^^^ sign) &&& 0x40 ≠ 0

instance (value sign : Word64) : Decidable (more64 value sign) :=
  inferInstanceAs (Decidable (_ ∨ _))

theorem toInt_sshiftRight_seven (n : Word64) :
    (n.sshiftRight 7).toInt = n.toInt >>> (7 : ℕ) := BitVec.toInt_sshiftRight

theorem toInt_signOf64 (n : Word64) : (signOf64 n).toInt = signOf n.toInt := by
  rw [signOf64, signOf]
  split_ifs <;> rfl

theorem signOf64_sshiftRight (n : Word64) : signOf64 (n.sshiftRight 7) = signOf64 n := by
  rw [← BitVec.toInt_inj, toInt_signOf64, toInt_signOf64, toInt_sshiftRight_seven,
    signOf_shiftRight]

theorem and_bit_ne_zero_iff {w : ℕ} (hw : 7 ≤ w) (x : BitVec w) :
    x &&& BitVec.ofNat w 0x40 ≠ 0 ↔ 64 ≤ x.toNat % 128 := by
  have hpow : 2 ^ 7 ≤ 2 ^ w := Nat.pow_le_pow_right (by norm_num) hw
  have hbit : (x &&& BitVec.ofNat w 0x40).toNat = (x.toNat.testBit 6).toNat * 64 := by
    rw [BitVec.toNat_and, BitVec.toNat_ofNat, Nat.mod_eq_of_lt (by omega)]
    exact Nat.and_two_pow x.toNat 6
  rw [ne_eq, ← BitVec.toNat_inj, hbit, Nat.testBit_eq_decide_div_mod_eq]
  by_cases h : x.toNat / 2 ^ 6 % 2 = 1
  · simp only [h, decide_true, Bool.toNat_true]
    simp
    omega
  · simp only [h, decide_false, Bool.toNat_false]
    simp
    omega

theorem toNat_and_mask (n : Word64) : (n &&& 0x7f).toNat = n.toNat % 128 := by
  rw [BitVec.toNat_and]
  exact Nat.and_two_pow_sub_one_eq_mod n.toNat 7

theorem toInt_emod (n : Word64) : n.toInt % 128 = (n.toNat % 128 : ℕ) := by
  rw [BitVec.toInt_eq_toNat_cond]
  split_ifs <;> omega

theorem more64_iff (n : Word64) : more64 n (signOf64 n) ↔ more n.toInt (signOf n.toInt) := by
  have hrest : n.sshiftRight 7 ≠ signOf64 n ↔ n.toInt >>> (7 : ℕ) ≠ signOf n.toInt := by
    rw [ne_eq, ← BitVec.toInt_inj, toInt_sshiftRight_seven, toInt_signOf64]
  have hgroup := toNat_and_mask n
  have hemod := toInt_emod n
  have hbit := and_bit_ne_zero_iff (by norm_num : 7 ≤ 64) ((n &&& 0x7f) ^^^ signOf64 n)
  rw [more64, more_iff, hrest, shiftRight_seven]
  refine (or_congr_right hbit).trans ?_
  rw [signOf64, signOf]
  split_ifs with h
  · rw [BitVec.xor_allOnes, BitVec.toNat_not, hgroup]
    omega
  · have hxor : (n &&& 0x7f) ^^^ (0 : Word64) = n &&& 0x7f := BitVec.xor_zero
    rw [hxor, hgroup]
    omega

theorem left_lt_of_more64 {n : Word64} (h : more64 n (signOf64 n)) :
    left (n.sshiftRight 7).toInt < left n.toInt := by
  rw [toInt_sshiftRight_seven]
  exact left_lt_of_more ((more64_iff n).1 h)

/-- The loop of `sizeOfInt64`; the sign is that of the number. -/
@[grind =] def sizeOfInt64Lp (sign value : Word64) (hsign : signOf64 value = sign) (sz : ℕ) : ℕ :=
  if h : more64 value sign then
    sizeOfInt64Lp sign (value.sshiftRight 7) ((signOf64_sshiftRight value).trans hsign) (sz + 1)
  else sz
termination_by left value.toInt
decreasing_by exact left_lt_of_more64 (hsign ▸ h)

def sizeOfInt64 (n : Word64) : ℕ := sizeOfInt64Lp (signOf64 n) n rfl 1

def sizeOfInt (n : Word) : ℕ := sizeOfInt64 (n.signExtend 64)

theorem toNat_shiftRight_lt {w : Word64} (h : w ≠ 0) : (w >>> 7).toNat < w.toNat := by
  have hne : w.toNat ≠ 0 := fun h0 => h (BitVec.eq_of_toNat_eq h0)
  rw [BitVec.toNat_ushiftRight, Nat.shiftRight_eq_div_pow]
  omega

/-- The loop of `sizeOfWord64`. -/
@[grind =] def sizeOfWord64Lp (w : Word64) (sz : ℕ) : ℕ :=
  if h : w = 0 then sz else sizeOfWord64Lp (w >>> 7) (sz + 1)
termination_by w.toNat
decreasing_by exact toNat_shiftRight_lt h

def sizeOfWord64 (w : Word64) : ℕ := sizeOfWord64Lp (w >>> 7) 1

def sizeOfWord (w : Word) : ℕ := sizeOfWord64 (w.setWidth 64)

theorem shiftRight_seven_nonneg {n : ℤ} (h : 0 ≤ n) : 0 ≤ n >>> (7 : ℕ) := by
  rw [shiftRight_seven]
  omega

theorem toNat_shiftRight_seven_lt {n : ℤ} (hn : 0 ≤ n) (h : n ≠ 0) :
    (n >>> (7 : ℕ)).toNat < n.toNat := by
  rw [shiftRight_seven]
  omega

/-- The loop of `sizeOfUIntInf`; the number is not negative. -/
@[grind =] def sizeOfUIntInfLp (n : ℤ) (hn : 0 ≤ n) (sz : ℕ) : ℕ :=
  if h : n = 0 then sz
  else sizeOfUIntInfLp (n >>> (7 : ℕ)) (shiftRight_seven_nonneg hn) (sz + 1)
termination_by n.toNat
decreasing_by exact toNat_shiftRight_seven_lt hn h

def sizeOfUIntInf (n : ℤ) : Except Exn ℕ :=
  if h : n < 0 then .error .Domain
  else .ok (sizeOfUIntInfLp (n >>> (7 : ℕ)) (shiftRight_seven_nonneg (not_lt.1 h)) 1)

/-! ### Encoding -/

section Encode

variable {δ : Type} (putB : δ → Word8 → δ)

/-- Is the group the last one of a signed number?  The rest of the number is `n`. -/
def noMore (n : ℤ) (b : Word8) : Prop :=
  (n = 0 ∧ b &&& 0x40 = 0) ∨ (n = -1 ∧ b &&& signBit ≠ 0)

instance (n : ℤ) (b : Word8) : Decidable (noMore n b) := inferInstanceAs (Decidable (_ ∨ _))

def lowest (n : ℤ) : Word8 := BitVec.ofInt 8 (Int.land n 0x7f)

theorem toNat_lowest (n : ℤ) : (lowest n).toNat = (n % 128).toNat := by
  have hlow : Int.land n 0x7f = n % 128 := IntBitwise.land_two_pow_sub_one n 7
  rw [lowest, hlow, BitVec.toNat_ofInt]
  omega

theorem noMore_iff (n : ℤ) : noMore (n >>> (7 : ℕ)) (lowest n) ↔ -64 ≤ n ∧ n < 64 := by
  have hbit : lowest n &&& 0x40 ≠ 0 ↔ 64 ≤ (lowest n).toNat % 128 :=
    and_bit_ne_zero_iff (by norm_num) _
  rw [toNat_lowest] at hbit
  rw [noMore, signBit, ← not_ne_iff (a := lowest n &&& 0x40), hbit, shiftRight_seven]
  omega

/-- **Signed numbers of any size**. -/
@[grind =] def encodeIntInf (outS : δ) (n : ℤ) : δ :=
  let b := lowest n
  let n' := n >>> (7 : ℕ)
  if _h : noMore n' b then putB outS b else encodeIntInf (putB outS (b ||| contBit)) n'
termination_by left n
decreasing_by
  rw [noMore_iff] at _h
  exact left_shiftRight_lt (by omega) (by omega)

/-- The test of `encodeNativeInt`. -/
def noMore64 (n : Word64) (b : Word8) : Prop :=
  (n = 0 ∧ b &&& 0x40 = 0) ∨ (n = ~~~0 ∧ b &&& signBit ≠ 0)

instance (n : Word64) (b : Word8) : Decidable (noMore64 n b) :=
  inferInstanceAs (Decidable (_ ∨ _))

theorem noMore64_iff (n : Word64) (b : Word8) : noMore64 n b ↔ noMore n.toInt b := by
  have h0 : n = 0 ↔ n.toInt = 0 := BitVec.toInt_inj.symm
  have h1 : n = ~~~0 ↔ n.toInt = -1 := BitVec.toInt_inj.symm
  rw [noMore64, noMore, h0, h1]

def lowest64 (n : Word64) : Word8 := (n &&& 0x7f).setWidth 8

theorem lowest64_eq (n : Word64) : lowest64 n = lowest n.toInt := by
  apply BitVec.eq_of_toNat_eq
  rw [toNat_lowest, toInt_emod, lowest64, BitVec.toNat_setWidth, toNat_and_mask]
  omega

theorem left_lt_of_not_noMore64 {n : Word64} (h : ¬noMore64 (n.sshiftRight 7) (lowest64 n)) :
    left (n.sshiftRight 7).toInt < left n.toInt := by
  rw [noMore64_iff, lowest64_eq, toInt_sshiftRight_seven, noMore_iff] at h
  rw [toInt_sshiftRight_seven]
  exact left_shiftRight_lt (by omega) (by omega)

/-- **Native integers**. -/
@[grind =] def encodeNativeInt (outS : δ) (n : Word64) : δ :=
  let b := lowest64 n
  let n' := n.sshiftRight 7
  if _h : noMore64 n' b then putB outS b else encodeNativeInt (putB outS (b ||| contBit)) n'
termination_by left n.toInt
decreasing_by exact left_lt_of_not_noMore64 _h

def encodeInt (outS : δ) (n : Word) : δ := encodeNativeInt putB outS (n.signExtend 64)

/-- **Native words**. -/
@[grind =] def encodeNativeWord (outS : δ) (n : Word64) : δ :=
  let b := lowest64 n
  let n' := n >>> 7
  if h : n' = 0 then putB outS b else encodeNativeWord (putB outS (b ||| contBit)) n'
termination_by n.toNat
decreasing_by
  refine toNat_shiftRight_lt fun h0 => h ?_
  subst h0
  rfl

def encodeWord (outS : δ) (w : Word) : δ := encodeNativeWord putB outS (w.setWidth 64)

/-- The loop of `encodeUIntInf`; the number is not negative. -/
@[grind =] def encodeUIntInfLoop (outS : δ) (n : ℤ) (hn : 0 ≤ n) : δ :=
  let b := lowest n
  let n' := n >>> (7 : ℕ)
  if h : n' = 0 then putB outS b
  else encodeUIntInfLoop (putB outS (b ||| contBit)) n' (shiftRight_seven_nonneg hn)
termination_by n.toNat
decreasing_by
  refine toNat_shiftRight_seven_lt hn fun h0 => h ?_
  subst h0
  rfl

/-- **Unsigned numbers of any size**. -/
def encodeUIntInf (outS : δ) (n : ℤ) : Except Exn δ :=
  if h : n < 0 then .error .Domain else .ok (encodeUIntInfLoop putB outS n (not_lt.1 h))

end Encode

def create (sz : ℕ) : List (Option Word8) := List.replicate sz none

/-- The unchecked update of the buffer at the index; nothing is the result of an update outside of
it. -/
def putB : Option (ℕ × List (Option Word8)) → Word8 → Option (ℕ × List (Option Word8))
  | some (idx, buf), b => if idx < buf.length then some (idx + 1, buf.set idx (some b)) else none
  | none, _ => none

/-- **The encoding of a number in a buffer** of the size that was computed. -/
def toBytes {α : Type} (sizeOf : α → Except Exn ℕ)
    (encoder : ∀ {δ : Type}, (δ → Word8 → δ) → δ → α → Except Exn δ) (n : α) :
    Except Exn (Option (List (Option Word8))) :=
  sizeOf n >>= fun sz => (encoder putB (some (0, create sz)) n).map fun r => r.map Prod.snd

end SmlNj.LEB128
