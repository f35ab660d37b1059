import SmlNj.Lib.Base128
import SmlNj.Library.LEB128

/-!
# LEB128 encoders and decoders are inverse

The encoders write the shortest sequence of bytes for a number, whatever the operation is that puts
a byte; the loops that compute the sizes count its bytes, so the unchecked writes fill the buffer;
and the decoders compute the number that a sequence stands for.

## Main results

* `encodeIntInf_eq`, `encodeNativeInt_eq`, `encodeNativeWord_eq`, `encodeUIntInfLoop_eq`.
* `sizeOfIntInf_eq`, `sizeOfInt64_eq`, `sizeOfWord64_eq`, `sizeOfUIntInf_eq`.
* `decodeIntInf_eq`, `decodeUIntInf_eq`, `decodeWordLp_eq`.
* `leb128_correct` — the round trips, the sizes, the buffers and the overflows.
-/

namespace SmlNj.LEB128

open Base128

theorem toNat_and_low (b : Word8) : (b &&& mask).toNat = b.toNat % 128 :=
  Nat.and_two_pow_sub_one_eq_mod b.toNat 7

theorem and_contBit_ne_zero_iff (b : Word8) : b &&& contBit ≠ 0 ↔ 128 ≤ b.toNat := by
  revert b
  decide

theorem and_signBit_eq_zero_iff (b : Word8) : b &&& signBit = 0 ↔ b.toNat % 128 < 64 := by
  revert b
  decide

theorem contBit_le_iff (b : Word8) : contBit ≤ b ↔ 128 ≤ b.toNat := BitVec.le_def

theorem toNat_or_contBit {b : Word8} (h : b.toNat < 128) :
    (b ||| contBit).toNat = b.toNat + 128 := by
  revert b
  decide

theorem lowest_eq (n : ℤ) : lowest n = BitVec.ofInt 8 (n % 128) := by
  apply BitVec.eq_of_toNat_eq
  rw [toNat_lowest, toNat_ofInt (by omega) (by omega)]

theorem lowest_or_contBit (n : ℤ) : lowest n ||| contBit = BitVec.ofInt 8 (n % 128 + 128) := by
  apply BitVec.eq_of_toNat_eq
  rw [toNat_or_contBit, toNat_lowest, toNat_ofInt (by omega) (by omega)]
  · omega
  · rw [toNat_lowest]
    omega

theorem lowest_natCast (n : ℕ) : lowest n = BitVec.ofNat 8 (n % 128) := by
  apply BitVec.eq_of_toNat_eq
  rw [toNat_lowest, Base128.toNat_ofNat (by omega)]
  omega

theorem lowest_natCast_or_contBit (n : ℕ) :
    lowest n ||| contBit = BitVec.ofNat 8 (n % 128 + 128) := by
  apply BitVec.eq_of_toNat_eq
  rw [lowest_or_contBit, toNat_ofInt (by omega) (by omega), Base128.toNat_ofNat (by omega)]
  omega

theorem lowest64_eq_natCast (n : Word64) : lowest64 n = lowest (n.toNat : ℤ) := by
  apply BitVec.eq_of_toNat_eq
  rw [lowest64_eq, toNat_lowest, toNat_lowest, toInt_emod]
  omega

/-! ### Encoding -/

section Encode

variable {δ : Type} (putB : δ → Word8 → δ)

/-- **The encoder of signed numbers puts the bytes of the shortest sequence.** -/
theorem encodeIntInf_eq (n : ℤ) :
    ∀ outS, encodeIntInf putB outS n = (signed n).foldl putB outS := by
  induction n using signed.induct with
  | case1 n h =>
    intro outS
    rw [encodeIntInf, signed, if_pos h, dif_pos ((noMore_iff n).2 h), lowest_eq]
    rfl
  | case2 n h ih =>
    intro outS
    rw [encodeIntInf, signed, if_neg h, dif_neg (mt (noMore_iff n).1 h), lowest_or_contBit,
      shiftRight_seven]
    exact ih _

theorem encodeNativeInt_eq (n : Word64) (outS : δ) :
    encodeNativeInt putB outS n = (signed n.toInt).foldl putB outS := by
  rw [← encodeIntInf_eq]
  induction outS, n using encodeNativeInt.induct putB with
  | case1 outS n b n' h =>
    have h' : noMore (n.toInt >>> (7 : ℕ)) (lowest n.toInt) := by
      rwa [← toInt_sshiftRight_seven, ← lowest64_eq, ← noMore64_iff]
    rw [encodeNativeInt, encodeIntInf, dif_pos h, dif_pos h', lowest64_eq]
  | case2 outS n b n' h ih =>
    have h' : ¬noMore (n.toInt >>> (7 : ℕ)) (lowest n.toInt) := by
      rwa [← toInt_sshiftRight_seven, ← lowest64_eq, ← noMore64_iff]
    rw [encodeNativeInt, encodeIntInf, dif_neg h, dif_neg h', ← toInt_sshiftRight_seven,
      ← lowest64_eq]
    exact ih

theorem toNat_shiftRight_seven (n : Word64) : (n >>> 7).toNat = n.toNat / 128 := by
  rw [BitVec.toNat_ushiftRight, Nat.shiftRight_eq_div_pow]

theorem shiftRight_seven_eq_zero_iff (n : Word64) : n >>> 7 = 0 ↔ n.toNat < 128 := by
  have h0 : (0 : Word64).toNat = 0 := rfl
  rw [← BitVec.toNat_inj, toNat_shiftRight_seven]
  omega

/-- **The encoder of native words puts the bytes of the shortest sequence.** -/
theorem encodeNativeWord_eq (n : Word64) (outS : δ) :
    encodeNativeWord putB outS n = (unsigned n.toNat).foldl putB outS := by
  induction hm : n.toNat using Nat.strong_induction_on generalizing n outS with
  | _ m ih =>
    have hzero := shiftRight_seven_eq_zero_iff n
    rw [hm] at hzero
    rw [encodeNativeWord, unsigned]
    rw [lowest64_eq_natCast, hm]
    by_cases h : m < 128
    · rw [dif_pos (hzero.2 h), if_pos h, lowest_natCast, Nat.mod_eq_of_lt h]
      rfl
    · rw [dif_neg (mt hzero.1 h), if_neg h, lowest_natCast_or_contBit]
      exact ih (m / 128) (by omega) (n >>> 7) _ (by rw [toNat_shiftRight_seven, hm])

theorem encodeUIntInfLoop_eq (n : ℤ) (hn : 0 ≤ n) (outS : δ) :
    encodeUIntInfLoop putB outS n hn = (unsigned n.toNat).foldl putB outS := by
  induction hm : n.toNat using Nat.strong_induction_on generalizing n outS with
  | _ m ih =>
    obtain rfl : n = m := by omega
    have hzero : (m : ℤ) >>> (7 : ℕ) = 0 ↔ m < 128 := by
      rw [shiftRight_seven]
      omega
    rw [encodeUIntInfLoop, unsigned]
    by_cases h : m < 128
    · rw [dif_pos (hzero.2 h), if_pos h, lowest_natCast, Nat.mod_eq_of_lt h]
      rfl
    · rw [dif_neg (mt hzero.1 h), if_neg h, lowest_natCast_or_contBit]
      refine ih (m / 128) (by omega) _ _ _ ?_
      rw [shiftRight_seven]
      omega

end Encode

/-! ### Sizes -/

theorem sizeOfIntInfLp_eq (sign n : ℤ) (hsign : signOf n = sign) (sz : ℕ) :
    sizeOfIntInfLp sign n hsign sz + 1 = sz + (signed n).length := by
  induction n using signed.induct generalizing sz with
  | case1 n h =>
    subst hsign
    have hmore : ¬more n (signOf n) := fun hmore => (more_iff n).1 hmore h
    rw [sizeOfIntInfLp, dif_neg hmore, signed, if_pos h, List.length_singleton]
  | case2 n h ih =>
    subst hsign
    rw [sizeOfIntInfLp, dif_pos ((more_iff n).2 h), signed, if_neg h, List.length_cons]
    have hstep := ih (by rw [← shiftRight_seven, signOf_shiftRight]) (sz + 1)
    simp only [shiftRight_seven]
    omega

theorem sizeOfIntInf_eq (n : ℤ) : sizeOfIntInf n = (signed n).length := by
  have h := sizeOfIntInfLp_eq (signOf n) n rfl 1
  rw [sizeOfIntInf]
  omega

theorem sizeOfInt64Lp_eq (sign n : Word64) (hsign : signOf64 n = sign) (sz : ℕ) :
    sizeOfInt64Lp sign n hsign sz = sizeOfIntInfLp (signOf n.toInt) n.toInt rfl sz := by
  induction hm : left n.toInt using Nat.strong_induction_on generalizing n sz with
  | _ m ih =>
    subst hsign
    rw [sizeOfInt64Lp, sizeOfIntInfLp]
    by_cases h : more64 n (signOf64 n)
    · rw [dif_pos h, dif_pos ((more64_iff n).1 h)]
      have hlt := left_lt_of_more64 h
      rw [ih _ (hm ▸ hlt) _ (signOf64_sshiftRight n) _ rfl]
      simp [signOf_shiftRight]
    · rw [dif_neg h, dif_neg (mt (more64_iff n).2 h)]

theorem sizeOfInt64_eq (n : Word64) : sizeOfInt64 n = (signed n.toInt).length := by
  rw [sizeOfInt64, sizeOfInt64Lp_eq, ← sizeOfIntInf_eq]
  rfl

theorem sizeOfWord64Lp_eq (w : Word64) (sz : ℕ) :
    sizeOfWord64Lp (w >>> 7) sz + 1 = sz + (unsigned w.toNat).length := by
  induction hm : w.toNat using Nat.strong_induction_on generalizing w sz with
  | _ m ih =>
    have hzero := shiftRight_seven_eq_zero_iff w
    rw [hm] at hzero
    rw [sizeOfWord64Lp, unsigned]
    by_cases h : m < 128
    · rw [dif_pos (hzero.2 h), if_pos h, List.length_singleton]
    · have hstep := ih (m / 128) (by omega) (w >>> 7) (sz + 1)
        (by rw [toNat_shiftRight_seven, hm])
      rw [dif_neg (mt hzero.1 h), if_neg h, List.length_cons]
      omega

theorem sizeOfWord64_eq (w : Word64) : sizeOfWord64 w = (unsigned w.toNat).length := by
  have h := sizeOfWord64Lp_eq w 1
  rw [sizeOfWord64]
  omega

theorem sizeOfUIntInfLp_eq (n : ℤ) (hn : 0 ≤ n) (sz : ℕ) :
    sizeOfUIntInfLp (n >>> (7 : ℕ)) (shiftRight_seven_nonneg hn) sz + 1 =
      sz + (unsigned n.toNat).length := by
  induction hm : n.toNat using Nat.strong_induction_on generalizing n sz with
  | _ m ih =>
    obtain rfl : n = m := by omega
    have hzero : (m : ℤ) >>> (7 : ℕ) = 0 ↔ m < 128 := by
      rw [shiftRight_seven]
      omega
    rw [sizeOfUIntInfLp, unsigned]
    by_cases h : m < 128
    · rw [dif_pos (hzero.2 h), if_pos h, List.length_singleton]
    · have hstep := ih (m / 128) (by omega) _ (shiftRight_seven_nonneg hn) (sz + 1)
        (by rw [shiftRight_seven]; omega)
      rw [dif_neg (mt hzero.1 h), if_neg h, List.length_cons]
      omega

/-! ### Decoding -/

variable {bs : List Word8} {fuel k : ℕ}

section Decode

variable {σ : Type} (getB : σ → Option (Word8 × σ))

/-- **The decoder of signed numbers computes the number of a sequence.** -/
theorem decodeIntInfLp_eq (hbs : IsNumber bs) {s s' : σ} (hs : Reads getB s bs s')
    (hfuel : bs.length ≤ fuel) (n : ℤ) (shift : ℕ) :
    decodeIntInfLp getB fuel s n shift =
      some (.ok (some (n + 2 ^ shift * signedValue bs, s'))) := by
  induction bs generalizing s fuel n shift with
  | nil => exact absurd rfl hbs.ne_nil
  | cons b bs ih =>
    obtain ⟨s₁, hget, hs⟩ := hs
    obtain ⟨fuel, rfl⟩ : ∃ k, fuel = k + 1 := ⟨fuel - 1, by rw [List.length_cons] at hfuel; omega⟩
    rw [decodeIntInfLp, hget]
    simp only [toNat_and_low, Int.shiftLeft_eq]
    rcases isNumber_cons_iff.1 hbs with ⟨hb, rfl⟩ | ⟨hb, hbs'⟩
    · obtain rfl : s₁ = s' := hs
      rw [if_neg (mt (and_contBit_ne_zero_iff b).1 (by omega)), signedValue]
      simp only [and_signBit_eq_zero_iff]
      split_ifs
      · ring_nf
      · ring_nf
    · rw [if_pos ((and_contBit_ne_zero_iff b).2 hb),
        ih hbs' hs (Nat.le_of_succ_le_succ hfuel), signedValue_cons hbs'.ne_nil]
      ring

theorem decodeIntInf_eq (hbs : IsNumber bs) {s s' : σ} (hs : Reads getB s bs s')
    (hfuel : bs.length ≤ fuel) :
    decodeIntInf getB fuel s = some (.ok (some (signedValue bs, s'))) := by
  rw [decodeIntInf, decodeIntInfLp_eq getB hbs hs hfuel, pow_zero, one_mul, zero_add]

/-- **The decoder of unsigned numbers computes the number of a sequence.** -/
theorem decodeUIntInfLp_eq (hbs : IsNumber bs) {s s' : σ} (hs : Reads getB s bs s')
    (hfuel : bs.length ≤ fuel) (n : ℤ) (shift : ℕ) :
    decodeUIntInfLp getB fuel s n shift =
      some (.ok (some (n + 2 ^ shift * value bs, s'))) := by
  induction bs generalizing s fuel n shift with
  | nil => exact absurd rfl hbs.ne_nil
  | cons b bs ih =>
    obtain ⟨s₁, hget, hs⟩ := hs
    obtain ⟨fuel, rfl⟩ : ∃ k, fuel = k + 1 := ⟨fuel - 1, by rw [List.length_cons] at hfuel; omega⟩
    rw [decodeUIntInfLp, hget]
    simp only [toNat_and_low, Int.shiftLeft_eq, value]
    rcases isNumber_cons_iff.1 hbs with ⟨hb, rfl⟩ | ⟨hb, hbs'⟩
    · obtain rfl : s₁ = s' := hs
      rw [if_neg (mt (and_contBit_ne_zero_iff b).1 (by omega)), value]
      ring
    · rw [if_pos ((and_contBit_ne_zero_iff b).2 hb), ih hbs' hs (Nat.le_of_succ_le_succ hfuel)]
      push_cast
      ring

theorem decodeUIntInf_eq (hbs : IsNumber bs) {s s' : σ} (hs : Reads getB s bs s')
    (hfuel : bs.length ≤ fuel) :
    decodeUIntInf getB fuel s = some (.ok (some ((value bs : ℤ), s'))) := by
  rw [decodeUIntInf, decodeUIntInfLp_eq getB hbs hs hfuel, pow_zero, one_mul, zero_add]

theorem toNat_slice (hk : 7 ≤ k) (b : Word8) :
    (b.setWidth k &&& 0x7f : BitVec k).toNat = b.toNat % 128 := by
  have hpow : 2 ^ 7 ≤ 2 ^ k := Nat.pow_le_pow_right (by norm_num) hk
  have hmask : (0x7f : BitVec k).toNat = 2 ^ 7 - 1 := by
    change (BitVec.ofNat k 127).toNat = _
    rw [BitVec.toNat_ofNat, Nat.mod_eq_of_lt (by omega)]
    rfl
  rw [BitVec.toNat_and, hmask, Nat.and_two_pow_sub_one_eq_mod, BitVec.toNat_setWidth,
    Nat.mod_mod_of_dvd _ (pow_dvd_pow 2 hk)]
  rfl

theorem toNat_or_slice {shift : ℕ} {w v : BitVec k} (hw : w.toNat < 2 ^ shift)
    (hfits : w.toNat + 2 ^ shift * v.toNat < 2 ^ k) :
    (w ||| v <<< shift).toNat = w.toNat + 2 ^ shift * v.toNat := by
  have hshift : v.toNat <<< shift = 2 ^ shift * v.toNat := by
    rw [Nat.shiftLeft_eq, mul_comm]
  have hor := Nat.shiftLeft_add_eq_or_of_lt hw v.toNat
  rw [BitVec.toNat_or, BitVec.toNat_shiftLeft, Nat.mod_eq_of_lt (by omega), Nat.or_comm,
    ← hshift, ← hor, add_comm]

/-- **The check finds the groups that do not fit.** -/
theorem chkOverflow_iff {shift : ℕ} (hk : 7 ≤ k) (hk' : k % 7 = 0 ∨ k % 7 = 1)
    (hshift : shift % 7 = 0) {w slice : BitVec k} (hw : w.toNat < 2 ^ shift)
    (hslice : slice.toNat < 128) :
    chkOverflow shift slice = true ↔ 2 ^ k ≤ w.toNat + 2 ^ shift * slice.toNat := by
  have hpos : 0 < 2 ^ shift := by positivity
  rw [chkOverflow]
  rcases lt_trichotomy shift (k - 1) with h | h | h
  · -- all bits of the group are in the word
    have hle : 2 ^ (shift + 7) ≤ 2 ^ k := Nat.pow_le_pow_right (by norm_num) (by omega)
    have hmul : 2 ^ shift * slice.toNat ≤ 2 ^ shift * 127 :=
      Nat.mul_le_mul_left _ (Nat.le_of_lt_succ hslice)
    rw [if_pos h, pow_add] at *
    simp only [Bool.false_eq_true, false_iff]
    omega
  · -- only one bit is
    have hk2 : 2 ^ k = 2 * 2 ^ shift := by
      rw [← pow_succ']
      congr 1
      omega
    have hback : (slice <<< shift >>> shift).toNat = slice.toNat % 2 := by
      rw [BitVec.toNat_ushiftRight, BitVec.toNat_shiftLeft, Nat.shiftLeft_eq,
        Nat.shiftRight_eq_div_pow, hk2, Nat.mul_mod_mul_right, Nat.mul_div_cancel _ hpos]
    rw [if_neg (by omega), if_pos h, decide_eq_true_eq, ne_eq, ← BitVec.toNat_inj]
    constructor
    · intro hne
      have hmul : 2 ^ shift * 2 ≤ 2 ^ shift * slice.toNat := Nat.mul_le_mul_left _ (by omega)
      omega
    · intro hle heq
      have hmul : 2 ^ shift * slice.toNat ≤ 2 ^ shift * 1 := Nat.mul_le_mul_left _ (by omega)
      omega
  · -- the group is outside of the word
    have hle : 2 ^ k ≤ 2 ^ shift := Nat.pow_le_pow_right (by norm_num) (by omega)
    rw [if_neg (by omega), if_neg (by omega), decide_eq_true_eq, ne_eq, ← BitVec.toNat_inj]
    have h0 : (0 : BitVec k).toNat = 0 := BitVec.toNat_zero
    rw [h0]
    constructor
    · intro hne
      have hmul : 2 ^ shift * 1 ≤ 2 ^ shift * slice.toNat := Nat.mul_le_mul_left _ (by omega)
      omega
    · intro hle' heq
      rw [heq] at hle'
      omega

/-- **The decoder of words finds out whether the number of a sequence fits.**  The last group that
fits has all its bits in the word, or only one. -/
theorem decodeWordLp_eq (hk : 7 ≤ k) (hk' : k % 7 = 0 ∨ k % 7 = 1) (hbs : IsNumber bs) {s s' : σ}
    (hs : Reads getB s bs s') (hfuel : bs.length ≤ fuel) (w : BitVec k) (shift : ℕ)
    (hshift : shift % 7 = 0) (hw : w.toNat < 2 ^ shift) :
    decodeWordLp getB fuel s w shift =
      if w.toNat + 2 ^ shift * value bs < 2 ^ k then
        some (.ok (some (BitVec.ofNat k (w.toNat + 2 ^ shift * value bs), s')))
      else some (.error .Overflow) := by
  induction bs generalizing s fuel w shift with
  | nil => exact absurd rfl hbs.ne_nil
  | cons b bs ih =>
    obtain ⟨s₁, hget, hs⟩ := hs
    obtain ⟨fuel, rfl⟩ : ∃ k, fuel = k + 1 := ⟨fuel - 1, by rw [List.length_cons] at hfuel; omega⟩
    rw [decodeWordLp, hget]
    dsimp only
    have hslice := toNat_slice hk b
    have hlt : b.toNat % 128 < 128 := Nat.mod_lt _ (by norm_num)
    have hchk := chkOverflow_iff hk hk' hshift hw (hslice ▸ hlt)
    have hor := toNat_or_slice (v := b.setWidth k &&& 0x7f) hw
    rw [hslice] at hchk hor
    have hval : w.toNat + 2 ^ shift * value (b :: bs) =
        w.toNat + 2 ^ shift * (b.toNat % 128) + 2 ^ (shift + 7) * value bs := by
      rw [value]
      ring
    by_cases h : chkOverflow shift (b.setWidth k &&& 0x7f) = true
    · rw [if_pos h, if_neg]
      have hle := hchk.1 h
      omega
    · have hfits := not_le.1 (mt hchk.2 h)
      have hw' := hor hfits
      rw [if_neg h]
      rcases isNumber_cons_iff.1 hbs with ⟨hb, rfl⟩ | ⟨hb, hbs'⟩
      · obtain rfl : s₁ = s' := hs
        rw [if_neg (mt (contBit_le_iff b).1 (by omega)), hval, value, mul_zero, add_zero,
          if_pos hfits, ← hw', BitVec.ofNat_toNat, BitVec.setWidth_eq]
      · rw [if_pos ((contBit_le_iff b).2 hb),
          ih hbs' hs (Nat.le_of_succ_le_succ hfuel) _ _ (by omega), hw', hval]
        rw [pow_add]
        have hmul : 2 ^ shift * (b.toNat % 128) ≤ 2 ^ shift * 127 :=
          Nat.mul_le_mul_left _ (Nat.le_of_lt_succ hlt)
        omega

theorem decodeWordLp_zero (hk : 7 ≤ k) (hk' : k % 7 = 0 ∨ k % 7 = 1) (hbs : IsNumber bs) {s s' : σ}
    (hs : Reads getB s bs s') (hfuel : bs.length ≤ fuel) :
    decodeWordLp getB fuel s (0 : BitVec k) 0 =
      if value bs < 2 ^ k then some (.ok (some (BitVec.ofNat k (value bs), s')))
      else some (.error .Overflow) := by
  have h0 : (0 : BitVec k).toNat = 0 := BitVec.toNat_zero
  rw [decodeWordLp_eq getB hk hk' hbs hs hfuel 0 0 rfl (by rw [h0]; norm_num), h0, pow_zero,
    one_mul, zero_add]

/-- **Overflow** is raised exactly for the numbers that do not fit. -/
theorem decodeWordLp_eq_overflow_iff (hk : 7 ≤ k) (hk' : k % 7 = 0 ∨ k % 7 = 1) (hbs : IsNumber bs)
    {s s' : σ} (hs : Reads getB s bs s') (hfuel : bs.length ≤ fuel) :
    decodeWordLp getB fuel s (0 : BitVec k) 0 = some (.error .Overflow) ↔ 2 ^ k ≤ value bs := by
  rw [decodeWordLp_zero getB hk hk' hbs hs hfuel]
  split_ifs with h
  · simp [h]
  · simp [not_lt.1 h]

theorem decodeSigned_eq (v : BitVec k) {s s' : σ} (hs : Reads getB s (signed v.toInt) s')
    (hfuel : (signed v.toInt).length ≤ fuel) :
    decodeSigned getB k fuel s = some (.ok (some (v, s'))) := by
  have hfits : fromLarge k v.toInt = .ok v := by
    rw [fromLarge, if_pos ⟨BitVec.le_toInt v, BitVec.toInt_lt⟩, BitVec.ofInt_toInt]
  rw [decodeSigned, decodeIntInf_eq getB (isNumber_signed _) hs hfuel, signedValue_signed]
  change some ((fromLarge k v.toInt).map fun v => some (v, s')) = _
  rw [hfits]
  rfl

end Decode

theorem foldl_putB (bs : List Word8) (written : List (Option Word8)) :
    bs.foldl putB (some (written.length, written ++ create bs.length)) =
      some (written.length + bs.length, written ++ bs.map some) := by
  induction bs generalizing written with
  | nil => rfl
  | cons b bs ih =>
    have hset : (written ++ create (bs.length + 1)).set written.length (some b) =
        (written ++ [some b]) ++ create bs.length := by
      rw [List.set_append_right _ _ le_rfl, Nat.sub_self, List.append_assoc]
      rfl
    have hlt : written.length < (written ++ create (bs.length + 1)).length := by
      rw [List.length_append, create, List.length_replicate]
      omega
    have hstep := ih (written ++ [some b])
    rw [List.length_append, List.length_singleton] at hstep
    rw [List.foldl_cons, putB, List.length_cons, if_pos hlt, hset, hstep, List.append_assoc, Nat.add_assoc, Nat.add_comm 1]
    rfl

/-! ### The codes -/

/-- **A value is encoded and decoded**: the encoder puts some bytes; the computed size is their
number, so they fill the buffer and nothing is written outside of it; and a decoder that reads them
returns the value and leaves the rest of its input. -/
def Codes {α : Type} (sizeOf : α → Except Exn ℕ)
    (encoder : ∀ {δ : Type}, (δ → Word8 → δ) → δ → α → Except Exn δ)
    (decoder : ∀ {σ : Type}, (σ → Option (Word8 × σ)) → ℕ → σ → Decoded α σ) (v : α) : Prop :=
  ∃ bs : List Word8,
    (∀ {δ : Type} (putB : δ → Word8 → δ) (outS : δ),
      encoder putB outS v = .ok (bs.foldl putB outS)) ∧
    sizeOf v = .ok bs.length ∧
    toBytes sizeOf encoder v = .ok (some (bs.map some)) ∧
    ∀ {σ : Type} (getB : σ → Option (Word8 × σ)) (s s' : σ), Reads getB s bs s' →
      ∀ fuel ≥ bs.length, decoder getB fuel s = some (.ok (some (v, s')))

theorem codes_of_eq {α : Type} {sizeOf : α → Except Exn ℕ}
    {encoder : ∀ {δ : Type}, (δ → Word8 → δ) → δ → α → Except Exn δ}
    {decoder : ∀ {σ : Type}, (σ → Option (Word8 × σ)) → ℕ → σ → Decoded α σ} {v : α}
    {l : List Word8}
    (hencoder : ∀ {δ : Type} (putB : δ → Word8 → δ) (outS : δ),
      encoder putB outS v = .ok (l.foldl putB outS))
    (hsize : sizeOf v = .ok l.length)
    (hdecoder : ∀ {σ : Type} (getB : σ → Option (Word8 × σ)) (s s' : σ), Reads getB s l s' →
      ∀ fuel ≥ l.length, decoder getB fuel s = some (.ok (some (v, s')))) :
    Codes sizeOf encoder decoder v := by
  refine ⟨l, hencoder, hsize, ?_, hdecoder⟩
  have hfill := foldl_putB l []
  rw [List.length_nil, List.nil_append] at hfill
  rw [toBytes, hsize]
  change (encoder putB (some (0, create l.length)) v).map _ = _
  rw [hencoder, hfill]
  rfl

/-- **LEB128 is correct**: for each type of numbers the round trip gives the number back, the size
is the number of bytes and the buffer is filled exactly; and the decoders of words raise `Overflow`
exactly if the number of the sequence does not fit. -/
theorem leb128_correct :
    (∀ n : Word, Codes (fun n => .ok (sizeOfInt n)) (fun putB outS n => .ok (encodeInt putB outS n))
      decodeInt n) ∧
    (∀ n : Word64, Codes (fun n => .ok (sizeOfInt64 n))
      (fun putB outS n => .ok (encodeNativeInt putB outS n)) decodeNativeInt n) ∧
    (∀ n : ℤ, Codes (fun n => .ok (sizeOfIntInf n))
      (fun putB outS n => .ok (encodeIntInf putB outS n)) decodeIntInf n) ∧
    (∀ w : Word, Codes (fun w => .ok (sizeOfWord w))
      (fun putB outS w => .ok (encodeWord putB outS w)) decodeWord w) ∧
    (∀ w : Word64, Codes (fun w => .ok (sizeOfWord64 w))
      (fun putB outS w => .ok (encodeNativeWord putB outS w)) decodeWord64 w) ∧
    (∀ n : ℤ, 0 ≤ n → Codes sizeOfUIntInf encodeUIntInf decodeUIntInf n) ∧
    ∀ (σ : Type) (getB : σ → Option (Word8 × σ)) (bs : List Word8) (s s' : σ), IsNumber bs →
      Reads getB s bs s' → ∀ fuel ≥ bs.length,
        (decodeWord getB fuel s = some (.error .Overflow) ↔ 2 ^ 63 ≤ value bs) ∧
        (decodeWord64 getB fuel s = some (.error .Overflow) ↔ 2 ^ 64 ≤ value bs) ∧
        (value bs < 2 ^ 63 →
          decodeWord getB fuel s = some (.ok (some (BitVec.ofNat 63 (value bs), s')))) ∧
        (value bs < 2 ^ 64 →
          decodeWord64 getB fuel s = some (.ok (some (BitVec.ofNat 64 (value bs), s')))) := by
  refine ⟨fun n => ?_, fun n => ?_, fun n => ?_, fun w => ?_, fun w => ?_, fun n hn => ?_,
    fun σ getB bs s s' hbs hs fuel hfuel => ?_⟩
  · have hext : (n.signExtend 64).toInt = n.toInt := BitVec.toInt_signExtend_of_le (by norm_num)
    refine codes_of_eq (l := signed n.toInt) (fun putB outS => ?_) ?_
      fun getB s s' hs fuel hfuel => decodeSigned_eq getB n hs hfuel
    · rw [encodeInt, encodeNativeInt_eq, hext]
    · rw [sizeOfInt, sizeOfInt64_eq, hext]
  · refine codes_of_eq (l := signed n.toInt) (fun putB outS => ?_) ?_
      fun getB s s' hs fuel hfuel => decodeSigned_eq getB n hs hfuel
    · rw [encodeNativeInt_eq]
    · rw [sizeOfInt64_eq]
  · refine codes_of_eq (l := signed n) (fun putB outS => ?_) ?_
      fun getB s s' hs fuel hfuel => ?_
    · rw [encodeIntInf_eq]
    · rw [sizeOfIntInf_eq]
    · rw [decodeIntInf_eq getB (isNumber_signed n) hs hfuel, signedValue_signed]
  · have hext : (w.setWidth 64).toNat = w.toNat := by
      rw [BitVec.toNat_setWidth, Nat.mod_eq_of_lt (by omega)]
    refine codes_of_eq (l := unsigned w.toNat) (fun putB outS => ?_) ?_
      fun getB s s' hs fuel hfuel => ?_
    · rw [encodeWord, encodeNativeWord_eq, hext]
    · rw [sizeOfWord, sizeOfWord64_eq, hext]
    · rw [decodeWord, decodeWordLp_zero getB (by norm_num) (by norm_num) (isNumber_unsigned _) hs
        hfuel, value_unsigned, if_pos w.isLt, BitVec.ofNat_toNat, BitVec.setWidth_eq]
  · refine codes_of_eq (l := unsigned w.toNat) (fun putB outS => ?_) ?_
      fun getB s s' hs fuel hfuel => ?_
    · rw [encodeNativeWord_eq]
    · rw [sizeOfWord64_eq]
    · rw [decodeWord64, decodeWordLp_zero getB (by norm_num) (by norm_num) (isNumber_unsigned _) hs
        hfuel, value_unsigned, if_pos w.isLt, BitVec.ofNat_toNat, BitVec.setWidth_eq]
  · refine codes_of_eq (l := unsigned n.toNat) (fun putB outS => ?_) ?_
      fun getB s s' hs fuel hfuel => ?_
    · rw [encodeUIntInf, dif_neg (not_lt.2 hn), encodeUIntInfLoop_eq]
    · have h := sizeOfUIntInfLp_eq n hn 1
      rw [sizeOfUIntInf, dif_neg (not_lt.2 hn)]
      congr 1
      omega
    · rw [decodeUIntInf_eq getB (isNumber_unsigned _) hs hfuel, value_unsigned,
        Int.toNat_of_nonneg hn]
  · refine ⟨decodeWordLp_eq_overflow_iff getB (by norm_num) (by norm_num) hbs hs hfuel,
      decodeWordLp_eq_overflow_iff getB (by norm_num) (by norm_num) hbs hs hfuel,
      fun h => ?_, fun h => ?_⟩
    · rw [decodeWord, decodeWordLp_zero getB (by norm_num) (by norm_num) hbs hs hfuel, if_pos h]
    · rw [decodeWord64, decodeWordLp_zero getB (by norm_num) (by norm_num) hbs hs hfuel, if_pos h]

theorem leb128_correct_threeHundred : Codes sizeOfUIntInf encodeUIntInf decodeUIntInf 300 :=
  leb128_correct.2.2.2.2.2.1 300 (by norm_num)

end SmlNj.LEB128
