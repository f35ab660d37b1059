import SmlNj.Basics.RealToBits

/-!
# The layout of IEEE representations

Which bits of a representation the sign, the biased exponent and the mantissa are
written to, and the class of number that the bytes stand for in consequence.

## Main results

* `FloatParams.mkSignAndExp_spec` — sign and exponent, bit by bit.
* `FloatParams.packSpecial_spec` — the whole of a number that is not normal.
* `FloatParams.pack_normal`, `FloatParams.packSpecial_subnormal` and their
  companions — the classes of the representations.
-/

namespace SmlNj.FloatParams

open RealToBits

variable (P : FloatParams)

theorem expWidth_ge : 5 ≤ P.expWidth := by
  have := P.significant_ok
  unfold expWidth
  omega

theorem expWidth_add : P.expWidth + P.significant = P.width := by
  have := P.significant_ok
  unfold expWidth
  omega

theorem maxExp_eq : P.maxExp = 2 ^ (P.expWidth - 1) - 1 :=
  P.bias_ok.symm.trans P.bias_eq

theorem expWidth_le : P.expWidth ≤ 63 := by
  have hlt : 2 * P.maxExp < 2 ^ 63 := BitVec.two_mul_toInt_lt
  rw [P.maxExp_eq] at hlt
  by_contra h
  have hpow : (2 : ℤ) ^ 63 ≤ 2 ^ (P.expWidth - 1) :=
    pow_le_pow_right₀ (by norm_num) (by omega)
  omega

theorem numBytes_mul : 8 * P.numBytes = P.width := by
  have := P.width_ok
  unfold numBytes
  omega

theorem numExpBytes_le : P.numExpBytes ≤ P.numBytes := by
  have := P.significant_ok
  have := P.expWidth_add
  unfold numExpBytes numBytes
  omega

/-! ### Or into a byte -/

theorem bit_orb {bytes : List (BitVec 8)} {i : ℕ} (hi : i < bytes.length) (b : BitVec 8) :
    ∃ bytes', orb bytes i b = .ok bytes' ∧ bytes'.length = bytes.length ∧
      ∀ k, bit bytes' k = (bit bytes k || (decide (k / 8 = i) && b.getLsbD (7 - k % 8))) := by
  refine ⟨bytes.modify i (· ||| b), ?_, List.length_modify _ _ _, ?_⟩
  · unfold orb
    rw [if_pos ⟨by omega, by exact_mod_cast hi⟩, Int.toNat_natCast]
  · intro k
    unfold bit
    rw [List.getD_eq_getElem?_getD, List.getD_eq_getElem?_getD, List.getElem?_modify]
    by_cases hk : k / 8 = i
    · rw [hk, List.getElem?_eq_getElem hi]
      simp
    · have : ¬ i = k / 8 := fun h => hk h.symm
      simp [hk, this]

theorem bit_orbs {ι : Type} (f : ι → ℕ) (g : ι → BitVec 8) (l : List ι) :
    ∀ bytes : List (BitVec 8), (∀ x ∈ l, f x < bytes.length) →
    ∃ bytes', l.foldlM (fun bytes x => orb bytes (f x) (g x)) bytes = .ok bytes' ∧
      bytes'.length = bytes.length ∧
      ∀ k, bit bytes' k =
        (bit bytes k || l.any fun x => decide (k / 8 = f x) && (g x).getLsbD (7 - k % 8)) := by
  induction l with
  | nil =>
    intro bytes _
    exact ⟨bytes, rfl, rfl, by simp⟩
  | cons x l ih =>
    intro bytes h
    obtain ⟨bytes₁, h₁, hlen₁, hbit₁⟩ := bit_orb (h x List.mem_cons_self) (g x)
    obtain ⟨bytes₂, h₂, hlen₂, hbit₂⟩ := ih bytes₁ (by
      intro y hy
      rw [hlen₁]
      exact h y (List.mem_cons_of_mem x hy))
    refine ⟨bytes₂, ?_, hlen₂.trans hlen₁, ?_⟩
    · rw [List.foldlM_cons, h₁]
      exact h₂
    · intro k
      rw [hbit₂, hbit₁, List.any_cons, Bool.or_assoc]

theorem bit_replicate (n k : ℕ) : bit (List.replicate n 0#8) k = false := by
  unfold bit
  rw [List.getD_eq_getElem?_getD, List.getElem?_replicate]
  split <;> simp

/-- Sign and exponent, bit by bit. -/
theorem mkSignAndExp_spec (isNeg : Bool) (exp : BitVec 63) (hexp : exp.toNat < 2 ^ P.expWidth) :
    ∃ bytes, P.mkSignAndExp isNeg exp = .ok bytes ∧ bytes.length = P.numBytes ∧
      ∀ k, bit bytes k = ((decide (k = 0) && isNeg) ||
        (decide (1 ≤ k ∧ k ≤ P.expWidth) && exp.getLsbD (P.expWidth - k))) := by
  have hw := P.expWidth_le
  have hle := P.numExpBytes_le
  have hpos : 0 < P.numBytes := by
    have := P.width_ok
    unfold numBytes
    omega
  have hsign : ∃ bytes, (if isNeg then orb (List.replicate P.numBytes 0#8) 0 0x80#8
      else .ok (List.replicate P.numBytes 0#8)) = .ok bytes ∧ bytes.length = P.numBytes ∧
      ∀ k, bit bytes k = (decide (k = 0) && isNeg) := by
    cases isNeg with
    | false => exact ⟨_, rfl, List.length_replicate, fun k => by simp [bit_replicate]⟩
    | true =>
      obtain ⟨bytes, hb, hlen, hbit⟩ := bit_orb
        (show 0 < (List.replicate P.numBytes 0#8).length by simpa using hpos) 0x80#8
      refine ⟨bytes, hb, by simpa using hlen, ?_⟩
      intro k
      rw [hbit, bit_replicate, Bool.and_true]
      have h80 : ∀ j < 8, (0x80#8).getLsbD (7 - j) = decide (j = 0) := by decide
      rw [h80 _ (Nat.mod_lt _ (by norm_num)), ← Bool.decide_and]
      exact decide_eq_decide.mpr (by omega)
  obtain ⟨bytes₀, h₀, hlen₀, hbit₀⟩ := hsign
  obtain ⟨bytes, h₁, hlen₁, hbit₁⟩ := bit_orbs (fun i => i)
    (fun i => w2b ((exp <<< P.expShift) >>> (8 * (P.numExpBytes - i - 1))))
    (List.range P.numExpBytes) bytes₀ (by
      intro i hi
      rw [hlen₀]
      exact lt_of_lt_of_le (List.mem_range.mp hi) hle)
  refine ⟨bytes, ?_, hlen₁.trans hlen₀, ?_⟩
  · unfold mkSignAndExp
    dsimp only
    rw [h₀]
    exact h₁
  · intro k
    rw [hbit₁, hbit₀]
    congr 1
    rw [Bool.eq_iff_iff, List.any_eq_true]
    have hbyte : ∀ i, k / 8 = i → i < P.numExpBytes →
        (w2b ((exp <<< P.expShift) >>> (8 * (P.numExpBytes - i - 1)))).getLsbD (7 - k % 8) =
          (decide (1 ≤ k ∧ k ≤ P.expWidth) && exp.getLsbD (P.expWidth - k)) := by
      intro i hk hi
      unfold w2b
      rw [BitVec.getLsbD_setWidth, BitVec.getLsbD_ushiftRight, BitVec.getLsbD_shiftLeft]
      have hshift : P.expShift = 8 * P.numExpBytes - (P.expWidth + 1) := rfl
      have hnum : P.numExpBytes = (P.expWidth + 8) / 8 := rfl
      by_cases h0 : k = 0
      · -- The first bit is beyond the exponent.
        have hout : exp.getLsbD (8 * (P.numExpBytes - i - 1) + (7 - k % 8) - P.expShift) =
            false := by
          apply Nat.testBit_eq_false_of_lt
          calc exp.toNat < 2 ^ P.expWidth := hexp
            _ ≤ 2 ^ (8 * (P.numExpBytes - i - 1) + (7 - k % 8) - P.expShift) :=
              Nat.pow_le_pow_right (by norm_num) (by omega)
        rw [hout]
        simp [h0]
      · by_cases hk' : k ≤ P.expWidth
        · have h1 : 8 * (P.numExpBytes - i - 1) + (7 - k % 8) - P.expShift = P.expWidth - k := by
            omega
          have h2 : 8 * (P.numExpBytes - i - 1) + (7 - k % 8) < 63 := by omega
          have h3 : ¬ 8 * (P.numExpBytes - i - 1) + (7 - k % 8) < P.expShift := by omega
          have h4 : 7 - k % 8 < 8 := by omega
          have h5 : 1 ≤ k ∧ k ≤ P.expWidth := by omega
          simp [h1, h2, h3, h4, h5]
        · have h3 : 8 * (P.numExpBytes - i - 1) + (7 - k % 8) < P.expShift := by omega
          have h5 : ¬ (1 ≤ k ∧ k ≤ P.expWidth) := by omega
          simp [h3, h5]
    constructor
    · rintro ⟨i, hi, hand⟩
      rw [Bool.and_eq_true, decide_eq_true_eq] at hand
      rw [← hbyte i hand.1 (List.mem_range.mp hi)]
      exact hand.2
    · intro h
      have hk : 1 ≤ k ∧ k ≤ P.expWidth := by
        rw [Bool.and_eq_true, decide_eq_true_eq] at h
        exact h.1
      have hlt : k / 8 < P.numExpBytes := by
        unfold numExpBytes
        omega
      refine ⟨k / 8, List.mem_range.mpr hlt, ?_⟩
      rw [decide_eq_true rfl, hbyte (k / 8) rfl hlt]
      exact h

/-- The mantissa of a number that is not normal, bit by bit. -/
theorem lp_spec (mant : ℕ) : ∀ (n : ℕ) (bytes : List (BitVec 8)), n ≤ bytes.length →
    mant < 2 ^ (8 * n) →
    ∃ bytes', packSpecial.lp mant (n - 1) bytes = .ok bytes' ∧
      ∀ k, bit bytes' k = (bit bytes k || (decide (k < 8 * n) && mant.testBit (8 * n - 1 - k))) := by
  induction mant using Nat.strong_induction_on with
  | _ mant ih =>
    intro n bytes hn hmant
    unfold packSpecial.lp
    by_cases h0 : mant = 0
    · subst h0
      exact ⟨bytes, by simp, by simp⟩
    · obtain ⟨m, rfl⟩ : ∃ m, n = m + 1 := by
        cases n with
        | zero => simp at hmant; omega
        | succ m => exact ⟨m, rfl⟩
      obtain ⟨bytes₁, h₁, hlen₁, hbit₁⟩ := bit_orb (show m < bytes.length by omega)
        (BitVec.ofInt 8 mant)
      have hdiv : mant / 2 ^ 8 < 2 ^ (8 * m) := by
        rw [Nat.div_lt_iff_lt_mul (by norm_num), ← pow_add]
        exact hmant
      obtain ⟨bytes₂, h₂, hbit₂⟩ := ih (mant / 2 ^ 8) (by omega) m bytes₁
        (by omega) hdiv
      refine ⟨bytes₂, ?_, ?_⟩
      · have hcast : ((m + 1 : ℕ) : ℤ) - 1 = m := by push_cast; ring
        have hshift : (mant : ℤ) >>> (8 : ℕ) = ((mant / 2 ^ 8 : ℕ) : ℤ) := by
          rw [Int.shiftRight_eq_div_pow]
          norm_cast
        rw [if_pos (by omega), hcast, h₁, hshift]
        exact h₂
      · intro k
        rw [hbit₂, hbit₁, BitVec.ofInt_natCast, BitVec.getLsbD_ofNat, Nat.testBit_div_two_pow]
        by_cases hlo : k < 8 * m
        · have e1 : ¬ k / 8 = m := by omega
          have e2 : 8 * m - 1 - k + 8 = 8 * (m + 1) - 1 - k := by omega
          have e3 : k < 8 * (m + 1) := by omega
          simp [hlo, e1, e2, e3]
        · by_cases hhi : k < 8 * (m + 1)
          · have e1 : k / 8 = m := by omega
            have e2 : 8 * (m + 1) - 1 - k = 7 - k % 8 := by omega
            have e3 : 7 - k % 8 < 8 := by omega
            simp [hlo, hhi, e1, e2, e3]
          · have e1 : ¬ k / 8 = m := by omega
            simp [hlo, hhi, e1]

theorem packSpecial_spec (isNeg : Bool) (exp : BitVec 63) (hexp : exp.toNat < 2 ^ P.expWidth)
    {frac : ℕ} (hfrac : frac < 2 ^ P.width) :
    ∃ bytes, P.packSpecial isNeg exp frac = .ok bytes ∧
      ∀ k, bit bytes k = (((decide (k = 0) && isNeg) ||
        (decide (1 ≤ k ∧ k ≤ P.expWidth) && exp.getLsbD (P.expWidth - k))) ||
        (decide (k < P.width) && frac.testBit (P.width - 1 - k))) := by
  obtain ⟨bytes₁, h₁, hlen, hbit₁⟩ := P.mkSignAndExp_spec isNeg exp hexp
  obtain ⟨bytes, h₂, hbit₂⟩ := lp_spec frac P.numBytes bytes₁ hlen.ge
    (by rw [P.numBytes_mul]; exact hfrac)
  refine ⟨bytes, ?_, ?_⟩
  · unfold packSpecial
    rw [h₁]
    exact h₂
  · intro k
    rw [hbit₂, hbit₁, P.numBytes_mul]

/-! ### The mantissa of a normal number -/

/-- The bits of the loop stay below a bound that the bits so far and the next one
respect. -/
theorem getBits_lt (frac : ℤ) {w : ℕ} : ∀ (i : ℕ) (fracBit : ℤ) (bit bits : BitVec 63),
    (∀ j, bit.getLsbD j = true → j < w) → (∀ j, bits.getLsbD j = true → j < w) →
    ∀ j, (makebits.getBits frac i fracBit bit bits).getLsbD j = true → j < w := by
  have low : ∀ bits : BitVec 63, (∀ j, bits.getLsbD j = true → j < w) →
      ∀ j, (w2b bits).getLsbD j = true → j < w := by
    intro bits h j hj
    unfold w2b at hj
    rw [BitVec.getLsbD_setWidth, Bool.and_eq_true] at hj
    exact h j hj.2
  intro i
  induction i with
  | zero =>
    intro _ _ bits _ hbits
    exact low bits hbits
  | succ i ih =>
    intro fracBit bit bits hbit hbits
    have hbit' : ∀ j, (bit >>> 1).getLsbD j = true → j < w := by
      intro j hj
      rw [BitVec.getLsbD_ushiftRight] at hj
      have := hbit (1 + j) hj
      omega
    unfold makebits.getBits
    split
    · dsimp only
      split
      · exact ih _ _ bits hbit' hbits
      · refine ih _ _ (bits ||| bit) hbit' ?_
        intro j hj
        rw [BitVec.getLsbD_or, Bool.or_eq_true] at hj
        exact hj.elim (hbits j) (hbit j)
    · exact low bits hbits

theorem makebits_spec {frac s : ℤ} (h : frac = 0 ∨ numBitsForInt frac = .ok s) :
    ∃ bits, makebits frac = .ok bits ∧ (∀ start width, 1 ≤ width →
      ∀ j, (bits start width).getLsbD j = true → j < width) := by
  unfold makebits
  by_cases h0 : frac = 0
  · rw [if_pos h0]
    refine ⟨_, rfl, ?_⟩
    intro start width _ j hj
    simp at hj
  · rw [if_neg h0, h.resolve_left h0]
    refine ⟨_, rfl, ?_⟩
    intro start width hw
    apply getBits_lt
    · intro j hj
      rw [BitVec.getLsbD_shiftLeft] at hj
      simp only [Bool.and_eq_true, decide_eq_true_eq,
        BitVec.getLsbD_one] at hj
      omega
    · intro j hj
      simp at hj

theorem fracLayout_spec {l : FracByte} (hl : l ∈ P.fracLayout) :
    l.byte < P.numBytes ∧ 1 ≤ l.width ∧
      ∀ k, k / 8 = l.byte → 7 - k % 8 < l.width → P.expWidth < k := by
  have hwidth := P.width_ok
  have hadd := P.expWidth_add
  have hmant : P.numMantBytes = (P.significant + 6) / 8 := rfl
  have hbytes : P.numBytes = P.width / 8 := rfl
  obtain ⟨i, hi, rfl⟩ := List.mem_map.mp hl
  rw [List.mem_range] at hi
  by_cases h0 : i = 0
  · subst h0
    simp only [↓reduceIte]
    refine ⟨by omega, by omega, ?_⟩
    omega
  · simp only [h0, ↓reduceIte]
    refine ⟨by omega, by omega, ?_⟩
    omega

theorem pack_spec (isNeg : Bool) (exp : BitVec 63) (hexp : exp.toNat < 2 ^ P.expWidth)
    {frac s : ℤ} (hfrac : frac = 0 ∨ numBitsForInt frac = .ok s) :
    ∃ bytes, P.pack isNeg exp frac = .ok bytes ∧
      ∀ k, k ≤ P.expWidth → bit bytes k = ((decide (k = 0) && isNeg) ||
        (decide (1 ≤ k ∧ k ≤ P.expWidth) && exp.getLsbD (P.expWidth - k))) := by
  obtain ⟨bytes₁, h₁, hlen, hbit₁⟩ := P.mkSignAndExp_spec isNeg exp hexp
  obtain ⟨bits, hbits, hlow⟩ := makebits_spec hfrac
  obtain ⟨bytes, h₂, _, hbit₂⟩ := bit_orbs (fun l : FracByte => l.byte)
    (fun l => bits l.start l.width) P.fracLayout bytes₁ (by
      intro l hl
      rw [hlen]
      exact (P.fracLayout_spec hl).1)
  refine ⟨bytes, ?_, ?_⟩
  · unfold pack
    rw [h₁]
    rw [hbits]
    exact h₂
  · intro k hk
    rw [hbit₂, hbit₁]
    have hnone : (P.fracLayout.any fun x =>
        decide (k / 8 = x.byte) && (bits x.start x.width).getLsbD (7 - k % 8)) = false := by
      rw [List.any_eq_false]
      intro l hl hand
      rw [Bool.and_eq_true, decide_eq_true_eq] at hand
      obtain ⟨_, hw, hbehind⟩ := P.fracLayout_spec hl
      have := hbehind k hand.1 (hlow l.start l.width hw _ hand.2)
      omega
    rw [hnone, Bool.or_false]

theorem pack_zero_spec (isNeg : Bool) :
    ∃ bytes, P.zero isNeg = .ok bytes ∧ ∀ k, bit bytes k = (decide (k = 0) && isNeg) := by
  obtain ⟨bytes₁, h₁, hlen, hbit₁⟩ := P.mkSignAndExp_spec isNeg 0#63 (by simp)
  obtain ⟨bytes, h₂, _, hbit₂⟩ := bit_orbs (fun l : FracByte => l.byte)
    (fun _ => 0#8) P.fracLayout bytes₁ (by
      intro l hl
      rw [hlen]
      exact (P.fracLayout_spec hl).1)
  refine ⟨bytes, ?_, ?_⟩
  · unfold zero pack
    change (P.mkSignAndExp isNeg 0#63 >>= fun bytes => makebits 0 >>= fun bits =>
      P.fracLayout.foldlM
        (fun bytes l => orb bytes l.byte (bits l.start l.width)) bytes) = _
    rw [h₁]
    exact h₂
  · intro k
    rw [hbit₂, hbit₁]
    simp

/-! ### The classes -/

open Classical in
/-- The class of bytes, from the bits of their fields. -/
theorem classOf_eq (bytes : List (BitVec 8)) : P.classOf bytes =
    if ∀ k, 1 ≤ k → k ≤ P.expWidth → bit bytes k = true then
      if ∃ k, P.expWidth < k ∧ k < P.width ∧ bit bytes k = true then .nan else .inf
    else if ∃ k, 1 ≤ k ∧ k ≤ P.expWidth ∧ bit bytes k = true then .normal
    else if ∃ k, P.expWidth < k ∧ k < P.width ∧ bit bytes k = true then .subnormal
    else .zero := by
  have hadd := P.expWidth_add
  have hall : ((List.range P.expWidth).map fun j => bit bytes (1 + j)).all id = true ↔
      ∀ k, 1 ≤ k → k ≤ P.expWidth → bit bytes k = true := by
    simp only [List.all_map, List.all_eq_true, List.mem_range, Function.comp]
    constructor
    · intro h k h1 h2
      have := h (k - 1) (by omega)
      rwa [show 1 + (k - 1) = k by omega] at this
    · intro h j hj
      exact h (1 + j) (by omega) (by omega)
  have hany : ((List.range P.expWidth).map fun j => bit bytes (1 + j)).any id = true ↔
      ∃ k, 1 ≤ k ∧ k ≤ P.expWidth ∧ bit bytes k = true := by
    simp only [List.any_map, List.any_eq_true, List.mem_range, Function.comp]
    constructor
    · rintro ⟨j, hj, h⟩
      exact ⟨1 + j, by omega, by omega, h⟩
    · rintro ⟨k, h1, h2, h⟩
      exact ⟨k - 1, by omega, by rwa [show 1 + (k - 1) = k by omega]⟩
  have hfrac : ((List.range (P.significant - 1)).map fun j =>
      bit bytes (1 + P.expWidth + j)).any id = true ↔
      ∃ k, P.expWidth < k ∧ k < P.width ∧ bit bytes k = true := by
    simp only [List.any_map, List.any_eq_true, List.mem_range, Function.comp]
    constructor
    · rintro ⟨j, hj, h⟩
      exact ⟨1 + P.expWidth + j, by omega, by omega, h⟩
    · rintro ⟨k, h1, h2, h⟩
      exact ⟨k - P.expWidth - 1, by omega,
        by rwa [show 1 + P.expWidth + (k - P.expWidth - 1) = k by omega]⟩
  unfold classOf
  rw [if_congr hall (if_congr hfrac rfl rfl)
    (if_congr hany rfl (if_congr hfrac rfl rfl))]
  congr

theorem exists_testBit {n : ℕ} (hn : n ≠ 0) {w : ℕ} (hw : n < 2 ^ w) :
    ∃ i, i < w ∧ n.testBit i = true := by
  obtain ⟨i, hi⟩ := Nat.exists_testBit_of_ne_zero hn
  refine ⟨i, ?_, hi⟩
  by_contra hge
  have := Nat.testBit_eq_false_of_lt (lt_of_lt_of_le hw (Nat.pow_le_pow_right (by norm_num)
    (not_lt.mp hge)))
  simp [this] at hi

theorem pack_normal (isNeg : Bool) (exp : BitVec 63) (h1 : 1 ≤ exp.toNat)
    (h2 : exp.toNat < 2 ^ P.expWidth - 1) {frac s : ℤ} (hs : numBitsForInt frac = .ok s) :
    ∃ bytes, P.pack isNeg exp frac = .ok bytes ∧ P.classOf bytes = .normal := by
  obtain ⟨bytes, hb, hbit⟩ := P.pack_spec isNeg exp (by omega) (.inr hs)
  have hbit' : ∀ k, 1 ≤ k → k ≤ P.expWidth →
      bit bytes k = exp.toNat.testBit (P.expWidth - k) := by
    intro k hk1 hk2
    rw [hbit k hk2]
    have : k ≠ 0 := by omega
    simp [this, hk1, hk2, BitVec.getLsbD]
  refine ⟨bytes, hb, ?_⟩
  rw [P.classOf_eq, if_neg, if_pos]
  · obtain ⟨i, hi, hti⟩ := exists_testBit (n := exp.toNat) (w := P.expWidth) (by omega) (by omega)
    refine ⟨P.expWidth - i, by omega, by omega, ?_⟩
    rw [hbit' _ (by omega) (by omega), show P.expWidth - (P.expWidth - i) = i by omega]
    exact hti
  · intro hall
    have hones : exp.toNat = 2 ^ P.expWidth - 1 := by
      apply Nat.eq_of_testBit_eq
      intro i
      rw [Nat.testBit_two_pow_sub_one]
      by_cases hi : i < P.expWidth
      · have := hall (P.expWidth - i) (by omega) (by omega)
        rw [hbit' _ (by omega) (by omega), show P.expWidth - (P.expWidth - i) = i by omega] at this
        rw [this, decide_eq_true hi]
      · rw [decide_eq_false hi]
        apply Nat.testBit_eq_false_of_lt
        calc exp.toNat < 2 ^ P.expWidth := by omega
          _ ≤ 2 ^ i := Nat.pow_le_pow_right (by norm_num) (by omega)
    omega

theorem zero_class (isNeg : Bool) :
    ∃ bytes, P.zero isNeg = .ok bytes ∧ P.classOf bytes = .zero := by
  obtain ⟨bytes, hb, hbit⟩ := P.pack_zero_spec isNeg
  have hw := P.expWidth_ge
  have hno : ∀ k, 1 ≤ k → bit bytes k = false := by
    intro k hk
    rw [hbit, decide_eq_false (by omega), Bool.false_and]
  refine ⟨bytes, hb, ?_⟩
  rw [P.classOf_eq, if_neg, if_neg, if_neg]
  · rintro ⟨k, hk, _, h⟩
    simp [hno k (by omega)] at h
  · rintro ⟨k, hk, _, h⟩
    simp [hno k hk] at h
  · intro h
    have := h 1 le_rfl (by omega)
    simp [hno 1 le_rfl] at this

theorem specialExp_toNat : P.specialExp.toNat = 2 ^ P.expWidth - 1 := by
  have hw := P.expWidth_le
  unfold specialExp
  by_cases h63 : P.expWidth = 63
  · rw [h63]
    decide
  · have hlt : 2 ^ P.expWidth < 2 ^ 63 := Nat.pow_lt_pow_right (by norm_num) (by omega)
    have hpos : 0 < 2 ^ P.expWidth := by positivity
    have hshift : (1#63 <<< P.expWidth).toNat = 2 ^ P.expWidth := by
      rw [BitVec.toNat_shiftLeft, Nat.shiftLeft_eq]
      rw [BitVec.toNat_ofNat, Nat.one_mod_eq_one.mpr (by norm_num), one_mul,
        Nat.mod_eq_of_lt hlt]
    rw [BitVec.toNat_sub, hshift]
    have h1 : (1#63).toNat = 1 := by decide
    rw [h1, show 2 ^ 63 - 1 + 2 ^ P.expWidth = 2 ^ 63 + (2 ^ P.expWidth - 1) by omega,
      Nat.add_mod_left, Nat.mod_eq_of_lt (by omega)]

/-- An exponent with all bits set: the mantissa tells infinities from NaNs. -/
theorem packSpecial_special (isNeg : Bool) (frac : ℕ) (hfrac : frac < 2 ^ (P.significant - 1)) :
    ∃ bytes, P.packSpecial isNeg P.specialExp frac = .ok bytes ∧
      P.classOf bytes = if frac = 0 then .inf else .nan := by
  have hadd := P.expWidth_add
  have hpow : 2 ^ (P.significant - 1) ≤ 2 ^ P.width :=
    Nat.pow_le_pow_right (by norm_num) (by omega)
  have hspec := P.specialExp_toNat
  have hpos : 0 < 2 ^ P.expWidth := by positivity
  obtain ⟨bytes, hb, hbit⟩ := P.packSpecial_spec isNeg P.specialExp (by omega)
    (lt_of_lt_of_le hfrac hpow)
  refine ⟨bytes, hb, ?_⟩
  rw [P.classOf_eq, if_pos]
  · by_cases h0 : frac = 0
    · rw [if_pos h0, if_neg]
      rintro ⟨k, h1, h2, h⟩
      rw [hbit, h0] at h
      have e1 : k ≠ 0 := by omega
      have e2 : ¬ k ≤ P.expWidth := by omega
      simp [e1, e2] at h
    · rw [if_neg h0, if_pos]
      obtain ⟨i, hi, hti⟩ := exists_testBit h0 hfrac
      refine ⟨P.width - 1 - i, by omega, by omega, ?_⟩
      rw [hbit]
      have e1 : P.width - 1 - (P.width - 1 - i) = i := by omega
      have e2 : P.width - 1 - i < P.width := by omega
      simp [e1, e2, hti]
  · intro k h1 h2
    rw [hbit]
    have e1 : P.expWidth - k < P.expWidth := by omega
    have e2 : P.specialExp.getLsbD (P.expWidth - k) = true := by
      unfold BitVec.getLsbD
      rw [hspec, Nat.testBit_two_pow_sub_one, decide_eq_true e1]
    simp [h1, h2, e2]

/-- Without an exponent, a mantissa inside its field makes a subnormal number. -/
theorem packSpecial_subnormal (isNeg : Bool) {frac : ℕ} (h0 : frac ≠ 0)
    (hfrac : frac < 2 ^ (P.significant - 1)) :
    ∃ bytes, P.packSpecial isNeg 0 frac = .ok bytes ∧ P.classOf bytes = .subnormal := by
  have hadd := P.expWidth_add
  have hsig := P.significant_ok
  have hpow : 2 ^ (P.significant - 1) ≤ 2 ^ P.width :=
    Nat.pow_le_pow_right (by norm_num) (by omega)
  obtain ⟨bytes, hb, hbit⟩ := P.packSpecial_spec isNeg 0#63 (by simp)
    (lt_of_lt_of_le hfrac hpow)
  have hexp : ∀ k, 1 ≤ k → k ≤ P.expWidth → bit bytes k = false := by
    intro k h1 h2
    rw [hbit]
    have e1 : k ≠ 0 := by omega
    have e2 : frac.testBit (P.width - 1 - k) = false := by
      apply Nat.testBit_eq_false_of_lt
      exact lt_of_lt_of_le hfrac (Nat.pow_le_pow_right (by norm_num) (by omega))
    simp [e1, e2]
  refine ⟨bytes, hb, ?_⟩
  rw [P.classOf_eq, if_neg, if_neg, if_pos]
  · obtain ⟨i, hi, hti⟩ := exists_testBit h0 hfrac
    refine ⟨P.width - 1 - i, by omega, by omega, ?_⟩
    rw [hbit]
    have e1 : P.width - 1 - (P.width - 1 - i) = i := by omega
    have e2 : P.width - 1 - i < P.width := by omega
    simp [e1, e2, hti]
  · rintro ⟨k, h1, h2, h⟩
    simp [hexp k h1 h2] at h
  · intro h
    have := h 1 le_rfl (by omega)
    simp [hexp 1 le_rfl (by omega)] at this

theorem packSpecial_carry (isNeg : Bool) :
    ∃ bytes, P.packSpecial isNeg 0 ((2 ^ (P.significant - 1) : ℕ) : ℤ) = .ok bytes ∧
      P.classOf bytes = .normal := by
  have hadd := P.expWidth_add
  have hsig := P.significant_ok
  obtain ⟨bytes, hb, hbit⟩ := P.packSpecial_spec isNeg 0#63 (by simp)
    (Nat.pow_lt_pow_right (a := 2) (by norm_num) (show P.significant - 1 < P.width by omega))
  refine ⟨bytes, hb, ?_⟩
  rw [P.classOf_eq, if_neg, if_pos]
  · refine ⟨P.expWidth, by omega, le_rfl, ?_⟩
    rw [hbit]
    have e1 : P.width - 1 - P.expWidth = P.significant - 1 := by omega
    have e2 : P.expWidth < P.width := by omega
    simp [e1, e2]
  · intro h
    have := h 1 le_rfl (by omega)
    rw [hbit] at this
    have e1 : P.significant - 1 ≠ P.width - 1 - 1 := by omega
    simp [e1] at this

end SmlNj.FloatParams
