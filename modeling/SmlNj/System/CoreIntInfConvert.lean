import SmlNj.System.CoreIntInfCorrect

/-!
# Conversions between arbitrary-precision integers and 64-bit words

A digit has 62 bits, so a 64-bit quantity takes up to two digits, of which the second has at most
two bits.  The signed conversions have the least 64-bit integer as a case of its own, since it has
no negation there.

## Main definitions

* `testInf64`, `truncInf64` — to 64-bit integers, with an exception for those that are too large,
  and to words, without their high bits.
* `extend64Inf`, `copy64Inf` — from 64-bit integers and from words.

## Main results

* `inf64_conversions_correct` — the conversions keep the value, or its remainder.
-/

namespace SmlNj.CoreIntInf

open ExceptList

def word64Orb (a b : ℕ) : ℕ := a ||| b

def word64Neg (a : ℕ) : ℕ := word64Sub 0 a

/-- The 64-bit integer of a word of 63 bits, which is filled up with zeros. -/
def wToI64 (a : ℕ) : ℤ := a

def w64ToI64 (a : ℕ) : ℤ := if a < 2 ^ 63 then a else a - 2 ^ 64

def i64ToW (j : ℤ) : ℕ := (j % 2 ^ 63).toNat

/-- The negation of a 64-bit integer, which the least one does not have. -/
def int64Neg (j : ℤ) : Except Exn ℤ := if j = -2 ^ 63 then .error .overflow else .ok (-j)

def base64 : ℕ := wToW64 base

/-- Fit an integer into 64 bits. -/
def testInf64 (i : Rep) : Except Exn ℤ :=
  let negif i64 := if i.negative then int64Neg i64 else .ok i64
  match i.digits with
  | [] => .ok 0
  | [d] => negif (wToI64 d)
  | [d0, 1] => negif (w64ToI64 (word64Orb (wToW64 d0) base64))
  | [0, 2] => if i.negative then .ok (-0x8000000000000000) else .error .overflow
  | _ => .error .overflow

/-- Keep the low 64 bits of an integer. -/
def truncInf64 (i : Rep) : ℕ :=
  let b :=
    match i.digits with
    | [] => 0
    | [d] => wToW64 d
    | d0 :: d1 :: _ => word64Orb (wToW64 d0) (word64Lshift (wToW64 d1) baseBits)
  if i.negative then word64Neg b else b

/-- The representation of a 64-bit integer. -/
def extend64Inf (i64 : ℤ) : Except Exn Rep :=
  if i64 = 0 then .ok ⟨false, []⟩
  else if i64 > 0 then .ok (e false (i64ToW i64))
  else if i64 = -0x8000000000000000 then .ok ⟨true, [0, 2]⟩
  else do return e true (i64ToW (← int64Neg i64))
where
  /-- A sign and a word of 63 bits, as one or two digits. -/
  e (negative : Bool) (w63 : ℕ) : Rep :=
    ⟨negative, if w63 ≥ base then [word63Sub w63 base, 1] else [w63]⟩

/-- The representation of a 64-bit word. -/
def copy64Inf (w64 : ℕ) : Rep :=
  let digits :=
    if w64 = 0 then []
    else if w64 ≥ base64 then
      [w64ToW (word64Andb w64 maxDigit64), w64ToW (word64Rshiftl w64 baseBits)]
    else [w64ToW w64]
  ⟨false, digits⟩

/-! ### To 64 bits -/

theorem word64Orb_digit {d : ℕ} (hd : d < base) (k : ℕ) :
    word64Orb d (k * 2 ^ 62) = d + k * 2 ^ 62 := by
  have hbase : base = 2 ^ 62 := by decide
  rw [word64Orb, Nat.or_comm, Nat.mul_comm, ← Nat.two_pow_add_eq_or_of_lt (hbase ▸ hd),
    Nat.add_comm]

theorem testInf64_default {s : Bool} {d : ℕ} {ds : List ℕ} (h0 : ds ≠ []) (h1 : ds ≠ [1])
    (h2 : d = 0 → ds = [2] → s = false) : testInf64 ⟨s, d :: ds⟩ = .error .overflow := by
  match d, ds with
  | _, [] => exact absurd rfl h0
  | _, [0] => rfl
  | _, [1] => exact absurd rfl h1
  | 0, [2] =>
    obtain rfl := h2 rfl rfl
    rfl
  | _ + 1, [2] => rfl
  | _, [_ + 3] => rfl
  | _, _ :: _ :: _ => simp [testInf64]

/-- A 64-bit integer is returned as it is, and any other raises `Overflow`. -/
theorem testInf64_rep (z : ℤ) :
    testInf64 (rep z) = if -2 ^ 63 ≤ z ∧ z < 2 ^ 63 then .ok z else .error .overflow := by
  rcases eq_or_ne z 0 with rfl | hz
  · rfl
  obtain ⟨s, n, hn, rfl⟩ := exists_signed hz
  rw [rep_signed s hn]
  by_cases hlt : n < base
  · rw [digitsOf_of_lt hn hlt]
    rw [base_eq] at hlt
    cases s with
    | false => exact (if_pos (by rw [signed, if_neg Bool.false_ne_true]; omega)).symm
    | true =>
      rw [if_pos (by rw [signed, if_pos rfl]; omega)]
      have hneg : int64Neg (wToI64 n) = .ok (-wToI64 n) := if_neg (by rw [wToI64]; omega)
      exact hneg
  have hq : n / base ≠ 0 := by
    rw [base_eq] at hlt ⊢
    omega
  have hd := mod_base_lt n
  have hn' := Nat.mod_add_div n base
  rw [digitsOf_of_ne_zero hn]
  generalize n % base = d, n / base = q at *
  by_cases h1 : q = 1
  · -- the second digit is one
    subst h1
    have hor : word64Orb (wToW64 d) base64 = d + 1 * 2 ^ 62 := word64Orb_digit hd 1
    rw [base_eq] at hd hn'
    have hread : w64ToI64 (word64Orb (wToW64 d) base64) = n := by
      rw [hor, w64ToI64, if_pos (by omega)]
      omega
    rw [digitsOf_one]
    cases s with
    | false =>
      rw [if_pos (by rw [signed, if_neg Bool.false_ne_true]; omega)]
      exact congrArg Except.ok hread
    | true =>
      rw [if_pos (by rw [signed, if_pos rfl]; omega)]
      change int64Neg _ = _
      rw [hread]
      exact if_neg (by omega)
  by_cases h2 : s = true ∧ n = 2 ^ 63
  · -- the least integer
    obtain ⟨rfl, rfl⟩ := h2
    obtain ⟨rfl, rfl⟩ : d = 0 ∧ q = 2 := by
      rw [base_eq] at hd hn'
      omega
    rw [digitsOf_of_lt two_ne_zero (by decide)]
    rfl
  · have hdefault : testInf64 ⟨s, d :: digitsOf q⟩ = .error .overflow := by
      refine testInf64_default (fun h => hq (digitsOf_eq_nil.1 h))
        (fun h => h1 ((digitsOf_eq_singleton (by decide) (by decide)).1 h)) ?_
      rintro rfl h
      obtain rfl := (digitsOf_eq_singleton (by decide) (by decide)).1 h
      rw [base_eq] at hn'
      exact Bool.eq_false_iff.2 fun hs => h2 ⟨hs, by omega⟩
    rw [hdefault, if_neg]
    rw [base_eq] at hd hn'
    rw [signed]
    split_ifs with hs
    · have : n ≠ 2 ^ 63 := fun h => h2 ⟨hs, h⟩
      omega
    · omega

theorem low_digits (n : ℕ) :
    (match digitsOf n with
      | [] => 0
      | [d] => wToW64 d
      | d0 :: d1 :: _ => word64Orb (wToW64 d0) (word64Lshift (wToW64 d1) baseBits)) =
      n % 2 ^ 64 := by
  by_cases h0 : n = 0
  · subst h0
    rw [digitsOf_zero]
    rfl
  by_cases hlt : n < base
  · rw [digitsOf_of_lt h0 hlt]
    rw [base_eq] at hlt
    change n = n % 2 ^ 64
    omega
  have hq : n / base ≠ 0 := by
    rw [base_eq] at hlt ⊢
    omega
  have hd := mod_base_lt n
  have hshift : word64Lshift (wToW64 (n / base % base)) baseBits = n / base % 4 * 2 ^ 62 := by
    rw [word64Lshift, wToW64, baseBits_eq, base_eq]
    omega
  rw [digitsOf_of_ne_zero h0, digitsOf_of_ne_zero hq]
  change word64Orb (n % base) _ = _
  rw [hshift, word64Orb_digit hd, base_eq]
  omega

/-- **The low 64 bits** are the remainder of the integer, also when it is negative. -/
theorem truncInf64_rep (z : ℤ) : (truncInf64 (rep z) : ℤ) = z % 2 ^ 64 := by
  rw [truncInf64, rep, low_digits]
  simp only [decide_eq_true_eq]
  split_ifs with hz
  · rw [word64Neg, word64Sub]
    omega
  · omega

/-! ### From 64 bits -/

theorem digits_word63 {n : ℕ} (hn : n ≠ 0) (h : n < 2 ^ 63) :
    (if n ≥ base then [word63Sub n base, 1] else [n]) = digitsOf n := by
  split_ifs with hge
  · rw [base_eq] at hge
    have hsub : word63Sub n base = n - 4611686018427387904 := by
      rw [word63Sub, base_eq]
      omega
    rw [hsub, ← digitsOf_one]
    exact cons_digitsOf_eq hn (by omega) (by omega)
  · exact (digitsOf_of_lt hn (Nat.lt_of_not_ge hge)).symm

/-- **The signed conversion** keeps the value of a 64-bit integer. -/
theorem extend64Inf_eq {j : ℤ} (h1 : -2 ^ 63 ≤ j) (h2 : j < 2 ^ 63) :
    extend64Inf j = .ok (rep j) := by
  unfold extend64Inf
  by_cases hzero : j = 0
  · rw [if_pos hzero, hzero]
    rfl
  rw [if_neg hzero]
  by_cases hpos : j > 0
  · have hnat : i64ToW j = j.natAbs := by
      rw [i64ToW]
      omega
    have hdigits := digits_word63 (n := j.natAbs) (by omega) (by omega)
    rw [if_pos hpos, hnat, extend64Inf.e, hdigits, rep, decide_eq_false (by omega)]
  rw [if_neg hpos]
  by_cases hmin : j = -0x8000000000000000
  · have hdigits : digitsOf (2 ^ 63) = [0, 2] := by
      rw [← digitsOf_of_lt two_ne_zero (by decide)]
      exact (cons_digitsOf_eq (by decide) (by decide) (by decide)).symm
    rw [if_pos hmin, hmin]
    exact congrArg (fun ds => Except.ok (⟨true, ds⟩ : Rep)) hdigits.symm
  · have hneg : int64Neg j = .ok (-j) := if_neg hmin
    have hnat : i64ToW (-j) = j.natAbs := by
      rw [i64ToW]
      omega
    have hdigits := digits_word63 (n := j.natAbs) (by omega) (by omega)
    rw [if_neg hmin, hneg, ok_bind, hnat, extend64Inf.e, hdigits, rep, decide_eq_true (by omega)]
    rfl

/-- **The unsigned conversion** keeps the value of a 64-bit word. -/
theorem copy64Inf_eq {n : ℕ} (h : n < 2 ^ 64) : copy64Inf n = rep n := by
  have hbase64 : base64 = base := rfl
  rw [copy64Inf, ← Int.ofNat_eq_natCast, rep_ofNat, hbase64]
  split_ifs with hzero hge
  · rw [hzero, digitsOf_zero]
  · have hlow : w64ToW (word64Andb n maxDigit64) = n % base := by
      rw [word64Andb_maxDigit64, w64ToW, base_eq]
      omega
    have hhigh : w64ToW (word64Rshiftl n baseBits) = n / base := by
      rw [word64Rshiftl, baseBits_eq, w64ToW, base_eq]
      omega
    rw [hlow, hhigh, digitsOf_of_ne_zero hzero]
    rw [base_eq] at hge ⊢
    rw [digitsOf_of_lt (by omega) (by rw [base_eq]; omega)]
  · have hlow : w64ToW n = n := by
      rw [base_eq] at hge
      rw [w64ToW]
      omega
    rw [hlow, digitsOf_of_lt hzero (Nat.lt_of_not_ge hge)]

/-- **The conversions are correct**, on every normalised representation and every 64-bit word, and
their results are normalised. -/
theorem inf64_conversions_correct {i : Rep} (hi : Normalised i) (w : BitVec 64) :
    testInf64 i =
        (if -2 ^ 63 ≤ value i ∧ value i < 2 ^ 63 then .ok (value i) else .error .overflow) ∧
      (truncInf64 i : ℤ) = value i % 2 ^ 64 ∧
      Returns (extend64Inf w.toInt) w.toInt ∧
      Represents (copy64Inf w.toNat) w.toNat := by
  obtain ⟨z, rfl⟩ : ∃ z, i = rep z := ⟨_, normalised_iff.1 hi⟩
  have hmin : -2 ^ 63 ≤ w.toInt := w.le_toInt
  have hmax : w.toInt < 2 ^ 63 := w.toInt_lt
  rw [value_rep, copy64Inf_eq w.isLt]
  exact ⟨testInf64_rep z, truncInf64_rep z, returns_rep (extend64Inf_eq hmin hmax),
    represents_rep _⟩

/-- The least 64-bit integer, and the word with only the top bit. -/
theorem inf64_conversions_correct_min :
    Normalised ⟨true, [0, 2]⟩ ∧ testInf64 ⟨true, [0, 2]⟩ = .ok (-2 ^ 63) ∧
      Returns (extend64Inf (-2 ^ 63)) (-2 ^ 63) := by
  have hi : Normalised ⟨true, [0, 2]⟩ := ⟨by decide, by decide, by decide⟩
  have hall := inf64_conversions_correct hi (BitVec.intMin 64)
  exact ⟨hi, hall.1, hall.2.2.1⟩

end SmlNj.CoreIntInf
