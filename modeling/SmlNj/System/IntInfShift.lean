import SmlNj.System.IntInfBitwise

/-!
# The shifts of arbitrary-precision integers

A shift by whole digits adds zero digits or drops digits; one by some bits goes through the digits,
from the bottom to the left and from the top to the right.  The sign is kept apart, so that a
negative integer that is shifted to the right is rounded down by adding one to its absolute value,
when a bit that is not zero is shifted out.

## Main definitions

* `lshift`, `rshift` — the left and the right shift.

## Main results

* `rshift_rep` — the right shift is the division by a power of two.
* `lshift_rep` — the left shift is the multiplication by a power of two.
* `shifts_correct` — both of them on normalised representations.
-/

namespace SmlNj.IntInf

open CoreIntInf

def shiftAmount (w : ℕ) : ℕ × ℕ := (w / baseBits, w % baseBits)

def pad : ℕ → List ℕ → List ℕ
  | 0, xs => xs
  | n + 1, xs => pad n (0 :: xs)

/-- Shift digits to the left, with a carry from the digit below. -/
@[grind =] def shiftLeft (bits bits' : ℕ) : List ℕ → ℕ → List ℕ
  | [], 0 => []
  | [], carry => [carry]
  | x :: xs, carry =>
    let digit := wordAndb (wordOrb (word63Lshift x bits) carry) maxDigit
    let carry' := word63Rshiftl x bits'
    digit :: shiftLeft bits bits' xs carry'

/-- The left shift; the sign has no part in it. -/
def lshift (i : Rep) (w : ℕ) : Rep :=
  match i with
  | ⟨_, []⟩ => i
  | ⟨negative, digits⟩ =>
    let (bytes, bits) := shiftAmount w
    let bits' := word63Sub baseBits bits
    ⟨negative, if bits = 0 then pad bytes digits else pad bytes (shiftLeft bits bits' digits 0)⟩

/-- Drop digits, and see whether they are all zero. -/
@[grind =] def drop : ℕ → Bool → List ℕ → Bool × List ℕ
  | 0, allZero, i => (allZero, i)
  | _ + 1, allZero, [] => (allZero, [])
  | n + 1, allZero, 0 :: xs => drop n allZero xs
  | n + 1, _, _ :: xs => drop n false xs

/-- Shift digits to the right; the second result has the bits that are shifted out, at the top of
a digit. -/
def shift (bits bits' : ℕ) : List ℕ → List ℕ × ℕ
  | [] => ([], 0)
  | x :: xs =>
    let (zs, borrow) := shift bits bits' xs
    let z := wordOrb borrow (word63Rshiftl x bits)
    let borrow' := wordAndb (word63Lshift x bits') maxDigit
    (strip z zs, borrow')

/-- The right shift, which rounds towards negative infinity. -/
def rshift (i : Rep) (w : ℕ) : Rep :=
  if w = 0 then i
  else
    match i with
    | ⟨_, []⟩ => i
    | ⟨negative, digits⟩ =>
      let (bytes, bits) := shiftAmount w
      let bits' := word63Sub baseBits bits
      let (allZero, digits) := drop bytes true digits
      let (allZero, digits) :=
        if bits = 0 then (allZero, digits)
        else
          match digits with
          | [] => (allZero, digits)
          | d :: _ =>
            (allZero && wordAndb (word63Sub (word63Lshift 1 bits) 1) d = 0,
              (shift bits bits' digits).1)
      if negative && !allZero then ⟨true, natinc digits⟩
      else
        match digits with
        | [] => ⟨false, []⟩
        | _ => ⟨negative, digits⟩

/-! ### Correctness of the right shift -/

theorem wordOrb_eq_add {a b k : ℕ} (ha : 2 ^ k ∣ a) (hb : b < 2 ^ k) : wordOrb a b = a + b := by
  obtain ⟨m, rfl⟩ := ha
  exact (Nat.two_pow_add_eq_or_of_lt hb m).symm

theorem base_eq_two_pow : base = 2 ^ 62 := by decide

theorem base_split {bits : ℕ} (h : bits ≤ 62) : base = 2 ^ bits * 2 ^ (62 - bits) := by
  rw [base_eq_two_pow, ← pow_add, Nat.add_sub_cancel' h]

theorem drop_digitsOf (n : ℕ) (allZero : Bool) (m : ℕ) :
    drop n allZero (digitsOf m) =
      (allZero && decide (m % base ^ n = 0), digitsOf (m / base ^ n)) := by
  induction n generalizing allZero m with
  | zero => rw [drop, pow_zero, Nat.mod_one, Nat.div_one, decide_eq_true rfl, Bool.and_true]
  | succ n ih =>
    have hmod : m % base ^ (n + 1) = m % base + base * (m / base % base ^ n) := by
      rw [pow_succ', Nat.mod_mul]
    have hdiv : m / base ^ (n + 1) = m / base / base ^ n := by
      rw [pow_succ', Nat.div_div_eq_div_mul]
    have hbase : base ≠ 0 := by decide
    by_cases hm : m = 0
    · subst hm
      rw [digitsOf_zero, drop, Nat.zero_mod, Nat.zero_div, decide_eq_true rfl, Bool.and_true,
        digitsOf_zero]
    · rw [digitsOf_of_ne_zero hm, hmod, hdiv]
      by_cases hd : m % base = 0
      · have hiff : m / base % base ^ n = 0 ↔ 0 + base * (m / base % base ^ n) = 0 := by
          rw [Nat.zero_add, Nat.mul_eq_zero, or_iff_right hbase]
        rw [hd, drop, ih, decide_eq_decide.2 hiff]
      · rw [drop, ih, Bool.false_and]
        · rw [decide_eq_false (by omega), Bool.and_false]
        · exact hd

theorem borrow_eq {bits : ℕ} (h : bits ≤ 62) (m : ℕ) :
    wordAndb (word63Lshift (m % base) (62 - bits)) maxDigit = m % 2 ^ bits * 2 ^ (62 - bits) := by
  have hand : ∀ a, wordAndb a maxDigit = a % base := word63Andb_maxDigit
  have hdvd : base ∣ 2 ^ 63 := by decide
  have hbits : 2 ^ bits ∣ base := Dvd.intro _ (base_split h).symm
  rw [hand, word63Lshift, Nat.mod_mod_of_dvd _ hdvd, ← Nat.mod_mod_of_dvd m hbits]
  nth_rewrite 2 [base_split h]
  exact Nat.mul_mod_mul_right _ _ _

theorem shift_step {d q A B : ℕ} (hA : 0 < A) (hd : d < A * B) :
    d / A < B ∧ q % A * B + d / A < A * B ∧
      q % A * B + d / A + A * B * (q / A) = (d + A * B * q) / A := by
  have hlow : d / A < B := by
    rw [Nat.div_lt_iff_lt_mul hA, Nat.mul_comm]
    exact hd
  refine ⟨hlow, ?_, ?_⟩
  · have hq := Nat.mod_lt q hA
    have hle : (q % A + 1) * B ≤ A * B := Nat.mul_le_mul_right B hq
    rw [Nat.succ_mul] at hle
    omega
  · have hq := Nat.mod_add_div q A
    have hdiv : (d + A * B * q) / A = d / A + B * q := by
      rw [mul_assoc, Nat.add_mul_div_left _ _ hA]
    rw [hdiv]
    nth_rewrite 3 [← hq]
    ring

theorem shift_digitsOf {bits : ℕ} (h : bits ≤ 62) (m : ℕ) :
    shift bits (62 - bits) (digitsOf m) =
      (digitsOf (m / 2 ^ bits), m % 2 ^ bits * 2 ^ (62 - bits)) := by
  have hpow : 0 < 2 ^ bits := Nat.two_pow_pos bits
  induction m using digits_induction with
  | zero => rw [digitsOf_zero, shift, Nat.zero_div, digitsOf_zero, Nat.zero_mod, Nat.zero_mul]
  | step m hm ih =>
    have hsplit := base_split h
    have hd : m % base < 2 ^ bits * 2 ^ (62 - bits) := hsplit ▸ mod_base_lt m
    obtain ⟨hlow, hdigit, hquot⟩ := shift_step (q := m / base) hpow hd
    rw [← hsplit] at hdigit hquot
    rw [Nat.mod_add_div] at hquot
    rw [digitsOf_of_ne_zero hm, shift, ih]
    have hor : wordOrb (m / base % 2 ^ bits * 2 ^ (62 - bits)) (word63Rshiftl (m % base) bits) =
        m / base % 2 ^ bits * 2 ^ (62 - bits) + m % base / 2 ^ bits :=
      wordOrb_eq_add (Dvd.intro_left _ rfl) hlow
    refine Prod.ext ?_ (borrow_eq h m)
    change strip _ _ = _
    rw [hor, strip_digitsOf _ hdigit, hquot]

theorem low_bits_eq {bits : ℕ} (h : bits < 62) (m : ℕ) :
    wordAndb (word63Sub (word63Lshift 1 bits) 1) (m % base) = m % 2 ^ bits := by
  have hlt : 2 ^ bits < 2 ^ 63 := Nat.pow_lt_pow_right (by decide) (by omega)
  have hpos : 0 < 2 ^ bits := Nat.two_pow_pos bits
  have hmask : word63Sub (word63Lshift 1 bits) 1 = 2 ^ bits - 1 := by
    rw [word63Lshift, Nat.one_mul, Nat.mod_eq_of_lt hlt, word63Sub]
    omega
  have hbits : 2 ^ bits ∣ base := Dvd.intro _ (base_split h.le).symm
  rw [hmask, wordAndb, Nat.and_comm, Nat.and_two_pow_sub_one_eq_mod, Nat.mod_mod_of_dvd m hbits]

theorem neg_ediv (n p : ℕ) (hp : 0 < p) :
    -(n : ℤ) / (p : ℤ) = if n % p = 0 then -((n / p : ℕ) : ℤ) else -((n / p : ℕ) + 1 : ℤ) := by
  have hdiv := Nat.mod_add_div n p
  have hlt := Nat.mod_lt n hp
  have hp' : (0 : ℤ) < p := by exact_mod_cast hp
  split
  · next h =>
    rw [Int.ediv_eq_iff_of_pos hp']
    zify at hdiv h ⊢
    constructor <;> nlinarith
  · next h =>
    have hge : 1 ≤ n % p := Nat.one_le_iff_ne_zero.2 h
    rw [Int.ediv_eq_iff_of_pos hp']
    zify at hdiv hge hlt ⊢
    constructor <;> nlinarith

theorem two_pow_eq_base_pow (w : ℕ) : 2 ^ w = base ^ (w / 62) * 2 ^ (w % 62) := by
  rw [base_eq_two_pow, ← pow_mul, ← pow_add, Nat.div_add_mod]

theorem shift_bits {bits : ℕ} (h : bits < 62) (allZero : Bool) (m : ℕ) :
    (if bits = 0 then (allZero, digitsOf m)
      else
        match digitsOf m with
        | [] => (allZero, digitsOf m)
        | d :: _ =>
          (allZero && wordAndb (word63Sub (word63Lshift 1 bits) 1) d = 0,
            (shift bits (62 - bits) (digitsOf m)).1)) =
      (allZero && decide (m % 2 ^ bits = 0), digitsOf (m / 2 ^ bits)) := by
  split_ifs with hzero
  · subst hzero
    rw [pow_zero, Nat.mod_one, Nat.div_one, decide_eq_true rfl, Bool.and_true]
  · by_cases hm : m = 0
    · subst hm
      rw [digitsOf_zero, Nat.zero_mod, Nat.zero_div, digitsOf_zero, decide_eq_true rfl,
        Bool.and_true]
    · rw [digitsOf_of_ne_zero hm]
      dsimp only
      rw [← digitsOf_of_ne_zero hm, shift_digitsOf h.le, low_bits_eq h]

theorem two_pow_parts (n w : ℕ) :
    (decide (n % base ^ (w / 62) = 0) && decide (n / base ^ (w / 62) % 2 ^ (w % 62) = 0)) =
        decide (n % 2 ^ w = 0) ∧
      n / base ^ (w / 62) / 2 ^ (w % 62) = n / 2 ^ w := by
  have hbase : 0 < base ^ (w / 62) := Nat.pow_pos (by decide)
  rw [two_pow_eq_base_pow w, Nat.div_div_eq_div_mul, Nat.mod_mul, ← Bool.decide_and]
  refine ⟨decide_eq_decide.2 ?_, rfl⟩
  rw [Nat.add_eq_zero_iff, Nat.mul_eq_zero, or_iff_right hbase.ne']

theorem match_eq_bi (negative : Bool) (digits : List ℕ) :
    (match digits with
      | [] => ⟨false, []⟩
      | _ => ⟨negative, digits⟩ : Rep) = bi ⟨negative, digits⟩ := by
  cases digits <;> rfl

/-- **The right shift is the division by a power of two.** -/
theorem rshift_rep (z : ℤ) (w : ℕ) : rshift (rep z) w = rep (z / 2 ^ w) := by
  unfold rshift
  split_ifs with hw
  · rw [hw, pow_zero, Int.ediv_one]
  rcases eq_or_ne z 0 with rfl | hz
  · rw [Int.zero_ediv]
    rfl
  obtain ⟨s, n, hn, rfl⟩ := exists_signed hz
  have hbits : w % 62 < 62 := Nat.mod_lt w (by decide)
  have hsub : word63Sub 62 (w % 62) = 62 - w % 62 := by
    rw [word63Sub]
    omega
  obtain ⟨hzero, hquot⟩ := two_pow_parts n w
  rw [rep_signed s hn]
  split
  · next heq => exact absurd (digitsOf_eq_nil.1 (Rep.mk.inj heq).2) hn
  next negative digits _ heq =>
  obtain ⟨rfl, rfl⟩ := Rep.mk.inj heq
  simp only [shiftAmount, baseBits_eq, hsub, drop_digitsOf, Bool.true_and, shift_bits hbits, hzero,
    hquot]
  have hpow : ((2 : ℤ) ^ w) = ((2 ^ w : ℕ) : ℤ) := by push_cast; rfl
  have hpos : 0 < 2 ^ w := Nat.two_pow_pos w
  cases s with
  | false =>
    rw [Bool.false_and, if_neg Bool.false_ne_true]
    rw [match_eq_bi, bi_digitsOf, signed, if_neg Bool.false_ne_true,
      if_neg Bool.false_ne_true, hpow, Int.natCast_ediv]
  | true =>
    rw [Bool.true_and, signed, if_pos rfl, hpow, neg_ediv n _ hpos]
    by_cases hmod : n % 2 ^ w = 0
    · rw [if_pos hmod, decide_eq_true hmod, if_neg (by decide)]
      rw [match_eq_bi]
      exact bi_digitsOf true (n / 2 ^ w)
    · -- the quotient is rounded down
      rw [if_neg hmod, decide_eq_false hmod, if_pos (by decide), natinc_digitsOf]
      exact (rep_negSucc (n / 2 ^ w)).symm

/-! ### Correctness of the left shift -/

theorem pad_digitsOf (n : ℕ) {m : ℕ} (hm : m ≠ 0) :
    pad n (digitsOf m) = digitsOf (base ^ n * m) := by
  induction n generalizing m with
  | zero => rw [pad, pow_zero, Nat.one_mul]
  | succ n ih =>
    have hbase : 0 < base := by decide
    have hcons := cons_digitsOf hbase (Or.inr hm)
    rw [Nat.zero_add] at hcons
    rw [pad, hcons, ih (Nat.mul_ne_zero hbase.ne' hm), pow_succ, mul_assoc]

/-- The digit and the carry of a step to the left: `A` and `B` stand for the powers of two of the
two parts of a digit. -/
theorem shiftLeft_step {d c A B : ℕ} (hB : 0 < B) (hc : c < A) :
    d % B * A + c < A * B ∧ d % B * A + c + A * B * (d / B) = d * A + c := by
  have hlt := Nat.mod_lt d hB
  have hdiv := Nat.mod_add_div d B
  constructor
  · have hle : (d % B + 1) * A ≤ B * A := Nat.mul_le_mul_right A hlt
    rw [Nat.succ_mul, Nat.mul_comm B A] at hle
    omega
  · nth_rewrite 3 [← hdiv]
    ring

theorem shiftLeft_digit {bits : ℕ} (h : bits ≤ 62) {d c : ℕ} (hc : c < 2 ^ bits) :
    wordAndb (wordOrb (word63Lshift d bits) c) maxDigit =
      d % 2 ^ (62 - bits) * 2 ^ bits + c := by
  have hand : ∀ a, wordAndb a maxDigit = a % base := word63Andb_maxDigit
  have hdvd : 2 ^ bits ∣ word63Lshift d bits :=
    (Nat.dvd_mod_iff (pow_dvd_pow 2 (by omega))).2 (Dvd.intro_left d rfl)
  have hbase : base ∣ 2 ^ 63 := by decide
  obtain ⟨hlt, -⟩ := shiftLeft_step (d := d) (Nat.two_pow_pos (62 - bits)) hc
  rw [← base_split h] at hlt
  have hlow : d * 2 ^ bits % base = d % 2 ^ (62 - bits) * 2 ^ bits := by
    rw [base_split h, Nat.mul_comm (2 ^ bits), Nat.mul_mod_mul_right]
  rw [hand, wordOrb_eq_add hdvd hc, word63Lshift, Nat.add_mod, Nat.mod_mod_of_dvd _ hbase,
    ← Nat.add_mod, ← Nat.mod_add_mod, hlow, Nat.mod_eq_of_lt hlt]

theorem shiftLeft_digitsOf {bits : ℕ} (h : bits ≤ 62) (m : ℕ) {c : ℕ} (hc : c < 2 ^ bits) :
    shiftLeft bits (62 - bits) (digitsOf m) c = digitsOf (m * 2 ^ bits + c) := by
  have hle : 2 ^ bits ≤ base := by
    rw [base_eq_two_pow]
    exact Nat.pow_le_pow_right (by decide) h
  induction m using digits_induction generalizing c with
  | zero =>
    rw [digitsOf_zero, Nat.zero_mul, Nat.zero_add]
    cases c with
    | zero => rfl
    | succ c => exact (digitsOf_of_lt (Nat.succ_ne_zero c) (by omega)).symm
  | step m hm ih =>
    have hB := Nat.two_pow_pos (62 - bits)
    obtain ⟨hlt, hsplit⟩ := shiftLeft_step (d := m % base) hB hc
    rw [← base_split h] at hlt hsplit
    have hcarry : m % base / 2 ^ (62 - bits) < 2 ^ bits := by
      rw [Nat.div_lt_iff_lt_mul hB, ← base_split h]
      exact mod_base_lt m
    rw [digitsOf_of_ne_zero hm, shiftLeft, shiftLeft_digit h hc]
    rw [word63Rshiftl, ih hcarry]
    have hvalue : m % base % 2 ^ (62 - bits) * 2 ^ bits + c +
        base * (m / base * 2 ^ bits + m % base / 2 ^ (62 - bits)) = m * 2 ^ bits + c := by
      calc _ = m % base % 2 ^ (62 - bits) * 2 ^ bits + c +
            base * (m % base / 2 ^ (62 - bits)) + base * (m / base) * 2 ^ bits := by ring
        _ = (m % base + base * (m / base)) * 2 ^ bits + c := by
          rw [hsplit]
          ring
        _ = m * 2 ^ bits + c := by rw [Nat.mod_add_div]
    rw [← hvalue, cons_digitsOf hlt]
    by_contra! hzero
    have hpos := Nat.mul_pos (Nat.pos_of_ne_zero hm) (Nat.two_pow_pos bits)
    rw [hzero.1, hzero.2] at hvalue
    omega

/-- **The left shift is the multiplication by a power of two.** -/
theorem lshift_rep (z : ℤ) (w : ℕ) : lshift (rep z) w = rep (z * 2 ^ w) := by
  rcases eq_or_ne z 0 with rfl | hz
  · rw [Int.zero_mul]
    rfl
  obtain ⟨s, n, hn, rfl⟩ := exists_signed hz
  have hsub : word63Sub 62 (w % 62) = 62 - w % 62 := by
    rw [word63Sub]
    omega
  have hbits : w % 62 ≤ 62 := (Nat.mod_lt w (by decide)).le
  have hpow : n * 2 ^ (w % 62) ≠ 0 := Nat.mul_ne_zero hn (Nat.two_pow_pos _).ne'
  have hnat : base ^ (w / 62) * (n * 2 ^ (w % 62)) = n * 2 ^ w := by
    rw [two_pow_eq_base_pow w]
    ring
  have hshift : shiftLeft (w % 62) (62 - w % 62) (digitsOf n) 0 = digitsOf (n * 2 ^ (w % 62)) :=
    shiftLeft_digitsOf hbits n (Nat.two_pow_pos _)
  have hvalue : signed s n * 2 ^ w = signed s (n * 2 ^ w) := by
    rw [signed, signed]
    split <;> push_cast <;> ring
  have hdigits : (if w % 62 = 0 then pad (w / 62) (digitsOf n)
      else pad (w / 62) (shiftLeft (w % 62) (62 - w % 62) (digitsOf n) 0)) =
        digitsOf (n * 2 ^ w) := by
    split_ifs with hzero
    · rw [pad_digitsOf _ hn, ← hnat, hzero, pow_zero, Nat.mul_one]
    · rw [hshift, pad_digitsOf _ hpow, hnat]
  rw [hvalue, rep_signed s hn, rep_signed s (Nat.mul_ne_zero hn (Nat.two_pow_pos w).ne')]
  unfold lshift
  split
  · next heq => exact absurd (digitsOf_eq_nil.1 (Rep.mk.inj heq).2) hn
  next negative digits _ heq =>
  obtain ⟨rfl, rfl⟩ := Rep.mk.inj heq
  simp [shiftAmount, baseBits_eq, hsub, hdigits]

/-- **The shifts multiply and divide by a power of two**, and their results are normalised; the
quotient is rounded towards negative infinity. -/
theorem shifts_correct {i : Rep} (hi : Normalised i) (w : ℕ) :
    Represents (lshift i w) (value i * 2 ^ w) ∧
      Represents (rshift i w) ⌊(value i : ℚ) / 2 ^ w⌋ := by
  obtain ⟨z, rfl⟩ : ∃ z, i = rep z := ⟨_, normalised_iff.1 hi⟩
  have hfloor : ⌊(z : ℚ) / 2 ^ w⌋ = z / 2 ^ w := by
    have hcast := Rat.floor_intCast_div_natCast z (2 ^ w)
    push_cast at hcast
    exact hcast
  rw [value_rep, lshift_rep, rshift_rep, hfloor]
  exact ⟨represents_rep _, represents_rep _⟩

/-- Minus one, shifted by more than a digit. -/
theorem shifts_correct_neg_one :
    Normalised ⟨true, [1]⟩ ∧ Represents (lshift ⟨true, [1]⟩ 65) (-1 * 2 ^ 65) ∧
      Represents (rshift ⟨true, [1]⟩ 65) ⌊((-1 : ℤ) : ℚ) / 2 ^ 65⌋ := by
  have hi : Normalised ⟨true, [1]⟩ := ⟨by decide, by decide, by decide⟩
  exact ⟨hi, shifts_correct hi 65⟩

end SmlNj.IntInf
