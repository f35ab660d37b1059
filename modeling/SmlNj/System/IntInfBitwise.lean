import SmlNj.Lib.IntBitwise
import SmlNj.System.CoreIntInfCorrect

/-!
# The bitwise operations on arbitrary-precision integers

The operations on arbitrary-precision integers that the pervasive environment does not need.  The
bitwise operations treat an integer as an infinite sequence of bits in two's complement: the digits
of the operands are converted one after the other, with a borrow, and so are those of the result.

The loop computes the digits of the result, up to the length of the longer operand.  All digits of
a negative result can be zero there: then the result is minus a power of the base, which has one
more digit, and the loop has lost it.

## Main definitions

* `binary` — a bitwise operation, from the operation on words and on signs.
* `andb`, `orb`, `xorb`, `notb` — the bitwise operations.
* `twosValue` — what the remaining digits of an operand stand for, with a borrow.
* `AndLost`, `XorLost` — the operands for which the digit is lost.
* `BitwiseCorrect` — what the operations have to return.

## Main results

* `loop_eq` — the digits that the loop computes.
* `binary_represents_iff` — when the result of a bitwise operation is right.
* `bitwise_correct_iff` — when those of the operations are right.
-/

namespace SmlNj.IntInf

open CoreIntInf

def wordAndb (a b : ℕ) : ℕ := a &&& b

def wordOrb (a b : ℕ) : ℕ := a ||| b

def wordXorb (a b : ℕ) : ℕ := a ^^^ b

/-! ### Bitwise operations -/

/-- Convert a digit to or from two's complement, with a borrow; nothing is done to the digits of
an integer that is not negative. -/
def twos : Bool → ℕ → ℕ → ℕ × ℕ
  | false, x, _ => (x, 0)
  | true, 0, 0 => (0, 0)
  | true, x, borrow => (word63Sub (word63Sub base x) borrow, 1)

def strip : ℕ → List ℕ → List ℕ
  | 0, [] => []
  | z, zs => z :: zs

/-- The digit of the result for two digits; `rest` gives the other digits from the borrows. -/
def loop1 (f : ℕ → ℕ → ℕ) (sx sy sign : Bool) (rest : ℕ → ℕ → ℕ → List ℕ)
    (x y bx by' bz : ℕ) : List ℕ :=
  let (x, bx) := twos sx x bx
  let (y, by') := twos sy y by'
  let z := f x y
  let (z, bz) := twos sign z bz
  strip z (rest bx by' bz)

/-- The digits of the result; the shorter operand is continued with zeros. -/
def loop (f : ℕ → ℕ → ℕ) (sx sy sign : Bool) : List ℕ → List ℕ → ℕ → ℕ → ℕ → List ℕ
  | [], [], _, _, _ => []
  | [], y :: ys, bx, by', bz => loop1 f sx sy sign (loop f sx sy sign [] ys) 0 y bx by' bz
  | x :: xs, [], bx, by', bz => loop1 f sx sy sign (loop f sx sy sign xs []) x 0 bx by' bz
  | x :: xs, y :: ys, bx, by', bz => loop1 f sx sy sign (loop f sx sy sign xs ys) x y bx by' bz
termination_by xs ys => xs.length + ys.length
decreasing_by all_goals simp only [List.length_cons, List.length_nil]; omega

/-- A bitwise operation. -/
def binary (f : ℕ → ℕ → ℕ) (genSign : Bool → Bool → Bool) (x y : Rep) : Rep :=
  let sign := genSign x.negative y.negative
  match loop f x.negative y.negative sign x.digits y.digits 0 0 0 with
  | [] => ⟨false, []⟩
  | digits => ⟨sign, digits⟩

def orb (x y : Rep) : Rep := binary wordOrb (fun x y => x || y) x y

def andb (x y : Rep) : Rep := binary wordAndb (fun x y => x && y) x y

def xorb (x y : Rep) : Rep := binary wordXorb (fun x y => x != y) x y

def notb (x : Rep) : Except CoreIntInf.Exn Rep := do return neg (← add x ⟨false, [1]⟩)

/-! ## When the bitwise operations are right -/

open CoreIntInf IntBitwise

variable {h : Bool → Bool → Bool}

theorem bitwise_sign (hf : h false false = false) {x y : ℤ} {k : ℕ} (hx : -2 ^ k ≤ x)
    (hx' : x < 2 ^ k) (hy : -2 ^ k ≤ y) (hy' : y < 2 ^ k) :
    Int.bitwise h x y / 2 ^ k = if h (decide (x < 0)) (decide (y < 0)) then -1 else 0 := by
  have hdiv : ∀ z : ℤ, -2 ^ k ≤ z → z < 2 ^ k → z / 2 ^ k = if decide (z < 0) then -1 else 0 := by
    intro z hz hz'
    by_cases hneg : z < 0
    · rw [if_pos (decide_eq_true hneg), Int.ediv_eq_iff_of_pos (by positivity)]
      omega
    · rw [if_neg (by simpa using hneg)]
      exact Int.ediv_eq_zero_of_lt (by omega) hz'
  rw [(bitwise_emod_ediv hf x y k).2, hdiv x hx hx', hdiv y hy hy', bitwise_signs]

/-! ### The loop -/

/-- What the remaining digits of an operand stand for, with a borrow. -/
def twosValue (neg : Bool) (v : ℤ) (borrow : ℕ) : ℤ := if neg then -v - borrow else v

/-- A borrow is zero or one, and zero for an operand that is not negative. -/
def IsBorrow (neg : Bool) (borrow : ℕ) : Prop := borrow ≤ 1 ∧ (neg = false → borrow = 0)

/-- **A digit is converted**: it is the lowest digit of the integer that the digits stand for, and
the others, with the new borrow, stand for the rest. -/
theorem twos_spec {neg : Bool} {d borrow : ℕ} (hd : d < base) (hb : IsBorrow neg borrow) (q : ℤ) :
    ((twos neg d borrow).1 : ℤ) = twosValue neg (d + base * q) borrow % base ∧
      twosValue neg q (twos neg d borrow).2 = twosValue neg (d + base * q) borrow / base ∧
      IsBorrow neg (twos neg d borrow).2 := by
  obtain ⟨hle, hz⟩ := hb
  rw [base_eq] at *
  cases neg with
  | false =>
    simp only [twos, twosValue, Bool.false_eq_true, if_false]
    exact ⟨by omega, by omega, by decide, fun _ => rfl⟩
  | true =>
    by_cases h0 : d = 0 ∧ borrow = 0
    · obtain ⟨rfl, rfl⟩ := h0
      simp only [twos, twosValue, if_true]
      exact ⟨by omega, by omega, by decide, fun _ => rfl⟩
    · have htwos : twos true d borrow = (word63Sub (word63Sub base d) borrow, 1) := by
        unfold twos
        split <;> simp_all
      have hword : word63Sub (word63Sub base d) borrow = 4611686018427387904 - d - borrow := by
        rw [word63Sub, word63Sub, base_eq]
        omega
      rw [htwos]
      simp only [twosValue, if_true]
      exact ⟨by omega, by omega, by decide, fun h => Bool.noConfusion h⟩

theorem strip_digitsOf {d : ℕ} (q : ℕ) (hd : d < base) :
    strip d (digitsOf q) = digitsOf (d + base * q) := by
  rw [← consd_digitsOf q hd]
  rfl

theorem base_eq_pow : base = 2 ^ 62 := by decide

/-- A step on the digits, for two integers `X` and `Y`. -/
theorem loop1_eq (hf : h false false = false) {sx sy sign : Bool} {rest : ℕ → ℕ → ℕ → List ℕ}
    {x y bx by' bz n : ℕ} {qx qy : ℤ} (hx : x < base) (hy : y < base) (hbx : IsBorrow sx bx)
    (hby : IsBorrow sy by') (hbz : IsBorrow sign bz)
    (hrest : ∀ cx cy cz, IsBorrow sx cx → IsBorrow sy cy → IsBorrow sign cz →
      rest cx cy cz = digitsOf (twosValue sign
        (Int.bitwise h (twosValue sx qx cx) (twosValue sy qy cy)) cz % (base : ℤ) ^ n).toNat) :
    loop1 (Nat.bitwise h) sx sy sign rest x y bx by' bz =
      digitsOf (twosValue sign (Int.bitwise h (twosValue sx (x + base * qx) bx)
        (twosValue sy (y + base * qy) by')) bz % (base : ℤ) ^ (n + 1)).toNat := by
  obtain ⟨hmodx, hdivx, hbx'⟩ := twos_spec hx hbx qx
  obtain ⟨hmody, hdivy, hby'⟩ := twos_spec hy hby qy
  generalize twosValue sx (x + base * qx) bx = X at *
  generalize twosValue sy (y + base * qy) by' = Y at *
  -- the digit of the result, before it is converted back
  obtain ⟨hmod, hdiv⟩ := bitwise_emod_ediv hf X Y 62
  have hbase : (base : ℤ) = 2 ^ 62 := by rw [base_eq_pow]; norm_num
  rw [← hbase, ← hmodx, ← hmody, Int.toNat_natCast, Int.toNat_natCast] at hmod
  rw [← hbase, ← hdivx, ← hdivy] at hdiv
  generalize Int.bitwise h X Y = Z at *
  have hz : Nat.bitwise h (twos sx x bx).1 (twos sy y by').1 < base := by
    have := Int.emod_lt_of_pos Z (show (0 : ℤ) < base by rw [base_eq]; norm_num)
    omega
  have hZ : (Nat.bitwise h (twos sx x bx).1 (twos sy y by').1 : ℤ) + base * (Z / base) = Z := by
    rw [← hmod]
    exact Int.emod_add_mul_ediv Z base
  obtain ⟨hmodz, hdivz, hbz'⟩ := twos_spec hz hbz (Z / base)
  rw [hZ] at hmodz hdivz
  simp only [loop1]
  rw [hrest _ _ _ hbx' hby' hbz', ← hdiv, hdivz]
  generalize twosValue sign Z bz = W at *
  generalize (twos sign (Nat.bitwise h (twos sx x bx).1 (twos sy y by').1) bz).1 = d at *
  have hd : d < base := by
    have := Int.emod_lt_of_pos W (show (0 : ℤ) < base by rw [base_eq]; norm_num)
    omega
  rw [strip_digitsOf _ hd]
  congr 1
  have hpos : (0 : ℤ) < base := by rw [base_eq]; norm_num
  have hnn : 0 ≤ W / base % (base : ℤ) ^ n := Int.emod_nonneg _ (by positivity)
  have hnn' : 0 ≤ W % (base : ℤ) ^ (n + 1) := Int.emod_nonneg _ (by positivity)
  zify
  rw [Int.toNat_of_nonneg hnn, Int.toNat_of_nonneg hnn', hmodz, pow_succ']
  exact emod_add_mul_emod W hpos (by positivity)

/-- **The loop** computes the digits of the result, up to the length of the longer operand. -/
theorem loop_eq (hf : h false false = false) {sx sy sign : Bool} (xs ys : List ℕ) {bx by' bz : ℕ}
    (hxs : ∀ d ∈ xs, d < base) (hys : ∀ d ∈ ys, d < base) (hbx : IsBorrow sx bx)
    (hby : IsBorrow sy by') (hbz : IsBorrow sign bz) :
    loop (Nat.bitwise h) sx sy sign xs ys bx by' bz =
      digitsOf (twosValue sign (Int.bitwise h (twosValue sx (Nat.ofDigits base xs) bx)
        (twosValue sy (Nat.ofDigits base ys) by')) bz %
          (base : ℤ) ^ max xs.length ys.length).toNat := by
  have hzero : 0 < base := by decide
  -- induction on both lists of digits, with any borrows
  induction xs generalizing ys bx by' bz with
  | nil =>
    induction ys generalizing bx by' bz with
    | nil => simp [loop]
    | cons y ys ih =>
      have hy : y < base ∧ ∀ d ∈ ys, d < base := List.forall_mem_cons.1 hys
      have hrest := fun (cx cy cz : ℕ) (hcx : IsBorrow sx cx) (hcy : IsBorrow sy cy)
        (hcz : IsBorrow sign cz) => ih hy.2 hcx hcy hcz
      have hstep := loop1_eq hf hzero hy.1 hbx hby hbz hrest
      rw [loop, hstep]
      simp [Nat.ofDigits]
  | cons x xs ih =>
    have hx : x < base ∧ ∀ d ∈ xs, d < base := List.forall_mem_cons.1 hxs
    cases ys with
    | nil =>
      have hrest := fun (cx cy cz : ℕ) (hcx : IsBorrow sx cx) (hcy : IsBorrow sy cy)
        (hcz : IsBorrow sign cz) => ih [] hx.2 hys hcx hcy hcz
      have hstep := loop1_eq hf hx.1 hzero hbx hby hbz hrest
      rw [loop, hstep]
      simp [Nat.ofDigits]
    | cons y ys =>
      have hy : y < base ∧ ∀ d ∈ ys, d < base := List.forall_mem_cons.1 hys
      have hrest := fun (cx cy cz : ℕ) (hcx : IsBorrow sx cx) (hcy : IsBorrow sy cy)
        (hcz : IsBorrow sign cz) => ih ys hx.2 hy.2 hcx hcy hcz
      have hstep := loop1_eq hf hx.1 hy.1 hbx hby hbz hrest
      rw [loop, hstep]
      simp [Nat.ofDigits]

/-! ### The operations -/

def digitCount (x y : Rep) : ℕ := max x.digits.length y.digits.length

theorem twosValue_digitsOf (x : ℤ) :
    twosValue (decide (x < 0)) (Nat.ofDigits (base : ℤ) (digitsOf x.natAbs)) 0 = x := by
  rw [← Nat.coe_ofDigits, digitsOf, Nat.ofDigits_digits, twosValue]
  split_ifs with hneg
  · have := of_decide_eq_true hneg
    omega
  · have := of_decide_eq_false (Bool.not_eq_true _ ▸ hneg)
    omega

theorem natAbs_lt_base_pow {x : ℤ} {n : ℕ} (h : (rep x).digits.length ≤ n) :
    -(2 : ℤ) ^ (62 * n) < x ∧ x < 2 ^ (62 * n) := by
  have hlt : x.natAbs < base ^ n :=
    (Nat.lt_base_pow_length_digits (by decide)).trans_le (Nat.pow_le_pow_right (by decide) h)
  rw [base_eq_pow, ← pow_mul] at hlt
  zify at hlt
  exact abs_lt.1 hlt

theorem binary_eq_bi (f : ℕ → ℕ → ℕ) (genSign : Bool → Bool → Bool) (x y : Rep) :
    binary f genSign x y = bi ⟨genSign x.negative y.negative,
      loop f x.negative y.negative (genSign x.negative y.negative) x.digits y.digits 0 0 0⟩ := by
  dsimp [binary]
  generalize loop f _ _ _ _ _ _ _ _ = digits
  cases digits <;> rfl

theorem signed_twosValue {z : ℤ} {m : ℕ} {s : Bool} (hz : z / 2 ^ m = if s then -1 else 0) :
    (if s then -(twosValue s z 0 % 2 ^ m) else twosValue s z 0 % 2 ^ m) =
      if z = -2 ^ m then 0 else z := by
  have hdiv := Int.mul_ediv_add_emod z (2 ^ m)
  cases s with
  | false =>
    simp only [Bool.false_eq_true, if_false, twosValue] at hz ⊢
    rw [hz, mul_zero, zero_add] at hdiv
    rw [if_neg (by omega), hdiv]
  | true =>
    simp only [if_true, twosValue, Nat.cast_zero, sub_zero] at hz ⊢
    rw [hz] at hdiv
    split_ifs with h
    · rw [h, neg_neg, Int.emod_self, neg_zero]
    · rw [Int.emod_eq_of_lt (by omega) (by omega), neg_neg]

/-- **The result of a bitwise operation**: minus the power of the base is lost. -/
theorem binary_rep (hf : h false false = false) (x y : ℤ) :
    binary (Nat.bitwise h) h (rep x) (rep y) =
      rep (if Int.bitwise h x y = -2 ^ (62 * digitCount (rep x) (rep y)) then 0
        else Int.bitwise h x y) := by
  have hborrow : ∀ neg, IsBorrow neg 0 := fun _ => ⟨by decide, fun _ => rfl⟩
  have hdigits : ∀ z, ∀ d ∈ (rep z).digits, d < base := fun z => (normalised_rep z).digit_lt
  obtain ⟨hx, hx'⟩ := natAbs_lt_base_pow (x := x) (n := digitCount (rep x) (rep y))
    (le_max_left _ _)
  obtain ⟨hy, hy'⟩ := natAbs_lt_base_pow (x := y) (n := digitCount (rep x) (rep y))
    (le_max_right _ _)
  have hsign := bitwise_sign hf hx.le hx' hy.le hy'
  rw [binary_eq_bi, loop_eq hf _ _ (hdigits x) (hdigits y) (hborrow _) (hborrow _) (hborrow _)]
  have hbase : (base : ℤ) ^ digitCount (rep x) (rep y) = 2 ^ (62 * digitCount (rep x) (rep y)) := by
    rw [base_eq_pow, pow_mul]
    norm_num
  rw [bi_digitsOf, ← digitCount, hbase]
  congr 1
  have hnn : ∀ z : ℤ, ((z % 2 ^ (62 * digitCount (rep x) (rep y))).toNat : ℤ) =
      z % 2 ^ (62 * digitCount (rep x) (rep y)) :=
    fun z => Int.toNat_of_nonneg (Int.emod_nonneg z (by positivity))
  rw [hnn, ← signed_twosValue hsign]
  simp [rep, twosValue_digitsOf]

theorem represents_rep_iff {z w : ℤ} : Represents (rep z) w ↔ z = w := by
  rw [Represents, value_rep]
  exact and_iff_right (normalised_rep z)

/-- Both operands are negative, and they have no one in common in their low bits. -/
def AndLost (x y : Rep) : Prop :=
  x.negative ∧ y.negative ∧
    ∀ k < 62 * digitCount x y, (Int.testBit (value x) k && Int.testBit (value y) k) = false

/-- One operand is negative, and the operands agree on their low bits. -/
def XorLost (x y : Rep) : Prop :=
  x.negative ≠ y.negative ∧
    ∀ k < 62 * digitCount x y, Int.testBit (value x) k = Int.testBit (value y) k

/-- **A bitwise operation is right** unless the result has to be negative, and has no one in its
low bits. -/
theorem binary_represents_iff (hf : h false false = false) {x y : Rep} (hx : Normalised x)
    (hy : Normalised y) :
    Represents (binary (Nat.bitwise h) h x y) (Int.bitwise h (value x) (value y)) ↔
      ¬(h x.negative y.negative ∧ ∀ k < 62 * digitCount x y,
        h (Int.testBit (value x) k) (Int.testBit (value y) k) = false) := by
  obtain ⟨hxlt, hxlt'⟩ := natAbs_lt_base_pow (x := value x) (n := digitCount x y)
    (by rw [rep_value hx]; exact le_max_left _ _)
  obtain ⟨hylt, hylt'⟩ := natAbs_lt_base_pow (x := value y) (n := digitCount x y)
    (by rw [rep_value hy]; exact le_max_right _ _)
  have hsign := bitwise_sign hf hxlt.le hxlt' hylt.le hylt'
  have hneg : ∀ {r : Rep}, Normalised r → r.negative = decide (value r < 0) := fun hr => by
    conv_lhs => rw [← rep_value hr]
    rfl
  have hresult := binary_rep hf (value x) (value y)
  rw [rep_value hx, rep_value hy] at hresult
  rw [hresult, represents_rep_iff, hneg hx, hneg hy]
  simp only [← Int.testBit_bitwise]
  rw [← emod_two_pow_eq_zero_iff]
  have hpos : (0 : ℤ) < 2 ^ (62 * digitCount x y) := by positivity
  generalize Int.bitwise h (value x) (value y) = z at *
  generalize (2 : ℤ) ^ (62 * digitCount x y) = b at *
  have hdiv := Int.mul_ediv_add_emod z b
  rw [hsign] at hdiv
  generalize h (decide (value x < 0)) (decide (value y < 0)) = s at *
  cases s with
  | false =>
    have hnn := Int.emod_nonneg z hpos.ne'
    simp only [Bool.false_eq_true, if_false, false_and, not_false_iff, iff_true] at hdiv ⊢
    exact if_neg (by omega)
  | true =>
    simp only [if_true, true_and] at hdiv ⊢
    split_ifs with h
    · omega
    · omega

theorem exists_testBit {r : Rep} (hr : Normalised r) (hneg : r.negative) {n : ℕ}
    (hn : r.digits.length ≤ n) : ∃ k < 62 * n, Int.testBit (value r) k = true := by
  by_contra hall
  push Not at hall
  have hzero := (emod_two_pow_eq_zero_iff (value r) (62 * n)).2
    fun k hk => Bool.eq_false_of_not_eq_true (hall k hk)
  have hlt : value r < 0 := by
    rw [← rep_value hr] at hneg
    exact of_decide_eq_true hneg
  obtain ⟨hlow, -⟩ := natAbs_lt_base_pow (x := value r) (n := n) (by rwa [rep_value hr])
  rw [← Int.add_emod_right, Int.emod_eq_of_lt (by omega) (by omega)] at hzero
  omega

/-- The bitwise operations return the integers whose bits are the operations on bits. -/
structure BitwiseCorrect (x y : Rep) : Prop where
  andb : Represents (andb x y) (Int.land (value x) (value y))
  orb : Represents (orb x y) (Int.lor (value x) (value y))
  xorb : Represents (xorb x y) (Int.xor (value x) (value y))
  notb : Returns (notb x) (Int.lnot (value x))

theorem andb_represents_iff {x y : Rep} (hx : Normalised x) (hy : Normalised y) :
    Represents (andb x y) (Int.land (value x) (value y)) ↔ ¬AndLost x y := by
  have h := binary_represents_iff (h := and) rfl hx hy
  rw [Int.bitwise_and] at h
  rw [AndLost, ← and_assoc, ← Bool.and_eq_true_iff]
  exact h

theorem xorb_represents_iff {x y : Rep} (hx : Normalised x) (hy : Normalised y) :
    Represents (xorb x y) (Int.xor (value x) (value y)) ↔ ¬XorLost x y := by
  have h := binary_represents_iff (h := xor) rfl hx hy
  rw [Int.bitwise_xor] at h
  simp only [bne_iff_ne, bne_eq_false_iff_eq] at h
  exact h

theorem orb_represents {x y : Rep} (hx : Normalised x) (hy : Normalised y) :
    Represents (orb x y) (Int.lor (value x) (value y)) := by
  have h := binary_represents_iff (h := or) rfl hx hy
  rw [Int.bitwise_or] at h
  refine h.2 ?_
  rintro ⟨hneg, hbits⟩
  -- a negative operand has a one, which the result has too
  rcases Bool.or_eq_true_iff.1 hneg with hneg | hneg
  · obtain ⟨k, hk, hbit⟩ := exists_testBit hx hneg (le_max_left _ _ : _ ≤ digitCount x y)
    have := hbits k hk
    rw [hbit] at this
    exact Bool.noConfusion this
  · obtain ⟨k, hk, hbit⟩ := exists_testBit hy hneg (le_max_right _ _ : _ ≤ digitCount x y)
    have := hbits k hk
    rw [hbit, Bool.or_true] at this
    exact Bool.noConfusion this

theorem notb_returns {x : Rep} (hx : Normalised x) : Returns (notb x) (Int.lnot (value x)) := by
  have hone : (⟨false, [1]⟩ : Rep) = rep 1 := by decide
  have hnot : Int.lnot (value x) = -(value x + 1) := by
    cases value x with
    | ofNat n => rfl
    | negSucc n => change (n : ℤ) = _; omega
  refine returns_rep ?_
  rw [notb, ← rep_value hx, hone, add_rep, value_rep, hnot, ← neg_rep]
  rfl

/-- **The bitwise operations are right** unless a digit is lost, by the conjunction of two negative
integers or by the exclusive disjunction of a negative integer and another. -/
theorem bitwise_correct_iff {x y : Rep} (hx : Normalised x) (hy : Normalised y) :
    BitwiseCorrect x y ↔ ¬AndLost x y ∧ ¬XorLost x y := by
  constructor
  · intro h
    exact ⟨(andb_represents_iff hx hy).1 h.andb, (xorb_represents_iff hx hy).1 h.xorb⟩
  · rintro ⟨hand, hxor⟩
    exact ⟨(andb_represents_iff hx hy).2 hand, orb_represents hx hy,
      (xorb_represents_iff hx hy).2 hxor, notb_returns hx⟩

/-- The operations on minus six and five. -/
theorem bitwise_correct_iff_six_five : BitwiseCorrect (rep (-6)) (rep 5) := by
  refine (bitwise_correct_iff (normalised_rep _) (normalised_rep _)).2 ⟨?_, ?_⟩
  · rintro ⟨-, hneg, -⟩
    exact absurd hneg (by decide)
  · rintro ⟨-, hbits⟩
    exact absurd (hbits 2 (by decide)) (by decide)

/-- The conjunction of two negative integers of one digit that is computed as zero. -/
theorem not_bitwise_correct :
    ¬∀ x y : Rep, Normalised x → Normalised y → BitwiseCorrect x y := by
  intro h
  have hand := (h (rep (-4611686018427387903)) (rep (-4611686018427387902)) (normalised_rep _)
    (normalised_rep _)).andb.2
  have hland : Int.land (value (rep (-4611686018427387903))) (value (rep (-4611686018427387902))) =
      -4611686018427387904 := by
    rfl
  have hzero : andb (rep (-4611686018427387903)) (rep (-4611686018427387902)) = ⟨false, []⟩ := by
    have hx : rep (-4611686018427387903) = ⟨true, [4611686018427387903]⟩ := by decide
    have hy : rep (-4611686018427387902) = ⟨true, [4611686018427387902]⟩ := by decide
    have hend : loop wordAndb true true true [] [] = fun _ _ _ => [] := by
      funext bx by' bz
      rw [loop]
    rw [hx, hy, andb, binary]
    simp only [Bool.and_true]
    rw [loop, hend]
    decide
  rw [hzero] at hand
  exact absurd hand (by decide)

end SmlNj.IntInf
