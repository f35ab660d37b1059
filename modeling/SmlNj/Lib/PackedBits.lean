import Mathlib.Data.BitVec
import Mathlib.Data.List.GetD
import Mathlib.Tactic

/-!
# Bits packed into bytes

A list of bytes as a sequence of bits, the lowest bit of a byte first.  Writing a block
of bits byte by byte is described by what the block holds and what is around it; a byte
that belongs to the block only in part takes its other bits from what was there.

## Main definitions

* `bitAt` — a bit of a list of bytes.
* `Blit f lo hi old new` — the bits from `lo` to `hi` have been written.

## Main results

* `Blit.write` — one more byte is written.
* `bitAt_straddle` — eight bits out of two neighbouring bytes.
-/

namespace PackedBits

def bitAt (bytes : List (BitVec 8)) (k : ℕ) : Bool := (bytes.getD (k / 8) 0#8).getLsbD (k % 8)

variable {bytes old new b c : List (BitVec 8)} {v x y : BitVec 8} {f : ℕ → Bool}
  {i j k n q r lo hi hi' : ℕ}

theorem getLsbD_getD (bytes : List (BitVec 8)) (i : ℕ) (hj : j < 8) :
    (bytes.getD i 0#8).getLsbD j = bitAt bytes (8 * i + j) := by
  unfold bitAt
  have hdiv : (8 * i + j) / 8 = i := by omega
  have hmod : (8 * i + j) % 8 = j := by omega
  rw [hdiv, hmod]

theorem bitAt_eq_false (h : 8 * bytes.length ≤ k) : bitAt bytes k = false := by
  unfold bitAt
  rw [List.getD_eq_default _ _ (by omega)]
  exact BitVec.getLsbD_zero

theorem bitAt_set (hlt : i < bytes.length) (v : BitVec 8) (k : ℕ) :
    bitAt (bytes.set i v) k = if k / 8 = i then v.getLsbD (k % 8) else bitAt bytes k := by
  unfold bitAt
  rw [List.getD_eq_getElem?_getD, List.getD_eq_getElem?_getD, List.getElem?_set]
  by_cases hk : i = k / 8
  · rw [if_pos hk, if_pos hlt, if_pos hk.symm]
    rfl
  · rw [if_neg hk, if_neg (Ne.symm hk)]

theorem bitAt_replicate (n : ℕ) (v : BitVec 8) (k : ℕ) :
    bitAt (List.replicate n v) k = (decide (k < 8 * n) && v.getLsbD (k % 8)) := by
  unfold bitAt
  by_cases hk : k < 8 * n
  · have hdiv : k / 8 < n := by omega
    rw [List.getD_replicate _ hdiv]
    simp [hk]
  · rw [List.getD_eq_default _ _ (by rw [List.length_replicate]; omega)]
    simp [hk]

theorem bitAt_replicate_zero (n k : ℕ) : bitAt (List.replicate n 0#8) k = false := by
  simp [bitAt_replicate]

theorem bitAt_replicate_ones (n k : ℕ) :
    bitAt (List.replicate n 0xff#8) k = decide (k < 8 * n) := by
  have hone : (0xff#8).getLsbD (k % 8) = true := by
    have hlt : k % 8 < 8 := Nat.mod_lt k (by norm_num)
    interval_cases k % 8 <;> rfl
  rw [bitAt_replicate, hone, Bool.and_true]

theorem getLsbD_straddle (hr : r ≤ 8) (hj : j < 8) :
    ((x >>> r) ||| (y <<< (8 - r))).getLsbD j =
      if j + r < 8 then x.getLsbD (r + j) else y.getLsbD (r + j - 8) := by
  rw [BitVec.getLsbD_or, BitVec.getLsbD_ushiftRight, BitVec.getLsbD_shiftLeft]
  by_cases hlt : j + r < 8
  · have hsmall : j < 8 - r := by omega
    simp [hlt, hsmall]
  · have hlarge : ¬ j < 8 - r := by omega
    have hzero : x.getLsbD (r + j) = false := BitVec.getLsbD_of_ge x _ (by omega)
    have hsub : j - (8 - r) = r + j - 8 := by omega
    simp [hlt, hlarge, hzero, hsub, hj]

theorem bitAt_straddle (bytes : List (BitVec 8)) (q : ℕ) (hr : r ≤ 8) (hj : j < 8) :
    ((bytes.getD q 0#8 >>> r) ||| (bytes.getD (q + 1) 0#8 <<< (8 - r))).getLsbD j =
      bitAt bytes (8 * q + r + j) := by
  rw [getLsbD_straddle hr hj]
  split_ifs with h
  · rw [getLsbD_getD bytes q (by omega), Nat.add_assoc]
  · rw [getLsbD_getD bytes (q + 1) (by omega)]
    congr 1
    omega

theorem getLsbD_one_shiftLeft (hr : r < 8) (hj : j < 8) :
    (1#8 <<< r).getLsbD j = decide (j = r) := by
  rw [BitVec.getLsbD_shiftLeft, BitVec.getLsbD_one]
  by_cases hjr : j = r
  · simp [hjr, hr]
  · rcases Nat.lt_or_ge j r with hlt | hge
    · simp [hj, hjr, hlt]
    · have hne : j - r ≠ 0 := by omega
      simp [hj, hjr, Nat.not_lt.mpr hge, hne]

theorem getLsbD_set_bit (x : BitVec 8) (hr : r < 8) (hj : j < 8) :
    (x ||| (1#8 <<< r)).getLsbD j = (x.getLsbD j || decide (j = r)) := by
  rw [BitVec.getLsbD_or, getLsbD_one_shiftLeft hr hj]

theorem getLsbD_clear_bit (x : BitVec 8) (hr : r < 8) (hj : j < 8) :
    (x &&& ~~~(1#8 <<< r)).getLsbD j = (x.getLsbD j && !decide (j = r)) := by
  rw [BitVec.getLsbD_and, BitVec.getLsbD_not, getLsbD_one_shiftLeft hr hj, decide_eq_true hj,
    Bool.true_and]

theorem and_bit (x : BitVec 8) (hr : r < 8) :
    (x &&& (1#8 <<< r) == 1#8 <<< r) = x.getLsbD r ∧
      (x &&& (1#8 <<< r) != 0#8) = x.getLsbD r := by
  revert x
  interval_cases r <;> decide +kernel

theorem and_bit_eq (x : BitVec 8) (hr : r < 8) :
    (x &&& (1#8 <<< r) == 1#8 <<< r) = x.getLsbD r :=
  (and_bit x hr).1

theorem and_bit_ne (x : BitVec 8) (hr : r < 8) : (x &&& (1#8 <<< r) != 0#8) = x.getLsbD r :=
  (and_bit x hr).2

/-- The bits from `lo` to `hi` have been written. -/
structure Blit (f : ℕ → Bool) (lo hi : ℕ) (old new : List (BitVec 8)) : Prop where
  length_eq : new.length = old.length
  /-- The bits of the block, and those around it. -/
  bit_eq : ∀ k, bitAt new k = if lo ≤ k ∧ k < hi then f k else bitAt old k

namespace Blit

theorem refl (f : ℕ → Bool) (h : hi ≤ lo) (old : List (BitVec 8)) : Blit f lo hi old old := by
  refine ⟨rfl, fun k => ?_⟩
  rw [if_neg]
  omega

/-- **One more byte is written.**  What it holds beyond the block is what was there. -/
theorem write (h : Blit f lo hi old new) (hlt : i < new.length)
    (hout : ∀ k, k / 8 ≠ i → ((lo ≤ k ∧ k < hi) ↔ (lo ≤ k ∧ k < hi')))
    (hv : ∀ j < 8, v.getLsbD j =
      if lo ≤ 8 * i + j ∧ 8 * i + j < hi' then f (8 * i + j) else bitAt old (8 * i + j)) :
    Blit f lo hi' old (new.set i v) := by
  refine ⟨(List.length_set).trans h.length_eq, fun k => ?_⟩
  rw [bitAt_set hlt]
  by_cases hk : k / 8 = i
  · have hsplit : 8 * i + k % 8 = k := by omega
    rw [if_pos hk, hv (k % 8) (Nat.mod_lt k (by norm_num)), hsplit]
  · rw [if_neg hk, h.bit_eq, if_congr (hout k hk) rfl rfl]

theorem write_byte (h : Blit f lo (8 * i) old new) (hlo : lo ≤ 8 * i) (hlt : i < new.length)
    (hv : ∀ j < 8, v.getLsbD j = f (8 * i + j)) : Blit f lo (8 * (i + 1)) old (new.set i v) := by
  refine h.write hlt (fun k hk => by omega) fun j hj => ?_
  rw [hv j hj, if_pos]
  omega

theorem write_low (h : Blit f lo (8 * i) old new) (hlo : lo ≤ 8 * i) (hlt : i < new.length)
    (hn : n ≤ 8) (hv : ∀ j < 8, v.getLsbD j =
      if j < n then f (8 * i + j) else (new.getD i 0#8).getLsbD j) :
    Blit f lo (8 * i + n) old (new.set i v) := by
  refine h.write hlt (fun k hk => by omega) fun j hj => ?_
  rw [hv j hj, getLsbD_getD new i hj, h.bit_eq]
  by_cases hjn : j < n
  · rw [if_pos hjn, if_pos (by omega)]
  · rw [if_neg hjn, if_neg (by omega), if_neg (by omega)]

end Blit

end PackedBits
