import SmlNj.Library.BitArrayHeap

/-!
# Blocks of bits

The copies of blocks, to the right and to the left, by any number of bits.  Every byte
that is written is put together from two neighbouring bytes of the source, except for the
first and the last, which keep some of their bits.

## Main results

* `BitArray.rightblt_spec`, `BitArray.leftblt_spec` — the block is there, and all other bits
  are as before.
-/

namespace SmlNj.BitArray

open TotalRun PackedBits

variable {s : Heap} {src dest : ℕ} {f : ℕ → Bool} {lo len m n p q shft : ℕ}
  {b old : List (BitVec 8)}

def Copied (s : Heap) (dest : ℕ) (f : ℕ → Bool) (lo hi : ℕ) (s' : Heap) : Prop :=
  ∃ b, s' = s.put dest b ∧ Blit f lo hi (s.mem dest) b

variable {s' : Heap} {i hi : ℕ} {v : BitVec 8}

theorem Copied.mem_src (h : Copied s dest f lo hi s') (hne : src ≠ dest) :
    s'.mem src = s.mem src := by
  obtain ⟨b, rfl, -⟩ := h
  exact Heap.put_mem_of_ne hne b

theorem Copied.blit (h : Copied s dest f lo hi s') : Blit f lo hi (s.mem dest) (s'.mem dest) := by
  obtain ⟨b, rfl, hb⟩ := h
  rwa [Heap.put_mem_self]

theorem Copied.put {hi' : ℕ} (h : Copied s dest f lo hi s')
    (hb : Blit f lo hi' (s.mem dest) ((s'.mem dest).set i v)) :
    Copied s dest f lo hi' (s'.put dest ((s'.mem dest).set i v)) := by
  obtain ⟨b, rfl, -⟩ := h
  exact ⟨_, Heap.put_put _ _ _ _, hb⟩

theorem Copied.refl (f : ℕ → Bool) (h : hi ≤ lo) : Copied s dest f lo hi s :=
  ⟨s.mem dest, (Heap.put_self s dest).symm, .refl f h _⟩

theorem fit_update (h : Copied s dest f lo (8 * i) s') (hlo : lo ≤ 8 * i)
    (hlt : i < (s.mem dest).length) (hm : m ≤ 8)
    (hv : ∀ j < m, v.getLsbD j = f (8 * i + j)) :
    Returns (fit ((s'.mem dest).getD i 0#8) v m >>= fun w => W8A.update dest i w) s' fun _ s'' =>
      Copied s dest f lo (8 * i + m) s'' := by
  refine returns_bind_of (fit_spec _ v hm) ?_
  rintro w s'' ⟨hw, rfl⟩
  have hlt' : i < (s''.mem dest).length := by rwa [h.blit.length_eq]
  refine (returns_update hlt' w).mono ?_
  rintro - s' rfl
  refine h.put (h.blit.write_low hlo hlt' hm fun j hj => ?_)
  rw [hw j hj]
  by_cases hjm : j < m
  · rw [if_pos hjm, if_pos hjm, hv j hjm]
  · rw [if_neg hjm, if_neg hjm]

/-- **A copy of whole bytes**, the last of them perhaps in part. -/
theorem simpleCopy_spec (hne : src ≠ dest) (hlen : 0 < len)
    (hsrc : 8 * p + len ≤ 8 * (s.mem src).length) (hdest : 8 * q + len ≤ 8 * (s.mem dest).length) :
    Returns (simpleCopy src dest (q + (len - 1) / 8 : ℕ) len p q) s fun _ s' =>
      Copied s dest (fun k => bitAt (s.mem src) (8 * p + (k - 8 * q))) (8 * q) (8 * q + len)
        s' := by
  unfold simpleCopy
  set n := (len - 1) / 8 with hn
  have hbyte : ∀ i j, j < 8 → ((s.mem src).getD (p + i) 0#8).getLsbD j =
      bitAt (s.mem src) (8 * p + (8 * (q + i) + j - 8 * q)) := by
    intro i j hj
    rw [getLsbD_getD _ _ hj]
    congr 1
    omega
  refine returns_upto
    (fun i (_ : Unit) => simpleCopy.cpy src dest (q + n : ℕ) len (p + i : ℕ) (q + i : ℕ))
    (fun i _ => do W8A.update dest (q + i : ℕ) (← W8A.sub src (p + i : ℕ)))
    (fun i _ => Copied s dest (fun k => bitAt (s.mem src) (8 * p + (k - 8 * q))) (8 * q)
      (8 * (q + i)))
    (fun _ => simpleCopy.last src dest len (p + n : ℕ) (q + n : ℕ))
    (n := n) (i := 0) (c := ()) ?_ ?_ ?_ (Nat.zero_le n) (.refl _ (by omega))
  · intro i _ _
    rw [simpleCopy.cpy]
    by_cases hi : i = n
    · rw [if_pos hi, if_pos (by rw [hi]), hi]
    · rw [if_neg hi, if_neg (by omega), bind_assoc]
      push_cast
      rfl
  · rintro i - s' hi h
    have hlt : q + i < (s'.mem dest).length := by
      rw [h.blit.length_eq]
      omega
    refine sub_bind (by rw [h.mem_src hne]; omega) ((returns_update hlt _).mono ?_)
    rintro - s'' rfl
    refine h.put (h.blit.write_byte (by omega) hlt fun j hj => ?_)
    rw [h.mem_src hne, hbyte i j hj]
  · rintro - s' h
    unfold simpleCopy.last
    rw [mask7_natCast]
    dsimp only
    by_cases h0 : len % 8 = 0
    · have hlt : q + n < (s'.mem dest).length := by
        rw [h.blit.length_eq]
        omega
      rw [if_pos (by exact_mod_cast h0)]
      refine sub_bind (by rw [h.mem_src hne]; omega) ((returns_update hlt _).mono ?_)
      rintro - s'' rfl
      have heq : 8 * q + len = 8 * (q + n + 1) := by omega
      rw [heq]
      refine h.put (h.blit.write_byte (by omega) hlt fun j hj => ?_)
      rw [h.mem_src hne, hbyte n j hj]
    · rw [if_neg (by exact_mod_cast h0)]
      have heq : 8 * q + len = 8 * (q + n) + len % 8 := by omega
      refine sub_bind (by rw [h.blit.length_eq]; omega) ?_
      refine sub_bind (by rw [h.mem_src hne]; omega) ?_
      rw [heq]
      refine fit_update h (by omega) (by omega) (by omega) fun j hj => ?_
      rw [h.mem_src hne, hbyte n j (by omega)]

/-! ### Bytes out of two -/

/-- What the loops of `rightblt` and of `leftblt` do to a byte: `R` bits further in the
source, and `L` bits back. -/
def straddle.body (src dest : ℕ) (R L : BitVec 63) (p q : ℕ) (i : ℕ) (sb : BitVec 8) :
    Exec (BitVec 8) := do
  let sb' ← W8A.sub src (p + i + 1 : ℕ)
  W8A.update dest (q + i : ℕ) ((sb >>> R.toNat) ||| ((sb' <<< L.toNat) &&& 0xff#8))
  return sb'

/-- What they do to the last one, of which they write `left` bits. -/
def straddle.finish (src dest : ℕ) (R L : BitVec 63) (left : ℤ) (sb : BitVec 8) (s d : ℤ) :
    Exec Unit :=
  if word left ≤ L then do
    let lb ← W8A.sub dest d
    W8A.update dest d (← fit lb (sb >>> R.toNat) left)
  else do
    let sb' := (sb >>> R.toNat) ||| ((← W8A.sub src s) <<< L.toNat)
    let lb ← W8A.sub dest d
    W8A.update dest d (← fit lb sb' left)

theorem rightblt.finish_eq (src dest : ℕ) (bitshift : BitVec 63) (len : ℤ) (sb : BitVec 8)
    (s d : ℤ) : rightblt.finish src dest bitshift len sb s d =
      straddle.finish src dest bitshift (8#63 - bitshift) (mask7 (len - 1) + 1) sb s d := rfl

theorem leftblt.finish_eq (src dest : ℕ) (bitshift : BitVec 63) (shft len : ℤ) (sb : BitVec 8)
    (s d : ℤ) : leftblt.finish src dest bitshift shft len sb s d =
      straddle.finish src dest (8#63 - bitshift) bitshift (mask7 (shft + len - 1) + 1) sb s d :=
  rfl

/-- Both loops write the block `f`, from byte `q` of the target on, from what begins `R`
bits after byte `p` of the source. -/
theorem straddle_spec {R L : BitVec 63} (hRL : R.toNat + L.toNat = 8)
    (loop : ℕ → BitVec 8 → Exec Unit) (hne : src ≠ dest) (hm0 : 0 < m) (hm : m ≤ 8)
    (heq : ∀ i sb, loop i sb =
      if i = n then straddle.finish src dest R L m sb (p + n + 1 : ℕ) (q + n : ℕ)
      else straddle.body src dest R L p q i sb >>= loop (i + 1))
    (hf : ∀ k, f (8 * q + k) = bitAt (s.mem src) (8 * p + R.toNat + k))
    (hsrc : 8 * (p + n) + R.toNat + m ≤ 8 * (s.mem src).length)
    (hdest : q + n < (s.mem dest).length) (hlo : lo ≤ 8 * q) (h : Copied s dest f lo (8 * q) s') :
    Returns (loop 0 ((s.mem src).getD p 0#8)) s' fun _ s'' =>
      Copied s dest f lo (8 * (q + n) + m) s'' := by
  have hL : L.toNat = 8 - R.toNat := by omega
  have hbits : ∀ i j, j < 8 → (((s.mem src).getD (p + i) 0#8 >>> R.toNat) |||
      ((s.mem src).getD (p + i + 1) 0#8 <<< L.toNat)).getLsbD j = f (8 * (q + i) + j) := by
    intro i j hj
    have hk : 8 * (q + i) + j = 8 * q + (8 * i + j) := by omega
    rw [hL, bitAt_straddle _ _ (by omega) hj, hk, hf]
    congr 1
    omega
  have hmask : ∀ v : BitVec 8, v &&& 0xff#8 = v := fun v => BitVec.and_allOnes
  refine returns_upto loop (straddle.body src dest R L p q)
    (fun i sb s'' => sb = (s.mem src).getD (p + i) 0#8 ∧ Copied s dest f lo (8 * (q + i)) s'')
    (fun sb => straddle.finish src dest R L m sb (p + n + 1 : ℕ) (q + n : ℕ))
    (fun i sb _ => heq i sb) ?_ ?_
    (Nat.zero_le n) ⟨rfl, h⟩
  · rintro i sb s'' hi ⟨rfl, h⟩
    have hlt : q + i < (s''.mem dest).length := by
      rw [h.blit.length_eq]
      omega
    unfold straddle.body
    refine sub_bind (by rw [h.mem_src hne]; omega) (update_bind hlt (returns_pure ⟨?_, ?_⟩))
    · rw [h.mem_src hne, Nat.add_assoc]
    · refine h.put (h.blit.write_byte (by omega) hlt fun j hj => ?_)
      rw [hmask, h.mem_src hne, hbits i j hj]
  · rintro sb s'' ⟨rfl, h⟩
    have hleft : (word m).toNat = m := by
      have := word_toNat (i := m) (by omega) (by omega)
      exact_mod_cast this
    have hcond : word m ≤ L ↔ m ≤ 8 - R.toNat := by
      rw [BitVec.le_def, hleft, hL]
    unfold straddle.finish
    by_cases hle : m ≤ 8 - R.toNat
    · -- enough bits in the byte that is at hand
      rw [if_pos (hcond.mpr hle)]
      refine sub_bind (by rw [h.blit.length_eq]; omega) ?_
      refine fit_update h (by omega) (by omega) hm fun j hj => ?_
      have hk : 8 * (q + n) + j = 8 * q + (8 * n + j) := by omega
      rw [BitVec.getLsbD_ushiftRight, getLsbD_getD _ _ (by omega), hk, hf]
      congr 1
      omega
    · rw [if_neg fun hc => hle (hcond.mp hc)]
      refine sub_bind (by rw [h.mem_src hne]; omega) ?_
      refine sub_bind (by rw [h.blit.length_eq]; omega) ?_
      refine fit_update h (by omega) (by omega) hm fun j hj => ?_
      rw [h.mem_src hne, hbits n j (by omega)]

theorem eight_sub_toNat {w : BitVec 63} (h : w.toNat ≤ 8) : (8#63 - w).toNat = 8 - w.toNat := by
  rw [BitVec.toNat_sub, BitVec.toNat_ofNat]
  omega

/-- **`rightblt`** copies the bits from `shft` on to the beginning. -/
theorem rightblt_spec (hne : src ≠ dest) (hlen : 0 < len)
    (hsrc : shft + len ≤ 8 * (s.mem src).length) (hdest : len ≤ 8 * (s.mem dest).length) :
    Returns (rightblt src dest shft len) s fun _ s' =>
      Copied s dest (fun k => bitAt (s.mem src) (shft + k)) 0 len s' := by
  have hlast : ((len : ℤ) - 1) = (len - 1 : ℕ) := by omega
  have hw := wmask7_toNat shft
  unfold rightblt
  rw [hlast, byteOf_natCast, byteOf_natCast]
  dsimp only
  by_cases h0 : wmask7 shft = 0#63
  · have hmod : shft % 8 = 0 := by
      rw [← hw, h0]
      rfl
    rw [if_pos h0]
    have := simpleCopy_spec (s := s) (p := shft / 8) (q := 0) hne hlen (by omega) (by omega)
    rw [Nat.zero_add, Nat.mul_zero, Nat.zero_add] at this
    refine this.mono fun _ s' h => ?_
    have hshft : 8 * (shft / 8) = shft := by omega
    rw [hshft] at h
    exact h
  · have hmod : shft % 8 ≠ 0 := by
      intro hmod
      exact h0 (BitVec.eq_of_toNat_eq (by rw [hw, hmod]; rfl))
    have hR : (wmask7 shft).toNat < 8 := by omega
    rw [if_neg h0]
    refine sub_bind (by omega) ?_
    have := straddle_spec (R := wmask7 shft) (L := 8#63 - wmask7 shft) (p := shft / 8) (q := 0)
      (n := (len - 1) / 8) (m := (len - 1) % 8 + 1) (s := s)
      (f := fun k => bitAt (s.mem src) (shft + k))
      (by rw [eight_sub_toNat hR.le]; omega)
      (fun i sb => rightblt.loop src dest (wmask7 shft) len ((len - 1) / 8 : ℕ) sb
        (shft / 8 + i + 1 : ℕ) (0 + i : ℕ)) hne (by omega) (by omega) ?_ ?_ ?_ ?_ (Nat.zero_le _)
      (show Copied s dest _ 0 (8 * 0) s from .refl _ le_rfl)
    · have hend : 8 * (0 + (len - 1) / 8) + ((len - 1) % 8 + 1) = len := by omega
      rw [hend] at this
      exact this
    · intro i sb
      rw [rightblt.loop]
      by_cases hi : i = (len - 1) / 8
      · rw [if_pos hi, if_pos (by rw [hi, Nat.zero_add]), rightblt.finish_eq, hlast,
          mask7_natCast, hi]
        push_cast
        rfl
      · rw [if_neg hi, if_neg (by omega)]
        unfold straddle.body
        simp only [bind_assoc, pure_bind]
        push_cast
        rfl
    · intro k
      congr 1
      omega
    · omega
    · omega

/-! ### Copies to the left -/

theorem sliceCopy_spec {R : BitVec 63} (hfit : R.toNat + len ≤ 8)
    (hsrc : 0 < (s.mem src).length) (hdest : q < (s.mem dest).length) :
    Returns (leftblt.sliceCopy src dest R 0 q len) s fun _ s' =>
      Copied s dest (fun k => bitAt (s.mem src) (k - (8 * q + R.toNat))) (8 * q + R.toNat)
        (8 * q + R.toNat + len) s' := by
  unfold leftblt.sliceCopy
  refine returns_bind_of (returns_lobits (by omega)) ?_
  rintro mask s' ⟨hmask, rfl⟩
  refine sub_bind (i := 0) hsrc (sub_bind hdest ((returns_update hdest _).mono ?_))
  rintro - s'' rfl
  refine ⟨_, rfl, (Blit.refl _ (le_refl (8 * q + R.toNat)) _).write hdest (fun k hk => by omega)
    fun j hj => ?_⟩
  have hold := getLsbD_getD (s'.mem dest) q hj
  rw [BitVec.getLsbD_or, BitVec.getLsbD_and, BitVec.getLsbD_and, BitVec.getLsbD_not,
    BitVec.getLsbD_shiftLeft, BitVec.getLsbD_shiftLeft, hold]
  by_cases hlo : R.toNat ≤ j
  · have hm := hmask (j - R.toNat) (by omega)
    have hnew := getLsbD_getD (s'.mem src) 0 (j := j - R.toNat) (by omega)
    have hk : 8 * 0 + (j - R.toNat) = 8 * q + j - (8 * q + R.toNat) := by omega
    rw [hk] at hnew
    rw [hm, hnew]
    by_cases hhi : j - R.toNat < len
    · rw [if_pos (by omega)]
      simp [hj, hhi, Nat.not_lt.mpr hlo]
    · rw [if_neg (by omega)]
      simp [hj, hhi, Nat.not_lt.mpr hlo]
  · rw [if_neg (by omega)]
    simp [hj, Nat.not_le.mp hlo]

theorem leftblt_first {R : BitVec 63} (hR : R.toNat < 8)
    (hdest : q < (s.mem dest).length) :
    Returns (fit ((s.mem src).getD 0 0#8 <<< R.toNat) ((s.mem dest).getD q 0#8) R.toInt >>=
        fun w => W8A.update dest q w) s fun _ s' =>
      Copied s dest (fun k => bitAt (s.mem src) (k - (8 * q + R.toNat))) (8 * q + R.toNat)
        (8 * (q + 1)) s' := by
  rw [BitVec.toInt_eq_toNat_of_lt (by omega)]
  refine returns_bind_of (fit_spec _ _ hR.le) ?_
  rintro w s' ⟨hw, rfl⟩
  refine (returns_update hdest w).mono ?_
  rintro - s'' rfl
  refine ⟨_, rfl, (Blit.refl _ (le_refl (8 * q + R.toNat)) _).write hdest (fun k hk => by omega)
    fun j hj => ?_⟩
  rw [hw j hj]
  by_cases hlo : j < R.toNat
  · rw [if_pos hlo, if_neg (by omega), getLsbD_getD _ _ hj]
  · have hk : 8 * 0 + (j - R.toNat) = 8 * q + j - (8 * q + R.toNat) := by omega
    rw [if_neg hlo, if_pos (by omega), BitVec.getLsbD_shiftLeft, ← hk,
      ← getLsbD_getD _ _ (show j - R.toNat < 8 by omega)]
    simp [hj, hlo]

/-- **`leftblt`** copies the bits from the beginning to `shft`. -/
theorem leftblt_spec (hne : src ≠ dest) (hsrc : len ≤ 8 * (s.mem src).length)
    (hdest : shft + len ≤ 8 * (s.mem dest).length) :
    Returns (leftblt src dest shft len) s fun _ s' =>
      Copied s dest (fun k => bitAt (s.mem src) (k - shft)) shft (shft + len) s' := by
  unfold leftblt
  by_cases hlen : len = 0
  · rw [if_pos (by exact_mod_cast hlen)]
    exact returns_pure (.refl _ (by omega))
  have hlast : ((shft : ℤ) + len - 1) = (shft + len - 1 : ℕ) := by omega
  have hw := wmask7_toNat shft
  rw [if_neg (by exact_mod_cast hlen), hlast, byteOf_natCast, byteOf_natCast]
  dsimp only
  by_cases h0 : wmask7 shft = 0#63
  · have hmod : shft % 8 = 0 := by
      rw [← hw, h0]
      rfl
    have hend : (shft + len - 1) / 8 = shft / 8 + (len - 1) / 8 := by omega
    have hshft : 8 * (shft / 8) = shft := by omega
    rw [if_pos h0, hend]
    have := simpleCopy_spec (s := s) (p := 0) (q := shft / 8) hne (show 0 < len by omega)
      (by omega) (by omega)
    rw [hshft, Nat.mul_zero] at this
    simp only [Nat.zero_add] at this
    exact this
  · have hmod : shft % 8 ≠ 0 := by
      intro hmod
      exact h0 (BitVec.eq_of_toNat_eq (by rw [hw, hmod]; rfl))
    have hR : (wmask7 shft).toNat < 8 := by omega
    have hshft : 8 * (shft / 8) + (wmask7 shft).toNat = shft := by omega
    have hsrc0 : 0 < (s.mem src).length := by omega
    have hdest0 : shft / 8 < (s.mem dest).length := by omega
    rw [if_neg h0]
    by_cases hone : (shft + len - 1) / 8 = shft / 8
    · rw [if_pos (by exact_mod_cast hone)]
      have := sliceCopy_spec (s := s) (R := wmask7 shft) (q := shft / 8)
        (show (wmask7 shft).toNat + len ≤ 8 by omega) hsrc0 hdest0
      rw [hshft] at this
      exact this
    · rw [if_neg (by exact_mod_cast hone)]
      unfold leftblt.copy
      refine sub_bind (i := 0) hsrc0 (sub_bind hdest0 ?_)
      have hfirst := @leftblt_first s src dest (shft / 8) (wmask7 shft) hR hdest0
      rw [hshft] at hfirst
      rw [← bind_assoc]
      refine returns_bind_of hfirst fun _ s' h => ?_
      have := straddle_spec (R := 8#63 - wmask7 shft) (L := wmask7 shft) (p := 0)
        (q := shft / 8 + 1) (n := (shft + len - 1) / 8 - (shft / 8 + 1))
        (m := (shft + len - 1) % 8 + 1) (s := s)
        (f := fun k => bitAt (s.mem src) (k - shft))
        (by rw [eight_sub_toNat hR.le]; omega)
        (fun i sb => leftblt.loop src dest (wmask7 shft) shft len ((shft + len - 1) / 8 : ℕ) sb
          (0 + i + 1 : ℕ) (shft / 8 + 1 + i : ℕ)) hne (by omega) (by omega) ?_ ?_ ?_ ?_ (by omega) h
      · have hend : 8 * (shft / 8 + 1 + ((shft + len - 1) / 8 - (shft / 8 + 1))) +
            ((shft + len - 1) % 8 + 1) = shft + len := by omega
        rw [hend] at this
        exact this
      · intro i sb
        rw [leftblt.loop]
        by_cases hi : i = (shft + len - 1) / 8 - (shft / 8 + 1)
        · rw [if_pos hi, if_pos (by omega), leftblt.finish_eq, hlast, mask7_natCast, hi]
          push_cast
          rfl
        · rw [if_neg hi, if_neg (by omega)]
          unfold straddle.body
          simp only [bind_assoc, pure_bind]
          push_cast
          rfl
      · intro k
        rw [eight_sub_toNat hR.le]
        congr 1
        omega
      · rw [eight_sub_toNat hR.le]
        omega
      · omega

end SmlNj.BitArray
