import SmlNj.Library.BitArrayBlocks

/-!
# Shifts and extensions

A shift to the right drops bits from the front of the list that an array stands for, a
shift to the left puts zeros there, and an extension appends bits.  The amount of a shift
is a word, which the code converts to a signed integer: from `2 ^ 62` on it becomes
negative, and the shift to the right goes wrong.

## Main results

* `BitArray.rshift_w_iff`, `BitArray.lshift_w_iff` — when the shifts are right.
* `BitArray.extend0_spec`, `BitArray.extend1_spec` — the extensions.
-/

namespace SmlNj.BitArray

open TotalRun PackedBits

variable {s : Heap} {ba : BA} {l : List Bool} {n : BitVec 63}

theorem toInt_of_lt (h : n.toNat < 2 ^ 62) : n.toInt = n.toNat :=
  BitVec.toInt_eq_toNat_of_lt (by omega)

theorem array_nil : Makes (array 0 false) s [] := by
  refine makes_of_push (by simp) ?_
  refine (array_spec (n := 0) (by norm_num)).mono ?_
  rintro ba s' ⟨rfl, rfl⟩
  exact ⟨rfl, [], rfl, rfl, fun k => bitAt_eq_false (Nat.zero_le _)⟩

theorem makes_block {newlen : ℕ} {l' : List Bool} {f : ℕ → Bool} {lo hi : ℕ}
    (blt : ℕ → Exec Unit) (hlen : l'.length = newlen) (hfits : newlen ≤ 2 ^ 59 - 8)
    (hblt : Returns (blt s.next) (s.push (List.replicate ((newlen + 7) / 8) 0#8)) fun _ s' =>
      Copied (s.push (List.replicate ((newlen + 7) / 8) 0#8)) s.next f lo hi s')
    (hf : ∀ k, l'.getD k false = if lo ≤ k ∧ k < hi then f k else false) :
    Makes (do
      let newbits ← W8A.array (← sizeOf newlen) 0#8
      blt newbits
      return ⟨newlen, newbits⟩) s l' := by
  refine makes_of_push (by omega) ?_
  refine returns_bind_of (returns_sizeOf (by omega)) ?_
  rintro sz s' ⟨rfl, rfl⟩
  refine returns_bind_of (returns_newArray (by omega) 0#8) ?_
  rintro a s'' ⟨rfl, rfl⟩
  refine returns_bind_of hblt ?_
  rintro - s'' ⟨b, rfl, hb⟩
  rw [Heap.push_mem_self] at hb
  refine returns_pure ⟨by rw [hlen], b, Heap.push_put _ _ _, ?_, fun k => ?_⟩
  · rw [hb.length_eq, List.length_replicate, hlen]
  · rw [hb.bit_eq, bitAt_replicate_zero, hf]

/-! ### Shifts to the right -/

theorem rshift_w_spec (h : Rep s ba l) (hn : n.toNat < 2 ^ 62) :
    Makes (rshift_w ba n) s (l.drop n.toNat) := by
  unfold rshift_w
  by_cases h0 : n = 0#63
  · subst h0
    rw [if_pos rfl]
    exact mkCopy_spec h
  · rw [if_neg h0, toInt_of_lt hn, h.nbits]
    dsimp only
    by_cases hge : l.length ≤ n.toNat
    · rw [if_pos (by exact_mod_cast hge), List.drop_of_length_le hge]
      exact array_nil
    · have hsub : ((l.length : ℤ) - n.toNat) = (l.length - n.toNat : ℕ) := by omega
      have hfits := h.fits
      have hlen := h.length
      rw [if_neg (by omega), hsub]
      refine returns_bind_of (returns_checked (by omega)) ?_
      rintro _ s' ⟨rfl, rfl⟩
      refine makes_block (fun newbits => rightblt ba.bits newbits n.toNat
        (l.length - n.toNat : ℕ)) List.length_drop (by omega)
        (rightblt_spec (Nat.ne_of_lt h.live) (by omega) ?_ ?_) fun k => ?_
      · rw [h.push]
        omega
      · rw [Heap.push_mem_self, List.length_replicate]
        omega
      · rw [h.push, h.bit, List.getD_eq_getElem?_getD, List.getElem?_drop,
          ← List.getD_eq_getElem?_getD]
        split_ifs with hk
        · rfl
        · exact List.getD_eq_default _ _ (by omega)

/-- **Shifts to the right** are right exactly for the words that are not negative as
signed integers. -/
theorem rshift_w_iff (h : Rep s ba l) :
    Makes (rshift_w ba n) s (l.drop n.toNat) ↔ n.toNat < 2 ^ 62 := by
  refine ⟨fun hm => ?_, rshift_w_spec h⟩
  by_contra hn
  have hneg : n.toInt < 0 := by
    rw [BitVec.toInt_eq_toNat_cond]
    have := n.isLt
    split_ifs <;> omega
  have h0 : n ≠ 0#63 := by
    rintro rfl
    exact absurd hneg (by decide)
  unfold rshift_w at hm
  rw [if_neg h0, h.nbits] at hm
  dsimp only at hm
  rw [if_neg (by omega)] at hm
  obtain ⟨-, hm⟩ := of_checked (returns_bind_iff.mp hm)
  obtain ⟨sz, s1, -, hm⟩ := returns_bind_iff.mp hm
  obtain ⟨newbits, s2, -, hm⟩ := returns_bind_iff.mp hm
  obtain ⟨-, s3, -, ba', s4, hrun, hrep, -⟩ := returns_bind_iff.mp hm
  cases hrun
  have hnbits := hrep.nbits
  have hfits := h.fits
  rw [List.length_drop] at hnbits
  dsimp only at hnbits
  omega

theorem rshift_spec (h : Rep s ba l) {shft : ℤ} (h0 : 0 ≤ shft) (h62 : shft < 2 ^ 62) :
    Makes (rshift ba shft) s (l.drop shft.toNat) := by
  have hw := word_toNat h0 h62
  have hnat : (word shft).toNat = shft.toNat := by omega
  unfold rshift
  rw [if_neg (by omega), ← hnat]
  exact rshift_w_spec h (by omega)

theorem getD_replicate_append (n : ℕ) (l : List Bool) (k : ℕ) :
    (List.replicate n false ++ l).getD k false =
      if n ≤ k ∧ k < n + l.length then l.getD (k - n) false else false := by
  rcases lt_or_ge k n with hlt | hge
  · rw [List.getD_append _ _ _ _ (by rwa [List.length_replicate]), List.getD_replicate _ hlt,
      if_neg (by omega)]
  · rw [List.getD_append_right _ _ _ _ (by rwa [List.length_replicate]), List.length_replicate]
    split_ifs with hk
    · rfl
    · exact List.getD_eq_default _ _ (by omega)

theorem lshift_w_spec (h : Rep s ba l) (hfits : l.length + n.toNat ≤ 2 ^ 59 - 8) :
    Makes (lshift_w ba n) s (List.replicate n.toNat false ++ l) := by
  unfold lshift_w
  by_cases h0 : n = 0#63
  · subst h0
    rw [if_pos rfl]
    exact mkCopy_spec h
  · have hsum : ((l.length : ℤ) + n.toNat) = (n.toNat + l.length : ℕ) := by omega
    have hlen := h.length
    rw [if_neg h0, toInt_of_lt (by omega), h.nbits]
    dsimp only
    rw [hsum]
    refine returns_bind_of (returns_checked (by omega)) ?_
    rintro _ s' ⟨rfl, rfl⟩
    refine makes_block (fun newbits => leftblt ba.bits newbits n.toNat l.length)
      (by rw [List.length_append, List.length_replicate]) (by omega)
      (leftblt_spec (Nat.ne_of_lt h.live) ?_ ?_) fun k => ?_
    · rw [h.push]
      omega
    · rw [Heap.push_mem_self, List.length_replicate]
      omega
    · rw [h.push, h.bit, getD_replicate_append]

/-- **Shifts to the left** are right exactly as long as the result is an array. -/
theorem lshift_w_iff (h : Rep s ba l) :
    Makes (lshift_w ba n) s (List.replicate n.toNat false ++ l) ↔
      l.length + n.toNat ≤ 2 ^ 59 - 8 := by
  refine ⟨?_, lshift_w_spec h⟩
  rintro ⟨ba', s', -, hrep, -⟩
  have hfits := hrep.fits
  rw [List.length_append, List.length_replicate] at hfits
  omega

theorem lshift_iff (h : Rep s ba l) {shft : ℤ} (h0 : 0 ≤ shft) (h62 : shft < 2 ^ 62) :
    Makes (lshift ba shft) s (List.replicate shft.toNat false ++ l) ↔
      l.length + shft.toNat ≤ 2 ^ 59 - 8 := by
  have hw := word_toNat h0 h62
  have hnat : (word shft).toNat = shft.toNat := by omega
  unfold lshift
  rw [if_neg (by omega), ← hnat]
  exact lshift_w_iff h

/-! ### Extensions -/

theorem extend0_spec (h : Rep s ba l) {n : ℕ} (hn : n ≤ 2 ^ 59 - 8) :
    Makes (extend0 ba n) s (l ++ List.replicate (n - l.length) false) := by
  unfold extend0
  rw [h.nbits]
  by_cases hle : n ≤ l.length
  · rw [if_pos (by exact_mod_cast hle), Nat.sub_eq_zero_of_le hle, List.replicate_zero,
      List.append_nil]
    exact mkCopy_spec h
  · have hlen : (l ++ List.replicate (n - l.length) false).length = n := by
      rw [List.length_append, List.length_replicate]
      omega
    rw [if_neg (by omega)]
    refine makes_of_push (by omega) ?_
    refine returns_bind_of (returns_sizeOf (by omega)) ?_
    rintro sz s' ⟨rfl, rfl⟩
    refine returns_bind_of (returns_newArray (by omega) 0#8) ?_
    rintro a s'' ⟨rfl, rfl⟩
    refine returns_bind_of (copybits_new h (by omega)) ?_
    rintro - s'' ⟨b, rfl, hb, hbit⟩
    refine returns_pure ⟨by rw [hlen], b, rfl, by rw [hb, hlen], fun k => ?_⟩
    rw [hbit, getD_append_false]

theorem extend1_last_spec {a n len : ℕ} (hlen : (s.mem a).length = len) (hn : len = (n + 7) / 8)
    (h0 : 0 < n) :
    Returns (extend1.last a len n) s fun _ s' => ∃ b, s' = s.put a b ∧ b.length = len ∧
      ∀ k, bitAt b k = (bitAt (s.mem a) k && decide (k < n)) := by
  unfold extend1.last
  rw [mask7_natCast]
  dsimp only
  by_cases hmod : n % 8 = 0
  · rw [if_pos (by exact_mod_cast hmod)]
    exact returns_pure (masked_self (hlen.trans hn) hmod hlen)
  · have hlast : ((len : ℤ) - 1) = (len - 1 : ℕ) := by omega
    rw [if_neg (by exact_mod_cast hmod), hlast]
    exact mask_last_spec hlen hn hmod

/-- The byte that the old array and the ones may share. -/
theorem extend1_adjust_spec (h : Rep s ba l) {n len : ℕ} {s' : Heap} (hn : len = (n + 7) / 8)
    (hlt : l.length < n)
    (hs' : Copied (s.push (List.replicate len 0xff#8)) s.next (fun k => l.getD k false) 0
      (8 * (l.length / 8)) s') :
    Returns (extend1.adjust ba.bits s.next len (mask7 l.length) n (l.length / 8 : ℕ)) s'
      fun _ s'' => ∃ b, s'' = s.push b ∧ b.length = len ∧
        ∀ k, bitAt b k = ((if k < l.length then l.getD k false else true) && decide (k < n)) := by
  have hne : ba.bits ≠ s.next := Nat.ne_of_lt h.live
  have hsrc : s'.mem ba.bits = s.mem ba.bits := (hs'.mem_src hne).trans (h.push _)
  -- first the shared byte, if there is one
  suffices hshare : Returns (if mask7 l.length = 0 then pure ()
      else do
        let v ← W8A.sub ba.bits (l.length / 8 : ℕ)
        W8A.update s.next (l.length / 8 : ℕ) (v ||| (← hibits (mask7 l.length)))) s'
      fun _ s'' => Copied (s.push (List.replicate len 0xff#8)) s.next (fun k => l.getD k false) 0
        l.length s'' by
    unfold extend1.adjust
    refine returns_bind_of hshare ?_
    rintro - s'' ⟨b, rfl, hb⟩
    rw [Heap.push_put]
    rw [Heap.push_mem_self] at hb
    have hb' : b.length = len := hb.length_eq.trans List.length_replicate
    refine (extend1_last_spec (s := s.push b) (a := s.next)
      (by rw [Heap.push_mem_self, hb']) hn (by omega)).mono ?_
    rintro - s' ⟨c, rfl, hc, hbit⟩
    refine ⟨c, Heap.push_put _ _ _, hc, fun k => ?_⟩
    rw [hbit, Heap.push_mem_self, hb.bit_eq, bitAt_replicate_ones]
    by_cases hk : k < l.length
    · rw [if_pos ⟨Nat.zero_le k, hk⟩, if_pos hk]
    · rw [if_neg fun hc => hk hc.2, if_neg hk, ← Bool.decide_and, Bool.true_and, decide_eq_decide]
      omega
  rw [mask7_natCast]
  by_cases hmod : l.length % 8 = 0
  · rw [if_pos (by exact_mod_cast hmod)]
    have hmul : 8 * (l.length / 8) = l.length := by omega
    rw [hmul] at hs'
    exact returns_pure hs'
  · rw [if_neg (by exact_mod_cast hmod)]
    have hlen := h.length
    have hlt8 : l.length / 8 < (s'.mem s.next).length := by
      rw [hs'.blit.length_eq, Heap.push_mem_self, List.length_replicate]
      omega
    refine sub_bind (by rw [hsrc]; omega) (returns_bind_of (returns_hibits (by omega)) ?_)
    rintro m s'' ⟨hm, rfl⟩
    refine (returns_update hlt8 _).mono ?_
    rintro - s' rfl
    refine hs'.put (hs'.blit.write hlt8 (fun k hk => by omega) fun j hj => ?_)
    rw [BitVec.getLsbD_or, hm j hj, hsrc, getLsbD_getD _ _ hj, h.bit]
    by_cases hjl : j < l.length % 8
    · rw [if_pos (by omega)]
      have hfalse : decide (l.length % 8 ≤ j) = false := decide_eq_false (by omega)
      rw [hfalse, Bool.or_false]
    · rw [if_neg (by omega), Heap.push_mem_self, bitAt_replicate_ones]
      have htrue : decide (l.length % 8 ≤ j) = true := decide_eq_true (by omega)
      have hin : 8 * (l.length / 8) + j < 8 * len := by omega
      rw [htrue, Bool.or_true, decide_eq_true hin]

theorem getD_append_true (l : List Bool) (n k : ℕ) :
    (l ++ List.replicate (n - l.length) true).getD k false =
      ((if k < l.length then l.getD k false else true) && decide (k < max n l.length)) := by
  by_cases hk : k < l.length
  · rw [List.getD_append _ _ _ _ hk, if_pos hk, decide_eq_true (by omega), Bool.and_true]
  · rw [List.getD_append_right _ _ _ _ (by omega), if_neg hk, Bool.true_and]
    by_cases hkn : k < n
    · rw [List.getD_replicate _ (by omega), decide_eq_true (by omega)]
    · rw [List.getD_eq_default _ _ (by rw [List.length_replicate]; omega),
        decide_eq_false (by omega)]

theorem extend1_spec (h : Rep s ba l) {n : ℕ} (hn : n ≤ 2 ^ 59 - 8) :
    Makes (extend1 ba n) s (l ++ List.replicate (n - l.length) true) := by
  unfold extend1
  rw [h.nbits]
  by_cases hle : n ≤ l.length
  · rw [if_pos (by exact_mod_cast hle), Nat.sub_eq_zero_of_le hle, List.replicate_zero,
      List.append_nil]
    exact mkCopy_spec h
  · have hlen : (l ++ List.replicate (n - l.length) true).length = n := by
      rw [List.length_append, List.length_replicate]
      omega
    have hne : ba.bits ≠ s.next := Nat.ne_of_lt h.live
    have hbytes := h.length
    rw [if_neg (by omega)]
    refine makes_of_push (by omega) ?_
    refine returns_bind_of (returns_sizeOf (by omega)) ?_
    rintro sz s' ⟨rfl, rfl⟩
    refine returns_bind_of (returns_newArray (by omega) 0xff#8) ?_
    rintro a s'' ⟨rfl, rfl⟩
    dsimp only
    rw [byteOf_natCast]
    refine returns_bind_of (P := fun _ s'' => ∃ b, s'' = s'.push b ∧ b.length = (n + 7) / 8 ∧
      ∀ k, bitAt b k = ((if k < l.length then l.getD k false else true) && decide (k < n))) ?_ ?_
    · refine returns_upto
        (fun i (_ : Unit) => extend1.cpy ba.bits s'.next ((n + 7) / 8 : ℕ) (l.length / 8 : ℕ)
          (mask7 l.length) n i)
        (fun i _ => do W8A.update s'.next i (← W8A.sub ba.bits i))
        (fun i _ => Copied (s'.push (List.replicate ((n + 7) / 8) 0xff#8)) s'.next
          (fun k => l.getD k false) 0 (8 * i))
        (fun _ => extend1.adjust ba.bits s'.next ((n + 7) / 8 : ℕ) (mask7 l.length) n
          (l.length / 8 : ℕ))
        (n := l.length / 8) (i := 0) (c := ()) ?_ ?_ ?_ (Nat.zero_le _) (.refl _ (by omega))
      · intro i _ _
        rw [extend1.cpy]
        by_cases hi : i = l.length / 8
        · rw [if_pos hi, if_pos (by rw [hi]), hi]
        · rw [if_neg hi, if_neg (by omega), bind_assoc]
          push_cast
          rfl
      · rintro i - s'' hi hc
        have hsrc : s''.mem ba.bits = s'.mem ba.bits := (hc.mem_src hne).trans (h.push _)
        have hlt : i < (s''.mem s'.next).length := by
          rw [hc.blit.length_eq, Heap.push_mem_self, List.length_replicate]
          omega
        refine sub_bind (by rw [hsrc]; omega) ((returns_update hlt _).mono ?_)
        rintro - s3 rfl
        refine hc.put (hc.blit.write_byte (Nat.zero_le _) hlt fun j hj => ?_)
        rw [hsrc, getLsbD_getD _ _ hj, h.bit]
      · rintro - s'' hc
        exact extend1_adjust_spec h rfl (by omega) hc
    · rintro - s'' ⟨b, rfl, hb, hbit⟩
      refine returns_pure ⟨by rw [hlen], b, rfl, by rw [hb, hlen], fun k => ?_⟩
      rw [hbit, getD_append_true, max_eq_left (by omega)]

end SmlNj.BitArray
