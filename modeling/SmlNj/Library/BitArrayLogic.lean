import SmlNj.Library.BitArrayShift

/-!
# Logical operations on arrays of bits

The operations that combine two arrays work on whole bytes, in a new array or in the
first one itself, which may be the second one as well.  Every byte is read before it is
written, so it does not matter which arrays are the same.

## Main definitions

* `BitArray.combine` — two lists, extended by zeros, element by element.
* `BitArray.Updates` — an operation changes one array, and touches no other.

## Main results

* `BitArray.andb_iff`, `BitArray.orBlend_iff` — new arrays.
* `BitArray.union_spec`, `BitArray.intersection_spec`, `BitArray.complement_spec` — in place.
* `BitArray.eqBits_spec` — the comparison.
-/

namespace SmlNj.BitArray

open TotalRun PackedBits

variable {s s' : Heap} {ba ba' : BA} {l l' : List Bool} {r tgt i n : ℕ} {f : ℕ → Bool}
  {lo hi : ℕ}

/-- Two lists, extended by zeros, element by element up to a length. -/
def combine (op : Bool → Bool → Bool) (n : ℕ) (l l' : List Bool) : List Bool :=
  (List.range n).map fun k => op (l.getD k false) (l'.getD k false)

theorem length_combine (op : Bool → Bool → Bool) (n : ℕ) (l l' : List Bool) :
    (combine op n l l').length = n := by simp [combine]

theorem getD_combine (op : Bool → Bool → Bool) (n : ℕ) (l l' : List Bool) (k : ℕ) :
    (combine op n l l').getD k false =
      (decide (k < n) && op (l.getD k false) (l'.getD k false)) := by
  unfold combine
  by_cases hk : k < n
  · rw [List.getD_eq_getElem _ _ (by simpa using hk), List.getElem_map, List.getElem_range,
      decide_eq_true hk, Bool.true_and]
  · rw [List.getD_eq_default _ _ (by simpa using hk), decide_eq_false hk, Bool.false_and]

/-! ### Reading and writing in the same array -/

theorem Copied.getD_eq (h : Copied s tgt f 0 (8 * i) s') (r : ℕ) :
    (s'.mem r).getD i 0#8 = (s.mem r).getD i 0#8 := by
  rcases eq_or_ne r tgt with rfl | hne
  · refine BitVec.eq_of_getLsbD_eq fun j hj => ?_
    rw [getLsbD_getD _ _ hj, getLsbD_getD _ _ hj, h.blit.bit_eq, if_neg (by omega)]
  · rw [h.mem_src hne]

theorem Copied.length_eq (h : Copied s tgt f lo hi s') (r : ℕ) :
    (s'.mem r).length = (s.mem r).length := by
  rcases eq_or_ne r tgt with rfl | hne
  · exact h.blit.length_eq
  · rw [h.mem_src hne]

theorem Copied.update_byte (h : Copied s tgt f 0 (8 * i) s') (hlt : i < (s.mem tgt).length)
    {v : BitVec 8} (hv : ∀ j < 8, v.getLsbD j = f (8 * i + j)) :
    Returns (W8A.update tgt i v) s' fun _ s'' => Copied s tgt f 0 (8 * (i + 1)) s'' := by
  have hlt' : i < (s'.mem tgt).length := by rwa [h.length_eq]
  refine (returns_update hlt' v).mono ?_
  rintro - s'' rfl
  exact h.put (h.blit.write_byte (Nat.zero_le _) hlt' hv)

theorem Copied.sub_bind {β : Type} (h : Copied s tgt f 0 (8 * i) s') (hlt : i < (s.mem r).length)
    {g : BitVec 8 → Exec β} {Q : β → Heap → Prop}
    (hg : Returns (g ((s.mem r).getD i 0#8)) s' Q) : Returns (W8A.sub r i >>= g) s' Q := by
  refine BitArray.sub_bind (by rwa [h.length_eq]) ?_
  rwa [h.getD_eq]

theorem Copied.raises_sub {β : Type} (h : Copied s tgt f 0 (8 * i) s') (hge : (s.mem r).length ≤ i)
    (g : BitVec 8 → Exec β) :
    Raises (W8A.sub r i >>= g) s' fun _ s'' => Copied s tgt f 0 (8 * i) s'' := by
  refine raises_bind ((BitArray.raises_sub ?_).mono ?_)
  · rw [h.length_eq]
    omega
  · rintro e s'' ⟨-, rfl⟩
    exact h

theorem Copied.raises_update (h : Copied s tgt f 0 (8 * i) s') (hge : (s.mem tgt).length ≤ i)
    (v : BitVec 8) :
    Raises (W8A.update tgt i v) s' fun _ s'' => Copied s tgt f 0 (8 * i) s'' := by
  refine (BitArray.raises_update ?_ v).mono ?_
  · rw [h.length_eq]
    omega
  · rintro e s'' ⟨-, rfl⟩
    exact h

theorem returns_length (a : ℕ) :
    Returns (W8A.length a) s fun len s' => len = (s.mem a).length ∧ s' = s :=
  ⟨(s.mem a).length, s, rfl, rfl, rfl⟩

/-- **`trim`** clears the bits beyond a length in the last byte. -/
theorem trim_spec (hlen : (s.mem tgt).length = (n + 7) / 8) :
    Returns (trim tgt n) s fun _ s' => ∃ b, s' = s.put tgt b ∧ b.length = (s.mem tgt).length ∧
      ∀ k, bitAt b k = (bitAt (s.mem tgt) k && decide (k < n)) := by
  unfold trim
  rw [mask7_natCast]
  by_cases hmod : n % 8 = 0
  · rw [if_pos (by exact_mod_cast hmod)]
    exact returns_pure (masked_self hlen hmod rfl)
  · have hlast : (((s.mem tgt).length : ℤ) - 1) = ((s.mem tgt).length - 1 : ℕ) := by omega
    rw [if_neg (by exact_mod_cast hmod)]
    refine returns_bind_of (returns_length tgt) ?_
    rintro len s' ⟨rfl, rfl⟩
    rw [hlast]
    exact mask_last_spec rfl hlen hmod

theorem trim_bytes (s : Heap) (tgt m : ℕ) :
    Returns (trim tgt (m * 8 : ℤ)) s fun _ s' => s' = s := by
  have hcast : ((m : ℤ) * 8) = (m * 8 : ℕ) := by push_cast; rfl
  unfold trim
  rw [hcast, mask7_natCast, Nat.mul_mod_left]
  exact returns_pure rfl

/-! ### The loops for two arrays -/

def Blended (s : Heap) (op : Bool → Bool → Bool) (r r' tgt m : ℕ) (s' : Heap) : Prop :=
  Copied s tgt (fun k => op (bitAt (s.mem r) k) (bitAt (s.mem r') k)) 0 (8 * m) s'

def Bitwise (f : BitVec 8 → BitVec 8 → BitVec 8) (op : Bool → Bool → Bool) : Prop :=
  ∀ x y : BitVec 8, ∀ j < 8, (f x y).getLsbD j = op (x.getLsbD j) (y.getLsbD j)

variable {g : BitVec 8 → BitVec 8 → BitVec 8} {op : Bool → Bool → Bool} {r' : ℕ}

theorem Bitwise.byte (h : Bitwise g op) (r r' i : ℕ) : ∀ j < 8,
    (g ((s.mem r).getD i 0#8) ((s.mem r').getD i 0#8)).getLsbD j =
      op (bitAt (s.mem r) (8 * i + j)) (bitAt (s.mem r') (8 * i + j)) := by
  intro j hj
  rw [h _ _ j hj, getLsbD_getD _ _ hj, getLsbD_getD _ _ hj]

theorem bitwise_and : Bitwise (· &&& ·) (· && ·) := fun _ _ _ _ => BitVec.getLsbD_and

theorem bitwise_or : Bitwise (· ||| ·) (· || ·) := fun _ _ _ _ => BitVec.getLsbD_or

theorem bitwise_xor : Bitwise (· ^^^ ·) (· ^^ ·) := fun _ _ _ _ => BitVec.getLsbD_xor

theorem andBlend_copy_spec (s : Heap) (r r' tgt : ℕ) :
    Raises (andBlend.copy r r' tgt 0) s fun _ s' => Blended s (· && ·) r r' tgt
      (min (min (s.mem r).length (s.mem r').length) (s.mem tgt).length) s' := by
  refine raises_at (fun i (_ : Unit) => andBlend.copy r r' tgt i)
    (fun i _ => do
      let b ← W8A.sub r i
      let b' ← W8A.sub r' i
      W8A.update tgt i (b &&& b'))
    (fun i _ => Blended s (· && ·) r r' tgt i)
    (n := min (min (s.mem r).length (s.mem r').length) (s.mem tgt).length) (i := 0) (c := ())
    ?_ ?_ ?_ (Nat.zero_le _) (.refl _ (by omega))
  · intro i _
    rw [andBlend.copy]
    simp only [bind_assoc]
    rfl
  · rintro i - s' hi h
    exact h.sub_bind (by omega) (h.sub_bind (by omega)
      (h.update_byte (by omega) (bitwise_and.byte r r' i)))
  · rintro - s' h
    by_cases hr : (s.mem r).length ≤ min (min (s.mem r).length (s.mem r').length) (s.mem tgt).length
    · exact h.raises_sub hr _
    · refine raises_bind_of (returns_sub (by rw [h.length_eq]; omega)) ?_
      rintro v s' ⟨-, rfl⟩
      by_cases hr' : (s.mem r').length ≤
          min (min (s.mem r).length (s.mem r').length) (s.mem tgt).length
      · exact h.raises_sub hr' _
      · refine raises_bind_of (returns_sub (by rw [h.length_eq]; omega)) ?_
        rintro v' s' ⟨-, rfl⟩
        exact h.raises_update (by omega) _

/-- The loops of `orBlend` run to the end of the longer array, or of the target.  Beyond
the shorter array the operation does nothing. -/
theorem orBlend_copy_spec (hg : Bitwise g op) (hop : ∀ b, op b false = b) {r : ℕ}
    (hle : (s.mem r').length ≤ (s.mem r).length) (tgt : ℕ) :
    Raises (orBlend.copy1 g r r' tgt (s.mem r').length 0) s fun _ s' =>
      Blended s op r r' tgt (min (s.mem r).length (s.mem tgt).length) s' := by
  set bnd := (s.mem r').length with hbnd
  have key := raises_at (s := s)
    (fun i (_ : Unit) => if i ≤ bnd then orBlend.copy1 g r r' tgt bnd i else orBlend.copy2 r tgt i)
    (fun i _ => if i < bnd then do
        let b ← W8A.sub r i
        let b' ← W8A.sub r' i
        W8A.update tgt i (g b b')
      else do W8A.update tgt i (← W8A.sub r i))
    (fun i _ => Blended s op r r' tgt i)
    (Q := fun _ s' => Blended s op r r' tgt (min (s.mem r).length (s.mem tgt).length) s')
    (n := min (s.mem r).length (s.mem tgt).length) (i := 0) (c := ()) ?_ ?_ ?_ (Nat.zero_le _)
    (.refl _ (by omega))
  · rw [if_pos (Nat.zero_le bnd)] at key
    exact key
  · intro i _
    rcases lt_trichotomy i bnd with hlt | heq | hgt
    · rw [if_pos hlt.le, if_pos hlt, if_pos (by omega), orBlend.copy1, if_neg (by omega)]
      simp only [bind_assoc]
      rfl
    · rw [if_pos heq.le, if_neg (by omega), if_neg (by omega), orBlend.copy1, heq, orBlend.copy2]
      simp only [bind_assoc]
      rfl
    · rw [if_neg (by omega), if_neg (by omega), if_neg (by omega), orBlend.copy2]
      simp only [bind_assoc]
      rfl
  · rintro i - s' hi h
    by_cases hlt : i < bnd
    · rw [if_pos hlt]
      exact h.sub_bind (by omega) (h.sub_bind hlt (h.update_byte (by omega) (hg.byte r r' i)))
    · rw [if_neg hlt]
      refine h.sub_bind (by omega) (h.update_byte (by omega) fun j hj => ?_)
      rw [getLsbD_getD _ _ hj, bitAt_eq_false (show 8 * (s.mem r').length ≤ 8 * i + j by omega), hop]
  · rintro - s' h
    by_cases hlt : min (s.mem r).length (s.mem tgt).length < bnd
    · rw [if_pos hlt]
      refine raises_bind_of (returns_sub (by rw [h.length_eq]; omega)) ?_
      rintro v s' ⟨-, rfl⟩
      refine raises_bind_of (returns_sub (by rw [h.length_eq]; omega)) ?_
      rintro v' s' ⟨-, rfl⟩
      exact h.raises_update (by omega) _
    · rw [if_neg hlt]
      by_cases hr : (s.mem r).length ≤ min (s.mem r).length (s.mem tgt).length
      · exact h.raises_sub hr _
      · refine raises_bind_of (returns_sub (by rw [h.length_eq]; omega)) ?_
        rintro v s' ⟨-, rfl⟩
        exact h.raises_update (by omega) _

/-! ### New arrays -/

theorem trim_blended {r m : ℕ} {copy : Exec Unit} (hlen : (s.mem tgt).length = (n + 7) / 8)
    (hzero : ∀ k, bitAt (s.mem tgt) k = false) (hr : ∀ k, bitAt (s.mem r) k = l.getD k false)
    (hr' : ∀ k, bitAt (s.mem r') k = l'.getD k false)
    (hcopy : Raises copy s fun _ s' => Blended s op r r' tgt m s')
    (hout : ∀ k < n, 8 * m ≤ k → op (l.getD k false) (l'.getD k false) = false) :
    Returns (do
      tryCatch copy fun _ => pure ()
      trim tgt n) s fun _ s' => ∃ c, s' = s.put tgt c ∧ c.length = (n + 7) / 8 ∧
        ∀ k, bitAt c k = (combine op n l l').getD k false := by
  refine returns_bind_of (returns_handle hcopy fun e s' hs' => returns_pure (Q := fun _ s' =>
    Blended s op r r' tgt m s') hs') ?_
  rintro - s' ⟨b, rfl, hb⟩
  refine (trim_spec (by rw [Heap.put_mem_self, hb.length_eq, hlen])).mono ?_
  rintro - s' ⟨c, rfl, hc, hbit⟩
  rw [Heap.put_put]
  refine ⟨c, rfl, ?_, fun k => ?_⟩
  · rw [hc, Heap.put_mem_self, hb.length_eq, hlen]
  · rw [hbit, Heap.put_mem_self, hb.bit_eq, hzero, hr, hr', getD_combine, Bool.and_comm]
    by_cases hk : k < n
    · rw [decide_eq_true hk]
      split_ifs with hm
      · rfl
      · exact (hout k hk (by omega)).symm
    · rw [decide_eq_false hk, Bool.false_and, Bool.false_and]

theorem newblend_iff {blendf : BA → BA → ℕ → ℤ → Exec Unit} {z : Heap}
    (hz : z = s.push (List.replicate ((n + 7) / 8) 0#8))
    (hblend : n ≤ 2 ^ 59 - 8 → Returns (blendf ba ba' s.next n) z fun _ s' =>
      ∃ c, s' = z.put s.next c ∧ c.length = (n + 7) / 8 ∧
        ∀ k, bitAt c k = (combine op n l l').getD k false) :
    Makes (newblend blendf ba ba' n) s (combine op n l l') ↔ n ≤ 2 ^ 59 - 8 := by
  have hlen := length_combine op n l l'
  refine ⟨fun hm => ?_, fun hn => ?_⟩
  · have := hm.length_le
    rwa [hlen] at this
  · refine makes_of_push (by omega) ?_
    refine returns_bind_of (array_spec hn) ?_
    rintro nb s' ⟨rfl, rfl⟩
    rw [hz] at hblend
    refine returns_bind_of (hblend hn) ?_
    rintro - s' ⟨c, rfl, hc, hbit⟩
    rw [Heap.push_put]
    exact returns_pure ⟨by rw [hlen], c, rfl, by rw [hc, hlen], hbit⟩

theorem Rep.getD_false (h : Rep s ba l) {k : ℕ} (hk : 8 * (s.mem ba.bits).length ≤ k) :
    l.getD k false = false := by
  rw [← h.bit]
  exact bitAt_eq_false hk

/-- **And**, into a new array. -/
theorem andb_iff (h : Rep s ba l) (h' : Rep s ba' l') (n : ℕ) :
    Makes (andb ba ba' n) s (combine (· && ·) n l l') ↔ n ≤ 2 ^ 59 - 8 := by
  refine newblend_iff rfl fun hn => ?_
  have hp := h.of_push (List.replicate ((n + 7) / 8) 0#8)
  have hp' := h'.of_push (List.replicate ((n + 7) / 8) 0#8)
  have hlen : ((s.push (List.replicate ((n + 7) / 8) 0#8)).mem s.next).length = (n + 7) / 8 := by
    rw [Heap.push_mem_self, List.length_replicate]
  refine trim_blended hlen (fun k => by rw [Heap.push_mem_self, bitAt_replicate_zero]) hp.bit
    hp'.bit (andBlend_copy_spec _ _ _ _) fun k hk hm => ?_
  rcases Nat.lt_or_ge k (8 * (s.mem ba.bits).length) with hlt | hge
  · rw [h'.getD_false, Bool.and_false]
    rw [h.push, h'.push] at hm
    omega
  · rw [h.getD_false hge, Bool.false_and]

theorem order_spec (h : Rep s ba l) (h' : Rep s ba' l') :
    (order ba ba' = (ba, ba') ∧ (s.mem ba'.bits).length ≤ (s.mem ba.bits).length) ∨
      (order ba ba' = (ba', ba) ∧ (s.mem ba.bits).length ≤ (s.mem ba'.bits).length) := by
  have hn := h.nbits
  have hn' := h'.nbits
  have hlen := h.length
  have hlen' := h'.length
  by_cases hge : ba.nbits ≥ ba'.nbits
  · exact .inl ⟨if_pos hge, by omega⟩
  · exact .inr ⟨if_neg hge, by omega⟩

theorem orBlend_aux (hg : Bitwise g op) (hop : ∀ b, op b false = b) (h : Rep s ba l)
    (h' : Rep s ba' l') (hle : (s.mem ba'.bits).length ≤ (s.mem ba.bits).length)
    (hlen : (s.mem tgt).length = (n + 7) / 8) (hzero : ∀ k, bitAt (s.mem tgt) k = false) :
    Returns (do
      let bnd ← W8A.length ba'.bits
      tryCatch (orBlend.copy1 g ba.bits ba'.bits tgt bnd 0) fun _ => pure ()
      trim tgt n) s fun _ s' => ∃ c, s' = s.put tgt c ∧ c.length = (n + 7) / 8 ∧
        ∀ k, bitAt c k = (combine op n l l').getD k false := by
  refine returns_bind_of (returns_length _) ?_
  rintro bnd s' ⟨rfl, rfl⟩
  refine trim_blended hlen hzero h.bit h'.bit (orBlend_copy_spec hg hop hle tgt) fun k hk hm => ?_
  rw [h.getD_false (by omega), h'.getD_false (by omega), hop]

/-- **Or, and exclusive or**, into a new array. -/
theorem orBlend_iff (hg : Bitwise g op) (hop : ∀ b, op b false = b) (hcomm : ∀ b c, op b c = op c b)
    (h : Rep s ba l) (h' : Rep s ba' l') (n : ℕ) :
    Makes (newblend (orBlend g) ba ba' n) s (combine op n l l') ↔ n ≤ 2 ^ 59 - 8 := by
  refine newblend_iff rfl fun hn => ?_
  have hp := h.of_push (List.replicate ((n + 7) / 8) 0#8)
  have hp' := h'.of_push (List.replicate ((n + 7) / 8) 0#8)
  have hlen : ((s.push (List.replicate ((n + 7) / 8) 0#8)).mem s.next).length = (n + 7) / 8 := by
    rw [Heap.push_mem_self, List.length_replicate]
  have hzero : ∀ k, bitAt ((s.push (List.replicate ((n + 7) / 8) 0#8)).mem s.next) k = false := by
    intro k
    rw [Heap.push_mem_self, bitAt_replicate_zero]
  unfold orBlend
  rcases order_spec hp hp' with ⟨hord, hle⟩ | ⟨hord, hle⟩
  · rw [hord]
    exact orBlend_aux hg hop hp hp' hle hlen hzero
  · have hswap : combine op n l l' = combine op n l' l := by
      unfold combine
      simp [hcomm]
    rw [hord, hswap]
    exact orBlend_aux hg hop hp' hp hle hlen hzero

theorem orb_iff (h : Rep s ba l) (h' : Rep s ba' l') (n : ℕ) :
    Makes (orb ba ba' n) s (combine (· || ·) n l l') ↔ n ≤ 2 ^ 59 - 8 :=
  orBlend_iff bitwise_or Bool.or_false Bool.or_comm h h' n

theorem xorb_iff (h : Rep s ba l) (h' : Rep s ba' l') (n : ℕ) :
    Makes (xorb ba ba' n) s (combine (· ^^ ·) n l l') ↔ n ≤ 2 ^ 59 - 8 :=
  orBlend_iff bitwise_xor Bool.xor_false Bool.xor_comm h h' n

/-! ### Operations in place -/

def Updates (m : Exec Unit) (s : Heap) (ba : BA) (l : List Bool) : Prop :=
  Returns m s fun _ s' => Rep s' ba l ∧ s'.next = s.next ∧ ∀ r ≠ ba.bits, s'.mem r = s.mem r

theorem Rep.put {lnew : List Bool} {b : List (BitVec 8)} (h : Rep s ba l)
    (hlen : lnew.length = l.length) (hb : b.length = (l.length + 7) / 8)
    (hbit : ∀ k, bitAt b k = lnew.getD k false) : Rep (s.put ba.bits b) ba lnew := by
  refine ⟨by rw [h.nbits, hlen], h.live, by rw [hlen]; exact h.fits, ?_, fun k => ?_⟩
  · rw [Heap.put_mem_self, hb, hlen]
  · rw [Heap.put_mem_self, hbit]

theorem updates_of_put {m : Exec Unit} {lnew : List Bool} (h : Rep s ba l)
    (hlen : lnew.length = l.length)
    (hm : Returns m s fun _ s' => ∃ b, s' = s.put ba.bits b ∧ b.length = (l.length + 7) / 8 ∧
      ∀ k, bitAt b k = lnew.getD k false) : Updates m s ba lnew := by
  refine hm.mono ?_
  rintro - s' ⟨b, rfl, hb, hbit⟩
  exact ⟨h.put hlen hb hbit, rfl, fun r hr => Heap.put_mem_of_ne hr b⟩

theorem union_loop_spec {r m : ℕ} (hr : m ≤ (s.mem r).length) (hr' : m ≤ (s.mem r').length) :
    Returns (union.loop r r' m 0) s fun _ s' => Blended s (· || ·) r r' r m s' := by
  refine returns_upto (fun i (_ : Unit) => union.loop r r' m i)
    (fun i _ => do
      let b ← W8A.sub r i
      let b' ← W8A.sub r' i
      W8A.update r i (b ||| b'))
    (fun i _ => Blended s (· || ·) r r' r i) (fun _ => pure ()) (n := m) (i := 0) (c := ())
    ?_ ?_ ?_ (Nat.zero_le m) (.refl _ (by omega))
  · intro i _ _
    rw [union.loop]
    by_cases hi : i = m
    · rw [if_pos hi, if_pos (by rw [hi])]
    · rw [if_neg hi, if_neg (by omega)]
      simp only [bind_assoc]
      rfl
  · rintro i - s' hi h
    exact h.sub_bind (by omega) (h.sub_bind (by omega)
      (h.update_byte (by omega) (bitwise_or.byte r r' i)))
  · exact fun _ s' h => returns_pure h

/-- **Union** in place; the second array may be the first one. -/
theorem union_spec (h : Rep s ba l) (h' : Rep s ba' l') :
    Updates (union ba ba') s ba (combine (· || ·) l.length l l') := by
  have hlen := h.length
  refine updates_of_put h (length_combine _ _ _ _) ?_
  refine returns_bind_of (returns_length _) ?_
  rintro nbytes s' ⟨rfl, rfl⟩
  refine returns_bind_of (returns_length _) ?_
  rintro nbytes' s'' ⟨rfl, rfl⟩
  by_cases hle : (s''.mem ba.bits).length ≤ (s''.mem ba'.bits).length
  · rw [if_pos (by exact_mod_cast hle), h.nbits]
    refine returns_bind_of (union_loop_spec le_rfl hle) ?_
    rintro - s1 ⟨b, rfl, hb⟩
    refine (trim_spec (by rw [Heap.put_mem_self, hb.length_eq, hlen])).mono ?_
    rintro - s2 ⟨c, rfl, hc, hbit⟩
    refine ⟨c, Heap.put_put _ _ _ _, ?_, fun k => ?_⟩
    · rw [hc, Heap.put_mem_self, hb.length_eq, hlen]
    · rw [hbit, Heap.put_mem_self, hb.bit_eq, h.bit, h'.bit, getD_combine, Bool.and_comm]
      by_cases hk : k < l.length
      · rw [if_pos (by omega)]
      · rw [decide_eq_false hk, Bool.false_and, Bool.false_and]
  · rw [if_neg (by exact_mod_cast hle)]
    refine (union_loop_spec (by omega) le_rfl).mono ?_
    rintro - s1 ⟨b, rfl, hb⟩
    refine ⟨b, rfl, hb.length_eq.trans hlen, fun k => ?_⟩
    rw [hb.bit_eq, h.bit, h'.bit, getD_combine]
    by_cases hk : k < 8 * (s''.mem ba'.bits).length
    · rw [if_pos ⟨Nat.zero_le k, hk⟩, decide_eq_true (by omega), Bool.true_and]
    · rw [if_neg fun hc => hk hc.2, h'.getD_false (by omega), Bool.or_false]
      by_cases hkl : k < l.length
      · rw [decide_eq_true hkl, Bool.true_and]
      · rw [List.getD_eq_default _ _ (by omega), Bool.and_false]

theorem zeroFrom_spec {a i : ℕ} (hi : i ≤ (s.mem a).length) :
    Raises (intersection.zeroFrom a i) s fun _ s' =>
      Copied s a (fun _ => false) (8 * i) (8 * (s.mem a).length) s' := by
  refine raises_at (fun j (_ : Unit) => intersection.zeroFrom a j)
    (fun j _ => W8A.update a j 0#8)
    (fun j _ s' => i ≤ j ∧ Copied s a (fun _ => false) (8 * i) (8 * j) s')
    (n := (s.mem a).length) (i := i) (c := ()) ?_ ?_ ?_ hi ⟨le_rfl, .refl _ le_rfl⟩
  · intro j _
    rw [intersection.zeroFrom]
    rfl
  · rintro j - s' hj ⟨hij, h⟩
    have hlt : j < (s'.mem a).length := by rwa [h.length_eq]
    refine (returns_update hlt _).mono ?_
    rintro - s'' rfl
    refine ⟨by omega, h.put (h.blit.write_byte (by omega) hlt fun k _ => ?_)⟩
    exact BitVec.getLsbD_zero
  · rintro - s' ⟨-, h⟩
    refine (raises_update ?_ _).mono ?_
    · rw [h.length_eq]
      omega
    · rintro e s'' ⟨-, rfl⟩
      exact h

/-- **Intersection** in place. -/
theorem intersection_spec (h : Rep s ba l) (h' : Rep s ba' l') :
    Updates (intersection ba ba') s ba (combine (· && ·) l.length l l') := by
  have hlen := h.length
  have hcopy := andBlend_copy_spec s ba.bits ba'.bits ba.bits
  refine updates_of_put h (length_combine _ _ _ _) ?_
  refine returns_bind_of (returns_length _) ?_
  rintro nbytes s' ⟨rfl, rfl⟩
  refine returns_bind_of (returns_length _) ?_
  rintro nbytes' s'' ⟨rfl, rfl⟩
  unfold andBlend
  by_cases hle : (s''.mem ba.bits).length ≤ (s''.mem ba'.bits).length
  · have hmin : min (min (s''.mem ba.bits).length (s''.mem ba'.bits).length)
        (s''.mem ba.bits).length = (s''.mem ba.bits).length := by omega
    rw [if_pos (by exact_mod_cast hle)]
    refine returns_bind_of (returns_handle hcopy fun e s' hs' => returns_pure (Q := fun _ s' =>
      Blended s'' (· && ·) ba.bits ba'.bits ba.bits _ s') hs') ?_
    rintro - s1 ⟨b, rfl, hb⟩
    refine (trim_bytes _ _ _).mono ?_
    rintro - s2 rfl
    refine ⟨b, rfl, hb.length_eq.trans hlen, fun k => ?_⟩
    rw [hb.bit_eq, h.bit, h'.bit, getD_combine]
    by_cases hk : k < l.length
    · rw [if_pos (by omega), decide_eq_true hk, Bool.true_and]
    · rw [List.getD_eq_default l _ (by omega), Bool.false_and, Bool.and_false]
      exact ite_self false
  · have hmin : min (min (s''.mem ba.bits).length (s''.mem ba'.bits).length)
        (s''.mem ba.bits).length = (s''.mem ba'.bits).length := by omega
    rw [if_neg (by exact_mod_cast hle), bind_assoc]
    refine returns_bind_of (returns_handle hcopy fun e s' hs' => returns_pure (Q := fun _ s' =>
      Blended s'' (· && ·) ba.bits ba'.bits ba.bits _ s') hs') ?_
    rintro - s1 ⟨b, rfl, hb⟩
    rw [hmin] at hb
    refine returns_bind_of (trim_bytes _ _ _) ?_
    rintro - s2 rfl
    refine returns_handle (zeroFrom_spec (s := s''.put ba.bits b) (a := ba.bits) ?_) ?_
    · rw [Heap.put_mem_self, hb.length_eq]
      omega
    · rintro e s3 ⟨c, rfl, hc⟩
      rw [Heap.put_mem_self, hb.length_eq] at hc
      refine returns_pure ⟨c, Heap.put_put _ _ _ _, ?_, fun k => ?_⟩
      · rw [hc.length_eq, hb.length_eq, hlen]
      · rw [hc.bit_eq, hb.bit_eq, h.bit, h'.bit, getD_combine]
        by_cases hk : k < 8 * (s''.mem ba'.bits).length
        · rw [if_neg (by omega), if_pos ⟨Nat.zero_le k, hk⟩, decide_eq_true (by omega),
            Bool.true_and]
        · rw [h'.getD_false (by omega), Bool.and_false, Bool.and_false]
          by_cases hk' : k < 8 * (s''.mem ba.bits).length
          · rw [if_pos (by omega)]
          · rw [if_neg (by omega), if_neg (by omega), h.getD_false (by omega)]

/-! ### Inversion -/

/-- The bits are inverted; source and target may be the same. -/
theorem flip_spec {src : ℕ} (hsrc : (s.mem src).length = (n + 7) / 8)
    (htgt : (s.mem tgt).length = (n + 7) / 8) :
    Returns (flip n src tgt) s fun _ s' => Copied s tgt
      (fun k => decide (k < n) && !bitAt (s.mem src) k) 0 (8 * ((n + 7) / 8)) s' := by
  unfold flip
  rw [mask7_natCast]
  have hnot : ∀ v : BitVec 8, ∀ j < 8, (~~~v).getLsbD j = !v.getLsbD j := by
    intro v j hj
    simp [hj]
  refine returns_upto (fun i (_ : Unit) => flip.flp src tgt (n / 8 : ℕ) (n % 8 : ℕ) i)
    (fun i _ => do
      let v ← W8A.sub src i
      W8A.update tgt i (~~~v &&& 0xff#8))
    (fun i _ => Copied s tgt (fun k => decide (k < n) && !bitAt (s.mem src) k) 0 (8 * i))
    (fun _ => if ((n % 8 : ℕ) : ℤ) = 0 then pure ()
      else do
        let v ← W8A.sub src (n / 8 : ℕ)
        W8A.update tgt (n / 8 : ℕ) (~~~v &&& (← lobits (n % 8 : ℕ))))
    (n := n / 8) (i := 0) (c := ()) ?_ ?_ ?_ (Nat.zero_le _) (.refl _ (by omega))
  · intro i _ _
    rw [flip.flp]
    by_cases hi : i = n / 8
    · rw [if_pos hi, if_pos (by rw [hi]), hi]
    · rw [if_neg hi, if_neg (by omega), bind_assoc]
      rfl
  · rintro i - s' hi h
    refine h.sub_bind (by omega) (h.update_byte (by omega) fun j hj => ?_)
    rw [show (~~~(s.mem src).getD i 0#8) &&& 0xff#8 = ~~~(s.mem src).getD i 0#8 from
      BitVec.and_allOnes, hnot _ j hj, getLsbD_getD _ _ hj, decide_eq_true (by omega),
      Bool.true_and]
  · rintro - s' h
    by_cases hmod : n % 8 = 0
    · have heq : 8 * ((n + 7) / 8) = 8 * (n / 8) := by omega
      rw [if_pos (by exact_mod_cast hmod), heq]
      exact returns_pure h
    · have heq : 8 * ((n + 7) / 8) = 8 * (n / 8 + 1) := by omega
      rw [if_neg (by exact_mod_cast hmod), heq]
      refine h.sub_bind (by omega) (returns_bind_of (returns_lobits (by omega)) ?_)
      rintro m s'' ⟨hm, rfl⟩
      refine h.update_byte (by omega) fun j hj => ?_
      rw [BitVec.getLsbD_and, hnot _ j hj, hm j hj, getLsbD_getD _ _ hj, Bool.and_comm]
      congr 1
      rw [decide_eq_decide]
      omega

theorem getD_map_not (l : List Bool) (k : ℕ) :
    (l.map not).getD k false = (decide (k < l.length) && !l.getD k false) := by
  by_cases hk : k < l.length
  · rw [List.getD_eq_getElem _ _ (by simpa using hk), List.getElem_map, decide_eq_true hk,
      Bool.true_and, List.getD_eq_getElem _ _ hk]
  · rw [List.getD_eq_default _ _ (by simpa using hk), decide_eq_false hk, Bool.false_and]

theorem notb_spec (h : Rep s ba l) : Makes (notb ba) s (l.map not) := by
  have hlen : (l.map not).length = l.length := List.length_map _
  refine makes_of_push (by rw [hlen]; exact h.fits) ?_
  unfold notb
  rw [h.nbits]
  refine returns_bind_of (array_spec h.fits) ?_
  rintro ba' s' ⟨rfl, rfl⟩
  refine returns_bind_of (flip_spec (by rw [h.push, h.length])
    (by rw [Heap.push_mem_self, List.length_replicate])) ?_
  rintro - s' ⟨b, rfl, hb⟩
  rw [Heap.push_mem_self, h.push] at hb
  refine returns_pure ⟨by rw [hlen], b, Heap.push_put _ _ _, ?_, fun k => ?_⟩
  · rw [hb.length_eq, List.length_replicate, hlen]
  · rw [hb.bit_eq, h.bit, bitAt_replicate_zero, getD_map_not]
    by_cases hk : k < l.length
    · rw [if_pos (by omega)]
    · rw [decide_eq_false hk, Bool.false_and, ite_self]

theorem complement_spec (h : Rep s ba l) : Updates (complement ba) s ba (l.map not) := by
  refine updates_of_put h (List.length_map _) ?_
  unfold complement
  rw [h.nbits]
  refine (flip_spec h.length h.length).mono ?_
  rintro - s' ⟨b, rfl, hb⟩
  refine ⟨b, rfl, hb.length_eq.trans h.length, fun k => ?_⟩
  rw [hb.bit_eq, h.bit, getD_map_not]
  by_cases hk : k < l.length
  · rw [if_pos (by omega)]
  · rw [decide_eq_false hk, Bool.false_and, List.getD_eq_default _ _ (by omega), ite_self]

/-! ### The comparison -/

/-- What the loops of `eqBits` have found out when they end: either a difference, or, by
an exception, that there is none. -/
def Found (s : Heap) (P : Prop) (o : Except Exn Bool) (s' : Heap) : Prop :=
  s' = s ∧ match o with
    | .ok b => b = false ∧ ¬ P
    | .error _ => P

theorem byte_eq_zero (bytes : List (BitVec 8)) (i : ℕ) :
    bytes.getD i 0#8 = 0#8 ↔ ∀ k, k / 8 = i → bitAt bytes k = false := by
  constructor
  · intro h k hk
    unfold bitAt
    rw [hk, h]
    exact BitVec.getLsbD_zero
  · intro h
    refine BitVec.eq_of_getLsbD_eq fun j hj => ?_
    rw [getLsbD_getD _ _ hj, h _ (by omega)]
    exact BitVec.getLsbD_zero.symm

theorem byte_eq_byte (bytes bytes' : List (BitVec 8)) (i : ℕ) :
    bytes.getD i 0#8 = bytes'.getD i 0#8 ↔ ∀ k, k / 8 = i → bitAt bytes k = bitAt bytes' k := by
  constructor
  · intro h k hk
    unfold bitAt
    rw [hk, h]
  · intro h
    refine BitVec.eq_of_getLsbD_eq fun j hj => ?_
    rw [getLsbD_getD _ _ hj, getLsbD_getD _ _ hj, h _ (by omega)]

theorem iszero_spec (hi : i ≤ (s.mem r).length) :
    Outcome (eqBits.iszero r i) s (Found s (∀ k, 8 * i ≤ k → bitAt (s.mem r) k = false)) := by
  induction hd : (s.mem r).length - i generalizing i with
  | zero =>
    rw [eqBits.iszero]
    refine (raises_bind ((raises_sub (by omega)).mono ?_)).outcome
    rintro e s' ⟨-, rfl⟩
    exact ⟨rfl, fun k hk => bitAt_eq_false (by omega)⟩
  | succ d ih =>
    rw [eqBits.iszero]
    refine outcome_bind_of (returns_sub (by omega)) ?_
    rintro v s' ⟨rfl, rfl⟩
    have hbyte := byte_eq_zero (s'.mem r) i
    by_cases hv : (s'.mem r).getD i 0#8 = 0#8
    · have hcast : ((i : ℤ) + 1) = (i + 1 : ℕ) := by push_cast; rfl
      have hiff : (∀ k, 8 * i ≤ k → bitAt (s'.mem r) k = false) ↔
          ∀ k, 8 * (i + 1) ≤ k → bitAt (s'.mem r) k = false := by
        refine ⟨fun h k hk => h k (by omega), fun h k hk => ?_⟩
        rcases Nat.lt_or_ge k (8 * (i + 1)) with hlt | hge
        · exact hbyte.mp hv k (by omega)
        · exact h k hge
      rw [if_pos hv, hcast, hiff]
      exact ih (by omega) (by omega)
    · rw [if_neg hv]
      exact outcome_pure ⟨rfl, rfl, fun h => hv (hbyte.mpr fun k hk => h k (by omega))⟩

/-- Are the bits from byte `i` on the same? -/
theorem cmp_spec (hle : (s.mem r').length ≤ (s.mem r).length) (hi : i ≤ (s.mem r').length) :
    Outcome (eqBits.cmp r r' (s.mem r').length i) s
      (Found s (∀ k, 8 * i ≤ k → bitAt (s.mem r) k = bitAt (s.mem r') k)) := by
  induction hd : (s.mem r').length - i generalizing i with
  | zero =>
    have heq : i = (s.mem r').length := by omega
    have hiff : (∀ k, 8 * i ≤ k → bitAt (s.mem r) k = bitAt (s.mem r') k) ↔
        ∀ k, 8 * i ≤ k → bitAt (s.mem r) k = false := by
      refine forall_congr' fun k => imp_congr_right fun hk => ?_
      rw [bitAt_eq_false (show 8 * (s.mem r').length ≤ k by omega)]
    rw [eqBits.cmp, if_pos (by rw [heq]), hiff]
    exact iszero_spec (by omega)
  | succ d ih =>
    rw [eqBits.cmp, if_neg (by omega)]
    refine outcome_bind_of (returns_sub (by omega)) ?_
    rintro v s' ⟨rfl, rfl⟩
    refine outcome_bind_of (returns_sub (by omega)) ?_
    rintro v' s' ⟨rfl, rfl⟩
    have hbyte := byte_eq_byte (s'.mem r) (s'.mem r') i
    by_cases hv : (s'.mem r).getD i 0#8 = (s'.mem r').getD i 0#8
    · have hcast : ((i : ℤ) + 1) = (i + 1 : ℕ) := by push_cast; rfl
      have hiff : (∀ k, 8 * i ≤ k → bitAt (s'.mem r) k = bitAt (s'.mem r') k) ↔
          ∀ k, 8 * (i + 1) ≤ k → bitAt (s'.mem r) k = bitAt (s'.mem r') k := by
        refine ⟨fun h k hk => h k (by omega), fun h k hk => ?_⟩
        rcases Nat.lt_or_ge k (8 * (i + 1)) with hlt | hge
        · exact hbyte.mp hv k (by omega)
        · exact h k hge
      rw [if_pos hv, hcast, hiff]
      exact ih (by omega) (by omega)
    · rw [if_neg hv]
      exact outcome_pure ⟨rfl, rfl, fun h => hv (hbyte.mpr fun k hk => h k (by omega))⟩

theorem eqBits_aux (h : Rep s ba l) (h' : Rep s ba' l')
    (hle : (s.mem ba'.bits).length ≤ (s.mem ba.bits).length) :
    Returns (do
      let minlen ← W8A.length ba'.bits
      tryCatch (eqBits.cmp ba.bits ba'.bits minlen 0) fun _ => pure true) s fun b s' =>
        s' = s ∧ (b = true ↔ ∀ k, l.getD k false = l'.getD k false) := by
  refine returns_bind_of (returns_length _) ?_
  rintro minlen s' ⟨rfl, rfl⟩
  have hiff : (∀ k, 8 * 0 ≤ k → bitAt (s'.mem ba.bits) k = bitAt (s'.mem ba'.bits) k) ↔
      ∀ k, l.getD k false = l'.getD k false := by
    simp [h.bit, h'.bit]
  refine (cmp_spec (i := 0) hle (Nat.zero_le _)).handle ?_ ?_
  · rintro b s'' ⟨rfl, rfl, hne⟩
    exact ⟨rfl, iff_of_false Bool.false_ne_true (hiff.not.mp hne)⟩
  · rintro e s'' ⟨rfl, heq⟩
    exact returns_pure ⟨rfl, iff_of_true rfl (hiff.mp heq)⟩

/-- **The comparison** finds out whether the same bits are set. -/
theorem eqBits_spec (h : Rep s ba l) (h' : Rep s ba' l') :
    Returns (eqBits ba ba') s fun b s' =>
      s' = s ∧ (b = true ↔ ∀ k, l.getD k false = l'.getD k false) := by
  unfold eqBits
  rcases order_spec h h' with ⟨hord, hle⟩ | ⟨hord, hle⟩
  · rw [hord]
    exact eqBits_aux h h' hle
  · rw [hord]
    refine (eqBits_aux h' h hle).mono fun b s' hb => ⟨hb.1, hb.2.trans ?_⟩
    exact forall_congr' fun k => eq_comm

end SmlNj.BitArray
