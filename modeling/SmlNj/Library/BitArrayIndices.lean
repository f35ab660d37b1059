import SmlNj.Library.BitArrayBlocks

/-!
# Arrays of bits as lists of indices

An array is made from the indices of its true elements, and they are read off again in
ascending order, byte by byte and from the highest bit down.

## Main definitions

* `BitArray.trueIndices` — the indices of the true elements of a list.
* `BitArray.ofIndices` — a list from indices.

## Main results

* `BitArray.ofBits_spec`, `BitArray.getBits_spec` — the code computes the two.
* `BitArray.ofIndices_trueIndices`, `BitArray.mem_trueIndices` — they are inverse.
-/

namespace SmlNj.BitArray

open TotalRun PackedBits

variable {s : Heap} {ba : BA} {l : List Bool} {len : ℕ} {idx : List ℤ}

/-- The indices of the true elements of a list, in ascending order. -/
def trueIndices (l : List Bool) : List ℤ :=
  ((List.range l.length).filter fun k => l.getD k false).map fun k : ℕ => (k : ℤ)

def ofIndices (len : ℕ) (idx : List ℤ) : List Bool :=
  (List.range len).map fun k : ℕ => decide ((k : ℤ) ∈ idx)

theorem mem_trueIndices {k : ℕ} : (k : ℤ) ∈ trueIndices l ↔ l.getD k false = true := by
  unfold trueIndices
  simp only [List.mem_map, List.mem_filter, List.mem_range, Nat.cast_inj, exists_eq_right,
    and_iff_right_iff_imp]
  intro h
  by_contra hk
  rw [List.getD_eq_default _ _ (by omega)] at h
  cases h

theorem pairwise_trueIndices (l : List Bool) : (trueIndices l).Pairwise (· < ·) := by
  unfold trueIndices
  refine List.Pairwise.map _ (fun a b h => ?_) (List.pairwise_lt_range.filter _)
  exact_mod_cast h

theorem getD_ofIndices (len : ℕ) (idx : List ℤ) (k : ℕ) :
    (ofIndices len idx).getD k false = (decide (k < len) && decide ((k : ℤ) ∈ idx)) := by
  unfold ofIndices
  by_cases hk : k < len
  · rw [List.getD_eq_getElem _ _ (by simpa using hk), List.getElem_map, List.getElem_range,
      decide_eq_true hk, Bool.true_and]
  · rw [List.getD_eq_default _ _ (by simpa using hk), decide_eq_false hk, Bool.false_and]

theorem ofIndices_trueIndices (l : List Bool) : ofIndices l.length (trueIndices l) = l := by
  refine List.ext_getElem (by simp [ofIndices]) fun k hk hk' => ?_
  have hget := getD_ofIndices l.length (trueIndices l) k
  rw [List.getD_eq_getElem _ _ hk] at hget
  rw [hget, decide_eq_true hk', Bool.true_and]
  have hmem := mem_trueIndices (l := l) (k := k)
  rw [List.getD_eq_getElem _ _ hk'] at hmem
  simp [hmem]

/-! ### From indices -/

theorem init_bit_spec {a k : ℕ} {b : List (BitVec 8)} (hk : k < len) (hlen : len < 2 ^ 62)
    (hb : len ≤ 8 * b.length) :
    Returns (ofBits.init a len k) (s.put a b) fun _ s' => ∃ c, s' = s.put a c ∧
      c.length = b.length ∧ ∀ i, bitAt c i = (bitAt b i || decide (i = k)) := by
  have hult : uLt k len = true := (uLt_iff (by omega) (by omega) (by omega)).mpr (by omega)
  have hlt : k / 8 < ((s.put a b).mem a).length := by
    rw [Heap.put_mem_self]
    omega
  unfold ofBits.init
  rw [if_pos hult, byteOf_natCast]
  dsimp only
  refine sub_bind hlt ((returns_update hlt _).mono ?_)
  rintro - s' rfl
  rw [Heap.put_mem_self, Heap.put_put] at *
  refine ⟨_, rfl, List.length_set, fun i => ?_⟩
  have hr : (word k &&& 7#63).toNat = k % 8 := wmask7_toNat k
  have hi8 : i % 8 < 8 := Nat.mod_lt i (by norm_num)
  rw [bitAt_set hlt, hr]
  by_cases hi : i / 8 = k / 8
  · have hsplit : 8 * (k / 8) + i % 8 = i := by omega
    rw [if_pos hi, getLsbD_set_bit _ (Nat.mod_lt k (by norm_num)) hi8, getLsbD_getD _ _ hi8, hsplit]
    congr 1
    rw [decide_eq_decide]
    omega
  · have hne : i ≠ k := by
      rintro rfl
      exact hi rfl
    rw [if_neg hi, decide_eq_false hne, Bool.or_false]

theorem forM_init_spec {a : ℕ} (hlen : len < 2 ^ 62) (hidx : ∀ i ∈ idx, 0 ≤ i ∧ i < len) :
    ∀ {b : List (BitVec 8)}, len ≤ 8 * b.length →
      Returns (idx.forM (ofBits.init a len)) (s.put a b) fun _ s' => ∃ c, s' = s.put a c ∧
        c.length = b.length ∧ ∀ i : ℕ, bitAt c i = (bitAt b i || decide ((i : ℤ) ∈ idx)) := by
  induction idx with
  | nil => exact fun {b} _ => returns_pure ⟨b, rfl, rfl, fun i => by simp⟩
  | cons i idx ih =>
    intro b hb
    obtain ⟨k, rfl⟩ : ∃ k : ℕ, i = k := Int.eq_ofNat_of_zero_le (hidx i List.mem_cons_self).1
    have hk := (hidx k List.mem_cons_self).2
    unfold List.forM
    refine returns_bind_of (init_bit_spec (by omega) hlen hb) ?_
    rintro - s' ⟨c, rfl, hc, hbit⟩
    refine (ih (fun i hi => hidx i (List.mem_cons_of_mem _ hi)) (by omega)).mono ?_
    rintro - s' ⟨c', rfl, hc', hbit'⟩
    refine ⟨c', rfl, hc'.trans hc, fun i => ?_⟩
    rw [hbit', hbit, Bool.or_assoc, ← Bool.decide_or]
    congr 1
    rw [decide_eq_decide, List.mem_cons, Nat.cast_inj]

/-- **An array from indices**, which must be smaller than its length. -/
theorem ofBits_spec (hlen : len < 2 ^ 59 - 8) (hidx : ∀ i ∈ idx, 0 ≤ i ∧ i < len) :
    Makes (ofBits len idx) s (ofIndices len idx) := by
  have hult : uLt len maxLen = true := by
    rw [uLt_iff (by omega) (by unfold maxLen W8A.maxLen; norm_num)
      (by unfold maxLen W8A.maxLen; norm_num)]
    unfold maxLen W8A.maxLen
    omega
  have hl : (ofIndices len idx).length = len := by simp [ofIndices]
  refine makes_of_push (by omega) ?_
  unfold ofBits
  rw [if_pos hult, hl]
  refine returns_bind_of (array_spec (by omega)) ?_
  rintro bv s' ⟨rfl, rfl⟩
  have hpush := Heap.push_put s (List.replicate ((len + 7) / 8) 0#8)
    (List.replicate ((len + 7) / 8) 0#8)
  rw [← hpush]
  refine returns_bind_of (forM_init_spec (by omega) hidx (by rw [List.length_replicate]; omega)) ?_
  rintro - s' ⟨c, rfl, hc, hbit⟩
  rw [Heap.push_put]
  refine returns_pure ⟨rfl, c, rfl, by rw [hc, List.length_replicate], fun k => ?_⟩
  rw [hbit, bitAt_replicate_zero, Bool.false_or, getD_ofIndices]
  by_cases hk : (k : ℤ) ∈ idx
  · have hlt : k < len := by
      have := (hidx k hk).2
      omega
    rw [decide_eq_true hk, decide_eq_true hlt, Bool.and_true]
  · rw [decide_eq_false hk, Bool.and_false]

theorem ofBits_lt {Q : BA → Heap → Prop} (hlen : len < 2 ^ 62)
    (h : Returns (ofBits len idx) s Q) : len < 2 ^ 59 - 8 := by
  by_contra hge
  have hult : ¬ uLt len maxLen = true := by
    rw [uLt_iff (by omega) (by unfold maxLen W8A.maxLen; norm_num)
      (by unfold maxLen W8A.maxLen; norm_num)]
    unfold maxLen W8A.maxLen
    omega
  unfold ofBits at h
  rw [if_neg hult] at h
  exact (raises_throw (Q := fun _ _ => True) trivial).not_returns h

/-! ### To indices -/

/-- The indices of the bits of a byte that are set, from `bit` on. -/
def byteIndices (bit : ℤ) (v : BitVec 8) (m : ℕ) : List ℤ :=
  ((List.range m).filter fun j => v.getLsbD j).map fun j : ℕ => bit + j

theorem byteIndices_succ (bit : ℤ) (v : BitVec 8) (m : ℕ) :
    byteIndices bit v (m + 1) =
      byteIndices bit v m ++ if v.getLsbD m then [bit + m] else [] := by
  unfold byteIndices
  rw [List.range_succ, List.filter_append, List.map_append]
  congr 1
  cases hv : v.getLsbD m <;> simp [hv]

theorem byteIndices_eq_nil {bit : ℤ} {v : BitVec 8} {m : ℕ} (h : ∀ j < m, v.getLsbD j = false) :
    byteIndices bit v m = [] := by
  unfold byteIndices
  rw [List.filter_eq_nil_iff.mpr fun j hj => ?_, List.map_nil]
  rw [h j (List.mem_range.mp hj)]
  exact Bool.false_ne_true

theorem top_bit (data : BitVec 8) : data &&& 0x80#8 = 0#8 ↔ data.getLsbD 7 = false := by
  have h : (data &&& 0x80#8 != 0#8) = data.getLsbD 7 := PackedBits.and_bit_ne data (show 7 < 8 by decide)
  rw [← h]
  exact bne_eq_false_iff_eq.symm

/-- The low `m` bits of a byte, the highest of them first.  The byte is shifted up to its
top bit, and no bit is left after `m` steps. -/
theorem extractBits_spec (v : BitVec 8) {m : ℕ} (hm : m ≤ 8) (bit : ℤ) (l : List ℤ) :
    Returns (getBits.extractBits (bit + m - 1) (v <<< (8 - m)) l) s fun r s' =>
      r = byteIndices bit v m ++ l ∧ s' = s := by
  induction m generalizing l with
  | zero =>
    have hzero : v <<< 8 = 0#8 := by
      refine BitVec.eq_of_getLsbD_eq fun j hj => ?_
      rw [BitVec.getLsbD_shiftLeft]
      simp [hj]
    rw [getBits.extractBits, Nat.sub_zero, hzero, if_pos rfl]
    exact returns_pure ⟨rfl, rfl⟩
  | succ m ih =>
    have hbits : ∀ j, (v <<< (8 - (m + 1))).getLsbD (7 - m + j) =
        (decide (7 - m + j < 8) && v.getLsbD j) := by
      intro j
      have hsub : 7 - m + j - (8 - (m + 1)) = j := by omega
      rw [BitVec.getLsbD_shiftLeft, hsub]
      simp
    rw [getBits.extractBits]
    by_cases h0 : v <<< (8 - (m + 1)) = 0#8
    · rw [if_pos h0]
      refine returns_pure ⟨?_, rfl⟩
      rw [byteIndices_eq_nil, List.nil_append]
      intro j hj
      have := hbits j
      rw [h0, decide_eq_true (by omega), Bool.true_and] at this
      rw [← this]
      exact BitVec.getLsbD_zero
    · have htop : (v <<< (8 - (m + 1))).getLsbD 7 = v.getLsbD m := by
        have hsum : 7 - m + m = 7 := by omega
        have := hbits m
        rwa [hsum, decide_eq_true (by norm_num), Bool.true_and] at this
      have hshift : v <<< (8 - (m + 1)) <<< 1 = v <<< (8 - m) := by
        have hadd : 8 - m = 8 - (m + 1) + 1 := by omega
        rw [hadd, BitVec.shiftLeft_add]
      have hbit : bit + ((m + 1 : ℕ) : ℤ) - 1 - 1 = bit + m - 1 := by
        push_cast
        ring
      have hhead : bit + ((m + 1 : ℕ) : ℤ) - 1 = bit + m := by
        push_cast
        ring
      rw [if_neg h0, hshift, hbit, hhead]
      refine (ih (by omega) _).mono ?_
      rintro r s' ⟨rfl, rfl⟩
      refine ⟨?_, rfl⟩
      rw [byteIndices_succ, List.append_assoc]
      congr 1
      cases hv : v.getLsbD m with
      | false => rw [if_pos ((top_bit _).mpr (htop.trans hv))]; rfl
      | true =>
        rw [if_neg fun hc => ?_]
        · rfl
        · rw [(top_bit _).mp hc, hv] at htop
          cases htop

/-- The indices of the bits of the bytes before byte `i`. -/
def bytesIndices (bytes : List (BitVec 8)) (n : ℕ) : List ℤ :=
  ((List.range n).filter fun k => bitAt bytes k).map fun k : ℕ => (k : ℤ)

theorem bytesIndices_add (bytes : List (BitVec 8)) (i : ℕ) {m : ℕ} (hm : m ≤ 8) :
    bytesIndices bytes (8 * i + m) =
      bytesIndices bytes (8 * i) ++ byteIndices (8 * i : ℕ) (bytes.getD i 0#8) m := by
  unfold bytesIndices byteIndices
  rw [List.range_add, List.filter_append, List.map_append]
  congr 1
  rw [List.filter_map, List.map_map]
  have hfilter : (List.range m).filter ((fun k => bitAt bytes k) ∘ fun j => 8 * i + j) =
      (List.range m).filter fun j => (bytes.getD i 0#8).getLsbD j := by
    refine List.filter_congr fun j hj => ?_
    rw [List.mem_range] at hj
    rw [getLsbD_getD _ _ (by omega)]
    rfl
  rw [hfilter]
  refine List.map_congr_left fun j _ => ?_
  exact Nat.cast_add (8 * i) j

/-- All bytes from `i - 1` down. -/
theorem extract_spec {a : ℕ} : ∀ {i : ℕ} (l : List ℤ), i ≤ (s.mem a).length →
    Returns (getBits.extract a (i - 1 : ℤ) (8 * i - 1 : ℤ) l) s fun r s' =>
      r = bytesIndices (s.mem a) (8 * i) ++ l ∧ s' = s := by
  intro i
  induction i with
  | zero =>
    intro l _
    rw [getBits.extract, if_pos (by simp)]
    exact returns_pure ⟨rfl, rfl⟩
  | succ i ih =>
    intro l hi
    have hcast : ((i + 1 : ℕ) : ℤ) - 1 = i := by
      push_cast
      ring
    have hbit : 8 * ((i + 1 : ℕ) : ℤ) - 1 = ((8 * i : ℕ) : ℤ) + ((8 : ℕ) : ℤ) - 1 := by
      push_cast
      ring
    have hnext : ((8 * i : ℕ) : ℤ) + ((8 : ℕ) : ℤ) - 1 - 8 = 8 * (i : ℤ) - 1 := by
      push_cast
      ring
    rw [getBits.extract, hcast, hbit, if_neg (by omega)]
    refine sub_bind (by omega) ?_
    have hfull := extractBits_spec (s := s) ((s.mem a).getD i 0#8) le_rfl (8 * i : ℕ) l
    rw [Nat.sub_self, BitVec.shiftLeft_zero] at hfull
    refine returns_bind_of hfull ?_
    rintro r s' ⟨rfl, rfl⟩
    rw [hnext]
    refine (ih _ (by omega)).mono ?_
    rintro r s' ⟨rfl, rfl⟩
    refine ⟨?_, rfl⟩
    rw [Nat.mul_add, Nat.mul_one, bytesIndices_add _ _ le_rfl, List.append_assoc]

/-- **The indices of the true elements.** -/
theorem getBits_spec (h : Rep s ba l) :
    Returns (getBits ba) s fun r s' => r = trueIndices l ∧ s' = s := by
  have htrue : trueIndices l = bytesIndices (s.mem ba.bits) l.length := by
    unfold trueIndices bytesIndices
    simp [h.bit]
  unfold getBits
  rw [h.nbits, htrue]
  by_cases h0 : l.length = 0
  · rw [if_pos (by exact_mod_cast h0), h0]
    exact returns_pure ⟨rfl, rfl⟩
  · have hlen := h.length
    have hmax : ((l.length : ℤ) - 1) = (l.length - 1 : ℕ) := by omega
    have hd := wmask7_toNat (l.length - 1)
    unfold wmask7 at hd
    rw [if_neg (by exact_mod_cast h0), hmax]
    dsimp only
    rw [byteOf_natCast]
    refine sub_bind (by omega) ?_
    have hsub : (7#63 - (word (l.length - 1 : ℕ) &&& 7#63)).toNat =
        8 - ((l.length - 1) % 8 + 1) := by
      rw [BitVec.toNat_sub, hd, BitVec.toNat_ofNat]
      omega
    have hint : (word (l.length - 1 : ℕ) &&& 7#63).toInt = ((l.length - 1) % 8 : ℕ) := by
      rw [BitVec.toInt_eq_toNat_of_lt (by omega), hd]
    have hbit : ((l.length - 1 : ℕ) : ℤ) =
        (8 * ((l.length - 1) / 8) : ℕ) + ((l.length - 1) % 8 + 1 : ℕ) - 1 := by omega
    rw [hsub, hint]
    have hlast := extractBits_spec (s := s) ((s.mem ba.bits).getD ((l.length - 1) / 8) 0#8)
      (show (l.length - 1) % 8 + 1 ≤ 8 by omega) (8 * ((l.length - 1) / 8) : ℕ) []
    rw [← hbit, List.append_nil] at hlast
    refine returns_bind_of hlast ?_
    rintro r s' ⟨rfl, rfl⟩
    have hrest : ((l.length - 1 : ℕ) : ℤ) - ((l.length - 1) % 8 : ℕ) - 1 =
        8 * ((l.length - 1) / 8 : ℕ) - 1 := by omega
    rw [hrest]
    refine (extract_spec _ (by omega)).mono ?_
    rintro r s' ⟨rfl, rfl⟩
    refine ⟨?_, rfl⟩
    rw [← bytesIndices_add _ _ (show (l.length - 1) % 8 + 1 ≤ 8 by omega)]
    congr 1
    omega

end SmlNj.BitArray
