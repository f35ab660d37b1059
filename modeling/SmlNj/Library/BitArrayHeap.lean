import SmlNj.Library.BitArray
import SmlNj.Lib.PackedBits

/-!
# Arrays of bits in the heap

What the basic steps do: accesses to arrays of bytes, masks, creation, and plain copies.
An array of bits stands for a list of booleans if the bits of its storage are those of
the list, and zero from there on.

## Main definitions

* `BitArray.Heap.put` — the heap after the bytes of an array have changed.
* `BitArray.Rep` — an array of bits stands for a list.
* `BitArray.Makes` — an operation makes a new array, and touches no other.

## Main results

* `BitArray.array_spec`, `BitArray.mkCopy_spec`, `BitArray.copybits_spec`.
* `BitArray.fit_spec` — a byte out of two.
-/

namespace SmlNj.BitArray

open TotalRun PackedBits

variable {β : Type} {s : Heap} {a r : ℕ} {i : ℕ} {v : BitVec 8} {b bytes : List (BitVec 8)}

def Heap.put (s : Heap) (a : ℕ) (bytes : List (BitVec 8)) : Heap :=
  ⟨s.next, Function.update s.mem a bytes⟩

def Heap.push (s : Heap) (bytes : List (BitVec 8)) : Heap :=
  ⟨s.next + 1, Function.update s.mem s.next bytes⟩

@[simp] theorem Heap.put_mem_self (s : Heap) (a : ℕ) (b : List (BitVec 8)) :
    (s.put a b).mem a = b := by
  simp [Heap.put]

@[simp] theorem Heap.put_mem_of_ne (h : r ≠ a) (b : List (BitVec 8)) :
    (s.put a b).mem r = s.mem r := by
  simp [Heap.put, Function.update_of_ne h]

@[simp] theorem Heap.put_put (s : Heap) (a : ℕ) (b bytes : List (BitVec 8)) :
    (s.put a b).put a bytes = s.put a bytes := by
  unfold Heap.put
  rw [Function.update_idem]

@[simp] theorem Heap.put_self (s : Heap) (a : ℕ) : s.put a (s.mem a) = s := by
  unfold Heap.put
  rw [Function.update_eq_self]

@[simp] theorem Heap.push_mem_self (s : Heap) (b : List (BitVec 8)) :
    (s.push b).mem s.next = b := by
  simp [Heap.push]

@[simp] theorem Heap.push_mem_of_ne (h : r ≠ s.next) (b : List (BitVec 8)) :
    (s.push b).mem r = s.mem r := by
  simp [Heap.push, Function.update_of_ne h]

@[simp] theorem Heap.push_put (s : Heap) (b bytes : List (BitVec 8)) :
    (s.push b).put s.next bytes = s.push bytes := by
  unfold Heap.put Heap.push
  rw [Function.update_idem]

theorem returns_sub (h : i < (s.mem a).length) :
    Returns (W8A.sub a i) s fun v s' => v = (s.mem a).getD i 0#8 ∧ s' = s := by
  refine ⟨(s.mem a).getD i 0#8, s, ?_, rfl, rfl⟩
  change (if _ then _ else _) = _
  rw [if_pos ⟨by omega, by exact_mod_cast h⟩, Int.toNat_natCast]

theorem sub_bind {f : BitVec 8 → Exec β} {Q : β → Heap → Prop} (h : i < (s.mem a).length)
    (hf : Returns (f ((s.mem a).getD i 0#8)) s Q) : Returns (W8A.sub a i >>= f) s Q := by
  refine returns_bind_of (returns_sub h) ?_
  rintro v s' ⟨rfl, rfl⟩
  exact hf

theorem raises_sub {j : ℤ} (h : ¬ (0 ≤ j ∧ j < (s.mem a).length)) :
    Raises (W8A.sub a j) s fun e s' => e = .subscript ∧ s' = s := by
  refine ⟨.subscript, s, ?_, rfl, rfl⟩
  change (if _ then _ else _) = _
  rw [if_neg h]

theorem returns_update (h : i < (s.mem a).length) (v : BitVec 8) :
    Returns (W8A.update a i v) s fun _ s' => s' = s.put a ((s.mem a).set i v) := by
  refine ⟨(), s.put a ((s.mem a).set i v), ?_, rfl⟩
  change (if _ then _ else _) = _
  rw [if_pos ⟨by omega, by exact_mod_cast h⟩, Int.toNat_natCast]
  rfl

theorem update_bind {f : Unit → Exec β} {Q : β → Heap → Prop} (h : i < (s.mem a).length)
    (hf : Returns (f ()) (s.put a ((s.mem a).set i v)) Q) :
    Returns (W8A.update a i v >>= f) s Q := by
  refine returns_bind_of (returns_update h v) ?_
  rintro - s' rfl
  exact hf

theorem raises_update {j : ℤ} (h : ¬ (0 ≤ j ∧ j < (s.mem a).length)) (v : BitVec 8) :
    Raises (W8A.update a j v) s fun e s' => e = .subscript ∧ s' = s := by
  refine ⟨.subscript, s, ?_, rfl, rfl⟩
  change (if _ then _ else _) = _
  rw [if_neg h]

theorem returns_checked {j : ℤ} (h : -2 ^ 62 ≤ j ∧ j < 2 ^ 62) :
    Returns (checked j) s fun i s' => i = j ∧ s' = s := by
  unfold checked
  rw [if_pos h]
  exact returns_pure ⟨rfl, rfl⟩

theorem of_checked {j : ℤ} {Q : ℤ → Heap → Prop} (h : Returns (checked j) s Q) :
    (-2 ^ 62 ≤ j ∧ j < 2 ^ 62) ∧ Q j s := by
  by_cases hj : -2 ^ 62 ≤ j ∧ j < 2 ^ 62
  · obtain ⟨i, s', hrun, hQ⟩ := h
    unfold checked at hrun
    rw [if_pos hj] at hrun
    cases hrun
    exact ⟨hj, hQ⟩
  · unfold checked at h
    rw [if_neg hj] at h
    exact absurd h (raises_throw (Q := fun _ _ => True) trivial).not_returns

theorem returns_sizeOf {n : ℕ} (h : n + 7 < 2 ^ 62) :
    Returns (sizeOf n) s fun sz s' => sz = ((n + 7) / 8 : ℕ) ∧ s' = s := by
  unfold sizeOf
  refine returns_bind_of (returns_checked (by omega)) ?_
  rintro i s' ⟨rfl, rfl⟩
  exact returns_pure ⟨by push_cast; rfl, rfl⟩

theorem word_toNat {i : ℤ} (h0 : 0 ≤ i) (h : i < 2 ^ 62) : ((word i).toNat : ℤ) = i := by
  unfold word
  rw [BitVec.toNat_ofInt]
  omega

theorem uLt_iff {i len : ℤ} (h : -2 ^ 62 ≤ i ∧ i < 2 ^ 62) (h0 : 0 ≤ len) (hlen : len < 2 ^ 62) :
    uLt i len = true ↔ 0 ≤ i ∧ i < len := by
  have hl := word_toNat h0 hlen
  unfold uLt
  rw [BitVec.ult_iff_toNat_lt]
  rcases lt_or_ge i 0 with hneg | hpos
  · have hi : (word i).toNat = (i + 2 ^ 63).toNat := by
      unfold word
      rw [BitVec.toNat_ofInt]
      omega
    omega
  · have hi := word_toNat hpos h.2
    omega

theorem wmask7_toNat (i : ℕ) : (wmask7 i).toNat = i % 8 := by
  unfold wmask7 word
  rw [BitVec.toNat_and, BitVec.ofInt_natCast, BitVec.toNat_ofNat, BitVec.toNat_ofNat]
  have hmask : (7 % 2 ^ 63 : ℕ) = 2 ^ 3 - 1 := by norm_num
  rw [hmask, Nat.and_two_pow_sub_one_eq_mod]
  omega

theorem mask7_natCast (i : ℕ) : mask7 i = (i % 8 : ℕ) := by
  have h := wmask7_toNat i
  unfold mask7
  rw [BitVec.toInt_eq_toNat_of_lt (by omega), h]

theorem byteOf_natCast (i : ℕ) : byteOf i = (i / 8 : ℕ) := by
  unfold byteOf
  push_cast
  rfl

/-! ### Masks -/

theorem returns_lobits {n : ℕ} (h : n ≤ 8) :
    Returns (lobits n) s fun m s' => (∀ j < 8, m.getLsbD j = decide (j < n)) ∧ s' = s := by
  unfold lobits W8V.sub
  rw [if_pos ⟨by omega, by simp [lomask]; omega⟩, Int.toNat_natCast]
  refine returns_pure ⟨fun j hj => ?_, rfl⟩
  interval_cases n <;> interval_cases j <;> rfl

theorem returns_hibits {n : ℕ} (h : n ≤ 8) :
    Returns (hibits n) s fun m s' => (∀ j < 8, m.getLsbD j = decide (n ≤ j)) ∧ s' = s := by
  unfold hibits W8V.sub
  rw [if_pos ⟨by omega, by simp [himask]; omega⟩, Int.toNat_natCast]
  refine returns_pure ⟨fun j hj => ?_, rfl⟩
  interval_cases n <;> interval_cases j <;> rfl

theorem fit_spec (lb rb : BitVec 8) {n : ℕ} (h : n ≤ 8) :
    Returns (fit lb rb n) s fun v s' =>
      (∀ j < 8, v.getLsbD j = if j < n then rb.getLsbD j else lb.getLsbD j) ∧ s' = s := by
  unfold fit
  refine returns_bind_of (returns_lobits h) ?_
  rintro lo s' ⟨hlo, rfl⟩
  refine returns_bind_of (returns_hibits h) ?_
  rintro hi s'' ⟨hhi, rfl⟩
  refine returns_pure ⟨fun j hj => ?_, rfl⟩
  rw [BitVec.getLsbD_or, BitVec.getLsbD_and, BitVec.getLsbD_and, hlo j hj, hhi j hj]
  by_cases hjn : j < n
  · simp [hjn]
  · have hle : n ≤ j := by omega
    simp [hjn, hle]

theorem mask_last_spec {n len : ℕ} (hlen : (s.mem a).length = len) (hn : len = (n + 7) / 8)
    (hmod : n % 8 ≠ 0) :
    Returns (do
      let v ← W8A.sub a (len - 1 : ℕ)
      W8A.update a (len - 1 : ℕ) (v &&& (← lobits (n % 8 : ℕ)))) s fun _ s' =>
        ∃ b, s' = s.put a b ∧ b.length = len ∧
          ∀ k, bitAt b k = (bitAt (s.mem a) k && decide (k < n)) := by
  have hlt : len - 1 < (s.mem a).length := by omega
  refine sub_bind hlt (returns_bind_of (returns_lobits (by omega)) ?_)
  rintro m s' ⟨hm, rfl⟩
  refine (returns_update hlt _).mono ?_
  rintro - s'' rfl
  refine ⟨_, rfl, (List.length_set).trans hlen, fun k => ?_⟩
  rw [bitAt_set hlt]
  have hk8 : k % 8 < 8 := Nat.mod_lt k (by norm_num)
  by_cases hk : k / 8 = len - 1
  · have hsplit : 8 * (len - 1) + k % 8 = k := by omega
    rw [if_pos hk, BitVec.getLsbD_and, hm _ hk8, getLsbD_getD _ _ hk8, hsplit]
    congr 1
    rw [decide_eq_decide]
    omega
  · rw [if_neg hk]
    by_cases hkn : k < n
    · simp [hkn]
    · rw [bitAt_eq_false (by omega), Bool.false_and]

theorem masked_self {n len : ℕ} (hlen : (s.mem a).length = (n + 7) / 8) (hmod : n % 8 = 0)
    (hlen' : (s.mem a).length = len) :
    ∃ b, s = s.put a b ∧ b.length = len ∧
      ∀ k, bitAt b k = (bitAt (s.mem a) k && decide (k < n)) := by
  refine ⟨s.mem a, (Heap.put_self s a).symm, hlen', fun k => ?_⟩
  by_cases hk : k < n
  · simp [hk]
  · rw [bitAt_eq_false (by omega), Bool.false_and]

theorem returns_newArray {n : ℕ} (h : n ≤ 2 ^ 56 - 1) (v : BitVec 8) :
    Returns (W8A.array n v) s fun a s' => a = s.next ∧ s' = s.push (List.replicate n v) := by
  unfold W8A.array
  by_cases h0 : n = 0
  · subst h0
    exact ⟨s.next, s.push [], rfl, rfl, rfl⟩
  · have hlt : ¬ uLt W8A.maxLen n = true := by
      rw [uLt_iff (by unfold W8A.maxLen; omega) (by omega) (by omega)]
      unfold W8A.maxLen
      omega
    rw [if_neg (by exact_mod_cast h0), if_neg hlt, Int.toNat_natCast]
    exact ⟨s.next, s.push (List.replicate n v), rfl, rfl, rfl⟩

theorem newArray_le {n : ℤ} {Q : ℕ → Heap → Prop} (h62 : -2 ^ 62 ≤ n ∧ n < 2 ^ 62)
    (h : Returns (W8A.array n v) s Q) : 0 ≤ n ∧ n ≤ 2 ^ 56 - 1 := by
  by_contra hn
  have hmax : uLt W8A.maxLen n = true := by
    unfold uLt word
    rw [BitVec.ult_iff_toNat_lt, BitVec.toNat_ofInt, BitVec.toNat_ofInt]
    unfold W8A.maxLen
    omega
  unfold W8A.array at h
  rw [if_neg (by omega), if_pos hmax] at h
  exact (raises_throw (Q := fun _ _ => True) trivial).not_returns h

theorem array_spec {n : ℕ} (h : n ≤ 2 ^ 59 - 8) :
    Returns (array n false) s fun ba s' =>
      ba = ⟨n, s.next⟩ ∧ s' = s.push (List.replicate ((n + 7) / 8) 0#8) := by
  unfold array
  by_cases h0 : n = 0
  · subst h0
    exact ⟨⟨0, s.next⟩, s.push [], rfl, rfl, rfl⟩
  · rw [if_neg (by exact_mod_cast h0)]
    refine returns_bind_of (returns_sizeOf (by omega)) ?_
    rintro sz s' ⟨rfl, rfl⟩
    refine returns_bind_of (returns_newArray (by omega) 0#8) ?_
    rintro a s'' ⟨rfl, rfl⟩
    exact returns_pure ⟨rfl, rfl⟩

/-- **An array of bits stands for a list** of booleans: the bits of the storage are those
of the list, and zero from its length on. -/
structure Rep (s : Heap) (ba : BA) (l : List Bool) : Prop where
  nbits : ba.nbits = l.length
  live : ba.bits < s.next
  fits : l.length ≤ 2 ^ 59 - 8
  length : (s.mem ba.bits).length = (l.length + 7) / 8
  bit : ∀ k, bitAt (s.mem ba.bits) k = l.getD k false

def oneBit (b : Bool) : Heap := ⟨1, fun _ => [if b then 1#8 else 0#8]⟩

theorem rep_oneBit (b : Bool) : Rep (oneBit b) ⟨1, 0⟩ [b] := by
  refine ⟨rfl, Nat.one_pos, by simp, by simp [oneBit], fun k => ?_⟩
  rcases Nat.lt_or_ge k 8 with hlt | hge
  · cases b <;> interval_cases k <;> rfl
  · rw [bitAt_eq_false hge, List.getD_eq_default _ _ (Nat.one_le_of_lt hge)]

/-- An operation makes a new array for a list, and touches no other. -/
def Makes (m : Exec BA) (s : Heap) (l : List Bool) : Prop :=
  Returns m s fun ba s' => Rep s' ba l ∧ s.next ≤ ba.bits ∧ ∀ r < s.next, s'.mem r = s.mem r

variable {ba : BA} {l : List Bool} {m : Exec BA}

theorem makes_of_push (hfits : l.length ≤ 2 ^ 59 - 8)
    (h : Returns m s fun ba s' => ba = ⟨l.length, s.next⟩ ∧ ∃ b, s' = s.push b ∧
      b.length = (l.length + 7) / 8 ∧ ∀ k, bitAt b k = l.getD k false) : Makes m s l := by
  refine h.mono ?_
  rintro ba s' ⟨rfl, b, rfl, hlen, hbit⟩
  refine ⟨⟨rfl, ?_, hfits, ?_, fun k => ?_⟩, le_rfl, fun r hr => ?_⟩
  · exact Nat.lt_succ_self s.next
  · rw [Heap.push_mem_self, hlen]
  · rw [Heap.push_mem_self, hbit]
  · exact Heap.push_mem_of_ne (Nat.ne_of_lt hr) b

theorem Rep.push (h : Rep s ba l) (b : List (BitVec 8)) :
    (s.push b).mem ba.bits = s.mem ba.bits := Heap.push_mem_of_ne (Nat.ne_of_lt h.live) b

theorem Makes.length_le (h : Makes m s l) : l.length ≤ 2 ^ 59 - 8 := by
  obtain ⟨ba, s', -, hrep, -⟩ := h
  exact hrep.fits

theorem Rep.of_push (h : Rep s ba l) (b : List (BitVec 8)) : Rep (s.push b) ba l := by
  refine ⟨h.nbits, Nat.lt_succ_of_lt h.live, h.fits, ?_, fun k => ?_⟩
  · rw [h.push, h.length]
  · rw [h.push, h.bit]

theorem getD_append_false (l : List Bool) (n k : ℕ) :
    (l ++ List.replicate n false).getD k false = l.getD k false := by
  rcases lt_or_ge k l.length with hlt | hge
  · rw [List.getD_append _ _ _ _ hlt]
  · rw [List.getD_append_right _ _ _ _ hge, List.getD_eq_default l _ hge]
    rcases lt_or_ge (k - l.length) n with hk | hk
    · exact List.getD_replicate _ hk
    · exact List.getD_eq_default _ _ (by rwa [List.length_replicate])

/-! ### Plain copies -/

/-- Bytes are copied until one of the two arrays ends. -/
theorem copybits_spec (hne : r ≠ a) :
    Returns (copybits r a) s fun _ s' => ∃ b, s' = s.put a b ∧
      Blit (bitAt (s.mem r)) 0 (8 * Nat.min (s.mem r).length (s.mem a).length) (s.mem a) b := by
  unfold copybits
  refine returns_handle (P := fun _ s' => ∃ b, s' = s.put a b ∧ Blit (bitAt (s.mem r)) 0
    (8 * Nat.min (s.mem r).length (s.mem a).length) (s.mem a) b) ?_ fun e s' h => returns_pure h
  refine raises_at (fun i (_ : Unit) => copybits.cpy r a i)
    (fun i _ => do W8A.update a i (← W8A.sub r i))
    (fun i _ s' => ∃ b, s' = s.put a b ∧ Blit (bitAt (s.mem r)) 0 (8 * i) (s.mem a) b)
    (n := Nat.min (s.mem r).length (s.mem a).length) (i := 0) (c := ()) ?_ ?_ ?_
    (Nat.zero_le _) ?_
  · intro i _
    rw [copybits.cpy, bind_assoc]
    push_cast
    rfl
  · rintro i - s' hi ⟨b, rfl, hb⟩
    have hr : i < (s.mem r).length := lt_of_lt_of_le hi (Nat.min_le_left _ _)
    have ha : i < b.length := by
      rw [hb.length_eq]
      exact lt_of_lt_of_le hi (Nat.min_le_right _ _)
    refine sub_bind (by rwa [Heap.put_mem_of_ne hne]) ?_
    refine (returns_update (by rwa [Heap.put_mem_self]) _).mono ?_
    rintro - s' rfl
    refine ⟨_, Heap.put_put _ _ _ _, ?_⟩
    rw [Heap.put_mem_self, Heap.put_mem_of_ne hne]
    exact hb.write_byte (Nat.zero_le _) ha fun j hj => getLsbD_getD _ _ hj
  · rintro - s' ⟨b, rfl, hb⟩
    rcases Nat.lt_or_ge (s.mem a).length (s.mem r).length with hlt | hge
    · have hmin : Nat.min (s.mem r).length (s.mem a).length = (s.mem a).length :=
        Nat.min_eq_right hlt.le
      rw [hmin] at hb ⊢
      refine raises_bind_of (returns_sub (by rwa [Heap.put_mem_of_ne hne])) ?_
      rintro v s' ⟨-, rfl⟩
      refine (raises_update ?_ v).mono ?_
      · rw [Heap.put_mem_self, hb.length_eq]
        omega
      · rintro e s' ⟨-, rfl⟩
        exact ⟨b, rfl, hb⟩
    · have hmin : Nat.min (s.mem r).length (s.mem a).length = (s.mem r).length :=
        Nat.min_eq_left hge
      rw [hmin] at hb ⊢
      refine raises_bind ((raises_sub ?_).mono ?_)
      · rw [Heap.put_mem_of_ne hne]
        omega
      · rintro e s' ⟨-, rfl⟩
        exact ⟨b, rfl, hb⟩
  · exact ⟨s.mem a, (Heap.put_self s a).symm, .refl _ (by omega) _⟩

theorem copybits_new (h : Rep s ba l) {n : ℕ} (hn : (l.length + 7) / 8 ≤ n) :
    Returns (copybits ba.bits s.next) (s.push (List.replicate n 0#8)) fun _ s' =>
      ∃ b, s' = s.push b ∧ b.length = n ∧ ∀ k, bitAt b k = l.getD k false := by
  have hne : ba.bits ≠ s.next := Nat.ne_of_lt h.live
  refine (copybits_spec hne).mono ?_
  rintro - s' ⟨b, rfl, hb⟩
  rw [h.push, Heap.push_mem_self, h.length, List.length_replicate] at hb
  rw [show Nat.min ((l.length + 7) / 8) n = _ from Nat.min_eq_left hn] at hb
  refine ⟨b, Heap.push_put _ _ _, hb.length_eq.trans List.length_replicate, fun k => ?_⟩
  rw [hb.bit_eq, h.bit, bitAt_replicate_zero]
  split_ifs with hk
  · rfl
  · exact (List.getD_eq_default _ _ (by omega)).symm

theorem mkCopy_spec (h : Rep s ba l) : Makes (mkCopy ba) s l := by
  refine makes_of_push h.fits ?_
  unfold mkCopy
  rw [h.nbits]
  refine returns_bind_of (array_spec h.fits) ?_
  rintro ba' s' ⟨rfl, rfl⟩
  refine returns_bind_of (copybits_new h le_rfl) ?_
  rintro - s' ⟨b, rfl, hlen, hbit⟩
  exact returns_pure ⟨rfl, b, rfl, hlen, hbit⟩

end SmlNj.BitArray
