import SmlNj.Library.BitArrayShift
import SmlNj.Library.BitArrayText
import SmlNj.Library.BitArrayIndices

/-!
# When the operations on blocks are exact

The operations that make arrays, as operations on lists of booleans, and the exact
conditions under which they are those.  Some inputs ask for an array that would be longer
than any array; the others that go wrong are the words that are negative as signed
integers, the negative lengths that the extensions take without complaint, and the greatest
length, which `bits` does not accept.

## Main results

* `BitArray.block_operations_exact` — all operations, and when they are right.
* `BitArray.rshift_w_fails` — a shift to the right that fails.
-/

namespace SmlNj.BitArray

open TotalRun PackedBits

variable {s : Heap} {ba : BA} {l : List Bool}

def IsInt (i : ℤ) : Prop := -2 ^ 62 ≤ i ∧ i < 2 ^ 62

/-- An extension to a length: a negative one raises `Size`. -/
def Extends (m : Exec BA) (s : Heap) (l : List Bool) (b : Bool) (n : ℤ) : Prop :=
  if n < 0 then Raises m s fun e _ => e = .size
  else Makes m s (l ++ List.replicate (n.toNat - l.length) b)

theorem extends_iff {m : ℤ → Exec BA} {b : Bool} (h : Rep s ba l)
    (hcopy : ∀ n, ba.nbits ≥ n → m n = mkCopy ba)
    (hspec : ∀ n : ℕ, n ≤ 2 ^ 59 - 8 → Makes (m n) s (l ++ List.replicate (n - l.length) b))
    (n : ℤ) : Extends (m n) s l b n ↔ 0 ≤ n ∧ n ≤ 2 ^ 59 - 8 := by
  unfold Extends
  have hnbits := h.nbits
  rcases lt_or_ge n 0 with hneg | hpos
  · rw [if_pos hneg, hcopy n (by omega)]
    exact iff_of_false (fun hr => hr.not_returns (mkCopy_spec h)) (by omega)
  · obtain ⟨k, rfl⟩ := Int.eq_ofNat_of_zero_le hpos
    rw [if_neg (by omega), Int.toNat_natCast]
    refine ⟨fun hm => ?_, fun hk => hspec k (by omega)⟩
    have hle := hm.length_le
    rw [List.length_append, List.length_replicate] at hle
    have hfits := h.fits
    omega

theorem toString_fromString_iff (h : Rep s ba l) :
    Returns (do fromString (← toString ba)) s (fun o s' => ∃ ba', o = some ba' ∧
      Rep s' ba' (padded l) ∧ s.next ≤ ba'.bits ∧ ∀ r < s.next, s'.mem r = s.mem r) ↔
      (l.length + 3) / 4 ≤ 2 ^ 56 - 1 := by
  refine ⟨fun hr => toString_le h (returns_bind_iff.mp hr), fun hlen => ?_⟩
  refine returns_bind_of (toString_spec h hlen) ?_
  rintro _ s1 ⟨rfl, hnext, hmem⟩
  have hsize : (toHex l).length = (l.length + 3) / 4 := by simp [toHex]
  refine (fromString_spec (by omega) (ofHex_toHex l)).mono ?_
  rintro o s2 ⟨ba', rfl, hrep, hlive, hmem'⟩
  exact ⟨ba', rfl, hrep, hnext.trans hlive, fun r hr =>
    (hmem' r (hr.trans_le hnext)).trans (hmem r hr)⟩

theorem fromString_toString (s : Heap) {str : List (BitVec 8)} (hstr : str.length ≤ 2 ^ 56 - 1)
    (h : ofHex str = some l) :
    Returns (fromString str) s fun o s' => ∃ ba, o = some ba ∧ Rep s' ba l ∧
      Returns (toString ba) s' fun r _ => r = str.map toLower := by
  have hlen : l.length = 4 * str.length := by
    obtain ⟨ds, hds, rfl⟩ := Option.map_eq_some_iff.mp h
    have hmapped := congrArg List.length (mapM_digitOf hds).2
    rw [List.length_map, List.length_map, List.length_reverse] at hmapped
    rw [length_flatMap_digitBits, hmapped]
  refine (fromString_spec hstr h).mono ?_
  rintro o s' ⟨ba, rfl, hrep, -⟩
  refine ⟨ba, rfl, hrep, (toString_spec hrep (by omega)).mono ?_⟩
  rintro r s'' ⟨rfl, -⟩
  exact toHex_ofHex h

theorem getBits_ofBits_iff (h : Rep s ba l) :
    Makes (do ofBits l.length (← getBits ba)) s l ↔ l.length < 2 ^ 59 - 8 := by
  have hfits := h.fits
  constructor
  · intro hm
    obtain ⟨r, s', -, hr⟩ := returns_bind_iff.mp hm
    exact ofBits_lt (by omega) hr
  · intro hlt
    refine returns_bind_of (getBits_spec h) ?_
    rintro _ s' ⟨rfl, rfl⟩
    have hidx : ∀ i ∈ trueIndices l, 0 ≤ i ∧ i < l.length := by
      intro i hi
      obtain ⟨k, hk, rfl⟩ := List.mem_map.mp hi
      have := List.mem_range.mp (List.mem_filter.mp hk).1
      omega
    have := ofBits_spec (s := s') hlt hidx
    rwa [ofIndices_trueIndices] at this

theorem ofBits_getBits_iff (s : Heap) {len : ℤ} (hlen : 0 ≤ len ∧ IsInt len) {idx : List ℤ}
    (hidx : ∀ i ∈ idx, 0 ≤ i ∧ i < len) :
    Returns (do getBits (← ofBits len idx)) s (fun r _ => r.Pairwise (· < ·) ∧
      ∀ i, i ∈ r ↔ i ∈ idx) ↔ len < 2 ^ 59 - 8 := by
  obtain ⟨n, rfl⟩ := Int.eq_ofNat_of_zero_le hlen.1
  have h62 := hlen.2.2
  constructor
  · intro hr
    have := ofBits_lt (by omega) (returns_bind_iff.mp hr)
    omega
  · intro hlt
    refine returns_bind_of (ofBits_spec (by omega) hidx) ?_
    rintro ba s' ⟨hrep, -⟩
    refine (getBits_spec hrep).mono ?_
    rintro r s'' ⟨rfl, rfl⟩
    refine ⟨pairwise_trueIndices _, fun i => ?_⟩
    rcases lt_or_ge i 0 with hneg | hpos
    · refine iff_of_false (fun hi => ?_) (fun hi => ?_)
      · obtain ⟨k, -, rfl⟩ := List.mem_map.mp hi
        omega
      · have := (hidx i hi).1
        omega
    · obtain ⟨k, rfl⟩ := Int.eq_ofNat_of_zero_le hpos
      rw [mem_trueIndices, getD_ofIndices, Bool.and_eq_true, decide_eq_true_eq, decide_eq_true_eq]
      refine ⟨fun hi => hi.2, fun hi => ⟨?_, hi⟩⟩
      have := (hidx k hi).2
      omega

/-- **The operations on blocks.**  For every array of bits: the shifts by a word and by an
integer, the extensions, the strings and the indices are what they should be exactly under
the conditions stated. -/
theorem block_operations_exact (h : Rep s ba l) :
    (∀ n : BitVec 63, Makes (rshift_w ba n) s (l.drop n.toNat) ↔ n.toNat < 2 ^ 62) ∧
    (∀ n : BitVec 63, Makes (lshift_w ba n) s (List.replicate n.toNat false ++ l) ↔
      l.length + n.toNat ≤ 2 ^ 59 - 8) ∧
    (∀ i, IsInt i → i < 0 → Raises (rshift ba i) s (fun e _ =>
      e = .fail "BitArray.rshift: negative shift")) ∧
    (∀ i, IsInt i → 0 ≤ i → Makes (rshift ba i) s (l.drop i.toNat)) ∧
    (∀ i, IsInt i → i < 0 → Raises (lshift ba i) s (fun e _ =>
      e = .fail "BitArray.lshift: negative shift")) ∧
    (∀ i, IsInt i → 0 ≤ i → (Makes (lshift ba i) s (List.replicate i.toNat false ++ l) ↔
      l.length + i.toNat ≤ 2 ^ 59 - 8)) ∧
    (∀ n, IsInt n → (Extends (extend0 ba n) s l false n ↔ 0 ≤ n ∧ n ≤ 2 ^ 59 - 8)) ∧
    (∀ n, IsInt n → (Extends (extend1 ba n) s l true n ↔ 0 ≤ n ∧ n ≤ 2 ^ 59 - 8)) ∧
    (Returns (do fromString (← toString ba)) s (fun o s' => ∃ ba', o = some ba' ∧
      Rep s' ba' (padded l) ∧ s.next ≤ ba'.bits ∧ ∀ r < s.next, s'.mem r = s.mem r) ↔
      (l.length + 3) / 4 ≤ 2 ^ 56 - 1) ∧
    (∀ str l', str.length ≤ 2 ^ 56 - 1 → ofHex str = some l' →
      Returns (fromString str) s fun o s' => ∃ ba, o = some ba ∧ Rep s' ba l' ∧
        Returns (toString ba) s' fun r _ => r = str.map toLower) ∧
    (Makes (do ofBits l.length (← getBits ba)) s l ↔ l.length < 2 ^ 59 - 8) ∧
    (∀ len idx, 0 ≤ len ∧ IsInt len → (∀ i ∈ idx, 0 ≤ i ∧ i < len) →
      (Returns (do getBits (← ofBits len idx)) s (fun r _ => r.Pairwise (· < ·) ∧
        ∀ i, i ∈ r ↔ i ∈ idx) ↔ len < 2 ^ 59 - 8)) := by
  refine ⟨fun n => rshift_w_iff h, fun n => lshift_w_iff h, fun i _ h0 => ?_,
    fun i hi h0 => rshift_spec h h0 hi.2, fun i _ h0 => ?_, fun i hi h0 => lshift_iff h h0 hi.2,
    fun n _ => ?_, fun n _ => ?_, toString_fromString_iff h,
    fun str l' hstr hl' => fromString_toString s hstr hl',
    getBits_ofBits_iff h, fun len idx hlen hidx => ofBits_getBits_iff s hlen hidx⟩
  · unfold rshift
    rw [if_pos h0]
    exact raises_throw rfl
  · unfold lshift
    rw [if_pos h0]
    exact raises_throw rfl
  · refine extends_iff h (fun n hn => ?_) (fun n hn => extend0_spec h hn) n
    unfold extend0
    rw [if_pos hn]
  · refine extends_iff h (fun n hn => ?_) (fun n hn => extend1_spec h hn) n
    unfold extend1
    rw [if_pos hn]

/-- A shift of one bit by one. -/
theorem block_operations_exact_one : Makes (rshift_w ⟨1, 0⟩ 1#63) (oneBit true) [] :=
  ((block_operations_exact (rep_oneBit true)).1 1#63).mpr (by decide)

/-- A shift of one bit by `2 ^ 62` raises an exception, and does not return the array without
bits. -/
theorem rshift_w_fails :
    Rep (oneBit true) ⟨1, 0⟩ [true] ∧
      Raises (rshift_w ⟨1, 0⟩ 0x4000000000000000#63) (oneBit true) (fun e _ => e = .overflow) ∧
      ¬ Makes (rshift_w ⟨1, 0⟩ 0x4000000000000000#63) (oneBit true) [] := by
  have hraise : Raises (rshift_w ⟨1, 0⟩ 0x4000000000000000#63) (oneBit true)
      (fun e _ => e = .overflow) := ⟨.overflow, oneBit true, rfl, rfl⟩
  exact ⟨rep_oneBit true, hraise, hraise.not_returns⟩

end SmlNj.BitArray
