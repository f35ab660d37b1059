import SmlNj.Library.BitArrayLogic
import SmlNj.Lib.StateMap

/-!
# Maps of arrays of bits

`modifyi` replaces the elements one by one.  `modify` makes whole new bytes out of the
images of their bits, but where it should set a bit in the new byte it masks the byte
with that bit, and the byte is zero from the beginning: whatever the function returns, the
array is cleared.

## Main results

* `BitArray.modify_spec` — `modify` calls the function as it should, and clears the array.
* `BitArray.modifyi_spec` — `modifyi` maps the array.
* `BitArray.array_operations_exact` — all operations, and when they are right.
-/

namespace SmlNj.BitArray

open TotalRun PackedBits StateMap

variable {τ : Type} {s s' : Heap} {ba ba' : BA} {l l' : List Bool} {i n : ℕ}

theorem bit_natCast (i : ℕ) : bit i = 1#8 <<< (i % 8) := congrArg (1#8 <<< ·) (wmask7_toNat i)

/-- A map by a function with a state leaves a list and a state, and touches no other array. -/
def Maps (m : Exec τ) (s : Heap) (ba : BA) (p : List Bool × τ) : Prop :=
  Returns m s fun t s' => t = p.2 ∧ Rep s' ba p.1 ∧ s'.next = s.next ∧
    ∀ r ≠ ba.bits, s'.mem r = s.mem r

/-! ### `modify` -/

/-- The bytes of an array are mapped one after the other, through the states `c`. -/
theorem modifyi_bytes_spec {a : ℕ} {g : ℤ → BitVec 8 → StateM τ (BitVec 8)} (c : ℕ → τ)
    {f : ℕ → Bool} (hg : ∀ i < (s.mem a).length, ∃ v,
      (g i ((s.mem a).getD i 0#8)).run (c i) = (v, c (i + 1)) ∧
        ∀ j < 8, v.getLsbD j = f (8 * i + j)) :
    Returns (W8A.modifyi g a (c 0)) s fun t' s' =>
      t' = c (s.mem a).length ∧ Copied s a f 0 (8 * (s.mem a).length) s' := by
  unfold W8A.modifyi
  refine returns_bind_of (returns_length _) ?_
  rintro len s0 ⟨rfl, rfl⟩
  refine returns_upto (fun i t => W8A.modifyi.mdf g a (s0.mem a).length i t)
    (fun i t => do
      let v ← W8A.sub a i
      W8A.update a i ((g i v).run t).1
      return ((g i v).run t).2)
    (fun i t s' => t = c i ∧ Copied s0 a f 0 (8 * i) s') (fun t => pure t)
    (n := (s0.mem a).length) (i := 0) (c := c 0) ?_ ?_ ?_ (Nat.zero_le _)
    ⟨rfl, .refl _ (by omega)⟩
  · intro i t hi
    rw [W8A.modifyi.mdf]
    by_cases hin : i = (s0.mem a).length
    · rw [if_pos hin, if_pos (by omega)]
    · rw [if_neg hin, if_neg (by omega)]
      simp only [bind_assoc, pure_bind]
      push_cast
      rfl
  · rintro i _ s' hi ⟨rfl, h⟩
    obtain ⟨v, hv, hbits⟩ := hg i hi
    refine h.sub_bind hi ?_
    rw [hv]
    refine returns_bind_of (h.update_byte hi hbits) fun _ s'' hs'' => returns_pure ⟨rfl, hs''⟩
  · exact fun t s' hs' => returns_pure hs'

theorem modify_loop_spec (f : Bool → StateM τ Bool) (l : List Bool) (t : τ) (byte : BitVec 8)
    (base : ℕ) : ∀ n r : ℕ, r + n ≤ 8 → base + r + n ≤ l.length →
      (∀ j < 8, byte.getLsbD j = l.getD (base + j) false) →
      (modify.loop f n byte 0#8 (1#8 <<< r)).run (stateAt f l t (base + r)) =
        (0#8, stateAt f l t (base + r + n)) := by
  intro n
  induction n with
  | zero => exact fun r _ _ _ => rfl
  | succ n ih =>
    intro r hr hlen hbyte
    have hlt : base + r < l.length := by omega
    have hbit : (byte &&& (1#8 <<< r) == 1#8 <<< r) = l[base + r] := by
      rw [and_bit_eq byte (by omega), hbyte r (by omega), List.getD_eq_getElem _ _ hlt]
    have hstep := mapM_step f l t hlt false
    have hmask : 1#8 <<< r <<< 1 = 1#8 <<< (r + 1) := (BitVec.shiftLeft_add 1#8 r 1).symm
    have hnext := ih (r + 1) (by omega) (by omega) hbyte
    rw [← Nat.add_assoc] at hnext
    have hadd : base + r + (n + 1) = base + r + 1 + n := by omega
    unfold modify.loop
    rw [hbit, StateT.run_bind, hstep, hmask, hadd]
    cases ((l.mapM f).run t).1.getD (base + r) false with
    | true =>
      have hzero : 0#8 &&& (1#8 <<< r) = 0#8 := BitVec.zero_and
      rw [hzero]
      exact hnext
    | false => exact hnext

/-- **`modify`** calls the function for every element in order, and clears the array. -/
theorem modify_spec (h : Rep s ba l) (f : Bool → StateM τ Bool) (t : τ) :
    Returns (modify f ba t) s fun t' s' => t' = ((l.mapM f).run t).2 ∧
      ∃ b, s' = s.put ba.bits b ∧ b.length = (l.length + 7) / 8 ∧ ∀ k, bitAt b k = false := by
  unfold modify
  rw [h.nbits]
  have hlen := h.length
  by_cases h0 : l.length = 0
  · have hnil : l = [] := List.length_eq_zero_iff.mp h0
    rw [if_pos (by exact_mod_cast h0)]
    refine returns_pure ⟨by rw [hnil]; rfl, s.mem ba.bits, (Heap.put_self s _).symm, hlen,
      fun k => ?_⟩
    rw [h.bit, hnil]
    rfl
  · have hmax : ((l.length : ℤ) - 1) = (l.length - 1 : ℕ) := by omega
    have hcount : (mask7 (l.length - 1 : ℕ) + 1).toNat = (l.length - 1) % 8 + 1 := by
      rw [mask7_natCast]
      omega
    rw [if_neg (by exact_mod_cast h0), hmax, hcount, byteOf_natCast]
    dsimp only
    -- the byte `i`, whole or in part
    have hbyte : ∀ i < (s.mem ba.bits).length, ((if (i : ℤ) < ((l.length - 1) / 8 : ℕ) then
          modify.loop f 8 ((s.mem ba.bits).getD i 0#8) 0#8 1#8
        else modify.loop f ((l.length - 1) % 8 + 1) ((s.mem ba.bits).getD i 0#8) 0#8 1#8).run
          (stateAt f l t (min (8 * i) l.length))) =
            (0#8, stateAt f l t (min (8 * (i + 1)) l.length)) := by
      intro i hi
      have hbits : ∀ j < 8, ((s.mem ba.bits).getD i 0#8).getLsbD j = l.getD (8 * i + j) false := by
        intro j hj
        rw [getLsbD_getD _ _ hj, h.bit]
      have hmin : min (8 * i) l.length = 8 * i + 0 := by omega
      by_cases hlast : i < (l.length - 1) / 8
      · have hmin' : min (8 * (i + 1)) l.length = 8 * i + 0 + 8 := by omega
        rw [if_pos (by exact_mod_cast hlast), hmin, hmin']
        exact modify_loop_spec f l t _ (8 * i) 8 0 (by omega) (by omega) hbits
      · have hmin' : min (8 * (i + 1)) l.length = 8 * i + 0 + ((l.length - 1) % 8 + 1) := by omega
        rw [if_neg (by exact_mod_cast hlast), hmin, hmin']
        exact modify_loop_spec f l t _ (8 * i) _ 0 (by omega) (by omega) hbits
    refine (modifyi_bytes_spec (fun i => stateAt f l t (min (8 * i) l.length))
      (f := fun _ => false) fun i hi => ⟨0#8, hbyte i hi, fun j _ => BitVec.getLsbD_zero⟩).mono ?_
    rintro t' s' ⟨rfl, b, rfl, hb⟩
    have hend : min (8 * (s.mem ba.bits).length) l.length = l.length := by omega
    refine ⟨by rw [hend, stateAt_length], b, rfl, hb.length_eq.trans hlen, fun k => ?_⟩
    rw [hb.bit_eq]
    split_ifs with hk
    · rfl
    · exact bitAt_eq_false (by omega)

/-! ### `modifyi` -/

/-- The function with a state that gets the indices of the elements too. -/
def mapIndices (f : ℤ → Bool → StateM τ Bool) (l : List Bool) : StateM τ (List Bool) :=
  l.zipIdx.mapM fun p => f p.2 p.1

theorem Copied.skip {a : ℕ} {f : ℕ → Bool} (h : Copied s a f 0 i s')
    (hbit : bitAt (s'.mem a) i = f i) : Copied s a f 0 (i + 1) s' := by
  obtain ⟨b, rfl, hb⟩ := h
  rw [Heap.put_mem_self] at hbit
  refine ⟨b, rfl, hb.length_eq, fun k => ?_⟩
  rcases eq_or_ne k i with rfl | hne
  · rw [if_pos ⟨Nat.zero_le k, Nat.lt_succ_self k⟩, hbit]
  · have hiff : 0 ≤ k ∧ k < i ↔ 0 ≤ k ∧ k < i + 1 := by omega
    rw [hb.bit_eq, if_congr hiff rfl rfl]

theorem Copied.update_bit {a : ℕ} {f : ℕ → Bool} {v : BitVec 8} (h : Copied s a f 0 i s')
    (hlt : i / 8 < (s.mem a).length)
    (hv : ∀ j < 8, v.getLsbD j =
      if j = i % 8 then f i else ((s'.mem a).getD (i / 8) 0#8).getLsbD j) :
    Returns (W8A.update a (i / 8 : ℕ) v) s' fun _ s'' => Copied s a f 0 (i + 1) s'' := by
  have hlt' : i / 8 < (s'.mem a).length := by rwa [h.length_eq]
  refine (returns_update hlt' v).mono ?_
  rintro - s'' rfl
  refine h.put (h.blit.write hlt' (fun k hk => by omega) fun j hj => ?_)
  rw [hv j hj]
  by_cases hji : j = i % 8
  · have hsplit : 8 * (i / 8) + j = i := by omega
    rw [if_pos hji, hsplit, if_pos ⟨Nat.zero_le i, Nat.lt_succ_self i⟩]
  · have hiff : 0 ≤ 8 * (i / 8) + j ∧ 8 * (i / 8) + j < i ↔
        0 ≤ 8 * (i / 8) + j ∧ 8 * (i / 8) + j < i + 1 := by omega
    rw [if_neg hji, getLsbD_getD _ _ hj, h.blit.bit_eq, if_congr hiff rfl rfl]

theorem replace_bit_spec {a : ℕ} {f : ℕ → Bool} {b b' : Bool} (h : Copied s a f 0 i s')
    (hlt : i / 8 < (s.mem a).length) (hold : bitAt (s'.mem a) i = b) (hnew : f i = b') :
    Returns (if b = b' then pure ()
      else if b' then W8A.update a (i / 8 : ℕ) ((s'.mem a).getD (i / 8) 0#8 ||| bit i)
      else W8A.update a (i / 8 : ℕ) ((s'.mem a).getD (i / 8) 0#8 &&& ~~~bit i)) s' fun _ s'' =>
        Copied s a f 0 (i + 1) s'' := by
  have hi8 : i % 8 < 8 := Nat.mod_lt i (by norm_num)
  by_cases hsame : b = b'
  · rw [if_pos hsame]
    exact returns_pure (h.skip (by rw [hold, hsame, hnew]))
  · rw [if_neg hsame, bit_natCast]
    cases b' with
    | true =>
      refine h.update_bit hlt fun j hj => ?_
      rw [getLsbD_set_bit _ hi8 hj, hnew]
      split_ifs with hji <;> simp [hji]
    | false =>
      refine h.update_bit hlt fun j hj => ?_
      rw [getLsbD_clear_bit _ hi8 hj, hnew]
      split_ifs with hji <;> simp [hji]

/-- The loop of `modifyi'`, over all elements.  The state `c` is the one that the calls so
far have left, and the elements so far are their results. -/
theorem modifyi_loop_spec (h : Rep s ba l) (f : ℤ → Bool → StateM τ Bool) (t : τ) :
    Returns (modifyi'.loop f ba.bits l.length 0 t) s fun t' s' =>
      t' = ((mapIndices f l).run t).2 ∧
        Copied s ba.bits (fun k => ((mapIndices f l).run t).1.getD k false) 0 l.length s' := by
  have hlen := h.length
  unfold mapIndices
  set g : Bool × ℕ → StateM τ Bool := fun p => f p.2 p.1 with hg
  set r := ((l.zipIdx.mapM g).run t).1 with hr
  have hend : ((l.zipIdx.mapM g).run t).2 = stateAt g l.zipIdx t l.length := by
    rw [← stateAt_length, List.length_zipIdx]
  rw [hend]
  refine returns_upto (fun i t => modifyi'.loop f ba.bits l.length i t)
    (fun i t => do
      let byte ← W8A.sub ba.bits (i / 8 : ℕ)
      let p := (f i (byte &&& bit i != 0#8)).run t
      let _ ← (if (byte &&& bit i != 0#8) = p.1 then pure ()
        else if p.1 then W8A.update ba.bits (i / 8 : ℕ) (byte ||| bit i)
        else W8A.update ba.bits (i / 8 : ℕ) (byte &&& ~~~bit i) :)
      return p.2)
    (fun i c s' => c = stateAt g l.zipIdx t i ∧
      Copied s ba.bits (fun k => r.getD k false) 0 i s')
    (fun t => pure t) (n := l.length) (i := 0) (c := t) ?_ ?_ ?_ (Nat.zero_le _)
    ⟨rfl, .refl _ le_rfl⟩
  · intro i c hi
    rw [modifyi'.loop]
    by_cases hil : i = l.length
    · rw [if_pos (by exact_mod_cast hil), if_pos hil]
    · rw [if_neg (by exact_mod_cast hil), if_neg hil, byteOf_natCast]
      simp only [bind_assoc, pure_bind]
      push_cast
      rfl
  · rintro i _ s' hi ⟨rfl, hc⟩
    have hlt : i / 8 < (s.mem ba.bits).length := by omega
    have hi8 : i % 8 < 8 := Nat.mod_lt i (by norm_num)
    have hsplit : 8 * (i / 8) + i % 8 = i := by omega
    have hold : bitAt (s'.mem ba.bits) i = l[i] := by
      rw [hc.blit.bit_eq, if_neg (by omega), h.bit, List.getD_eq_getElem _ _ hi]
    have hbyte : (((s'.mem ba.bits).getD (i / 8) 0#8) &&& bit i != 0#8) = l[i] := by
      rw [bit_natCast, and_bit_ne _ hi8, getLsbD_getD _ _ hi8, hsplit, hold]
    have hstep : (f i l[i]).run (stateAt g l.zipIdx t i) =
        (r.getD i false, stateAt g l.zipIdx t (i + 1)) := by
      have := mapM_step g l.zipIdx t (i := i) (by rwa [List.length_zipIdx]) false
      rwa [List.getElem_zipIdx, Nat.zero_add] at this
    refine BitArray.sub_bind (by rwa [hc.length_eq]) ?_
    rw [hbyte, hstep]
    exact returns_bind_of (replace_bit_spec hc hlt hold rfl) fun _ s'' hs'' =>
      returns_pure ⟨rfl, hs''⟩
  · exact fun c s' hs' => returns_pure hs'

/-- **`modifyi`** replaces every element by the image of its index and itself, in order. -/
theorem modifyi_spec (h : Rep s ba l) (f : ℤ → Bool → StateM τ Bool) (t : τ) :
    Maps (modifyi f ba t) s ba ((mapIndices f l).run t) := by
  have hrlen : ((mapIndices f l).run t).1.length = l.length :=
    (length_mapM _ _ t).trans List.length_zipIdx
  unfold modifyi modifyi'
  rw [h.nbits]
  by_cases h0 : l.length = 0
  · have hnil : l = [] := List.length_eq_zero_iff.mp h0
    rw [if_pos (by exact_mod_cast h0)]
    exact returns_pure ⟨by rw [hnil]; rfl, by rwa [hnil] at h ⊢, rfl, fun _ _ => rfl⟩
  · have hvalid : valid l.length 0 none = pure (l.length : ℤ) := by
      unfold valid
      rw [if_neg (by omega), Int.sub_zero]
    rw [if_neg (by exact_mod_cast h0), hvalid, pure_bind]
    dsimp only
    rw [Int.zero_add]
    refine (modifyi_loop_spec h f t).mono ?_
    rintro t' s' ⟨rfl, b, rfl, hb⟩
    refine ⟨rfl, h.put hrlen (hb.length_eq.trans h.length) fun k => ?_, rfl,
      fun r hr => Heap.put_mem_of_ne hr b⟩
    rw [hb.bit_eq, h.bit]
    by_cases hk : k < l.length
    · rw [if_pos ⟨Nat.zero_le k, hk⟩]
    · rw [if_neg fun hk' => hk hk'.2, List.getD_eq_default _ _ (by omega),
        List.getD_eq_default _ _ (by omega)]

/-! ### All operations -/

/-- **`modify` is right exactly when the function returns `false` for every element**, in
order. -/
theorem modify_iff (h : Rep s ba l) (f : Bool → StateM τ Bool) (t : τ) :
    Maps (modify f ba t) s ba ((l.mapM f).run t) ↔ ∀ b ∈ ((l.mapM f).run t).1, b = false := by
  have hrlen : ((l.mapM f).run t).1.length = l.length := length_mapM f l t
  constructor
  · intro hm b hb
    obtain ⟨t', s', ⟨-, hrep, -⟩, -, c, rfl, -, hzero⟩ := Returns.and hm (modify_spec h f t)
    obtain ⟨k, hk, rfl⟩ := List.getElem_of_mem hb
    rw [← List.getD_eq_getElem _ false hk, ← hrep.bit, Heap.put_mem_self]
    exact hzero k
  · intro hall
    refine (modify_spec h f t).mono ?_
    rintro t' s' ⟨rfl, b, rfl, hb, hzero⟩
    refine ⟨rfl, h.put hrlen hb fun k => ?_, rfl, fun r hr => Heap.put_mem_of_ne hr b⟩
    rw [hzero, List.eq_replicate_of_mem hall]
    by_cases hk : k < ((l.mapM f).run t).1.length
    · rw [List.getD_replicate _ hk]
    · rw [List.getD_eq_default _ _ (by simpa using hk)]

/-- **The operations on arrays of booleans.**  For every two arrays of bits, which may be the
same: the maps, the combinations into a new array, the combinations and the inversion in
place, and the comparison are what they should be exactly under the conditions stated. -/
theorem array_operations_exact (h : Rep s ba l) (h' : Rep s ba' l') :
    (∀ (τ : Type) (f : Bool → StateM τ Bool) (t : τ),
      Maps (modify f ba t) s ba ((l.mapM f).run t) ↔ ∀ b ∈ ((l.mapM f).run t).1, b = false) ∧
    (∀ (τ : Type) (f : ℤ → Bool → StateM τ Bool) (t : τ),
      Maps (modifyi f ba t) s ba ((mapIndices f l).run t)) ∧
    (∀ n : ℕ, Makes (andb ba ba' n) s (combine (· && ·) n l l') ↔ n ≤ 2 ^ 59 - 8) ∧
    (∀ n : ℕ, Makes (orb ba ba' n) s (combine (· || ·) n l l') ↔ n ≤ 2 ^ 59 - 8) ∧
    (∀ n : ℕ, Makes (xorb ba ba' n) s (combine (· ^^ ·) n l l') ↔ n ≤ 2 ^ 59 - 8) ∧
    Updates (union ba ba') s ba (combine (· || ·) l.length l l') ∧
    Updates (intersection ba ba') s ba (combine (· && ·) l.length l l') ∧
    Makes (notb ba) s (l.map not) ∧
    Updates (complement ba) s ba (l.map not) ∧
    Returns (eqBits ba ba') s (fun b s' => s' = s ∧
      (b = true ↔ ∀ k, l.getD k false = true ↔ l'.getD k false = true)) := by
  refine ⟨fun _ => modify_iff h, fun _ => modifyi_spec h, andb_iff h h', orb_iff h h',
    xorb_iff h h', union_spec h h', intersection_spec h h', notb_spec h, complement_spec h,
    (eqBits_spec h h').mono ?_⟩
  rintro b s' ⟨rfl, hb⟩
  refine ⟨rfl, hb.trans (forall_congr' fun k => ?_)⟩
  exact Bool.eq_iff_iff

/-- The identity, on an array of one bit that is not set. -/
theorem array_operations_exact_one :
    Maps (modify pure ⟨1, 0⟩ ()) (oneBit false) ⟨1, 0⟩ ([false], ()) :=
  ((array_operations_exact (rep_oneBit false) (rep_oneBit false)).1 Unit pure ()).mpr (by decide)

/-- The identity clears an array of one bit that is set. -/
theorem modify_fails :
    Rep (oneBit true) ⟨1, 0⟩ [true] ∧
      Returns (modify pure ⟨1, 0⟩ ()) (oneBit true) (fun _ s' => Rep s' ⟨1, 0⟩ [false]) ∧
      ¬ Maps (modify pure ⟨1, 0⟩ ()) (oneBit true) ⟨1, 0⟩ ([true], ()) := by
  have hrep := rep_oneBit true
  have hbits := modify_spec hrep pure ()
  refine ⟨hrep, hbits.mono ?_, fun hm => ?_⟩
  · rintro _ s' ⟨-, b, rfl, hb, hzero⟩
    exact hrep.put rfl hb fun k => (hzero k).trans (by cases k <;> rfl)
  · exact absurd ((modify_iff hrep pure ()).mp hm true (List.mem_singleton_self true)) nofun

end SmlNj.BitArray
