import SmlNj.Library.BitArrayBlocks

/-!
# Arrays of bits as hexadecimal strings

A list of booleans is written with a hexadecimal digit for every four of them, the first
ones in the last digit.  Writing and reading again pads the list with zeros to a multiple
of four; reading and writing again gives the string back, with small letters.  The code
does both byte by byte, and leaves the loop that writes by its exception.

## Main definitions

* `BitArray.toHex`, `BitArray.ofHex` — what the strings stand for.

## Main results

* `BitArray.ofHex_toHex`, `BitArray.toHex_ofHex` — the two are inverse.
* `BitArray.toString_spec`, `BitArray.fromString_spec` — the code computes them.
-/

namespace SmlNj.BitArray

open TotalRun PackedBits

/-! ### The format -/

/-- The value of a hexadecimal digit. -/
def digitOf (c : BitVec 8) : Option (BitVec 8) :=
  if 0x30#8 ≤ c ∧ c ≤ 0x39#8 then some (c - 0x30#8)
  else if 0x41#8 ≤ c ∧ c ≤ 0x46#8 then some (c - 0x41#8 + 10#8)
  else if 0x61#8 ≤ c ∧ c ≤ 0x66#8 then some (c - 0x61#8 + 10#8)
  else none

def toLower (c : BitVec 8) : BitVec 8 :=
  if 0x41#8 ≤ c ∧ c ≤ 0x46#8 then c + 0x20#8 else c

def digitBits (d : BitVec 8) : List Bool :=
  [d.getLsbD 0, d.getLsbD 1, d.getLsbD 2, d.getLsbD 3]

def ofHex (str : List (BitVec 8)) : Option (List Bool) :=
  (str.reverse.mapM digitOf).map fun ds => ds.flatMap digitBits

/-- The digit `d` of a list. -/
def digitAt (l : List Bool) (d : ℕ) : BitVec 8 :=
  BitVec.ofNat 8 ((l.getD (4 * d) false).toNat + 2 * (l.getD (4 * d + 1) false).toNat +
    4 * (l.getD (4 * d + 2) false).toNat + 8 * (l.getD (4 * d + 3) false).toNat)

def toHex (l : List Bool) : List (BitVec 8) :=
  ((List.range ((l.length + 3) / 4)).map fun d => hexs.getD (digitAt l d).toNat 0#8).reverse

/-- The digits of a byte, their characters and their bits. -/
theorem hex_spec :
    hexs = [0x30#8, 0x31#8, 0x32#8, 0x33#8, 0x34#8, 0x35#8, 0x36#8, 0x37#8, 0x38#8,
      0x39#8, 0x61#8, 0x62#8, 0x63#8, 0x64#8, 0x65#8, 0x66#8] ∧
    ∀ c : BitVec 8,
      (digitOf c).all (fun d =>
        decide (d < 16#8 ∧ hexs.getD d.toNat 0#8 = toLower c)) = true ∧
      (c < 16#8 → digitOf (hexs.getD c.toNat 0#8) = some c ∧ c = digitAt (digitBits c) 0) ∧
      c &&& 0x0f#8 = BitVec.ofNat 8 ((c.getLsbD 0).toNat + 2 * (c.getLsbD 1).toNat +
        4 * (c.getLsbD 2).toNat + 8 * (c.getLsbD 3).toNat) ∧
      c >>> 4 = BitVec.ofNat 8 ((c.getLsbD 4).toNat + 2 * (c.getLsbD 5).toNat +
        4 * (c.getLsbD 6).toNat + 8 * (c.getLsbD 7).toNat) := by
  decide +kernel

variable {c d : BitVec 8} {str : List (BitVec 8)} {len : ℕ}

theorem digitOf_spec (h : digitOf c = some d) : d < 16#8 ∧ hexs.getD d.toNat 0#8 = toLower c := by
  have hc := (hex_spec.2 c).1
  rw [h, Option.all_some, decide_eq_true_eq] at hc
  exact hc

theorem digitOf_hexs (d : BitVec 8) (h : d < 16#8) : digitOf (hexs.getD d.toNat 0#8) = some d :=
  ((hex_spec.2 d).2.1 h).1

theorem digitAt_lt (l : List Bool) (d : ℕ) : digitAt l d < 16#8 := by
  unfold digitAt
  generalize l.getD (4 * d) false = b0
  generalize l.getD (4 * d + 1) false = b1
  generalize l.getD (4 * d + 2) false = b2
  generalize l.getD (4 * d + 3) false = b3
  revert b0 b1 b2 b3
  decide

theorem digitBits_digitAt (l : List Bool) (d : ℕ) :
    digitBits (digitAt l d) = [l.getD (4 * d) false, l.getD (4 * d + 1) false,
      l.getD (4 * d + 2) false, l.getD (4 * d + 3) false] := by
  unfold digitAt
  generalize l.getD (4 * d) false = b0
  generalize l.getD (4 * d + 1) false = b1
  generalize l.getD (4 * d + 2) false = b2
  generalize l.getD (4 * d + 3) false = b3
  revert b0 b1 b2 b3
  decide

theorem eq_of_digitBits (hc : c < 16#8) (hd : d < 16#8) (h : digitBits c = digitBits d) :
    c = d := by
  have hval : ∀ c : BitVec 8, c < 16#8 → c = digitAt (digitBits c) 0 := fun c hc =>
    ((hex_spec.2 c).2.1 hc).2
  rw [hval c hc, hval d hd, h]

theorem getLsbD_digit {j : ℕ} (hd : d < 16#8) (hj : 4 ≤ j) : d.getLsbD j = false := by
  refine Nat.testBit_lt_two_pow (lt_of_lt_of_le hd ?_)
  exact Nat.pow_le_pow_right (n := 2) (by norm_num) hj

theorem length_flatMap_digitBits (ds : List (BitVec 8)) :
    (ds.flatMap digitBits).length = 4 * ds.length := by
  induction ds with
  | nil => rfl
  | cons d ds ih =>
    rw [List.flatMap_cons, List.length_append]
    simp only [digitBits, List.length_cons, List.length_nil]
    omega

theorem getD_flatMap_digitBits (ds : List (BitVec 8)) (k : ℕ) :
    (ds.flatMap digitBits).getD k false = (ds.getD (k / 4) 0#8).getLsbD (k % 4) := by
  induction ds generalizing k with
  | nil => simp
  | cons d ds ih =>
    rw [List.flatMap_cons]
    rcases lt_or_ge k 4 with hlt | hge
    · rw [List.getD_append _ _ _ _ (by simpa [digitBits] using hlt)]
      interval_cases k <;> rfl
    · have hdiv : k / 4 = (k - 4) / 4 + 1 := by omega
      have hmod : k % 4 = (k - 4) % 4 := by omega
      rw [List.getD_append_right _ _ _ _ (by simpa [digitBits] using hge), hdiv,
        List.getD_cons_succ,
        hmod, ← ih]
      rfl

theorem ext_getD {l l' : List Bool} (hlen : l.length = l'.length)
    (h : ∀ k, l.getD k false = l'.getD k false) : l = l' := by
  refine List.ext_getElem hlen fun k hk hk' => ?_
  have := h k
  rwa [List.getD_eq_getElem _ _ hk, List.getD_eq_getElem _ _ hk'] at this

def padded (l : List Bool) : List Bool :=
  l ++ List.replicate (4 * ((l.length + 3) / 4) - l.length) false

theorem flatMap_digitAt (l : List Bool) :
    ((List.range ((l.length + 3) / 4)).map (digitAt l)).flatMap digitBits = padded l := by
  refine ext_getD ?_ fun k => ?_
  · rw [length_flatMap_digitBits, List.length_map, List.length_range, padded, List.length_append,
      List.length_replicate]
    omega
  · rw [getD_flatMap_digitBits, padded, getD_append_false]
    rcases lt_or_ge (k / 4) ((l.length + 3) / 4) with hlt | hge
    · rw [List.getD_eq_getElem _ _ (by simpa using hlt), List.getElem_map, List.getElem_range]
      have hbits := digitBits_digitAt l (k / 4)
      unfold digitBits at hbits
      simp only [List.cons.injEq, and_true] at hbits
      have hk : 4 * (k / 4) + k % 4 = k := by omega
      have hk4 : k % 4 < 4 := Nat.mod_lt k (by norm_num)
      conv_rhs => rw [← hk]
      interval_cases k % 4
      · exact hbits.1
      · exact hbits.2.1
      · exact hbits.2.2.1
      · exact hbits.2.2.2
    · rw [List.getD_eq_default _ _ (by simpa using hge), List.getD_eq_default l _ (by omega)]
      exact BitVec.getLsbD_zero

/-- **Writing and reading again** pads the list with zeros. -/
theorem ofHex_toHex (l : List Bool) : ofHex (toHex l) = some (padded l) := by
  have hdigits : ∀ ds : List ℕ, (ds.map fun d => hexs.getD (digitAt l d).toNat 0#8).mapM digitOf =
      some (ds.map (digitAt l)) := by
    intro ds
    induction ds with
    | nil => rfl
    | cons d ds ih =>
      rw [List.map_cons, List.mapM_cons, ih, digitOf_hexs _ (digitAt_lt l d)]
      rfl
  unfold ofHex toHex
  rw [List.reverse_reverse, hdigits]
  exact congrArg some (flatMap_digitAt l)

theorem mapM_digitOf {ds : List (BitVec 8)} (h : str.mapM digitOf = some ds) :
    (∀ d ∈ ds, d < 16#8) ∧ ds.map (fun d => hexs.getD d.toNat 0#8) = str.map toLower := by
  induction str generalizing ds with
  | nil =>
    cases h
    exact ⟨by simp, rfl⟩
  | cons c str ih =>
    rw [List.mapM_cons] at h
    cases hc : digitOf c with
    | none =>
      rw [hc] at h
      cases h
    | some d =>
      cases hstr : str.mapM digitOf with
      | none =>
        rw [hc, hstr] at h
        cases h
      | some ds' =>
        rw [hc, hstr] at h
        cases h
        obtain ⟨hlt, hmap⟩ := ih hstr
        obtain ⟨hd, hlower⟩ := digitOf_spec hc
        refine ⟨?_, ?_⟩
        · rintro d' (_ | ⟨_, hd'⟩)
          · exact hd
          · exact hlt d' hd'
        · rw [List.map_cons, List.map_cons, hlower, hmap]

/-- **Reading and writing again** gives the string back, with small letters. -/
theorem toHex_ofHex {l : List Bool} (h : ofHex str = some l) : toHex l = str.map toLower := by
  obtain ⟨ds, hds, rfl⟩ := Option.map_eq_some_iff.mp h
  obtain ⟨hlt, hmap⟩ := mapM_digitOf hds
  have hlen := length_flatMap_digitBits ds
  have hN : ((ds.flatMap digitBits).length + 3) / 4 = ds.length := by omega
  have hdigits : (List.range ds.length).map (digitAt (ds.flatMap digitBits)) = ds := by
    refine List.ext_getElem (by simp) fun i hi hi' => ?_
    rw [List.getElem_map, List.getElem_range]
    refine eq_of_digitBits (digitAt_lt _ i) (hlt _ (List.getElem_mem hi')) ?_
    rw [digitBits_digitAt]
    simp only [getD_flatMap_digitBits]
    have h0 : 4 * i / 4 = i := by omega
    have h1 : (4 * i + 1) / 4 = i := by omega
    have h2 : (4 * i + 2) / 4 = i := by omega
    have h3 : (4 * i + 3) / 4 = i := by omega
    have m0 : 4 * i % 4 = 0 := by omega
    have m1 : (4 * i + 1) % 4 = 1 := by omega
    have m2 : (4 * i + 2) % 4 = 2 := by omega
    have m3 : (4 * i + 3) % 4 = 3 := by omega
    rw [h0, h1, h2, h3, m0, m1, m2, m3, List.getD_eq_getElem _ _ hi']
    rfl
  unfold toHex
  rw [hN]
  have hcomp : (List.range ds.length).map
      (fun d => hexs.getD (digitAt (ds.flatMap digitBits) d).toNat 0#8) =
      ((List.range ds.length).map (digitAt (ds.flatMap digitBits))).map
        fun d => hexs.getD d.toNat 0#8 := by
    rw [List.map_map]
    rfl
  rw [hcomp, hdigits, hmap, List.map_reverse, List.reverse_reverse]

/-! ### Reading -/

variable {s : Heap} {ba : BA} {l : List Bool}

theorem nibble_of (h : digitOf c = some d) : nibble c = pure d := by
  unfold digitOf at h
  unfold nibble
  split_ifs at h ⊢ <;> cases h <;> rfl

/-- The digits are put into the bytes in pairs.  The recursion is that of the code. -/
theorem init_spec (bv : BA) {ds : List (BitVec 8)} (hds : ∀ d ∈ ds, d < 16#8)
    (hlen : (s.mem bv.bits).length = (ds.length + 1) / 2) :
    ∀ (str : List (BitVec 8)) (i : ℕ) {s' : Heap}, 2 * i ≤ ds.length + 1 →
      str.mapM digitOf = some (ds.drop (2 * i)) →
      Copied s bv.bits (fun k => (ds.getD (k / 4) 0#8).getLsbD (k % 4)) 0 (8 * i) s' →
      Returns (fromString.init bv str i) s' fun o s'' => o = some bv ∧
        Copied s bv.bits (fun k => (ds.getD (k / 4) 0#8).getLsbD (k % 4)) 0
          (8 * ((ds.length + 1) / 2)) s''
  | [], i, s', hi, hstr, hs' => by
    have hnil : ds.drop (2 * i) = [] := (Option.some.inj hstr).symm
    have hle : ds.length ≤ 2 * i := List.drop_eq_nil_iff.mp hnil
    have heq : 8 * ((ds.length + 1) / 2) = 8 * i := by omega
    rw [heq]
    exact returns_pure ⟨rfl, hs'⟩
  | [x], i, s', hi, hstr, hs' => by
    cases hx : digitOf x with
    | none =>
      rw [List.mapM_cons, hx] at hstr
      cases hstr
    | some d =>
      rw [List.mapM_cons, hx] at hstr
      have hdrop : ds.drop (2 * i) = [d] := (Option.some.inj hstr).symm
      have hlen1 := congrArg List.length hdrop
      rw [List.length_drop, List.length_singleton] at hlen1
      have hget : ds.getD (2 * i) 0#8 = d := by
        rw [List.getD_eq_getElem?_getD, ← Nat.add_zero (2 * i), ← List.getElem?_drop, hdrop]
        rfl
      have hlt : i < (s'.mem bv.bits).length := by
        rw [hs'.blit.length_eq]
        omega
      have heq : 8 * ((ds.length + 1) / 2) = 8 * (i + 1) := by omega
      unfold fromString.init
      rw [nibble_of hx, heq]
      refine update_bind hlt (returns_pure ⟨rfl,
        hs'.put (hs'.blit.write_byte (Nat.zero_le _) hlt ?_)⟩)
      intro j hj
      rcases lt_or_ge j 4 with hj4 | hj4
      · have hdiv : (8 * i + j) / 4 = 2 * i := by omega
        have hmod : (8 * i + j) % 4 = j := by omega
        rw [hdiv, hmod, hget]
      · have hdiv : (8 * i + j) / 4 = 2 * i + 1 := by omega
        have hd : d < 16#8 := by
          rw [← hget, List.getD_eq_getElem _ _ (by omega)]
          exact hds _ (List.getElem_mem _)
        rw [getLsbD_digit hd hj4, List.getD_eq_default _ _ (by omega)]
        exact BitVec.getLsbD_zero.symm
  | x1 :: x2 :: r, i, s', hi, hstr, hs' => by
    cases hx1 : digitOf x1 with
    | none =>
      rw [List.mapM_cons, hx1] at hstr
      cases hstr
    | some d1 =>
      cases hx2 : digitOf x2 with
      | none =>
        rw [List.mapM_cons, List.mapM_cons, hx1, hx2] at hstr
        cases hstr
      | some d2 =>
        cases hr : r.mapM digitOf with
        | none =>
          rw [List.mapM_cons, List.mapM_cons, hx1, hx2, hr] at hstr
          cases hstr
        | some rest =>
          rw [List.mapM_cons, List.mapM_cons, hx1, hx2, hr] at hstr
          have hdrop : ds.drop (2 * i) = d1 :: d2 :: rest := (Option.some.inj hstr).symm
          have hlen2 := congrArg List.length hdrop
          rw [List.length_drop, List.length_cons] at hlen2
          have hrest : ds.drop (2 * (i + 1)) = rest := by
            rw [Nat.mul_add, ← List.drop_drop, hdrop]
            rfl
          have hget1 : ds.getD (2 * i) 0#8 = d1 := by
            rw [List.getD_eq_getElem?_getD, ← Nat.add_zero (2 * i), ← List.getElem?_drop, hdrop]
            rfl
          have hget2 : ds.getD (2 * i + 1) 0#8 = d2 := by
            rw [List.getD_eq_getElem?_getD, ← List.getElem?_drop, hdrop]
            rfl
          have hd1 : d1 < 16#8 := by
            rw [← hget1, List.getD_eq_getElem _ _ (by omega)]
            exact hds _ (List.getElem_mem _)
          have hlt : i < (s'.mem bv.bits).length := by
            rw [hs'.blit.length_eq]
            omega
          have hcast : ((i : ℤ) + 1) = (i + 1 : ℕ) := by omega
          unfold fromString.init
          rw [nibble_of hx1, nibble_of hx2]
          refine update_bind hlt (init_spec bv hds hlen r (i + 1) (by omega) (by rw [hr, hrest]) ?_)
          refine hs'.put (hs'.blit.write_byte (Nat.zero_le _) hlt fun j hj => ?_)
          rw [BitVec.getLsbD_or, BitVec.getLsbD_shiftLeft]
          rcases lt_or_ge j 4 with hj4 | hj4
          · have hdiv : (8 * i + j) / 4 = 2 * i := by omega
            have hmod : (8 * i + j) % 4 = j := by omega
            rw [hdiv, hmod, hget1]
            simp [hj4]
          · have hdiv : (8 * i + j) / 4 = 2 * i + 1 := by omega
            have hmod : (8 * i + j) % 4 = j - 4 := by omega
            rw [hdiv, hmod, hget2, getLsbD_digit hd1 hj4]
            simp [hj, Nat.not_lt.mpr hj4]

/-- **Reading** a string of digits makes the array of its bits. -/
theorem fromString_spec (hstr : str.length ≤ 2 ^ 56 - 1) (h : ofHex str = some l) :
    Returns (fromString str) s fun o s' => ∃ ba, o = some ba ∧ Rep s' ba l ∧ s.next ≤ ba.bits ∧
      ∀ r < s.next, s'.mem r = s.mem r := by
  obtain ⟨ds, hds, rfl⟩ := Option.map_eq_some_iff.mp h
  have hlen : ds.length = str.length := by
    have hmapped := congrArg List.length (mapM_digitOf hds).2
    rwa [List.length_map, List.length_map, List.length_reverse] at hmapped
  have hfits : (ds.flatMap digitBits).length = 4 * str.length := by
    rw [length_flatMap_digitBits, hlen]
  have hcast : (4 * (str.length : ℤ)) = (4 * str.length : ℕ) := by omega
  refine returns_tryCatch ?_
  rw [hcast]
  refine returns_bind_of (array_spec (by omega)) ?_
  rintro bv s' ⟨rfl, rfl⟩
  have hbytes : (4 * str.length + 7) / 8 = (ds.length + 1) / 2 := by omega
  rw [hbytes]
  refine (init_spec (s := s.push (List.replicate ((ds.length + 1) / 2) 0#8))
    ⟨(4 * str.length : ℕ), s.next⟩ (mapM_digitOf hds).1
    (by rw [Heap.push_mem_self, List.length_replicate]) str.reverse 0 (by omega)
    (by rw [hds]; rfl) (.refl _ (by omega))).mono ?_
  rintro o s' ⟨rfl, b, rfl, hb⟩
  rw [Heap.push_mem_self] at hb
  rw [Heap.push_put]
  refine ⟨_, rfl, ⟨by rw [hfits], Nat.lt_succ_self s.next, by omega, ?_, fun k => ?_⟩, le_rfl,
    fun r hr => Heap.push_mem_of_ne (Nat.ne_of_lt hr) b⟩
  · rw [Heap.push_mem_self, hb.length_eq, List.length_replicate]
    omega
  · rw [Heap.push_mem_self, hb.bit_eq, bitAt_replicate_zero, getD_flatMap_digitBits]
    split_ifs with hk
    · rfl
    · rw [List.getD_eq_default _ _ (by omega)]
      exact BitVec.getLsbD_zero.symm

/-! ### Writing -/

/-- The character for the digit `d` of a list. -/
def hexAt (l : List Bool) (d : ℕ) : BitVec 8 := hexs.getD (digitAt l d).toNat 0#8

/-- The last `m` characters of a string are those of the first digits. -/
def Digits (l : List Bool) (len m : ℕ) (str : List (BitVec 8)) : Prop :=
  str.length = len ∧ ∀ d < m, str.getD (len - 1 - d) 0#8 = hexAt l d

theorem Digits.set {m : ℕ} (h : Digits l len m str) (hm : m < len) :
    Digits l len (m + 1) (str.set (len - 1 - m) (hexAt l m)) := by
  refine ⟨List.length_set.trans h.1, fun d hd => ?_⟩
  rw [List.getD_eq_getElem?_getD, List.getElem?_set]
  rcases Nat.lt_succ_iff_lt_or_eq.mp hd with hlt | rfl
  · rw [if_neg (by omega)]
    exact h.2 d hlt
  · rw [if_pos rfl, if_pos (by rw [h.1]; omega)]
    rfl

theorem Digits.eq_toHex (h : Digits l ((l.length + 3) / 4) ((l.length + 3) / 4) str) :
    str = toHex l := by
  unfold toHex
  refine List.ext_getElem (by rw [h.1]; simp) fun p hp hp' => ?_
  rw [h.1] at hp
  have hget := h.2 ((l.length + 3) / 4 - 1 - p) (by omega)
  have hsub : (l.length + 3) / 4 - 1 - ((l.length + 3) / 4 - 1 - p) = p := by omega
  rw [hsub, List.getD_eq_getElem _ _ (by rwa [h.1])] at hget
  rw [hget, List.getElem_reverse, List.getElem_map, List.getElem_range, List.length_map,
    List.length_range]
  rfl

theorem byte_digits (v : BitVec 8) :
    v &&& 0x0f#8 = BitVec.ofNat 8 ((v.getLsbD 0).toNat + 2 * (v.getLsbD 1).toNat +
      4 * (v.getLsbD 2).toNat + 8 * (v.getLsbD 3).toNat) ∧
    v >>> 4 = BitVec.ofNat 8 ((v.getLsbD 4).toNat + 2 * (v.getLsbD 5).toNat +
      4 * (v.getLsbD 6).toNat + 8 * (v.getLsbD 7).toNat) :=
  (hex_spec.2 v).2.2

theorem digitAt_byte (h : Rep s ba l) (i : ℕ) :
    (s.mem ba.bits).getD i 0#8 &&& 0x0f#8 = digitAt l (2 * i) ∧
      (s.mem ba.bits).getD i 0#8 >>> 4 = digitAt l (2 * i + 1) := by
  obtain ⟨hlow, hhigh⟩ := byte_digits ((s.mem ba.bits).getD i 0#8)
  have hbit : ∀ j < 8, ((s.mem ba.bits).getD i 0#8).getLsbD j = l.getD (8 * i + j) false := by
    intro j hj
    rw [getLsbD_getD _ _ hj, h.bit]
  have h4 : 4 * (2 * i) = 8 * i := by omega
  have h8 : 4 * (2 * i + 1) = 8 * i + 4 := by omega
  rw [hlow, hhigh]
  unfold digitAt
  rw [hbit 0 (by omega), hbit 1 (by omega), hbit 2 (by omega), hbit 3 (by omega),
    hbit 4 (by omega), hbit 5 (by omega), hbit 6 (by omega), hbit 7 (by omega), h4, h8]
  exact ⟨rfl, rfl⟩

theorem returns_hexs (h : d < 16#8) :
    Returns (W8V.sub hexs d.toNat) s fun v s' => v = hexs.getD d.toNat 0#8 ∧ s' = s := by
  have hlen : hexs.length = 16 := by
    rfl
  rw [BitVec.lt_def, BitVec.toNat_ofNat] at h
  unfold W8V.sub
  rw [if_pos (by omega)]
  exact returns_pure ⟨rfl, rfl⟩

def putDigit (a : ℕ) (j : ℤ) (v : BitVec 8) : Exec Unit := do
  W8A.update a j (← W8V.sub hexs v.toNat)

theorem putDigit_spec {s' : Heap} {m a : ℕ} {j : ℤ} {v : BitVec 8} (hv : v = digitAt l m)
    (hj : j = (len - 1 - m : ℕ)) (hm : m < len) (hs' : ∃ b, s' = s.put a b ∧ Digits l len m b) :
    Returns (putDigit a j v) s' fun _ s'' => ∃ b, s'' = s.put a b ∧ Digits l len (m + 1) b := by
  obtain ⟨b, rfl, hb⟩ := hs'
  subst hv hj
  refine returns_bind_of (returns_hexs (digitAt_lt l m)) ?_
  rintro _ s' ⟨rfl, rfl⟩
  refine (returns_update (by rw [Heap.put_mem_self, hb.1]; omega) _).mono ?_
  rintro - s' rfl
  rw [Heap.put_mem_self, Heap.put_put]
  exact ⟨_, rfl, hb.set hm⟩

theorem toString.put_eq (bits a : ℕ) (i j : ℤ) :
    toString.put bits a i j = (do
      let v ← W8A.sub bits i
      putDigit a j (v &&& 0x0f#8)
      putDigit a (j - 1) (v >>> 4)
      toString.put bits a (i + 1) (j - 2)) := by
  rw [toString.put]
  simp [putDigit]

/-- The loop ends with an exception when the string is complete. -/
theorem put_spec (h : Rep s ba l) {a : ℕ} (hne : ba.bits ≠ a) (hlen : len = (l.length + 3) / 4)
    (ha : (s.mem a).length = len) :
    Raises (toString.put ba.bits a 0 (len - 1)) s fun _ s' =>
      ∃ b, s' = s.put a b ∧ Digits l len len b := by
  have hbytes := h.length
  have hmem : ∀ b, (s.put a b).mem ba.bits = s.mem ba.bits := Heap.put_mem_of_ne hne
  have hstart : ((len : ℤ) - 1) = len - 1 - 2 * ((0 : ℕ) : ℤ) := by simp
  rw [hstart]
  refine raises_at (fun i (_ : Unit) => toString.put ba.bits a i (len - 1 - 2 * (i : ℤ)))
    (fun i _ => do
      let v ← W8A.sub ba.bits i
      putDigit a (len - 1 - 2 * (i : ℤ)) (v &&& 0x0f#8)
      putDigit a (len - 1 - 2 * (i : ℤ) - 1) (v >>> 4))
    (fun i _ s' => ∃ b, s' = s.put a b ∧ Digits l len (2 * i) b)
    (n := len / 2) (i := 0) (c := ()) ?_ ?_ ?_ (Nat.zero_le _) ?_
  · intro i _
    have hnext : (len : ℤ) - 1 - 2 * i - 2 = len - 1 - 2 * ((i + 1 : ℕ) : ℤ) := by
      push_cast
      ring
    rw [toString.put_eq, hnext]
    simp only [bind_assoc]
    rfl
  · rintro i - s' hi ⟨b, rfl, hb⟩
    obtain ⟨hlow, hhigh⟩ := digitAt_byte h i
    refine sub_bind (by rw [hmem]; omega) ?_
    rw [hmem, hlow, hhigh]
    refine returns_bind_of (putDigit_spec (m := 2 * i) rfl (by omega) (by omega) ⟨b, rfl, hb⟩) ?_
    intro _ s'' hs''
    exact putDigit_spec (m := 2 * i + 1) rfl (by omega) (by omega) hs''
  · rintro - s' ⟨b, rfl, hb⟩
    rcases Nat.even_or_odd' len with ⟨i, hi | hi⟩
    · -- no byte is left
      have hend : 2 * (len / 2) = len := by omega
      rw [hend] at hb
      refine raises_bind ((raises_sub ?_).mono ?_)
      · rw [hmem]
        omega
      · rintro e s' ⟨-, rfl⟩
        exact ⟨b, rfl, hb⟩
    · -- the high digit of the last byte has no place
      obtain ⟨hlow, hhigh⟩ := digitAt_byte h (len / 2)
      refine raises_bind_of (returns_sub (by rw [hmem]; omega)) ?_
      rintro v s' ⟨rfl, rfl⟩
      rw [hmem, hlow, hhigh]
      refine raises_bind_of (putDigit_spec rfl (by omega) (by omega) ⟨b, rfl, hb⟩) ?_
      rintro - s' ⟨c, rfl, hc⟩
      have hend : 2 * (len / 2) + 1 = len := by omega
      rw [hend] at hc
      refine raises_bind_of (returns_hexs (digitAt_lt l _)) ?_
      rintro v s' ⟨rfl, rfl⟩
      refine (raises_update (by omega) _).mono ?_
      rintro e s' ⟨-, rfl⟩
      exact ⟨c, rfl, hc⟩
  · exact ⟨s.mem a, (Heap.put_self s a).symm, ha, fun d hd => absurd hd (Nat.not_lt_zero d)⟩

/-- **Writing** gives the string of digits, if there is one of that length. -/
theorem toString_spec (h : Rep s ba l) (hlen : (l.length + 3) / 4 ≤ 2 ^ 56 - 1) :
    Returns (toString ba) s fun str s' => str = toHex l ∧ s.next ≤ s'.next ∧
      ∀ r < s.next, s'.mem r = s.mem r := by
  unfold toString
  rw [h.nbits]
  by_cases h0 : l.length = 0
  · have hnil : l = [] := List.length_eq_zero_iff.mp h0
    rw [hnil]
    exact returns_pure ⟨rfl, le_rfl, fun r _ => rfl⟩
  · have hcast : ((l.length : ℤ) + 3) / 4 = ((l.length + 3) / 4 : ℕ) := by omega
    rw [if_neg (by exact_mod_cast h0)]
    refine returns_bind_of (returns_newArray hlen 0#8) ?_
    rintro a s' ⟨rfl, rfl⟩
    have hrep := h.of_push (List.replicate ((l.length + 3) / 4) 0#8)
    refine returns_bind_of (P := fun _ s' => ∃ b,
        s' = (s.push (List.replicate ((l.length + 3) / 4) 0#8)).put s.next b ∧
          Digits l ((l.length + 3) / 4) ((l.length + 3) / 4) b)
      (returns_handle (put_spec hrep (Nat.ne_of_lt h.live) rfl (by simp))
        fun e s' hs' => returns_pure hs') ?_
    rintro - s' ⟨b, rfl, hb⟩
    rw [Heap.push_put]
    refine ⟨b, s.push b, ?_, hb.eq_toHex, Nat.le_succ _, fun r hr => ?_⟩
    · change some (Except.ok ((s.push b).mem s.next), s.push b) = _
      rw [Heap.push_mem_self]
    · exact Heap.push_mem_of_ne (Nat.ne_of_lt hr) b

theorem toString_le (h : Rep s ba l) {Q : List (BitVec 8) → Heap → Prop}
    (hQ : Returns (toString ba) s Q) : (l.length + 3) / 4 ≤ 2 ^ 56 - 1 := by
  unfold toString at hQ
  rw [h.nbits] at hQ
  by_cases h0 : l.length = 0
  · omega
  · have hfits := h.fits
    rw [if_neg (by exact_mod_cast h0)] at hQ
    have := newArray_le (by omega) (returns_bind_iff.mp hQ)
    omega

end SmlNj.BitArray
