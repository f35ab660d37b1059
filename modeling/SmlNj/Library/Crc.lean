import Mathlib.Data.BitVec
import SmlNj.Lib.BinaryPolynomial

/-!
# Cyclic redundancy codes

The compiler identifies pickled data by a 128-bit code.  A code is a sequence of sixteen bytes,
which is kept as a list of the high bytes, a reversed list of the low ones, and the lowest byte,
so that a byte can be shifted in in constant time.  The code of the rest of a string can be
computed from those of a first part and of the whole.

The numbers that the code computes with words are less than `2^16`, and are natural numbers here,
but for the length of a string.

A code stands for a residue of polynomials over the field of two elements, modulo the generator
polynomial.  Shifting a byte in multiplies the residue by the eighth power of the variable and adds
the byte, and the product of two codes stands for the product of their residues.  So when a string
is shifted into a code, the residue is that of the code times a power of the variable, which depends
only on the length of the string, plus that of the string.

## Main definitions

* `suffix` — the code of the rest of a string.
* `residue` — the residue of a code.

## Main results

* `residue_append'`, `residue_product`, `residue_shift` — the operations on residues.
* `toString_inj` — codes with the same residue have the same bytes.
* `crc_suffix` — **the suffix law.**
-/

namespace SmlNj

/-- The representation of a code. -/
structure Crc where
  high : List ℕ
  low : List ℕ
  lowest : ℕ
  deriving DecidableEq

namespace Crc

abbrev Str := List UInt8

def toString (crc : Crc) : List ℕ := crc.high ++ crc.low.reverse ++ [crc.lowest]

/-- The invariant of the representation: a code has sixteen bytes. -/
structure Valid (crc : Crc) : Prop where
  size : (toString crc).length = 16
  byte : ∀ b ∈ toString crc, b < 256

def poly : ℕ := 225

/-- The sum of the multiples of `p` by powers of two that the bits of `i` select. -/
def initLoop (i p r : ℕ) : ℕ :=
  if i = 0 then r
  else if i &&& 1 ≠ 0 then initLoop (i >>> 1) (p + p) (p ^^^ r)
  else initLoop (i >>> 1) (p + p) r
termination_by i
decreasing_by all_goals rw [Nat.shiftRight_eq_div_pow]; omega

def table : List ℕ := (List.range 256).map fun n => initLoop n poly 0

def zero : Crc := ⟨List.replicate 14 0, [0], 0⟩

/-- Shift a byte in, if there is a high byte. -/
def shiftIn : Crc → ℕ → Crc
  | ⟨0 :: high', low, lowest⟩, c => ⟨high', lowest :: low, c⟩
  | ⟨h :: high', low, lowest⟩, c =>
      let hilo := table.getD h 0
      ⟨high', (lowest ^^^ (hilo >>> 8)) :: low, c ^^^ (hilo &&& 255)⟩
  | crc, _ => crc

/-- **Shift a byte in.** -/
def append' (crc : Crc) (c : ℕ) : Crc :=
  match crc.high with
  | [] => shiftIn ⟨crc.low.reverse, [], crc.lowest⟩ c
  | _ => shiftIn crc c

def append (crc : Crc) (c : UInt8) : Crc := append' crc c.toNat

/-- The code of a string. -/
def fromString (s : Str) : Crc :=
  let get (i : ℕ) : ℕ := (s.getD i 0).toNat
  -- the first bytes of the string, as they are
  let loop (high : List ℕ) (i : ℕ) : List ℕ := (List.range i).map get ++ high
  let len := s.length
  if len ≥ 16 then (s.drop 16).foldl append ⟨loop [] 14, [get 14], get 15⟩
  else if len > 2 then
    ⟨List.replicate (16 - len) 0 ++ loop [] (len - 2), [get (len - 2)], get (len - 1)⟩
  else if len = 2 then ⟨List.replicate 14 0, [get 0], get 1⟩
  else if len = 1 then ⟨zero.high, zero.low, get 0⟩
  else zero

def one : Crc := append' zero 1

def xor (crc₁ crc₂ : Crc) : Crc where
  high := List.zipWith (· ^^^ ·) (crc₁.high ++ crc₁.low.reverse) (crc₂.high ++ crc₂.low.reverse)
  low := []
  lowest := crc₁.lowest ^^^ crc₂.lowest

/-- The product of two bytes. -/
def prod1 (x y : ℕ) : ℕ :=
  if y = 0 then 0
  else
    let u := prod1 x (y >>> 1)
    let odd := y &&& 1
    (u <<< 1) ^^^ (if odd = 0 then 0 else x)
termination_by y
decreasing_by rw [Nat.shiftRight_eq_div_pow]; omega

/-- Put bytes on a list, less those that are zero as long as it is empty. -/
@[grind =] def expandHigh : List ℕ → List ℕ → List ℕ
  | 0 :: h', [] => expandHigh h' []
  | h :: h', r => expandHigh h' (h :: r)
  | [], r => r

/-- The bytes of a code, from low to high, less the high bytes that are zero. -/
def expand (crc : Crc) : List ℕ :=
  match expandHigh crc.low.reverse (expandHigh crc.high []), crc.lowest with
  | [], 0 => []
  | r, lowest => lowest :: r

/-- The product of a byte and a list of bytes, from low to high, plus a byte. -/
def prodN (x carry : ℕ) : List ℕ → Crc
  | lowest :: rest =>
      let hilo := prod1 x lowest
      append' (prodN x (hilo >>> 8) rest) ((hilo &&& 255) ^^^ carry)
  | [] => append' zero carry

def prodNN : List ℕ → List ℕ → Crc
  | x :: xx, yy => xor (prodN x 0 yy) (append' (prodNN xx yy) 0)
  | [], _ => zero

/-- **The product of two codes.** -/
def product (crc₁ crc₂ : Crc) : Crc := prodNN (expand crc₁) (expand crc₂)

def MAX : ℕ := 64

/-- Square the last code `n` times. -/
def expsqrLoop : ℕ → Crc → List Crc → List Crc
  | 0, v, vl => (v :: vl).reverse
  | n + 1, v, vl => expsqrLoop n (product v v) (v :: vl)

/-- The codes of a byte followed by `2^i` zero bytes. -/
def expsqr : List Crc := expsqrLoop (MAX - 1) (append' one 0) []

abbrev Word := BitVec 63

/-- Multiply by the squares that the bits of the length select.  The power of two is a signed
number: when it is negative, or zero, the loop does not stop. -/
def scan (n : ℤ) : ℕ → ℕ → Crc → Option Crc
  | 0, _, _ => none
  | fuel + 1, i, accum =>
      let j := (1 : Word) <<< i
      if j.toInt > n then some accum
      else if j &&& BitVec.ofInt 63 n ≠ 0 then
        match expsqr[i]? with
        | none => none
        | some e => scan n fuel (i + 1) (product accum e)
      else scan n fuel (i + 1) accum

/-- Shift `n` zero bytes in. -/
def shift (crc : Crc) (n : ℤ) : Option Crc := (scan n MAX 0 one).map (product crc)

/-- **The code of the rest of a string**, from those of its first part and of the whole. -/
def suffix (start finish : Crc) (length : ℤ) : Option Crc :=
  (shift start length).map fun crc => xor crc finish

end Crc

end SmlNj

/-! ## The suffix law -/

open Polynomial

namespace SmlNj.Crc

open BinaryPolynomial (ofNat)

noncomputable abbrev generator : (ZMod 2)[X] := BinaryPolynomial.modulus 128 poly

abbrev Residue := AdjoinRoot generator

noncomputable abbrev x : Residue := AdjoinRoot.root generator

noncomputable def res (n : ℕ) : Residue := BinaryPolynomial.residue generator n

theorem res_xor (a b : ℕ) : res (a ^^^ b) = res a + res b := BinaryPolynomial.residue_xor _ a b

variable {b i k h n a : ℕ} {l : List ℕ} {crc crc' : Crc}

theorem res_concat (a : ℕ) (hb : b < 2 ^ 8) : res (2 ^ 8 * a + b) = res a * x ^ 8 + res b :=
  BinaryPolynomial.residue_concat _ a hb

@[simp] theorem res_zero : res 0 = 0 := BinaryPolynomial.residue_zero _

@[simp] theorem res_one : res 1 = 1 := BinaryPolynomial.residue_one _

/-! ### Bytes -/

noncomputable def resBytes (l : List ℕ) : Residue := l.foldl (fun r b => r * x ^ 8 + res b) 0

theorem resBytes_foldl (l : List ℕ) (r : Residue) :
    l.foldl (fun r b => r * x ^ 8 + res b) r = r * x ^ (8 * l.length) + resBytes l := by
  induction l generalizing r with
  | nil => simp [resBytes]
  | cons b l ih =>
    have hb : resBytes (b :: l) = (0 * x ^ 8 + res b) * x ^ (8 * l.length) + resBytes l := ih _
    rw [List.foldl_cons, ih, hb, List.length_cons]
    ring

theorem resBytes_append (l l' : List ℕ) :
    resBytes (l ++ l') = resBytes l * x ^ (8 * l'.length) + resBytes l' := by
  rw [resBytes, List.foldl_append, resBytes_foldl]
  rfl

theorem resBytes_singleton (b : ℕ) : resBytes [b] = res b := by simp [resBytes]

theorem resBytes_cons (b : ℕ) (l : List ℕ) :
    resBytes (b :: l) = res b * x ^ (8 * l.length) + resBytes l := by
  rw [← List.singleton_append, resBytes_append, resBytes_singleton]

theorem resBytes_pair (a b : ℕ) : resBytes [a, b] = res a * x ^ 8 + res b := by
  rw [resBytes_cons, resBytes_singleton]
  simp

theorem resBytes_zeros (n : ℕ) (l : List ℕ) :
    resBytes (List.replicate n 0 ++ l) = resBytes l := by
  induction n with
  | zero => rfl
  | succ n ih =>
    rw [List.replicate_succ, List.cons_append, resBytes_cons, ih]
    simp

def numOf (l : List ℕ) : ℕ := l.foldl (fun n b => 2 ^ 8 * n + b) 0

theorem res_numOf (h : ∀ b ∈ l, b < 256) : res (numOf l) = resBytes l := by
  induction l using List.reverseRecOn with
  | nil => simp [numOf, resBytes]
  | append_singleton l b ih =>
    have hb : b < 2 ^ 8 := h b (by simp)
    have hl := ih fun b hb => h b (List.mem_append_left _ hb)
    rw [numOf, List.foldl_append, List.foldl_cons, List.foldl_nil, resBytes_append,
      resBytes_singleton, res_concat _ hb, ← hl]
    rfl

theorem numOf_lt (h : ∀ b ∈ l, b < 256) : numOf l < 2 ^ (8 * l.length) := by
  induction l using List.reverseRecOn with
  | nil => simp [numOf]
  | append_singleton l b ih =>
    have hb : b < 256 := h b (by simp)
    have hl := ih fun b hb => h b (List.mem_append_left _ hb)
    rw [numOf, List.foldl_append, List.foldl_cons, List.foldl_nil, List.length_append, mul_add,
      pow_add]
    simp only [numOf] at hl
    simp only [List.length_singleton]
    omega

theorem numOf_inj {l' : List ℕ} (h : ∀ b ∈ l, b < 256) (h' : ∀ b ∈ l', b < 256)
    (hlen : l.length = l'.length) (hn : numOf l = numOf l') : l = l' := by
  induction l using List.reverseRecOn generalizing l' with
  | nil => exact (List.eq_nil_of_length_eq_zero hlen.symm).symm
  | append_singleton l b ih =>
    rcases List.eq_nil_or_concat' l' with rfl | ⟨m, c, rfl⟩
    · simp at hlen
    · have hb : b < 256 := h b (by simp)
      have hc : c < 256 := h' c (by simp)
      simp only [numOf, List.foldl_append, List.foldl_cons, List.foldl_nil] at hn
      have hlen' : l.length = m.length := by simpa using hlen
      have hlm := ih (fun b hb => h b (List.mem_append_left _ hb))
        (fun b hb => h' b (List.mem_append_left _ hb)) hlen' (by simp only [numOf]; omega)
      have hbc : b = c := by omega
      rw [hlm, hbc]

/-! ### The table -/

theorem ofNat_half (n : ℕ) : ofNat n = ofNat (n >>> 1) * X + ofNat (n &&& 1) := by
  have hn : n = 2 ^ 1 * (n >>> 1) + n % 2 := by
    omega
  have h := BinaryPolynomial.ofNat_concat (n >>> 1) (by omega : n % 2 < 2 ^ 1)
  rw [← hn, pow_one] at h
  rw [h, Nat.and_one_is_mod]

theorem ofNat_initLoop (i p r : ℕ) : ofNat (initLoop i p r) = ofNat r + ofNat i * ofNat p := by
  have hp : ∀ p, ofNat (p + p) = ofNat p * X := by
    intro p
    rw [← Nat.two_mul, ← pow_one (X : (ZMod 2)[X]), ← BinaryPolynomial.ofNat_shiftLeft,
      Nat.shiftLeft_eq, Nat.mul_comm]
  fun_induction initLoop i p r with
  | case1 p r => simp
  | case2 i p r _ hodd ih =>
    have hone : i &&& 1 = 1 := by
      rw [Nat.and_one_is_mod] at hodd ⊢
      omega
    rw [ih, hp, BinaryPolynomial.ofNat_xor, ofNat_half i, hone, BinaryPolynomial.ofNat_one]
    ring
  | case3 i p r _ heven ih =>
    rw [not_not] at heven
    rw [ih, hp, ofNat_half i, heven, BinaryPolynomial.ofNat_zero]
    ring

theorem initLoop_lt {p r m : ℕ} (hi : i < 2 ^ k) (hp : p < 2 ^ m) (hr : r < 2 ^ (k + m)) :
    initLoop i p r < 2 ^ (k + m) := by
  induction k generalizing i p r m with
  | zero =>
    have hi0 : i = 0 := by simpa using hi
    rw [initLoop, if_pos hi0]
    exact hr
  | succ k ih =>
    have hi' : i >>> 1 < 2 ^ k := by
      omega
    have hp' : p + p < 2 ^ (m + 1) := by omega
    have hexp : k + 1 + m = k + (m + 1) := by omega
    have hle : 2 ^ m ≤ 2 ^ (k + (m + 1)) := Nat.pow_le_pow_right two_pos (by omega)
    rw [hexp] at hr ⊢
    unfold initLoop
    split_ifs
    · exact hr
    · exact ih hi' hp' (Nat.xor_lt_two_pow (hp.trans_le hle) hr)
    · exact ih hi' hp' hr

theorem table_getD (hh : h < 256) : table.getD h 0 = initLoop h poly 0 := by
  simp [table, hh]

theorem res_table (hh : h < 256) : res (table.getD h 0) = res h * x ^ 128 := by
  rw [table_getD hh, BinaryPolynomial.root_pow, res, res, BinaryPolynomial.residue, ofNat_initLoop]
  simp [BinaryPolynomial.residue]

theorem table_lt (hh : h < 256) : table.getD h 0 < 2 ^ 16 := by
  rw [table_getD hh]
  exact initLoop_lt (k := 8) (m := 8) hh (by decide) (by decide)

theorem res_bytes (n : ℕ) : res (n >>> 8) * x ^ 8 + res (n &&& 255) = res n := by
  have hn : n = 2 ^ 8 * (n >>> 8) + n % 256 := by
    omega
  have hand : n &&& 255 = n % 256 := Nat.and_two_pow_sub_one_eq_mod n 8
  have h := res_concat (n >>> 8) (by omega : n % 256 < 2 ^ 8)
  rw [← hn] at h
  rw [hand, ← h]

theorem byte_shiftRight (h : n < 2 ^ 16) : n >>> 8 < 256 := by
  omega

theorem byte_and (n : ℕ) : n &&& 255 < 256 := by
  rw [Nat.and_two_pow_sub_one_eq_mod n 8]
  exact Nat.mod_lt n (by decide)

theorem byte_xor (ha : a < 256) (hb : b < 256) : a ^^^ b < 256 :=
  Nat.xor_lt_two_pow (n := 8) ha hb

/-! ### Shifting a byte in -/

noncomputable def residue (crc : Crc) : Residue := resBytes (toString crc)

theorem toString_shiftIn (h : ℕ) (high' low : List ℕ) (lowest c : ℕ) :
    toString (shiftIn ⟨h :: high', low, lowest⟩ c) = high' ++ low.reverse ++
      [lowest ^^^ (table.getD h 0 >>> 8), c ^^^ (table.getD h 0 &&& 255)] := by
  have hzero : table.getD 0 0 = 0 := by
    rw [table_getD (by decide), initLoop, if_pos rfl]
  cases h with
  | zero =>
    rw [hzero]
    simp [shiftIn, toString]
  | succ h => simp [shiftIn, toString]

/-- **The byte that is shifted out** is replaced by a multiple of the polynomial. -/
theorem toString_append' (h : Valid crc) (c : ℕ) :
    ∃ hd mid last, toString crc = hd :: mid ++ [last] ∧ mid.length = 14 ∧
      toString (append' crc c) = mid ++
        [last ^^^ (table.getD hd 0 >>> 8), c ^^^ (table.getD hd 0 &&& 255)] := by
  obtain ⟨high, low, lowest⟩ := crc
  have hsize := h.size
  simp only [toString, List.length_append, List.length_reverse, List.length_singleton] at hsize
  unfold append'
  rcases high with _ | ⟨hd, high'⟩
  · rcases hrev : low.reverse with _ | ⟨hd, high'⟩
    · rw [List.reverse_eq_nil_iff] at hrev
      simp [hrev] at hsize
    · refine ⟨hd, high', lowest, by simp [toString, hrev], ?_, ?_⟩
      · have hlen := congrArg List.length hrev
        rw [List.length_reverse, List.length_cons] at hlen
        simp only [List.length_nil] at hsize
        omega
      · simp [toString_shiftIn]
  · refine ⟨hd, high' ++ low.reverse, lowest, by simp [toString], ?_, ?_⟩
    · simp only [List.length_cons, List.length_append, List.length_reverse] at hsize ⊢
      omega
    · exact toString_shiftIn hd high' low lowest c

theorem valid_append' (h : Valid crc) {c : ℕ} (hc : c < 256) : Valid (append' crc c) := by
  obtain ⟨hd, mid, last, hold, hlen, hnew⟩ := toString_append' h c
  have hbyte : ∀ b ∈ hd :: mid ++ [last], b < 256 := hold ▸ h.byte
  have hhd : hd < 256 := hbyte hd (by simp)
  have hlast : last < 256 := hbyte last (by simp)
  refine ⟨by simp [hnew, hlen], ?_⟩
  intro b hb
  rw [hnew] at hb
  simp only [List.mem_append, List.mem_cons, List.not_mem_nil, or_false] at hb
  rcases hb with hb | rfl | rfl
  · exact hbyte b (by simp [hb])
  · exact byte_xor hlast (byte_shiftRight (table_lt hhd))
  · exact byte_xor hc (byte_and _)

/-- **Shifting a byte in multiplies the residue by `x ^ 8` and adds the byte.** -/
theorem residue_append' (h : Valid crc) (c : ℕ) :
    residue (append' crc c) = residue crc * x ^ 8 + res c := by
  obtain ⟨hd, mid, last, hold, hlen, hnew⟩ := toString_append' h c
  have hhd : hd < 256 := h.byte hd (by simp [hold])
  rw [residue, residue, hnew, hold, resBytes_append, resBytes_pair, resBytes_append, resBytes_cons,
    resBytes_singleton, res_xor, res_xor, hlen]
  have htable : res (table.getD hd 0 >>> 8) * x ^ 8 + res (table.getD hd 0 &&& 255) =
      res hd * x ^ 128 := (res_bytes _).trans (res_table hhd)
  simp only [List.length_cons, List.length_nil]
  linear_combination htable

theorem valid_zero : Valid zero := ⟨rfl, by decide⟩

theorem residue_zero : residue zero = 0 := by
  have h := resBytes_zeros 16 []
  exact h

theorem valid_one : Valid one := valid_append' valid_zero (by decide)

theorem residue_one : residue one = 1 := by
  rw [one, residue_append' valid_zero, residue_zero, zero_mul, zero_add, res_one]

theorem toString_inj (h : Valid crc) (h' : Valid crc') (hr : residue crc = residue crc') :
    toString crc = toString crc' := by
  have hlt : ∀ {crc : Crc}, Valid crc → numOf (toString crc) < 2 ^ 128 := by
    intro crc hv
    have hn := numOf_lt hv.byte
    rwa [hv.size] at hn
  refine numOf_inj h.byte h'.byte (h.size.trans h'.size.symm) ?_
  refine BinaryPolynomial.residue_injOn (BinaryPolynomial.modulus_monic (by decide : poly < 2 ^ 128))
    (BinaryPolynomial.degree_modulus (by decide)) (hlt h) (hlt h') ?_
  exact (res_numOf h.byte).trans (hr.trans (res_numOf h'.byte).symm)

theorem toString_xor (h : Valid crc) (h' : Valid crc') :
    toString (xor crc crc') = List.zipWith (· ^^^ ·) (toString crc) (toString crc') := by
  have hlen : (crc.high ++ crc.low.reverse).length = (crc'.high ++ crc'.low.reverse).length := by
    have hs := h.size.trans h'.size.symm
    simp only [toString, List.length_append, List.length_singleton] at hs ⊢
    omega
  rw [toString, toString, toString, List.zipWith_append hlen]
  simp [xor]

theorem resBytes_zipWith {l' : List ℕ} (h : l.length = l'.length) :
    resBytes (List.zipWith (· ^^^ ·) l l') = resBytes l + resBytes l' := by
  induction l generalizing l' with
  | nil =>
    rw [List.eq_nil_of_length_eq_zero h.symm]
    simp [resBytes]
  | cons b l ih =>
    rcases l' with _ | ⟨b', l'⟩
    · cases h
    · have hlen : l.length = l'.length := Nat.succ.inj h
      rw [List.zipWith_cons_cons, resBytes_cons, resBytes_cons, resBytes_cons, ih hlen,
        res_xor, List.length_zipWith, hlen, Nat.min_self]
      ring

theorem valid_xor (h : Valid crc) (h' : Valid crc') : Valid (xor crc crc') := by
  have hstr := toString_xor h h'
  refine ⟨by rw [hstr, List.length_zipWith, h.size, h'.size, Nat.min_self], ?_⟩
  intro b hb
  rw [hstr] at hb
  obtain ⟨i, hi, rfl⟩ := List.mem_iff_getElem.mp hb
  rw [List.getElem_zipWith]
  exact byte_xor (h.byte _ (List.getElem_mem _)) (h'.byte _ (List.getElem_mem _))

/-- **The sum of two codes.** -/
theorem residue_xor (h : Valid crc) (h' : Valid crc') :
    residue (xor crc crc') = residue crc + residue crc' := by
  rw [residue, toString_xor h h', resBytes_zipWith (h.size.trans h'.size.symm)]
  rfl

/-! ### Products -/

theorem ofNat_prod1 (a y : ℕ) : ofNat (prod1 a y) = ofNat a * ofNat y := by
  fun_induction prod1 a y with
  | case1 => simp
  | case2 y hy u odd ih =>
    have hsel : ofNat (if odd = 0 then 0 else a) = ofNat a * ofNat odd := by
      split_ifs with hodd
      · simp [hodd]
      · have hone : odd = 1 := by
          have hlt : odd = y % 2 := Nat.and_one_is_mod y
          omega
        simp [hone]
    rw [BinaryPolynomial.ofNat_xor, BinaryPolynomial.ofNat_shiftLeft, hsel, ih,
      ofNat_half y]
    ring

theorem prod1_lt {y m : ℕ} (ha : a < 2 ^ m) (hy : y < 2 ^ k) : prod1 a y < 2 ^ (k + m) := by
  induction k generalizing y with
  | zero =>
    have hy0 : y = 0 := by simpa using hy
    rw [prod1, if_pos hy0]
    exact Nat.two_pow_pos _
  | succ k ih =>
    have hy' : y >>> 1 < 2 ^ k := by
      omega
    have hu := ih hy'
    have hle : 2 ^ m ≤ 2 ^ (k + 1 + m) := Nat.pow_le_pow_right two_pos (by omega)
    unfold prod1
    split_ifs
    · exact Nat.two_pow_pos _
    · refine Nat.xor_lt_two_pow ?_ ?_
      · rw [Nat.add_right_comm]
        omega
      · split_ifs
        · exact Nat.two_pow_pos _
        · exact ha.trans_le hle

theorem res_prod1 (a y : ℕ) : res (prod1 a y) = res a * res y := by
  simp [res, BinaryPolynomial.residue, ofNat_prod1]

theorem prod1_byte {y : ℕ} (ha : a < 256) (hy : y < 256) : prod1 a y < 2 ^ 16 :=
  prod1_lt (k := 8) (m := 8) ha hy

theorem resBytes_expandHigh (l r : List ℕ) :
    resBytes (expandHigh l r).reverse = resBytes (r.reverse ++ l) := by
  fun_induction expandHigh l r with
  | case1 h' ih =>
    rw [ih, List.reverse_nil, List.nil_append, List.nil_append, resBytes_cons]
    simp
  | case2 h h' r _ ih => rw [ih, List.reverse_cons, List.append_assoc, List.singleton_append]
  | case3 r => rw [List.append_nil]

theorem mem_expandHigh {r : List ℕ} (h : b ∈ expandHigh l r) : b ∈ l ∨ b ∈ r := by
  fun_induction expandHigh l r with
  | case1 h' ih => exact (ih h).imp_left (List.mem_cons_of_mem _)
  | case2 h' l r _ ih =>
    rcases ih h with hb | hb
    · exact .inl (List.mem_cons_of_mem _ hb)
    · rcases List.mem_cons.mp hb with rfl | hb
      · exact .inl List.mem_cons_self
      · exact .inr hb
  | case3 r => exact .inr h

theorem resBytes_expand (crc : Crc) : resBytes (expand crc).reverse = residue crc := by
  have hall : resBytes (expandHigh crc.low.reverse (expandHigh crc.high [])).reverse =
      resBytes (crc.high ++ crc.low.reverse) := by
    rw [resBytes_expandHigh, resBytes_append, resBytes_expandHigh, List.reverse_nil,
      List.nil_append, ← resBytes_append]
  rw [residue, toString, resBytes_append, ← hall]
  unfold expand
  split
  · next hnil hlow => simp [hnil, hlow, resBytes]
  · rw [List.reverse_cons, resBytes_append]

theorem byte_expand (h : Valid crc) : ∀ b ∈ expand crc, b < 256 := by
  intro b hb
  have hmem : b ∈ toString crc := by
    have hr : ∀ b ∈ expandHigh crc.low.reverse (expandHigh crc.high []),
        b ∈ crc.high ++ crc.low.reverse := by
      intro b hb
      rcases mem_expandHigh hb with hb | hb
      · exact List.mem_append_right _ hb
      · rcases mem_expandHigh hb with hb | hb
        · exact List.mem_append_left _ hb
        · cases hb
    unfold expand at hb
    split at hb
    · cases hb
    · rcases List.mem_cons.mp hb with rfl | hb
      · exact List.mem_append_right _ (List.mem_singleton_self _)
      · exact List.mem_append_left _ (hr b hb)
  exact h.byte b hmem

theorem prodN_spec {carry : ℕ} (ha : a < 256) (hcarry : carry < 256) {ys : List ℕ}
    (hys : ∀ y ∈ ys, y < 256) : Valid (prodN a carry ys) ∧
      residue (prodN a carry ys) = res a * resBytes ys.reverse + res carry := by
  induction ys generalizing carry with
  | nil =>
    refine ⟨valid_append' valid_zero hcarry, ?_⟩
    rw [prodN, residue_append' valid_zero, residue_zero]
    simp [resBytes]
  | cons y ys ih =>
    obtain ⟨hy, hys⟩ := List.forall_mem_cons.mp hys
    obtain ⟨hv, hr⟩ := ih (byte_shiftRight (prod1_byte ha hy)) hys
    refine ⟨valid_append' hv (byte_xor (byte_and _) hcarry), ?_⟩
    have hbytes := res_bytes (prod1 a y)
    rw [res_prod1] at hbytes
    rw [prodN, residue_append' hv, hr, res_xor, List.reverse_cons,
      resBytes_append, resBytes_singleton]
    simp only [List.length_singleton]
    linear_combination hbytes

theorem prodNN_spec {xs ys : List ℕ} (hxs : ∀ a ∈ xs, a < 256) (hys : ∀ y ∈ ys, y < 256) :
    Valid (prodNN xs ys) ∧
      residue (prodNN xs ys) = resBytes xs.reverse * resBytes ys.reverse := by
  induction xs with
  | nil =>
    refine ⟨valid_zero, ?_⟩
    rw [prodNN, residue_zero]
    simp [resBytes]
  | cons a xs ih =>
    obtain ⟨ha, hxs⟩ := List.forall_mem_cons.mp hxs
    obtain ⟨hv, hr⟩ := ih hxs
    obtain ⟨hvN, hrN⟩ := prodN_spec ha (by decide : 0 < 256) hys
    have hv' := valid_append' hv (by decide : 0 < 256)
    refine ⟨valid_xor hvN hv', ?_⟩
    rw [prodNN, residue_xor hvN hv', residue_append' hv, hr, hrN, List.reverse_cons,
      resBytes_append, resBytes_singleton, res_zero]
    simp only [List.length_singleton]
    ring

theorem valid_product (h : Valid crc) (h' : Valid crc') :
    Valid (product crc crc') := (prodNN_spec (byte_expand h) (byte_expand h')).1

/-- **The product of two codes stands for the product of their residues.** -/
theorem residue_product (h : Valid crc) (h' : Valid crc') :
    residue (product crc crc') = residue crc * residue crc' := by
  rw [product, (prodNN_spec (byte_expand h) (byte_expand h')).2, resBytes_expand, resBytes_expand]

/-! ### Shifting zero bytes in -/

theorem expsqrLoop_getElem? (n : ℕ) (v : Crc) (vl : List Crc) {j : ℕ} (hj : j ≤ n) :
    (expsqrLoop n v vl)[vl.length + j]? = some ((fun v => product v v)^[j] v) := by
  have hkeep : ∀ n v (vl : List Crc), ∃ l, expsqrLoop n v vl = (v :: vl).reverse ++ l := by
    intro n
    induction n with
    | zero => exact fun v vl => ⟨[], by simp [expsqrLoop]⟩
    | succ n ih =>
      intro v vl
      obtain ⟨l, hl⟩ := ih (product v v) (v :: vl)
      exact ⟨product v v :: l, by rw [expsqrLoop, hl]; simp⟩
  induction n generalizing v vl j with
  | zero =>
    obtain rfl : j = 0 := Nat.le_zero.mp hj
    simp [expsqrLoop]
  | succ n ih =>
    cases j with
    | zero =>
      obtain ⟨l, hl⟩ := hkeep (n + 1) v vl
      rw [hl]
      simp
    | succ j =>
      have h := ih (product v v) (v :: vl) (Nat.le_of_succ_le_succ hj)
      rwa [List.length_cons, Nat.add_right_comm] at h

theorem iterate_square {v : Crc} (h : Valid v) (j : ℕ) :
    Valid ((fun v => product v v)^[j] v) ∧
      residue ((fun v => product v v)^[j] v) = residue v ^ 2 ^ j := by
  induction j with
  | zero => exact ⟨h, by simp⟩
  | succ j ih =>
    obtain ⟨hv, hr⟩ := ih
    rw [Function.iterate_succ_apply']
    exact ⟨valid_product hv hv, by rw [residue_product hv hv, hr, pow_succ, pow_mul, sq]⟩

/-- **The table**: the `i`th code stands for a power of the variable. -/
theorem expsqr_spec (hi : i < MAX) :
    ∃ e, expsqr[i]? = some e ∧ Valid e ∧ residue e = x ^ (8 * 2 ^ i) := by
  have hv : Valid (append' one 0) := valid_append' valid_one (by decide)
  have hr : residue (append' one 0) = x ^ 8 := by
    rw [residue_append' valid_one, residue_one, res_zero, one_mul, add_zero]
  obtain ⟨hv', hr'⟩ := iterate_square hv i
  refine ⟨_, ?_, hv', ?_⟩
  · have h := expsqrLoop_getElem? (MAX - 1) (append' one 0) [] (Nat.le_sub_one_of_lt hi)
    rwa [List.length_nil, Nat.zero_add] at h
  · rw [hr', hr, pow_mul]

theorem toInt_shiftLeft (hi : i < 62) : ((1 : Word) <<< i).toInt = 2 ^ i := by
  have hlt : 2 ^ i < 2 ^ 62 := Nat.pow_lt_pow_right (by decide) hi
  have hnat : ((1 : Word) <<< i).toNat = 2 ^ i := by
    have hone : (1 : Word).toNat = 1 := rfl
    rw [BitVec.toNat_shiftLeft, Nat.shiftLeft_eq, hone]
    omega
  rw [BitVec.toInt_eq_toNat_of_lt (by rw [hnat]; omega)]
  norm_cast

theorem and_shiftLeft (hi : i < 62) :
    (1 : Word) <<< i &&& BitVec.ofInt 63 n ≠ 0 ↔ n.testBit i = true := by
  have hbit : ∀ j, j < 63 → ((1 : Word) <<< i &&& BitVec.ofInt 63 n).getLsbD j =
      (decide (i = j) && n.testBit j) := by
    intro j hj
    have hone : ((1 : Word) <<< i).getLsbD j = decide (i = j) := by
      change ((1#63) <<< i).getLsbD j = decide (i = j)
      rw [BitVec.getLsbD_shiftLeft, BitVec.getLsbD_one]
      rcases Nat.lt_trichotomy i j with h | h | h <;> grind
    rw [BitVec.getLsbD_and, hone, BitVec.ofInt_natCast, BitVec.getLsbD_ofNat]
    simp [hj]
  constructor
  · intro hne
    by_contra hfalse
    refine hne (BitVec.eq_of_getLsbD_eq fun j hj => ?_)
    rw [hbit j hj]
    by_cases hij : i = j
    · subst hij
      simpa using hfalse
    · simp [hij]
  · intro htrue hzero
    have h := hbit i (by omega)
    rw [hzero, htrue] at h
    simp at h

/-- **The loop** multiplies by the power of the variable for the bits of the length from `i` on. -/
theorem scan_spec {fuel : ℕ} {accum : Crc} (hn : n < 2 ^ 61) (hi : i ≤ 61) (hfuel : 62 ≤ fuel + i)
    (hv : Valid accum) :
    ∃ c, scan n fuel i accum = some c ∧ Valid c ∧
      residue c = residue accum * x ^ (8 * (n / 2 ^ i * 2 ^ i)) := by
  induction fuel generalizing i accum with
  | zero => omega
  | succ fuel ih =>
    have hint := toInt_shiftLeft (by omega : i < 62)
    have hhalf : n / 2 ^ (i + 1) = n / 2 ^ i / 2 := by rw [pow_succ, Nat.div_div_eq_div_mul]
    unfold scan
    dsimp only
    rw [hint]
    by_cases hgt : n < 2 ^ i
    · have hgt' : (2 : ℤ) ^ i > n := by exact_mod_cast hgt
      rw [if_pos hgt']
      refine ⟨accum, rfl, hv, ?_⟩
      rw [Nat.div_eq_of_lt hgt]
      simp
    · have hgt' : ¬ (2 : ℤ) ^ i > n := by exact_mod_cast hgt
      have hlt : i < 61 := by
        by_contra hge
        obtain rfl : i = 61 := by omega
        exact hgt hn
      have hbit := Nat.testBit_eq_decide_div_mod_eq (x := n) (i := i)
      have hmod := Nat.div_add_mod (n / 2 ^ i) 2
      rw [if_neg hgt']
      by_cases htest : n.testBit i = true
      · -- the bit is set: the square is multiplied in
        obtain ⟨e, he, hve, hre⟩ := expsqr_spec (by simp only [MAX]; omega : i < MAX)
        obtain ⟨c, hc, hvc, hrc⟩ := ih (by omega : i + 1 ≤ 61) (by omega)
          (valid_product hv hve)
        refine ⟨c, ?_, hvc, ?_⟩
        · rw [if_pos ((and_shiftLeft (by omega)).mpr htest), he]
          exact hc
        · have hodd : n / 2 ^ i % 2 = 1 := by simpa [htest] using hbit
          rw [hodd] at hmod
          rw [hrc, residue_product hv hve, hre, hhalf, ← hmod]
          rw [Nat.mul_add_div two_pos]
          ring
      · obtain ⟨c, hc, hvc, hrc⟩ := ih (by omega : i + 1 ≤ 61) (by omega) hv
        refine ⟨c, ?_, hvc, ?_⟩
        · rw [if_neg (mt (and_shiftLeft (by omega)).mp htest)]
          exact hc
        · have heven : n / 2 ^ i % 2 = 0 := by simpa [htest] using hbit
          rw [heven, Nat.add_zero] at hmod
          rw [hrc, hhalf, ← hmod, Nat.mul_div_cancel_left _ two_pos]
          ring

/-- **Shifting zero bytes in** multiplies the residue by a power of the variable. -/
theorem shift_spec (h : Valid crc) (hn : n < 2 ^ 61) :
    ∃ c, shift crc n = some c ∧ Valid c ∧ residue c = residue crc * x ^ (8 * n) := by
  obtain ⟨e, he, hve, hre⟩ := scan_spec hn (Nat.zero_le 61) (by decide : 62 ≤ MAX + 0) valid_one
  refine ⟨product crc e, by rw [shift, he]; rfl, valid_product h hve, ?_⟩
  rw [residue_product h hve, hre, residue_one]
  simp

/-! ### Strings -/

/-- **Shifting a string in.** -/
theorem foldl_append_spec (h : Valid crc) (s : Str) :
    Valid (s.foldl append crc) ∧ residue (s.foldl append crc) =
      residue crc * x ^ (8 * s.length) + resBytes (s.map UInt8.toNat) := by
  induction s generalizing crc with
  | nil => exact ⟨h, by simp [resBytes]⟩
  | cons c s ih =>
    obtain ⟨hv, hr⟩ := ih (valid_append' h c.toNat_lt)
    refine ⟨hv, ?_⟩
    rw [List.foldl_cons, append, hr, residue_append' h, List.map_cons, resBytes_cons,
      List.length_cons, List.length_map]
    ring

theorem map_getD (s : Str) (h : k ≤ s.length) :
    (List.range k).map (fun i => (s.getD i 0).toNat) = (s.take k).map UInt8.toNat := by
  refine List.ext_getElem (by simp [h]) ?_
  intro i hi _
  simp only [List.length_map, List.length_range] at hi
  simp [List.getElem?_eq_getElem (hi.trans_le h)]

theorem toString_fromString_short {s : Str} (h : s.length < 16) :
    toString (fromString s) = List.replicate (16 - s.length) 0 ++ s.map UInt8.toNat := by
  have hall := map_getD s le_rfl
  rw [List.take_length] at hall
  rw [← hall]
  unfold fromString
  rw [if_neg (by omega)]
  split_ifs with h₁ h₂ h₃
  · obtain ⟨k, hk⟩ : ∃ k, s.length = k + 2 := ⟨s.length - 2, by omega⟩
    simp [toString, hk, List.range_succ]
  · simp [toString, h₂, List.range_succ]
  · rw [h₃]
    rfl
  · obtain rfl : s = [] := List.eq_nil_of_length_eq_zero (by omega)
    rfl

/-- **The code of a string** has its residue. -/
theorem fromString_spec (s : Str) :
    Valid (fromString s) ∧ residue (fromString s) = resBytes (s.map UInt8.toNat) := by
  have hbyte : ∀ l : Str, ∀ b ∈ l.map UInt8.toNat, b < 256 := by
    intro l b hb
    obtain ⟨c, -, rfl⟩ := List.mem_map.mp hb
    exact c.toNat_lt
  rcases Nat.lt_or_ge s.length 16 with h | h
  · have hstr := toString_fromString_short h
    refine ⟨⟨?_, ?_⟩, ?_⟩
    · rw [hstr, List.length_append, List.length_replicate, List.length_map]
      omega
    · intro b hb
      rw [hstr] at hb
      rcases List.mem_append.mp hb with hb | hb
      · rw [List.eq_of_mem_replicate hb]
        decide
      · exact hbyte s b hb
    · rw [residue, hstr, resBytes_zeros]
  · -- the first sixteen bytes are put in as they are, and the others are shifted in
    obtain ⟨crc₀, hcrc, hstr⟩ : ∃ crc₀, fromString s = (s.drop 16).foldl append crc₀ ∧
        toString crc₀ = (s.take 16).map UInt8.toNat := by
      refine ⟨_, by unfold fromString; exact if_pos h, ?_⟩
      rw [← map_getD s h]
      rfl
    have hv : Valid crc₀ := by
      refine ⟨?_, ?_⟩
      · rw [hstr, List.length_map, List.length_take, Nat.min_eq_left h]
      · rw [hstr]
        exact hbyte _
    obtain ⟨hv', hr⟩ := foldl_append_spec hv (s.drop 16)
    rw [hcrc]
    refine ⟨hv', ?_⟩
    have hsplit : s.map UInt8.toNat = (s.take 16).map UInt8.toNat ++ (s.drop 16).map UInt8.toNat := by
      rw [← List.map_append, List.take_append_drop]
    rw [hr, residue, hstr, hsplit, resBytes_append, List.length_map]

/-- **Appending a string** to a code is shifting it and adding the code of the string. -/
theorem foldl_append_eq (h : Valid crc) {b : Str} (hb : b.length < 2 ^ 61) :
    ∃ z, shift crc b.length = some z ∧
      toString (b.foldl append crc) = toString (xor z (fromString b)) := by
  obtain ⟨z, hz, hvz, hrz⟩ := shift_spec h hb
  obtain ⟨hvb, hrb⟩ := fromString_spec b
  obtain ⟨hva, hra⟩ := foldl_append_spec h b
  refine ⟨z, hz, toString_inj hva (valid_xor hvz hvb) ?_⟩
  rw [hra, residue_xor hvz hvb, hrz, hrb]

/-- **The suffix law.**  From the codes of a string and of its concatenation with another one, `suffix`
computes the code of the other one; and to append a string to any code is to shift the code by the
length of the string and to add the code of the string. -/
theorem crc_suffix (b : Str) (hb : b.length < 2 ^ 61) :
    (∀ a : Str, ∃ z, suffix (fromString a) (fromString (a ++ b)) b.length = some z ∧
      toString z = toString (fromString b)) ∧
    ∀ crc, Valid crc → ∃ z, shift crc b.length = some z ∧
      toString (b.foldl append crc) = toString (xor z (fromString b)) := by
  refine ⟨?_, fun crc h => foldl_append_eq h hb⟩
  intro a
  obtain ⟨hva, hra⟩ := fromString_spec a
  obtain ⟨hvb, hrb⟩ := fromString_spec b
  obtain ⟨hvab, hrab⟩ := fromString_spec (a ++ b)
  obtain ⟨z, hz, hvz, hrz⟩ := shift_spec hva hb
  refine ⟨xor z (fromString (a ++ b)), by rw [suffix, hz]; rfl,
    toString_inj (valid_xor hvz hvab) hvb ?_⟩
  rw [residue_xor hvz hvab, hrz, hra, hrab, hrb, List.map_append, resBytes_append, List.length_map,
    ← add_assoc, BinaryPolynomial.add_self, zero_add]

/-- The law for strings of one character. -/
theorem crc_suffix_single :
    (∃ z, suffix (fromString [98]) (fromString ([98] ++ [97])) 1 = some z ∧
      toString z = toString (fromString [97])) ∧
    ∃ z, shift zero 1 = some z ∧
      toString ([97].foldl append zero) = toString (xor z (fromString [97])) :=
  ⟨(crc_suffix [97] (by decide)).1 [98], (crc_suffix [97] (by decide)).2 zero valid_zero⟩

end SmlNj.Crc
