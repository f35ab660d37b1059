import SmlNj.Lib.TwosComplement

/-!
# Numbers as strings of bytes

Fixed-width integers as byte strings, most significant byte first.  Writing keeps
the low `8 * n` bits of an arbitrary integer; reading gives a number in
`[0, 256 ^ n)`, whose two readings are those of `TwosComplement`.

A string of bytes is padded with zeros to a whole number of words.  Two strings of the same length
are equal exactly if their words are.

## Main definitions

* `chunk` — the bytes of a word of a padded string.
* `value` — the number that a word holds, in either byte order.

## Main results

* `value_bytes` — reading what was written gives the unsigned reading.
* `signed_value_bytes` — its signed reading is that of the number written.
* `value_injective` — the bytes of a word are determined by its number.
* `eq_iff_words` — strings are compared word by word.
-/

namespace BigEndian

open TwosComplement

def byteOf (x : ℤ) : UInt8 := UInt8.ofNat (x % 256).toNat

/-- The low `8 * n` bits of an integer, as `n` bytes. -/
def bytes : ℕ → ℤ → List UInt8
  | 0, _ => []
  | n + 1, x => byteOf (x / 256 ^ n) :: bytes n x

def value (bs : List UInt8) : ℤ := bs.foldl (fun acc b => acc * 256 + (b.toNat : ℤ)) 0

@[simp] theorem bytes_zero (x : ℤ) : bytes 0 x = [] := rfl

@[simp] theorem bytes_succ (n : ℕ) (x : ℤ) :
    bytes (n + 1) x = byteOf (x / 256 ^ n) :: bytes n x := rfl

@[simp] theorem length_bytes (n : ℕ) (x : ℤ) : (bytes n x).length = n := by
  induction n with
  | zero => rfl
  | succ n ih => rw [bytes_succ, List.length_cons, ih]

theorem toNat_byteOf (x : ℤ) : ((byteOf x).toNat : ℤ) = unsigned 8 x := by
  have h0 : 0 ≤ x % 256 := Int.emod_nonneg x (by norm_num)
  have h1 : x % 256 < 256 := Int.emod_lt_of_pos x (by norm_num)
  rw [byteOf, UInt8.toNat_ofNat', Nat.mod_eq_of_lt (by omega), Int.toNat_of_nonneg h0, unsigned]
  norm_num

theorem toNat_byteOf_of_lt {x : ℤ} (h0 : 0 ≤ x) (h1 : x < 256) : (byteOf x).toNat = x.toNat := by
  rw [byteOf, UInt8.toNat_ofNat', Int.emod_eq_of_lt h0 h1, Nat.mod_eq_of_lt (by omega)]

theorem foldl_value (bs : List UInt8) (acc : ℤ) :
    bs.foldl (fun acc b => acc * 256 + (b.toNat : ℤ)) acc =
      acc * 256 ^ bs.length + value bs := by
  induction bs generalizing acc with
  | nil => simp [value]
  | cons b bs ih =>
    have hv : value (b :: bs) = (0 * 256 + b.toNat) * 256 ^ bs.length + value bs := ih _
    rw [List.foldl_cons, ih, hv, List.length_cons]
    ring

theorem value_cons (b : UInt8) (bs : List UInt8) :
    value (b :: bs) = b.toNat * 256 ^ bs.length + value bs := by
  rw [value, List.foldl_cons, foldl_value]
  ring

@[simp] theorem value_nil : value [] = 0 := rfl

theorem emod_mul_eq {a b : ℤ} (ha : 0 < a) (hb : 0 < b) (x : ℤ) :
    x % (a * b) = x / a % b * a + x % a := by
  have hr0 := Int.emod_nonneg x ha.ne'
  have hr1 := Int.emod_lt_of_pos x ha
  have hq0 := Int.emod_nonneg (x / a) hb.ne'
  have hq1 := Int.emod_lt_of_pos (x / a) hb
  have hx : x = x / a % b * a + x % a + a * b * (x / a / b) := by
    calc x = a * (x / a) + x % a := (Int.mul_ediv_add_emod x a).symm
      _ = a * (b * (x / a / b) + x / a % b) + x % a := by rw [Int.mul_ediv_add_emod (x / a) b]
      _ = _ := by ring
  have hlt : x / a % b * a + x % a < a * b := by nlinarith
  have hnn : 0 ≤ x / a % b * a + x % a := by positivity
  rw [hx, Int.add_mul_emod_self_left, ← hx]
  exact Int.emod_eq_of_lt hnn hlt

/-- **Reading what was written.** -/
theorem value_bytes (n : ℕ) (x : ℤ) : value (bytes n x) = unsigned (8 * n) x := by
  induction n with
  | zero => simp [unsigned]
  | succ n ih =>
    have hp : (2 : ℤ) ^ (8 * n) = 256 ^ n := by rw [pow_mul]; norm_num
    have hq : (2 : ℤ) ^ (8 * (n + 1)) = 256 ^ n * 256 := by rw [pow_mul, pow_succ]; norm_num
    rw [bytes_succ, value_cons, toNat_byteOf, ih, length_bytes, unsigned, unsigned, unsigned,
      hp, hq, emod_mul_eq (by positivity) (by norm_num)]
    norm_num

theorem signed_value_bytes (n : ℕ) (x : ℤ) :
    signed (8 * n) (value (bytes n x)) = signed (8 * n) x := by
  rw [value_bytes, signed_emod]

end BigEndian

/-! ## Strings of bytes as sequences of words -/

namespace ByteWords

/-- The `k` bytes of the `i`th word of a padded string. -/
def chunk (k : ℕ) (s : List UInt8) (i : ℕ) : List UInt8 :=
  (List.range k).map fun j => s.getD (k * i + j) 0

/-- **The number that a word holds**; its first byte is the most significant one in the big-endian
order. -/
def value (bigEndian : Bool) (bs : List UInt8) : ℕ :=
  Nat.ofDigits 256 ((if bigEndian then bs.reverse else bs).map UInt8.toNat)

@[simp] theorem length_chunk (k : ℕ) (s : List UInt8) (i : ℕ) : (chunk k s i).length = k := by
  rw [chunk, List.length_map, List.length_range]

theorem digits_lt (bs : List UInt8) : ∀ d ∈ bs.map UInt8.toNat, d < 256 := by
  intro d hd
  obtain ⟨b, -, rfl⟩ := List.mem_map.1 hd
  exact b.toNat_lt

variable {bigEndian : Bool} {bs cs s t : List UInt8} {k n i : ℕ}

theorem value_lt (bigEndian : Bool) (bs : List UInt8) : value bigEndian bs < 256 ^ bs.length := by
  have h := Nat.ofDigits_lt_base_pow_length (by decide : 1 < 256)
    (digits_lt (if bigEndian then bs.reverse else bs))
  cases bigEndian with
  | true => rwa [List.length_map, if_pos rfl, List.length_reverse] at h
  | false => rwa [List.length_map, if_neg Bool.false_ne_true] at h

/-- **The bytes of a word are determined by its number.** -/
theorem value_injective (hlen : bs.length = cs.length)
    (h : value bigEndian bs = value bigEndian cs) : bs = cs := by
  have hmap : Function.Injective (List.map UInt8.toNat) :=
    List.map_injective_iff.2 fun _ _ => UInt8.toNat_inj.1
  have hdigits := Nat.ofDigits_inj_of_len_eq (by decide : 1 < 256) ?_ (digits_lt _) (digits_lt _) h
  · cases bigEndian with
    | true => exact List.reverse_injective (hmap hdigits)
    | false => exact hmap hdigits
  · cases bigEndian with
    | true => simpa using hlen
    | false => simpa using hlen

theorem foldr_eq (bs : List UInt8) :
    bs.foldr (fun c n => n * 256 + c.toNat) 0 = value false bs := by
  induction bs with
  | nil => rfl
  | cons b bs ih =>
    rw [List.foldr_cons, ih, mul_comm, add_comm]
    rfl

theorem foldl_eq (bs : List UInt8) :
    bs.foldl (fun n c => n * 256 + c.toNat) 0 = value true bs := by
  have h := foldr_eq bs.reverse
  rw [List.foldr_reverse] at h
  exact h

theorem take_drop_eq_chunk (hi : i < n) (hs : s.length ≤ k * n) :
    ((s ++ List.replicate (k * n - s.length) 0).drop (k * i)).take k = chunk k s i := by
  have hle : k * i + k ≤ k * n := by
    rw [← Nat.mul_succ]
    exact Nat.mul_le_mul_left k hi
  have hlen : (((s ++ List.replicate (k * n - s.length) 0).drop (k * i)).take k).length = k := by
    simp only [List.length_take, List.length_drop, List.length_append, List.length_replicate]
    omega
  refine List.ext_getElem (hlen.trans (length_chunk k s i).symm) fun j hj hj' => ?_
  rw [length_chunk] at hj'
  simp only [List.getElem_take, List.getElem_drop, chunk, List.getElem_map, List.getElem_range]
  rcases Nat.lt_or_ge (k * i + j) s.length with hlt | hge
  · rw [List.getElem_append_left hlt]
    exact List.getElem_eq_getD 0
  · rw [List.getElem_append_right hge, List.getElem_replicate, List.getD_eq_getElem?_getD,
      List.getElem?_eq_none hge]
    rfl

/-- **Strings of the same length are compared word by word.** -/
theorem eq_iff_words (hk : 0 < k) (hlen : s.length = t.length) (hn : s.length ≤ k * n) :
    s = t ↔ ∀ i < n, value bigEndian (chunk k s i) = value bigEndian (chunk k t i) := by
  constructor
  · rintro rfl _ _
    rfl
  · intro h
    refine List.ext_getElem hlen fun j hj hj' => ?_
    have hword : j / k < n := (Nat.div_lt_iff_lt_mul hk).2 (by
      rw [mul_comm]
      exact lt_of_lt_of_le hj hn)
    have hchunk : chunk k s (j / k) = chunk k t (j / k) :=
      value_injective (by rw [length_chunk, length_chunk]) (h _ hword)
    have hmod : j % k < k := Nat.mod_lt j hk
    have hbyte := List.getElem_of_eq hchunk (show j % k < (chunk k s (j / k)).length by
      rwa [length_chunk])
    simp only [chunk, List.getElem_map, List.getElem_range, Nat.div_add_mod] at hbyte
    exact (List.getElem_eq_getD 0).trans (hbyte.trans (List.getElem_eq_getD 0).symm)

end ByteWords
