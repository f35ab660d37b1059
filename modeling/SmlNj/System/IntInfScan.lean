import SmlNj.System.Numeral

/-!
# What the scanner of arbitrary-precision integers reads

The scanner accumulates the digits of a numeral in groups and in the digits of the representation;
it yields the integer that the numeral stands for.  In the radices other than ten, it takes the
white space from the table of `ScanUtil`, where some of it is missing.

## Main definitions

* `skipped` — the characters that the scanner skips in front of a numeral.
* `ScansLongest` — the scanner reads the longest numeral.
* `Misses` — the streams on which it does not.

## Main results

* `scan_eq` — what the scanner yields.
* `scansLongest_iff` — the scanner reads the longest numeral exactly off `Misses`.
-/

namespace SmlNj.IntInf

open CoreIntInf ScanUtil

theorem isWS_eq_white (c : Char) : isWS c = white c := by
  unfold isWS
  split
  any_goals rfl
  next hspace htab hnl hvt hff hcr =>
    simp only [white, List.contains_eq_mem, List.mem_cons, List.not_mem_nil, or_false]
    symm
    rw [decide_eq_false_iff_not]
    rintro (h | h | h | h | h | h)
    exacts [hspace h, htab h, hnl h, hvt h, hff h, hcr h]

theorem skipWS_eq (s : List Char) : IntInf.skipWS s = s.dropWhile white := by
  induction s with
  | nil => rfl
  | cons c s ih =>
    rw [IntInf.skipWS, isWS_eq_white, ih, List.dropWhile_cons]

theorem digitValue_eq (c : Char) : digitValue c = if code c < 16 then code c else 16 := by
  refine code_cases (P := fun n k =>
    (if 48 ≤ n ∧ n ≤ 57 then n - 48
      else if 65 ≤ n ∧ n ≤ 70 then n - 55
      else if 97 ≤ n ∧ n ≤ 102 then n - 87
      else 16) = if k < 16 then k else 16) (by decide +kernel) ?_ c
  intro n hn
  split_ifs <;> omega

theorem isDigit_iff {r : Radix} {c : Char} : isDigit r c ↔ code c < r.base := by
  have hbase : r.base ≤ 16 := by cases r <;> decide
  rw [isDigit, digitValue_eq, decide_eq_true_iff]
  split_ifs <;> omega

theorem digitValue_of_isDigit {r : Radix} {c : Char} (h : isDigit r c) : digitValue c = code c := by
  have hbase : r.base ≤ 16 := by cases r <;> decide
  have hlt := isDigit_iff.1 h
  rw [digitValue_eq, if_pos (by omega)]

/-! ### Decimal digits -/

/-- What is read when the digits at the front of `s` follow those of `n`. -/
def readFrom (r : Radix) (neg : Bool) (n : ℕ) (s : List Char) : Rep × List Char :=
  (rep (signed neg (ofChars r n (s.takeWhile (isDigit r)))), s.dropWhile (isDigit r))

section

variable {r : Radix} {neg : Bool} {n : ℕ} {c : Char} {s : List Char}

theorem readFrom_nil : readFrom r neg n [] = (rep (signed neg n), []) := rfl

theorem readFrom_digit (h : isDigit r c) :
    readFrom r neg n (c :: s) = readFrom r neg (n * r.base + code c) s := by
  rw [readFrom, List.takeWhile_cons_of_pos h, List.dropWhile_cons_of_pos h, ofChars,
    List.foldl_cons, digitValue_of_isDigit h]
  rfl

theorem readFrom_of_not (h : ¬isDigit r c) :
    readFrom r neg n (c :: s) = (rep (signed neg n), c :: s) := by
  rw [readFrom, List.takeWhile_cons_of_neg h, List.dropWhile_cons_of_neg h]
  rfl

end

theorem decBase_eq : decBase = 10 ^ 9 := by
  rw [decBase, decTry]
  rfl

theorem bi_signed (neg : Bool) (n : ℕ) : bi ⟨neg, digitsOf n⟩ = rep (signed neg n) :=
  bi_digitsOf neg n

variable {m k v T d pos : ℕ} {p : Scanned} {o : Option (ℕ × List Char)}

/-- The loop multiplies by a power of ten when the group is full, and at the end. -/
theorem decscanLoop_eq (neg : Bool) (hk : 1 ≤ k) (hk' : k ≤ 9) (hv : v < 10 ^ k) (s : List Char) :
    decscanLoop neg (digitsOf m) (10 ^ k) v s = readFrom .dec neg (m * 10 ^ k + v) s := by
  have hpow : 10 ^ k ≤ 10 ^ 9 := Nat.pow_le_pow_right (by decide) hk'
  have hten : 10 ^ 1 ≤ 10 ^ k := Nat.pow_le_pow_right (by decide) hk
  have hbase : base = 4611686018427387904 := base_eq
  have hmadd : natmadd (10 ^ k) (digitsOf m) v = digitsOf (m * 10 ^ k + v) := by
    rw [natmadd_digitsOf m (by omega) (by omega), Nat.mul_comm]
  induction s generalizing m k v with
  | nil => rw [decscanLoop, hmadd, bi_signed, readFrom_nil]
  | cons c s ih =>
    rw [decscanLoop]
    by_cases hc : isDigit .dec c
    · have hcode : code c < 10 := isDigit_iff.1 hc
      rw [if_neg (by omega), readFrom_digit hc, decBase_eq]
      split_ifs with hfull
      · -- the group is full
        have hnext : natmadd (10 ^ 1) (digitsOf (m * 10 ^ k + v)) (code c) =
            digitsOf ((m * 10 ^ k + v) * 10 ^ 1 + code c) := by
          rw [natmadd_digitsOf _ (by omega) (by omega), Nat.mul_comm]
        rw [hmadd]
        exact ih le_rfl (by decide) (by omega) (by omega) (by omega) hnext
      · have hlt : k < 9 := by
          refine lt_of_le_of_ne hk' ?_
          rintro rfl
          exact hfull rfl
        have hpow' : 10 ^ (k + 1) ≤ 10 ^ 9 := Nat.pow_le_pow_right (by decide) hlt
        have hfact : word63Mul (10 ^ k) 10 = 10 ^ (k + 1) := by
          rw [word63Mul]
          omega
        have hword : word63Add (word63Mul v 10) (code c) = v * 10 + code c := by
          rw [word63Mul, word63Add]
          omega
        have hnext : natmadd (10 ^ (k + 1)) (digitsOf m) (v * 10 + code c) =
            digitsOf (m * 10 ^ (k + 1) + (v * 10 + code c)) := by
          rw [natmadd_digitsOf _ (by omega) (by omega), Nat.mul_comm]
        rw [hfact, hword, ih (by omega) hlt (by omega) (by omega) (by omega) hnext]
        rw [Radix.base, pow_succ]
        ring
    · have hcode : ¬code c < 10 := fun h => hc (isDigit_iff.2 h)
      rw [if_pos (by omega), hmadd, bi_signed, readFrom_of_not hc]

/-! ### Groups of bits -/

section

variable {r : Radix} {neg : Bool} {bits : ℕ}

theorem bitscanDone_eq_bi (d pos : ℕ) (nat : List ℕ) (s : List Char) :
    bitscanDone neg d pos nat s =
      some (if pos = 0 then bi ⟨neg, strip d nat⟩ else rshift (bi ⟨neg, strip d nat⟩) pos, s) := by
  unfold bitscanDone
  cases strip d nat <;> rfl

theorem bitscanDone_eq (hd : d < base) (hT : d + base * m = T * 2 ^ pos) (s : List Char) :
    bitscanDone neg d pos (digitsOf m) s = some (rep (signed neg T), s) := by
  have hsigned : signed neg (T * 2 ^ pos) / 2 ^ pos = signed neg T := by
    have hpos : (2 : ℤ) ^ pos ≠ 0 := by positivity
    have hmul : signed neg (T * 2 ^ pos) = signed neg T * 2 ^ pos := by
      cases neg <;> simp [signed]
    rw [hmul, Int.mul_ediv_cancel _ hpos]
  rw [bitscanDone_eq_bi, strip_digitsOf m hd, hT, bi_signed]
  split_ifs with hzero
  · rw [hzero, pow_zero, mul_one]
  · rw [rshift_rep, hsigned]

theorem word63Sub_eq {a b : ℕ} (h : b ≤ a) (ha : a < 2 ^ 63) : word63Sub a b = a - b := by
  rw [word63Sub]
  omega

theorem add_lt_base {x : ℕ} (hk : k ≤ 62) (hdvd : 2 ^ k ∣ d) (hd : d < base) (hx : x < 2 ^ k) :
    d + x < base := by
  obtain ⟨e, rfl⟩ := hdvd
  have hsplit := base_split hk
  rw [hsplit] at hd ⊢
  have he : e < 2 ^ (62 - k) := Nat.lt_of_mul_lt_mul_left hd
  have hle : 2 ^ k * (e + 1) ≤ 2 ^ k * 2 ^ (62 - k) := Nat.mul_le_mul_left _ he
  rw [Nat.mul_succ] at hle
  omega

theorem dvd_digit (hpos : pos ≤ 62) (hT : d + base * m = T * 2 ^ pos) : 2 ^ pos ∣ d := by
  have hbase : 2 ^ pos ∣ base * m := Dvd.dvd.mul_right (Dvd.intro _ (base_split hpos).symm) m
  exact (Nat.dvd_add_left hbase).1 (hT ▸ Dvd.intro_left T rfl)

theorem bits_fit (hle : bits ≤ pos) (hpos : pos ≤ 62) (hd : d < base)
    (hT : d + base * m = T * 2 ^ pos) (hv : v < 2 ^ bits) :
    wordOrb d (word63Lshift v (word63Sub pos bits)) < base ∧
      wordOrb d (word63Lshift v (word63Sub pos bits)) + base * m =
        (T * 2 ^ bits + v) * 2 ^ (pos - bits) := by
  have hsplit : 2 ^ pos = 2 ^ bits * 2 ^ (pos - bits) := by
    rw [← pow_add, Nat.add_sub_cancel' hle]
  have hlt : v * 2 ^ (pos - bits) < 2 ^ pos := by
    rw [hsplit]
    exact Nat.mul_lt_mul_of_pos_right hv (Nat.two_pow_pos _)
  have hword : 2 ^ pos < 2 ^ 63 := Nat.pow_lt_pow_right (by decide) (by omega)
  have hdvd := dvd_digit hpos hT
  have hor : wordOrb d (word63Lshift v (word63Sub pos bits)) = d + v * 2 ^ (pos - bits) := by
    rw [word63Sub_eq hle (by omega), word63Lshift, Nat.mod_eq_of_lt (by omega)]
    exact wordOrb_eq_add hdvd hlt
  rw [hor]
  refine ⟨add_lt_base hpos hdvd hd hlt, ?_⟩
  rw [hsplit] at hT
  linear_combination hT

theorem bits_next (T : ℕ) (hbits : bits ≤ 62) (hv : v < 2 ^ bits) :
    word63Lshift v (word63Sub baseBits bits) < base ∧
      word63Lshift v (word63Sub baseBits bits) + base * T =
        (T * 2 ^ bits + v) * 2 ^ (62 - bits) := by
  have hsplit := base_split hbits
  have hlt : v * 2 ^ (62 - bits) < base := by
    rw [hsplit]
    exact Nat.mul_lt_mul_of_pos_right hv (Nat.two_pow_pos _)
  have hword : base < 2 ^ 63 := by decide
  have hshift : word63Lshift v (word63Sub baseBits bits) = v * 2 ^ (62 - bits) := by
    rw [baseBits_eq, word63Sub_eq hbits (by decide), word63Lshift, Nat.mod_eq_of_lt (by omega)]
  rw [hshift]
  refine ⟨hlt, ?_⟩
  rw [hsplit]
  ring

/-- A group of bits that goes to two digits. -/
theorem bits_split (hbits : bits ≤ 62) (hlt : pos < bits) (hd : d < base)
    (hT : d + base * m = T * 2 ^ pos) (hv : v < 2 ^ bits) :
    wordOrb d (word63Rshiftl v (word63Sub bits pos)) < base ∧
      wordAndb (word63Lshift v (word63Add (word63Sub baseBits bits) pos)) maxDigit < base ∧
      wordAndb (word63Lshift v (word63Add (word63Sub baseBits bits) pos)) maxDigit +
          base * (wordOrb d (word63Rshiftl v (word63Sub bits pos)) + base * m) =
        (T * 2 ^ bits + v) * 2 ^ (62 - bits + pos) := by
  have hq : 2 ^ bits = 2 ^ (bits - pos) * 2 ^ pos := by
    rw [← pow_add, Nat.sub_add_cancel hlt.le]
  have hsplit : base = 2 ^ (bits - pos) * 2 ^ (62 - bits + pos) := by
    rw [base_eq_two_pow, ← pow_add]
    congr 1
    omega
  have hbaseT : 2 ^ bits * 2 ^ (62 - bits + pos) = base * 2 ^ pos := by
    rw [hsplit, hq]
    ring
  have hhigh : v / 2 ^ (bits - pos) < 2 ^ pos := by
    rw [Nat.div_lt_iff_lt_mul (Nat.two_pow_pos _), Nat.mul_comm, ← hq]
    exact hv
  have hdvd := dvd_digit (by omega) hT
  have hor : wordOrb d (word63Rshiftl v (word63Sub bits pos)) = d + v / 2 ^ (bits - pos) := by
    rw [word63Sub_eq hlt.le (by omega)]
    exact wordOrb_eq_add hdvd hhigh
  have hand : wordAndb (word63Lshift v (word63Add (word63Sub baseBits bits) pos)) maxDigit =
      v % 2 ^ (bits - pos) * 2 ^ (62 - bits + pos) := by
    have hmask : ∀ a, wordAndb a maxDigit = a % base := word63Andb_maxDigit
    have hadd : word63Add (word63Sub baseBits bits) pos = 62 - bits + pos := by
      rw [baseBits_eq, word63Sub_eq hbits (by decide), word63Add]
      omega
    have hdvd : base ∣ 2 ^ 63 := by decide
    rw [hmask, hadd, word63Lshift, Nat.mod_mod_of_dvd _ hdvd, hsplit]
    exact Nat.mul_mod_mul_right _ _ _
  rw [hor, hand]
  refine ⟨add_lt_base (by omega) hdvd hd hhigh, ?_, ?_⟩
  · rw [hsplit]
    exact Nat.mul_lt_mul_of_pos_right (Nat.mod_lt _ (Nat.two_pow_pos _)) (Nat.two_pow_pos _)
  · have hdiv := Nat.mod_add_div v (2 ^ (bits - pos))
    have hold : base * (d + base * m) = T * 2 ^ bits * 2 ^ (62 - bits + pos) := by
      rw [hT, mul_assoc T, hbaseT]
      ring
    calc v % 2 ^ (bits - pos) * 2 ^ (62 - bits + pos) +
          base * (d + v / 2 ^ (bits - pos) + base * m)
        = base * (d + base * m) + (v % 2 ^ (bits - pos) * 2 ^ (62 - bits + pos) +
            base * (v / 2 ^ (bits - pos))) := by ring
      _ = T * 2 ^ bits * 2 ^ (62 - bits + pos) + (v % 2 ^ (bits - pos) +
            2 ^ (bits - pos) * (v / 2 ^ (bits - pos))) * 2 ^ (62 - bits + pos) := by
          rw [hold, hsplit]
          ring
      _ = (T * 2 ^ bits + v) * 2 ^ (62 - bits + pos) := by
          rw [hdiv]
          ring

/-- **The loop accumulates the digits of a numeral.** -/
theorem bitscanLoop_eq (hr : r.base = 2 ^ bits) (hbits : 1 ≤ bits) (hbits' : bits ≤ 31)
    (hpos : pos < 62) (hd : d < base) (hT : d + base * m = T * 2 ^ pos) (s : List Char) :
    bitscanLoop bits neg d pos (digitsOf m) s = some (readFrom r neg T s) := by
  have hmax : word63Sub (word63Lshift 1 bits) 1 = 2 ^ bits - 1 := by
    have hlt : 2 ^ bits < 2 ^ 63 := Nat.pow_lt_pow_right (by decide) (by omega)
    have hone := Nat.two_pow_pos bits
    rw [word63Lshift, Nat.one_mul, Nat.mod_eq_of_lt hlt, word63Sub_eq hone hlt]
  have hpos0 : word63Sub baseBits bits = 62 - bits := by
    rw [baseBits_eq, word63Sub_eq (by omega) (by decide)]
  have hone := Nat.two_pow_pos bits
  induction s generalizing T d pos m with
  | nil => rw [bitscanLoop, bitscanDone_eq hd hT, readFrom_nil]
  | cons c s ih =>
    rw [bitscanLoop]
    by_cases hc : isDigit r c
    · have hv : code c < 2 ^ bits := hr ▸ isDigit_iff.1 hc
      rw [if_neg (by omega), readFrom_digit hc, hr]
      split_ifs with hlt hzero
      · subst hzero
        rw [pow_zero, mul_one] at hT
        obtain ⟨hd', hT'⟩ := bits_next T (by omega) hv
        rw [strip_digitsOf m hd, hT]
        rw [hpos0] at hd' hT' ⊢
        exact ih (by omega) hd' hT'
      · obtain ⟨hhigh, hlow, hT'⟩ := bits_split (by omega) hlt hd hT hv
        have hadd : word63Add (word63Sub baseBits bits) pos = 62 - bits + pos := by
          rw [word63Add]
          omega
        rw [strip_digitsOf m hhigh]
        rw [hadd] at hlow hT' ⊢
        exact ih (by omega) hlow hT'
      · obtain ⟨hd', hT'⟩ := bits_fit (not_lt.1 hlt) hpos.le hd hT hv
        rw [word63Sub_eq (not_lt.1 hlt) (by omega)] at hd' hT' ⊢
        exact ih (by omega) hd' hT'
    · have hcode : ¬code c < 2 ^ bits := fun h => hc (isDigit_iff.2 (hr ▸ h))
      rw [if_pos (by omega), bitscanDone_eq hd hT, readFrom_of_not hc]

end

/-! ### The prefix of a numeral -/

/-- The characters that the scanner skips: white space, but in other radices than ten only what the
table takes for white space. -/
def skipped : Radix → Char → Bool
  | .dec => white
  | _ => fun c => code c = wsCode

def patOf (r : Radix) : PrefixPat := ⟨false, decide (r = .hex), r.base - 1⟩

def readScanned (r : Radix) (p : Scanned) : Rep × List Char := readFrom r p.neg p.next p.rest

section

variable {r : Radix} {neg : Bool} {s : List Char}

theorem skipWS_eq_dropWhile (s : List Char) :
    ScanUtil.skipWS s = getNext (s.dropWhile fun c => code c = wsCode) := by
  induction s with
  | nil => rfl
  | cons c s ih =>
    rw [ScanUtil.skipWS, List.dropWhile_cons]
    by_cases hc : code c = wsCode
    · rw [if_pos hc, ih, if_pos (decide_eq_true hc)]
    · rw [if_neg hc, if_neg (by simpa using hc)]
      rfl

theorem maxDigit_ge_iff : (patOf r).maxDigit ≥ k ↔ k < r.base := by
  have hpos : 0 < r.base := by cases r <;> decide
  simp only [patOf]
  omega

def readAll (r : Radix) (neg : Bool) (s : List Char) : Option (Rep × List Char) :=
  (readDigits r s).map fun p => (rep (signed neg p.1), p.2)

theorem readAll_digit {c : Char} (hc : isDigit r c) :
    readAll r neg (c :: s) = some (readFrom r neg (code c) s) := by
  have hsingle : ∀ d ∈ [c], isDigit r d := by
    intro d hd
    rw [List.mem_singleton.1 hd]
    exact hc
  have hread : readDigits r ([c] ++ s) = _ := readDigits_append (List.cons_ne_nil c []) hsingle
  rw [readAll, show c :: s = [c] ++ s from rfl, hread, Option.map_some, readFrom, ofChars, ofChars,
    List.singleton_append, List.foldl_cons, zero_mul, zero_add, digitValue_of_isDigit hc]

theorem readAll_of_not {c : Char} (hc : ¬isDigit r c) : readAll r neg (c :: s) = none := by
  rw [readAll, readDigits, List.takeWhile_cons_of_neg hc]
  rfl

theorem finish_eq (c : Char) :
    (finish (patOf r) neg (code c, s)).map (readScanned r) = readAll r neg (c :: s) := by
  rw [finish]
  by_cases hc : isDigit r c
  · rw [if_pos (maxDigit_ge_iff.2 (isDigit_iff.1 hc)), readAll_digit hc]
    rfl
  · rw [if_neg fun h => hc (isDigit_iff.2 (maxDigit_ge_iff.1 h)), readAll_of_not hc]
    rfl

theorem isDigit_zero (r : Radix) : isDigit r '0' := by cases r <;> decide

theorem code_zero : code '0' = 0 := (code_eq_zero_iff '0').2 rfl

theorem readAll_zero : readAll r neg ('0' :: s) = some (readFrom r neg 0 s) := by
  rw [readAll_digit (isDigit_zero r), code_zero]

theorem finish_zero (s : List Char) :
    (finish (patOf r) neg (0, s)).map (readScanned r) = readAll r neg ('0' :: s) := by
  rw [← finish_eq, code_zero]

theorem chkDigit_eq (saved : List Char) (c : Char) (s : List Char) :
    (chkDigit (patOf r) neg (0, saved) (some (code c, s))).map (readScanned r) =
      if isDigit r c then readAll r neg (c :: s) else readAll r neg ('0' :: saved) := by
  rw [chkDigit]
  by_cases hc : isDigit r c
  · rw [if_pos (maxDigit_ge_iff.2 (isDigit_iff.1 hc)), if_pos hc, readAll_digit hc]
    rfl
  · rw [if_neg fun h => hc (isDigit_iff.2 (maxDigit_ge_iff.1 h)), if_neg hc, finish_zero]

theorem readAll_zero_digit {c : Char} (hc : isDigit r c) :
    readAll r neg ('0' :: c :: s) = readAll r neg (c :: s) := by
  rw [readAll_zero, readAll_digit hc, readFrom_digit hc, zero_mul, zero_add]

theorem getOptX_eq (hr : r = .hex) (s : List Char) :
    (getOptX (patOf r) neg (0, s) (getNext s)).map (readScanned r) =
      readAll r neg (dropPrefix r ('0' :: s)) := by
  cases s with
  | nil => exact finish_zero []
  | cons x s =>
    rw [getNext, getOptX]
    by_cases hx : code x = xCode
    · rw [if_pos hx]
      have hx' := (code_eq_xCode_iff x).1 hx
      cases s with
      | nil => exact finish_zero [x]
      | cons c t =>
        rw [getNext, chkDigit_eq, dropPrefix]
        by_cases hc : isDigit r c
        · rw [if_pos hc, if_pos ⟨hr, hx', hc⟩]
        · rw [if_neg hc, if_neg fun h => hc h.2.2]
    · rw [if_neg hx, chkDigit_eq]
      have hsame : dropPrefix r ('0' :: x :: s) = '0' :: x :: s := by
        cases s with
        | nil => rfl
        | cons c t => exact if_neg fun h => hx ((code_eq_xCode_iff x).2 h.2.1)
      rw [hsame]
      split_ifs with hdigit
      · exact (readAll_zero_digit hdigit).symm
      · rfl

theorem dropPrefix_of_ne {c : Char} (hc : c ≠ '0') : dropPrefix r (c :: s) = c :: s := by
  unfold dropPrefix
  split
  · next heq => exact absurd (List.cons.inj heq).1 hc
  · rfl

theorem dropPrefix_of_ne_hex (hr : r ≠ .hex) (s : List Char) : dropPrefix r s = s := by
  rcases dropPrefix_cases r s with h | h
  · exact h
  · exact absurd h.1 hr

theorem getOpt0_zero_hex (hr : r = .hex) (neg : Bool) (s : List Char) :
    getOpt0 (patOf r) neg (some (0, s)) = getOptX (patOf r) neg (0, s) (getNext s) := by
  subst hr
  rfl

theorem getOpt0_zero (hr : r ≠ .hex) (neg : Bool) (s : List Char) :
    getOpt0 (patOf r) neg (some (0, s)) = finish (patOf r) neg (0, s) := by
  cases r with
  | hex => exact absurd rfl hr
  | _ => rfl

theorem getOpt0_of_ne (hk : k ≠ 0) (neg : Bool) (s : List Char) :
    getOpt0 (patOf r) neg (some (k, s)) = finish (patOf r) neg (k, s) := by
  obtain ⟨k, rfl⟩ := Nat.exists_eq_succ_of_ne_zero hk
  cases r <;> rfl

theorem getOpt0_eq (neg : Bool) (s : List Char) :
    (getOpt0 (patOf r) neg (getNext s)).map (readScanned r) =
      readAll r neg (dropPrefix r s) := by
  cases s with
  | nil => rfl
  | cons c s =>
    by_cases hc : c = '0'
    · subst hc
      rw [getNext, code_zero]
      by_cases hr : r = .hex
      · rw [← getOptX_eq hr, getOpt0_zero_hex hr]
      · rw [dropPrefix_of_ne_hex hr, ← finish_zero, getOpt0_zero hr]
    · have hzero : code c ≠ 0 := fun h => hc ((code_eq_zero_iff c).1 h)
      rw [dropPrefix_of_ne hc, ← finish_eq, getNext, getOpt0_of_ne hzero]

/-- **What is read after white space.** -/
theorem getOptSign_eq (s : List Char) :
    (getOptSign (patOf r) (getNext s)).map (readScanned r) =
      (readSigned r s).map fun p => (rep p.1, p.2) := by
  have hread : (readSigned r s).map (fun p => (rep p.1, p.2)) =
      readAll r (readSign s).1 (dropPrefix r (readSign s).2) := by
    rw [readSigned, Option.map_map]
    rfl
  rw [hread, ← getOpt0_eq]
  cases s with
  | nil => rfl
  | cons c s =>
    rw [getNext, getOptSign]
    by_cases hminus : code c = minusCode
    · rw [if_pos hminus]
      rcases (code_eq_minusCode_iff c).1 hminus with rfl | rfl <;> rfl
    · rw [if_neg hminus]
      by_cases hplus : code c = plusCode
      · rw [(code_eq_plusCode_iff c).1 hplus]
        rfl
      · rw [if_neg hplus]
        have hsign : readSign (c :: s) = (false, c :: s) := by
          unfold readSign
          split
          · next heq =>
            exact absurd ((code_eq_plusCode_iff c).2 (List.cons.inj heq).1) hplus
          · next heq =>
            exact absurd ((code_eq_minusCode_iff c).2 (Or.inl (List.cons.inj heq).1)) hminus
          · next heq =>
            exact absurd ((code_eq_minusCode_iff c).2 (Or.inr (List.cons.inj heq).1)) hminus
          · rfl
        rw [hsign]
        rfl

/-! ### Scanning -/

theorem finish_next {saved : ℕ × List Char} (h : finish (patOf r) neg saved = some p) :
    p.next < r.base := by
  rw [finish] at h
  split_ifs at h with hc
  cases h
  exact maxDigit_ge_iff.1 hc

theorem chkDigit_next {saved : ℕ × List Char} (h : chkDigit (patOf r) neg saved o = some p) :
    p.next < r.base := by
  cases o with
  | none => exact finish_next h
  | some o =>
    rw [chkDigit] at h
    split_ifs at h with hc
    · cases h
      exact maxDigit_ge_iff.1 hc
    · exact finish_next h

theorem getOpt0_next (h : getOpt0 (patOf r) neg o = some p) : p.next < r.base := by
  rcases o with _ | ⟨k, s⟩
  · cases h
  by_cases hk : k = 0
  · subst hk
    by_cases hr : r = .hex
    · rw [getOpt0_zero_hex hr] at h
      rcases hnext : getNext s with _ | ⟨x, t⟩ <;> rw [hnext, getOptX] at h
      · exact finish_next h
      · split_ifs at h
        · exact chkDigit_next h
        · exact chkDigit_next h
    · rw [getOpt0_zero hr] at h
      exact finish_next h
  · rw [getOpt0_of_ne hk] at h
    exact finish_next h

theorem getOptSign_next (h : getOptSign (patOf r) o = some p) : p.next < r.base := by
  rcases o with _ | ⟨k, s⟩
  · cases h
  · rw [getOptSign] at h
    change (if k = minusCode then _ else _ : Option Scanned) = _ at h
    split_ifs at h
    · exact getOpt0_next h
    · exact getOpt0_next h
    · exact getOpt0_next h

theorem bitscan_eq {bits : ℕ} (hr : r.base = 2 ^ bits) (hbits : 1 ≤ bits) (hbits' : bits ≤ 31)
    (s : List Char) :
    bitscan bits (patOf r) s =
      (readSigned r (s.dropWhile fun c => code c = wsCode)).map fun p => (rep p.1, p.2) := by
  rw [← getOptSign_eq, ← skipWS_eq_dropWhile, bitscan, scanPrefix]
  rcases hscan : getOptSign (patOf r) (ScanUtil.skipWS s) with _ | ⟨neg, next, rest⟩
  · rfl
  · have hnext : next < 2 ^ bits := hr ▸ getOptSign_next hscan
    obtain ⟨hd, hT⟩ := bits_next 0 (by omega) hnext
    rw [zero_mul, zero_add] at hT
    have hpos0 : word63Sub baseBits bits = 62 - bits := by
      rw [baseBits_eq, word63Sub_eq (by omega) (by decide)]
    rw [hpos0] at hd hT ⊢
    exact bitscanLoop_eq hr hbits hbits' (m := 0) (by omega) hd hT rest

theorem checkFirstDigit_eq (neg : Bool) (s : List Char) :
    checkFirstDigit neg s = readAll .dec neg s := by
  cases s with
  | nil => rfl
  | cons c s =>
    rw [checkFirstDigit, digVal]
    by_cases hc : isDigit .dec c
    · have hcode : code c < 10 := isDigit_iff.1 hc
      rw [if_pos (by omega), readAll_digit hc]
      have hloop := decscanLoop_eq neg (m := 0) (k := 1) le_rfl (by decide) hcode s
      rw [Nat.zero_mul, Nat.zero_add] at hloop
      exact congrArg some hloop
    · have hcode : ¬code c < 10 := fun h => hc (isDigit_iff.2 h)
      rw [if_neg (by omega), readAll_of_not hc]

theorem decscan_eq (s : List Char) :
    decscan s = (readSigned .dec (s.dropWhile white)).map fun p => (rep p.1, p.2) := by
  have hread : (readSigned .dec (s.dropWhile white)).map (fun p => (rep p.1, p.2)) =
      readAll .dec (readSign (s.dropWhile white)).1 (readSign (s.dropWhile white)).2 := by
    rw [readSigned, Option.map_map, dropPrefix_of_ne_hex (by decide)]
    rfl
  rw [hread, decscan, startscan, skipWS_eq]
  split
  · next heq => rw [heq]; rfl
  · next heq => rw [heq]; exact checkFirstDigit_eq true _
  · next heq => rw [heq]; exact checkFirstDigit_eq true _
  · next heq => rw [heq]; exact checkFirstDigit_eq false _
  · next hnil hminus htilde hplus =>
    have hsign : readSign (s.dropWhile white) = (false, s.dropWhile white) := by
      unfold readSign
      split
      · next heq => exact absurd heq (hplus _)
      · next heq => exact absurd heq (hminus _)
      · next heq => exact absurd heq (htilde _)
      · rfl
    rw [hsign]
    exact checkFirstDigit_eq false _

end

/-- **What the scanner yields.** -/
theorem scan_eq (r : Radix) (s : List Char) :
    scan r s = (readSigned r (s.dropWhile (skipped r))).map fun p => (rep p.1, p.2) := by
  cases r with
  | dec => exact decscan_eq s
  | bin => exact bitscan_eq (r := .bin) (rfl : Radix.bin.base = 2 ^ 1) (by decide) (by decide) s
  | oct => exact bitscan_eq (r := .oct) (rfl : Radix.oct.base = 2 ^ 3) (by decide) (by decide) s
  | hex => exact bitscan_eq (r := .hex) (rfl : Radix.hex.base = 2 ^ 4) (by decide) (by decide) s

/-! ### White space -/

def ScansLongest (r : Radix) (s : List Char) (out : Option (Rep × List Char)) : Prop :=
  ∃ x, Longest r s x ∧ out = x.map fun p => (rep p.1, p.2)

/-- The stream has a numeral, in front of which is white space that is not skipped. -/
def Misses (r : Radix) (s : List Char) : Prop :=
  (∃ c t, s.dropWhile (skipped r) = c :: t ∧ white c) ∧ ∃ w rest i, s = w ++ rest ∧ Numeral r w i

theorem skipped_white {r : Radix} {c : Char} (h : skipped r c) : white c := by
  cases r with
  | dec => exact h
  | _ =>
    rcases (code_eq_wsCode_iff c).1 (of_decide_eq_true h) with rfl | rfl | rfl <;> decide

theorem readSigned_white {r : Radix} {c : Char} (s : List Char) (hc : white c) :
    readSigned r (c :: s) = none := by
  have hdigit : ¬isDigit r c := fun h => by
    rw [(digit_cases h).1] at hc
    cases hc
  have hsign : readSign (c :: s) = (false, c :: s) := by
    unfold readSign
    split
    · next heq =>
      rw [(List.cons.inj heq).1] at hc
      exact absurd hc (by decide)
    · next heq =>
      rw [(List.cons.inj heq).1] at hc
      exact absurd hc (by decide)
    · next heq =>
      rw [(List.cons.inj heq).1] at hc
      exact absurd hc (by decide)
    · rfl
  have hzero : c ≠ '0' := fun h => hdigit (h ▸ isDigit_zero r)
  rw [readSigned, hsign, dropPrefix_of_ne hzero, readDigits, List.takeWhile_cons_of_neg hdigit]
  rfl

theorem dropWhile_skipped (r : Radix) (s : List Char) :
    (s.dropWhile (skipped r)).dropWhile white = s.dropWhile white := by
  induction s with
  | nil => rfl
  | cons c s ih =>
    by_cases hc : skipped r c
    · rw [List.dropWhile_cons_of_pos hc, ih, List.dropWhile_cons_of_pos (skipped_white hc)]
    · rw [List.dropWhile_cons_of_neg hc]

theorem rep_map_injective {x y : Option (ℤ × List Char)}
    (h : (x.map fun p => (rep p.1, p.2)) = y.map fun p => (rep p.1, p.2)) : x = y := by
  refine Option.map_injective (fun p q hpq => ?_) h
  obtain ⟨h1, h2⟩ := Prod.mk.inj hpq
  exact Prod.ext (rep_injective h1) h2

/-- **The scanner reads the longest numeral exactly off `Misses`.** -/
theorem scan_longest_iff (r : Radix) (s : List Char) :
    ScansLongest r s (scan r s) ↔ ¬Misses r s := by
  have hread : ScansLongest r s (scan r s) ↔ readSigned r (s.dropWhile (skipped r)) = read r s := by
    constructor
    · rintro ⟨x, hx, heq⟩
      rw [scan_eq] at heq
      rw [rep_map_injective heq, longest_iff.1 hx]
    · intro h
      exact ⟨_, longest_read r s, by rw [scan_eq, h]⟩
  rw [hread, read, ← dropWhile_skipped r s]
  by_cases hwhite : ∃ c t, s.dropWhile (skipped r) = c :: t ∧ white c
  · obtain ⟨c, t, hs, hc⟩ := hwhite
    have hnone : read r s = none ↔ ¬∃ w rest i, s = w ++ rest ∧ Numeral r w i := by
      have hlong := longest_read r s
      constructor
      · rintro h ⟨w, rest, i, hw, hnum⟩
        rw [h] at hlong
        exact hlong w rest i hw hnum
      · intro h
        rcases heq : read r s with _ | ⟨i, rest⟩
        · rfl
        · obtain ⟨w, hw, hnum⟩ := numeral_of_read heq
          exact absurd ⟨w, rest, i, hw, hnum⟩ h
    rw [dropWhile_skipped, ← read, hs, readSigned_white t hc, eq_comm, hnone]
    refine not_congr ⟨fun h => ⟨⟨c, t, hs, hc⟩, h⟩, And.right⟩
  · -- all white space is skipped
    have hsame : (s.dropWhile (skipped r)).dropWhile white = s.dropWhile (skipped r) := by
      rcases hs : s.dropWhile (skipped r) with _ | ⟨c, t⟩
      · rfl
      · exact List.dropWhile_cons_of_neg fun hc => hwhite ⟨c, t, hs, hc⟩
    rw [hsame]
    exact iff_of_true rfl fun h => hwhite h.1

end SmlNj.IntInf
