import Mathlib
import SmlNj.System.IntInfScan

/-!
# Scanning undoes formatting

The string of an integer is a numeral for it, in every radix.  A group of digits in the middle of a
string is padded with zeros; the first one is not.

## Main definitions

* `Digits` — a string of digits and their number.

## Main results

* `scan_correct_iff` — scanning undoes formatting, and reads the longest numeral exactly off
  `Misses`.
-/

namespace SmlNj.IntInf

open CoreIntInf ScanUtil

def Digits (r : Radix) (ds : List Char) (n : ℕ) : Prop :=
  (∀ c ∈ ds, isDigit r c) ∧ ofChars r 0 ds = n

section

variable {r : Radix} {ds es : List Char} {m n : ℕ}

theorem ofChars_append (r : Radix) (k : ℕ) (ds es : List Char) :
    ofChars r k (ds ++ es) = ofChars r (ofChars r k ds) es := List.foldl_append

theorem ofChars_eq (r : Radix) (k : ℕ) (ds : List Char) :
    ofChars r k ds = k * r.base ^ ds.length + ofChars r 0 ds := by
  induction ds using List.reverseRecOn with
  | nil => simp [ofChars]
  | append_singleton ds c ih =>
    rw [ofChars_append, ofChars_append, ih, List.length_append, List.length_singleton, pow_succ]
    simp only [ofChars, List.foldl_cons, List.foldl_nil]
    ring

theorem Digits.append (h : Digits r ds m) (h' : Digits r es n) :
    Digits r (ds ++ es) (m * r.base ^ es.length + n) := by
  refine ⟨fun c hc => ?_, ?_⟩
  · rcases List.mem_append.1 hc with hc | hc
    · exact h.1 c hc
    · exact h'.1 c hc
  · rw [ofChars_append, ofChars_eq, h.2, h'.2]

theorem Digits.nil : Digits r [] 0 := ⟨fun _ hc => absurd hc List.not_mem_nil, rfl⟩

theorem Digits.singleton {c : Char} (h : isDigit r c) : Digits r [c] (digitValue c) := by
  refine ⟨fun d hd => ?_, ?_⟩
  · rw [List.mem_singleton.1 hd]
    exact h
  · simp [ofChars]

theorem Digits.numeral (h : Digits r ds n) (hne : ds ≠ []) (neg : Bool) :
    Numeral r (addsign neg ds) (signed neg n) := by
  rw [← h.2]
  have hspaces : ∀ c ∈ ([] : List Char), white c := fun _ hc => absurd hc List.not_mem_nil
  have hmk {sign : List Char} (hsign : Sign sign neg) :=
    Numeral.mk hspaces hsign (.none r) hne h.1
  cases neg with
  | false => exact hmk .none
  | true => exact hmk .tilde

end

/-! ### Bases that are powers of two -/

/-- The digits of a radix. -/
structure DigitTable (r : Radix) (bits : ℕ) (digvec : List Char) : Prop where
  base_eq : r.base = 2 ^ bits
  pos : 0 < bits
  le : bits ≤ 31
  digit : ∀ d < 2 ^ bits, isDigit r (digvec.getD d ' ') ∧ digitValue (digvec.getD d ' ') = d

theorem digitTable_bin : DigitTable .bin 1 ['0', '1'] :=
  ⟨rfl, by decide, by decide, by decide⟩

theorem digitTable_oct : DigitTable .oct 3 ['0', '1', '2', '3', '4', '5', '6', '7'] :=
  ⟨rfl, by decide, by decide, by decide⟩

theorem digitTable_hex : DigitTable .hex 4
    ['0', '1', '2', '3', '4', '5', '6', '7', '8', '9', 'A', 'B', 'C', 'D', 'E', 'F'] :=
  ⟨rfl, by decide, by decide, by decide⟩

section

variable {r : Radix} {bits : ℕ} {digvec : List Char}

theorem two_pow_split_add {cb : ℕ} (h : bits ≤ cb) : 2 ^ cb = 2 ^ bits * 2 ^ (cb - bits) := by
  rw [← pow_add, Nat.add_sub_cancel' h]

theorem next_of_le {c cb q : ℕ} (h : bits ≤ cb) :
    (c + 2 ^ cb * q) % 2 ^ bits = c % 2 ^ bits ∧
      c / 2 ^ bits + 2 ^ (cb - bits) * q = (c + 2 ^ cb * q) / 2 ^ bits := by
  rw [two_pow_split_add h, mul_assoc]
  exact ⟨Nat.add_mul_mod_self_left _ _ _, (Nat.add_mul_div_left _ _ (Nat.two_pow_pos _)).symm⟩

theorem next_of_lt {c cb x q : ℕ} (h : cb < bits) (hbits : bits ≤ 62) (hc : c < 2 ^ cb) :
    (c + 2 ^ cb * (x + base * q)) % 2 ^ bits = (c + 2 ^ cb * x) % 2 ^ bits ∧
      x / 2 ^ (bits - cb) + 2 ^ (62 - bits + cb) * q =
        (c + 2 ^ cb * (x + base * q)) / 2 ^ bits := by
  have hbase : base = 2 ^ (bits - cb) * 2 ^ (62 - bits + cb) := by
    rw [base_eq_two_pow, ← pow_add]
    congr 1
    omega
  have hsplit : 2 ^ bits = 2 ^ cb * 2 ^ (bits - cb) := two_pow_split_add h.le
  constructor
  · have hmul : c + 2 ^ cb * (x + base * q) =
        c + 2 ^ cb * x + 2 ^ bits * (2 ^ (62 - bits + cb) * q) := by
      rw [hbase, hsplit]
      ring
    rw [hmul, Nat.add_mul_mod_self_left]
  · rw [hsplit, ← Nat.div_div_eq_div_mul, Nat.add_mul_div_left _ _ (Nat.two_pow_pos _),
      Nat.div_eq_of_lt hc, Nat.zero_add, hbase, mul_assoc,
      Nat.add_mul_div_left _ _ (Nat.two_pow_pos _)]

theorem wordAndb_mask (a k : ℕ) : wordAndb a (2 ^ k - 1) = a % 2 ^ k :=
  Nat.and_two_pow_sub_one_eq_mod a k

theorem wordAndb_next {c cb x : ℕ} (h : cb < bits) (hbits : bits ≤ 62) (hc : c < 2 ^ cb) :
    wordAndb (wordOrb (word63Lshift x cb) c) (2 ^ bits - 1) = (c + 2 ^ cb * x) % 2 ^ bits := by
  have hdvd : 2 ^ cb ∣ x * 2 ^ cb % 2 ^ 63 :=
    (Nat.dvd_mod_iff (Nat.pow_dvd_pow 2 (by omega))).2 (Dvd.intro_left x rfl)
  have hword : 2 ^ bits ∣ 2 ^ 63 := Nat.pow_dvd_pow 2 (by omega)
  rw [wordAndb_mask, word63Lshift, wordOrb_eq_add hdvd hc, Nat.add_mod, Nat.mod_mod_of_dvd _ hword,
    ← Nat.add_mod, Nat.add_comm, Nat.mul_comm]

def uncons (xs : List ℕ) : ℕ × List ℕ :=
  match xs with
  | [] => (0, [])
  | x :: xs' => (x, xs')

theorem uncons_digitsOf (q : ℕ) : uncons (digitsOf q) = (q % base, digitsOf (q / base)) := by
  unfold uncons
  by_cases hq : q = 0
  · subst hq
    rw [digitsOf_zero, Nat.zero_mod, Nat.zero_div, digitsOf_zero]
  · rw [digitsOf_of_ne_zero hq]

theorem bitfmtLoop_step {maxdig fuel : ℕ} {negative : Bool} {chars : List Char} {xs : List ℕ}
    {c cb : ℕ} (h : xs = [] → c ≠ 0) :
    bitfmtLoop bits maxdig digvec negative (fuel + 1) chars xs c cb =
      if cb ≥ bits then
        bitfmtLoop bits maxdig digvec negative fuel
          (digvec.getD (wordAndb c maxdig) ' ' :: chars) xs
          (word63Rshiftl c bits) (word63Sub cb bits)
      else
        bitfmtLoop bits maxdig digvec negative fuel
          (digvec.getD (wordAndb (wordOrb (word63Lshift (uncons xs).1 cb) c) maxdig) ' ' :: chars)
          (uncons xs).2 (word63Rshiftl (uncons xs).1 (word63Sub bits cb))
          (word63Add (word63Sub baseBits bits) cb) := by
  cases xs with
  | nil =>
    obtain ⟨c, rfl⟩ := Nat.exists_eq_succ_of_ne_zero (h rfl)
    rfl
  | cons x xs => rfl

/-- **The digits are cut off a number** from the lowest one on. -/
theorem bitfmtLoop_eq (ht : DigitTable r bits digvec) (negative : Bool) (fuel : ℕ)
    (chars : List Char) {q c cb : ℕ} (hcb : cb ≤ 62) (hc : c < 2 ^ cb)
    (hfuel : c + 2 ^ cb * q < 2 ^ fuel) :
    ∃ ds, bitfmtLoop bits (2 ^ bits - 1) digvec negative fuel chars (digitsOf q) c cb =
        .ok (addsign negative (ds ++ chars)) ∧
      Digits r ds (c + 2 ^ cb * q) ∧ (c + 2 ^ cb * q ≠ 0 → ds ≠ []) := by
  have hbits := ht.le
  have hpos := ht.pos
  induction fuel generalizing chars q c cb with
  | zero =>
    have hpow := Nat.two_pow_pos cb
    have hc0 : c = 0 := by omega
    have hq0 : q = 0 := by
      by_contra hq
      have := Nat.mul_le_mul_left (2 ^ cb) (Nat.one_le_iff_ne_zero.2 hq)
      omega
    subst hc0 hq0
    exact ⟨[], by rw [digitsOf_zero, bitfmtLoop]; rfl, Digits.nil, fun h => absurd rfl h⟩
  | succ fuel ih =>
    by_cases hzero : c = 0 ∧ q = 0
    · obtain ⟨rfl, rfl⟩ := hzero
      exact ⟨[], by rw [digitsOf_zero, bitfmtLoop]; rfl, Digits.nil, fun h => absurd rfl h⟩
    have hstep : digitsOf q = [] → c ≠ 0 := by
      intro hq hc
      exact hzero ⟨hc, digitsOf_eq_nil.1 hq⟩
    -- one more digit `d`, and the rest of the number
    have hmore : ∀ {N N' : ℕ} {d : ℕ} {ds : List Char}, N' = N / 2 ^ bits → d = N % 2 ^ bits →
        Digits r ds N' → Digits r (ds ++ [digvec.getD d ' ']) N := by
      rintro N N' d ds rfl rfl hds
      obtain ⟨hdig, hval⟩ := ht.digit (N % 2 ^ bits) (Nat.mod_lt _ (Nat.two_pow_pos _))
      have happ := hds.append (Digits.singleton hdig)
      rw [hval, List.length_singleton, pow_one, ht.base_eq, Nat.div_add_mod'] at happ
      exact happ
    have hhalf : ∀ N, N < 2 ^ (fuel + 1) → N / 2 ^ bits < 2 ^ fuel := by
      intro N hN
      have hle : 2 ^ 1 ≤ 2 ^ bits := Nat.pow_le_pow_right (by decide) hpos
      rw [Nat.div_lt_iff_lt_mul (Nat.two_pow_pos _)]
      have := Nat.mul_le_mul_left (2 ^ fuel) hle
      rw [pow_succ] at hN
      omega
    rw [bitfmtLoop_step hstep]
    split_ifs with hle
    · obtain ⟨hmod, hdiv⟩ := next_of_le (c := c) (q := q) hle
      have hc' : c / 2 ^ bits < 2 ^ (cb - bits) := by
        rw [Nat.div_lt_iff_lt_mul (Nat.two_pow_pos _), Nat.mul_comm, ← two_pow_split_add hle]
        exact hc
      rw [word63Sub_eq hle (by omega), wordAndb_mask]
      obtain ⟨ds, hloop, hds, -⟩ := ih (digvec.getD (c % 2 ^ bits) ' ' :: chars) (q := q)
        (by omega) hc' (hdiv ▸ hhalf _ hfuel)
      refine ⟨ds ++ [digvec.getD (c % 2 ^ bits) ' '], ?_, hmore hdiv hmod.symm hds, by simp⟩
      rw [List.append_assoc]
      exact hloop
    · have hlt := not_le.1 hle
      rw [uncons_digitsOf]
      dsimp only
      have hq := Nat.mod_add_div q base
      obtain ⟨hmod, hdiv⟩ := next_of_lt (x := q % base) (q := q / base) hlt (by omega) hc
      rw [hq] at hmod hdiv
      have hadd : word63Add (word63Sub baseBits bits) cb = 62 - bits + cb := by
        rw [baseBits_eq, word63Sub_eq (by omega) (by decide), word63Add]
        omega
      have hc' : q % base / 2 ^ (bits - cb) < 2 ^ (62 - bits + cb) := by
        rw [Nat.div_lt_iff_lt_mul (Nat.two_pow_pos _), ← pow_add]
        refine lt_of_lt_of_eq (mod_base_lt q) ?_
        rw [base_eq_two_pow]
        congr 1
        omega
      rw [wordAndb_next hlt (by omega) hc, hadd, word63Sub_eq hlt.le (by omega)]
      obtain ⟨ds, hloop, hds, -⟩ :=
        ih (digvec.getD ((c + 2 ^ cb * (q % base)) % 2 ^ bits) ' ' :: chars)
          (q := q / base) (by omega) hc' (hdiv ▸ hhalf _ hfuel)
      refine ⟨ds ++ [digvec.getD ((c + 2 ^ cb * (q % base)) % 2 ^ bits) ' '], ?_,
        hmore hdiv hmod.symm hds, by simp⟩
      rw [List.append_assoc]
      exact hloop

end

/-! ### Decimal numbers -/

theorem isDigit_digitChar : ∀ d < 10, isDigit .dec d.digitChar ∧ digitValue d.digitChar = d := by
  decide

theorem digits_toString' (d : ℕ) : Digits .dec (toString' d) d := by
  induction d using Nat.strong_induction_on with
  | _ d ih =>
    rw [toString', Nat.toDigits_eq_if (by decide)]
    split_ifs with hlt
    · have h := Digits.singleton (isDigit_digitChar d hlt).1
      rw [(isDigit_digitChar d hlt).2] at h
      exact h
    · have hdigit := isDigit_digitChar (d % 10) (Nat.mod_lt d (by decide))
      have h := (ih (d / 10) (Nat.div_lt_self (by omega) (by decide))).append
        (Digits.singleton hdigit.1)
      rw [hdigit.2, List.length_singleton, pow_one] at h
      change Digits _ _ (d / 10 * 10 + d % 10) at h
      rw [Nat.div_add_mod'] at h
      exact h

theorem digits_replicate (k : ℕ) : Digits .dec (List.replicate k '0') 0 := by
  induction k with
  | zero => exact Digits.nil
  | succ k ih =>
    have h := (Digits.singleton (isDigit_zero .dec)).append ih
    rw [show digitValue '0' = 0 by decide, zero_mul] at h
    exact h

theorem digits_decDig {d : ℕ} (h : d < 10 ^ 9) :
    Digits .dec (decDig d) d ∧ (decDig d).length = 9 := by
  have hdigs : decDigs = 9 := by
    rw [decDigs, decTry, if_pos (by decide)]
  have hlen : (toString' d).length ≤ 9 :=
    (Nat.length_toDigits_le_iff (by decide) (by decide)).2 h
  rw [decDig, padLeft, hdigs]
  constructor
  · have happ := (digits_replicate (9 - (toString' d).length)).append (digits_toString' d)
    rw [zero_mul, zero_add] at happ
    exact happ
  · rw [List.length_append, List.length_replicate]
    omega

/-- **The groups of digits of a natural.** -/
theorem decfmtLoop_eq {dfuel : ℕ} (hd : 3 ≤ dfuel) (fuel : ℕ) (l : List (List Char)) {m : ℕ}
    (hfuel : m < 2 ^ fuel) :
    ∃ L, decfmtLoop dfuel fuel l (digitsOf m) = .ok (L ++ l) ∧ Digits .dec L.flatten m ∧
      (m ≠ 0 → L.flatten ≠ []) := by
  induction fuel generalizing l m with
  | zero =>
    have hm : m = 0 := by omega
    subst hm
    exact ⟨[], by rw [digitsOf_zero, decfmtLoop]; rfl, Digits.nil, fun h => absurd rfl h⟩
  | succ fuel ih =>
    by_cases hm : m = 0
    · subst hm
      exact ⟨[], by rw [digitsOf_zero, decfmtLoop]; rfl, Digits.nil, fun h => absurd rfl h⟩
    by_cases hlt : m < base
    · refine ⟨[toString' m], ?_, ?_, fun _ => ?_⟩
      · rw [digitsOf_of_lt hm hlt, decfmtLoop]
        rfl
      · rw [List.flatten_singleton]
        exact digits_toString' m
      · rw [List.flatten_singleton]
        exact Nat.toDigits_ne_nil
    · have hq : m / base ≠ 0 := (Nat.div_pos (not_lt.1 hlt) (by decide)).ne'
      have hstep : decfmtLoop dfuel (fuel + 1) l (digitsOf m) =
          natdivmodd dfuel (digitsOf m) decBase >>= fun qr =>
            decfmtLoop dfuel fuel (decDig qr.2 :: l) qr.1 := by
        rw [digitsOf_of_ne_zero hm, digitsOf_of_ne_zero hq]
        rfl
      have hten : decBase < base := by
        rw [decBase_eq]
        decide
      have hdiv : m / 10 ^ 9 < 2 ^ fuel := by
        rw [Nat.div_lt_iff_lt_mul (by decide)]
        rw [pow_succ] at hfuel
        omega
      rw [hstep, natdivmodd_digitsOf m hd (by rw [decBase_eq]; decide) hten, decBase_eq]
      obtain ⟨L, hloop, hL, -⟩ := ih (decDig (m % 10 ^ 9) :: l) hdiv
      obtain ⟨hdig, hlen⟩ := digits_decDig (Nat.mod_lt m (show 0 < 10 ^ 9 by decide))
      refine ⟨L ++ [decDig (m % 10 ^ 9)], ?_, ?_, fun _ hnil => ?_⟩
      · rw [List.append_assoc]
        exact hloop
      · have happ := hL.append hdig
        rw [hlen, Radix.base, Nat.div_add_mod'] at happ
        rw [List.flatten_append, List.flatten_singleton]
        exact happ
      · rw [List.flatten_append, List.flatten_singleton] at hnil
        have := congrArg List.length hnil
        rw [List.length_append, hlen, List.length_nil] at this
        omega

/-! ### The round trip -/

/-- A sign and digits. -/
theorem fmt_of_digits {r : Radix} {i : ℤ} {fuel : ℕ} (hfuel : i.natAbs + 3 ≤ fuel) :
    ∃ neg ds n, fmt fuel r (rep i) = .ok (addsign neg ds) ∧ Digits r ds n ∧ ds ≠ [] ∧
      i = signed neg n := by
  rcases eq_or_ne i 0 with rfl | hi
  · have hzero := Digits.singleton (isDigit_zero r)
    rw [show digitValue '0' = 0 by decide] at hzero
    refine ⟨false, ['0'], 0, ?_, hzero, List.cons_ne_nil _ _, rfl⟩
    cases r <;> rfl
  obtain ⟨s, n, hn, rfl⟩ := exists_signed hi
  have hlt : n < 2 ^ fuel := by
    have habs : (signed s n).natAbs = n := by cases s <;> simp [signed]
    calc n < 2 ^ n := Nat.lt_two_pow_self
      _ ≤ 2 ^ fuel := Nat.pow_le_pow_right (by decide) (by omega)
  -- the three radices that are powers of two
  have hbits : ∀ {bits : ℕ} {digvec : List Char}, DigitTable r bits digvec →
      ∃ ds, bitfmt fuel bits (2 ^ bits - 1) digvec ⟨s, digitsOf n⟩ = .ok (addsign s ds) ∧
        Digits r ds n ∧ ds ≠ [] := by
    intro bits digvec ht
    obtain ⟨ds, hloop, hds, hne⟩ := bitfmtLoop_eq ht s fuel [] (q := n) (c := 0)
      (by decide : 0 ≤ 62) (by decide) (by rw [pow_zero, Nat.one_mul, Nat.zero_add]; exact hlt)
    rw [pow_zero, Nat.one_mul, Nat.zero_add] at hds hne
    rw [List.append_nil] at hloop
    refine ⟨ds, ?_, hds, hne hn⟩
    rw [← hloop, digitsOf_of_ne_zero hn]
    rfl
  rw [rep_signed s hn]
  cases r with
  | bin =>
    obtain ⟨ds, hfmt, hds, hne⟩ := hbits digitTable_bin
    exact ⟨s, ds, n, hfmt, hds, hne, rfl⟩
  | oct =>
    obtain ⟨ds, hfmt, hds, hne⟩ := hbits digitTable_oct
    exact ⟨s, ds, n, hfmt, hds, hne, rfl⟩
  | hex =>
    obtain ⟨ds, hfmt, hds, hne⟩ := hbits digitTable_hex
    exact ⟨s, ds, n, hfmt, hds, hne, rfl⟩
  | dec =>
    obtain ⟨L, hloop, hL, hne⟩ := decfmtLoop_eq (by omega : 3 ≤ fuel) fuel [] hlt
    rw [List.append_nil] at hloop
    refine ⟨s, L.flatten, n, ?_, hL, hne hn, rfl⟩
    have hstep : fmt fuel .dec ⟨s, digitsOf n⟩ = (do
        let l ← decfmtLoop fuel fuel [] (digitsOf n)
        return (if s then ['~'] :: l else l).flatten) := by
      rw [digitsOf_of_ne_zero hn]
      rfl
    rw [hstep, hloop]
    cases s <;> rfl

theorem scan_addsign {r : Radix} {ds : List Char} {n : ℕ} (h : Digits r ds n) (hne : ds ≠ [])
    (neg : Bool) : scan r (addsign neg ds) = some (rep (signed neg n), []) := by
  have hread := read_of_numeral (h.numeral hne neg)
  obtain ⟨c, t, hs, hc⟩ : ∃ c t, addsign neg ds = c :: t ∧ white c = false := by
    cases neg with
    | true => exact ⟨'~', ds, rfl, by decide⟩
    | false =>
      obtain ⟨c, ds, rfl⟩ := List.exists_cons_of_ne_nil hne
      exact ⟨c, ds, rfl, (digit_cases (h.1 c (List.mem_cons_self ..))).1⟩
  have hskip : ¬skipped r c := fun hskip => by
    rw [skipped_white hskip] at hc
    cases hc
  rw [hs] at hread ⊢
  rw [read, List.dropWhile_cons_of_neg (by simp [hc])] at hread
  rw [scan_eq, List.dropWhile_cons_of_neg hskip, hread]
  rfl

theorem scanString_fmt (r : Radix) {i : ℤ} {fuel : ℕ} (hfuel : i.natAbs + 3 ≤ fuel) :
    ∃ s, fmt fuel r (rep i) = .ok s ∧ scanString (scan r) s = some (rep i) := by
  obtain ⟨neg, ds, n, hfmt, hds, hne, rfl⟩ := fmt_of_digits (r := r) hfuel
  refine ⟨_, hfmt, ?_⟩
  rw [scanString, scan_addsign hds hne neg]

/-- **Scanning undoes formatting**, and it reads the longest numeral exactly when no white space
that is left in front of a numeral is missing from the table. -/
theorem scan_correct_iff (r : Radix) :
    (∀ i : ℤ, ∃ N, ∀ fuel ≥ N, ∃ s, fmt fuel r (rep i) = .ok s ∧
      scanString (scan r) s = some (rep i)) ∧
    ∀ s, ScansLongest r s (scan r s) ↔ ¬Misses r s :=
  ⟨fun i => ⟨i.natAbs + 3, fun _ hfuel => scanString_fmt r hfuel⟩, scan_longest_iff r⟩

/-- A carriage return in front of a hexadecimal number. -/
theorem not_scan_correct : ¬∀ r s, ScansLongest r s (scan r s) := by
  intro h
  have hmiss := (scan_longest_iff .hex ['\r', '1', 'F']).1 (h .hex _)
  refine hmiss ⟨⟨'\r', ['1', 'F'], ?_, by decide⟩, ?_⟩
  · exact List.dropWhile_cons_of_neg (by decide +kernel)
  · have hds : ∀ c ∈ ['1', 'F'], isDigit .hex c :=
      List.forall_mem_cons.2 ⟨by decide, List.forall_mem_singleton.2 (by decide)⟩
    have hspaces : ∀ c ∈ ['\r'], white c := List.forall_mem_singleton.2 (by decide)
    exact ⟨['\r', '1', 'F'], [], _, rfl,
      .mk hspaces .none (.none .hex) (List.cons_ne_nil _ _) hds⟩

end SmlNj.IntInf
