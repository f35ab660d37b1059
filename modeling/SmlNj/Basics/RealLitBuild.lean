import SmlNj.Basics.RealLitOrder

/-!
# Making real literals

The four functions that make a literal: from the pieces of a number, from a
sequence of digits, from an integer, and from the text of a constant.  Substrings
are lists of characters.

## Main definitions

* `RealLit.real`, `RealLit.fromDigits`, `RealLit.fromInt`, `RealLit.fromString`.
* `RealLit.Denotes` — a literal has a sign and an absolute value.

## Main results

* `RealLit.fromDigits_spec`, `RealLit.fromInt_spec` — these literals are normal.
* `RealLit.real_spec` — this one denotes the number it is given in pieces, and is
  normal unless it keeps zeros at the end of its digits.
-/

namespace SmlNj.RealLit

def mkDigit (c : Char) : ℤ := (c.toNat : ℤ) - ('0'.toNat : ℤ)

/-- Strip leading zero digits, and go on with `finish`. -/
def normalizeWith (finish : Bool → List ℤ → ℤ → RealLit) (isNeg : Bool) :
    List ℤ → ℤ → RealLit
  | [], _ => zero isNeg
  | d :: r, exp =>
      if d = 0 then normalizeWith finish isNeg r (exp - 1) else finish isNeg (d :: r) exp

/-- The `normalize` of `real`. -/
def real.normalize : Bool → List ℤ → ℤ → RealLit := normalizeWith flt

/-- The `isZero` of `real`. -/
def real.isZero (c : Char) : Bool := c == '0'

/-- Make a literal from the pieces of a number. -/
def real (isNeg : Bool) (whole frac : List Char) (exp : ℤ) : RealLit :=
  -- whole digits with leading zeros removed
  let whole := whole.dropWhile real.isZero
  -- fractional digits with trailing zeros removed
  let frac := frac.rdropWhile real.isZero
  match whole.map mkDigit ++ frac.map mkDigit with
  | [] => zero isNeg
  | digits => real.normalize isNeg digits (exp + whole.length)

/-- The list without its trailing zeros. -/
@[grind =] def stripZeros.strip : List ℤ → List ℤ
  | [] => []
  | d :: ds =>
      if d = 0 then
        match stripZeros.strip ds with
        | [] => []
        | ds => 0 :: ds
      else d :: stripZeros.strip ds

def stripZeros (isNeg : Bool) (digits : List ℤ) (exp : ℤ) : RealLit :=
  match stripZeros.strip digits with
  | [] => zero isNeg
  | digits => flt isNeg digits exp

/-- Make a literal from a sign, a decimal fraction and an exponent. -/
def fromDigits (isNeg : Bool) (digits : List ℤ) (exp : ℤ) : RealLit :=
  normalizeWith stripZeros isNeg digits exp

/-- The digits of `n`, in front of `ds`. -/
def fromInt.toDigits (n : ℤ) (ds : List ℤ) : List ℤ :=
  if n < 10 then n :: ds
  else fromInt.toDigits (n.tdiv 10) (n.tmod 10 :: ds)
termination_by n.toNat
decreasing_by
  rw [Int.tdiv_eq_ediv_of_nonneg (by omega)]
  omega

/-- Make a literal from an integer. -/
def fromInt (n : ℤ) : RealLit :=
  if n = 0 then zero false
  else
    let (isNeg, n) := if n < 0 then (true, -n) else (false, n)
    let digits := fromInt.toDigits n []
    stripZeros isNeg digits digits.length

/-- The `isZero` of `fromString`: `0`, or the separator of Successor ML. -/
def fromString.isZero (c : Char) : Bool := c == '0' || c == '_'

/-- The digits of the whole part in reverse, how many there are, and the rest. -/
def fromString.getWhole : List Char → ℤ → List ℤ → List ℤ × ℤ × List Char
  | [], len, digits => (digits, len, [])
  | c :: ss, len, digits =>
      if c = '_' then fromString.getWhole ss len digits
      else if c.isDigit then fromString.getWhole ss (len + 1) (mkDigit c :: digits)
      else (digits, len, c :: ss)

/-- The fractional digits. -/
def fromString.getFrac : List Char → List ℤ → List ℤ
  | [], digits => digits.reverse
  | c :: ss, digits =>
      if c = '_' then fromString.getFrac ss digits
      else fromString.getFrac ss (mkDigit c :: digits)

/-- The exponent without its sign. -/
def fromString.getExp : List Char → ℤ → ℤ
  | [], exp => exp
  | c :: ss, exp =>
      if c = '_' then fromString.getExp ss exp
      else fromString.getExp ss (10 * exp + mkDigit c)

def fromString.sign : List Char → Bool × List Char
  | '~' :: r => (true, r)
  | num => (false, num)

/-- The fractional digits with trailing zeros stripped, and the rest. -/
def fromString.fraction : List Char → List ℤ × List Char
  | '.' :: ss =>
      let notExp := fun c => !(c == 'e' || c == 'E')
      let frac := ss.takeWhile notExp
      let rest := ss.dropWhile notExp
      (fromString.getFrac (frac.rdropWhile fromString.isZero) [], rest)
  | rest => ([], rest)

/-- The exponent, of which `rest` begins with `e` or `E`. -/
def fromString.exponent (rest : List Char) : ℤ :=
  match rest.drop 1 with
  | '~' :: ss => -(fromString.getExp ss 0)
  | [] => 0
  | rest => fromString.getExp rest 0

/-- Make a literal from the text of a real constant. -/
def fromString (s : List Char) : RealLit :=
  let (isNeg, rest) := fromString.sign s
  let (whole, wholeLen, rest) := fromString.getWhole (rest.dropWhile fromString.isZero) 0 []
  let (frac, rest) := fromString.fraction rest
  let digits := whole.reverseAux frac
  let exp := if rest.isEmpty || digits.isEmpty then 0 else fromString.exponent rest
  flt isNeg digits (exp + wholeLen)

/-- The literal has the sign `n` and the absolute value `x`. -/
structure Denotes (n : Bool) (x : ℚ) (a : RealLit) : Prop where
  /-- The sign, which `~0.0` has too. -/
  sign : isNeg a = n
  number : value a = some (signed n x)

theorem denotes_zero (n : Bool) : Denotes n 0 (zero n) :=
  ⟨rfl, by rw [value_zero, signed_zero]⟩

theorem denotes_flt (n : Bool) (ds : List ℤ) (e : ℤ) :
    Denotes n (magnitude ds e) (flt n ds e) := ⟨rfl, rfl⟩

theorem magnitude_zero_cons (ds : List ℤ) (e : ℤ) :
    magnitude (0 :: ds) e = magnitude ds (e - 1) := by
  unfold magnitude
  rw [Radix.fraction_cons, zpow_sub_one₀ (by norm_num)]
  push_cast
  ring

/-- The rule for `normalize`: the number stays the same while zeros are stripped,
and `finish` starts with a digit that is not zero. -/
theorem normalizeWith_rule {finish : Bool → List ℤ → ℤ → RealLit} {n : Bool}
    {D : List ℤ → Prop} {P : ℚ → RealLit → Prop} (tail : ∀ d ds, D (d :: ds) → D ds)
    (nil : P 0 (zero n))
    (cons : ∀ d ds e, D (d :: ds) → d ≠ 0 → P (magnitude (d :: ds) e) (finish n (d :: ds) e)) :
    ∀ ds e, D ds → P (magnitude ds e) (normalizeWith finish n ds e) := by
  intro ds
  induction ds with
  | nil =>
    intro e _
    rw [show magnitude [] e = 0 by simp [magnitude]]
    exact nil
  | cons d ds ih =>
    intro e hD
    unfold normalizeWith
    by_cases hd : d = 0
    · rw [if_pos hd, hd, magnitude_zero_cons]
      exact ih (e - 1) (tail d ds hD)
    · rw [if_neg hd]
      exact cons d ds e hD hd

/-! ### Digits and integers -/

theorem strip_concat_zero (ds : List ℤ) :
    stripZeros.strip (ds ++ [0]) = stripZeros.strip ds := by
  induction ds with
  | nil => rfl
  | cons d ds ih => rw [List.cons_append, stripZeros.strip, ih, stripZeros.strip]

theorem strip_concat {d : ℤ} (hd : d ≠ 0) (ds : List ℤ) :
    stripZeros.strip (ds ++ [d]) = ds ++ [d] := by
  induction ds with
  | nil => simp [stripZeros.strip, hd]
  | cons x ds ih =>
    rw [List.cons_append, stripZeros.strip, ih]
    by_cases hx : x = 0
    · rw [if_pos hx, hx]
      cases h : ds ++ [d] with
      | nil => simp at h
      | cons y ys => rfl
    · rw [if_neg hx]

theorem strip_eq (ds : List ℤ) : stripZeros.strip ds = ds.rdropWhile (· == 0) := by
  induction ds using List.reverseRecOn with
  | nil => rfl
  | append_singleton ds d ih =>
    by_cases hd : d = 0
    · subst hd
      rw [strip_concat_zero, ih, List.rdropWhile_concat_pos _ _ _ (by simp)]
    · rw [strip_concat hd, List.rdropWhile_concat_neg _ _ _ (by simpa using hd)]

theorem getLast?_rdropWhile (ds : List ℤ) : (ds.rdropWhile (· == 0)).getLast? ≠ some 0 := by
  intro h
  have hne : ds.rdropWhile (· == 0) ≠ [] := by
    rintro h0
    simp [h0] at h
  have hl := List.rdropWhile_last_not (· == 0) ds hne
  rw [List.getLast?_eq_some_getLast hne, Option.some.injEq] at h
  simp [h] at hl

theorem head?_dropWhile (ds : List ℤ) : (ds.dropWhile (· == 0)).head? ≠ some 0 := by
  intro h
  have := List.head?_dropWhile_not (· == 0) ds
  rw [h] at this
  simp at this

theorem stripZeros_spec (n : Bool) {d : ℤ} {ds : List ℤ} (e : ℤ)
    (hD : Radix.Digits 10 (d :: ds)) (hd : d ≠ 0) :
    Normal (stripZeros n (d :: ds) e) ∧
      Denotes n (magnitude (d :: ds) e) (stripZeros n (d :: ds) e) := by
  have hpre : (d :: ds).rdropWhile (· == 0) <+: d :: ds := List.rdropWhile_prefix _ _
  have hm : magnitude ((d :: ds).rdropWhile (· == 0)) e = magnitude (d :: ds) e := by
    unfold magnitude
    rw [Radix.fraction_rdropWhile]
  have hlast := getLast?_rdropWhile (d :: ds)
  unfold stripZeros
  rw [strip_eq]
  cases hs : (d :: ds).rdropWhile (· == 0) with
  | nil =>
    rw [hs] at hm
    have h0 : magnitude (d :: ds) e = 0 := by rw [← hm]; simp [magnitude]
    rw [h0]
    exact ⟨normal_zero n, denotes_zero n⟩
  | cons x xs =>
    rw [hs] at hm hpre hlast
    have hx : x = d := (List.cons_prefix_cons.mp hpre).1
    rw [← hm]
    refine ⟨⟨hD.sublist hpre.sublist, ?_, hlast, by simp⟩, denotes_flt n (x :: xs) e⟩
    simpa [hx] using hd

theorem fromDigits_spec (n : Bool) {ds : List ℤ} (e : ℤ) (hD : Radix.Digits 10 ds) :
    Normal (fromDigits n ds e) ∧ Denotes n (magnitude ds e) (fromDigits n ds e) := by
  unfold fromDigits
  refine normalizeWith_rule (P := fun x a => Normal a ∧ Denotes n x a) ?_ ?_ ?_ ds e hD
  · intro d ds h
    exact (Radix.digits_cons.mp h).2
  · exact ⟨normal_zero n, denotes_zero n⟩
  · intro d ds e h hd
    exact stripZeros_spec n e h hd

theorem toDigits_spec (k : ℕ) : ∀ n : ℤ, n.toNat = k → 0 ≤ n → ∀ ds : List ℤ,
    ∃ xs, fromInt.toDigits n ds = xs ++ ds ∧ Radix.Digits 10 xs ∧
      Radix.whole 10 xs = n ∧ xs ≠ [] ∧ (n ≠ 0 → xs.head? ≠ some 0) := by
  induction k using Nat.strong_induction_on with
  | _ k ih =>
    intro n hk hn ds
    unfold fromInt.toDigits
    by_cases h10 : n < 10
    · rw [if_pos h10]
      refine ⟨[n], rfl, Radix.digits_cons.mpr ⟨⟨hn, h10⟩, Radix.digits_nil 10⟩, ?_, ?_, ?_⟩
      · simp [Radix.whole]
      · simp
      · simp
    · rw [if_neg h10, Int.tdiv_eq_ediv_of_nonneg hn, Int.tmod_eq_emod_of_nonneg hn]
      obtain ⟨xs, hxs, hD, hw, hne, hh⟩ :=
        ih (n / 10).toNat (by omega) (n / 10) rfl (by omega) (n % 10 :: ds)
      refine ⟨xs ++ [n % 10], ?_, ?_, ?_, ?_, ?_⟩
      · rw [hxs, List.append_assoc]
        rfl
      · refine Radix.digits_append.mpr ⟨hD, Radix.digits_cons.mpr ⟨?_, Radix.digits_nil 10⟩⟩
        constructor <;> omega
      · rw [Radix.whole_concat, hw]
        omega
      · simp
      · intro _
        rw [List.head?_append_of_ne_nil _ hne]
        exact hh (by omega)

theorem magnitude_length (ds : List ℤ) : magnitude ds ds.length = Radix.whole 10 ds := by
  have := Radix.fraction_mul_pow ℚ (b := 10) (by norm_num) ds
  unfold magnitude
  rw [zpow_natCast]
  exact_mod_cast this

theorem fromInt_spec (n : ℤ) :
    Normal (fromInt n) ∧ Denotes (decide (n < 0)) |(n : ℚ)| (fromInt n) := by
  have positive : ∀ (s : Bool) (m : ℤ), 0 < m →
      Normal (stripZeros s (fromInt.toDigits m []) (fromInt.toDigits m []).length) ∧
      Denotes s m (stripZeros s (fromInt.toDigits m []) (fromInt.toDigits m []).length) := by
    intro s m hm
    obtain ⟨xs, hxs, hD, hw, hne, hh⟩ := toDigits_spec m.toNat m rfl hm.le []
    obtain ⟨d, ds, rfl⟩ := List.exists_cons_of_ne_nil hne
    have hd : d ≠ 0 := by simpa using hh hm.ne'
    rw [hxs, List.append_nil, ← hw, ← magnitude_length]
    exact stripZeros_spec s _ hD hd
  unfold fromInt
  rcases lt_trichotomy n 0 with hlt | rfl | hgt
  · have habs : |(n : ℚ)| = ((-n : ℤ) : ℚ) := by
      rw [abs_of_neg (by exact_mod_cast hlt)]
      push_cast
      rfl
    rw [if_neg hlt.ne, if_pos hlt, decide_eq_true hlt, habs]
    exact positive true (-n) (by omega)
  · rw [if_pos rfl, Int.cast_zero, abs_zero]
    exact ⟨normal_zero false, denotes_zero false⟩
  · have habs : |(n : ℚ)| = n := abs_of_pos (by exact_mod_cast hgt)
    rw [if_neg hgt.ne', if_neg (by omega), decide_eq_false (by omega), habs]
    exact positive false n hgt

/-! ### Whole parts and fractions -/

/-- Whole part and fraction after the zeros outside have been stripped. -/
def trimmed (w f : List ℤ) : List ℤ := w.dropWhile (· == 0) ++ f.rdropWhile (· == 0)

/-- The zeros that stay at the end: those of a whole part without a fraction. -/
def KeepsTrailing (w f : List ℤ) : Prop :=
  (∀ d ∈ f, d = 0) ∧ (∃ d ∈ w, d ≠ 0) ∧ w.getLast? = some 0

/-- The zeros that stay in front: those of a fraction without a whole part. -/
def KeepsLeading (w f : List ℤ) : Prop :=
  (∀ d ∈ w, d = 0) ∧ (∃ d ∈ f, d ≠ 0) ∧ f.head? = some 0

theorem trimmed_digits {w f : List ℤ} (hw : Radix.Digits 10 w) (hf : Radix.Digits 10 f) :
    Radix.Digits 10 (trimmed w f) :=
  Radix.digits_append.mpr ⟨hw.sublist (List.dropWhile_suffix _).sublist,
    hf.sublist (List.rdropWhile_prefix _ _).sublist⟩

theorem trimmed_magnitude (w f : List ℤ) (e : ℤ) :
    magnitude (trimmed w f) (e + (w.dropWhile (· == 0)).length) =
      (Radix.whole 10 w + Radix.fraction ℚ 10 f) * 10 ^ e := by
  have hpow : Radix.fraction ℚ 10 (w.dropWhile (· == 0)) *
      ((10 : ℤ) : ℚ) ^ (w.dropWhile (· == 0)).length = Radix.whole 10 w := by
    rw [Radix.fraction_mul_pow ℚ (by norm_num), Radix.whole_dropWhile]
  rw [magnitude, trimmed, Radix.fraction_append, Radix.fraction_rdropWhile, ← hpow,
    zpow_add₀ (by norm_num), zpow_natCast]
  push_cast
  field_simp

theorem trimmed_last {w f : List ℤ} (h : ¬ KeepsTrailing w f) :
    (trimmed w f).getLast? ≠ some 0 := by
  intro hl
  unfold trimmed at hl
  by_cases hf : f.rdropWhile (· == 0) = []
  · rw [hf, List.append_nil] at hl
    obtain ⟨t, ht⟩ := List.dropWhile_suffix (l := w) (· == 0)
    have hne : w.dropWhile (· == 0) ≠ [] := by
      intro h0
      simp [h0] at hl
    refine h ⟨?_, ?_, ?_⟩
    · simpa using List.rdropWhile_eq_nil_iff.mp hf
    · by_contra hall
      push Not at hall
      exact hne (List.dropWhile_eq_nil_iff.mpr (by simpa using hall))
    · rw [← ht, List.getLast?_append_of_ne_nil _ hne]
      exact hl
  · rw [List.getLast?_append_of_ne_nil _ hf] at hl
    exact getLast?_rdropWhile f hl

theorem trimmed_head {w f : List ℤ} (h : ¬ KeepsLeading w f) :
    (trimmed w f).head? ≠ some 0 := by
  intro hl
  unfold trimmed at hl
  by_cases hw : w.dropWhile (· == 0) = []
  · rw [hw, List.nil_append] at hl
    obtain ⟨t, ht⟩ := List.rdropWhile_prefix (· == 0) f
    have hne : f.rdropWhile (· == 0) ≠ [] := by
      intro h0
      simp [h0] at hl
    refine h ⟨?_, ?_, ?_⟩
    · simpa using List.dropWhile_eq_nil_iff.mp hw
    · by_contra hall
      push Not at hall
      exact hne (List.rdropWhile_eq_nil_iff.mpr (by simpa using hall))
    · rw [← ht, List.head?_append_of_ne_nil _ hne]
      exact hl
  · rw [List.head?_append_of_ne_nil _ hw] at hl
    exact head?_dropWhile w hl

theorem mkDigit_digit {c : Char} (h : c.isDigit = true) : 0 ≤ mkDigit c ∧ mkDigit c < 10 := by
  simp only [Char.isDigit, Bool.and_eq_true, decide_eq_true_eq, UInt32.le_iff_toNat_le] at h
  have h1 : (48 : ℕ) ≤ c.toNat := h.1
  have h2 : c.toNat ≤ 57 := h.2
  have h3 : '0'.toNat = 48 := rfl
  unfold mkDigit
  omega

theorem mkDigit_eq_zero (c : Char) : mkDigit c = 0 ↔ c = '0' := by
  constructor
  · intro h
    have : c.toNat = '0'.toNat := by unfold mkDigit at h; omega
    exact Char.ext (UInt32.toNat_inj.mp this)
  · rintro rfl
    rfl

theorem mkDigit_beq_zero (c : Char) : (mkDigit c == 0) = (c == '0') := by
  rw [Bool.eq_iff_iff, beq_iff_eq, beq_iff_eq, mkDigit_eq_zero]

theorem rdropWhile_map {α β : Type*} (f : α → β) (p : β → Bool) (l : List α) :
    (l.map f).rdropWhile p = (l.rdropWhile (p ∘ f)).map f := by
  rw [List.rdropWhile, List.rdropWhile, ← List.map_reverse, List.dropWhile_map,
    List.map_reverse]

/-- `real` denotes the number it is given in pieces, and is normal if it keeps no
trailing zeros. -/
theorem real_spec (n : Bool) {whole frac : List Char} (e : ℤ)
    (hw : ∀ c ∈ whole, c.isDigit = true) (hf : ∀ c ∈ frac, c.isDigit = true) :
    Denotes n ((Radix.whole 10 (whole.map mkDigit) +
        Radix.fraction ℚ 10 (frac.map mkDigit)) * 10 ^ e) (real n whole frac e) ∧
      (¬ KeepsTrailing (whole.map mkDigit) (frac.map mkDigit) →
        Normal (real n whole frac e)) := by
  have digits : ∀ {cs : List Char}, (∀ c ∈ cs, c.isDigit = true) →
      Radix.Digits 10 (cs.map mkDigit) := by
    intro cs h d hd
    obtain ⟨c, hc, rfl⟩ := List.mem_map.mp hd
    exact mkDigit_digit (h c hc)
  have hp : (fun d : ℤ => d == 0) ∘ mkDigit = real.isZero := funext mkDigit_beq_zero
  have hwd : (whole.dropWhile real.isZero).map mkDigit =
      (whole.map mkDigit).dropWhile (· == 0) := by
    rw [List.dropWhile_map, ← hp]
  have hfd : (frac.rdropWhile real.isZero).map mkDigit =
      (frac.map mkDigit).rdropWhile (· == 0) := by
    rw [rdropWhile_map, ← hp]
  have hlen : (whole.dropWhile real.isZero).length =
      ((whole.map mkDigit).dropWhile (· == 0)).length := by
    rw [← hwd, List.length_map]
  have hD := trimmed_digits (digits hw) (digits hf)
  have hfinish : real n whole frac e =
      normalizeWith flt n (trimmed (whole.map mkDigit) (frac.map mkDigit))
        (e + ((whole.map mkDigit).dropWhile (· == 0)).length) := by
    unfold real
    simp only [hwd, hfd, hlen]
    change (match trimmed (whole.map mkDigit) (frac.map mkDigit) with
      | [] => zero n
      | digits => real.normalize n digits _) = _
    cases trimmed (whole.map mkDigit) (frac.map mkDigit) <;> rfl
  rw [hfinish, ← trimmed_magnitude]
  constructor
  · refine normalizeWith_rule (P := Denotes n) ?_ (denotes_zero n) ?_ _ _ hD
    · intro d ds h
      exact (Radix.digits_cons.mp h).2
    · intro d ds e _ _
      exact denotes_flt n (d :: ds) e
  · intro hk
    refine normalizeWith_rule (P := fun _ a => Normal a)
      (D := fun ds => Radix.Digits 10 ds ∧ ds.getLast? ≠ some 0) ?_ (normal_zero n) ?_ _ _
      ⟨hD, trimmed_last hk⟩
    · intro d ds h
      refine ⟨(Radix.digits_cons.mp h.1).2, ?_⟩
      cases ds with
      | nil => simp
      | cons x xs => simpa using h.2
    · intro d ds e h hd
      exact ⟨h.1, by simpa using hd, h.2, by simp⟩

end SmlNj.RealLit
