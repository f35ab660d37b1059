import SmlNj.Basics.RealLitBuild

/-!
# Real literals from text

A real constant as a program can contain it, the number it writes, and the literal
that `RealLit.fromString` makes of its text.

## Main definitions

* `Numeral` — a real constant: sign, whole part, fraction, exponent.
* `Numeral.text`, `Numeral.size` — its characters, and its absolute value.

## Main results

* `RealLit.fromString_eq` — the literal, from the digits of the parts.
* `RealLit.fromString_spec` — it denotes the number that is written.
* `RealLit.literals_agree` — the constructors and the comparisons together.
-/

namespace SmlNj

abbrev DigitText := {cs : List Char // ∀ c ∈ cs, c.isDigit = true ∨ c = '_'}

/-- An exponent: the letter, the sign and the digits. -/
structure Exponent where
  /-- Is it written with `E`, not `e`? -/
  upper : Bool
  /-- Is there a `~`? -/
  isNeg : Bool
  digits : DigitText

/-- A real constant. -/
structure Numeral where
  /-- Is there a `~`? -/
  isNeg : Bool
  whole : DigitText
  /-- The digits behind the point, if there is one. -/
  frac : Option DigitText
  exp : Option Exponent

def textDigits (cs : List Char) : List ℤ := (cs.filter (· != '_')).map RealLit.mkDigit

def Exponent.text (x : Exponent) : List Char :=
  (if x.upper then 'E' else 'e') :: ((if x.isNeg then ['~'] else []) ++ x.digits.1)

def Exponent.number (x : Exponent) : ℤ :=
  if x.isNeg then -Radix.whole 10 (textDigits x.digits.1)
  else Radix.whole 10 (textDigits x.digits.1)

namespace Numeral

def fracText (n : Numeral) : List Char :=
  match n.frac with
  | some fs => '.' :: fs.1
  | none => []

def expText (n : Numeral) : List Char :=
  match n.exp with
  | some x => x.text
  | none => []

def text (n : Numeral) : List Char :=
  (if n.isNeg then ['~'] else []) ++ (n.whole.1 ++ (n.fracText ++ n.expText))

def wholeDigits (n : Numeral) : List ℤ := textDigits n.whole.1

def fracDigits (n : Numeral) : List ℤ :=
  match n.frac with
  | some fs => textDigits fs.1
  | none => []

def expNumber (n : Numeral) : ℤ :=
  match n.exp with
  | some x => x.number
  | none => 0

def size (n : Numeral) : ℚ :=
  (Radix.whole 10 n.wholeDigits + Radix.fraction ℚ 10 n.fracDigits) * 10 ^ n.expNumber

end Numeral

namespace RealLit

theorem textDigits_cons (c : Char) (cs : List Char) :
    textDigits (c :: cs) = if c = '_' then textDigits cs else mkDigit c :: textDigits cs := by
  unfold textDigits
  by_cases h : c = '_'
  · simp [h]
  · simp [h]

theorem textDigits_reverse (cs : List Char) : textDigits cs.reverse = (textDigits cs).reverse := by
  unfold textDigits
  rw [List.filter_reverse, List.map_reverse]

theorem textDigits_digits (cs : DigitText) : Radix.Digits 10 (textDigits cs.1) := by
  intro d hd
  obtain ⟨c, hc, rfl⟩ := List.mem_map.mp hd
  obtain ⟨hmem, hne⟩ := List.mem_filter.mp hc
  have hsep : c ≠ '_' := by simpa using hne
  exact mkDigit_digit ((cs.2 c hmem).resolve_right hsep)

theorem textDigits_dropWhile (cs : List Char) :
    textDigits (cs.dropWhile fromString.isZero) = (textDigits cs).dropWhile (· == 0) := by
  induction cs with
  | nil => rfl
  | cons c cs ih =>
    rw [List.dropWhile_cons, textDigits_cons]
    unfold fromString.isZero at ih ⊢
    by_cases hsep : c = '_'
    · simpa [hsep] using ih
    · by_cases hz : c = '0'
      · have : mkDigit '0' = 0 := rfl
        simpa [hz, this] using ih
      · have : mkDigit c ≠ 0 := fun h => hz ((mkDigit_eq_zero c).mp h)
        simp [hsep, hz, this, textDigits_cons]

theorem textDigits_rdropWhile (cs : List Char) :
    textDigits (cs.rdropWhile fromString.isZero) = (textDigits cs).rdropWhile (· == 0) := by
  rw [List.rdropWhile, List.rdropWhile, textDigits_reverse, textDigits_dropWhile, textDigits_reverse]

theorem digit_ne {c d : Char} (h : c.isDigit = true ∨ c = '_')
    (hd : d.isDigit = false) (hs : d ≠ '_') : c ≠ d := by
  rintro rfl
  rcases h with h | h
  · simp [h] at hd
  · exact hs h

/-! ### The scanners -/

theorem getWhole_eq {cs rest : List Char} (hcs : ∀ c ∈ cs, c.isDigit = true ∨ c = '_')
    (hrest : ∀ c ∈ rest.head?, ¬ (c.isDigit = true ∨ c = '_')) : ∀ len ds,
    fromString.getWhole (cs ++ rest) len ds =
      ((textDigits cs).reverse ++ ds, len + (textDigits cs).length, rest) := by
  induction cs with
  | nil =>
    intro len ds
    cases rest with
    | nil => simp [fromString.getWhole, textDigits]
    | cons c rest =>
      have hc := hrest c rfl
      simp only [not_or] at hc
      simp [fromString.getWhole, hc.1, hc.2, textDigits]
  | cons c cs ih =>
    intro len ds
    have ih' := ih (fun x hx => hcs x (List.mem_cons_of_mem c hx))
    rw [List.cons_append, fromString.getWhole, textDigits_cons]
    by_cases hsep : c = '_'
    · rw [if_pos hsep, if_pos hsep, ih']
    · have hdig := (hcs c List.mem_cons_self).resolve_right hsep
      rw [if_neg hsep, if_neg hsep, if_pos hdig, ih', List.reverse_cons, List.append_assoc]
      simp
      omega

theorem getFrac_eq (cs : List Char) : ∀ ds,
    fromString.getFrac cs ds = ds.reverse ++ textDigits cs := by
  induction cs with
  | nil => intro ds; simp [fromString.getFrac, textDigits]
  | cons c cs ih =>
    intro ds
    rw [fromString.getFrac, textDigits_cons]
    by_cases hsep : c = '_'
    · rw [if_pos hsep, if_pos hsep, ih]
    · rw [if_neg hsep, if_neg hsep, ih]
      simp

theorem getExp_eq (cs : List Char) : ∀ k,
    fromString.getExp cs k = (textDigits cs).foldl (fun n d => 10 * n + d) k := by
  induction cs with
  | nil => intro k; rfl
  | cons c cs ih =>
    intro k
    rw [fromString.getExp, textDigits_cons]
    by_cases hsep : c = '_'
    · rw [if_pos hsep, if_pos hsep, ih]
    · rw [if_neg hsep, if_neg hsep, ih]
      rfl

theorem exponent_eq (x : Exponent) : fromString.exponent x.text = x.number := by
  unfold fromString.exponent Exponent.text Exponent.number Radix.whole
  rw [List.drop_succ_cons, List.drop_zero]
  by_cases hn : x.isNeg = true
  · simp only [hn, ↓reduceIte, List.cons_append, List.nil_append]
    rw [getExp_eq]
  · simp only [hn, Bool.false_eq_true, ↓reduceIte, List.nil_append]
    split
    · next ss h =>
      have := digit_ne (x.digits.2 '~' (by rw [h]; exact List.mem_cons_self)) (d := '~')
        (by decide) (by decide)
      exact absurd rfl this
    · next h => rw [h]; rfl
    · rw [getExp_eq]

theorem expText_head (n : Numeral) : n.expText = [] ∨
    ∃ c cs, n.expText = c :: cs ∧ (c = 'e' ∨ c = 'E') := by
  unfold Numeral.expText
  cases n.exp with
  | none => exact .inl rfl
  | some x =>
    refine .inr ⟨_, _, rfl, ?_⟩
    cases x.upper
    · exact .inl rfl
    · exact .inr rfl

theorem rest_head (n : Numeral) :
    ∀ c ∈ (n.fracText ++ n.expText).head?, ¬ (c.isDigit = true ∨ c = '_') := by
  intro c hc
  unfold Numeral.fracText at hc
  cases hf : n.frac with
  | some fs =>
    rw [hf] at hc
    cases hc
    decide
  | none =>
    rw [hf] at hc
    rcases expText_head n with h | ⟨d, ds, h, hd⟩
    · simp [h] at hc
    · have : d = c := by simpa [h] using hc
      subst this
      rcases hd with rfl | rfl <;> decide

theorem fraction_eq (n : Numeral) : fromString.fraction (n.fracText ++ n.expText) =
    (n.fracDigits.rdropWhile (· == 0), n.expText) := by
  have hexp := expText_head n
  unfold Numeral.fracText Numeral.fracDigits
  cases n.frac with
  | none =>
    rcases hexp with h | ⟨c, cs, h, rfl | rfl⟩ <;> rw [h] <;> rfl
  | some fs =>
    have hfs : ∀ c ∈ fs.1, (!(c == 'e' || c == 'E')) = true := by
      intro c hc
      have he := digit_ne (fs.2 c hc) (d := 'e') (by decide) (by decide)
      have hE := digit_ne (fs.2 c hc) (d := 'E') (by decide) (by decide)
      simp [he, hE]
    have htake : n.expText.takeWhile (fun c => !(c == 'e' || c == 'E')) = [] := by
      rcases hexp with h | ⟨c, cs, h, rfl | rfl⟩ <;> rw [h] <;> rfl
    have hdrop : n.expText.dropWhile (fun c => !(c == 'e' || c == 'E')) = n.expText := by
      rcases hexp with h | ⟨c, cs, h, rfl | rfl⟩ <;> rw [h] <;> rfl
    unfold fromString.fraction
    simp only [List.cons_append]
    rw [List.takeWhile_append_of_pos hfs, List.dropWhile_append_of_pos hfs, htake, hdrop,
      List.append_nil, getFrac_eq, textDigits_rdropWhile]
    rfl

theorem sign_eq (n : Numeral) : fromString.sign n.text =
    (n.isNeg, n.whole.1 ++ (n.fracText ++ n.expText)) := by
  unfold Numeral.text
  cases hn : n.isNeg with
  | true => rfl
  | false =>
    have hhead : ∀ r, n.whole.1 ++ (n.fracText ++ n.expText) ≠ '~' :: r := by
      intro r h
      cases hw : n.whole.1 with
      | nil =>
        rw [hw, List.nil_append] at h
        unfold Numeral.fracText at h
        cases hf : n.frac with
        | some fs => simp [hf] at h
        | none =>
          rcases expText_head n with he | ⟨c, cs, he, rfl | rfl⟩ <;> simp [hf, he] at h
      | cons c cs =>
        have hc := digit_ne (n.whole.2 c (by simp [hw])) (d := '~') (by decide) (by decide)
        rw [hw, List.cons_append, List.cons.injEq] at h
        exact hc h.1
    -- Not the first case of `sign`, by `hhead`.
    unfold fromString.sign
    simp [↓reduceIte]

/-! ### The literal of a constant -/

theorem dropWhile_whole (n : Numeral) :
    (n.whole.1 ++ (n.fracText ++ n.expText)).dropWhile fromString.isZero =
      n.whole.1.dropWhile fromString.isZero ++ (n.fracText ++ n.expText) := by
  rw [List.dropWhile_append]
  split
  · next hempty =>
    rw [List.isEmpty_iff.mp hempty, List.nil_append]
    have hhead := rest_head n
    cases hr : n.fracText ++ n.expText with
    | nil => rfl
    | cons c cs =>
      rw [hr] at hhead
      have hc := hhead c rfl
      apply List.dropWhile_cons_of_neg
      intro hz
      unfold fromString.isZero at hz
      simp only [Bool.or_eq_true, beq_iff_eq] at hz
      rcases hz with rfl | rfl
      · exact hc (.inl (by decide))
      · exact hc (.inr rfl)
  · rfl

/-- The literal of a constant, from the digits of its parts. -/
theorem fromString_eq (n : Numeral) :
    fromString n.text = flt n.isNeg (trimmed n.wholeDigits n.fracDigits)
      ((if trimmed n.wholeDigits n.fracDigits = [] then 0 else n.expNumber) +
        (n.wholeDigits.dropWhile (· == 0)).length) := by
  have hwhole : ∀ c ∈ n.whole.1.dropWhile fromString.isZero, c.isDigit = true ∨ c = '_' := by
    intro c hc
    exact n.whole.2 c ((List.dropWhile_suffix _).subset hc)
  have htrim : (((n.wholeDigits.dropWhile (· == 0)).reverse ++ []).reverseAux
      (n.fracDigits.rdropWhile (· == 0))) = trimmed n.wholeDigits n.fracDigits := by
    rw [List.append_nil, List.reverseAux_eq, List.reverse_reverse]
    rfl
  have hexp : (if n.expText.isEmpty || (trimmed n.wholeDigits n.fracDigits).isEmpty then 0
      else fromString.exponent n.expText) =
      if trimmed n.wholeDigits n.fracDigits = [] then 0 else n.expNumber := by
    unfold Numeral.expText Numeral.expNumber
    cases n.exp with
    | none => simp
    | some x =>
      have hne : x.text.isEmpty = false := rfl
      simp [hne, exponent_eq]
  unfold fromString
  rw [sign_eq]
  simp only [dropWhile_whole]
  rw [getWhole_eq hwhole (rest_head n), textDigits_dropWhile]
  simp only [fraction_eq]
  change flt n.isNeg
      ((((n.wholeDigits.dropWhile (· == 0)).reverse ++ []).reverseAux
        (n.fracDigits.rdropWhile (· == 0))))
      ((if n.expText.isEmpty || (((n.wholeDigits.dropWhile (· == 0)).reverse ++ []).reverseAux
        (n.fracDigits.rdropWhile (· == 0))).isEmpty then 0 else fromString.exponent n.expText) +
        (0 + (n.wholeDigits.dropWhile (· == 0)).length)) = _
  rw [htrim, hexp, zero_add]

theorem fracDigits_digits (n : Numeral) : Radix.Digits 10 n.fracDigits := by
  unfold Numeral.fracDigits
  cases n.frac with
  | none => exact Radix.digits_nil 10
  | some fs => exact textDigits_digits fs

/-- The literal of a constant denotes the number that is written, and is normal if it
keeps no zeros at either end. -/
theorem fromString_spec (n : Numeral) :
    Denotes n.isNeg n.size (fromString n.text) ∧
      (¬ KeepsLeading n.wholeDigits n.fracDigits →
        ¬ KeepsTrailing n.wholeDigits n.fracDigits → Normal (fromString n.text)) := by
  have hD := trimmed_digits (textDigits_digits n.whole) (fracDigits_digits n)
  have hsize := trimmed_magnitude n.wholeDigits n.fracDigits n.expNumber
  rw [fromString_eq]
  by_cases hnil : trimmed n.wholeDigits n.fracDigits = []
  · have hlen : n.wholeDigits.dropWhile (· == 0) = [] := (List.append_eq_nil_iff.mp hnil).1
    have h0 : n.size = 0 := by
      unfold Numeral.size
      rw [← hsize, hnil]
      simp [magnitude]
    rw [hnil, if_pos rfl, hlen, h0]
    exact ⟨denotes_zero n.isNeg, fun _ _ => normal_zero n.isNeg⟩
  · rw [if_neg hnil]
    refine ⟨⟨rfl, congrArg some (congrArg (signed n.isNeg) hsize)⟩, fun hl ht => ?_⟩
    exact ⟨hD, trimmed_head hl, trimmed_last ht, fun h => absurd h hnil⟩

/-- **The constructors and the comparisons agree with the numbers.**  Every literal
denotes what it was made from, and is normal where no zeros are kept; on normal
literals `same` is equality of sign and number, `compare` goes by the sign and then
by the absolute value, and `lessThan` is the order of the numbers. -/
theorem literals_agree :
    (∀ (n : Bool) (ds : List ℤ) (e : ℤ), Radix.Digits 10 ds →
      Normal (fromDigits n ds e) ∧ Denotes n (magnitude ds e) (fromDigits n ds e)) ∧
    (∀ n : ℤ, Normal (fromInt n) ∧ Denotes (decide (n < 0)) |(n : ℚ)| (fromInt n)) ∧
    (∀ (n : Bool) (whole frac : List Char) (e : ℤ), (∀ c ∈ whole, c.isDigit = true) →
      (∀ c ∈ frac, c.isDigit = true) →
      Denotes n ((Radix.whole 10 (whole.map mkDigit) +
          Radix.fraction ℚ 10 (frac.map mkDigit)) * 10 ^ e) (real n whole frac e) ∧
        (¬ KeepsTrailing (whole.map mkDigit) (frac.map mkDigit) →
          Normal (real n whole frac e))) ∧
    (∀ n : Numeral, Denotes n.isNeg n.size (fromString n.text) ∧
      (¬ KeepsLeading n.wholeDigits n.fracDigits →
        ¬ KeepsTrailing n.wholeDigits n.fracDigits → Normal (fromString n.text))) ∧
    (∀ a b : RealLit, ∀ x : ℚ, Normal a → value a = some x →
      (negate a = some b → Normal b ∧ value b = some (-x)) ∧
      (abs a = some b → Normal b ∧ value b = some |x|)) ∧
    (∀ a b : RealLit, ∀ x y : ℚ, Normal a → Normal b → value a = some x → value b = some y →
      (same a b = true ↔ isNeg a = isNeg b ∧ x = y) ∧
      (compare a b = .eq ↔ same a b = true) ∧
      (isNeg a = true → isNeg b = false → compare a b = .lt ∧ compare b a = .gt) ∧
      (isNeg a = isNeg b → (x = 0 ↔ y = 0) → compare a b = cmp |x| |y|) ∧
      ((x = 0 → y ≠ 0 → isNeg a = isNeg b → 1 / 10 ≤ |y|) →
        (y = 0 → x ≠ 0 → isNeg a = isNeg b → 1 / 10 ≤ |x|) →
        lessThan a b = some (decide (x < y)))) := by
  refine ⟨fun n ds e h => fromDigits_spec n e h, fromInt_spec,
    fun n whole frac e hw hf => real_spec n e hw hf, fromString_spec, ?_, ?_⟩
  · intro a b x ha hx
    exact ⟨fun h => ⟨negate_normal ha h, negate_value hx h⟩,
      fun h => ⟨abs_normal ha h, abs_value ha hx h⟩⟩
  · intro a b x y ha hb hx hy
    refine ⟨same_iff_value ha hb hx hy, ?_, compare_of_sign hx hy,
      compare_eq_cmp ha hb hx hy, lessThan_eq ha hb hx hy⟩
    rw [compare_eq_iff, same_iff]

/-- `compare` puts `~2` after `~1`, and `same` keeps the two zeros apart. -/
theorem comparisons_not_of_numbers :
    (value (fromInt (-2)) = some (-2) ∧ value (fromInt (-1)) = some (-1) ∧
      compare (fromInt (-2)) (fromInt (-1)) = .gt) ∧
    (∃ z, negate (fromInt 0) = some z ∧ value z = value (fromInt 0) ∧
      same (fromInt 0) z = false) := by
  have h2 : fromInt (-2) = flt true [2] 1 := by
    simp [fromInt, fromInt.toDigits, stripZeros, stripZeros.strip]
  have h1 : fromInt (-1) = flt true [1] 1 := by
    simp [fromInt, fromInt.toDigits, stripZeros, stripZeros.strip]
  have h0 : fromInt 0 = flt false [] 0 := rfl
  rw [h2, h1, h0]
  refine ⟨⟨?_, ?_, by decide⟩, flt true [] 0, rfl, ?_, by decide⟩
  · norm_num [value, magnitude, Radix.fraction]
  · norm_num [value, magnitude, Radix.fraction]
  · simp [value, magnitude]

end RealLit

end SmlNj
