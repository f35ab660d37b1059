import Mathlib.Data.List.TakeWhile
import SmlNj.System.IntInfFmt

/-!
# Numerals

What it means to read the longest numeral at the front of a stream.  A numeral is some white space,
an optional sign, the prefix `0x` when the radix is sixteen, and digits.  The zero of the prefix is
itself a numeral, so that the prefix only counts when a digit follows.

## Main definitions

* `Numeral` — a string is a numeral for an integer.
* `Longest` — the outcome of reading the longest numeral.
* `read` — a function that reads it, from the parts of a numeral.

## Main results

* `longest_read` — `read` does read the longest numeral.
* `longest_unique` — there is only one outcome of reading the longest numeral.
-/

namespace SmlNj.IntInf

/-! ### Numerals -/

def white (c : Char) : Bool := [' ', '\t', '\n', '\x0b', '\x0c', '\r'].contains c

/-- The value of a digit, and sixteen for other characters. -/
def digitValue (c : Char) : ℕ :=
  if 48 ≤ c.toNat ∧ c.toNat ≤ 57 then c.toNat - 48
  else if 65 ≤ c.toNat ∧ c.toNat ≤ 70 then c.toNat - 55
  else if 97 ≤ c.toNat ∧ c.toNat ≤ 102 then c.toNat - 87
  else 16

/-- The number of digits of a radix. -/
def Radix.base : Radix → ℕ
  | .bin => 2
  | .oct => 8
  | .dec => 10
  | .hex => 16

def isDigit (r : Radix) (c : Char) : Bool := digitValue c < r.base

/-- The number with the digits `ds` after those of `n`. -/
def ofChars (r : Radix) (n : ℕ) (ds : List Char) : ℕ :=
  ds.foldl (fun n c => n * r.base + digitValue c) n

/-- An optional sign, and whether it is that of a negative number. -/
inductive Sign : List Char → Bool → Prop
  | none : Sign [] false
  | plus : Sign ['+'] false
  | minus : Sign ['-'] true
  | tilde : Sign ['~'] true

/-- An optional radix prefix. -/
inductive RadixPrefix : Radix → List Char → Prop
  | none (r : Radix) : RadixPrefix r []
  | lower : RadixPrefix .hex ['0', 'x']
  | upper : RadixPrefix .hex ['0', 'X']

/-- **A numeral for an integer.** -/
inductive Numeral (r : Radix) : List Char → ℤ → Prop
  | mk {spaces sign pre ds : List Char} {neg : Bool} (hspaces : ∀ c ∈ spaces, white c)
      (hsign : Sign sign neg) (hpre : RadixPrefix r pre) (hne : ds ≠ [])
      (hds : ∀ c ∈ ds, isDigit r c) :
      Numeral r (spaces ++ (sign ++ (pre ++ ds))) (CoreIntInf.signed neg (ofChars r 0 ds))

/-- **The outcome of reading the longest numeral**: its integer and what follows it. -/
def Longest (r : Radix) (s : List Char) : Option (ℤ × List Char) → Prop
  | some (i, rest) => ∃ w, s = w ++ rest ∧ Numeral r w i ∧
      ∀ w' rest' i', s = w' ++ rest' → Numeral r w' i' → w'.length ≤ w.length
  | none => ∀ w rest i, s = w ++ rest → ¬Numeral r w i

def readSign : List Char → Bool × List Char
  | '+' :: s => (false, s)
  | '-' :: s => (true, s)
  | '~' :: s => (true, s)
  | s => (false, s)

def dropPrefix (r : Radix) : List Char → List Char
  | '0' :: x :: c :: s =>
    if r = .hex ∧ (x = 'x' ∨ x = 'X') ∧ isDigit r c then c :: s else '0' :: x :: c :: s
  | s => s

def readDigits (r : Radix) (s : List Char) : Option (ℕ × List Char) :=
  match s.takeWhile (isDigit r) with
  | [] => none
  | c :: ds => some (ofChars r 0 (c :: ds), s.dropWhile (isDigit r))

def readSigned (r : Radix) (s : List Char) : Option (ℤ × List Char) :=
  (readDigits r (dropPrefix r (readSign s).2)).map fun p =>
    (CoreIntInf.signed (readSign s).1 p.1, p.2)

def read (r : Radix) (s : List Char) : Option (ℤ × List Char) := readSigned r (s.dropWhile white)

variable {rest pre ds t : List Char} {i : ℤ} {c : Char}

section

variable {r : Radix} {s : List Char}

theorem readSign_spec (s : List Char) :
    ∃ sign, Sign sign (readSign s).1 ∧ s = sign ++ (readSign s).2 := by
  unfold readSign
  split
  · exact ⟨_, .plus, rfl⟩
  · exact ⟨_, .minus, rfl⟩
  · exact ⟨_, .tilde, rfl⟩
  · exact ⟨_, .none, rfl⟩

theorem dropPrefix_spec (r : Radix) (s : List Char) :
    ∃ pre, RadixPrefix r pre ∧ s = pre ++ dropPrefix r s := by
  unfold dropPrefix
  split
  · next x c s =>
    split_ifs with h
    · obtain ⟨rfl, hx, -⟩ := h
      rcases hx with rfl | rfl
      · exact ⟨_, .lower, rfl⟩
      · exact ⟨_, .upper, rfl⟩
    · exact ⟨_, .none r, rfl⟩
  · exact ⟨_, .none r, rfl⟩

theorem readDigits_spec {n : ℕ} (h : readDigits r s = some (n, rest)) :
    ∃ ds, ds ≠ [] ∧ (∀ c ∈ ds, isDigit r c) ∧ n = ofChars r 0 ds ∧ s = ds ++ rest := by
  unfold readDigits at h
  split at h
  · cases h
  · next c ds heq =>
    obtain ⟨rfl, rfl⟩ := Prod.mk.inj (Option.some.inj h)
    refine ⟨c :: ds, List.cons_ne_nil _ _, fun d hd => ?_, rfl, ?_⟩
    · rw [← heq] at hd
      exact List.mem_takeWhile_imp hd
    · rw [← heq, List.takeWhile_append_dropWhile]

theorem numeral_of_read (h : read r s = some (i, rest)) : ∃ w, s = w ++ rest ∧ Numeral r w i := by
  obtain ⟨sign, hsign, hs⟩ := readSign_spec (s.dropWhile white)
  obtain ⟨pre, hpre, hs'⟩ := dropPrefix_spec r (readSign (s.dropWhile white)).2
  obtain ⟨⟨n, rest'⟩, hread, heq⟩ := Option.map_eq_some_iff.1 h
  obtain ⟨rfl, rfl⟩ := Prod.mk.inj heq
  obtain ⟨ds, hne, hds, rfl, hs''⟩ := readDigits_spec hread
  have hspaces : ∀ c ∈ s.takeWhile white, white c := fun c hc => List.mem_takeWhile_imp hc
  refine ⟨_, ?_, .mk hspaces hsign hpre hne hds⟩
  rw [List.append_assoc, List.append_assoc, List.append_assoc, ← hs'', ← hs', ← hs,
    List.takeWhile_append_dropWhile]

/-! ### What is read is the longest numeral -/

theorem digit_cases (h : isDigit r c) : white c = false ∧ c ≠ '+' ∧ c ≠ '-' ∧ c ≠ '~' := by
  have hlt : digitValue c < 16 := by
    have hbase : r.base ≤ 16 := by cases r <;> decide
    exact lt_of_lt_of_le (of_decide_eq_true h) hbase
  have hne : ∀ d, digitValue d = 16 → c ≠ d := by
    rintro d hd rfl
    omega
  refine ⟨?_, hne _ (by decide), hne _ (by decide), hne _ (by decide)⟩
  simp only [white, List.contains_eq_mem, List.mem_cons, List.not_mem_nil, or_false,
    decide_eq_false_iff_not, not_or]
  exact ⟨hne _ (by decide), hne _ (by decide), hne _ (by decide), hne _ (by decide),
    hne _ (by decide), hne _ (by decide)⟩

theorem exists_digit (hpre : RadixPrefix r pre) (hne : ds ≠ []) (hds : ∀ c ∈ ds, isDigit r c)
    (rest : List Char) : ∃ c t, pre ++ ds ++ rest = c :: t ∧ isDigit r c := by
  cases hpre with
  | none =>
    obtain ⟨c, ds, rfl⟩ := List.exists_cons_of_ne_nil hne
    exact ⟨c, ds ++ rest, rfl, hds c (List.mem_cons_self ..)⟩
  | lower => exact ⟨'0', _, rfl, by decide⟩
  | upper => exact ⟨'0', _, rfl, by decide⟩

theorem dropWhile_spaces {spaces : List Char} (hspaces : ∀ c ∈ spaces, white c)
    (hc : white c = false) : (spaces ++ c :: t).dropWhile white = c :: t := by
  rw [List.dropWhile_append_of_pos hspaces]
  exact List.dropWhile_cons_of_neg (by simp [hc])

theorem readSign_sign {sign : List Char} {neg : Bool} (hsign : Sign sign neg) (hc : isDigit r c) :
    readSign (sign ++ c :: t) = (neg, c :: t) := by
  obtain ⟨-, hplus, hminus, htilde⟩ := digit_cases hc
  cases hsign with
  | none =>
    change readSign (c :: t) = _
    unfold readSign
    split
    · next heq => exact absurd (List.cons.inj heq).1 hplus
    · next heq => exact absurd (List.cons.inj heq).1 hminus
    · next heq => exact absurd (List.cons.inj heq).1 htilde
    · rfl
  | plus => rfl
  | minus => rfl
  | tilde => rfl

theorem read_numeral {spaces sign : List Char} {neg : Bool} (hspaces : ∀ c ∈ spaces, white c)
    (hsign : Sign sign neg) (hpre : RadixPrefix r pre) (hne : ds ≠ []) (hds : ∀ c ∈ ds, isDigit r c)
    (rest : List Char) :
    read r (spaces ++ (sign ++ (pre ++ ds)) ++ rest) =
      (readDigits r (dropPrefix r (pre ++ ds ++ rest))).map
        fun p => (CoreIntInf.signed neg p.1, p.2) := by
  obtain ⟨c, t, ht, hc⟩ := exists_digit hpre hne hds rest
  have hdrop : (spaces ++ (sign ++ (pre ++ ds)) ++ rest).dropWhile white =
      sign ++ (pre ++ ds ++ rest) := by
    rw [List.append_assoc, List.append_assoc sign, ht]
    cases hsign with
    | none => exact dropWhile_spaces hspaces (digit_cases hc).1
    | plus => exact dropWhile_spaces hspaces (by decide)
    | minus => exact dropWhile_spaces hspaces (by decide)
    | tilde => exact dropWhile_spaces hspaces (by decide)
  rw [read, readSigned, hdrop, ht, readSign_sign hsign hc]

theorem readDigits_append (hne : ds ≠ []) (hds : ∀ c ∈ ds, isDigit r c) :
    readDigits r (ds ++ rest) = some (ofChars r 0 (ds ++ rest.takeWhile (isDigit r)),
      rest.dropWhile (isDigit r)) := by
  have htake : (ds ++ rest).takeWhile (isDigit r) = ds ++ rest.takeWhile (isDigit r) :=
    List.takeWhile_append_of_pos hds
  have hdrop : (ds ++ rest).dropWhile (isDigit r) = rest.dropWhile (isDigit r) :=
    List.dropWhile_append_of_pos hds
  unfold readDigits
  split
  · next heq =>
    rw [htake] at heq
    exact absurd (List.append_eq_nil_iff.1 heq).1 hne
  · next c ds' heq => rw [← heq, htake, hdrop]

theorem dropPrefix_cases (r : Radix) (s : List Char) :
    dropPrefix r s = s ∨ r = .hex ∧ ∃ x c t, s = '0' :: x :: c :: t ∧ (x = 'x' ∨ x = 'X') ∧
      isDigit r c ∧ dropPrefix r s = c :: t := by
  unfold dropPrefix
  split
  · next x c t =>
    split_ifs with h
    · exact Or.inr ⟨h.1, x, c, t, rfl, h.2.1, h.2.2, rfl⟩
    · exact Or.inl rfl
  · exact Or.inl rfl

theorem dropPrefix_hex {x : Char} (hx : x = 'x' ∨ x = 'X') (hc : isDigit .hex c) :
    dropPrefix .hex ('0' :: x :: c :: t) = c :: t :=
  if_pos ⟨rfl, hx, hc⟩

/-- The digits of a numeral are read, and those that follow it. -/
theorem readDigits_prefix (hpre : RadixPrefix r pre) (hne : ds ≠ []) (hds : ∀ c ∈ ds, isDigit r c)
    (rest : List Char) :
    ∃ n rest', readDigits r (dropPrefix r (pre ++ ds ++ rest)) = some (n, rest') ∧
      rest'.length ≤ rest.length ∧ (rest = [] → n = ofChars r 0 ds ∧ rest' = []) := by
  have hplain : ∃ n rest', readDigits r (ds ++ rest) = some (n, rest') ∧
      rest'.length ≤ rest.length ∧ (rest = [] → n = ofChars r 0 ds ∧ rest' = []) := by
    refine ⟨_, _, readDigits_append hne hds, (List.dropWhile_sublist _).length_le, ?_⟩
    rintro rfl
    exact ⟨congrArg _ (List.append_nil ds), rfl⟩
  obtain ⟨c, ds', rfl⟩ := List.exists_cons_of_ne_nil hne
  cases hpre with
  | lower =>
    have hdrop : dropPrefix .hex (['0', 'x'] ++ c :: ds' ++ rest) = c :: ds' ++ rest :=
      dropPrefix_hex (Or.inl rfl) (hds c (List.mem_cons_self ..))
    rw [hdrop]
    exact hplain
  | upper =>
    have hdrop : dropPrefix .hex (['0', 'X'] ++ c :: ds' ++ rest) = c :: ds' ++ rest :=
      dropPrefix_hex (Or.inr rfl) (hds c (List.mem_cons_self ..))
    rw [hdrop]
    exact hplain
  | none =>
    rcases dropPrefix_cases r (c :: ds' ++ rest) with heq | ⟨rfl, x, d, t, hs, hx, hd, heq⟩
    · rw [List.nil_append, heq]
      exact hplain
    · -- the numeral is the zero of a prefix
      cases ds' with
      | cons e ds' =>
        obtain ⟨-, hs⟩ := List.cons.inj hs
        have hdigit : isDigit .hex x :=
          hds x (List.mem_cons_of_mem _ ((List.cons.inj hs).1 ▸ List.mem_cons_self ..))
        rcases hx with rfl | rfl
        · exact absurd hdigit (by decide)
        · exact absurd hdigit (by decide)
      | nil =>
        obtain ⟨-, rfl⟩ := List.cons.inj hs
        rw [List.nil_append, heq]
        have hsingle : ∀ e ∈ [d], isDigit .hex e := by
          intro e he
          rw [List.mem_singleton.1 he]
          exact hd
        refine ⟨_, _, readDigits_append (List.cons_ne_nil d []) hsingle, ?_, ?_⟩
        · have := (List.dropWhile_sublist (isDigit .hex) (l := t)).length_le
          simp only [List.length_cons]
          omega
        · intro h
          cases h

theorem read_append {w : List Char} (h : Numeral r w i) (rest : List Char) :
    ∃ i' rest', read r (w ++ rest) = some (i', rest') ∧ rest'.length ≤ rest.length ∧
      (rest = [] → i' = i ∧ rest' = []) := by
  cases h with
  | mk hspaces hsign hpre hne hds =>
    obtain ⟨n, rest', hread, hle, hnil⟩ := readDigits_prefix hpre hne hds rest
    rw [read_numeral hspaces hsign hpre hne hds, hread]
    refine ⟨_, rest', rfl, hle, fun h => ?_⟩
    obtain ⟨rfl, rfl⟩ := hnil h
    exact ⟨rfl, rfl⟩

theorem read_of_numeral {w : List Char} (h : Numeral r w i) : read r w = some (i, []) := by
  obtain ⟨i', rest', hread, -, hnil⟩ := read_append h []
  obtain ⟨rfl, rfl⟩ := hnil rfl
  rw [List.append_nil] at hread
  exact hread

/-- **The longest numeral is read.** -/
theorem longest_read (r : Radix) (s : List Char) : Longest r s (read r s) := by
  rcases hread : read r s with _ | ⟨i, rest⟩
  · rintro w rest i rfl hw
    obtain ⟨i', rest', hsome, -⟩ := read_append hw rest
    rw [hread] at hsome
    cases hsome
  · obtain ⟨w, hs, hw⟩ := numeral_of_read hread
    refine ⟨w, hs, hw, fun w' rest' i' hs' hw' => ?_⟩
    obtain ⟨i'', rest'', hsome, hle, -⟩ := read_append hw' rest'
    rw [← hs', hread] at hsome
    obtain ⟨-, rfl⟩ := Prod.mk.inj (Option.some.inj hsome)
    have hlen := congrArg List.length (hs.symm.trans hs')
    rw [List.length_append, List.length_append] at hlen
    omega

/-- **There is only one outcome.** -/
theorem longest_unique {x y : Option (ℤ × List Char)} (hx : Longest r s x) (hy : Longest r s y) :
    x = y := by
  rcases x with _ | ⟨i, rest⟩ <;> rcases y with _ | ⟨j, rest'⟩
  · rfl
  · obtain ⟨w, hs, hw, -⟩ := hy
    exact absurd hw (hx w rest' j hs)
  · obtain ⟨w, hs, hw, -⟩ := hx
    exact absurd hw (hy w rest i hs)
  · obtain ⟨w, hs, hw, hmax⟩ := hx
    obtain ⟨w', hs', hw', hmax'⟩ := hy
    have hlen : w.length = w'.length := le_antisymm (hmax' w rest i hs hw) (hmax w' rest' j hs' hw')
    obtain ⟨rfl, rfl⟩ := List.append_inj (hs.symm.trans hs') hlen
    have heq := (read_of_numeral hw).symm.trans (read_of_numeral hw')
    rw [(Prod.mk.inj (Option.some.inj heq)).1]

theorem longest_iff {x : Option (ℤ × List Char)} : Longest r s x ↔ x = read r s :=
  ⟨fun h => longest_unique h (longest_read r s), fun h => h ▸ longest_read r s⟩

end

end SmlNj.IntInf
