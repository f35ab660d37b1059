import Mathlib

/-!
# Regular expressions

The abstract syntax of the regular expressions of the library, which is shared by the engines, and
the languages of the expressions without anchors.

## Main definitions

* `Syntax` — the expressions.
* `langWith` — the language of an expression, given how often an interval may be iterated.
* `lang` — the language of an expression.
* `LongestPrefix` — the longest prefix of an input in a language.
-/

namespace SmlNj.RegExp

/-- Regular expressions.  The bounds of an interval are not negative, and there may be no upper
one. -/
inductive Syntax
  | Group (re : Syntax)
  | Alt (l : List Syntax)
  | Concat (l : List Syntax)
  | Interval (re : Syntax) (min : ℕ) (max : Option ℕ)
  | MatchSet (set : Finset Char)
  | NonmatchSet (set : Finset Char)
  | Char (c : Char)
  | Begin
  | End

def optional (re : Syntax) : Syntax := .Interval re 0 (some 1)

def closure (re : Syntax) : Syntax := .Interval re 0 none

def posClosure (re : Syntax) : Syntax := .Interval re 1 none

mutual

/-- The expression has no anchors. -/
@[grind =] def anchorFree : Syntax → Prop
  | .Group re => anchorFree re
  | .Alt l => anchorFreeList l
  | .Concat l => anchorFreeList l
  | .Interval re _ _ => anchorFree re
  | .MatchSet _ => True
  | .NonmatchSet _ => True
  | .Char _ => True
  | .Begin => False
  | .End => False

def anchorFreeList : List Syntax → Prop
  | [] => True
  | re :: l => anchorFree re ∧ anchorFreeList l

end

mutual

/-- The language of an expression, when an interval with given bounds may be iterated a number of
times in a given set.  Anchors read nothing. -/
@[grind =] def langWith (counts : ℕ → Option ℕ → Set ℕ) : Syntax → Language Char
  | .Group re => langWith counts re
  | .Alt l => langAlt counts l
  | .Concat l => langConcat counts l
  | .Interval re min max => {w | ∃ i ∈ counts min max, w ∈ langWith counts re ^ i}
  | .MatchSet set => {w | ∃ c ∈ set, w = [c]}
  | .NonmatchSet set => {w | ∃ c ∉ set, w = [c]}
  | .Char c => {[c]}
  | .Begin => 1
  | .End => 1

def langAlt (counts : ℕ → Option ℕ → Set ℕ) : List Syntax → Language Char
  | [] => 0
  | re :: l => langWith counts re + langAlt counts l

def langConcat (counts : ℕ → Option ℕ → Set ℕ) : List Syntax → Language Char
  | [] => 1
  | re :: l => langWith counts re * langConcat counts l

end

def withinBounds (min : ℕ) : Option ℕ → Set ℕ
  | none => {i | min ≤ i}
  | some max => {i | min ≤ i ∧ i ≤ max}

/-- **The language of an expression**. -/
def lang (re : Syntax) : Language Char := langWith withinBounds re

mutual

theorem langWith_mono {counts counts' : ℕ → Option ℕ → Set ℕ}
    (h : ∀ min max, counts min max ⊆ counts' min max) :
    ∀ re, langWith counts re ≤ langWith counts' re
  | .Group re => by
    simp only [langWith]
    exact langWith_mono h re
  | .Alt l => by
    simp only [langWith]
    exact langAlt_mono h l
  | .Concat l => by
    simp only [langWith]
    exact langConcat_mono h l
  | .Interval re min max => by
    simp only [langWith]
    rintro w ⟨i, hi, hw⟩
    exact ⟨i, h min max hi, pow_le_pow_left' (langWith_mono h re) i hw⟩
  | .MatchSet set => by simp only [langWith]; exact le_rfl
  | .NonmatchSet set => by simp only [langWith]; exact le_rfl
  | .Char c => by simp only [langWith]; exact le_rfl
  | .Begin => by simp only [langWith]; exact le_rfl
  | .End => by simp only [langWith]; exact le_rfl

theorem langAlt_mono {counts counts' : ℕ → Option ℕ → Set ℕ}
    (h : ∀ min max, counts min max ⊆ counts' min max) :
    ∀ l, langAlt counts l ≤ langAlt counts' l
  | [] => le_rfl
  | re :: l => add_le_add (langWith_mono h re) (langAlt_mono h l)

theorem langConcat_mono {counts counts' : ℕ → Option ℕ → Set ℕ}
    (h : ∀ min max, counts min max ⊆ counts' min max) :
    ∀ l, langConcat counts l ≤ langConcat counts' l
  | [] => le_rfl
  | re :: l => mul_le_mul' (langWith_mono h re) (langConcat_mono h l)

end

/-- **The longest prefix of an input in a language**: its length and the rest of the input, or
nothing if no prefix is in the language. -/
def LongestPrefix (L : Language Char) (input : List Char) : Option (ℕ × List Char) → Prop
  | some (n, rest) => n ≤ input.length ∧ rest = input.drop n ∧ input.take n ∈ L ∧
      ∀ m ≤ input.length, input.take m ∈ L → m ≤ n
  | none => ∀ m ≤ input.length, input.take m ∉ L

theorem LongestPrefix.unique {L : Language Char} {input : List Char}
    {o o' : Option (ℕ × List Char)} (h : LongestPrefix L input o) (h' : LongestPrefix L input o') :
    o = o' := by
  rcases o with _ | ⟨n, rest⟩ <;> rcases o' with _ | ⟨n', rest'⟩
  · rfl
  · exact absurd h'.2.2.1 (h n' h'.1)
  · exact absurd h.2.2.1 (h' n h.1)
  · obtain rfl : n = n' := le_antisymm (h'.2.2.2 n h.1 h.2.2.1) (h.2.2.2 n' h'.1 h'.2.2.1)
    rw [h.2.1, h'.2.1]

/-- The longest prefix in a language is that in a larger one exactly when the latter is in the
former. -/
theorem longestPrefix_iff_of_le {L L' : Language Char} (hle : L ≤ L') {input : List Char}
    {o : Option (ℕ × List Char)} (h : LongestPrefix L input o) :
    LongestPrefix L' input o ↔
      ∀ n rest, LongestPrefix L' input (some (n, rest)) → input.take n ∈ L := by
  constructor
  · intro h' n rest hn
    obtain rfl := h'.unique hn
    exact h.2.2.1
  · intro hmem
    by_cases hex : ∃ m ≤ input.length, input.take m ∈ L'
    · -- the longest prefix in the larger language
      classical
      set n := Nat.findGreatest (fun m => input.take m ∈ L') input.length with hn
      obtain ⟨m, hm, hmL⟩ := hex
      have hnL : input.take n ∈ L' := Nat.findGreatest_spec (P := fun m => input.take m ∈ L') hm hmL
      have hlong : LongestPrefix L' input (some (n, input.drop n)) :=
        ⟨Nat.findGreatest_le _, rfl, hnL, fun m hm hmL => Nat.le_findGreatest hm hmL⟩
      have hsmall : LongestPrefix L input (some (n, input.drop n)) :=
        ⟨hlong.1, rfl, hmem n _ hlong, fun m hm hmL => hlong.2.2.2 m hm (hle hmL)⟩
      rwa [h.unique hsmall]
    · have hnone : LongestPrefix L' input none := fun m hm hmL => hex ⟨m, hm, hmL⟩
      have hsmall : LongestPrefix L input none := fun m hm hmL => hex ⟨m, hm, hle hmL⟩
      rwa [h.unique hsmall]

end SmlNj.RegExp
