import SmlNj.Library.UTF8

/-!
# Well-formed UTF-8

The state machine accepts exactly the sequences of bytes of the table of RFC 3629, and these are
exactly the encodings of the scalar values.  So decoding and encoding are inverse, and the machine
that counts finds the same characters.

## Main definitions

* `rfc3629`, `IsChar`, `WellFormed` — the well-formed strings.
* `Scalar` — the Unicode scalar values.
* `value` — the wide character that a sequence of bytes stands for.

## Main results

* `getWCFromSubstring_append`, `of_getWCFromSubstring` — what the decoder accepts.
* `eatOneUTF8Char_eq` — the machine that counts does the same steps.
* `encode'_wcOf`, `exists_isChar` — the encoder writes these sequences.
* `utf8_correct` — the round trips and what is accepted.
-/

namespace SmlNj.UTF8

def tail : ℕ × ℕ := (0x80, 0xbf)

/-- **The well-formed sequences** of RFC 3629: the ranges of their bytes. -/
def rfc3629 : List (List (ℕ × ℕ)) :=
  [[(0x00, 0x7f)],
    [(0xc2, 0xdf), tail],
    [(0xe0, 0xe0), (0xa0, 0xbf), tail],
    [(0xe1, 0xec), tail, tail],
    [(0xed, 0xed), (0x80, 0x9f), tail],
    [(0xee, 0xef), tail, tail],
    [(0xf0, 0xf0), (0x90, 0xbf), tail, tail],
    [(0xf1, 0xf3), tail, tail, tail],
    [(0xf4, 0xf4), (0x80, 0x8f), tail, tail]]

def InRange (r : ℕ × ℕ) (c : UInt8) : Prop := r.1 ≤ c.toNat ∧ c.toNat ≤ r.2

def IsChar (u : List UInt8) : Prop := ∃ row ∈ rfc3629, List.Forall₂ InRange row u

def WellFormed (s : List UInt8) : Prop :=
  ∃ us : List (List UInt8), (∀ u ∈ us, IsChar u) ∧ s = us.flatten

/-- The Unicode scalar values: the code points without the surrogates. -/
def Scalar (wc : Word) : Prop := wc ≤ maxCodePoint ∧ ¬(0xd800 ≤ wc ∧ wc ≤ 0xdfff)

instance : DecidablePred Scalar := fun _ => inferInstanceAs (Decidable (_ ∧ ¬_))

/-- The wide character that a sequence of bytes stands for. -/
def value : List UInt8 → ℕ
  | [a] => a.toNat
  | [a, b] => a.toNat % 32 * 64 + b.toNat % 64
  | [a, b, c] => (a.toNat % 16 * 64 + b.toNat % 64) * 64 + c.toNat % 64
  | [a, b, c, d] =>
    ((a.toNat % 8 * 64 + b.toNat % 64) * 64 + c.toNat % 64) * 64 + d.toNat % 64
  | _ => 0

def wcOf (u : List UInt8) : Word := BitVec.ofNat 63 (value u)

variable {n lo hi : ℕ} {next : List UInt8 → Word → Decoded (List UInt8)} {u : List UInt8}
  {α : Type*} {us : List (List UInt8)}

theorem toNat_ofNat (h : n < 2 ^ 63) : (BitVec.ofNat 63 n).toNat = n := by
  rw [BitVec.toNat_ofNat, Nat.mod_eq_of_lt h]

theorem ord_toNat (c : UInt8) : (ord c).toNat = c.toNat := by
  have hc := c.toNat_lt
  rw [ord, toNat_ofNat (by omega)]

theorem inRange_iff {lo b hi : Word} (h : lo ≤ hi) :
    inRange lo b hi = true ↔ lo ≤ b ∧ b ≤ hi := by
  rw [inRange, decide_eq_true_eq]
  bv_omega

theorem inRange_ord (h : lo ≤ hi) (hhi : hi < 256) (c : UInt8) :
    inRange (BitVec.ofNat 63 lo) (ord c) (BitVec.ofNat 63 hi) = true ↔ InRange (lo, hi) c := by
  have hc := c.toNat_lt
  rw [inRange_iff (by bv_omega), ord]
  constructor
  · rintro ⟨h₁, h₂⟩
    constructor <;> bv_omega
  · rintro ⟨h₁, h₂⟩
    constructor <;> bv_omega

theorem ord_and_mask (c : UInt8) (k : ℕ) :
    ord c &&& BitVec.ofNat 63 (2 ^ k - 1) = BitVec.ofNat 63 (c.toNat % 2 ^ k) := by
  rw [ord, ← BitVec.ofNat_and, Nat.and_two_pow_sub_one_eq_mod]

theorem addContBits_ofNat (h : n < 2 ^ 57) (c : UInt8) :
    addContBits (BitVec.ofNat 63 n) (ord c) = BitVec.ofNat 63 (n * 64 + c.toNat % 64) := by
  have hmask : (0x3f &&& ord c : Word) = BitVec.ofNat 63 (c.toNat % 2 ^ 6) := by
    rw [BitVec.and_comm]
    exact ord_and_mask c 6
  have hlt : c.toNat % 2 ^ 6 < 2 ^ 6 := Nat.mod_lt _ (by norm_num)
  have hhigh : (BitVec.ofNat 63 n <<< 6).toNat = n <<< 6 := by
    rw [BitVec.toNat_shiftLeft, BitVec.toNat_ofNat]
    omega
  have hlow : (BitVec.ofNat 63 (c.toNat % 2 ^ 6)).toNat = c.toNat % 2 ^ 6 :=
    toNat_ofNat (hlt.trans (by norm_num))
  rw [addContBits, hmask]
  apply BitVec.eq_of_toNat_eq
  rw [BitVec.toNat_or, hhigh, hlow, ← Nat.shiftLeft_add_eq_or_of_lt hlt,
    BitVec.toNat_ofNat]
  omega

/-! ### Decoding -/

theorem state_cons (h : lo ≤ hi) (hhi : hi < 256) (next : List UInt8 → Word → Decoded (List UInt8))
    (c : UInt8) (ss : List UInt8) (accum : Word) :
    state .STRICT getc (BitVec.ofNat 63 lo) (BitVec.ofNat 63 hi) next (c :: ss) accum =
      if lo ≤ c.toNat ∧ c.toNat ≤ hi then next ss (addContBits accum (ord c))
      else .error .Invalid := by
  simp only [state, getByte, getc, invalid, inRange_ord h hhi, InRange]

theorem state_of_inRange {c : UInt8} (hc : InRange (lo, hi) c) (hhi : hi < 256) (ss : List UInt8)
    (accum : Word) :
    state .STRICT getc (BitVec.ofNat 63 lo) (BitVec.ofNat 63 hi) next (c :: ss) accum =
      next ss (addContBits accum (ord c)) :=
  (state_cons (hc.1.trans hc.2) hhi next c ss accum).trans (if_pos hc)

theorem of_state_eq_ok (h : lo ≤ hi) (hhi : hi < 256) {s : List UInt8} {accum : Word}
    {r : Option (Word × List UInt8)}
    (hs : state .STRICT getc (BitVec.ofNat 63 lo) (BitVec.ofNat 63 hi) next s accum = .ok r) :
    ∃ c ss, s = c :: ss ∧ InRange (lo, hi) c ∧ next ss (addContBits accum (ord c)) = .ok r := by
  rcases s with _ | ⟨c, ss⟩
  · cases hs
  · rw [state_cons h hhi] at hs
    split at hs
    · exact ⟨c, ss, rfl, ‹_›, hs⟩
    · cases hs

/-- The first byte. -/
theorem getWCFromSubstring_cons (c : UInt8) (ss : List UInt8) :
    getWCFromSubstring (c :: ss) =
      if c.toNat ≤ 0x7f then .ok (some (ord c, ss))
      else if 0xc2 ≤ c.toNat ∧ c.toNat ≤ 0xdf then
        stateA .STRICT getc ss (BitVec.ofNat 63 (c.toNat % 2 ^ 5))
      else if (0xe1 ≤ c.toNat ∧ c.toNat ≤ 0xec) ∨ (0xee ≤ c.toNat ∧ c.toNat ≤ 0xef) then
        stateB .STRICT getc ss (BitVec.ofNat 63 (c.toNat % 2 ^ 4))
      else if c.toNat = 0xe0 then stateC .STRICT getc ss (BitVec.ofNat 63 (c.toNat % 2 ^ 4))
      else if c.toNat = 0xed then stateD .STRICT getc ss (BitVec.ofNat 63 (c.toNat % 2 ^ 4))
      else if 0xf1 ≤ c.toNat ∧ c.toNat ≤ 0xf3 then
        stateE .STRICT getc ss (BitVec.ofNat 63 (c.toNat % 2 ^ 3))
      else if c.toNat = 0xf0 then stateF .STRICT getc ss (BitVec.ofNat 63 (c.toNat % 2 ^ 3))
      else if c.toNat = 0xf4 then stateG .STRICT getc ss (BitVec.ofNat 63 (c.toNat % 2 ^ 3))
      else .error .Invalid := by
  have hle : ord c ≤ 0x7f ↔ c.toNat ≤ 0x7f := by
    rw [BitVec.le_def, ord_toNat]
    rfl
  have heq : ∀ n : ℕ, n < 256 → (ord c = BitVec.ofNat 63 n ↔ c.toNat = n) := fun n hn => by
    rw [← BitVec.toNat_inj, ord_toNat, toNat_ofNat (by omega)]
  have h₁ : inRange 0xc2 (ord c) 0xdf = true ↔ 0xc2 ≤ c.toNat ∧ c.toNat ≤ 0xdf :=
    inRange_ord (by norm_num) (by norm_num) c
  have h₂ : inRange 0xe1 (ord c) 0xec = true ↔ 0xe1 ≤ c.toNat ∧ c.toNat ≤ 0xec :=
    inRange_ord (by norm_num) (by norm_num) c
  have h₃ : inRange 0xee (ord c) 0xef = true ↔ 0xee ≤ c.toNat ∧ c.toNat ≤ 0xef :=
    inRange_ord (by norm_num) (by norm_num) c
  have h₄ : inRange 0xf1 (ord c) 0xf3 = true ↔ 0xf1 ≤ c.toNat ∧ c.toNat ≤ 0xf3 :=
    inRange_ord (by norm_num) (by norm_num) c
  have e₀ : ord c = 0xe0 ↔ c.toNat = 0xe0 := heq 0xe0 (by norm_num)
  have e₁ : ord c = 0xed ↔ c.toNat = 0xed := heq 0xed (by norm_num)
  have e₂ : ord c = 0xf0 ↔ c.toNat = 0xf0 := heq 0xf0 (by norm_num)
  have e₃ : ord c = 0xf4 ↔ c.toNat = 0xf4 := heq 0xf4 (by norm_num)
  have m₁ : ord c &&& mask2Byte = BitVec.ofNat 63 (c.toNat % 2 ^ 5) := ord_and_mask c 5
  have m₂ : ord c &&& mask3Byte = BitVec.ofNat 63 (c.toNat % 2 ^ 4) := ord_and_mask c 4
  have m₃ : ord c &&& mask4Byte = BitVec.ofNat 63 (c.toNat % 2 ^ 3) := ord_and_mask c 3
  simp only [getWCFromSubstring, getWCStrict, getWC, getc, invalid, hle, h₁, h₂, h₃, h₄, e₀, e₁,
    e₂, e₃, m₁, m₂, m₃, Bool.or_eq_true]

/-- The rows of the table one by one. -/
theorem isChar_iff : IsChar u ↔
    (∃ a, u = [a] ∧ InRange (0x00, 0x7f) a) ∨
    (∃ a b, u = [a, b] ∧ InRange (0xc2, 0xdf) a ∧ InRange tail b) ∨
    (∃ a b c, u = [a, b, c] ∧ InRange (0xe0, 0xe0) a ∧ InRange (0xa0, 0xbf) b ∧ InRange tail c) ∨
    (∃ a b c, u = [a, b, c] ∧ InRange (0xe1, 0xec) a ∧ InRange tail b ∧ InRange tail c) ∨
    (∃ a b c, u = [a, b, c] ∧ InRange (0xed, 0xed) a ∧ InRange (0x80, 0x9f) b ∧ InRange tail c) ∨
    (∃ a b c, u = [a, b, c] ∧ InRange (0xee, 0xef) a ∧ InRange tail b ∧ InRange tail c) ∨
    (∃ a b c d, u = [a, b, c, d] ∧
      InRange (0xf0, 0xf0) a ∧ InRange (0x90, 0xbf) b ∧ InRange tail c ∧ InRange tail d) ∨
    (∃ a b c d, u = [a, b, c, d] ∧
      InRange (0xf1, 0xf3) a ∧ InRange tail b ∧ InRange tail c ∧ InRange tail d) ∨
    (∃ a b c d, u = [a, b, c, d] ∧
      InRange (0xf4, 0xf4) a ∧ InRange (0x80, 0x8f) b ∧ InRange tail c ∧ InRange tail d) := by
  have h₁ : ∀ r, List.Forall₂ InRange [r] u ↔ ∃ a, u = [a] ∧ InRange r a := fun r => by
    simp only [List.forall₂_cons_left_iff, List.forall₂_nil_left_iff]
    aesop
  have h₂ : ∀ r₁ r₂, List.Forall₂ InRange [r₁, r₂] u ↔
      ∃ a b, u = [a, b] ∧ InRange r₁ a ∧ InRange r₂ b := fun r₁ r₂ => by
    simp only [List.forall₂_cons_left_iff, List.forall₂_nil_left_iff]
    aesop
  have h₃ : ∀ r₁ r₂ r₃, List.Forall₂ InRange [r₁, r₂, r₃] u ↔
      ∃ a b c, u = [a, b, c] ∧ InRange r₁ a ∧ InRange r₂ b ∧ InRange r₃ c := fun r₁ r₂ r₃ => by
    simp only [List.forall₂_cons_left_iff, List.forall₂_nil_left_iff]
    aesop
  have h₄ : ∀ r₁ r₂ r₃ r₄, List.Forall₂ InRange [r₁, r₂, r₃, r₄] u ↔
      ∃ a b c d, u = [a, b, c, d] ∧ InRange r₁ a ∧ InRange r₂ b ∧ InRange r₃ c ∧
        InRange r₄ d := fun r₁ r₂ r₃ r₄ => by
    simp only [List.forall₂_cons_left_iff, List.forall₂_nil_left_iff]
    aesop
  simp [IsChar, rfc3629, h₁, h₂, h₃, h₄]

/-- **The decoder reads the well-formed characters.** -/
theorem getWCFromSubstring_append (hu : IsChar u) (rest : List UInt8) :
    getWCFromSubstring (u ++ rest) = .ok (some (wcOf u, rest)) := by
  -- one case for each row of the table; the first byte selects the state
  rcases isChar_iff.1 hu with ⟨a, rfl, ha⟩ | ⟨a, b, rfl, ha, hb⟩ | ⟨a, b, c, rfl, ha, hb, hc⟩ |
    ⟨a, b, c, rfl, ha, hb, hc⟩ | ⟨a, b, c, rfl, ha, hb, hc⟩ | ⟨a, b, c, rfl, ha, hb, hc⟩ |
    ⟨a, b, c, d, rfl, ha, hb, hc, hd⟩ | ⟨a, b, c, d, rfl, ha, hb, hc, hd⟩ |
    ⟨a, b, c, d, rfl, ha, hb, hc, hd⟩
  all_goals
    rw [InRange] at ha
    simp (disch := omega) only [List.cons_append, getWCFromSubstring_cons,
      if_pos, if_neg]
  · rfl
  · refine (state_of_inRange hb (by decide) _ _).trans ?_
    rw [addContBits_ofNat (by omega)]
    rfl
  iterate 4
    refine (state_of_inRange hb (by decide) _ _).trans <|
      (state_of_inRange hc (by decide) _ _).trans ?_
    rw [addContBits_ofNat (by omega), addContBits_ofNat (by omega)]
    rfl
  iterate 3
    refine (state_of_inRange hb (by decide) _ _).trans <|
      (state_of_inRange hc (by decide) _ _).trans <|
        (state_of_inRange hd (by decide) _ _).trans ?_
    rw [addContBits_ofNat (by omega), addContBits_ofNat (by omega), addContBits_ofNat (by omega)]
    rfl

/-- The decoder accepts only well-formed characters. -/
theorem of_getWCFromSubstring {s rest : List UInt8} {wc : Word}
    (h : getWCFromSubstring s = .ok (some (wc, rest))) : ∃ u, IsChar u ∧ s = u ++ rest := by
  rcases s with _ | ⟨a, ss⟩
  · cases h
  have hA : ∀ {ss accum}, stateA .STRICT getc ss accum = .ok (some (wc, rest)) →
      ∃ b, InRange tail b ∧ ss = b :: rest := fun hs => by
    obtain ⟨b, ss, rfl, hb, h⟩ := of_state_eq_ok (by decide) (by decide) hs
    obtain ⟨-, rfl⟩ := Prod.mk.inj (Option.some.inj (Except.ok.inj h))
    exact ⟨b, hb, rfl⟩
  have hB : ∀ {ss accum}, stateB .STRICT getc ss accum = .ok (some (wc, rest)) →
      ∃ b c, InRange tail b ∧ InRange tail c ∧ ss = b :: c :: rest := fun hs => by
    obtain ⟨b, ss, rfl, hb, h⟩ := of_state_eq_ok (by decide) (by decide) hs
    obtain ⟨c, hc, rfl⟩ := hA h
    exact ⟨b, c, hb, hc, rfl⟩
  simp only [isChar_iff]
  rw [getWCFromSubstring_cons] at h
  split_ifs at h with h₀ h₁ h₂ h₃ h₄ h₅ h₆ h₇
  · obtain ⟨-, rfl⟩ := Prod.mk.inj (Option.some.inj (Except.ok.inj h))
    exact ⟨[a], .inl ⟨a, rfl, Nat.zero_le _, h₀⟩, rfl⟩
  · obtain ⟨b, hb, rfl⟩ := hA h
    exact ⟨[a, b], .inr (.inl ⟨a, b, rfl, h₁, hb⟩), rfl⟩
  · obtain ⟨b, c, hb, hc, rfl⟩ := hB h
    rcases h₂ with h₂ | h₂
    · exact ⟨[a, b, c], .inr (.inr (.inr (.inl ⟨a, b, c, rfl, h₂, hb, hc⟩))), rfl⟩
    · exact ⟨[a, b, c], .inr (.inr (.inr (.inr (.inr (.inl ⟨a, b, c, rfl, h₂, hb, hc⟩))))), rfl⟩
  · obtain ⟨b, ss, rfl, hb, h⟩ := of_state_eq_ok (by decide) (by decide) h
    obtain ⟨c, hc, rfl⟩ := hA h
    exact ⟨[a, b, c], .inr (.inr (.inl ⟨a, b, c, rfl, ⟨h₃.ge, h₃.le⟩, hb, hc⟩)), rfl⟩
  · obtain ⟨b, ss, rfl, hb, h⟩ := of_state_eq_ok (by decide) (by decide) h
    obtain ⟨c, hc, rfl⟩ := hA h
    exact ⟨[a, b, c], .inr (.inr (.inr (.inr (.inl ⟨a, b, c, rfl, ⟨h₄.ge, h₄.le⟩, hb, hc⟩)))), rfl⟩
  all_goals
    obtain ⟨b, ss, rfl, hb, h⟩ := of_state_eq_ok (by decide) (by decide) h
    obtain ⟨c, d, hc, hd, rfl⟩ := hB h
    refine ⟨[a, b, c, d], .inr (.inr (.inr (.inr (.inr (.inr ?_))))), rfl⟩
  · exact .inr (.inl ⟨a, b, c, d, rfl, h₅, hb, hc, hd⟩)
  · exact .inl ⟨a, b, c, d, rfl, ⟨h₆.ge, h₆.le⟩, hb, hc, hd⟩
  · exact .inr (.inr ⟨a, b, c, d, rfl, ⟨h₇.ge, h₇.le⟩, hb, hc, hd⟩)

theorem getWCFromSubstring_cons_ne_none (c : UInt8) (ss : List UInt8) :
    getWCFromSubstring (c :: ss) ≠ .ok none := by
  have hA : ∀ {ss accum}, stateA .STRICT getc ss accum ≠ .ok none := fun hs => by
    obtain ⟨_, _, -, -, h⟩ := of_state_eq_ok (by decide) (by decide) hs
    cases h
  have hB : ∀ {ss accum}, stateB .STRICT getc ss accum ≠ .ok none := fun hs => by
    obtain ⟨_, _, -, -, h⟩ := of_state_eq_ok (by decide) (by decide) hs
    exact hA h
  intro h
  rw [getWCFromSubstring_cons] at h
  split_ifs at h
  · cases h
  · exact hA h
  · exact hB h
  · obtain ⟨_, _, -, -, h⟩ := of_state_eq_ok (by decide) (by decide) h
    exact hA h
  · obtain ⟨_, _, -, -, h⟩ := of_state_eq_ok (by decide) (by decide) h
    exact hA h
  all_goals
    obtain ⟨_, _, -, -, h⟩ := of_state_eq_ok (by decide) (by decide) h
    exact hB h

def restOf (r : Option (Word × List UInt8)) : List UInt8 := r.elim [] Prod.snd

theorem eatState_eq {lo hi : Word} {next' : List UInt8 → Except Exn (List UInt8)}
    (h : ∀ ss accum, next' ss = (next ss accum).map restOf) (ss : List UInt8) (accum : Word) :
    eatState lo hi next' ss = (state .STRICT getc lo hi next ss accum).map restOf := by
  rcases ss with _ | ⟨c, ss⟩
  · rfl
  · rw [eatState, state, getByte, getc]
    dsimp only
    split
    · exact h ss _
    · rfl

/-- **Counting and decoding accept the same characters.** -/
theorem eatOneUTF8Char_eq (ss : List UInt8) :
    eatOneUTF8Char ss = (getWCFromSubstring ss).map restOf := by
  have hA : ∀ ss accum, eatStateA ss = (stateA .STRICT getc ss accum).map restOf :=
    eatState_eq fun _ _ => rfl
  have hB : ∀ ss accum, eatStateB ss = (stateB .STRICT getc ss accum).map restOf :=
    eatState_eq hA
  rcases ss with _ | ⟨c, ss⟩
  · rfl
  · rw [eatOneUTF8Char, getWCFromSubstring, getWCStrict, getWC, getc]
    dsimp only
    split_ifs
    · rfl
    · exact hA _ _
    · exact hB _ _
    · exact eatState_eq hA _ _
    · exact eatState_eq hA _ _
    · exact eatState_eq hB _ _
    · exact eatState_eq hB _ _
    · exact eatState_eq hB _ _
    · rfl

theorem eatOneUTF8Char_append (hu : IsChar u) (rest : List UInt8) :
    eatOneUTF8Char (u ++ rest) = .ok rest := by
  rw [eatOneUTF8Char_eq, getWCFromSubstring_append hu]
  rfl

/-! ### Encoding -/

theorem w2c_pattern (k i : ℕ) (h : n < 2 ^ i) (hk : k * 2 ^ i < 256) (hi : i ≤ 8) :
    w2c (BitVec.ofNat 63 (k * 2 ^ i) ||| BitVec.ofNat 63 n) = UInt8.ofNat (k * 2 ^ i + n) := by
  have hpow : 2 ^ i ≤ 2 ^ 8 := Nat.pow_le_pow_right (by norm_num) hi
  rw [w2c, BitVec.toNat_or, toNat_ofNat (by omega), toNat_ofNat (by omega), ← Nat.shiftLeft_eq,
    ← Nat.shiftLeft_add_eq_or_of_lt h]

theorem w2c_cont (h : n < 2 ^ 63) (i : ℕ) :
    w2c (0x80 ||| (BitVec.ofNat 63 n >>> i &&& 0x3f)) = UInt8.ofNat (0x80 + n / 2 ^ i % 64) := by
  have hbits : (BitVec.ofNat 63 n >>> i &&& 0x3f : Word) = BitVec.ofNat 63 (n / 2 ^ i % 64) := by
    apply BitVec.eq_of_toNat_eq
    have hmask : (0x3f : Word).toNat = 2 ^ 6 - 1 := rfl
    rw [BitVec.toNat_and, BitVec.toNat_ushiftRight, toNat_ofNat h, toNat_ofNat (by omega), hmask,
      Nat.and_two_pow_sub_one_eq_mod, Nat.shiftRight_eq_div_pow]
  rw [hbits]
  exact w2c_pattern 2 6 (Nat.mod_lt _ (by norm_num)) (by norm_num) (by norm_num)

/-- The encoder in numbers. -/
theorem encode'_ofNat (h : n < 2 ^ 63) (chrs : List UInt8) :
    encode' (BitVec.ofNat 63 n) chrs =
      if n ≤ 0x7f then .ok (UInt8.ofNat n :: chrs)
      else if n ≤ 0x7ff then
        .ok (UInt8.ofNat (0xc0 + n / 64) :: UInt8.ofNat (0x80 + n % 64) :: chrs)
      else if n ≤ 0xffff then
        .ok (UInt8.ofNat (0xe0 + n / 4096) :: UInt8.ofNat (0x80 + n / 64 % 64) ::
          UInt8.ofNat (0x80 + n % 64) :: chrs)
      else if n ≤ 0x10ffff then
        .ok (UInt8.ofNat (0xf0 + n / 262144) :: UInt8.ofNat (0x80 + n / 4096 % 64) ::
          UInt8.ofNat (0x80 + n / 64 % 64) :: UInt8.ofNat (0x80 + n % 64) :: chrs)
      else .error .Invalid := by
  have hle : ∀ m : ℕ, m < 2 ^ 63 → (BitVec.ofNat 63 n ≤ BitVec.ofNat 63 m ↔ n ≤ m) :=
    fun m hm => by rw [BitVec.le_def, toNat_ofNat h, toNat_ofNat hm]
  have hshift : ∀ i : ℕ, BitVec.ofNat 63 n >>> i = BitVec.ofNat 63 (n / 2 ^ i) := fun i => by
    apply BitVec.eq_of_toNat_eq
    rw [BitVec.toNat_ushiftRight, toNat_ofNat h, Nat.shiftRight_eq_div_pow,
      toNat_ofNat ((Nat.div_le_self _ _).trans_lt h)]
  have hlast := w2c_cont h 0
  rw [BitVec.ushiftRight_zero, pow_zero, Nat.div_one] at hlast
  have l₁ : BitVec.ofNat 63 n ≤ 0x7f ↔ n ≤ 0x7f := hle 0x7f (by norm_num)
  have l₂ : BitVec.ofNat 63 n ≤ 0x7ff ↔ n ≤ 0x7ff := hle 0x7ff (by norm_num)
  have l₃ : BitVec.ofNat 63 n ≤ 0xffff ↔ n ≤ 0xffff := hle 0xffff (by norm_num)
  have l₄ : BitVec.ofNat 63 n ≤ maxCodePoint ↔ n ≤ 0x10ffff := hle 0x10ffff (by norm_num)
  rw [encode']
  simp only [l₁, l₂, l₃, l₄, hlast, w2c_cont h, Nat.reducePow]
  split_ifs with h₁ h₂ h₃ h₄
  · rw [w2c, toNat_ofNat h]
  · have hhead : w2c ((0xc0 : Word) ||| BitVec.ofNat 63 n >>> 6) = UInt8.ofNat (0xc0 + n / 64) := by
      rw [hshift]
      exact w2c_pattern 6 5 (by omega) (by norm_num) (by norm_num)
    rw [hhead]
  · have hhead : w2c ((0xe0 : Word) ||| BitVec.ofNat 63 n >>> 12) =
        UInt8.ofNat (0xe0 + n / 4096) := by
      rw [hshift]
      exact w2c_pattern 14 4 (by omega) (by norm_num) (by norm_num)
    rw [hhead]
  · have hhead : w2c ((0xf0 : Word) ||| BitVec.ofNat 63 n >>> 18) =
        UInt8.ofNat (0xf0 + n / 262144) := by
      rw [hshift]
      exact w2c_pattern 30 3 (by omega) (by norm_num) (by norm_num)
    rw [hhead]
  · rfl

theorem ofNat_eq {c : UInt8} (h : n = c.toNat) : UInt8.ofNat n = c := by
  rw [h, UInt8.ofNat_toNat]

theorem encode'_wcOf (hu : IsChar u) (chrs : List UInt8) :
    encode' (wcOf u) chrs = .ok (u ++ chrs) := by
  rcases isChar_iff.1 hu with ⟨a, rfl, ha⟩ | ⟨a, b, rfl, ha, hb⟩ | ⟨a, b, c, rfl, ha, hb, hc⟩ |
    ⟨a, b, c, rfl, ha, hb, hc⟩ | ⟨a, b, c, rfl, ha, hb, hc⟩ | ⟨a, b, c, rfl, ha, hb, hc⟩ |
    ⟨a, b, c, d, rfl, ha, hb, hc, hd⟩ | ⟨a, b, c, d, rfl, ha, hb, hc, hd⟩ |
    ⟨a, b, c, d, rfl, ha, hb, hc, hd⟩
  all_goals
    simp only [InRange, tail] at *
    rw [wcOf, value, encode'_ofNat (by omega)]
    simp (disch := omega) only [if_pos, if_neg, List.cons_append, List.nil_append]
  · rw [ofNat_eq rfl]
  · rw [ofNat_eq (c := a) (by omega), ofNat_eq (c := b) (by omega)]
  iterate 4
    rw [ofNat_eq (c := a) (by omega), ofNat_eq (c := b) (by omega), ofNat_eq (c := c) (by omega)]
  iterate 3
    rw [ofNat_eq (c := a) (by omega), ofNat_eq (c := b) (by omega), ofNat_eq (c := c) (by omega),
      ofNat_eq (c := d) (by omega)]

theorem scalar_ofNat (h : n < 2 ^ 63) :
    Scalar (BitVec.ofNat 63 n) ↔ n ≤ 0x10ffff ∧ ¬(0xd800 ≤ n ∧ n ≤ 0xdfff) := by
  have h₁ : BitVec.ofNat 63 n ≤ maxCodePoint ↔ n ≤ 0x10ffff := by
    rw [BitVec.le_def, toNat_ofNat h]
    rfl
  have h₂ : (0xd800 : Word) ≤ BitVec.ofNat 63 n ↔ 0xd800 ≤ n := by
    rw [BitVec.le_def, toNat_ofNat h]
    rfl
  have h₃ : BitVec.ofNat 63 n ≤ 0xdfff ↔ n ≤ 0xdfff := by
    rw [BitVec.le_def, toNat_ofNat h]
    rfl
  rw [Scalar, h₁, h₂, h₃]

theorem scalar_wcOf (hu : IsChar u) : Scalar (wcOf u) := by
  rcases isChar_iff.1 hu with ⟨a, rfl, ha⟩ | ⟨a, b, rfl, ha, hb⟩ | ⟨a, b, c, rfl, ha, hb, hc⟩ |
    ⟨a, b, c, rfl, ha, hb, hc⟩ | ⟨a, b, c, rfl, ha, hb, hc⟩ | ⟨a, b, c, rfl, ha, hb, hc⟩ |
    ⟨a, b, c, d, rfl, ha, hb, hc, hd⟩ | ⟨a, b, c, d, rfl, ha, hb, hc, hd⟩ |
    ⟨a, b, c, d, rfl, ha, hb, hc, hd⟩
  all_goals
    simp only [InRange] at *
    rw [wcOf, value, scalar_ofNat (by omega)]
    omega

/-- **Every scalar value has an encoding.** -/
theorem exists_isChar {wc : Word} (h : Scalar wc) : ∃ u, IsChar u ∧ wcOf u = wc := by
  obtain ⟨n, hn, rfl⟩ : ∃ n < 2 ^ 63, wc = BitVec.ofNat 63 n :=
    ⟨wc.toNat, wc.isLt, (BitVec.ofNat_toNat 63 wc).symm⟩
  obtain ⟨hmax, hsur⟩ := (scalar_ofNat hn).1 h
  have hb : ∀ m < 256, (UInt8.ofNat m).toNat = m := fun m hm => UInt8.toNat_ofNat_of_lt' hm
  have hval : ∀ {u}, value u = n → wcOf u = BitVec.ofNat 63 n := fun hu => by rw [wcOf, hu]
  simp only [isChar_iff]
  by_cases h₁ : n ≤ 0x7f
  · have e := hb n (by omega)
    exact ⟨_, .inl ⟨UInt8.ofNat n, rfl, by rw [InRange, e]; omega⟩, hval (by rw [value, e])⟩
  have ez := hb (0x80 + n % 64) (by omega)
  have hz : InRange tail (UInt8.ofNat (0x80 + n % 64)) := by
    rw [InRange, tail, ez]
    omega
  by_cases h₂ : n ≤ 0x7ff
  · have ea := hb (0xc0 + n / 64) (by omega)
    refine ⟨_, .inr (.inl ⟨UInt8.ofNat (0xc0 + n / 64), _, rfl, ?_, hz⟩), hval ?_⟩
    · rw [InRange, ea]
      omega
    · rw [value, ea, ez]
      omega
  have ey := hb (0x80 + n / 64 % 64) (by omega)
  have hy : InRange tail (UInt8.ofNat (0x80 + n / 64 % 64)) := by
    rw [InRange, tail, ey]
    omega
  by_cases h₃ : n ≤ 0xffff
  · have ea := hb (0xe0 + n / 4096) (by omega)
    refine ⟨[UInt8.ofNat (0xe0 + n / 4096), UInt8.ofNat (0x80 + n / 64 % 64),
      UInt8.ofNat (0x80 + n % 64)], .inr (.inr ?_), hval ?_⟩
    · -- the row is determined by the highest four bits
      rcases (by omega : n / 4096 = 0 ∨ (1 ≤ n / 4096 ∧ n / 4096 ≤ 12) ∨ n / 4096 = 13 ∨
        14 ≤ n / 4096) with h | h | h | h
      · refine .inl ⟨_, _, _, rfl, ?_, ?_, hz⟩
        · rw [InRange, ea]
          omega
        · rw [InRange, ey]
          omega
      · refine .inr (.inl ⟨_, _, _, rfl, ?_, hy, hz⟩)
        rw [InRange, ea]
        omega
      · refine .inr (.inr (.inl ⟨_, _, _, rfl, ?_, ?_, hz⟩))
        · rw [InRange, ea]
          omega
        · rw [InRange, ey]
          omega
      · refine .inr (.inr (.inr (.inl ⟨_, _, _, rfl, ?_, hy, hz⟩)))
        rw [InRange, ea]
        omega
    · rw [value, ea, ey, ez]
      omega
  have ea := hb (0xf0 + n / 262144) (by omega)
  have ex := hb (0x80 + n / 4096 % 64) (by omega)
  refine ⟨[UInt8.ofNat (0xf0 + n / 262144), UInt8.ofNat (0x80 + n / 4096 % 64),
    UInt8.ofNat (0x80 + n / 64 % 64), UInt8.ofNat (0x80 + n % 64)],
    .inr (.inr (.inr (.inr (.inr (.inr ?_))))), hval ?_⟩
  · rcases (by omega : n / 262144 = 0 ∨ (1 ≤ n / 262144 ∧ n / 262144 ≤ 3) ∨
      n / 262144 = 4) with h | h | h
    · refine .inl ⟨_, _, _, _, rfl, ?_, ?_, hy, hz⟩
      · rw [InRange, ea]
        omega
      · rw [InRange, ex]
        omega
    · refine .inr (.inl ⟨_, _, _, _, rfl, ?_, ?_, hy, hz⟩)
      · rw [InRange, ea]
        omega
      · rw [InRange, tail, ex]
        omega
    · refine .inr (.inr ⟨_, _, _, _, rfl, ?_, ?_, hy, hz⟩)
      · rw [InRange, ea]
        omega
      · rw [InRange, ex]
        omega
  · rw [value, ea, ex, ey, ez]
    omega

/-! ### Whole strings -/

theorem foldf_eq (f : Word → α → α) (s : List UInt8) (acc : α) :
    foldf f s acc = (getWCFromSubstring s).bind fun r =>
      r.elim (.ok acc) fun p => foldf f p.2 (f p.1 acc) := by
  rw [foldf]
  split
  all_goals
    rename_i h
    simp only [h]
    rfl

theorem foldf_flatten (f : Word → α → α) :
    (∀ u ∈ us, IsChar u) → ∀ acc,
      foldf f us.flatten acc = .ok (us.foldl (fun acc u => f (wcOf u) acc) acc) := by
  induction us with
  | nil =>
    intro _ acc
    rw [foldf_eq]
    rfl
  | cons u us ih =>
    intro hus acc
    rw [List.flatten_cons, foldf_eq, getWCFromSubstring_append (hus u List.mem_cons_self)]
    exact ih (fun v hv => hus v (List.mem_cons_of_mem u hv)) _

theorem wellFormed_of_foldf (f : Word → α → α) (s : List UInt8) :
    ∀ {acc r : α}, foldf f s acc = .ok r → WellFormed s := by
  induction hn : s.length using Nat.strong_induction_on generalizing s with
  | _ n ih =>
    intro acc r h
    rw [foldf_eq] at h
    rcases hget : getWCFromSubstring s with e | _ | ⟨wc, rest⟩
    · rw [hget] at h
      cases h
    · -- the input is at its end
      rcases s with _ | ⟨c, ss⟩
      · exact ⟨[], by simp, rfl⟩
      · exact absurd hget (getWCFromSubstring_cons_ne_none c ss)
    · rw [hget] at h
      obtain ⟨u, hu, rfl⟩ := of_getWCFromSubstring hget
      have hlt := length_lt_of_getWC hget
      obtain ⟨us, hus, rfl⟩ := ih rest.length (hn ▸ hlt) rest rfl h
      exact ⟨u :: us, List.forall_mem_cons.2 ⟨hu, hus⟩, rfl⟩

theorem explode_flatten (hus : ∀ u ∈ us, IsChar u) : explode us.flatten = .ok (us.map wcOf) := by
  have hfold : ∀ (us : List (List UInt8)) (acc : List Word),
      us.foldl (fun acc u => wcOf u :: acc) acc = (us.map wcOf).reverse ++ acc := by
    intro us
    induction us with
    | nil => exact fun acc => rfl
    | cons u us ih =>
      intro acc
      rw [List.foldl_cons, ih, List.map_cons, List.reverse_cons, List.append_assoc]
      rfl
  rw [explode, fold, foldf_flatten List.cons hus, hfold, List.append_nil]
  exact congrArg Except.ok (List.reverse_reverse _)

theorem implode_map_wcOf : (∀ u ∈ us, IsChar u) → implode (us.map wcOf) = .ok us.flatten := by
  induction us with
  | nil => exact fun _ => rfl
  | cons u us ih =>
    intro hus
    have h := ih fun v hv => hus v (List.mem_cons_of_mem u hv)
    rw [implode] at h ⊢
    rw [List.map_cons, List.foldr_cons, h]
    exact encode'_wcOf (hus u List.mem_cons_self) _

theorem len_flatten : (∀ u ∈ us, IsChar u) → ∀ n, len us.flatten n = .ok (n + us.length) := by
  induction us with
  | nil =>
    intro _ n
    rw [len]
    rfl
  | cons u us ih =>
    intro hus n
    have hu := hus u List.mem_cons_self
    have hne : (u :: us).flatten ≠ [] := fun h => by
      have hget := getWCFromSubstring_append hu us.flatten
      rw [← List.flatten_cons, h] at hget
      cases hget
    have heat := eatOneUTF8Char_append hu us.flatten
    rw [← List.flatten_cons] at heat
    rw [len, dif_neg hne]
    split
    · rename_i h
      rw [heat] at h
      cases h
    · rename_i ss' h
      rw [heat] at h
      obtain rfl := Except.ok.inj h
      rw [ih fun v hv => hus v (List.mem_cons_of_mem u hv), List.length_cons]
      congr 1
      omega

theorem exists_map_wcOf {ws : List Word} (h : ∀ wc ∈ ws, Scalar wc) :
    ∃ us : List (List UInt8), (∀ u ∈ us, IsChar u) ∧ us.map wcOf = ws := by
  induction ws with
  | nil => exact ⟨[], by simp, rfl⟩
  | cons wc ws ih =>
    obtain ⟨us, hus, rfl⟩ := ih fun w hw => h w (List.mem_cons_of_mem wc hw)
    obtain ⟨u, hu, rfl⟩ := exists_isChar (h wc List.mem_cons_self)
    exact ⟨u :: us, List.forall_mem_cons.2 ⟨hu, hus⟩, rfl⟩

/-- **UTF-8 is correct**: decoding undoes the encoding of every list of scalar values; encoding
undoes decoding wherever strict decoding succeeds, and the counter finds the number of characters
there; and strict decoding succeeds exactly on the well-formed strings. -/
theorem utf8_correct :
    (∀ ws : List Word, (∀ wc ∈ ws, Scalar wc) → (implode ws >>= explode) = .ok ws) ∧
    (∀ (s : List UInt8) (ws : List Word), explode s = .ok ws →
      implode ws = .ok s ∧ size s = .ok ws.length ∧ ∀ wc ∈ ws, Scalar wc) ∧
    ∀ s : List UInt8, (∃ ws, explode s = .ok ws) ↔ WellFormed s := by
  have hwf : ∀ {s ws}, explode s = .ok ws → WellFormed s := fun {s ws} h => by
    rw [explode, fold] at h
    rcases hfold : foldf List.cons s [] with e | r
    · rw [hfold] at h
      cases h
    · exact wellFormed_of_foldf _ _ hfold
  refine ⟨fun ws hws => ?_, fun s ws h => ?_, fun s => ⟨fun ⟨ws, h⟩ => hwf h, ?_⟩⟩
  · obtain ⟨us, hus, rfl⟩ := exists_map_wcOf hws
    rw [implode_map_wcOf hus]
    exact explode_flatten hus
  · obtain ⟨us, hus, rfl⟩ := hwf h
    rw [explode_flatten hus] at h
    obtain rfl := Except.ok.inj h
    refine ⟨implode_map_wcOf hus, ?_, fun wc hwc => ?_⟩
    · rw [size, len_flatten hus, Nat.zero_add, List.length_map]
    · obtain ⟨u, hu, rfl⟩ := List.mem_map.1 hwc
      exact scalar_wcOf (hus u hu)
  · rintro ⟨us, hus, rfl⟩
    exact ⟨_, explode_flatten hus⟩

theorem utf8_correct_euro : (implode [0x41, 0x20ac] >>= explode) = .ok [0x41, 0x20ac] :=
  utf8_correct.1 _ (by simp [Scalar, maxCodePoint])

end SmlNj.UTF8
