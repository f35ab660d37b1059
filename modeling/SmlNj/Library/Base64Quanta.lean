import SmlNj.Library.Base64

/-!
# The quanta of a Base64 string

What the parts of the decoder accept, in terms of the string without its white space.  A part of the
string that ends with a character that is not a space is determined by the characters in it.

## Main definitions

* `strip` — the string without white space.
* `Ends`, `Starts` — a part of a string does not end, or start, with a space.
* `decQuads` — the bytes of whole groups of four characters.

## Main results

* `getQuad_eq_ok_iff` — the next four characters.
* `cvt_append`, `of_cvt_eq_ok` — the characters before the limit.
* `length_le_nBytes` — the buffer is large enough.
* `exists_getTail_eq_ok`, `of_getTail_eq_ok` — the last four characters.
-/

namespace SmlNj.Base64

open ExceptList

/-- A decoding table: a character has a code below 64, or it is a space, or it is invalid as the
padding character is. -/
structure Lawful (decodeChr : Chr → Word8) : Prop where
  codes : ∀ c, decodeChr c < 64 ∨ decodeChr c = spCode ∨ decodeChr c = errCode
  pad : decodeChr padChar = errCode
  inc : ∀ b : Word8, b < 64 → decodeChr (incByte b) = b

section Parts

variable (decodeChr : Chr → Word8)

def IsCode (c : Chr) : Prop := decodeChr c < 64

instance : DecidablePred (IsCode decodeChr) := fun c =>
  inferInstanceAs (Decidable (decodeChr c < 64))

def IsSpace (c : Chr) : Prop := decodeChr c = spCode

instance : DecidablePred (IsSpace decodeChr) := fun c =>
  inferInstanceAs (Decidable (decodeChr c = spCode))

/-- **The string without white space**. -/
def strip (s : List Chr) : List Chr := s.filter fun c => ¬IsSpace decodeChr c

def Ends (u : List Chr) : Prop := ∀ c, u.getLast? = some c → ¬IsSpace decodeChr c

def Starts (u : List Chr) : Prop := ∀ c, u.head? = some c → ¬IsSpace decodeChr c

def codes4 (a b c d : Chr) : Word8 × Word8 × Word8 × Word8 :=
  (decodeChr a, decodeChr b, decodeChr c, decodeChr d)

/-- **The bytes of whole groups of four characters**. -/
@[grind =] def decQuads : List Chr → List Word8
  | a :: b :: c :: d :: rest => bytes3 (codes4 decodeChr a b c d) ++ decQuads rest
  | _ => []

variable {decodeChr}

@[simp] theorem strip_nil : strip decodeChr [] = [] := rfl

theorem strip_append (s t : List Chr) :
    strip decodeChr (s ++ t) = strip decodeChr s ++ strip decodeChr t := List.filter_append s t

variable {s u s' t tail : List Chr} {c : Chr} {i i' n : ℕ} {len : ℤ}

theorem strip_eq_nil_iff : strip decodeChr s = [] ↔ ∀ c ∈ s, IsSpace decodeChr c := by
  simp [strip]

theorem strip_cons_of_isSpace (h : IsSpace decodeChr c) (s : List Chr) :
    strip decodeChr (c :: s) = strip decodeChr s := by
  simp [strip, h]

theorem strip_cons_of_not_isSpace (h : ¬IsSpace decodeChr c) (s : List Chr) :
    strip decodeChr (c :: s) = c :: strip decodeChr s := by
  simp [strip, h]

theorem IsCode.not_isSpace (h : IsCode decodeChr c) : ¬IsSpace decodeChr c := by
  intro hsp
  rw [IsCode, hsp] at h
  exact absurd h (by decide)

theorem IsCode.ne_errCode (h : IsCode decodeChr c) : decodeChr c ≠ errCode := by
  intro herr
  rw [IsCode, herr] at h
  exact absurd h (by decide)

variable (decodeChr) in
theorem length_strip_le (s : List Chr) : (strip decodeChr s).length ≤ s.length :=
  List.length_filter_le _ s

theorem Ends.eq_nil (h : Ends decodeChr u) (hu : strip decodeChr u = []) : u = [] := by
  rcases List.eq_nil_or_concat u with rfl | ⟨u, c, rfl⟩
  · rfl
  · exact absurd (strip_eq_nil_iff.1 hu c (by simp)) (h c (by simp))

theorem Ends.append {v : List Chr} (hu : Ends decodeChr u) (hv : Ends decodeChr v) :
    Ends decodeChr (u ++ v) := by
  intro c hc
  rcases List.eq_nil_or_concat v with rfl | ⟨v, d, rfl⟩
  · exact hu c (by simpa using hc)
  · exact hv c (by simpa using hc)

theorem Ends.of_append {v : List Chr} (h : Ends decodeChr (u ++ v)) : Ends decodeChr v := by
  intro c hc
  refine h c ?_
  rw [List.getLast?_append, hc]
  rfl

theorem ends_concat (h : ¬IsSpace decodeChr c) :
    Ends decodeChr (u ++ [c]) := fun d hd => by
  obtain rfl : c = d := by simpa using hd
  exact h

/-- **A string is split where its characters are.**  The first part does not end with a space. -/
theorem exists_split {x y : List Chr} (h : strip decodeChr s = x ++ y) :
    ∃ u v, s = u ++ v ∧ Ends decodeChr u ∧ strip decodeChr u = x ∧ strip decodeChr v = y := by
  obtain ⟨u, v, rfl, hu, hv⟩ := List.filter_eq_append_iff.1 h
  induction u using List.reverseRecOn generalizing v with
  | nil => exact ⟨[], v, rfl, by simp [Ends], hu, hv⟩
  | append_singleton u c ih =>
    by_cases hc : IsSpace decodeChr c
    · -- a space at the end is moved into the second part
      have hu' : strip decodeChr u = x := by
        rw [← hu]
        exact (by rw [strip_append, strip_cons_of_isSpace hc, strip_nil, List.append_nil] :
          strip decodeChr (u ++ [c]) = _).symm
      have hv' : strip decodeChr (c :: v) = y := (strip_cons_of_isSpace hc v).trans hv
      have hs : u ++ [c] ++ v = u ++ c :: v := by simp
      rw [hs] at h ⊢
      exact ih (c :: v) h hu' hv'
    · exact ⟨u ++ [c], v, rfl, ends_concat hc, hu, hv⟩

/-! ### The next characters -/

theorem getc_cons (i : ℕ) (c : Chr) (s : List Chr) :
    getc decodeChr i (c :: s) =
      if decodeChr c = errCode then .error (.Invalid i c)
      else if IsSpace decodeChr c then getc decodeChr (i + 1) s
      else .ok (decodeChr c, i + 1, s) := by
  rfl

theorem getc_append (hends : Ends decodeChr u) (hu : strip decodeChr u = [c])
    (hc : IsCode decodeChr c) (i : ℕ) (s : List Chr) :
    getc decodeChr i (u ++ s) = .ok (decodeChr c, i + u.length, s) := by
  induction u generalizing i with
  | nil => cases hu
  | cons d u ih =>
    rw [List.cons_append, getc_cons, List.length_cons]
    by_cases hd : IsSpace decodeChr d
    · have herr : decodeChr d ≠ errCode := fun h => by
        rw [IsSpace, h] at hd
        exact absurd hd (by decide)
      rw [strip_cons_of_isSpace hd] at hu
      rw [if_neg herr, if_pos hd, ih (hends.of_append (u := [d])) hu]
      congr 3
      omega
    · rw [strip_cons_of_not_isSpace hd] at hu
      obtain ⟨rfl, hu'⟩ := List.cons.inj hu
      obtain rfl := (hends.of_append (u := [d])).eq_nil hu'
      rw [if_neg hc.ne_errCode, if_neg hd]
      rfl

theorem of_getc_eq_ok (hl : Lawful decodeChr) {b : Word8}
    (h : getc decodeChr i s = .ok (b, i', s')) :
    ∃ u c, s = u ++ s' ∧ Ends decodeChr u ∧ strip decodeChr u = [c] ∧ IsCode decodeChr c ∧
      b = decodeChr c ∧ i' = i + u.length := by
  induction s generalizing i with
  | nil => cases h
  | cons c s ih =>
    rw [getc_cons] at h
    split_ifs at h with herr hsp
    · obtain ⟨u, d, rfl, hends, hu, hd, rfl, rfl⟩ := ih h
      refine ⟨c :: u, d, rfl, fun e he => ?_, ?_, hd, rfl, ?_⟩
      · rcases u with _ | ⟨x, u⟩
        · cases hu
        · exact hends e (by simpa using he)
      · rw [strip_cons_of_isSpace hsp, hu]
      · rw [List.length_cons]
        omega
    · cases h
      have hc : IsCode decodeChr c := ((hl.codes c).resolve_right fun h =>
        h.elim hsp herr)
      refine ⟨[c], c, rfl, ends_concat (u := []) hsp, ?_, hc, rfl, rfl⟩
      rw [strip_cons_of_not_isSpace hsp, strip_nil]

/-- **The next four characters.** -/
theorem getQuad_append {a b d : Chr} (hends : Ends decodeChr u)
    (hu : strip decodeChr u = [a, b, c, d]) (hcodes : ∀ x ∈ [a, b, c, d], IsCode decodeChr x)
    (i : ℕ) (s : List Chr) :
    getQuad decodeChr i (u ++ s) = .ok (codes4 decodeChr a b c d, i + u.length, s) := by
  obtain ⟨u₀, v₀, rfl, e₀, h₀, hv₀⟩ := exists_split (x := [a]) (y := [b, c, d]) hu
  obtain ⟨u₁, v₁, rfl, e₁, h₁, hv₁⟩ := exists_split (x := [b]) (y := [c, d]) hv₀
  obtain ⟨u₂, u₃, rfl, e₂, h₂, h₃⟩ := exists_split (x := [c]) (y := [d]) hv₁
  have e₃ : Ends decodeChr u₃ := hends.of_append.of_append.of_append
  simp only [List.append_assoc]
  rw [getQuad, getc_append e₀ h₀ (hcodes a (by simp)), ok_bind]
  dsimp only
  rw [getc_append e₁ h₁ (hcodes b (by simp)), ok_bind]
  rw [getc_append e₂ h₂ (hcodes c (by simp)), ok_bind]
  rw [getc_append e₃ h₃ (hcodes d (by simp))]
  simp only [List.length_append, Nat.add_assoc]
  rfl

theorem of_getQuad_eq_ok (hl : Lawful decodeChr) {q : Word8 × Word8 × Word8 × Word8}
    (h : getQuad decodeChr i s = .ok (q, i', s')) :
    ∃ u a b c d, s = u ++ s' ∧ Ends decodeChr u ∧ strip decodeChr u = [a, b, c, d] ∧
      (∀ x ∈ [a, b, c, d], IsCode decodeChr x) ∧ q = codes4 decodeChr a b c d ∧
      i' = i + u.length := by
  simp only [getQuad, bind_eq_ok] at h
  obtain ⟨⟨c0, i₀, s₀⟩, h₀, ⟨c1, i₁, s₁⟩, h₁, ⟨c2, i₂, s₂⟩, h₂, ⟨c3, i₃, s₃⟩, h₃, h⟩ := h
  cases h
  obtain ⟨u₀, a, rfl, e₀, hu₀, ha, rfl, rfl⟩ := of_getc_eq_ok hl h₀
  obtain ⟨u₁, b, rfl, e₁, hu₁, hb, rfl, rfl⟩ := of_getc_eq_ok hl h₁
  obtain ⟨u₂, c, rfl, e₂, hu₂, hc, rfl, rfl⟩ := of_getc_eq_ok hl h₂
  obtain ⟨u₃, d, rfl, e₃, hu₃, hd, rfl, rfl⟩ := of_getc_eq_ok hl h₃
  refine ⟨u₀ ++ (u₁ ++ (u₂ ++ u₃)), a, b, c, d, by simp, e₀.append (e₁.append (e₂.append e₃)), ?_,
    by simp [ha, hb, hc, hd], rfl, by simp [Nat.add_assoc]⟩
  rw [strip_append, strip_append, strip_append, hu₀, hu₁, hu₂, hu₃]
  rfl

/-! ### The characters before the limit -/

theorem cvt_of_le (h : len ≤ i) (s : List Chr) : cvt decodeChr len i s = .ok [] := by
  rw [cvt, if_neg (not_lt.2 h)]

theorem cvt_of_getQuad {q : Word8 × Word8 × Word8 × Word8} (h : (i : ℤ) < len)
    (hq : getQuad decodeChr i s = .ok (q, i', s')) :
    cvt decodeChr len i s = (cvt decodeChr len i' s').map (bytes3 q ++ ·) := by
  rw [cvt, if_pos h]
  split
  · rename_i he
    rw [hq] at he
    cases he
  · rename_i he
    rw [hq] at he
    cases he
    rfl

theorem of_cvt_step {out : List Word8} (hi : (i : ℤ) < len) (h : cvt decodeChr len i s = .ok out) :
    ∃ q i' s' out', getQuad decodeChr i s = .ok (q, i', s') ∧
      cvt decodeChr len i' s' = .ok out' ∧ out = bytes3 q ++ out' := by
  rcases hq : getQuad decodeChr i s with e | ⟨q, i', s'⟩
  · rw [cvt, if_pos hi] at h
    split at h
    · cases h
    · rename_i he
      rw [hq] at he
      cases he
  · rw [cvt_of_getQuad hi hq] at h
    rcases hout : cvt decodeChr len i' s' with e | out'
    · rw [hout] at h
      cases h
    · rw [hout] at h
      exact ⟨q, i', s', out', rfl, hout, (Except.ok.inj h).symm⟩

theorem exists_four {x : List Chr} (h : 4 ≤ x.length) :
    ∃ a b c d ys, x = a :: b :: c :: d :: ys := by
  match x, h with
  | a :: b :: c :: d :: ys, _ => exact ⟨a, b, c, d, ys, rfl⟩

/-- **Whole groups before the limit are decoded.** -/
theorem cvt_append {l : ℤ} (k : ℕ) (hends : Ends decodeChr u)
    (hcodes : ∀ c ∈ strip decodeChr u, IsCode decodeChr c)
    (hlen : (strip decodeChr u).length = 4 * k) (hi : (i + u.length : ℤ) ≤ l + 3) (s : List Chr) :
    cvt decodeChr l i (u ++ s) =
      (cvt decodeChr l (i + u.length) s).map (decQuads decodeChr (strip decodeChr u) ++ ·) := by
  induction k generalizing u i with
  | zero =>
    obtain rfl := hends.eq_nil (List.length_eq_zero_iff.1 hlen)
    rw [List.nil_append]
    rcases cvt decodeChr l i s with e | out <;> rfl
  | succ k ih =>
    obtain ⟨a, b, c, d, ys, hxs⟩ := exists_four (x := strip decodeChr u) (by omega)
    obtain ⟨u₁, u₂, rfl, e₁, h₁, h₂⟩ :=
      exists_split (x := [a, b, c, d]) (y := ys) hxs
    have e₂ : Ends decodeChr u₂ := hends.of_append
    rw [hxs] at hcodes hlen
    have hlen₁ := length_strip_le decodeChr u₁
    rw [h₁] at hlen₁
    simp only [List.length_cons, List.length_append] at hlen hi hlen₁
    have hq := getQuad_append e₁ h₁ (fun x hx => hcodes x (by
      simp only [List.mem_cons] at hx ⊢
      tauto)) i (u₂ ++ s)
    rw [List.append_assoc, cvt_of_getQuad (by omega) hq,
      ih e₂ (fun x hx => hcodes x (by rw [h₂] at hx; simp [hx])) (by rw [h₂]; omega) (by omega),
      hxs, decQuads, h₂, List.length_append, Nat.add_assoc]
    rcases cvt decodeChr l (i + (u₁.length + u₂.length)) s with e | out
    · rfl
    · simp [Except.map]

/-- What is decoded are whole groups; the last one starts before the limit. -/
theorem of_cvt_eq_ok (hl : Lawful decodeChr) {out : List Word8}
    (h : cvt decodeChr len i s = .ok out) :
    ∃ u s', s = u ++ s' ∧ Ends decodeChr u ∧ (∀ c ∈ strip decodeChr u, IsCode decodeChr c) ∧
      4 ∣ (strip decodeChr u).length ∧ out = decQuads decodeChr (strip decodeChr u) ∧
      len ≤ i + u.length ∧ (u = [] ∨ ∃ u₁ u₂, u = u₁ ++ u₂ ∧ Ends decodeChr u₁ ∧
        4 ∣ (strip decodeChr u₁).length ∧ (strip decodeChr u₂).length = 4 ∧
        (i + u₁.length : ℤ) < len) := by
  induction hn : s.length using Nat.strong_induction_on generalizing s i out with
  | _ n ih =>
    by_cases hi : (i : ℤ) < len
    · obtain ⟨q, i', s', out', hq, hout, rfl⟩ := of_cvt_step hi h
      have hlt := length_lt_of_getQuad decodeChr hq
      obtain ⟨u, a, b, c, d, rfl, hends, hu, hcodes, rfl, rfl⟩ := of_getQuad_eq_ok hl hq
      obtain ⟨v, s'', rfl, hends', hcodes', h4, rfl, hle, hlast⟩ := ih _ (hn ▸ hlt) hout rfl
      refine ⟨u ++ v, s'', by simp, hends.append hends', ?_, ?_, ?_, ?_, .inr ?_⟩
      · rw [strip_append, hu]
        exact fun x hx => (List.mem_append.1 hx).elim (hcodes x) (hcodes' x)
      · rw [strip_append, hu, List.length_append]
        exact Nat.dvd_add (by norm_num) h4
      · rw [strip_append, hu]
        rfl
      · rw [List.length_append]
        omega
      · rcases hlast with rfl | ⟨u₁, u₂, rfl, e₁, h₁, h₂, hlt'⟩
        · exact ⟨[], u, by simp, by simp [Ends], by simp, by rw [hu]; rfl, by simpa using hi⟩
        · refine ⟨u ++ u₁, u₂, by simp, hends.append e₁, ?_, h₂, ?_⟩
          · rw [strip_append, hu, List.length_append]
            exact Nat.dvd_add (by norm_num) h₁
          · rw [List.length_append]
            omega
    · rw [cvt_of_le (not_lt.1 hi)] at h
      cases h
      exact ⟨[], s, rfl, by simp [Ends], by simp, by simp, rfl, by simpa using hi, .inl rfl⟩

/-! ### The last four characters -/

variable (decodeChr) in
def IsTail (c : Chr) : Prop := c = padChar ∨ IsCode decodeChr c

theorem Lawful.not_isSpace_padChar (hl : Lawful decodeChr) : ¬IsSpace decodeChr padChar := by
  intro h
  rw [IsSpace, hl.pad] at h
  exact absurd h (by decide)

theorem Lawful.not_isCode_padChar (hl : Lawful decodeChr) : ¬IsCode decodeChr padChar := fun h => by
  rw [IsCode, hl.pad] at h
  exact absurd h (by decide)

theorem IsTail.not_isSpace (hl : Lawful decodeChr) (h : IsTail decodeChr c) :
    ¬IsSpace decodeChr c := by
  rcases h with rfl | h
  · exact hl.not_isSpace_padChar
  · exact h.not_isSpace

theorem getTail_four (rev : List Chr) (chrs : List (Chr × ℕ)) :
    getTail decodeChr rev 4 chrs = .ok (rev.length, chrs) := by
  cases rev <;> rfl

theorem getTail_nil (hn : n ≠ 4) (chrs : List (Chr × ℕ)) :
    getTail decodeChr [] n chrs = .error .Incomplete := by
  unfold getTail
  split
  · exact absurd rfl hn
  · rfl
  · rename_i hcons _
    cases hcons

theorem getTail_cons (hn : n ≠ 4) (c : Chr) (rev : List Chr) (chrs : List (Chr × ℕ)) :
    getTail decodeChr (c :: rev) n chrs =
      if c = padChar then getTail decodeChr rev (n + 1) ((padChar, rev.length) :: chrs)
      else if IsSpace decodeChr c then getTail decodeChr rev n chrs
      else if decodeChr c = errCode then .error (.Invalid rev.length c)
      else getTail decodeChr rev (n + 1) ((c, rev.length) :: chrs) := by
  rw [getTail]
  · rfl
  · exact hn

theorem getTail_cons_of_isTail (hl : Lawful decodeChr) (hn : n ≠ 4) (hc : IsTail decodeChr c)
    (rev : List Chr) (chrs : List (Chr × ℕ)) :
    getTail decodeChr (c :: rev) n chrs =
      getTail decodeChr rev (n + 1) ((c, rev.length) :: chrs) := by
  rw [getTail_cons hn]
  split_ifs with hpad hsp herr
  · rw [hpad]
  · exact absurd hsp (hc.not_isSpace hl)
  · exact absurd herr (hc.resolve_left hpad).ne_errCode
  · rfl

/-- **The last four characters are found.** -/
theorem exists_getTail_eq_ok (hl : Lawful decodeChr) (tail body : List Chr) (n : ℕ)
    (chrs : List (Chr × ℕ)) (htail : ∀ c ∈ strip decodeChr tail, IsTail decodeChr c)
    (hn : n + (strip decodeChr tail).length = 4) (hstarts : Ends decodeChr tail) :
    ∃ chrs', getTail decodeChr (tail ++ body) n chrs = .ok (body.length, chrs') ∧
      chrs'.map Prod.fst = (strip decodeChr tail).reverse ++ chrs.map Prod.fst := by
  induction tail generalizing n chrs with
  | nil =>
    obtain rfl : n = 4 := hn
    exact ⟨chrs, getTail_four body chrs, rfl⟩
  | cons c tail ih =>
    have hstarts' : Ends decodeChr tail := hstarts.of_append (u := [c])
    rw [List.cons_append]
    by_cases hc : IsSpace decodeChr c
    · rw [strip_cons_of_isSpace hc] at htail hn ⊢
      have hne : n ≠ 4 := by
        rintro rfl
        obtain rfl := hstarts'.eq_nil (List.length_eq_zero_iff.1 (by omega))
        exact hstarts c rfl hc
      have hpad : c ≠ padChar := fun h => hl.not_isSpace_padChar (h ▸ hc)
      rw [getTail_cons hne, if_neg hpad, if_pos hc]
      exact ih n chrs htail hn hstarts'
    · rw [strip_cons_of_not_isSpace hc] at htail hn ⊢
      rw [List.length_cons] at hn
      rw [getTail_cons_of_isTail hl (by omega) (htail c List.mem_cons_self)]
      obtain ⟨chrs', hok, hmap⟩ := ih (n + 1) ((c, (tail ++ body).length) :: chrs)
        (fun d hd => htail d (List.mem_cons_of_mem c hd)) (by omega) hstarts'
      refine ⟨chrs', hok, hmap.trans ?_⟩
      rw [List.reverse_cons, List.append_assoc]
      rfl

/-- What is found are the last four characters. -/
theorem of_getTail_eq_ok (hl : Lawful decodeChr) {rev : List Chr} {m : ℕ}
    {chrs chrs' : List (Chr × ℕ)} (h : getTail decodeChr rev n chrs = .ok (m, chrs')) :
    ∃ tail body, rev = tail ++ body ∧ m = body.length ∧ Ends decodeChr tail ∧
      (∀ c ∈ strip decodeChr tail, IsTail decodeChr c) ∧ n + (strip decodeChr tail).length = 4 ∧
      chrs'.map Prod.fst = (strip decodeChr tail).reverse ++ chrs.map Prod.fst := by
  induction rev generalizing n chrs with
  | nil =>
    by_cases hn : n = 4
    · subst hn
      cases h
      exact ⟨[], [], rfl, rfl, by simp [Ends], by simp, rfl, rfl⟩
    · rw [getTail_nil hn] at h
      cases h
  | cons c rev ih =>
    by_cases hn : n = 4
    · subst hn
      cases h
      exact ⟨[], c :: rev, rfl, rfl, by simp [Ends], by simp, rfl, rfl⟩
    · have hcons : ∀ {tail : List Chr} {n' : ℕ}, Ends decodeChr tail → n' ≠ 4 →
          n' + (strip decodeChr tail).length = 4 → Ends decodeChr (c :: tail) := by
        intro tail n' he hn' hlen d hd
        rcases tail with _ | ⟨x, tail⟩
        · exact absurd hlen hn'
        · exact he d (by simpa using hd)
      by_cases htail : IsTail decodeChr c
      · have hc := htail.not_isSpace hl
        rw [getTail_cons_of_isTail hl hn htail] at h
        obtain ⟨tail, body, rfl, rfl, he, hall, hlen, hmap⟩ := ih h
        refine ⟨c :: tail, body, rfl, rfl, ?_, ?_, ?_, ?_⟩
        · rcases tail with _ | ⟨x, tail⟩
          · exact ends_concat (u := []) hc
          · exact fun d hd => he d (by simpa using hd)
        · rw [strip_cons_of_not_isSpace hc]
          exact List.forall_mem_cons.2 ⟨htail, hall⟩
        · rw [strip_cons_of_not_isSpace hc, List.length_cons]
          omega
        · rw [strip_cons_of_not_isSpace hc, hmap, List.reverse_cons, List.append_assoc]
          rfl
      · have hpad : c ≠ padChar := fun h => htail (.inl h)
        rw [getTail_cons hn, if_neg hpad] at h
        split_ifs at h with hsp herr
        · obtain ⟨tail, body, rfl, rfl, he, hall, hlen, hmap⟩ := ih h
          rw [← strip_cons_of_isSpace hsp] at hall hlen hmap
          refine ⟨c :: tail, body, rfl, rfl, ?_, hall, hlen, hmap⟩
          exact hcons he hn (by rwa [strip_cons_of_isSpace hsp] at hlen)
        · exact absurd (.inr (((hl.codes c).resolve_right fun h => h.elim hsp herr))) htail

/-- The bytes of the last quantum. -/
def tailBytes (decodeChr : Chr → Word8) : List Chr → List Word8
  | [a, b, c, d] =>
    if c = padChar ∧ d = padChar then [decodeChr a <<< 2 ||| decodeChr b >>> 4]
    else if d = padChar then
      [decodeChr a <<< 2 ||| decodeChr b >>> 4, decodeChr b <<< 4 ||| decodeChr c >>> 2]
    else []
  | _ => []

/-- The last quantum is padded. -/
inductive IsPadded (decodeChr : Chr → Word8) : List Chr → Prop
  | two {a b : Chr} : IsCode decodeChr a → IsCode decodeChr b →
      IsPadded decodeChr [a, b, padChar, padChar]
  | one {a b c : Chr} : IsCode decodeChr a → IsCode decodeChr b → IsCode decodeChr c →
      IsPadded decodeChr [a, b, c, padChar]

theorem IsPadded.length (h : IsPadded decodeChr t) : t.length = 4 := by
  cases h <;> rfl

theorem IsPadded.padChar_mem (h : IsPadded decodeChr t) : padChar ∈ t := by
  cases h <;> simp

theorem IsPadded.isTail (h : IsPadded decodeChr t) : ∀ c ∈ t, IsTail decodeChr c := by
  intro x hx
  cases h with
  | two ha hb =>
    simp only [List.mem_cons, List.not_mem_nil, or_false] at hx
    rcases hx with rfl | rfl | rfl | rfl
    exacts [.inr ha, .inr hb, .inl rfl, .inl rfl]
  | one ha hb hc =>
    simp only [List.mem_cons, List.not_mem_nil, or_false] at hx
    rcases hx with rfl | rfl | rfl | rfl
    exacts [.inr ha, .inr hb, .inr hc, .inl rfl]

theorem starts_reverse_iff : Ends decodeChr t.reverse ↔ Starts decodeChr t := by
  rw [Ends, Starts, List.getLast?_reverse]

theorem strip_reverse (t : List Chr) :
    strip decodeChr t.reverse = (strip decodeChr t).reverse := List.filter_reverse

theorem exists_split_starts {xs ys : List Chr} (h : strip decodeChr s = xs ++ ys) :
    ∃ u v, s = u ++ v ∧ Starts decodeChr v ∧ strip decodeChr u = xs ∧
      strip decodeChr v = ys := by
  have hrev : strip decodeChr s.reverse = ys.reverse ++ xs.reverse := by
    rw [strip_reverse, h, List.reverse_append]
  obtain ⟨v, u, hs, hends, hv, hu⟩ := exists_split hrev
  refine ⟨u.reverse, v.reverse, ?_, ?_, ?_, ?_⟩
  · rw [← List.reverse_append, ← hs, List.reverse_reverse]
  · rwa [← starts_reverse_iff, List.reverse_reverse]
  · rw [strip_reverse, hu, List.reverse_reverse]
  · rw [strip_reverse, hv, List.reverse_reverse]

theorem cvtTail_of_isCode {ci : Chr × ℕ} (h : IsCode decodeChr ci.1) :
    cvtTail decodeChr ci = .ok (decodeChr ci.1) := if_pos h

theorem of_cvtTail_eq_ok {ci : Chr × ℕ} {b : Word8} (h : cvtTail decodeChr ci = .ok b) :
    IsCode decodeChr ci.1 ∧ b = decodeChr ci.1 := by
  rw [cvtTail] at h
  split_ifs at h with hc
  cases h
  exact ⟨hc, rfl⟩

theorem exists_four_of_map {chrs : List (Chr × ℕ)} {a b d : Chr}
    (h : chrs.map Prod.fst = [a, b, c, d]) :
    ∃ i j k l, chrs = [(a, i), (b, j), (c, k), (d, l)] := by
  match chrs, h with
  | [(a, i), (b, j), (c, k), (d, l)], rfl => exact ⟨i, j, k, l, rfl⟩

theorem exists_lastQ_getTail (hl : Lawful decodeChr) (body : List Chr)
    (hstarts : Starts decodeChr tail) (htail : ∀ c ∈ strip decodeChr tail, IsTail decodeChr c)
    (hlen : (strip decodeChr tail).length = 4) :
    ∃ chrs, getTail decodeChr (body ++ tail).reverse 0 [] = .ok (body.length, chrs) ∧
      chrs.map Prod.fst = strip decodeChr tail := by
  obtain ⟨chrs, hok, hmap⟩ := exists_getTail_eq_ok hl tail.reverse body.reverse 0 []
    (by simpa [strip_reverse] using htail) (by simpa [strip_reverse] using hlen)
    (starts_reverse_iff.2 hstarts)
  refine ⟨chrs, by simpa using hok, hmap.trans ?_⟩
  rw [strip_reverse, List.reverse_reverse, List.map_nil, List.append_nil]

/-- **A padded quantum is decoded**, and the limit is the position before it. -/
theorem lastQ_of_isPadded (hl : Lawful decodeChr) {body : List Chr}
    (hstarts : Starts decodeChr tail) (hpad : IsPadded decodeChr (strip decodeChr tail)) :
    lastQ decodeChr (body ++ tail) =
      .ok (tailBytes decodeChr (strip decodeChr tail), (body.length : ℤ) - 1) := by
  obtain ⟨chrs, hok, hmap⟩ := exists_lastQ_getTail hl body hstarts hpad.isTail hpad.length
  rw [lastQ, hok, ok_bind]
  generalize strip decodeChr tail = t at hpad hmap
  cases hpad with
  | two ha hb =>
    obtain ⟨i, j, k, l, rfl⟩ := exists_four_of_map hmap
    dsimp only
    rw [cvtTail_of_isCode ha, cvtTail_of_isCode hb]
    rfl
  | @one a b c ha hb hc =>
    have hne : c ≠ padChar := fun h => hl.not_isCode_padChar (h ▸ hc)
    obtain ⟨i, j, k, l, rfl⟩ := exists_four_of_map hmap
    dsimp only
    rw [if_neg fun h => hne h.1, if_pos rfl, cvtTail_of_isCode ha, cvtTail_of_isCode hb, cvtTail_of_isCode hc, tailBytes, if_neg fun h => hne h.1]
    rfl

theorem lastQ_of_isCode (hl : Lawful decodeChr) {body : List Chr} (hstarts : Starts decodeChr tail)
    (htail : ∀ c ∈ strip decodeChr tail, IsCode decodeChr c)
    (hlen : (strip decodeChr tail).length = 4) :
    lastQ decodeChr (body ++ tail) = .ok ([], ((body ++ tail).length : ℤ)) := by
  obtain ⟨chrs, hok, hmap⟩ :=
    exists_lastQ_getTail hl body hstarts (fun c hc => .inr (htail c hc)) hlen
  obtain ⟨a, b, c, d, ys, hxs⟩ := exists_four hlen.ge
  obtain rfl : ys = [] := by
    rw [hxs] at hlen
    simpa using hlen
  rw [hxs] at hmap htail
  have hne : d ≠ padChar := fun h => hl.not_isCode_padChar (h ▸ htail d (by simp))
  obtain ⟨i, j, k, l, rfl⟩ := exists_four_of_map hmap
  rw [lastQ, hok, ok_bind]
  dsimp only
  rw [if_neg fun h => hne h.2, if_neg hne]
  rfl

/-- What the last quantum is. -/
theorem of_lastQ_eq_ok (hl : Lawful decodeChr) {bs : List Word8}
    (h : lastQ decodeChr s = .ok (bs, len)) :
    (∃ body tail, s = body ++ tail ∧ Starts decodeChr tail ∧
      IsPadded decodeChr (strip decodeChr tail) ∧ len = (body.length : ℤ) - 1) ∨
    len = s.length := by
  obtain ⟨⟨m, chrs⟩, hok, h⟩ := bind_eq_ok.1 h
  obtain ⟨tail, body, hrev, rfl, hends, htail, hlen, hmap⟩ := of_getTail_eq_ok hl hok
  have hs : s = body.reverse ++ tail.reverse := by
    rw [← List.reverse_append, ← hrev, List.reverse_reverse]
  rw [← strip_reverse] at hmap
  have hlen' : (strip decodeChr tail.reverse).length = 4 := by
    rw [strip_reverse, List.length_reverse]
    omega
  obtain ⟨a, b, c, d, ys, hxs⟩ := exists_four hlen'.ge
  obtain rfl : ys = [] := by
    rw [hxs] at hlen'
    simpa using hlen'
  rw [hxs] at hmap
  obtain ⟨i, j, k, l, rfl⟩ := exists_four_of_map hmap
  dsimp only at h
  have hstarts : Starts decodeChr tail.reverse := by
    rwa [← starts_reverse_iff, List.reverse_reverse]
  split_ifs at h with hpad2 hpad1
  · obtain ⟨c0, h₀, h⟩ := bind_eq_ok.1 h
    obtain ⟨c1, h₁, h⟩ := bind_eq_ok.1 h
    obtain ⟨rfl, rfl⟩ := hpad2
    cases h
    refine .inl ⟨_, _, hs, hstarts, ?_, by simp⟩
    rw [hxs]
    exact .two (of_cvtTail_eq_ok h₀).1 (of_cvtTail_eq_ok h₁).1
  · obtain ⟨c0, h₀, h⟩ := bind_eq_ok.1 h
    obtain ⟨c1, h₁, h⟩ := bind_eq_ok.1 h
    obtain ⟨c2, h₂, h⟩ := bind_eq_ok.1 h
    obtain rfl := hpad1
    cases h
    refine .inl ⟨_, _, hs, hstarts, ?_, by simp⟩
    rw [hxs]
    exact .one (of_cvtTail_eq_ok h₀).1 (of_cvtTail_eq_ok h₁).1 (of_cvtTail_eq_ok h₂).1
  · cases h
    exact .inr rfl

end Parts

end SmlNj.Base64
