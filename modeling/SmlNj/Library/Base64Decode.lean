import Mathlib.Data.List.TakeWhile
import SmlNj.Library.Base64Quanta

/-!
# Which strings Base64 decodes

The characters before a padded last quantum are decoded in groups of four, as long as a group starts
before the limit.  The limit is the position before the quantum, but it should be that of the
quantum: so a single character between the whole groups and the quantum is dropped, and two or more
characters there, even spaces, make the decoder read into the quantum.

## Main definitions

* `WellFormed` — whole groups and possibly a padded quantum.
* `Misread` — the strings for which the decoder goes wrong.

## Main results

* `wellFormed_or_misread` — what the decoder accepts.
* `decode_correct_iff` — the round trip, and the rejection of ill-formed strings, hold exactly for
  the strings that are not misread.
-/

namespace SmlNj.Base64

open ExceptList

variable {s pre rest tail : List Chr}

section Decode

variable (decodeChr : Chr → Word8)

/-- **A well-formed padded string**, without white space. -/
def WellFormed (s : List Chr) : Prop :=
  ∃ q t, s = q ++ t ∧ (∀ c ∈ q, IsCode decodeChr c) ∧ 4 ∣ q.length ∧
    (t = [] ∨ IsPadded decodeChr t)

/-- A string of whole groups, some characters after them and a padded quantum. -/
structure Parts (s pre rest tail : List Chr) : Prop where
  eq : s = pre ++ rest ++ tail
  ends : Ends decodeChr pre
  codes : ∀ c ∈ strip decodeChr pre, IsCode decodeChr c
  groups : 4 ∣ (strip decodeChr pre).length
  starts : Starts decodeChr tail
  padded : IsPadded decodeChr (strip decodeChr tail)

/-- **The strings that are misread.**  Between the whole groups and the padded quantum there are two
or more spaces, in an encoding; or a single character that is not a space; or two or more characters
of which one to three are not spaces, and these are, with the first ones of the quantum, four
characters of the alphabet. -/
def Misread (s : List Chr) : Prop :=
  ∃ pre rest tail, Parts decodeChr s pre rest tail ∧
    ((strip decodeChr rest = [] ∧ 2 ≤ rest.length ∧ ∃ v, strip decodeChr s = encode v) ∨
      (strip decodeChr rest ≠ [] ∧ rest.length = 1) ∨
      (strip decodeChr rest ≠ [] ∧ (strip decodeChr rest).length < 4 ∧ 2 ≤ rest.length ∧
        (∀ c ∈ strip decodeChr rest, IsCode decodeChr c) ∧
        ∀ c ∈ (strip decodeChr tail).take (4 - (strip decodeChr rest).length),
          IsCode decodeChr c))

variable {decodeChr}

/-! ### Trailing spaces -/

variable (decodeChr) in
theorem exists_trim (s : List Chr) :
    ∃ sp, s = trim decodeChr s ++ sp ∧ strip decodeChr sp = [] ∧
      Ends decodeChr (trim decodeChr s) := by
  refine ⟨(s.reverse.takeWhile fun c => decodeChr c = spCode).reverse, ?_, ?_, ?_⟩
  · rw [trim, ← List.reverse_append, List.takeWhile_append_dropWhile, List.reverse_reverse]
  · rw [strip_eq_nil_iff]
    intro c hc
    simpa [IsSpace] using List.mem_takeWhile_imp (List.mem_reverse.1 hc)
  · intro c hc
    rw [trim, List.getLast?_reverse] at hc
    have := List.head?_dropWhile_not (fun c => decide (decodeChr c = spCode)) s.reverse
    rw [hc] at this
    simpa [IsSpace] using this

variable (decodeChr) in
theorem strip_trim (s : List Chr) : strip decodeChr (trim decodeChr s) = strip decodeChr s := by
  obtain ⟨sp, hs, hsp, -⟩ := exists_trim decodeChr s
  conv_rhs => rw [hs, strip_append, hsp, List.append_nil]

theorem trim_append {u sp : List Chr} (hu : Ends decodeChr u) (hsp : strip decodeChr sp = []) :
    trim decodeChr (u ++ sp) = u := by
  obtain ⟨sp', hs, hsp', hends⟩ := exists_trim decodeChr (u ++ sp)
  rcases List.append_eq_append_iff.1 hs with ⟨w, hw, hw'⟩ | ⟨w, hw, hw'⟩
  · rw [hw] at hends ⊢
    have hnil : strip decodeChr w = [] := by
      rw [hw', strip_append] at hsp
      exact (List.append_eq_nil_iff.1 hsp).1
    rw [hends.of_append.eq_nil hnil, List.append_nil]
  · rw [hw] at hu
    have hnil : strip decodeChr w = [] := by
      have h := hsp'
      rw [hw', strip_append] at h
      exact (List.append_eq_nil_iff.1 h).1
    have := hu.of_append.eq_nil hnil
    rw [this, List.append_nil] at hw
    exact hw.symm

theorem decode64_eq (s : List Chr) :
    decode64 decodeChr s = if trim decodeChr s = [] then .ok []
      else lastQ decodeChr (trim decodeChr s) >>= fun r =>
        (cvt decodeChr r.2 0 (trim decodeChr s)).map (· ++ r.1) := by
  rw [decode64]
  dsimp only
  split_ifs with h
  · rfl
  · rcases lastQ decodeChr (trim decodeChr s) with e | ⟨bs, len⟩
    · rfl
    · rw [ok_bind, ok_bind]
      rcases cvt decodeChr len 0 (trim decodeChr s) with e | out <;> rfl

theorem Parts.trim (h : Parts decodeChr s pre rest tail) :
    ∃ tail', Parts decodeChr (Base64.trim decodeChr s) pre rest tail' ∧
      strip decodeChr tail' = strip decodeChr tail ∧ Base64.trim decodeChr s ≠ [] := by
  obtain ⟨tail', sp, htail, hends, hstrip, hsp⟩ :=
    exists_split (y := []) (List.append_nil (strip decodeChr tail)).symm
  have hne : tail' ≠ [] := by
    rintro rfl
    have hlen := h.padded.length
    rw [← hstrip] at hlen
    cases hlen
  have hends' : Ends decodeChr (pre ++ rest ++ tail') := by
    intro c hc
    rw [List.getLast?_append_of_ne_nil _ hne] at hc
    exact hends c hc
  have htrim : Base64.trim decodeChr s = pre ++ rest ++ tail' := by
    rw [h.eq, htail, ← List.append_assoc, trim_append hends' hsp]
  refine ⟨tail', ⟨htrim, h.ends, h.codes, h.groups, fun c hc => h.starts c ?_, ?_⟩, hstrip, ?_⟩
  · rw [htail, List.head?_append_of_ne_nil _ hne]
    exact hc
  · rw [hstrip]
    exact h.padded
  · rw [htrim]
    simp [hne]

/-- **The decoder at the end of the whole groups.** -/
theorem decode64_of_parts (hl : Lawful decodeChr) (h : Parts decodeChr s pre rest tail) :
    ∃ tail', Parts decodeChr (trim decodeChr s) pre rest tail' ∧
      strip decodeChr tail' = strip decodeChr tail ∧
      decode64 decodeChr s =
        (cvt decodeChr ((pre.length + rest.length : ℤ) - 1) pre.length (rest ++ tail')).map
          fun out => decQuads decodeChr (strip decodeChr pre) ++ out ++
            tailBytes decodeChr (strip decodeChr tail) := by
  obtain ⟨tail', h', hstrip, hne⟩ := h.trim
  obtain ⟨k, hk⟩ := h.groups
  refine ⟨tail', h', hstrip, ?_⟩
  rw [decode64_eq, if_neg hne, h'.eq, lastQ_of_isPadded hl h'.starts h'.padded, ok_bind, hstrip]
  rw [List.append_assoc, cvt_append k h.ends h.codes hk
    (by rw [List.length_append]; push_cast; omega), List.length_append]
  push_cast
  rw [Nat.zero_add]
  rcases cvt decodeChr ((pre.length + rest.length : ℤ) - 1) pre.length (rest ++ tail') with e | out
  <;> rfl

/-- **At most one character** before the quantum: it is dropped. -/
theorem decode64_of_le_one (hl : Lawful decodeChr) (h : Parts decodeChr s pre rest tail)
    (hrest : rest.length ≤ 1) :
    decode64 decodeChr s = .ok (decQuads decodeChr (strip decodeChr pre) ++
      tailBytes decodeChr (strip decodeChr tail)) := by
  obtain ⟨tail', -, -, hdec⟩ := decode64_of_parts hl h
  rw [hdec, cvt_of_le (by omega)]
  change Except.ok (_ ++ [] ++ _) = _
  rw [List.append_nil]

/-- **Two or more spaces** before the quantum: the padding is read as a code. -/
theorem decode64_ne_ok (hl : Lawful decodeChr) (h : Parts decodeChr s pre rest tail)
    (hrest : 2 ≤ rest.length) (hsp : strip decodeChr rest = []) (out : List Word8) :
    decode64 decodeChr s ≠ .ok out := by
  obtain ⟨tail', h', hstrip, hdec⟩ := decode64_of_parts hl h
  intro hok
  rw [hdec] at hok
  rcases hcvt : cvt decodeChr ((pre.length + rest.length : ℤ) - 1) pre.length (rest ++ tail')
  · rw [hcvt] at hok
    cases hok
  · obtain ⟨q, i', s', out'', hq, -, -⟩ := of_cvt_step (by omega) hcvt
    obtain ⟨u, a, b, c, d, hu, -, hstripu, hcodes, -, -⟩ := of_getQuad_eq_ok hl hq
    -- the four characters are the quantum
    have heq := congrArg (strip decodeChr) hu
    rw [strip_append, strip_append, hsp, hstripu, List.nil_append] at heq
    have hlen := h'.padded.length
    have hmem := h'.padded.padChar_mem
    rw [heq] at hlen hmem
    have hnil : strip decodeChr s' = [] := by
      exact List.length_eq_zero_iff.1 (by simpa using hlen)
    rw [hnil] at hmem
    exact hl.not_isCode_padChar (hcodes padChar hmem)

theorem Ends.append_left {v : List Chr} (hv : Ends decodeChr v) (hne : v ≠ []) (u : List Chr) :
    Ends decodeChr (u ++ v) := fun c hc =>
    hv c (by rwa [List.getLast?_append_of_ne_nil _ hne] at hc)

/-- **One to three characters** before the quantum are completed by it. -/
theorem exists_decode64_eq_ok (hl : Lawful decodeChr) (h : Parts decodeChr s pre rest tail)
    (hrest : 2 ≤ rest.length) (hlt : (strip decodeChr rest).length < 4)
    (hcodes : ∀ c ∈ strip decodeChr rest, IsCode decodeChr c)
    (hcodes' : ∀ c ∈ (strip decodeChr tail).take (4 - (strip decodeChr rest).length),
      IsCode decodeChr c) : ∃ out, decode64 decodeChr s = .ok out := by
  obtain ⟨tail', h', hstrip, hdec⟩ := decode64_of_parts hl h
  obtain ⟨t₁, t₂, rfl, e₁, h₁, -⟩ := exists_split (s := tail')
    (hstrip.trans (List.take_append_drop (4 - (strip decodeChr rest).length) _).symm)
  have hlen₁ : (strip decodeChr t₁).length = 4 - (strip decodeChr rest).length := by
    rw [h₁, List.length_take, h.padded.length]
    omega
  have hne : t₁ ≠ [] := by
    rintro rfl
    rw [strip_nil, List.length_nil] at hlen₁
    omega
  have hlen : (strip decodeChr (rest ++ t₁)).length = 4 := by
    rw [strip_append, List.length_append]
    omega
  obtain ⟨a, b, c, d, ys, hxs⟩ := exists_four hlen.ge
  obtain rfl : ys = [] := by
    rw [hxs] at hlen
    simpa using hlen
  have hq := getQuad_append (e₁.append_left hne rest) hxs (fun x hx => by
    rw [← hxs, strip_append, h₁] at hx
    exact (List.mem_append.1 hx).elim (hcodes x) (hcodes' x)) pre.length t₂
  rw [hdec, ← List.append_assoc, cvt_of_getQuad (by omega) hq,
    cvt_of_le (by rw [List.length_append]; push_cast; omega)]
  exact ⟨_, rfl⟩

/-! ### What is accepted -/

/-- **A string that is decoded is well formed or misread.** -/
theorem wellFormed_or_misread (hl : Lawful decodeChr) {out : List Word8}
    (h : decode64 decodeChr s = .ok out) :
    WellFormed decodeChr (strip decodeChr s) ∨ Misread decodeChr s := by
  obtain ⟨sp, hs, hsp, -⟩ := exists_trim decodeChr s
  rw [decode64_eq] at h
  split_ifs at h with hnil
  · refine .inl ⟨[], [], ?_, by simp, by simp, .inl rfl⟩
    rw [← strip_trim, hnil]
    rfl
  obtain ⟨⟨bs, len⟩, hlast, hmap⟩ := bind_eq_ok.1 h
  rcases hcvt : cvt decodeChr len 0 (trim decodeChr s) with e | out'
  · dsimp only at hmap
    rw [hcvt] at hmap
    cases hmap
  obtain ⟨u, s', hu, hends, hcodes, hgroups, -, hle, hlastq⟩ := of_cvt_eq_ok hl hcvt
  rcases of_lastQ_eq_ok hl hlast with ⟨body, tail, htrim, hstarts, hpad, rfl⟩ | rfl
  · have hsplit : u ++ s' = body ++ tail := hu.symm.trans htrim
    have hstrip : strip decodeChr s = strip decodeChr body ++ strip decodeChr tail := by
      rw [← strip_trim, htrim, strip_append]
    have htail : strip decodeChr (tail ++ sp) = strip decodeChr tail := by
      rw [strip_append, hsp, List.append_nil]
    have hstarts' : Starts decodeChr (tail ++ sp) := by
      intro c hc
      rcases tail with _ | ⟨d, tail⟩
      · exact absurd hpad.length (by simp)
      · exact hstarts c hc
    have hpad' : IsPadded decodeChr (strip decodeChr (tail ++ sp)) := htail.symm ▸ hpad
    rcases le_or_gt u.length body.length with hub | hub
    · -- the loop stops before the quantum
      obtain ⟨rest, rfl⟩ : ∃ rest, body = u ++ rest :=
        ⟨body.drop u.length, by
          have hpre : u <+: body := List.prefix_of_prefix_length_le ⟨s', hsplit⟩ ⟨tail, rfl⟩ hub
          exact (List.prefix_iff_eq_append.1 hpre).symm⟩
      rw [List.length_append] at hle
      by_cases hrest : strip decodeChr rest = []
      · refine .inl ⟨strip decodeChr u, strip decodeChr tail, ?_, hcodes, hgroups, .inr hpad⟩
        rw [hstrip, strip_append, hrest, List.append_nil]
      · have hne : rest ≠ [] := by
          rintro rfl
          exact hrest rfl
        have hpos := List.length_pos_iff.2 hne
        refine .inr ⟨u, rest, tail ++ sp, ⟨?_, hends, hcodes, hgroups, hstarts', hpad'⟩,
          .inr (.inl ⟨hrest, by omega⟩)⟩
        rw [← List.append_assoc, ← htrim, ← hs]
    · -- the last group reaches into the quantum
      have hune : u ≠ [] := by
        rintro rfl
        exact absurd hub (by simp)
      obtain ⟨u₁, u₂, rfl, e₁, h₁, h₂, hlt⟩ := hlastq.resolve_left hune
      obtain ⟨rest, rfl⟩ : ∃ rest, body = u₁ ++ rest :=
        ⟨body.drop u₁.length, by
          have hpre : u₁ <+: body := List.prefix_of_prefix_length_le
            ⟨u₂ ++ s', by rw [← List.append_assoc, hsplit]⟩ ⟨tail, rfl⟩ (by omega)
          exact (List.prefix_iff_eq_append.1 hpre).symm⟩
      rw [List.append_assoc, List.append_assoc, List.append_cancel_left_eq] at hsplit
      rw [List.length_append, List.length_append] at hub
      rw [List.length_append] at hlt
      obtain ⟨t₁, rfl⟩ : ∃ t₁, u₂ = rest ++ t₁ :=
        ⟨u₂.drop rest.length, by
          have hpre : rest <+: u₂ :=
            List.prefix_of_prefix_length_le ⟨tail, hsplit.symm⟩ ⟨s', rfl⟩ (by omega)
          exact (List.prefix_iff_eq_append.1 hpre).symm⟩
      rw [List.append_assoc, List.append_cancel_left_eq] at hsplit
      have hstript : strip decodeChr tail = strip decodeChr t₁ ++ strip decodeChr s' := by
        rw [← hsplit, strip_append]
      have hlen : (strip decodeChr rest).length + (strip decodeChr t₁).length = 4 := by
        rw [← List.length_append, ← strip_append, h₂]
      have hcodes₂ : ∀ c ∈ strip decodeChr rest ++ strip decodeChr t₁, IsCode decodeChr c := by
        intro c hc
        refine hcodes c ?_
        rw [strip_append, strip_append]
        exact List.mem_append_right _ hc
      -- the quantum starts with a character, which belongs to the group
      have ht₁ : strip decodeChr t₁ ≠ [] := by
        rcases t₁ with _ | ⟨c, t₁⟩
        · simp at hub
        · have hc : ¬IsSpace decodeChr c := hstarts c (by rw [← hsplit]; rfl)
          rw [strip_cons_of_not_isSpace hc]
          simp
      have hpos := List.length_pos_iff.2 ht₁
      have hrest : strip decodeChr rest ≠ [] := by
        intro hnil
        have hlen₁ : (strip decodeChr t₁).length = 4 := by simpa [hnil] using hlen
        have hs'nil : strip decodeChr s' = [] := by
          have htl := hpad.length
          rw [hstript, List.length_append] at htl
          exact List.length_eq_zero_iff.1 (by omega)
        rw [hs'nil, List.append_nil] at hstript
        refine hl.not_isCode_padChar (hcodes₂ padChar (List.mem_append_right _ ?_))
        rw [← hstript]
        exact hpad.padChar_mem
      refine .inr ⟨u₁, rest, tail ++ sp, ⟨?_, e₁, ?_, h₁, hstarts', hpad'⟩,
        .inr (.inr ⟨hrest, by omega, by push_cast at hlt; omega, ?_, ?_⟩)⟩
      · rw [← List.append_assoc, ← htrim, ← hs]
      · intro c hc
        refine hcodes c ?_
        rw [strip_append]
        exact List.mem_append_left _ hc
      · exact fun c hc => hcodes₂ c (List.mem_append_left _ hc)
      · intro c hc
        have htake : 4 - (strip decodeChr rest).length = (strip decodeChr t₁).length := by omega
        rw [htail, hstript, htake, List.take_left] at hc
        exact hcodes₂ c (List.mem_append_right _ hc)
  · -- the whole string was decoded
    have hs' : s' = [] := by
      have hlen := congrArg List.length hu
      rw [List.length_append] at hlen
      exact List.length_eq_zero_iff.1 (by push_cast at hle; omega)
    rw [hs', List.append_nil] at hu
    refine .inl ⟨strip decodeChr s, [], (List.append_nil _).symm, ?_, ?_, .inl rfl⟩
    · rwa [← strip_trim, hu]
    · rwa [← strip_trim, hu]

end Decode

/-! ### The bits of the groups -/

theorem or_lt {x y : Word8} (hx : x < 64) (hy : y < 64) : x ||| y < 64 := by
  have h : x.toNat ||| y.toNat < 2 ^ 6 := Nat.or_lt_two_pow hx hy
  rwa [← BitVec.toNat_or] at h

theorem high_lt (b : Word8) : b >>> 2 < 64 := by
  revert b
  decide

theorem low_lt (b : Word8) : (b &&& 0x3) <<< 4 < 64 ∧ b >>> 4 < 64 ∧ (0xf &&& b) <<< 2 < 64 ∧
    b >>> 6 < 64 ∧ 0x3f &&& b < 64 := by
  revert b
  decide

theorem join_bits (b : Word8) :
    b >>> 2 <<< 2 ||| (b &&& 0x3) <<< 4 >>> 4 = b ∧ b >>> 4 >>> 4 = 0#8 ∧
    (b &&& 0x3) <<< 4 <<< 4 = 0#8 ∧ b >>> 4 <<< 4 ||| (0xf &&& b) <<< 2 >>> 2 = b ∧
    b >>> 6 >>> 2 = 0#8 ∧ (0xf &&& b) <<< 2 <<< 6 = 0#8 ∧ b >>> 6 <<< 6 ||| 0x3f &&& b = b := by
  revert b
  decide

theorem first_byte (b1 b2 : Word8) :
    b1 >>> 2 <<< 2 ||| ((b1 &&& 0x3) <<< 4 ||| b2 >>> 4) >>> 4 = b1 := by
  rw [BitVec.ushiftRight_or_distrib, (join_bits b2).2.1, BitVec.or_zero, (join_bits b1).1]

theorem second_byte (b1 b2 b3 : Word8) :
    ((b1 &&& 0x3) <<< 4 ||| b2 >>> 4) <<< 4 ||| ((0xf &&& b2) <<< 2 ||| b3 >>> 6) >>> 2 = b2 := by
  rw [BitVec.ushiftRight_or_distrib, BitVec.shiftLeft_or_distrib, (join_bits b1).2.2.1,
    (join_bits b3).2.2.2.2.1, BitVec.or_zero, BitVec.zero_or, (join_bits b2).2.2.2.1]

theorem third_byte (b2 b3 : Word8) :
    ((0xf &&& b2) <<< 2 ||| b3 >>> 6) <<< 6 ||| (0x3f &&& b3) = b3 := by
  rw [BitVec.shiftLeft_or_distrib, (join_bits b2).2.2.2.2.2.1, BitVec.zero_or,
    (join_bits b3).2.2.2.2.2.2]

section Encode

variable {decodeChr : Chr → Word8}

theorem Lawful.isCode_incByte (hl : Lawful decodeChr) {b : Word8} (hb : b < 64) :
    IsCode decodeChr (incByte b) := by
  rw [IsCode, hl.inc b hb]
  exact hb

/-- **An encoding is well formed, and its groups have the bytes.** -/
theorem exists_encode_eq (hl : Lawful decodeChr) (v : List Word8) :
    ∃ q t, encode v = q ++ t ∧ (∀ c ∈ q, IsCode decodeChr c) ∧ 4 ∣ q.length ∧
      (t = [] ∨ IsPadded decodeChr t) ∧ decQuads decodeChr q ++ tailBytes decodeChr t = v := by
  induction v using encode.induct with
  | case1 b1 b2 b3 vec ih =>
    obtain ⟨q, t, heq, hq, h4, ht, hv⟩ := ih
    have l₁ := high_lt b1
    have l₂ := or_lt (low_lt b1).1 (low_lt b2).2.1
    have l₃ := or_lt (low_lt b2).2.2.1 (low_lt b3).2.2.2.1
    have l₄ := (low_lt b3).2.2.2.2
    refine ⟨encode3 b1 b2 b3 ++ q, t, ?_, ?_, ?_, ht, ?_⟩
    · rw [encode, heq, List.append_assoc]
    · intro c hc
      rcases List.mem_append.1 hc with hc | hc
      · simp only [encode3, List.mem_cons, List.not_mem_nil, or_false] at hc
        rcases hc with rfl | rfl | rfl | rfl
        exacts [hl.isCode_incByte l₁, hl.isCode_incByte l₂, hl.isCode_incByte l₃,
          hl.isCode_incByte l₄]
      · exact hq c hc
    · rw [List.length_append]
      exact Nat.dvd_add (by simp [encode3]) h4
    · simp only [encode3, List.cons_append, List.nil_append, decQuads, codes4, hl.inc _ l₁,
        hl.inc _ l₂, hl.inc _ l₃, hl.inc _ l₄, bytes3, first_byte, second_byte, third_byte]
      rw [hv]
  | case2 b1 b2 =>
    have l₁ := high_lt b1
    have l₂ := or_lt (low_lt b1).1 (low_lt b2).2.1
    have l₃ := (low_lt b2).2.2.1
    refine ⟨[], encode2 b1 b2, rfl, by simp, by simp, .inr ?_, ?_⟩
    · exact .one (hl.isCode_incByte l₁) (hl.isCode_incByte l₂) (hl.isCode_incByte l₃)
    · have hne : incByte ((0xf &&& b2) <<< 2) ≠ padChar := fun h =>
        hl.not_isCode_padChar (h ▸ hl.isCode_incByte l₃)
      have hsecond := second_byte b1 b2 0#8
      rw [BitVec.zero_ushiftRight, BitVec.or_zero] at hsecond
      rw [decQuads, List.nil_append, encode2, tailBytes, if_neg fun h => hne h.1, if_pos rfl,
        hl.inc _ l₁, hl.inc _ l₂, hl.inc _ l₃, first_byte, hsecond]
      · simp
  | case3 b1 =>
    have l₁ := high_lt b1
    have l₂ := (low_lt b1).1
    refine ⟨[], encode1 b1, rfl, by simp, by simp, .inr ?_, ?_⟩
    · exact .two (hl.isCode_incByte l₁) (hl.isCode_incByte l₂)
    · rw [decQuads, List.nil_append, encode1, tailBytes, if_pos ⟨rfl, rfl⟩, hl.inc _ l₁,
        hl.inc _ l₂, (join_bits b1).1]
      · simp
  | case4 => exact ⟨[], [], rfl, by simp, by simp, .inl rfl, rfl⟩

/-- **The round trip**: an encoding with white space in it is decoded, unless there are two or more
spaces between the whole groups and the padded quantum. -/
theorem decode64_of_encode (hl : Lawful decodeChr) {v : List Word8}
    (hs : strip decodeChr s = encode v)
    (hsp : ∀ pre rest tail, Parts decodeChr s pre rest tail → strip decodeChr rest = [] →
      rest.length ≤ 1) : decode64 decodeChr s = .ok v := by
  obtain ⟨q, t, heq, hq, h4, ht, rfl⟩ := exists_encode_eq hl v
  rw [heq] at hs
  rcases ht with rfl | ht
  · rw [List.append_nil] at hs
    obtain ⟨-, -, -, hends⟩ := exists_trim decodeChr s
    have hstrip := (strip_trim decodeChr s).trans hs
    rw [decode64_eq, tailBytes]
    · by_cases hnil : trim decodeChr s = []
      · rw [if_pos hnil]
        rw [hnil] at hstrip
        rw [← hstrip]
        rfl
      · rw [if_neg hnil]
        -- the last four characters are not padded
        have hpos : 4 ≤ q.length := by
          have hne : q ≠ [] := fun h => hnil (hends.eq_nil (hstrip.trans h))
          have := List.length_pos_iff.2 hne
          omega
        obtain ⟨body, tail, htrim, hstarts, -, htail⟩ := exists_split_starts
          (hstrip.trans (List.take_append_drop (q.length - 4) q).symm)
        have hlast : lastQ decodeChr (trim decodeChr s) =
            .ok ([], ((trim decodeChr s).length : ℤ)) := by
          rw [htrim]
          refine lastQ_of_isCode hl hstarts (fun c hc => hq c ?_) ?_
          · rw [htail] at hc
            exact List.mem_of_mem_drop hc
          · rw [htail, List.length_drop]
            omega
        obtain ⟨k, hk⟩ := h4
        have hcvt := cvt_append (l := (trim decodeChr s).length) k hends
          (fun c hc => hq c (hstrip ▸ hc)) (by rw [hstrip, hk]) (i := 0)
          (by push_cast; omega) []
        rw [List.append_nil, Nat.zero_add, cvt_of_le le_rfl, hstrip] at hcvt
        rw [hlast, ok_bind]
        rw [hcvt]
        change Except.ok (_ ++ [] ++ []) = _
        rw [List.append_nil, List.append_nil]
    · simp
  · obtain ⟨body, tail, rfl, hstarts, hbody, htail⟩ := exists_split_starts hs
    obtain ⟨pre, rest, rfl, hends, hpre, hrest⟩ :=
      exists_split (y := []) (hbody.trans (List.append_nil q).symm)
    have hparts : Parts decodeChr (pre ++ rest ++ tail) pre rest tail :=
      ⟨rfl, hends, by rwa [hpre], by rwa [hpre], hstarts, by rwa [htail]⟩
    rw [decode64_of_le_one hl hparts (hsp pre rest tail hparts hrest), hpre, htail]

end Encode

/-! ### The tables -/

theorem length_encTbl : encTbl.length = 64 := rfl

theorem nodup_encTbl : encTbl.Nodup := by decide +kernel

theorem lawful_of_codes {tbl f : Chr → Word8}
    (htbl : ∀ c, tbl c = if c ∈ encTbl then BitVec.ofNat 8 (encTbl.idxOf c) else f c)
    (hf : ∀ c, f c = spCode ∨ f c = errCode) (hpad : f padChar = errCode) : Lawful tbl := by
  have hcode : ∀ {c}, c ∈ encTbl → (BitVec.ofNat 8 (encTbl.idxOf c)).toNat = encTbl.idxOf c ∧
      encTbl.idxOf c < 64 := fun {c} hc => by
    have hlt := List.idxOf_lt_length_iff.2 hc
    rw [length_encTbl] at hlt
    refine ⟨?_, hlt⟩
    rw [BitVec.toNat_ofNat, Nat.mod_eq_of_lt (by omega)]
  refine ⟨fun c => ?_, ?_, fun b hb => ?_⟩
  · rw [htbl]
    split_ifs with hc
    · left
      rw [BitVec.lt_def, (hcode hc).1]
      exact (hcode hc).2
    · exact .inr (hf c)
  · rw [htbl, if_neg (by decide), hpad]
  · have hlt : b.toNat < encTbl.length := hb
    have hinc : incByte b = encTbl[b.toNat] := by
      rw [incByte, List.getD_eq_getElem?_getD, List.getElem?_eq_getElem hlt, Option.getD_some]
    rw [htbl, hinc, if_pos (List.getElem_mem hlt), nodup_encTbl.idxOf_getElem]
    rw [BitVec.ofNat_toNat, BitVec.setWidth_eq]

theorem lawful_decTbl : Lawful decTbl := by
  refine lawful_of_codes (fun _ => rfl) (fun _ => ?_) rfl
  split_ifs
  · exact .inl rfl
  · exact .inr rfl

theorem lawful_strictDecTbl : Lawful strictDecTbl :=
  lawful_of_codes (fun _ => rfl) (fun _ => .inr rfl) rfl

theorem strictDecTbl_ne_spCode (c : Chr) : strictDecTbl c ≠ spCode := by
  rw [strictDecTbl]
  split_ifs with hc
  · have hlt := List.idxOf_lt_length_iff.2 hc
    rw [length_encTbl] at hlt
    rw [ne_eq, ← BitVec.toNat_inj, BitVec.toNat_ofNat]
    exact fun h => by
      have h65 : spCode.toNat = 65 := rfl
      omega
  · decide

theorem strip_strictDecTbl (s : List Chr) : strip strictDecTbl s = s := by
  simp [strip, IsSpace, strictDecTbl_ne_spCode]

/-- **Strict decoding undoes encoding.** -/
theorem decodeStrict_encode (v : List Word8) : decodeStrict (encode v) = .ok v := by
  refine decode64_of_encode lawful_strictDecTbl (strip_strictDecTbl _) fun pre rest tail _ h => ?_
  rw [strip_strictDecTbl] at h
  rw [h]
  exact Nat.zero_le 1

/-- A misread string is decoded although it is ill formed, or not decoded although it is an
encoding. -/
theorem Misread.wrong (h : Misread decTbl s) :
    (∃ v, strip decTbl s = encode v ∧ ∀ out, decode s ≠ .ok out) ∨
      (¬WellFormed decTbl (strip decTbl s) ∧ ∃ out, decode s = .ok out) := by
  obtain ⟨pre, rest, tail, hparts, hcase⟩ := h
  have hill : strip decTbl rest ≠ [] → (strip decTbl rest).length < 4 →
      ¬WellFormed decTbl (strip decTbl s) := by
    rintro hne hlt ⟨q, t, heq, -, h4, ht⟩
    have hlen := congrArg List.length heq
    have hpos := List.length_pos_iff.2 hne
    have hgroups := hparts.groups
    have htail := hparts.padded.length
    rw [hparts.eq, strip_append, strip_append, List.length_append, List.length_append,
      List.length_append] at hlen
    rcases ht with rfl | ht
    · rw [List.length_nil] at hlen
      omega
    · rw [ht.length] at hlen
      omega
  rcases hcase with ⟨hsp, hrest, v, hv⟩ | ⟨hne, hrest⟩ | ⟨hne, hlt, hrest, hcodes, hcodes'⟩
  · exact .inl ⟨v, hv, decode64_ne_ok lawful_decTbl hparts hrest hsp⟩
  · have hlt := length_strip_le decTbl rest
    exact .inr ⟨hill hne (by omega), _, decode64_of_le_one lawful_decTbl hparts hrest.le⟩
  · exact .inr ⟨hill hne hlt,
      exists_decode64_eq_ok lawful_decTbl hparts hrest hlt hcodes hcodes'⟩

/-- **When Base64 decoding is right**: strict decoding always undoes encoding; and for a string, the
bytes of an encoding are decoded whatever white space is inserted, and an ill-formed string is
rejected, exactly if the string is not misread. -/
theorem decode_correct_iff (s : List Chr) :
    (∀ v : List Word8, decodeStrict (encode v) = .ok v) ∧
    (((∀ v, strip decTbl s = encode v → decode s = .ok v) ∧
        (¬WellFormed decTbl (strip decTbl s) → ∃ e, decode s = .error e)) ↔
      ¬Misread decTbl s) := by
  refine ⟨decodeStrict_encode, fun ⟨hround, hreject⟩ hmis => ?_, fun hmis => ⟨?_, ?_⟩⟩
  · rcases hmis.wrong with ⟨v, hv, hne⟩ | ⟨hill, out, hout⟩
    · exact hne v (hround v hv)
    · obtain ⟨e, he⟩ := hreject hill
      rw [he] at hout
      cases hout
  · intro v hv
    refine decode64_of_encode lawful_decTbl hv fun pre rest tail hparts hsp => ?_
    by_contra hlen
    exact hmis ⟨pre, rest, tail, hparts, .inl ⟨hsp, by omega, v, hv⟩⟩
  · intro hill
    rcases hout : decode s with e | out
    · exact ⟨e, rfl⟩
    · exact absurd ((wellFormed_or_misread lawful_decTbl hout).resolve_left hill) hmis

def brokenLine : List Chr := encode [65, 66, 67] ++ [13, 10] ++ encode [68]

theorem parts_brokenLine :
    Parts decTbl brokenLine (encode [65, 66, 67]) [13, 10] (encode [68]) where
  eq := (List.append_assoc _ _ _).symm ▸ rfl
  ends := by
    intro c hc
    obtain rfl : 68 = c := Option.some.inj hc
    decide
  codes := List.forall_iff_forall_mem.1 (by decide)
  groups := by decide
  starts := by
    intro c hc
    obtain rfl : 82 = c := Option.some.inj hc
    decide
  padded := .two (a := 82) (b := 65) (by decide) (by decide)

/-- **Not every line breaking is undone**: a carriage return and a newline before the last quantum
make the decoder fail. -/
theorem not_decode_brokenLine :
    ¬∀ (v : List Word8) (s : List Chr), strip decTbl s = encode v → decode s = .ok v := fun h =>
  decode64_ne_ok lawful_decTbl parts_brokenLine le_rfl rfl _
    (h [65, 66, 67, 68] brokenLine (by decide))

end SmlNj.Base64
