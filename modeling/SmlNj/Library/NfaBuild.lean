import SmlNj.Lib.EpsilonPaths
import SmlNj.Library.Fsm

/-!
# The automata of regular expressions

The nondeterministic automaton of an expression reads the words of its language from the start state
to its last state, which accepts and has no moves.  The automaton of some patterns has those of the
patterns as parts.

## Main definitions

* `toεNFA` — an automaton as one of Mathlib.
* `Fragment` — what the automata of expressions have in common.
* `nonemptySets` — no set of characters to be matched is empty.
* `Agree` — two languages have the same words of characters.

## Main results

* `fragment_altStep`, `fragment_concatStep`, `fragment_repeated` — the constructions.
* `fragment_build'` — the automaton of an expression.
-/

namespace SmlNj.RegExp

open EpsilonPaths

mutual

/-- No set of characters to be matched is empty. -/
def nonemptySets : Syntax → Prop
  | .Group re => nonemptySets re
  | .Alt l => nonemptySetsList l
  | .Concat l => nonemptySetsList l
  | .Interval re _ _ => nonemptySets re
  | .MatchSet set => set ≠ ∅
  | .NonmatchSet _ => True
  | .Char _ => True
  | .Begin => True
  | .End => True

/-- No set of characters to be matched by the expressions is empty. -/
def nonemptySetsList : List Syntax → Prop
  | [] => True
  | re :: l => nonemptySets re ∧ nonemptySetsList l

end

/-! ### Words of characters -/

def IsWord (w : List Char) : Prop := ∀ c ∈ w, c ∈ allChars

theorem mem_allChars {c : Char} : c ∈ allChars ↔ c.toNat < 256 := by
  rw [allChars, Finset.mem_image]
  constructor
  · rintro ⟨n, hn, rfl⟩
    have hn := Finset.mem_range.1 hn
    have hvalid : n.isValidChar := .inl (by omega)
    rw [Char.ofNat, dif_pos hvalid]
    exact hn
  · intro hc
    exact ⟨c.toNat, Finset.mem_range.2 hc, Char.ofNat_toNat c⟩

/-- Two languages have the same words of characters of the source. -/
def Agree (L L' : Language Char) : Prop := ∀ w, IsWord w → (w ∈ L ↔ w ∈ L')

namespace Agree

variable {L L' L₁ L₁' : Language Char}

theorem refl (L : Language Char) : Agree L L := fun _ _ => Iff.rfl

theorem add (h : Agree L L') (h₁ : Agree L₁ L₁') : Agree (L + L₁) (L' + L₁') := by
  intro w hw
  exact or_congr (h w hw) (h₁ w hw)

theorem mul (h : Agree L L') (h₁ : Agree L₁ L₁') : Agree (L * L₁) (L' * L₁') := by
  intro w hw
  constructor
  all_goals
    rintro ⟨u, hu, v, hv, rfl⟩
    have hwu : IsWord u := fun c hc => hw c (List.mem_append_left v hc)
    have hwv : IsWord v := fun c hc => hw c (List.mem_append_right u hc)
  · exact ⟨u, (h u hwu).1 hu, v, (h₁ v hwv).1 hv, rfl⟩
  · exact ⟨u, (h u hwu).2 hu, v, (h₁ v hwv).2 hv, rfl⟩

theorem pow (h : Agree L L') (i : ℕ) : Agree (L ^ i) (L' ^ i) := by
  induction i with
  | zero => exact refl 1
  | succ i ih =>
    exact ih.mul h

theorem trans (h : Agree L L') (h' : Agree L' L₁) : Agree L L₁ := fun w hw =>
  (h w hw).trans (h' w hw)

theorem of_mem_iff (h : ∀ w, w ∈ L ↔ w ∈ L') : Agree L L' := fun w _ => h w

theorem iterate (h : Agree L L') (S : Set ℕ) :
    Agree {w | ∃ i ∈ S, w ∈ L ^ i} {w | ∃ i ∈ S, w ∈ L' ^ i} := fun w hw =>
  exists_congr fun i => and_congr_right fun _ => h.pow i w hw

end Agree

theorem mem_mul_kstar {L : Language Char} {w : List Char} :
    w ∈ L * KStar.kstar L ↔ ∃ i, 1 ≤ i ∧ w ∈ L ^ i := by
  rw [Language.kstar_eq_iSup_pow, Language.mul_iSup, Language.mem_iSup]
  constructor
  · rintro ⟨i, hi⟩
    exact ⟨i + 1, Nat.succ_le_succ (Nat.zero_le i), by rwa [pow_succ']⟩
  · rintro ⟨i, hle, hi⟩
    obtain ⟨i, rfl⟩ := Nat.exists_eq_add_of_le' hle
    exact ⟨i, by rwa [← pow_succ']⟩

namespace Nfa

def toεNFA (nfa : Nfa) : εNFA Char ℕ where
  step s a := {t | (⟨s, a, t⟩ : Move) ∈ nfa.moves}
  start := {0}
  accept := {t | ∃ n, toLex (t, n) ∈ nfa.accepting}

theorem mem_step {nfa : Nfa} {s t : ℕ} {a : Option Char} :
    t ∈ nfa.toεNFA.step s a ↔ (⟨s, a, t⟩ : Move) ∈ nfa.moves := Iff.rfl

/-- **What the automata of expressions have in common**: the states up to the last one, which alone
accepts and has no moves. -/
structure Fragment (nfa : Nfa) (n k : ℕ) (L : Language Char) : Prop where
  states : ∀ s, s ∈ nfa.states ↔ s < k + 1
  accepting : nfa.accepting = .singleton (toLex (k, n))
  pos : 0 < k
  bound : ∀ m ∈ nfa.moves, m.src < k ∧ m.dst ≤ k
  lang : pathLang nfa.toεNFA 0 k = L

variable {nfa nfa1 nfa2 : Nfa} {n n1 n2 k k1 k2 : ℕ} {L L1 L2 : Language Char}

theorem Fragment.numItems (h : Fragment nfa n k L) : nfa.states.numItems = k + 1 :=
  ListSet.numItems_eq h.states

def upTo (k : ℕ) : Set ℕ := {s | s ≤ k}

theorem mem_renumberMove {nfa : Nfa} {d s t : ℕ} {a : Option Char} :
    (⟨s, a, t⟩ : Move) ∈ nfa.moves.map (renumberMove d) ↔
      ∃ s' t', s = d + s' ∧ t = d + t' ∧ (⟨s', a, t'⟩ : Move) ∈ nfa.moves := by
  rw [ListSet.mem_map]
  constructor
  · rintro ⟨⟨s', a', t'⟩, hm, heq⟩
    obtain ⟨rfl, rfl, rfl⟩ := Move.mk.inj heq
    exact ⟨s', t', rfl, rfl, hm⟩
  · rintro ⟨s', t', rfl, rfl, hm⟩
    exact ⟨_, hm, rfl⟩

theorem renumber_injective (d : ℕ) : Function.Injective (renumber d) := fun _ _ h =>
  Nat.add_left_cancel h

theorem Fragment.part {nfa' : Nfa} {d : ℕ} {E : Set ℕ} (h : Fragment nfa n k L)
    (hmoves : ∀ s a t, (⟨s, a, t⟩ : Move) ∈ nfa.moves →
      (⟨d + s, a, d + t⟩ : Move) ∈ nfa'.moves)
    (hback : ∀ s ≤ k, s ∉ E → ∀ a u, (⟨d + s, a, u⟩ : Move) ∈ nfa'.moves →
      ∃ t, u = d + t ∧ (⟨s, a, t⟩ : Move) ∈ nfa.moves) :
    Part nfa.toεNFA nfa'.toεNFA (renumber d) (upTo k) E where
  step s a t ht := hmoves s a t ht
  back s hs hE a u hu := by
    obtain ⟨t, rfl, ht⟩ := hback s hs hE a u hu
    exact ⟨t, (h.bound _ ht).2, rfl, ht⟩

/-! ### Single moves -/

theorem mem_pathLang_two {A : Set (Option Char)}
    (h : ∀ s a t, (⟨s, a, t⟩ : Move) ∈ nfa.moves ↔ s = 0 ∧ t = 1 ∧ a ∈ A) {w : List Char} :
    w ∈ pathLang nfa.toεNFA 0 1 ↔ ∃ a ∈ A, w = a.toList := by
  have hfinal : ∀ a, nfa.toεNFA.step 1 a = ∅ := by
    intro a
    ext t
    rw [mem_step, h]
    simp
  constructor
  · rintro ⟨x, rfl, hpath⟩
    cases hpath with
    | cons t s u a x hstep hpath =>
      obtain ⟨-, rfl, ha⟩ := (h 0 a t).1 hstep
      have hnil : x.reduceOption = [] := (mem_pathLang_of_final hfinal).1 ⟨x, rfl, hpath⟩
      refine ⟨a, ha, ?_⟩
      cases a with
      | none => rw [List.reduceOption_cons_of_none, hnil, Option.toList_none]
      | some c => rw [List.reduceOption_cons_of_some, hnil, Option.toList_some]
  · rintro ⟨a, ha, rfl⟩
    refine ⟨[a], ?_, .cons 1 0 1 a [] ((h 0 a 1).2 ⟨rfl, rfl, ha⟩) (.nil 1)⟩
    cases a with
    | none => rfl
    | some c => rfl

theorem fragment_two {A : Set (Option Char)} {moves : ListSet Move}
    (h : ∀ s a t, (⟨s, a, t⟩ : Move) ∈ moves ↔ s = 0 ∧ t = 1 ∧ a ∈ A)
    (hL : ∀ w, w ∈ L ↔ ∃ a ∈ A, w = a.toList) (n : ℕ) :
    Fragment ⟨ListSet.empty.addList [0, 1], moves, .singleton (toLex (1, n))⟩ n 1 L where
  states s := by
    rw [ListSet.mem_addList]
    simp only [ListSet.not_mem_empty, List.mem_cons, List.not_mem_nil, or_false, false_or]
    omega
  accepting := rfl
  pos := Nat.one_pos
  bound m hm := by
    have := (h m.src m.char m.dst).1 hm
    omega
  lang := by
    ext w
    rw [mem_pathLang_two h, hL]

theorem fragment_nullAccept (n : ℕ) : Fragment (nullAccept n) n 1 1 := by
  refine fragment_two (A := {none}) (fun s a t => ?_) (fun w => ?_) n
  · simp [and_comm]
  · rw [Language.mem_one]
    simp

theorem fragment_nullRefuse (n : ℕ) : Fragment (nullRefuse n) n 1 0 := by
  refine fragment_two (A := ∅) (fun s a t => ?_) (fun w => ?_) n
  · simp
  · exact iff_of_false (Language.notMem_zero w) (by simp)

theorem fragment_oneOf (n : ℕ) (set : Finset Char) :
    Fragment (oneOf n set) n 1 {w | ∃ c ∈ set, w = [c]} := by
  refine fragment_two (A := some '' {c | c ∈ set}) (fun s a t => ?_) (fun w => ?_) n
  · rw [ListSet.mem_foldl_add]
    simp only [ListSet.not_mem_empty, Finset.mem_sort, false_or, Move.mk.injEq]
    constructor
    · rintro ⟨c, hc, rfl, rfl, rfl⟩
      exact ⟨rfl, rfl, c, hc, rfl⟩
    · rintro ⟨rfl, rfl, c, hc, rfl⟩
      exact ⟨c, hc, rfl, rfl, rfl⟩
  · constructor
    · rintro ⟨c, hc, rfl⟩
      exact ⟨some c, ⟨c, hc, rfl⟩, rfl⟩
    · rintro ⟨_, ⟨c, hc, rfl⟩, rfl⟩
      exact ⟨c, hc, rfl⟩

theorem fragment_char (n : ℕ) (c : Char) :
    Fragment ⟨ListSet.empty.addList [0, 1], .singleton ⟨0, some c, 1⟩, .singleton (toLex (1, n))⟩
      n 1 {[c]} := by
  refine fragment_two (A := {some c}) (fun s a t => ?_) (fun w => ?_) n
  · simp [and_comm]
  · constructor
    · intro hw
      exact ⟨some c, rfl, hw⟩
    · rintro ⟨_, rfl, rfl⟩
      rfl

/-! ### Constructions -/

/-- **A choice between two automata.** -/
theorem fragment_altStep (h1 : Fragment nfa1 n1 k1 L1) (h2 : Fragment nfa2 n2 k2 L2) (n : ℕ) :
    Fragment (altStep n nfa1 nfa2) n (k1 + k2 + 3) (L1 + L2) := by
  have hmoves : ∀ s a t, (⟨s, a, t⟩ : Move) ∈ (altStep n nfa1 nfa2).moves ↔
      (∃ s' t', s = 1 + s' ∧ t = 1 + t' ∧ (⟨s', a, t'⟩ : Move) ∈ nfa1.moves) ∨
      (∃ s' t', s = k1 + 2 + s' ∧ t = k1 + 2 + t' ∧ (⟨s', a, t'⟩ : Move) ∈ nfa2.moves) ∨
      (a = none ∧ (s = 0 ∧ (t = 1 ∨ t = k1 + 2) ∨
        (s = k1 + 1 ∨ s = k1 + k2 + 2) ∧ t = k1 + k2 + 3)) := by
    intro s a t
    rw [altStep, h1.numItems, h2.numItems]
    simp only [ListSet.mem_addList, ListSet.mem_union, mem_renumberMove, List.mem_cons, List.not_mem_nil, or_false, or_assoc]
    refine or_congr Iff.rfl (or_congr Iff.rfl ?_)
    constructor
    · rintro (⟨rfl, rfl, rfl⟩ | ⟨rfl, rfl, rfl⟩ | ⟨rfl, rfl, rfl⟩ | ⟨rfl, rfl, rfl⟩) <;>
        simp <;> omega
    · rintro ⟨rfl, ⟨rfl, rfl | rfl⟩ | ⟨rfl | rfl, rfl⟩⟩ <;> simp <;> omega
  have hb1 : ∀ {s a t}, (⟨s, a, t⟩ : Move) ∈ nfa1.moves → s < k1 ∧ t ≤ k1 :=
    fun hm => h1.bound _ hm
  have hb2 : ∀ {s a t}, (⟨s, a, t⟩ : Move) ∈ nfa2.moves → s < k2 ∧ t ≤ k2 :=
    fun hm => h2.bound _ hm
  have hpart1 : Part nfa1.toεNFA (altStep n nfa1 nfa2).toεNFA (renumber 1) (upTo k1) {k1} := by
    refine h1.part (fun s a t hm => (hmoves _ _ _).2 (.inl ⟨s, t, rfl, rfl, hm⟩)) ?_
    intro s hs hne a u hm
    have hne : s ≠ k1 := hne
    rcases (hmoves _ _ _).1 hm with ⟨s', t, heq, rfl, hm'⟩ | ⟨s', t, heq, rfl, hm'⟩ | ⟨-, hm'⟩
    · obtain rfl : s = s' := by omega
      exact ⟨t, rfl, hm'⟩
    · omega
    · omega
  have hpart2 : Part nfa2.toεNFA (altStep n nfa1 nfa2).toεNFA (renumber (k1 + 2)) (upTo k2)
      {k2} := by
    refine h2.part (fun s a t hm => (hmoves _ _ _).2 (.inr (.inl ⟨s, t, rfl, rfl, hm⟩))) ?_
    intro s hs hne a u hm
    have hne : s ≠ k2 := hne
    rcases (hmoves _ _ _).1 hm with ⟨s', t, heq, rfl, hm'⟩ | ⟨s', t, heq, rfl, hm'⟩ | ⟨-, hm'⟩
    · have := hb1 hm'
      omega
    · obtain rfl : s = s' := by omega
      exact ⟨t, rfl, hm'⟩
    · omega
  refine ⟨fun s => ?_, ?_, by omega, fun m hm => ?_, ?_⟩
  · rw [altStep, h1.numItems, h2.numItems]
    simp only [ListSet.mem_addList, ListSet.mem_union, ListSet.mem_map, h1.states, h2.states,
      renumber, List.mem_cons, List.not_mem_nil, or_false]
    constructor
    · rintro ((⟨y, hy, rfl⟩ | ⟨y, hy, rfl⟩) | rfl | rfl) <;> omega
    · intro hs
      by_cases h0 : s = 0
      · exact .inr (.inl h0)
      by_cases hlt1 : s < k1 + 2
      · exact .inl (.inl ⟨s - 1, by omega, by omega⟩)
      by_cases hlt2 : s < k1 + k2 + 3
      · exact .inl (.inr ⟨s - (k1 + 2), by omega, by omega⟩)
      · exact .inr (.inr (by omega))
  · rw [altStep, h1.numItems, h2.numItems]
    have hk : k1 + 1 + (k2 + 1) + 1 = k1 + k2 + 3 := by omega
    rw [← hk]
  · obtain ⟨s, a, t⟩ := m
    dsimp only
    rcases (hmoves s a t).1 hm with ⟨s', t', rfl, rfl, hm'⟩ | ⟨s', t', rfl, rfl, hm'⟩ | ⟨-, hm'⟩
    · have := hb1 hm'
      omega
    · have := hb2 hm'
      omega
    · omega
  · rw [← h1.lang, ← h2.lang]
    refine pathLang_add hpart1 hpart2 (Nat.zero_le k1) (Nat.le_refl k1) (Nat.zero_le k2)
      (Nat.le_refl k2) (fun t ht => ?_) (fun t ht => ?_) (by omega) ?_ ?_ ?_ ?_
    · have ht : t ≤ k1 := ht
      rw [renumber]
      omega
    · have ht : t ≤ k2 := ht
      rw [renumber]
      omega
    · intro a v
      rw [mem_step, hmoves, renumber, renumber]
      constructor
      · rintro (⟨s', t, heq, -⟩ | ⟨s', t, heq, -⟩ | ⟨rfl, hm⟩)
        · omega
        · omega
        · exact ⟨rfl, by omega⟩
      · rintro ⟨rfl, hv⟩
        exact .inr (.inr ⟨rfl, by omega⟩)
    · intro a v
      rw [mem_step, hmoves, renumber]
      constructor
      · rintro (⟨s', t, heq, -, hm⟩ | ⟨s', t, heq, -⟩ | ⟨rfl, hm⟩)
        · have := hb1 hm
          omega
        · omega
        · exact ⟨rfl, by omega⟩
      · rintro ⟨rfl, rfl⟩
        exact .inr (.inr ⟨rfl, by omega⟩)
    · intro a v
      rw [mem_step, hmoves, renumber]
      constructor
      · rintro (⟨s', t, heq, -, hm⟩ | ⟨s', t, heq, -, hm⟩ | ⟨rfl, hm⟩)
        · have := hb1 hm
          omega
        · have := hb2 hm
          omega
        · exact ⟨rfl, by omega⟩
      · rintro ⟨rfl, rfl⟩
        exact .inr (.inr ⟨rfl, by omega⟩)
    · intro a
      refine Set.eq_empty_of_forall_notMem fun v hv => ?_
      rcases (hmoves _ _ _).1 hv with ⟨s', t, heq, -, hm⟩ | ⟨s', t, heq, -, hm⟩ | ⟨-, hm⟩
      · have := hb1 hm
        omega
      · have := hb2 hm
        omega
      · omega

/-- **Two automata one after the other.** -/
theorem fragment_concatStep (h1 : Fragment nfa1 n1 k1 L1) (h2 : Fragment nfa2 n k2 L2) :
    Fragment (concatStep nfa1 nfa2) n (k1 + k2) (L1 * L2) := by
  have hmoves : ∀ s a t, (⟨s, a, t⟩ : Move) ∈ (concatStep nfa1 nfa2).moves ↔
      (⟨s, a, t⟩ : Move) ∈ nfa1.moves ∨
      ∃ s' t', s = k1 + s' ∧ t = k1 + t' ∧ (⟨s', a, t'⟩ : Move) ∈ nfa2.moves := by
    intro s a t
    rw [concatStep, h1.numItems]
    simp only [ListSet.mem_union, mem_renumberMove, Nat.add_sub_cancel]
  have hb1 : ∀ {s a t}, (⟨s, a, t⟩ : Move) ∈ nfa1.moves → s < k1 ∧ t ≤ k1 :=
    fun hm => h1.bound _ hm
  have hb2 : ∀ {s a t}, (⟨s, a, t⟩ : Move) ∈ nfa2.moves → s < k2 ∧ t ≤ k2 :=
    fun hm => h2.bound _ hm
  have hpos2 := h2.pos
  have hpart1 : Part nfa1.toεNFA (concatStep nfa1 nfa2).toεNFA (renumber 0) (upTo k1) {k1} := by
    refine h1.part (fun s a t hm => ?_) fun s hs hne a u hm => ?_
    · rw [Nat.zero_add, Nat.zero_add]
      exact (hmoves _ _ _).2 (.inl hm)
    · have hne : s ≠ k1 := hne
      rw [Nat.zero_add] at hm
      rcases (hmoves _ _ _).1 hm with hm' | ⟨s', t, heq, -, -⟩
      · exact ⟨u, (Nat.zero_add u).symm, hm'⟩
      · omega
  have hpart2 : Part nfa2.toεNFA (concatStep nfa1 nfa2).toεNFA (renumber k1) (upTo k2) ∅ := by
    refine h2.part (fun s a t hm => (hmoves _ _ _).2 (.inr ⟨s, t, rfl, rfl, hm⟩)) ?_
    intro s hs _ a u hm
    rcases (hmoves _ _ _).1 hm with hm' | ⟨s', t, heq, rfl, hm'⟩
    · have := hb1 hm'
      omega
    · obtain rfl : s = s' := by omega
      exact ⟨t, rfl, hm'⟩
  refine ⟨fun s => ?_, ?_, by omega, fun m hm => ?_, ?_⟩
  · rw [concatStep, h1.numItems]
    simp only [ListSet.mem_union, ListSet.mem_map, h1.states, h2.states, renumber]
    constructor
    · rintro (hs | ⟨y, hy, rfl⟩) <;> omega
    · intro hs
      by_cases hlt : s < k1 + 1
      · exact .inl hlt
      · exact .inr ⟨s - k1, by omega, by omega⟩
  · rw [concatStep, h1.numItems, h2.accepting]
    ext p
    simp only [ListSet.mem_map, ListSet.mem_singleton, exists_eq_left]
    exact eq_comm
  · obtain ⟨s, a, t⟩ := m
    dsimp only
    rcases (hmoves s a t).1 hm with hm' | ⟨s', t', rfl, rfl, hm'⟩
    · have := hb1 hm'
      omega
    · have := hb2 hm'
      omega
  · rw [← h1.lang, ← h2.lang]
    have hglue : renumber 0 k1 = renumber k1 0 := by
      rw [renumber, renumber, Nat.zero_add, Nat.add_zero]
    refine pathLang_mul hpart1 hpart2 hglue (renumber_injective k1) (Nat.zero_le k1)
      (Nat.zero_le k2) fun t ht => ?_
    have ht : t ≤ k1 := ht
    rw [renumber, renumber]
    omega

/-- **An automaton at least once.** -/
theorem fragment_repeated (h : Fragment nfa n1 k L) (n : ℕ) :
    Fragment (repeated n nfa) n (k + 1) (L * KStar.kstar L) := by
  have hmoves : ∀ s a t, (⟨s, a, t⟩ : Move) ∈ (repeated n nfa).moves ↔
      (⟨s, a, t⟩ : Move) ∈ nfa.moves ∨ s = k ∧ a = none ∧ (t = k + 1 ∨ t = 0) := by
    rw [repeated, h.numItems]
    simp only [ListSet.mem_addList, List.mem_cons, Move.mk.injEq]
    tauto
  have hb : ∀ {s a t}, (⟨s, a, t⟩ : Move) ∈ nfa.moves → s < k ∧ t ≤ k := fun hm => h.bound _ hm
  have hpart : Part nfa.toεNFA (repeated n nfa).toεNFA (renumber 0) (upTo k) {k} := by
    refine h.part (fun s a t hm => ?_) fun s hs hne a u hm => ?_
    · rw [Nat.zero_add, Nat.zero_add]
      exact (hmoves _ _ _).2 (.inl hm)
    · rw [Nat.zero_add] at hm
      rcases (hmoves _ _ _).1 hm with hm' | ⟨heq, -⟩
      · exact ⟨u, (Nat.zero_add u).symm, hm'⟩
      · exact absurd heq hne
  refine ⟨fun s => ?_, ?_, Nat.succ_pos k, fun m hm => ?_, ?_⟩
  · rw [repeated, h.numItems]
    simp only [ListSet.mem_add, h.states]
    omega
  · rw [repeated, h.numItems]
  · obtain ⟨s, a, t⟩ := m
    dsimp only
    rcases (hmoves s a t).1 hm with hm' | ⟨rfl, -, hm'⟩
    · have := hb hm'
      omega
    · omega
  · rw [← h.lang]
    refine pathLang_repeat hpart (Nat.zero_le k) (Nat.le_refl k) (fun t ht => ?_) (fun a v => ?_)
      fun a => ?_
    · have ht : t ≤ k := ht
      rw [renumber]
      omega
    · rw [mem_step, renumber, Nat.zero_add, hmoves]
      constructor
      · rintro (hm | ⟨-, rfl, hm⟩)
        · have := hb hm
          omega
        · exact ⟨rfl, hm⟩
      · rintro ⟨rfl, hv⟩
        exact .inr ⟨rfl, rfl, hv⟩
    · refine Set.eq_empty_of_forall_notMem fun v hv => ?_
      rcases (hmoves _ _ _).1 hv with hm | ⟨heq, -⟩
      · have := hb hm
        omega
      · omega

/-! ### Expressions -/

theorem fragment_alt {l : List Nfa} {Ls : List (Language Char)}
    (h : List.Forall₂ (fun nfa L => ∃ k, Fragment nfa n k L) l Ls) :
    ∃ k, Fragment (alt n l) n k Ls.sum := by
  induction h with
  | nil => exact ⟨1, fragment_nullRefuse n⟩
  | cons hnfa _ ih =>
    obtain ⟨k1, h1⟩ := hnfa
    obtain ⟨k2, h2⟩ := ih
    exact ⟨_, fragment_altStep h1 h2 n⟩

theorem fragment_concat {l : List Nfa} {Ls : List (Language Char)}
    (h : List.Forall₂ (fun nfa L => ∃ k, Fragment nfa n k L) l Ls) :
    ∃ k, Fragment (concat n l) n k Ls.prod := by
  induction h with
  | nil => exact ⟨1, fragment_nullAccept n⟩
  | cons hnfa _ ih =>
    obtain ⟨k1, h1⟩ := hnfa
    obtain ⟨k2, h2⟩ := ih
    exact ⟨_, fragment_concatStep h1 h2⟩

/-- The automaton of an interval, from that of its expression. -/
theorem fragment_interval {e : Syntax} {min : ℕ} {max : Option ℕ}
    (he : ∀ nfa, build' n e = some nfa → ∃ k L, Fragment nfa n k L ∧ Agree L (RegExp.lang e))
    (h : build' n (.Interval e min max) = some nfa) :
    ∃ k L, Fragment nfa n k L ∧
      Agree L {w | ∃ i ∈ withinBounds min max, w ∈ RegExp.lang e ^ i} := by
  have hempty : ∃ k, Fragment (concat n []) n k 1 := ⟨1, fragment_nullAccept n⟩
  rcases min with _ | _ | min
  · rcases max with _ | _ | _ | max
    · -- any number of times
      obtain ⟨nfa', h', rfl⟩ := Option.map_eq_some_iff.1 h
      obtain ⟨k, L, hfrag, hL⟩ := he nfa' h'
      obtain ⟨k', hk'⟩ := fragment_alt (.cons hempty (.cons ⟨_, fragment_repeated hfrag n⟩ .nil))
      refine ⟨k', _, hk', .trans (.of_mem_iff fun w => ?_) (hL.iterate _)⟩
      rw [List.sum_cons, List.sum_singleton, Language.mem_add, mem_mul_kstar]
      constructor
      · rintro (rfl | ⟨i, -, hi⟩)
        · exact ⟨0, Nat.zero_le 0, by rw [pow_zero]; exact Language.nil_mem_one⟩
        · exact ⟨i, Nat.zero_le i, hi⟩
      · rintro ⟨i, -, hi⟩
        rcases i with _ | i
        · rw [pow_zero] at hi
          exact .inl ((Language.mem_one w).1 hi)
        · exact .inr ⟨i + 1, Nat.succ_le_succ (Nat.zero_le i), hi⟩
    · rw [build'] at h <;> cases h
    · -- at most once
      obtain ⟨nfa', h', rfl⟩ := Option.map_eq_some_iff.1 h
      obtain ⟨k, L, hfrag, hL⟩ := he nfa' h'
      obtain ⟨k', hk'⟩ := fragment_alt (.cons hempty (.cons ⟨_, hfrag⟩ .nil))
      refine ⟨k', _, hk', .trans (.of_mem_iff fun w => ?_) (hL.iterate _)⟩
      rw [List.sum_cons, List.sum_singleton]
      constructor
      · rintro (rfl | hw)
        · exact ⟨0, ⟨le_rfl, Nat.zero_le 1⟩, by rw [pow_zero]; exact Language.nil_mem_one⟩
        · exact ⟨1, ⟨Nat.zero_le 1, le_rfl⟩, by rwa [pow_one]⟩
      · rintro ⟨i, ⟨-, hi⟩, hw⟩
        rcases Nat.le_one_iff_eq_zero_or_eq_one.1 hi with rfl | rfl
        · rw [pow_zero] at hw
          exact .inl ((Language.mem_one w).1 hw)
        · rw [pow_one] at hw
          exact .inr hw
    · rw [build'] at h <;> cases h
  · rcases max with _ | max
    · -- at least once
      obtain ⟨nfa', h', rfl⟩ := Option.map_eq_some_iff.1 h
      obtain ⟨k, L, hfrag, hL⟩ := he nfa' h'
      refine ⟨k + 1, _, fragment_repeated hfrag n, .trans (.of_mem_iff fun w => ?_) (hL.iterate _)⟩
      exact mem_mul_kstar
    · rw [build'] at h <;> cases h
  · rw [build'] at h <;> cases h

mutual

/-- **The automaton of an expression.** -/
theorem fragment_build' (n : ℕ) : ∀ re nfa, nonemptySets re → build' n re = some nfa →
    ∃ k L, Fragment nfa n k L ∧ Agree L (RegExp.lang re)
  | .Group re, nfa, hne, h => by
    simp only [nonemptySets] at hne
    rw [build'] at h
    simp only [RegExp.lang, langWith]
    exact fragment_build' n re nfa hne h
  | .Alt l, nfa, hne, h => by
    simp only [nonemptySets] at hne
    rw [build'] at h
    obtain ⟨nfas, hl, rfl⟩ := Option.map_eq_some_iff.1 h
    obtain ⟨Ls, hLs, hsum, -⟩ := fragment_buildList n l nfas hne hl
    obtain ⟨k, hk⟩ := fragment_alt hLs
    simp only [RegExp.lang, langWith]
    exact ⟨k, _, hk, hsum⟩
  | .Concat l, nfa, hne, h => by
    simp only [nonemptySets] at hne
    rw [build'] at h
    obtain ⟨nfas, hl, rfl⟩ := Option.map_eq_some_iff.1 h
    obtain ⟨Ls, hLs, -, hprod⟩ := fragment_buildList n l nfas hne hl
    obtain ⟨k, hk⟩ := fragment_concat hLs
    simp only [RegExp.lang, langWith]
    exact ⟨k, _, hk, hprod⟩
  | .Interval re min max, nfa, hne, h => by
    simp only [nonemptySets] at hne
    simp only [RegExp.lang, langWith]
    exact fragment_interval (fun nfa' h' => fragment_build' n re nfa' hne h') h
  | .MatchSet set, nfa, hne, h => by
    simp only [nonemptySets] at hne
    rw [build', if_neg hne] at h
    obtain rfl := Option.some.inj h
    simp only [RegExp.lang, langWith]
    exact ⟨1, _, fragment_oneOf n set, .refl _⟩
  | .NonmatchSet set, nfa, _, h => by
    rw [build'] at h
    obtain rfl := Option.some.inj h
    simp only [RegExp.lang, langWith]
    refine ⟨1, _, fragment_oneOf n (allChars \ set), fun w hw => ?_⟩
    constructor
    · rintro ⟨c, hc, rfl⟩
      exact ⟨c, (Finset.mem_sdiff.1 hc).2, rfl⟩
    · rintro ⟨c, hc, rfl⟩
      exact ⟨c, Finset.mem_sdiff.2 ⟨hw c (List.mem_singleton_self c), hc⟩, rfl⟩
  | .Char c, nfa, _, h => by
    rw [build'] at h
    obtain rfl := Option.some.inj h
    simp only [RegExp.lang, langWith]
    exact ⟨1, _, fragment_char n c, .refl _⟩
  | .Begin, nfa, _, h => by
    rw [build'] at h
    cases h
  | .End, nfa, _, h => by
    rw [build'] at h
    cases h

theorem fragment_buildList (n : ℕ) : ∀ l nfas, nonemptySetsList l → buildList n l = some nfas →
    ∃ Ls : List (Language Char), List.Forall₂ (fun nfa L => ∃ k, Fragment nfa n k L) nfas Ls ∧
      Agree Ls.sum (langAlt withinBounds l) ∧ Agree Ls.prod (langConcat withinBounds l)
  | [], nfas, _, h => by
    rw [buildList] at h
    obtain rfl := Option.some.inj h
    exact ⟨[], .nil, .refl _, .refl _⟩
  | re :: l, nfas, hne, h => by
    simp only [nonemptySetsList] at hne
    rw [buildList] at h
    obtain ⟨nfa, hnfa, h⟩ := Option.bind_eq_some_iff.1 h
    obtain ⟨nfas', hl, h⟩ := Option.bind_eq_some_iff.1 h
    obtain rfl := Option.some.inj h
    obtain ⟨k, L, hfrag, hL⟩ := fragment_build' n re nfa hne.1 hnfa
    obtain ⟨Ls, hLs, hsum, hprod⟩ := fragment_buildList n l nfas' hne.2 hl
    simp only [langAlt, langConcat]
    refine ⟨L :: Ls, .cons ⟨k, hfrag⟩ hLs, ?_, ?_⟩
    · rw [List.sum_cons]
      exact hL.add hsum
    · rw [List.prod_cons]
      exact hL.mul hprod

end

end Nfa

end SmlNj.RegExp
