import SmlNj.Library.NfaBuild

/-!
# The automaton of some patterns

The automata of some expressions are put side by side behind a new start state.  A state of one of
them only leads to states of the same one, so that the word read on the way to the accepting state
of a number is in the language of the expression of that number.

## Main definitions

* `patternLang` — the language of the pattern of a number.
* `Recognizes` — an automaton tells the words of the patterns from each other.
* `blocks` — the automata of the patterns with the numbers of their first states.

## Main results

* `recognizes_buildPattern` — the automata of patterns.
-/

namespace SmlNj.RegExp

open EpsilonPaths

def patternLang (rs : List Syntax) (i : ℕ) : Language Char := (rs[i]?.map lang).getD 0

theorem mem_patternLang {rs : List Syntax} {i : ℕ} {w : List Char} :
    w ∈ patternLang rs i ↔ ∃ re, rs[i]? = some re ∧ w ∈ lang re := by
  rw [patternLang]
  cases rs[i]? with
  | none => exact iff_of_false (Language.notMem_zero w) (by simp)
  | some re => simp

namespace Nfa

/-- **An automaton tells the words of some languages from each other**: the states that accept for a
number are reached by the words of its language, and no state accepts for two numbers. -/
structure Recognizes (nfa : Nfa) (Ls : ℕ → Language Char) : Prop where
  words : ∀ w, IsWord w → ∀ i,
    (∃ q, toLex (q, i) ∈ nfa.accepting ∧ q ∈ nfa.toεNFA.eval w) ↔ w ∈ Ls i
  functional : ∀ q i j, toLex (q, i) ∈ nfa.accepting → toLex (q, j) ∈ nfa.accepting → i = j
  /-- The start is a state, and so is where a move leads to. -/
  start : 0 ∈ nfa.states
  moves : ∀ m ∈ nfa.moves, m.dst ∈ nfa.states

theorem mem_eval {nfa : Nfa} {q : ℕ} {w : List Char} :
    q ∈ nfa.toεNFA.eval w ↔ w ∈ pathLang nfa.toεNFA 0 q := by
  change q ∈ nfa.toεNFA.evalFrom {0} w ↔ _
  exact nfa.toεNFA.mem_evalFrom_iff_exists_path

/-! ### The automata side by side -/

/-- The automata of the patterns with the numbers of their first states. -/
def blocks (rs' : List Nfa) : List (Nfa × ℕ) := rs'.zip (renums rs')

theorem renums_cons (nfa : Nfa) (rs' : List Nfa) :
    renums (nfa :: rs') = 1 :: (renums rs').map (· + nfa.states.numItems) := rfl

theorem length_renums (rs' : List Nfa) : (renums rs').length = rs'.length := by
  induction rs' with
  | nil => rfl
  | cons nfa rs' ih => rw [renums_cons, List.length_cons, List.length_map, ih, List.length_cons]

theorem blocks_cons (nfa : Nfa) (rs' : List Nfa) :
    blocks (nfa :: rs') =
      (nfa, 1) :: (blocks rs').map (Prod.map id (· + nfa.states.numItems)) := by
  rw [blocks, renums_cons, List.zip_cons_cons, List.zip_map_right, blocks]

theorem map_fst_blocks (rs' : List Nfa) : (blocks rs').map Prod.fst = rs' :=
  List.map_fst_zip (length_renums rs').ge

theorem map_snd_blocks (rs' : List Nfa) : (blocks rs').map Prod.snd = renums rs' :=
  List.map_snd_zip (length_renums rs').le

theorem blocks_pairwise (rs' : List Nfa) :
    (∀ b ∈ blocks rs', 1 ≤ b.2) ∧
      (blocks rs').Pairwise fun b b' => b.2 + b.1.states.numItems ≤ b'.2 := by
  induction rs' with
  | nil => exact ⟨nofun, .nil⟩
  | cons nfa rs' ih =>
    obtain ⟨hpos, hpair⟩ := ih
    rw [blocks_cons]
    refine ⟨fun b hb => ?_, List.pairwise_cons.2 ⟨fun b hb => ?_, ?_⟩⟩
    · rcases List.mem_cons.1 hb with rfl | hb
      · exact le_rfl
      · obtain ⟨b', hb', rfl⟩ := List.mem_map.1 hb
        exact (hpos b' hb').trans (Nat.le_add_right _ _)
    · obtain ⟨b', hb', rfl⟩ := List.mem_map.1 hb
      exact Nat.add_le_add_right (hpos b' hb') _
    · rw [List.pairwise_map]
      refine hpair.imp fun {b b'} h => ?_
      simp only [Prod.map_fst, Prod.map_snd, id]
      omega

def merge (acc nfa : Nfa) : Nfa where
  states := nfa.states.union acc.states
  moves := nfa.moves.union acc.moves
  accepting := nfa.accepting.union acc.accepting

theorem foldl_merge {β : Type*} (f : β → Nfa) (l : List β) (acc : Nfa) :
    (∀ s, s ∈ ((l.map f).foldl merge acc).states ↔ s ∈ acc.states ∨ ∃ b ∈ l, s ∈ (f b).states) ∧
    (∀ m, m ∈ ((l.map f).foldl merge acc).moves ↔ m ∈ acc.moves ∨ ∃ b ∈ l, m ∈ (f b).moves) ∧
    ∀ p, p ∈ ((l.map f).foldl merge acc).accepting ↔
      p ∈ acc.accepting ∨ ∃ b ∈ l, p ∈ (f b).accepting := by
  induction l generalizing acc with
  | nil => simp
  | cons b l ih =>
    obtain ⟨hs, hm, hp⟩ := ih (merge acc (f b))
    rw [List.map_cons, List.foldl_cons]
    refine ⟨fun s => ?_, fun m => ?_, fun p => ?_⟩
    · rw [hs, merge, ListSet.mem_union, List.exists_mem_cons_iff]
      tauto
    · rw [hm, merge, ListSet.mem_union, List.exists_mem_cons_iff]
      tauto
    · rw [hp, merge, ListSet.mem_union, List.exists_mem_cons_iff]
      tauto

/-- **The automaton of the blocks.** -/
theorem buildPattern_eq {rs : List Syntax} {nfa : Nfa} (h : buildPattern rs = some nfa) :
    ∃ rs', buildAll rs 0 = some rs' ∧
      (∀ s, s ∈ nfa.states ↔ s = 0 ∨ ∃ b ∈ blocks rs', ∃ s' ∈ b.1.states, b.2 + s' = s) ∧
      (∀ s a t, (⟨s, a, t⟩ : Move) ∈ nfa.moves ↔
        (s = 0 ∧ a = none ∧ ∃ b ∈ blocks rs', t = b.2) ∨
        ∃ b ∈ blocks rs', ∃ s' t', s = b.2 + s' ∧ t = b.2 + t' ∧
          (⟨s', a, t'⟩ : Move) ∈ b.1.moves) ∧
      ∀ q i, toLex (q, i) ∈ nfa.accepting ↔
        ∃ b ∈ blocks rs', ∃ q', q = b.2 + q' ∧ toLex (q', i) ∈ b.1.accepting := by
  obtain ⟨rs', hrs', h⟩ := Option.bind_eq_some_iff.1 h
  obtain rfl := Option.some.inj h
  have hnews : List.zipWith renumberNfa rs' (renums rs') =
      (blocks rs').map fun b => renumberNfa b.1 b.2 := by
    rw [blocks, List.zip, List.map_zipWith]
  refine ⟨rs', hrs', ?_⟩
  rw [hnews, ← map_snd_blocks rs', List.map_map]
  obtain ⟨hs, hm, hp⟩ := foldl_merge (fun b => renumberNfa b.1 b.2) (blocks rs')
    { states := .singleton 0
      moves := ListSet.empty.addList ((blocks rs').map ((fun k => ⟨0, none, k⟩) ∘ Prod.snd))
      accepting := .empty }
  refine ⟨fun s => ?_, fun s a t => ?_, fun q i => ?_⟩
  · refine (hs s).trans ?_
    simp [ListSet.mem_singleton, renumberNfa, ListSet.mem_map, renumber]
  · refine (hm _).trans ?_
    simp only [ListSet.mem_addList, ListSet.not_mem_empty, false_or, List.mem_map,
      Function.comp_apply, Move.mk.injEq, renumberNfa, mem_renumberMove]
    refine or_congr ?_ Iff.rfl
    constructor
    · rintro ⟨b, hb, rfl, rfl, rfl⟩
      exact ⟨rfl, rfl, b, hb, rfl⟩
    · rintro ⟨rfl, rfl, b, hb, rfl⟩
      exact ⟨b, hb, rfl, rfl, rfl⟩
  · refine (hp _).trans ?_
    simp only [ListSet.not_mem_empty, false_or, renumberNfa, ListSet.mem_map]
    refine exists_congr fun b => and_congr_right fun _ => ?_
    constructor
    · rintro ⟨p, hp, heq⟩
      obtain ⟨rfl, rfl⟩ := Prod.mk.inj (toLex_inj.1 heq)
      exact ⟨_, rfl, hp⟩
    · rintro ⟨q', rfl, hq'⟩
      exact ⟨_, hq', rfl⟩

theorem buildAll_eq {rs : List Syntax} {n : ℕ} {rs' : List Nfa}
    (hne : ∀ re ∈ rs, nonemptySets re) (h : buildAll rs n = some rs') :
    rs'.length = rs.length ∧ ∀ i nfa, rs'[i]? = some nfa →
      ∃ re k L, rs[i]? = some re ∧ Fragment nfa (n + i) k L ∧ Agree L (RegExp.lang re) := by
  induction rs generalizing n rs' with
  | nil =>
    obtain rfl := Option.some.inj h
    exact ⟨rfl, nofun⟩
  | cons re rs ih =>
    obtain ⟨nfa₀, hnfa, h⟩ := Option.bind_eq_some_iff.1 h
    obtain ⟨nfas, hnfas, h⟩ := Option.bind_eq_some_iff.1 h
    obtain rfl := Option.some.inj h
    obtain ⟨hre, hrs⟩ := List.forall_mem_cons.1 hne
    obtain ⟨hlen, hget⟩ := ih hrs hnfas
    refine ⟨by rw [List.length_cons, List.length_cons, hlen], fun i nfa hi => ?_⟩
    rcases i with _ | i
    · obtain rfl := Option.some.inj hi
      obtain ⟨k, L, hfrag, hL⟩ := fragment_build' n re nfa₀ hre hnfa
      exact ⟨re, k, L, rfl, hfrag, hL⟩
    · obtain ⟨re', k, L, hre', hfrag, hL⟩ := hget i nfa hi
      rw [add_right_comm] at hfrag
      exact ⟨re', k, L, hre', hfrag, hL⟩

theorem blocks_disjoint {rs' : List Nfa} {i j s s' : ℕ} {b b' : Nfa × ℕ}
    (hi : (blocks rs')[i]? = some b) (hj : (blocks rs')[j]? = some b')
    (hs : s < b.1.states.numItems) (hs' : s' < b'.1.states.numItems)
    (h : b.2 + s = b'.2 + s') : i = j := by
  have hpair := List.pairwise_iff_getElem.1 (blocks_pairwise rs').2
  obtain ⟨hi', rfl⟩ := List.getElem?_eq_some_iff.1 hi
  obtain ⟨hj', rfl⟩ := List.getElem?_eq_some_iff.1 hj
  rcases lt_trichotomy i j with hlt | heq | hlt
  · have := hpair i j hi' hj' hlt
    omega
  · exact heq
  · have := hpair j i hj' hi' hlt
    omega

/-- **The automaton of some patterns.** -/
theorem recognizes_buildPattern {rs : List Syntax} {nfa : Nfa}
    (hne : ∀ re ∈ rs, nonemptySets re) (h : buildPattern rs = some nfa) :
    Recognizes nfa (patternLang rs) := by
  obtain ⟨rs', hrs', hstates, hmoves, hacc⟩ := buildPattern_eq h
  obtain ⟨hlen, hget⟩ := buildAll_eq hne hrs'
  have hpos := (blocks_pairwise rs').1
  have hblock : ∀ i b, (blocks rs')[i]? = some b →
      ∃ re k L, rs[i]? = some re ∧ Fragment b.1 i k L ∧ Agree L (RegExp.lang re) := by
    intro i b hb
    have hb' : rs'[i]? = some b.1 := by
      rw [← map_fst_blocks rs', List.getElem?_map, hb]
      rfl
    obtain ⟨re, k, L, hre, hfrag, hL⟩ := hget i b.1 hb'
    rw [Nat.zero_add] at hfrag
    exact ⟨re, k, L, hre, hfrag, hL⟩
  have hmem : ∀ b ∈ blocks rs', ∃ i, (blocks rs')[i]? = some b := fun b hb =>
    List.mem_iff_getElem?.1 hb
  -- a state of a block only leads to states of the block
  have hpart : ∀ i b, (blocks rs')[i]? = some b → ∀ k L, Fragment b.1 i k L →
      Part b.1.toεNFA nfa.toεNFA (renumber b.2) (upTo k) ∅ := by
    intro i b hb k L hfrag
    refine hfrag.part (fun s a t hm => (hmoves _ _ _).2 (.inr ⟨b, List.mem_of_getElem? hb, s, t,
      rfl, rfl, hm⟩)) fun s hs _ a u hm => ?_
    have hs' : s < b.1.states.numItems := by
      rw [hfrag.numItems]
      omega
    rcases (hmoves _ _ _).1 hm with ⟨hzero, -, -⟩ | ⟨b', hb', s', t', heq, rfl, hm'⟩
    · have := hpos b (List.mem_of_getElem? hb)
      omega
    · obtain ⟨j, hj⟩ := hmem b' hb'
      obtain ⟨re', k', L', -, hfrag', -⟩ := hblock j b' hj
      have hlt : s' < b'.1.states.numItems := by
        have hsrc : s' < k' := (hfrag'.bound _ hm').1
        rw [hfrag'.numItems]
        omega
      obtain rfl := blocks_disjoint hb hj hs' hlt heq
      obtain rfl := Option.some.inj (hb.symm.trans hj)
      obtain rfl : s = s' := Nat.add_left_cancel heq
      exact ⟨t', rfl, hm'⟩
  have hstep : ∀ a u, u ∈ nfa.toεNFA.step 0 a ↔ a = none ∧ ∃ b ∈ blocks rs', u = b.2 := by
    intro a u
    rw [mem_step, hmoves]
    constructor
    · rintro (⟨-, ha, hb⟩ | ⟨b, hb, s', t', heq, -⟩)
      · exact ⟨ha, hb⟩
      · have := hpos b hb
        omega
    · rintro ⟨ha, hb⟩
      exact .inl ⟨rfl, ha, hb⟩
  -- the words that lead to the last state of a block
  have hwords : ∀ i b, (blocks rs')[i]? = some b → ∀ k L, Fragment b.1 i k L → ∀ w,
      b.2 + k ∈ nfa.toεNFA.eval w ↔ w ∈ L := by
    intro i b hb k L hfrag w
    have hb1 := hpos b (List.mem_of_getElem? hb)
    have hlang := (hpart i b hb k L hfrag).pathLang_eq (t := k) (renumber_injective b.2)
      (Nat.zero_le k)
    rw [hfrag.lang] at hlang
    rw [mem_eval, mem_pathLang_of_step (by omega) hstep, ← hlang]
    constructor
    · rintro ⟨_, ⟨b', hb', rfl⟩, hw⟩
      obtain ⟨j, hj⟩ := hmem b' hb'
      obtain ⟨re', k', L', -, hfrag', -⟩ := hblock j b' hj
      obtain ⟨x, hx, hpath⟩ := hw
      obtain ⟨t, ht, heq, -⟩ := (hpart j b' hj k' L' hfrag').isPath_of_closed
        (s := 0) (Nat.zero_le k') hpath
      have ht : t ≤ k' := ht
      obtain rfl := blocks_disjoint hb hj (by rw [hfrag.numItems]; exact Nat.lt_succ_self k)
        (by rw [hfrag'.numItems]; exact Nat.lt_succ_of_le ht) heq
      obtain rfl := Option.some.inj (hb.symm.trans hj)
      exact ⟨x, hx, hpath⟩
    · intro hw
      exact ⟨b.2, ⟨b, List.mem_of_getElem? hb, rfl⟩, hw⟩
  have haccepting : ∀ q i, toLex (q, i) ∈ nfa.accepting ↔
      ∃ b k L, (blocks rs')[i]? = some b ∧ Fragment b.1 i k L ∧ q = b.2 + k := by
    intro q i
    rw [hacc]
    constructor
    · rintro ⟨b, hb, q', rfl, hq'⟩
      obtain ⟨j, hj⟩ := hmem b hb
      obtain ⟨re, k, L, -, hfrag, -⟩ := hblock j b hj
      rw [hfrag.accepting, ListSet.mem_singleton] at hq'
      obtain ⟨rfl, rfl⟩ := Prod.mk.inj (toLex_inj.1 hq')
      exact ⟨b, q', L, hj, hfrag, rfl⟩
    · rintro ⟨b, k, L, hb, hfrag, rfl⟩
      refine ⟨b, List.mem_of_getElem? hb, k, rfl, ?_⟩
      rw [hfrag.accepting, ListSet.mem_singleton]
  refine ⟨fun w hw i => ?_, fun q i j hi hj => ?_, (hstates 0).2 (.inl rfl), fun m hm => ?_⟩
  · rw [mem_patternLang]
    constructor
    · rintro ⟨q, hq, hev⟩
      obtain ⟨b, k, L, hb, hfrag, rfl⟩ := (haccepting q i).1 hq
      obtain ⟨re, k', L', hre, hfrag', hL'⟩ := hblock i b hb
      have hk : k + 1 = k' + 1 := hfrag.numItems.symm.trans hfrag'.numItems
      obtain rfl : k = k' := Nat.succ.inj hk
      exact ⟨re, hre, (hL' w hw).1 ((hwords i b hb k L' hfrag' w).1 hev)⟩
    · rintro ⟨re, hre, hw'⟩
      have hlt : i < (blocks rs').length := by
        have hi := (List.getElem?_eq_some_iff.1 hre).1
        have hmap := congrArg List.length (map_fst_blocks rs')
        rw [List.length_map] at hmap
        omega
      have hb := List.getElem?_eq_getElem hlt
      obtain ⟨re', k, L, hre', hfrag, hL⟩ := hblock i _ hb
      obtain rfl := Option.some.inj (hre.symm.trans hre')
      exact ⟨_, (haccepting _ i).2 ⟨_, k, L, hb, hfrag, rfl⟩,
        (hwords i _ hb k L hfrag w).2 ((hL w hw).2 hw')⟩
  · obtain ⟨b, k, L, hb, hfrag, rfl⟩ := (haccepting q i).1 hi
    obtain ⟨b', k', L', hb', hfrag', heq⟩ := (haccepting _ j).1 hj
    exact blocks_disjoint hb hb' (by rw [hfrag.numItems]; exact Nat.lt_succ_self k)
      (by rw [hfrag'.numItems]; exact Nat.lt_succ_self k') heq
  · obtain ⟨s, a, t⟩ := m
    rcases (hmoves s a t).1 hm with ⟨-, -, b, hb, rfl⟩ | ⟨b, hb, s', t', -, rfl, hm'⟩
    · obtain ⟨i, hi⟩ := hmem b hb
      obtain ⟨re, k, L, -, hfrag, -⟩ := hblock i b hi
      exact (hstates b.2).2 (.inr ⟨b, hb, 0, (hfrag.states 0).2 (Nat.succ_pos k), rfl⟩)
    · obtain ⟨i, hi⟩ := hmem b hb
      obtain ⟨re, k, L, -, hfrag, -⟩ := hblock i b hi
      have ht' : t' ≤ k := (hfrag.bound _ hm').2
      exact (hstates _).2 (.inr ⟨b, hb, t', (hfrag.states t').2 (Nat.lt_succ_of_le ht'), rfl⟩)

end Nfa

end SmlNj.RegExp
