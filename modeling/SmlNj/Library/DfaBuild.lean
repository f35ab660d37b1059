import SmlNj.Library.NfaPattern

/-!
# Reachable states and the subset construction

The closure of some states under the moves that read nothing is computed in rounds, and is that of
Mathlib.  So are the states that are reached with a character.

The states of the deterministic automaton are the sets of states that the nondeterministic one
reaches.  They are found with a stack, on which each is put once, so that there are not more rounds
than sets of states; then they are numbered.

## Main definitions

* `Visited`, `Explored` — the invariants of the search.
* `Determinizes` — the states of an automaton stand for sets of states of another.

## Main results

* `closure_eq` — the closure.
* `start_eq`, `move_eq` — the states that are reached without reading, and with a character.
* `loop_eq` — the search ends, and finds all sets that are reached.
* `build'_determinizes` — the subset construction.
-/

namespace SmlNj.RegExp

namespace Nfa

variable {nfa : Nfa}

def toSet (x : ListSet ℕ) : Set ℕ := {q | q ∈ x}

theorem mem_toSet {x : ListSet ℕ} {q : ℕ} : q ∈ toSet x ↔ q ∈ x := Iff.rfl

/-- **What a round does**: the states that are added are reached from the others, and when none is
added, then no move leads to a new state. -/
structure Round (nfa : Nfa) (ms : List Move) (states : ListSet ℕ) (acc : Bool × ListSet ℕ) :
    Prop where
  subset : ∀ q ∈ states, q ∈ acc.2
  reach : ∀ q ∈ acc.2, q ∈ nfa.toεNFA.εClosure (toSet states)
  unmodified : acc.1 = false → acc.2 = states ∧
    ∀ m ∈ ms, m.char = none → m.src ∈ states → m.dst ∈ states
  modified : acc.1 = true → ∃ m ∈ ms, m.dst ∈ acc.2 ∧ m.dst ∉ states

theorem round_foldr {ms : List Move} (hms : ∀ m ∈ ms, m ∈ nfa.moves) (states : ListSet ℕ) :
    Round nfa ms states (ms.foldr addState (false, states)) := by
  induction ms with
  | nil =>
    exact ⟨fun _ h => h, fun q h => εNFA.εClosure.base q h, fun _ => ⟨rfl, fun _ h => absurd h
      List.not_mem_nil⟩, nofun⟩
  | cons m ms ih =>
    obtain ⟨hm, hms⟩ := List.forall_mem_cons.1 hms
    have h := ih hms
    rw [List.foldr_cons]
    obtain ⟨src, char, dst⟩ := m
    cases char with
    | some c =>
      refine ⟨h.subset, h.reach, fun hf => ⟨(h.unmodified hf).1, fun m' hm' hnone => ?_⟩,
        fun ht => ?_⟩
      · rcases List.mem_cons.1 hm' with rfl | hm'
        · cases hnone
        · exact (h.unmodified hf).2 m' hm' hnone
      · obtain ⟨m', hm', hrest⟩ := h.modified ht
        exact ⟨m', List.mem_cons_of_mem _ hm', hrest⟩
    | none =>
      rw [addState]
      dsimp only
      split
      · next hadd =>
        rw [Bool.and_eq_true, Bool.not_eq_true', ListSet.member_iff, ← Bool.not_eq_true,
          ListSet.member_iff] at hadd
        obtain ⟨hsrc, hdst⟩ := hadd
        refine ⟨fun q hq => ListSet.mem_add.2 (.inr (h.subset q hq)), fun q hq => ?_, nofun,
          fun _ => ?_⟩
        · rcases ListSet.mem_add.1 hq with rfl | hq
          · exact εNFA.εClosure.step src q hm (h.reach src hsrc)
          · exact h.reach q hq
        · exact ⟨_, List.mem_cons_self, ListSet.mem_add.2 (.inl rfl),
            fun hcon => hdst (h.subset dst hcon)⟩
      · next hadd =>
        rw [Bool.and_eq_true, Bool.not_eq_true', ListSet.member_iff, ← Bool.not_eq_true,
          ListSet.member_iff, not_and, not_not] at hadd
        refine ⟨h.subset, h.reach, fun hf => ?_, fun ht => ?_⟩
        · obtain ⟨heq, hclosed⟩ := h.unmodified hf
          rw [heq] at hadd
          refine ⟨heq, fun m' hm' hnone => ?_⟩
          rcases List.mem_cons.1 hm' with rfl | hm'
          · exact hadd
          · exact hclosed m' hm' hnone
        · obtain ⟨m', hm', hrest⟩ := h.modified ht
          exact ⟨m', List.mem_cons_of_mem _ hm', hrest⟩

/-! ### The closure -/

def outside (nfa : Nfa) (states : ListSet ℕ) : ℕ :=
  (nfa.moves.items.filter fun m => !states.member m.dst).length

theorem outside_le (nfa : Nfa) (states : ListSet ℕ) : outside nfa states ≤ nfa.moves.numItems :=
  List.length_filter_le _ _

theorem Round.outside_lt {states : ListSet ℕ} {acc : Bool × ListSet ℕ}
    (h : Round nfa nfa.moves.items states acc) (ht : acc.1 = true) :
    outside nfa acc.2 < outside nfa states := by
  obtain ⟨m, hm, hin, hout⟩ := h.modified ht
  have hsub : (nfa.moves.items.filter fun m => !acc.2.member m.dst).Sublist
      (nfa.moves.items.filter fun m => !states.member m.dst) := by
    refine List.monotone_filter_right _ fun m' hm' => ?_
    rw [Bool.not_eq_true', ← Bool.not_eq_true, ListSet.member_iff] at hm' ⊢
    exact fun hcon => hm' (h.subset _ hcon)
  refine lt_of_le_of_ne hsub.length_le fun heq => ?_
  -- the move that added a state is in one of the lists only
  have hmem : m ∈ nfa.moves.items.filter fun m => !states.member m.dst := by
    rw [List.mem_filter, Bool.not_eq_true', ← Bool.not_eq_true, ListSet.member_iff]
    exact ⟨hm, hout⟩
  rw [← hsub.eq_of_length heq, List.mem_filter, Bool.not_eq_true', ← Bool.not_eq_true,
    ListSet.member_iff] at hmem
  exact hmem.2 hin

theorem closureLoop_eq {fuel : ℕ} {states : ListSet ℕ} (h : outside nfa states < fuel) :
    ∃ x, closureLoop nfa fuel states = some x ∧ toSet x = nfa.toεNFA.εClosure (toSet states) := by
  induction fuel generalizing states with
  | zero => exact absurd h (Nat.not_lt_zero _)
  | succ fuel ih =>
    have hround := round_foldr (fun m (hm : m ∈ nfa.moves.items) => hm) states
    rw [closureLoop]
    generalize nfa.moves.items.foldr addState (false, states) = acc at hround ⊢
    obtain ⟨modified, new⟩ := acc
    cases modified with
    | true =>
      have hlt := hround.outside_lt rfl
      obtain ⟨x, hx, hset⟩ := ih (lt_of_lt_of_le hlt (Nat.le_of_lt_succ h))
      refine ⟨x, hx, hset.trans (Set.Subset.antisymm ?_ ?_)⟩
      · intro q hq
        induction hq with
        | base q hq => exact hround.reach q hq
        | step s t hst _ ih => exact εNFA.εClosure.step s t hst ih
      · intro q hq
        induction hq with
        | base q hq => exact εNFA.εClosure.base q (hround.subset q hq)
        | step s t hst _ ih => exact εNFA.εClosure.step s t hst ih
    | false =>
      obtain ⟨rfl, hclosed⟩ := hround.unmodified rfl
      refine ⟨_, rfl, Set.Subset.antisymm (fun q hq => εNFA.εClosure.base q hq) fun q hq => ?_⟩
      induction hq with
      | base q hq => exact hq
      | step s t hst _ ih => exact hclosed _ hst rfl ih

/-- **The closure of some states.** -/
theorem closure_eq (nfa : Nfa) (states : ListSet ℕ) :
    ∃ x, closure nfa states = some x ∧ toSet x = nfa.toεNFA.εClosure (toSet states) :=
  closureLoop_eq (Nat.lt_succ_of_le (outside_le nfa states))

theorem start_eq (nfa : Nfa) : ∃ x, nfa.start = some x ∧ toSet x = nfa.toεNFA.eval [] := by
  obtain ⟨x, hx, hset⟩ := closure_eq nfa (.singleton 0)
  refine ⟨x, hx, hset.trans ?_⟩
  have hstart : toSet (.singleton 0) = nfa.toεNFA.start := by
    ext q
    rw [mem_toSet, ListSet.mem_singleton]
    rfl
  rw [hstart, εNFA.eval_nil]

/-! ### Moves with a character -/

theorem mem_oneMove {orig q : ℕ} {c : Char} :
    q ∈ oneMove nfa orig c ↔ (⟨orig, some c, q⟩ : Move) ∈ nfa.moves := by
  rw [oneMove, ← ListSet.mem_items (s := nfa.moves)]
  induction nfa.moves.items with
  | nil => simp
  | cons m ms ih =>
    obtain ⟨src, char, dst⟩ := m
    rw [List.foldr_cons, List.mem_cons]
    cases char with
    | none => simpa using ih
    | some c' =>
      dsimp only
      split
      · next heq =>
        rw [ListSet.mem_add, Move.mk.injEq]
        tauto
      · next hne =>
        rw [Move.mk.injEq, Option.some.injEq]
        tauto

theorem move_eq (nfa : Nfa) (s : ℕ) (c : Char) :
    ∃ x, nfa.move s c = some x ∧ toSet x = nfa.toεNFA.εClosure (nfa.toεNFA.step s (some c)) := by
  obtain ⟨x, hx, hset⟩ := closure_eq nfa (oneMove nfa s c)
  refine ⟨x, hx, hset.trans ?_⟩
  have hstep : toSet (oneMove nfa s c) = nfa.toεNFA.step s (some c) := by
    ext q
    rw [mem_toSet, mem_oneMove]
    rfl
  rw [hstep]

/-- The characters that a state reads. -/
theorem mem_chars {s : ℕ} {c : Char} :
    c ∈ nfa.chars s ↔ ∃ t, (⟨s, some c, t⟩ : Move) ∈ nfa.moves := by
  have hempty : (∃ t, (⟨s, some c, t⟩ : Move) ∈ nfa.moves) ↔
      c ∈ (ListSet.empty : ListSet Char) ∨ ∃ t, (⟨s, some c, t⟩ : Move) ∈ nfa.moves.items := by
    simp [ListSet.mem_items]
  rw [chars, ListSet.mem_items, hempty]
  generalize (ListSet.empty : ListSet Char) = set
  induction nfa.moves.items generalizing set with
  | nil => simp
  | cons m ms ih =>
    obtain ⟨src, char, dst⟩ := m
    refine (ih _).trans ?_
    simp only [List.mem_cons, Move.mk.injEq]
    cases char with
    | none => simp
    | some c' =>
      dsimp only
      split
      · next heq =>
        subst heq
        simp only [ListSet.mem_add, Option.some.injEq, true_and]
        constructor
        · rintro ((rfl | hc) | ⟨t, ht⟩)
          · exact .inr ⟨dst, .inl ⟨rfl, rfl⟩⟩
          · exact .inl hc
          · exact .inr ⟨t, .inr ht⟩
        · rintro (hc | ⟨t, ⟨rfl, -⟩ | ht⟩)
          · exact .inl (.inr hc)
          · exact .inl (.inl rfl)
          · exact .inr ⟨t, ht⟩
      · next hne => simp [Ne.symm hne]

end Nfa

/-! ## The subset construction -/

namespace Dfa

open Nfa

variable {nfa : Nfa}

variable {x : ListSet ℕ} {c : Char} {Ls : ℕ → Language Char} {all : List (ListSet ℕ)} {n i : ℕ}

theorem mem_getAllChars :
    c ∈ getAllChars nfa x ↔ ∃ s ∈ x, ∃ t, (⟨s, some c, t⟩ : Move) ∈ nfa.moves := by
  have hfold : ∀ (l : List ℕ) (cs : ListSet Char),
      c ∈ l.foldl (fun cs s => cs.addList (nfa.chars s)) cs ↔
        c ∈ cs ∨ ∃ s ∈ l, ∃ t, (⟨s, some c, t⟩ : Move) ∈ nfa.moves := by
    intro l
    induction l with
    | nil => simp
    | cons s l ih =>
      intro cs
      rw [List.foldl_cons, ih, ListSet.mem_addList, mem_chars, List.exists_mem_cons_iff, or_assoc]
  rw [getAllChars, hfold]
  simp [ListSet.mem_items]

theorem getAllStates_eq (nfa : Nfa) (x : ListSet ℕ) (c : Char) :
    ∃ u, getAllStates nfa x c = some u ∧ toSet u = nfa.toεNFA.stepSet (toSet x) c := by
  have hfold : ∀ (l : List ℕ) (ss : ListSet ℕ),
      ∃ u, l.foldlM (fun ss s => (nfa.move s c).map ss.union) ss = some u ∧ ∀ q, q ∈ u ↔
        q ∈ ss ∨ ∃ s ∈ l, q ∈ nfa.toεNFA.εClosure (nfa.toεNFA.step s (some c)) := by
    intro l
    induction l with
    | nil => exact fun ss => ⟨ss, rfl, by simp⟩
    | cons s l ih =>
      intro ss
      obtain ⟨x, hx, hset⟩ := move_eq nfa s c
      obtain ⟨u, hu, hmem⟩ := ih (ss.union x)
      refine ⟨u, ?_, fun q => ?_⟩
      · rw [List.foldlM_cons, hx]
        exact hu
      · rw [hmem, ListSet.mem_union, List.exists_mem_cons_iff, or_assoc, ← hset, mem_toSet]
  obtain ⟨u, hu, hmem⟩ := hfold x.items .empty
  refine ⟨u, hu, ?_⟩
  ext q
  rw [mem_toSet, hmem]
  simp [ListSet.mem_items, mem_toSet]

theorem stepSet_eq_empty (h : c ∉ getAllChars nfa x) : nfa.toεNFA.stepSet (toSet x) c = ∅ := by
  refine Set.eq_empty_of_forall_notMem fun q hq => ?_
  obtain ⟨s, hs, hq⟩ := (nfa.toεNFA.mem_stepSet_iff).1 hq
  have hempty : nfa.toεNFA.step s (some c) = ∅ :=
    Set.eq_empty_of_forall_notMem fun t ht => h (mem_getAllChars.2 ⟨s, hs, t, ht⟩)
  rw [hempty, εNFA.εClosure_empty] at hq
  exact hq

theorem mem_states_of_εClosure (h : Recognizes nfa Ls) {S : Set ℕ} (hS : ∀ q ∈ S, q ∈ nfa.states) :
    ∀ q ∈ nfa.toεNFA.εClosure S, q ∈ nfa.states := by
  intro q hq
  induction hq with
  | base q hq => exact hS q hq
  | step s t hst _ _ => exact h.moves _ hst

/-! ### The search -/

/-- **The destinations of a set of states** with the characters of a list: the new ones are on a
stack, once each. -/
structure Visited (nfa : Nfa) (x : ListSet ℕ) (set : ListSet (ListSet ℕ)) (cl : List Char)
    (acc : List (ListSet ℕ) × ListSet (ListSet ℕ) × List SetMove) : Prop where
  nodup : acc.1.Nodup
  stack : ∀ u, u ∈ acc.1 ↔ u ∈ acc.2.1
  fresh : ∀ u ∈ acc.1, u ∉ set ∧ ∃ c, getAllStates nfa x c = some u
  mem_moves : ∀ m, m ∈ acc.2.2 ↔ ∃ c ∈ cl, ∃ u, getAllStates nfa x c = some u ∧ m = (x, c, u)
  dest : ∀ m ∈ acc.2.2, m.2.2 ∈ set ∨ m.2.2 ∈ acc.1

theorem Visited.moves_concat {set : ListSet (ListSet ℕ)} {cl : List Char}
    {acc : List (ListSet ℕ) × ListSet (ListSet ℕ) × List SetMove} (h : Visited nfa x set cl acc)
    {u : ListSet ℕ} (hu : getAllStates nfa x c = some u) (m : SetMove) :
    m ∈ (x, c, u) :: acc.2.2 ↔
      ∃ c' ∈ cl ++ [c], ∃ u, getAllStates nfa x c' = some u ∧ m = (x, c', u) := by
  rw [List.mem_cons, h.mem_moves]
  constructor
  · rintro (rfl | ⟨c', hc', hm⟩)
    · exact ⟨c, List.mem_concat_self, u, hu, rfl⟩
    · exact ⟨c', List.mem_append_left _ hc', hm⟩
  · rintro ⟨c', hc', u', hu', rfl⟩
    rcases List.mem_append.1 hc' with hc' | hc'
    · exact .inr ⟨c', hc', u', hu', rfl⟩
    · obtain rfl := List.mem_singleton.1 hc'
      obtain rfl := Option.some.inj (hu.symm.trans hu')
      exact .inl rfl

theorem visit_eq (nfa : Nfa) (x : ListSet ℕ) (set : ListSet (ListSet ℕ)) (cl : List Char) :
    ∃ acc, visit nfa x set cl = some acc ∧ Visited nfa x set cl acc := by
  induction cl using List.reverseRecOn with
  | nil => exact ⟨_, rfl, .nil, by simp, nofun, by simp, nofun⟩
  | append_singleton cl c ih =>
    obtain ⟨⟨ns, sd, ml⟩, hacc, h⟩ := ih
    obtain ⟨u, hu, -⟩ := getAllStates_eq nfa x c
    rw [visit] at hacc ⊢
    rw [List.foldlM_append, hacc]
    simp only [Option.bind_eq_bind, Option.bind_some, List.foldlM_cons, hu]
    have hmoves := h.moves_concat hu
    split
    · next hnew =>
      rw [Bool.and_eq_true, Bool.not_eq_true', Bool.not_eq_true', ← Bool.not_eq_true,
        ← Bool.not_eq_true, ListSet.member_iff, ListSet.member_iff] at hnew
      refine ⟨_, rfl, ?_, fun v => ?_, fun v hv => ?_, hmoves, fun m hm => ?_⟩
      · exact List.nodup_cons.2 ⟨fun hmem => hnew.2 ((h.stack u).1 hmem), h.nodup⟩
      · rw [List.mem_cons, ListSet.mem_add, h.stack]
      · rcases List.mem_cons.1 hv with rfl | hv
        · exact ⟨hnew.1, c, hu⟩
        · exact h.fresh v hv
      · rcases List.mem_cons.1 hm with rfl | hm
        · exact .inr List.mem_cons_self
        · exact (h.dest m hm).imp_right (List.mem_cons_of_mem _)
    · next hold =>
      refine ⟨_, rfl, h.nodup, h.stack, h.fresh, hmoves, fun m hm => ?_⟩
      rcases List.mem_cons.1 hm with rfl | hm
      · -- the destination has been seen before
        by_cases hset : u ∈ set
        · exact .inl hset
        · refine .inr ((h.stack u).2 (by_contra fun hsd => hold ?_))
          rw [Bool.and_eq_true, Bool.not_eq_true', Bool.not_eq_true', ← Bool.not_eq_true,
            ← Bool.not_eq_true, ListSet.member_iff, ListSet.member_iff]
          exact ⟨hset, hsd⟩
      · exact h.dest m hm

/-- **The search**: the sets that have been visited, the ones on the stack, and the moves of the
former. -/
structure Explored (nfa : Nfa) (start : ListSet ℕ) (done xs : List (ListSet ℕ))
    (set : ListSet (ListSet ℕ)) (moves : List SetMove) : Prop where
  nodup : (done ++ xs).Nodup
  mem : ∀ u, u ∈ set ↔ u ∈ done ++ xs
  start_mem : start ∈ set
  mem_moves : ∀ m, m ∈ moves ↔ ∃ x ∈ done, ∃ c ∈ getAllChars nfa x, ∃ u,
    getAllStates nfa x c = some u ∧ m = (x, c, u)
  dest : ∀ m ∈ moves, m.2.2 ∈ set
  valid : ∀ x ∈ set, ∀ q ∈ x, q ∈ nfa.states

variable {start : ListSet ℕ} {done xs : List (ListSet ℕ)} {set : ListSet (ListSet ℕ)}
  {moves : List SetMove}

/-- A set of states is visited. -/
theorem Explored.step {acc : List (ListSet ℕ) × ListSet (ListSet ℕ) × List SetMove}
    (h : Explored nfa start done (x :: xs) set moves) (hnfa : Recognizes nfa Ls)
    (hv : Visited nfa x set (getAllChars nfa x).items acc) :
    Explored nfa start (x :: done) (acc.1 ++ xs) (set.union acc.2.1) (acc.2.2 ++ moves) := by
  obtain ⟨ns, sd, ml⟩ := acc
  have hperm : (x :: done ++ (ns ++ xs)).Perm (ns ++ (done ++ x :: xs)) := by
    refine ((List.perm_append_comm_assoc done ns xs).cons x).trans ?_
    refine List.Perm.trans ?_ ((List.perm_middle.symm).append_left ns)
    exact List.perm_middle.symm
  refine ⟨?_, fun u => ?_, ListSet.mem_union.2 (.inl h.start_mem), fun m => ?_, fun m hm => ?_,
    fun y hy q hq => ?_⟩
  · rw [hperm.nodup_iff, List.nodup_append]
    refine ⟨hv.nodup, h.nodup, fun u hu v hmem heq => (hv.fresh u hu).1 ?_⟩
    rw [heq]
    exact (h.mem v).2 hmem
  · rw [ListSet.mem_union, hperm.mem_iff, List.mem_append, h.mem, ← hv.stack, or_comm]
  · rw [List.mem_append, hv.mem_moves, h.mem_moves, List.exists_mem_cons_iff]
    rfl
  · rcases List.mem_append.1 hm with hm | hm
    · exact ListSet.mem_union.2 ((hv.dest m hm).imp_right (hv.stack _).1)
    · exact ListSet.mem_union.2 (.inl (h.dest m hm))
  · rcases ListSet.mem_union.1 hy with hy | hy
    · exact h.valid y hy q hq
    · obtain ⟨-, c, hc⟩ := hv.fresh y ((hv.stack y).2 hy)
      obtain ⟨u, hu, hset⟩ := getAllStates_eq nfa x c
      obtain rfl := Option.some.inj (hc.symm.trans hu)
      have hq : q ∈ nfa.toεNFA.stepSet (toSet x) c := hset ▸ hq
      obtain ⟨s, -, hq⟩ := (nfa.toεNFA.mem_stepSet_iff).1 hq
      exact mem_states_of_εClosure hnfa (fun t ht => hnfa.moves _ ht) q hq

theorem length_le_two_pow {S : ListSet ℕ} {l : List (ListSet ℕ)} (hl : l.Nodup)
    (h : ∀ x ∈ l, ∀ q ∈ x, q ∈ S) : l.length ≤ 2 ^ S.numItems := by
  have hinj : Function.Injective fun x : ListSet ℕ => x.items.toFinset := by
    intro x y hxy
    ext q
    have := Finset.ext_iff.1 hxy q
    rwa [List.mem_toFinset, List.mem_toFinset] at this
  have hsub : (l.map fun x => x.items.toFinset).toFinset ⊆ S.items.toFinset.powerset := by
    intro f hf
    obtain ⟨x, hx, rfl⟩ := List.mem_map.1 (List.mem_toFinset.1 hf)
    exact Finset.mem_powerset.2 fun q hq =>
      List.mem_toFinset.2 (h x hx q (List.mem_toFinset.1 hq))
  have hcard := Finset.card_le_card hsub
  rwa [List.toFinset_card_of_nodup (hl.map hinj), List.length_map, Finset.card_powerset,
    List.toFinset_card_of_nodup (S.sorted.imp ne_of_lt)] at hcard

/-- **The search ends**, and finds all sets that are reached. -/
theorem loop_eq {fuel : ℕ} (hnfa : Recognizes nfa Ls) (h : Explored nfa start done xs set moves)
    (hfuel : 2 ^ nfa.states.numItems < fuel + done.length) :
    ∃ set' moves' done', loop nfa fuel xs set moves = some (set', moves') ∧
      Explored nfa start done' [] set' moves' := by
  induction fuel generalizing done xs set moves with
  | zero =>
    have hle := length_le_two_pow h.nodup fun x hx => h.valid x ((h.mem x).2 hx)
    rw [List.length_append] at hle
    omega
  | succ fuel ih =>
    rcases xs with _ | ⟨x, xs⟩
    · exact ⟨set, moves, done, by rw [loop], h⟩
    · obtain ⟨acc, hacc, hv⟩ := visit_eq nfa x set (getAllChars nfa x).items
      have hlen : 2 ^ nfa.states.numItems < fuel + (x :: done).length := by
        rw [List.length_cons]
        omega
      obtain ⟨set', moves', done', hloop, h'⟩ := ih (h.step hnfa hv) hlen
      refine ⟨set', moves', done', ?_, h'⟩
      rw [loop, hacc]
      exact hloop

def Numbers (map : NumMap) (all : List (ListSet ℕ)) : Prop :=
  ∀ x i, map.find x = some i ↔ all[i]? = some x

theorem Numbers.insert {map : NumMap} (h : Numbers map all) {y : ListSet ℕ} (hy : y ∉ all) :
    Numbers ((y, all.length) :: map) (all ++ [y]) := by
  intro x i
  rw [NumMap.find, List.lookup_cons]
  by_cases hxy : x = y
  · subst hxy
    rw [beq_self_eq_true, Option.some.injEq]
    constructor
    · rintro rfl
      exact List.getElem?_concat_length
    · intro hi
      rw [List.getElem?_append] at hi
      split at hi
      · exact absurd (List.mem_of_getElem? hi) hy
      · next hlt =>
        have := (List.getElem?_eq_some_iff.1 hi).1
        rw [List.length_singleton] at this
        omega
  · rw [beq_eq_false_iff_ne.2 hxy]
    refine (h x i).trans ?_
    rw [List.getElem?_append]
    split
    · rfl
    · next hlt =>
      rw [List.getElem?_eq_none (not_lt.1 hlt)]
      refine iff_of_false nofun fun hi => hxy ?_
      exact (List.mem_singleton.1 (List.mem_of_getElem? hi))

theorem numbers_foldl {l : List (ListSet ℕ)} {map : NumMap} (h : Numbers map all)
    (hl : (all ++ l).Nodup) :
    ∃ map', l.foldl (fun (map, num) is => ((is, num) :: map, num + 1)) (map, all.length) =
      (map', (all ++ l).length) ∧ Numbers map' (all ++ l) := by
  induction l generalizing all map with
  | nil => exact ⟨map, by simp, by simpa using h⟩
  | cons y l ih =>
    have hy : y ∉ all := fun hmem => (List.nodup_append.1 hl).2.2 y hmem y List.mem_cons_self rfl
    rw [List.append_cons] at hl ⊢
    obtain ⟨map', hmap, hnum⟩ := ih (h.insert hy) hl
    refine ⟨map', ?_, hnum⟩
    rw [List.foldl_cons, ← hmap, List.length_append, List.length_singleton]

/-- **The numbers of the sets**: the start has number 0. -/
theorem numberSets_eq {start : ListSet ℕ} {sSet' : ListSet (ListSet ℕ)} (h : start ∉ sSet') :
    ∃ sMap, numberSets start sSet' = (sMap, (start :: sSet'.items).length) ∧
      Numbers sMap (start :: sSet'.items) ∧ (start :: sSet'.items).Nodup := by
  have hnodup : ([start] ++ sSet'.items).Nodup :=
    List.nodup_cons.2 ⟨h, sSet'.sorted.imp ne_of_lt⟩
  have hstart : Numbers [(start, 0)] [start] := by
    have hnil : Numbers [] [] := fun x i => iff_of_false nofun nofun
    exact hnil.insert List.not_mem_nil
  obtain ⟨sMap, hmap, hnum⟩ := numbers_foldl hstart hnodup
  exact ⟨sMap, hmap, hnum, hnodup⟩

/-! ### What a set of states accepts -/

def patterns (nfa : Nfa) (x : ListSet ℕ) : Set ℕ := {n | ∃ q ∈ x, toLex (q, n) ∈ nfa.accepting}

theorem accepted_iff (hnfa : Recognizes nfa Ls) {q : ℕ} :
    nfa.accepted q = some n ↔ toLex (q, n) ∈ nfa.accepting := by
  rw [Nfa.accepted, Option.map_eq_some_iff]
  constructor
  · rintro ⟨p, hp, rfl⟩
    have hmem := List.mem_of_find?_eq_some hp
    have hq := List.find?_some hp
    rw [decide_eq_true_eq] at hq
    rw [← hq]
    exact hmem
  · intro hmem
    have hsome : (nfa.accepting.items.find? fun p => (ofLex p).1 = q).isSome := by
      rw [List.find?_isSome]
      exact ⟨_, hmem, by simp⟩
    obtain ⟨p, hp⟩ := Option.isSome_iff_exists.1 hsome
    have hq := List.find?_some hp
    rw [decide_eq_true_eq] at hq
    have hp' : toLex (q, (ofLex p).2) ∈ nfa.accepting := by
      rw [← hq]
      exact List.mem_of_find?_eq_some hp
    exact ⟨p, hp, hnfa.functional q _ _ hp' hmem⟩

theorem foldl_min (hd : ℕ) (tl : List ℕ) :
    IsLeast {n | n ∈ hd :: tl} (tl.foldl (fun min n => if n < min then n else min) hd) := by
  induction tl generalizing hd with
  | nil => exact ⟨List.mem_cons_self, fun n hn => (List.mem_singleton.1 hn).ge⟩
  | cons n tl ih =>
    rw [List.foldl_cons]
    obtain ⟨hmem, hle⟩ := ih (if n < hd then n else hd)
    have hmin : (if n < hd then n else hd) ≤ n ∧ (if n < hd then n else hd) ≤ hd := by
      split <;> omega
    have hfirst := hle List.mem_cons_self
    refine ⟨?_, fun m hm => ?_⟩
    · rcases List.mem_cons.1 hmem with heq | hmem
      · rw [heq]
        split
        · exact List.mem_cons_of_mem _ List.mem_cons_self
        · exact List.mem_cons_self
      · exact List.mem_cons_of_mem _ (List.mem_cons_of_mem _ hmem)
    · rcases List.mem_cons.1 hm with rfl | hm
      · exact hfirst.trans hmin.2
      · rcases List.mem_cons.1 hm with rfl | hm
        · exact hfirst.trans hmin.1
        · exact hle (List.mem_cons_of_mem _ hm)

theorem mapM_accepted (l : List ℕ) (h : ∀ q ∈ l, (nfa.accepted q).isSome) :
    ∃ ns, l.mapM nfa.accepted = some ns ∧ ns.length = l.length ∧
      ∀ n, n ∈ ns ↔ ∃ q ∈ l, nfa.accepted q = some n := by
  induction l with
  | nil => exact ⟨[], rfl, rfl, by simp⟩
  | cons q l ih =>
    obtain ⟨hq, hl⟩ := List.forall_mem_cons.1 h
    obtain ⟨n₀, hn₀⟩ := Option.isSome_iff_exists.1 hq
    obtain ⟨ns, hns, hlen, hmem⟩ := ih hl
    refine ⟨n₀ :: ns, by rw [List.mapM_cons, hn₀, hns]; rfl, by simp [hlen], fun n => ?_⟩
    rw [List.mem_cons, hmem, List.exists_mem_cons_iff, hn₀, Option.some.injEq, eq_comm]

theorem minPattern_eq (hnfa : Recognizes nfa Ls) (x : ListSet ℕ) :
    let items := x.filter fun k => (nfa.accepted k).isSome
    (items.isEmpty = true → patterns nfa x = ∅) ∧
      (items.isEmpty = false → ∃ n, minPattern nfa items = some n ∧ IsLeast (patterns nfa x) n) := by
  intro items
  have hmem : ∀ q, q ∈ items ↔ q ∈ x ∧ (nfa.accepted q).isSome := fun q => ListSet.mem_filter
  have hpat : ∀ n, n ∈ patterns nfa x ↔ ∃ q ∈ items.items, nfa.accepted q = some n := by
    intro n
    constructor
    · rintro ⟨q, hq, hacc⟩
      have hsome := (accepted_iff hnfa).2 hacc
      exact ⟨q, (hmem q).2 ⟨hq, by rw [hsome]; rfl⟩, hsome⟩
    · rintro ⟨q, hq, hacc⟩
      exact ⟨q, ((hmem q).1 hq).1, (accepted_iff hnfa).1 hacc⟩
  obtain ⟨ns, hns, hlen, hmem'⟩ := mapM_accepted items.items fun q hq => ((hmem q).1 hq).2
  refine ⟨fun hempty => ?_, fun hne => ?_⟩
  · rw [ListSet.isEmpty, List.isEmpty_iff] at hempty
    refine Set.eq_empty_of_forall_notMem fun n hn => ?_
    obtain ⟨q, hq, -⟩ := (hpat n).1 hn
    rw [hempty] at hq
    cases hq
  · rcases ns with _ | ⟨hd, tl⟩
    · rw [ListSet.isEmpty, List.isEmpty_eq_false_iff] at hne
      exact absurd (List.length_eq_zero_iff.1 hlen.symm) hne
    · obtain ⟨hleast, hlower⟩ := foldl_min hd tl
      refine ⟨_, by rw [minPattern, hns]; rfl, (hpat _).2 ((hmem' _).1 hleast), fun n hn => ?_⟩
      exact hlower ((hmem' n).2 ((hpat n).1 hn))

/-- **The accepting sets of states** with the least numbers of their patterns. -/
theorem acceptSets_eq (hnfa : Recognizes nfa Ls) {sMap : NumMap} (hmap : Numbers sMap all)
    {sSet : ListSet (ListSet ℕ)} (hall : ∀ x ∈ sSet, x ∈ all) :
    ∃ accept, acceptSets nfa sMap sSet = some accept ∧ ∀ i n, toLex (i, n) ∈ accept ↔
      ∃ x ∈ sSet, all[i]? = some x ∧ IsLeast (patterns nfa x) n := by
  have hfold : ∀ (l : List (ListSet ℕ)) (cis : ListSet (ℕ ×ₗ ℕ)), (∀ x ∈ l, x ∈ all) →
      ∃ accept, l.foldlM (fun cis is =>
        let items := is.filter fun k => (nfa.accepted k).isSome
        if items.isEmpty then some cis
        else do
          let i ← sMap.find is
          let n ← minPattern nfa items
          some (cis.add (toLex (i, n)))) cis = some accept ∧
        ∀ i n, toLex (i, n) ∈ accept ↔ toLex (i, n) ∈ cis ∨
          ∃ x ∈ l, all[i]? = some x ∧ IsLeast (patterns nfa x) n := by
    intro l
    induction l with
    | nil => exact fun cis _ => ⟨cis, rfl, by simp⟩
    | cons x l ih =>
      intro cis hl
      obtain ⟨hx, hl⟩ := List.forall_mem_cons.1 hl
      obtain ⟨hempty, hne⟩ := minPattern_eq hnfa x
      rw [List.foldlM_cons]
      dsimp only at hempty hne ⊢
      cases hitems : (x.filter fun k => (nfa.accepted k).isSome).isEmpty with
      | true =>
        obtain ⟨accept, hacc, hmem⟩ := ih cis hl
        refine ⟨accept, hacc, fun i n => ?_⟩
        rw [hmem, List.exists_mem_cons_iff, hempty hitems]
        have hno : ¬IsLeast (∅ : Set ℕ) n := fun h => h.1
        tauto
      | false =>
        obtain ⟨n₀, hn₀, hleast⟩ := hne hitems
        obtain ⟨i₀, hi₀⟩ := List.mem_iff_getElem?.1 hx
        obtain ⟨accept, hacc, hmem⟩ := ih (cis.add (toLex (i₀, n₀))) hl
        refine ⟨accept, ?_, fun i n => ?_⟩
        · rw [(hmap x i₀).2 hi₀, hn₀]
          exact hacc
        · rw [hmem, ListSet.mem_add, List.exists_mem_cons_iff, toLex_inj, Prod.mk.injEq]
          constructor
          · rintro ((⟨rfl, rfl⟩ | h) | h)
            · exact .inr (.inl ⟨hi₀, hleast⟩)
            · exact .inl h
            · exact .inr (.inr h)
          · rintro (h | ⟨hi, hn⟩ | h)
            · exact .inl (.inr h)
            · have heq : i = i₀ := by
                have := (hmap x i).2 hi
                rw [(hmap x i₀).2 hi₀] at this
                exact (Option.some.inj this).symm
              exact .inl (.inl ⟨heq, hn.unique hleast⟩)
            · exact .inr h
  obtain ⟨accept, hacc, hmem⟩ := hfold sSet.items .empty hall
  refine ⟨accept, hacc, fun i n => (hmem i n).trans ?_⟩
  simp [ListSet.mem_items]

/-! ### The tables -/

/-- **The states of a deterministic automaton stand for sets of states** of a nondeterministic
one. -/
structure Determinizes (nfa : Nfa) (dfa : Dfa) (all : List (ListSet ℕ)) : Prop where
  start : ∃ x, all[0]? = some x ∧ toSet x = nfa.toεNFA.eval []
  move : ∀ i x c, all[i]? = some x → c ∈ allChars →
    dfa.move i c = none ∧ nfa.toεNFA.stepSet (toSet x) c = ∅ ∨
    ∃ j u, dfa.move i c = some j ∧ all[j]? = some u ∧ toSet u = nfa.toεNFA.stepSet (toSet x) c
  accepted : ∀ i x, all[i]? = some x → ∀ n, dfa.accepted i = some n ↔ IsLeast (patterns nfa x) n

theorem mapM_moves {sMap : NumMap} (hmap : Numbers sMap all) (mList : List SetMove)
    (h : ∀ m ∈ mList, m.1 ∈ all ∧ m.2.2 ∈ all) :
    ∃ mvs, (mList.mapM fun (is1, c, is2) => do
        let i ← sMap.find is1
        let j ← sMap.find is2
        some (⟨i, some c, j⟩ : Move)) = some mvs ∧
      ∀ i a j, (⟨i, a, j⟩ : Move) ∈ mvs ↔
        ∃ x c u, a = some c ∧ (x, c, u) ∈ mList ∧ all[i]? = some x ∧ all[j]? = some u := by
  induction mList with
  | nil => exact ⟨[], rfl, by simp⟩
  | cons m mList ih =>
    obtain ⟨⟨hx, hu⟩, hrest⟩ := List.forall_mem_cons.1 h
    obtain ⟨x₀, c₀, u₀⟩ := m
    obtain ⟨i₀, hi₀⟩ := List.mem_iff_getElem?.1 hx
    obtain ⟨j₀, hj₀⟩ := List.mem_iff_getElem?.1 hu
    obtain ⟨mvs, hmvs, hmem⟩ := ih hrest
    refine ⟨⟨i₀, some c₀, j₀⟩ :: mvs, ?_, fun i a j => ?_⟩
    · rw [List.mapM_cons, hmvs]
      dsimp only
      rw [(hmap x₀ i₀).2 hi₀, (hmap u₀ j₀).2 hj₀]
      rfl
    · rw [List.mem_cons, hmem, Move.mk.injEq]
      constructor
      · rintro (⟨rfl, rfl, rfl⟩ | ⟨x, c, u, rfl, hm, hi, hj⟩)
        · exact ⟨x₀, c₀, u₀, rfl, List.mem_cons_self, hi₀, hj₀⟩
        · exact ⟨x, c, u, rfl, List.mem_cons_of_mem _ hm, hi, hj⟩
      · rintro ⟨x, c, u, rfl, hm, hi, hj⟩
        rcases List.mem_cons.1 hm with heq | hm
        · cases heq
          have hi' := (hmap _ i).2 hi
          have hj' := (hmap _ j).2 hj
          rw [(hmap _ i₀).2 hi₀] at hi'
          rw [(hmap _ j₀).2 hj₀] at hj'
          exact .inl ⟨(Option.some.inj hi').symm, rfl, (Option.some.inj hj').symm⟩
        · exact .inr ⟨x, c, u, rfl, hm, hi, hj⟩

theorem move'_eq_some {moves : ListSet Move} {j : ℕ} (h : move' moves i c = some j) :
    (⟨i, some c, j⟩ : Move) ∈ moves := by
  rw [move', Option.map_eq_some_iff] at h
  obtain ⟨m, hm, rfl⟩ := h
  have hprop := List.find?_some hm
  rw [decide_eq_true_eq] at hprop
  obtain ⟨src, char, dst⟩ := m
  obtain ⟨rfl, rfl⟩ := hprop
  exact List.mem_of_find?_eq_some hm

theorem move'_isSome {moves : ListSet Move} {j : ℕ} (h : (⟨i, some c, j⟩ : Move) ∈ moves) :
    ∃ j', move' moves i c = some j' := by
  have hsome : (moves.items.find? fun m => m.src = i ∧ m.char = some c).isSome := by
    rw [List.find?_isSome]
    exact ⟨_, h, by simp⟩
  obtain ⟨m, hm⟩ := Option.isSome_iff_exists.1 hsome
  exact ⟨m.dst, by rw [move', hm]; rfl⟩

/-- What a state accepts, when no state accepts for two numbers. -/
theorem accepting'_eq {accept : ListSet (ℕ ×ₗ ℕ)}
    (hfun : ∀ m n, toLex (i, m) ∈ accept → toLex (i, n) ∈ accept → m = n) :
    accepting' accept i = some n ↔ toLex (i, n) ∈ accept := by
  have hfold : ∀ l : List (ℕ ×ₗ ℕ),
      (∀ m n, toLex (i, m) ∈ l → toLex (i, n) ∈ l → m = n) →
      (l.foldr (fun p acc => if (ofLex p).1 = i then some (ofLex p).2 else acc) none = some n ↔
        toLex (i, n) ∈ l) := by
    intro l hl
    induction l with
    | nil => simp
    | cons p l ih =>
      have ih := ih fun m n hm hn => hl m n (List.mem_cons_of_mem _ hm) (List.mem_cons_of_mem _ hn)
      rw [List.foldr_cons, List.mem_cons]
      split
      · next heq =>
        have hp : p = toLex (i, (ofLex p).2) := by
          rw [← heq]
          rfl
        have hself : toLex (i, (ofLex p).2) ∈ p :: l := by
          rw [← hp]
          exact List.mem_cons_self
        rw [Option.some.injEq]
        constructor
        · rintro rfl
          exact .inl hp.symm
        · intro hn
          exact hl _ _ hself (List.mem_cons.2 hn)
      · next hne =>
        rw [ih]
        refine (or_iff_right fun heq => hne ?_).symm
        rw [← heq]
        rfl
  exact hfold accept.items hfun

theorem getD_map_range {α : Type*} (f : ℕ → α) (h : i < n) (d : α) :
    ((List.range n).map f).getD i d = f i := by
  rw [List.getD_eq_getElem?_getD, List.getElem?_map, List.getElem?_range h]
  rfl

/-- **The subset construction** of an automaton for some patterns. -/
theorem build'_determinizes (hnfa : Recognizes nfa Ls) :
    ∃ dfa all, build' nfa = some dfa ∧ Determinizes nfa dfa all := by
  obtain ⟨start, hstart, hset⟩ := start_eq nfa
  -- the search starts with the states that are reached without reading
  have hvalid : ∀ q ∈ start, q ∈ nfa.states := by
    intro q hq
    have hq : q ∈ nfa.toεNFA.eval [] := hset ▸ hq
    refine mem_states_of_εClosure hnfa (fun t ht => ?_) q hq
    obtain rfl : t = 0 := ht
    exact hnfa.start
  have hinit : Explored nfa start [] [start] (.singleton start) [] := by
    refine ⟨by simp, fun u => by simp, ListSet.mem_singleton.2 rfl, by simp, nofun,
      fun x hx q hq => ?_⟩
    obtain rfl := ListSet.mem_singleton.1 hx
    exact hvalid q hq
  have hfuel : 2 ^ nfa.states.numItems <
      2 ^ nfa.states.numItems + 1 + ([] : List (ListSet ℕ)).length := Nat.lt_succ_self _
  obtain ⟨sSet, mList, done, hloop, hexp⟩ := loop_eq hnfa hinit hfuel
  obtain ⟨sSet', hdel, hmem'⟩ := ListSet.delete_of_mem hexp.start_mem
  have hfresh : start ∉ sSet' := fun hmem => ((hmem' start).1 hmem).1 rfl
  obtain ⟨sMap, hnumber, hmap, hnodup⟩ := numberSets_eq hfresh
  set all := start :: sSet'.items with hall_def
  have hall : ∀ x, x ∈ all ↔ x ∈ sSet := by
    intro x
    rw [List.mem_cons, ListSet.mem_items, hmem']
    by_cases hx : x = start
    · subst hx
      exact iff_of_true (.inl rfl) hexp.start_mem
    · simp [hx]
  have hdone : ∀ x, x ∈ sSet ↔ x ∈ done := by
    intro x
    rw [hexp.mem, List.append_nil]
  have hends : ∀ m ∈ mList, m.1 ∈ all ∧ m.2.2 ∈ all := by
    intro m hm
    obtain ⟨x, hx, c, -, u, -, rfl⟩ := (hexp.mem_moves m).1 hm
    exact ⟨(hall x).2 ((hdone x).2 hx), (hall u).2 (hexp.dest _ hm)⟩
  obtain ⟨mvs, hmvs, hmoves⟩ := mapM_moves hmap mList hends
  obtain ⟨accept, haccept, hacc⟩ := acceptSets_eq hnfa hmap fun x hx => (hall x).2 hx
  have hmoves' : ∀ i a j, (⟨i, a, j⟩ : Move) ∈ ListSet.empty.addList mvs ↔
      ∃ x c u, a = some c ∧ (x, c, u) ∈ mList ∧ all[i]? = some x ∧ all[j]? = some u := by
    intro i a j
    rw [ListSet.mem_addList, hmoves]
    simp
  set moves := ListSet.empty.addList mvs
  refine ⟨tabulate all.length moves accept (getAllChars nfa start), all, ?_, ⟨start, rfl, hset⟩,
    fun i x c hi hc => ?_, fun i x hi n => ?_⟩
  · rw [build']
    refine Option.bind_eq_some_iff.2 ⟨start, hstart, Option.bind_eq_some_iff.2 ⟨_, hloop, ?_⟩⟩
    refine Option.bind_eq_some_iff.2 ⟨sSet', hdel, ?_⟩
    rw [hnumber]
    refine Option.bind_eq_some_iff.2 ⟨mvs, hmvs, ?_⟩
    exact Option.bind_eq_some_iff.2 ⟨accept, haccept, rfl⟩
  · have hlt := (List.getElem?_eq_some_iff.1 hi).1
    rw [Dfa.move, tabulate, getD_map_range _ hlt, getD_map_range _ (mem_allChars.1 hc),
      Char.ofNat_toNat]
    by_cases hchar : c ∈ getAllChars nfa x
    · obtain ⟨u, hu, hset'⟩ := getAllStates_eq nfa x c
      have hx : x ∈ done := (hdone x).1 ((hall x).1 (List.mem_of_getElem? hi))
      have hm : (x, c, u) ∈ mList := (hexp.mem_moves _).2 ⟨x, hx, c, hchar, u, hu, rfl⟩
      obtain ⟨j₀, hj₀⟩ := List.mem_iff_getElem?.1 (hends _ hm).2
      obtain ⟨j, hj⟩ := move'_isSome ((hmoves' i (some c) j₀).2 ⟨x, c, u, rfl, hm, hi, hj₀⟩)
      obtain ⟨x', c', u', hcc, hm', hi', hj'⟩ := (hmoves' _ _ _).1 (move'_eq_some hj)
      obtain rfl := Option.some.inj hcc
      obtain rfl := Option.some.inj (hi.symm.trans hi')
      obtain ⟨y, -, c'', -, u'', hu'', heq⟩ := (hexp.mem_moves _).1 hm'
      cases heq
      obtain rfl := Option.some.inj (hu.symm.trans hu'')
      exact .inr ⟨j, u, hj, hj', hset'⟩
    · refine .inl ⟨?_, stepSet_eq_empty hchar⟩
      cases hj : move' moves i c with
      | none => rfl
      | some j =>
        obtain ⟨x', c', u', hcc, hm', hi', -⟩ := (hmoves' _ _ _).1 (move'_eq_some hj)
        obtain rfl := Option.some.inj hcc
        obtain rfl := Option.some.inj (hi.symm.trans hi')
        obtain ⟨y, -, c'', hc'', u'', -, heq⟩ := (hexp.mem_moves _).1 hm'
        cases heq
        exact absurd hc'' hchar
  · have hlt := (List.getElem?_eq_some_iff.1 hi).1
    have hleast : ∀ n, toLex (i, n) ∈ accept ↔ IsLeast (patterns nfa x) n := by
      intro n
      rw [hacc]
      constructor
      · rintro ⟨x', -, hi', hn⟩
        obtain rfl := Option.some.inj (hi.symm.trans hi')
        exact hn
      · intro hn
        exact ⟨x, (hall x).1 (List.mem_of_getElem? hi), hi, hn⟩
    have hfun : ∀ m n, toLex (i, m) ∈ accept → toLex (i, n) ∈ accept → m = n := fun m n hm hn =>
      ((hleast m).1 hm).unique ((hleast n).1 hn)
    rw [Dfa.accepted, tabulate, getD_map_range _ hlt, accepting'_eq hfun, hleast]

end Dfa

end SmlNj.RegExp
