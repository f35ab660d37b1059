import SmlNj.Library.ThompsonCompile

/-!
# The simulation of Thompson's engine

The scan keeps the states that are reached by the characters read so far, as the states with the
last stamp.  It returns the longest prefix that the automaton accepts, which is the longest prefix
in the language of the compiled expression.

## Main definitions

* `Added` — what the closures of some states add to a list of states.
* `Scanned` — the invariant of the scan.

## Main results

* `added_add`, `added_test` — the additions.
* `prefix_longest` — the match is the longest prefix that is accepted.
* `thompson_correct` — when the match is the longest prefix in the language.
-/

namespace SmlNj.RegExp.ThompsonEngine

open NfaFragment

variable {nfa : RE} {isFirst : Bool} {strm : List Char} {stamp' : ℕ}
  {acc acc₁ acc₂ : List ℕ × List State}

/-! ### The closure of a state -/

def State.Stays : State → Prop
  | .SPLIT _ _ => False
  | _ => True

def Marked (stamp' : ℕ) (acc : List ℕ × List State) (id : ℕ) : Prop := acc.1.getD id 0 = stamp'

/-- **The closures of some states are added**: they are stamped, and those of them that do not split
are put on the list. -/
structure Added (nfa : RE) (stamp' : ℕ) (ids : Set ℕ) (acc acc' : List ℕ × List State) : Prop where
  length : acc'.1.length = acc.1.length
  frame : ∀ id, Marked stamp' acc' id ∨ acc'.1.getD id 0 = acc.1.getD id 0
  mono : ∀ id, Marked stamp' acc id → Marked stamp' acc' id
  self : ∀ id ∈ ids, Marked stamp' acc' id
  reach : ∀ id, Marked stamp' acc' id → Marked stamp' acc id ∨
    ∃ id₀ ∈ ids, Reads nfa.graph id₀ [] id
  /-- The new stamps are closed under steps that read nothing. -/
  closed : ∀ id, Marked stamp' acc' id → Marked stamp' acc id ∨
    ∀ id', Eps nfa.graph id id' → Marked stamp' acc' id'
  states : ∀ s, s ∈ acc'.2 ↔ s ∈ acc.2 ∨
    ∃ id, Marked stamp' acc' id ∧ ¬Marked stamp' acc id ∧ nfa.sub id = s ∧ s.Stays

theorem Added.nil (acc : List ℕ × List State) : Added nfa stamp' ∅ acc acc where
  length := rfl
  frame _ := .inr rfl
  mono _ h := h
  self _ h := h.elim
  reach _ h := .inl h
  closed _ h := .inl h
  states s := by
    constructor
    · exact .inl
    · rintro (h | ⟨id, h, hnot, -⟩)
      · exact h
      · exact absurd h hnot

variable {ids : Set ℕ} {id : ℕ} {input : List Char}

/-- Additions one after the other. -/
theorem Added.trans {ids' : Set ℕ} (h : Added nfa stamp' ids acc acc₁)
    (h' : Added nfa stamp' ids' acc₁ acc₂) : Added nfa stamp' (ids ∪ ids') acc acc₂ where
  length := h'.length.trans h.length
  frame id := by
    rcases h'.frame id with hid | hid
    · exact .inl hid
    · rcases h.frame id with hid' | hid'
      · exact .inl (h'.mono id hid')
      · exact .inr (hid.trans hid')
  mono id hid := h'.mono id (h.mono id hid)
  self id hid := hid.elim (fun hid => h'.mono id (h.self id hid)) (h'.self id)
  reach id hid := by
    rcases h'.reach id hid with hid | ⟨id₀, hid₀, hr⟩
    · rcases h.reach id hid with hid | ⟨id₀, hid₀, hr⟩
      · exact .inl hid
      · exact .inr ⟨id₀, .inl hid₀, hr⟩
    · exact .inr ⟨id₀, .inr hid₀, hr⟩
  closed id hid := by
    rcases h'.closed id hid with hid | hid
    · rcases h.closed id hid with hid | hid
      · exact .inl hid
      · exact .inr fun id' hid' => h'.mono id' (hid id' hid')
    · exact .inr hid
  states s := by
    rw [h'.states, h.states]
    constructor
    · rintro ((hs | ⟨id, hid, hnot, hs⟩) | ⟨id, hid, hnot, hs⟩)
      · exact .inl hs
      · exact .inr ⟨id, h'.mono id hid, hnot, hs⟩
      · exact .inr ⟨id, hid, fun hcon => hnot (h.mono id hcon), hs⟩
    · rintro (hs | ⟨id, hid, hnot, hs⟩)
      · exact .inl (.inl hs)
      · by_cases hid₁ : Marked stamp' acc₁ id
        · exact .inl (.inr ⟨id, hid₁, hnot, hs⟩)
        · exact .inr ⟨id, hid, hid₁, hs⟩

theorem Added.of_marked (h : Marked stamp' acc id) : Added nfa stamp' {id} acc acc :=
  { Added.nil acc with
    self := fun _ hid => Set.mem_singleton_iff.1 hid ▸ h
    reach := fun _ h => .inl h }

theorem graph_of_lt (h : id < nfa.states.length) : nfa.graph id = (nfa.sub id).node := by
  rw [RE.graph, RE.sub, List.getD_eq_getElem?_getD, List.getElem?_eq_getElem h]
  rfl

def unmarked (stamp' : ℕ) (lastStamp : List ℕ) : ℕ :=
  ((Finset.range lastStamp.length).filter fun id => lastStamp.getD id 0 ≠ stamp').card

theorem getD_set {l : List ℕ} {id' : ℕ} (h : id < l.length) (x : ℕ) :
    (l.set id x).getD id' 0 = if id' = id then x else l.getD id' 0 := by
  rw [List.getD_eq_getElem?_getD, List.getElem?_set]
  by_cases heq : id = id'
  · subst heq
    simp [h]
  · rw [if_neg heq, if_neg (Ne.symm heq), List.getD_eq_getElem?_getD]

theorem Added.unmarked_le (h : Added nfa stamp' ids acc acc₁) :
    unmarked stamp' acc₁.1 ≤ unmarked stamp' acc.1 := by
  refine Finset.card_le_card fun id hid => ?_
  rw [Finset.mem_filter, h.length] at hid
  exact Finset.mem_filter.2 ⟨hid.1, fun hcon => hid.2 (h.mono id hcon)⟩

theorem unmarked_set {l : List ℕ} (hlt : id < l.length) (h : l.getD id 0 ≠ stamp') :
    unmarked stamp' (l.set id stamp') < unmarked stamp' l := by
  refine Finset.card_lt_card (Finset.ssubset_iff_of_subset ?_ |>.2 ⟨id, ?_, ?_⟩)
  · intro id' hid'
    rw [Finset.mem_filter, List.length_set, getD_set hlt] at hid'
    refine Finset.mem_filter.2 ⟨hid'.1, fun hcon => hid'.2 ?_⟩
    split
    · rfl
    · exact hcon
  · exact Finset.mem_filter.2 ⟨Finset.mem_range.2 hlt, h⟩
  · rw [Finset.mem_filter, getD_set hlt, if_pos rfl]
    exact fun hcon => hcon.2 rfl

/-- A state is stamped, and what it leads to without reading is added. -/
theorem Added.of_set {ls : List ℕ} {sl : List State} (hlt : id < ls.length)
    (heps : ∀ id', Eps nfa.graph id id' ↔ id' ∈ ids) (hstays : (nfa.sub id).Stays → False)
    (h : Added nfa stamp' ids (ls.set id stamp', sl) acc₁) :
    Added nfa stamp' {id} (ls, sl) acc₁ where
  length := h.length.trans List.length_set
  frame id' := by
    rcases h.frame id' with hid | hid
    · exact .inl hid
    · rw [getD_set hlt] at hid
      split at hid
      · exact .inl hid
      · exact .inr hid
  mono id' hid := h.mono id' (by
    rw [Marked, getD_set hlt]
    split
    · rfl
    · exact hid)
  self id' hid := by
    rw [Set.mem_singleton_iff.1 hid]
    exact h.mono id (by rw [Marked, getD_set hlt, if_pos rfl])
  reach id' hid := by
    rcases h.reach id' hid with hid | ⟨id₀, hid₀, hr⟩
    · rw [Marked, getD_set hlt] at hid
      split at hid
      case isTrue heq => exact .inr ⟨id, rfl, 0, heq ▸ .refl id'⟩
      case isFalse => exact .inl hid
    · exact .inr ⟨id, rfl, hr.eps ((heps id₀).2 hid₀)⟩
  closed id' hid := by
    rcases h.closed id' hid with hid | hid
    · rw [Marked, getD_set hlt] at hid
      split at hid
      case isTrue heq => exact .inr fun x hx => h.self x ((heps x).1 (heq ▸ hx))
      case isFalse => exact .inl hid
    · exact .inr hid
  states s := by
    rw [h.states]
    refine or_congr_right ⟨?_, ?_⟩
    · rintro ⟨id', hid', hnot', hs⟩
      refine ⟨id', hid', fun hcon => hnot' ?_, hs⟩
      rw [Marked, getD_set hlt]
      split
      · rfl
      · exact hcon
    · rintro ⟨id', hid', hnot', rfl, hs⟩
      refine ⟨id', hid', fun hcon => ?_, rfl, hs⟩
      rw [Marked, getD_set hlt] at hcon
      split at hcon
      case isTrue heq => exact hstays (heq ▸ hs)
      case isFalse => exact hnot' hcon

/-- A state that does not split is stamped and put on the list. -/
theorem Added.of_stays {ls : List ℕ} {sl : List State} (hlt : id < ls.length)
    (hnot : ls.getD id 0 ≠ stamp') (heps : ∀ id', ¬Eps nfa.graph id id')
    (hstays : (nfa.sub id).Stays) :
    Added nfa stamp' {id} (ls, sl) (ls.set id stamp', nfa.sub id :: sl) where
  length := List.length_set
  frame id' := by
    rw [Marked, getD_set hlt]
    split
    · exact .inl rfl
    · exact .inr rfl
  mono id' hid := by
    rw [Marked, getD_set hlt]
    split
    · rfl
    · exact hid
  self id' hid := by
    rw [Set.mem_singleton_iff.1 hid, Marked, getD_set hlt, if_pos rfl]
  reach id' hid := by
    rw [Marked, getD_set hlt] at hid
    split at hid
    case isTrue heq => exact .inr ⟨id, rfl, 0, heq ▸ .refl id'⟩
    case isFalse => exact .inl hid
  closed id' hid := by
    rw [Marked, getD_set hlt] at hid
    split at hid
    case isTrue heq => exact .inr fun x hx => absurd (heq ▸ hx) (heps x)
    case isFalse => exact .inl hid
  states s := by
    rw [List.mem_cons, or_comm]
    refine or_congr_right ⟨?_, ?_⟩
    · rintro rfl
      exact ⟨id, by rw [Marked, getD_set hlt, if_pos rfl], hnot, rfl, hstays⟩
    · rintro ⟨id', hid', hnot', rfl, -⟩
      rw [Marked, getD_set hlt] at hid'
      split at hid'
      case isTrue heq => rw [heq]
      case isFalse => exact absurd hid' hnot'

theorem sub_mem (h : id < nfa.states.length) : nfa.sub id ∈ nfa.states := by
  rw [RE.sub, List.getD_eq_getElem?_getD, List.getElem?_eq_getElem h]
  exact List.getElem_mem h

/-- **The closure of a state is added**, if there is enough fuel for the states without a stamp. -/
theorem added_add (h : nfa.WellFormed) (isFirst : Bool) (strm : List Char) (fuel : ℕ) :
    ∀ (acc : List ℕ × List State) (id : ℕ), acc.1.length = nfa.states.length →
      id < nfa.states.length → unmarked stamp' acc.1 ≤ fuel →
      Added nfa stamp' {id} acc (add nfa isFirst strm stamp' fuel acc id) := by
  induction fuel with
  | zero =>
    intro acc id hlen hlt hfuel
    refine Added.of_marked ?_
    by_contra hnot
    have hmem : id ∈ (Finset.range acc.1.length).filter fun id => acc.1.getD id 0 ≠ stamp' :=
      Finset.mem_filter.2 ⟨Finset.mem_range.2 (hlen ▸ hlt), hnot⟩
    exact (Finset.card_pos.2 ⟨id, hmem⟩).not_ge hfuel
  | succ fuel ih =>
    rintro ⟨ls, sl⟩ id hlen hlt hfuel
    have hlt' : id < ls.length := hlen ▸ hlt
    rw [add]
    by_cases hmarked : ls.getD id 0 = stamp'
    · rw [if_pos hmarked]
      exact Added.of_marked hmarked
    rw [if_neg hmarked]
    have hanchor := h.anchor _ (sub_mem hlt)
    have houts := h.outs_lt _ (sub_mem hlt)
    have hgraph := graph_of_lt hlt
    have hstay : ∀ s, nfa.sub id = s → s.Stays →
        Added nfa stamp' {id} (ls, sl) (ls.set id stamp', s :: sl) := by
      rintro s rfl hs
      refine Added.of_stays hlt' hmarked (fun id' heps => ?_) hs
      obtain ⟨a, b, hab, -⟩ := heps
      rw [hgraph] at hab
      revert hs hab
      rcases nfa.sub id with _ | _ | _ | _ | _ | _ | _ <;> simp [State.node, State.Stays]
    rcases hs : nfa.sub id with ⟨c, out⟩ | ⟨set, out⟩ | ⟨set, out⟩ | ⟨out1, out2⟩ | out | out | _
    case CHR => exact hstay _ hs trivial
    case CSET => exact hstay _ hs trivial
    case NCSET => exact hstay _ hs trivial
    case FINAL => exact hstay _ hs trivial
    case BOL =>
      rw [hs] at hanchor
      cases hanchor
    case EOL =>
      rw [hs] at hanchor
      cases hanchor
    case SPLIT =>
      rw [hs] at houts hgraph
      have hlen' : (ls.set id stamp').length = nfa.states.length := List.length_set.trans hlen
      have hfuel' : unmarked stamp' (ls.set id stamp') ≤ fuel := by
        have := unmarked_set hlt' hmarked
        dsimp only at hfuel
        omega
      have h1 := ih (ls.set id stamp', sl) out1 hlen' (houts _ (by simp [State.outs])) hfuel'
      have h2 := ih _ out2 (h1.length.trans hlen') (houts _ (by simp [State.outs]))
        (h1.unmarked_le.trans hfuel')
      refine Added.of_set hlt' (fun id' => ?_) ?_ (h1.trans h2)
      · constructor
        · rintro ⟨a, b, hab, hid'⟩
          obtain ⟨rfl, rfl⟩ := Node.split.inj (Option.some.inj (hgraph.symm.trans hab))
          exact hid'
        · exact fun hid' => ⟨out1, out2, hgraph, hid'⟩
      · rw [hs]
        exact fun hcon => hcon

theorem added_addState (h : nfa.WellFormed) (isFirst : Bool) (strm : List Char)
    (hlen : acc.1.length = nfa.states.length) (hid : id < nfa.states.length) :
    Added nfa stamp' {id} acc (addState nfa isFirst strm stamp' acc id) := by
  refine added_add h isFirst strm _ acc id hlen hid ?_
  refine (Finset.card_filter_le _ _).trans ?_
  rw [Finset.card_range, hlen]

/-! ### The states after a character -/

/-- The state after a character. -/
@[grind =] def State.next (c : Char) : State → Option ℕ
  | .CHR c' out => if c = c' then some out else none
  | .CSET cset out => if c ∈ cset then some out else none
  | .NCSET cset out => if c ∈ cset then none else some out
  | _ => none

theorem next_eq_some_iff {c : Char} {s : State} {out : ℕ} :
    s.next c = some out ↔ ∃ p, s.node = some (.read p out) ∧ c ∈ p := by
  rcases s with ⟨c', out'⟩ | ⟨set, out'⟩ | ⟨set, out'⟩ | _ | _ | _ | _ <;>
    simp only [State.next, State.node, reduceCtorEq, false_and, exists_false, Option.some.injEq,
      Node.read.injEq, Option.ite_none_right_eq_some, Option.ite_none_left_eq_some]
  · constructor
    · rintro ⟨rfl, rfl⟩
      exact ⟨_, ⟨rfl, rfl⟩, rfl⟩
    · rintro ⟨_, ⟨rfl, rfl⟩, hc⟩
      exact ⟨hc, rfl⟩
  · constructor
    · rintro ⟨hc, rfl⟩
      exact ⟨_, ⟨rfl, rfl⟩, hc⟩
    · rintro ⟨_, ⟨rfl, rfl⟩, hc⟩
      exact ⟨hc, rfl⟩
  · constructor
    · rintro ⟨hc, rfl⟩
      exact ⟨_, ⟨rfl, rfl⟩, hc⟩
    · rintro ⟨_, ⟨rfl, rfl⟩, hc⟩
      exact ⟨hc, rfl⟩

theorem test_cons (nfa : RE) (isFirst : Bool) (strm : List Char) (stamp' : ℕ) (c : Char)
    (s : State) (r : List State) (acc : List ℕ × List State) :
    test nfa isFirst strm stamp' c (s :: r) acc =
      test nfa isFirst strm stamp' c r
        (match s.next c with
        | some out => addState nfa isFirst strm stamp' acc out
        | none => acc) := by
  rcases s with ⟨c', out'⟩ | ⟨set, out'⟩ | ⟨set, out'⟩ | _ | _ | _ | _
  · by_cases hc : c = c' <;> simp [test, State.next, hc]
  · by_cases hc : c ∈ set <;> simp [test, State.next, hc]
  · by_cases hc : c ∈ set <;> simp [test, State.next, hc]
  all_goals rfl

/-- **The states after a character are added**. -/
theorem added_test (h : nfa.WellFormed) (isFirst : Bool) (strm : List Char) (c : Char)
    (l : List State) : ∀ acc : List ℕ × List State, acc.1.length = nfa.states.length →
      (∀ s ∈ l, s ∈ nfa.states) →
      Added nfa stamp' {out | ∃ s ∈ l, s.next c = some out} acc
        (test nfa isFirst strm stamp' c l acc) := by
  induction l with
  | nil =>
    intro acc _ _
    have hids : {out | ∃ s ∈ ([] : List State), s.next c = some out} = ∅ := by
      simp
    rw [hids]
    exact Added.nil acc
  | cons s r ih =>
    intro acc hlen hl
    obtain ⟨hs, hr⟩ := List.forall_mem_cons.1 hl
    rw [test_cons]
    rcases hnext : s.next c with _ | out
    · have hids : {out | ∃ s' ∈ s :: r, s'.next c = some out} =
          {out | ∃ s' ∈ r, s'.next c = some out} := by
        simp [hnext]
      rw [hids]
      exact ih acc hlen hr
    · have hids : {out | ∃ s' ∈ s :: r, s'.next c = some out} =
          {out} ∪ {out | ∃ s' ∈ r, s'.next c = some out} := by
        ext out'
        simp [hnext, eq_comm]
      have hout : out ∈ s.outs := by
        revert hnext
        rcases s with ⟨c', out'⟩ | ⟨set, out'⟩ | ⟨set, out'⟩ | _ | _ | _ | _ <;>
          simp [State.next, State.outs, eq_comm]
      have h1 : Added nfa stamp' {out} acc (addState nfa isFirst strm stamp' acc out) :=
        added_addState h isFirst strm hlen (h.outs_lt s hs out hout)
      rw [hids]
      exact h1.trans (ih _ (h1.length.trans hlen) hr)

/-! ### The scan -/

/-- **The invariant of the scan**: the states of the last stamp are those that are reached by the
characters read so far, and the list has those of them that do not split. -/
structure Scanned (nfa : RE) (w : List Char) (stamp : ℕ) (lastStamp : List ℕ)
    (nfaStates : List State) : Prop where
  length : lastStamp.length = nfa.states.length
  pos : 0 < stamp
  /-- No stamp is greater than the last one. -/
  le : ∀ id, lastStamp.getD id 0 ≤ stamp
  marked : ∀ id, lastStamp.getD id 0 = stamp ↔ Reads nfa.graph nfa.start w id
  states : ∀ s, s ∈ nfaStates ↔ ∃ id, Reads nfa.graph nfa.start w id ∧ nfa.sub id = s ∧ s.Stays

/-- The closures of some states are added with a new stamp. -/
theorem Added.scanned {w : List Char} {lastStamp : List ℕ}
    (h : Added nfa stamp' ids (lastStamp, []) acc) (hlen : lastStamp.length = nfa.states.length)
    (hlt : ∀ id, lastStamp.getD id 0 < stamp')
    (hids : ∀ id, (∃ id₀ ∈ ids, Reads nfa.graph id₀ [] id) ↔ Reads nfa.graph nfa.start w id) :
    Scanned nfa w stamp' acc.1 acc.2 := by
  have hnot : ∀ id, ¬Marked stamp' (lastStamp, []) id := fun id => (hlt id).ne
  have hmarked : ∀ id, acc.1.getD id 0 = stamp' ↔ Reads nfa.graph nfa.start w id := by
    intro id
    rw [← hids]
    constructor
    · intro hid
      exact (h.reach id hid).resolve_left (hnot id)
    · rintro ⟨id₀, hid₀, hr⟩
      -- the new stamps are closed under the steps that read nothing
      have hself : Marked stamp' acc id₀ := h.self id₀ hid₀
      induction reads_nil_iff.1 hr with
      | refl => exact hself
      | tail hr' hstep ih =>
        exact (h.closed _ (ih (reads_nil_iff.2 hr'))).resolve_left (hnot _) _ hstep
  refine ⟨h.length.trans hlen, (Nat.zero_le _).trans_lt (hlt 0), fun id => ?_, hmarked,
    fun s => ?_⟩
  · rcases h.frame id with hid | hid
    · exact hid.le
    · exact hid.trans_le (hlt id).le
  · rw [h.states]
    constructor
    · rintro (hs | ⟨id, hid, -, hs⟩)
      · exact absurd hs List.not_mem_nil
      · exact ⟨id, (hmarked id).1 hid, hs⟩
    · rintro ⟨id, hid, hs⟩
      exact .inr ⟨id, (hmarked id).2 hid, hnot id, hs⟩

section Run

variable {w : List Char} {stamp : ℕ} {lastStamp : List ℕ} {nfaStates : List State}

theorem Scanned.lt (h : Scanned nfa w stamp lastStamp nfaStates)
    (hid : Reads nfa.graph nfa.start w id) : id < nfa.states.length := by
  have hmarked := (h.marked id).2 hid
  by_contra hge
  have hnone : lastStamp.getD id 0 = 0 := by
    rw [List.getD_eq_getElem?_getD, List.getElem?_eq_none (h.length ▸ not_lt.1 hge)]
    rfl
  exact h.pos.ne (hnone.symm.trans hmarked)

theorem scanned_start (h : nfa.WellFormed) (isFirst : Bool) (strm : List Char) :
    Scanned nfa [] 2
      (addState nfa isFirst strm 2 (List.replicate nfa.states.length 0, []) nfa.start).1
      (addState nfa isFirst strm 2 (List.replicate nfa.states.length 0, []) nfa.start).2 := by
  have hlen : (List.replicate nfa.states.length 0).length = nfa.states.length :=
    List.length_replicate
  refine (added_addState h isFirst strm hlen h.start_lt).scanned hlen (fun id => ?_) fun id => ?_
  · rw [List.getD_eq_getElem?_getD, List.getElem?_replicate]
    split <;> decide
  · constructor
    · rintro ⟨id₀, hid₀, hr⟩
      rwa [Set.mem_singleton_iff.1 hid₀] at hr
    · exact fun hr => ⟨nfa.start, rfl, hr⟩

/-- **A step of the scan**. -/
theorem Scanned.step (h : Scanned nfa w stamp lastStamp nfaStates) (hnfa : nfa.WellFormed)
    (isFirst : Bool) (strm : List Char) (c : Char) :
    Scanned nfa (w ++ [c]) (stamp + 1)
      (test nfa isFirst strm (stamp + 1) c nfaStates (lastStamp, [])).1
      (test nfa isFirst strm (stamp + 1) c nfaStates (lastStamp, [])).2 := by
  have hmem : ∀ s ∈ nfaStates, s ∈ nfa.states := by
    intro s hs
    obtain ⟨id, hid, rfl, -⟩ := (h.states s).1 hs
    exact sub_mem (h.lt hid)
  refine (added_test hnfa isFirst strm c nfaStates (lastStamp, []) h.length hmem).scanned h.length
    (fun id => Nat.lt_succ_of_le (h.le id)) fun id => ?_
  rw [reads_append_iff]
  constructor
  · rintro ⟨out, ⟨s, hs, hnext⟩, hr⟩
    obtain ⟨id', hid', rfl, -⟩ := (h.states s).1 hs
    obtain ⟨p, hp, hc⟩ := next_eq_some_iff.1 hnext
    rw [← graph_of_lt (h.lt hid')] at hp
    exact ⟨id', hid', reads_singleton_iff.2 ⟨id', p, out, ⟨0, .refl id'⟩, hp, hc, hr⟩⟩
  · rintro ⟨r, hw, hr⟩
    obtain ⟨id', p, out, hr', hp, hc, hout⟩ := reads_singleton_iff.1 hr
    have hid' : Reads nfa.graph nfa.start w id' := by
      have := hw.trans hr'
      rwa [List.append_nil] at this
    rw [graph_of_lt (h.lt hid')] at hp
    refine ⟨out, ⟨nfa.sub id', (h.states _).2 ⟨id', hid', rfl, ?_⟩,
      next_eq_some_iff.2 ⟨p, hp, hc⟩⟩, hout⟩
    revert hp
    rcases nfa.sub id' with _ | _ | _ | _ | _ | _ | _ <;> simp [State.node, State.Stays]

def RE.accepted (nfa : RE) : Language Char := {w | ∃ n, Accepts nfa.graph n nfa.start w}

theorem graph_eq_stop_iff (h : nfa.WellFormed) : nfa.graph id = some .stop ↔ id = 0 := by
  have hstop : ∀ s : State, s.node = some .stop ↔ s = .FINAL := by
    intro s
    rcases s with _ | _ | _ | _ | _ | _ | _ <;> simp [State.node]
  rw [RE.graph]
  constructor
  · intro hid
    obtain ⟨s, hs, hnode⟩ := Option.bind_eq_some_iff.1 hid
    obtain ⟨hlt, -⟩ := List.getElem?_eq_some_iff.1 hs
    rw [(hstop s).1 hnode] at hs
    exact (h.final id hlt).1 hs
  · rintro rfl
    rw [(h.final 0 ((Nat.zero_le _).trans_lt h.start_lt)).2 rfl]
    rfl

theorem mem_accepted_iff (h : nfa.WellFormed) :
    w ∈ nfa.accepted ↔ Reads nfa.graph nfa.start w 0 := by
  constructor
  · rintro ⟨n, t, ht, hpath⟩
    rw [(graph_eq_stop_iff h).1 ht] at hpath
    exact ⟨n, hpath⟩
  · rintro ⟨n, hpath⟩
    exact ⟨n, 0, (graph_eq_stop_iff h).2 rfl, hpath⟩

theorem Scanned.isMatch_iff (h : Scanned nfa w stamp lastStamp nfaStates)
    (hnfa : nfa.WellFormed) : isMatch lastStamp stamp = true ↔ w ∈ nfa.accepted := by
  rw [mem_accepted_iff hnfa, ← h.marked, isMatch, beq_iff_eq]

theorem Scanned.not_accepted (h : Scanned nfa w stamp lastStamp [])
    (hnfa : nfa.WellFormed) (v : List Char) : w ++ v ∉ nfa.accepted := by
  intro hmem
  obtain ⟨r, hw, hv⟩ := reads_append_iff.1 ((mem_accepted_iff hnfa).1 hmem)
  obtain ⟨id, hid, ⟨x, hx⟩, hsplit⟩ := hv.exists_not_split ((graph_eq_stop_iff hnfa).2 rfl)
  have hid' : Reads nfa.graph nfa.start w id := by
    have := hw.trans hid
    rwa [List.append_nil] at this
  refine absurd ((h.states (nfa.sub id)).2 ⟨id, hid', rfl, ?_⟩) List.not_mem_nil
  rw [graph_of_lt (h.lt hid')] at hsplit
  revert hsplit
  rcases nfa.sub id with _ | _ | _ | _ | _ | _ | _ <;> simp [State.node, State.Stays]

/-- The longest prefix so far. -/
def LongestSoFar (L : Language Char) (input : List Char) (n : ℕ) :
    Option (ℕ × List Char) → Prop
  | some (k, rest) => k ≤ n ∧ rest = input.drop k ∧ input.take k ∈ L ∧
      ∀ m ≤ n, input.take m ∈ L → m ≤ k
  | none => ∀ m ≤ n, input.take m ∉ L

theorem longestPrefix_of_soFar {L : Language Char} {n : ℕ} {o : Option (ℕ × List Char)}
    (h : LongestSoFar L input n o) (hn : n ≤ input.length)
    (hrest : ∀ m, n < m → m ≤ input.length → input.take m ∉ L) : LongestPrefix L input o := by
  rcases o with _ | ⟨k, rest⟩
  · intro m hm
    by_cases hmn : m ≤ n
    · exact h m hmn
    · exact hrest m (not_le.1 hmn) hm
  · refine ⟨h.1.trans hn, h.2.1, h.2.2.1, fun m hm hmL => ?_⟩
    by_cases hmn : m ≤ n
    · exact h.2.2.2 m hmn hmL
    · exact absurd hmL (hrest m (not_le.1 hmn) hm)

theorem LongestSoFar.succ {L : Language Char} {n : ℕ} {o : Option (ℕ × List Char)}
    (h : LongestSoFar L input n o) {b : Bool} (hb : b = true ↔ input.take (n + 1) ∈ L) :
    LongestSoFar L input (n + 1)
      (if b then some (n + 1, input.drop (n + 1)) else o) := by
  rcases b with _ | _
  · have hnot : input.take (n + 1) ∉ L := fun hcon => Bool.false_ne_true (hb.2 hcon)
    rcases o with _ | ⟨k, rest⟩
    · intro m hm
      rcases Nat.le_succ_iff.1 hm with hm | rfl
      · exact h m hm
      · exact hnot
    · refine ⟨h.1.trans n.le_succ, h.2.1, h.2.2.1, fun m hm hmL => ?_⟩
      rcases Nat.le_succ_iff.1 hm with hm | rfl
      · exact h.2.2.2 m hm hmL
      · exact absurd hmL hnot
  · exact ⟨le_rfl, rfl, hb.1 rfl, fun m hm _ => hm⟩

/-- **The scan returns the longest prefix that is accepted**. -/
theorem scan_longest (hnfa : nfa.WellFormed) :
    ∀ (strm w : List Char) (isFirst : Bool) (stamp : ℕ) (lastStamp : List ℕ)
      (nfaStates : List State) (lastMatch : Option (ℕ × List Char)), input = w ++ strm →
      Scanned nfa w stamp lastStamp nfaStates →
      LongestSoFar nfa.accepted input w.length lastMatch →
      LongestPrefix nfa.accepted input
        (scan nfa isFirst w.length strm stamp lastStamp nfaStates lastMatch) := by
  intro strm
  induction strm with
  | nil =>
    intro w isFirst stamp lastStamp nfaStates lastMatch hin _ hlast
    rw [List.append_nil] at hin
    subst hin
    exact longestPrefix_of_soFar hlast le_rfl fun m hlt hle => absurd hle hlt.not_ge
  | cons c strm ih =>
    intro w isFirst stamp lastStamp nfaStates lastMatch hin hscanned hlast
    have hstep := hscanned.step hnfa isFirst strm c
    have hin' : input = (w ++ [c]) ++ strm := by rw [hin, List.append_assoc]; rfl
    have hlen : (w ++ [c]).length = w.length + 1 := by simp
    have htake : input.take (w.length + 1) = w ++ [c] := by
      rw [hin', ← hlen, List.take_left]
    have hdrop : input.drop (w.length + 1) = strm := by
      rw [hin', ← hlen, List.drop_left]
    rw [scan]
    rcases htest : test nfa isFirst strm (stamp + 1) c nfaStates (lastStamp, []) with ⟨ls, next⟩
    rw [htest] at hstep
    rcases next with _ | ⟨s, next⟩
    · -- no state is left
      refine longestPrefix_of_soFar hlast (by simp [hin]) fun m hlt hle => ?_
      obtain ⟨v, hv⟩ : ∃ v, input.take m = (w ++ [c]) ++ v := by
        refine ⟨strm.take (m - (w.length + 1)), ?_⟩
        rw [hin', List.take_append, hlen, List.take_of_length_le (by omega)]
      rw [hv]
      exact hstep.not_accepted hnfa v
    · have hmatch := hstep.isMatch_iff hnfa
      rw [← htake] at hmatch
      have hlast' := hlast.succ hmatch
      rw [hdrop] at hlast'
      have hres := ih (w ++ [c]) (c == '\n') (stamp + 1) ls (s :: next) _ hin' hstep
        (hlen ▸ hlast')
      rwa [hlen] at hres

end Run

/-- **The match at the start of the input** is the longest prefix that is accepted. -/
theorem prefix_longest (hnfa : nfa.WellFormed) (input : List Char) :
    LongestPrefix nfa.accepted input (prefix' nfa input) := by
  have hstart := scanned_start hnfa true input
  rw [prefix', find']
  rcases haddState : addState nfa true input (1 + 1) (List.replicate nfa.states.length 0, [])
    nfa.start with ⟨lastStamp, nfaStart⟩
  rw [haddState] at hstart
  have hmatch := hstart.isMatch_iff hnfa
  refine scan_longest hnfa input [] true 2 lastStamp nfaStart _ rfl hstart ?_
  split
  case isTrue h => exact ⟨le_rfl, rfl, hmatch.1 h, fun m hm _ => hm⟩
  case isFalse h =>
    intro m hm hmL
    rw [Nat.le_zero.1 hm] at hmL
    exact h (hmatch.2 hmL)

/-- **When the match is the longest prefix in the language of an expression without anchors**:
exactly when the longest prefix, if there is one, is matched with none of the intervals iterated
once less than a greatest number that is not the least one, optional expressions apart. -/
theorem thompson_correct {re : Syntax} (h : anchorFree re) {nfa : RE}
    (hc : compile re = some nfa) (input : List Char) :
    LongestPrefix (lang re) input (prefix' nfa input) ↔
      ∀ n rest, LongestPrefix (lang re) input (some (n, rest)) →
        input.take n ∈ langWith compiledCounts re := by
  obtain ⟨hnfa, haccepts⟩ := compile_accepts h hc
  have heq : nfa.accepted = langWith compiledCounts re := Set.ext haccepts
  have hle : langWith compiledCounts re ≤ lang re := langWith_mono compiledCounts_subset re
  refine longestPrefix_iff_of_le hle ?_
  rw [← heq]
  exact prefix_longest hnfa input

/-- The automaton of `a{1,2}`. -/
def oneOrTwo : RE := { start := 2, states := [.FINAL, .CHR 'a' 0, .CHR 'a' 1] }

theorem compile_oneOrTwo : compile (.Interval (.Char 'a') 1 (some 2)) = some oneOrTwo := by
  decide

theorem thompson_correct_oneOrTwo :
    LongestPrefix (lang (.Interval (.Char 'a') 1 (some 2))) ['a', 'a']
        (prefix' oneOrTwo ['a', 'a']) ↔
      ∀ n rest, LongestPrefix (lang (.Interval (.Char 'a') 1 (some 2))) ['a', 'a']
          (some (n, rest)) →
        ['a', 'a'].take n ∈ langWith compiledCounts (.Interval (.Char 'a') 1 (some 2)) :=
  thompson_correct (by simp [anchorFree]) compile_oneOrTwo ['a', 'a']

/-- **The compiled automaton may miss the longest prefix**: that of `a{1,2}` does not match a single
character. -/
theorem not_thompson_longest :
    ¬∀ re, anchorFree re → ∀ nfa, compile re = some nfa → ∀ input,
      LongestPrefix (lang re) input (prefix' nfa input) := by
  intro h
  have hfree : anchorFree (.Interval (.Char 'a') 1 (some 2)) := by simp [anchorFree]
  have hlong := h _ hfree oneOrTwo compile_oneOrTwo ['a']
  refine hlong 1 le_rfl ?_
  exact ⟨1, ⟨le_rfl, Nat.le_succ 1⟩, by rw [pow_one]; rfl⟩

end SmlNj.RegExp.ThompsonEngine
