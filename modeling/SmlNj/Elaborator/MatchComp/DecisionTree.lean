import SmlNj.Elaborator.MatchComp.Andor

/-!
# Decision trees

The choices that can be made next wait in a queue, best first.  The best one that
matters to the least live rule is made: a switch on the constants of its cases,
below which only the rules of the case and the defaults are live.

## Main definitions

* `NodeQueue`, `insertQ`, `bestOrNode`, `accessible` — the queue.
* `Dectree`, `makeDectree` — decision trees.
* `evalTree` — what a decision tree does with a value.

## Main results

* `mkDecTree_of_best`, `mkDecTree_of_none` — the tree of a queue.
-/

namespace SmlNj.MatchComp

def infinity : ℕ := 10000000

def signToWidth : Consig → ℕ
  | .csig i j => i + j
  | .cnil => infinity

def relevant (node : OrNode Andor) (rule : ℕ) : Bool := decide (rule ∉ node.defaults)

/-- The quality of a choice: fewer defaults are better, then fewer cases. -/
def metric (node : OrNode Andor) : ℕ := 10000 * node.defaults.card + node.cases.length

abbrev NodeQueue := List (ℕ × OrNode Andor)

/-- A choice is put before the first that is worse. -/
def insertQ (node : OrNode Andor) : NodeQueue → NodeQueue
  | (m1, node') :: queue =>
    if metric node < m1 then (metric node, node) :: (m1, node') :: queue
    else (m1, node') :: insertQ node queue
  | [] => [(metric node, node)]

/-- The first choice that satisfies a predicate, and the others; `passed` are those before, in
reverse. -/
def selectBest (pred : OrNode Andor → Bool) (passed : NodeQueue) :
    NodeQueue → Option (OrNode Andor × NodeQueue)
  | [] => none
  | head :: nodeQ =>
    if pred head.2 then some (head.2, passed.reverse ++ nodeQ)
    else selectBest pred (head :: passed) nodeQ

def bestOrNode (nodeQ : NodeQueue) (live : Ruleset) (h : live.Nonempty) :
    Option (OrNode Andor × NodeQueue) :=
  selectBest (fun node => relevant node (live.min' h)) [] nodeQ

mutual

/-- **The choices that can be made next in a tree** are put in the queue. -/
def accessible : Andor → NodeQueue → NodeQueue
  | .and children, nodeQ => accessibleList children nodeQ
  | .or node, nodeQ => insertQ node nodeQ
  | .var, nodeQ | .wc, nodeQ => nodeQ

def accessibleList : List Andor → NodeQueue → NodeQueue
  | [], nodeQ => nodeQ
  | andor :: andors, nodeQ => accessibleList andors (accessible andor nodeQ)

end

def accessibleSub : Subcase Andor → NodeQueue → NodeQueue
  | .const, nodeQ => nodeQ
  | .dcarg andor, nodeQ => accessible andor nodeQ
  | .velems elems, nodeQ => accessibleList elems nodeQ

attribute [simp] accessible accessibleList accessibleSub

/-! ### Sizes -/

mutual

def size : Andor → ℕ
  | .and children => sizeAll children
  | .or ⟨_, _, cases, _⟩ => 1 + sizeCases cases
  | .var | .wc => 0

def sizeAll : List Andor → ℕ
  | [] => 0
  | a :: as => size a + sizeAll as

def sizeCases : List (Con × Ruleset × Subcase Andor) → ℕ
  | [] => 0
  | (_, _, subcase) :: cases => 1 + sizeSub subcase + sizeCases cases

def sizeSub : Subcase Andor → ℕ
  | .const => 0
  | .dcarg a => size a
  | .velems as => sizeAll as

end

attribute [simp] size sizeAll sizeCases sizeSub

def sizeQ (nodeQ : NodeQueue) : ℕ := (nodeQ.map fun q => size (.or q.2)).sum

@[simp] theorem sizeQ_cons (q : ℕ × OrNode Andor) (nodeQ : NodeQueue) :
    sizeQ (q :: nodeQ) = size (.or q.2) + sizeQ nodeQ := by
  simp [sizeQ]

theorem insertQ_perm (node : OrNode Andor) (nodeQ : NodeQueue) :
    (insertQ node nodeQ).Perm ((metric node, node) :: nodeQ) := by
  induction nodeQ with
  | nil => exact .refl _
  | cons q nodeQ ih =>
    rw [insertQ]
    split
    · exact .refl _
    · exact (ih.cons q).trans (.swap _ _ _)

variable {nodeQ remainder : NodeQueue} {node : OrNode Andor} {live : Ruleset} {h : live.Nonempty}

theorem selectBest_spec {pred : OrNode Andor → Bool} {passed : NodeQueue}
    (h : selectBest pred passed nodeQ = some (node, remainder)) :
    pred node ∧ ∃ m, (passed.reverse ++ nodeQ).Perm ((m, node) :: remainder) := by
  induction nodeQ generalizing passed with
  | nil => cases h
  | cons q nodeQ ih =>
    rw [selectBest] at h
    split at h
    · next hq =>
      simp only [Option.some.injEq, Prod.mk.injEq] at h
      obtain ⟨rfl, rfl⟩ := h
      exact ⟨hq, q.1, List.perm_middle⟩
    · simpa using ih h

theorem selectBest_none {pred : OrNode Andor → Bool} {passed : NodeQueue}
    (h : selectBest pred passed nodeQ = none) : ∀ q ∈ nodeQ, pred q.2 = false := by
  induction nodeQ generalizing passed with
  | nil => simp
  | cons q nodeQ ih =>
    rw [selectBest] at h
    split at h
    · cases h
    · next hq => exact List.forall_mem_cons.mpr ⟨by simpa using hq, ih h⟩

theorem bestOrNode_perm (hb : bestOrNode nodeQ live h = some (node, remainder)) :
    ∃ m, nodeQ.Perm ((m, node) :: remainder) := by
  simpa using (selectBest_spec hb).2

theorem sizeQ_perm {nodeQ' : NodeQueue} (h : nodeQ.Perm nodeQ') : sizeQ nodeQ = sizeQ nodeQ' :=
  (h.map _).sum_eq

theorem sizeQ_bestOrNode (hb : bestOrNode nodeQ live h = some (node, remainder)) :
    sizeQ nodeQ = 1 + sizeCases node.cases + sizeQ remainder := by
  obtain ⟨m, hm⟩ := bestOrNode_perm hb
  rw [sizeQ_perm hm, sizeQ_cons]
  rfl

mutual

theorem sizeQ_accessible : ∀ (a : Andor) (nodeQ : NodeQueue),
    sizeQ (accessible a nodeQ) = size a + sizeQ nodeQ
  | .and children, nodeQ => by simpa using sizeQ_accessibleList children nodeQ
  | .or node, nodeQ => by rw [accessible, sizeQ_perm (insertQ_perm node nodeQ), sizeQ_cons]
  | .var, nodeQ | .wc, nodeQ => by simp

theorem sizeQ_accessibleList : ∀ (as : List Andor) (nodeQ : NodeQueue),
    sizeQ (accessibleList as nodeQ) = sizeAll as + sizeQ nodeQ
  | [], nodeQ => by simp
  | a :: as, nodeQ => by
    rw [accessibleList, sizeQ_accessibleList as, sizeQ_accessible a, sizeAll]
    omega

end

theorem sizeQ_accessibleSub (s : Subcase Andor) (nodeQ : NodeQueue) :
    sizeQ (accessibleSub s nodeQ) = sizeSub s + sizeQ nodeQ := by
  cases s with
  | const => simp
  | dcarg a => exact sizeQ_accessible a nodeQ
  | velems as => exact sizeQ_accessibleList as nodeQ

/-! ### Decision trees -/

/-- **Decision trees.** -/
inductive Dectree
  | switch (path : Path) (sign : Consig) (cases : List (Con × Dectree))
      (defaultOp : Option Dectree) (live : Ruleset)
  | rhs (rule : ℕ)
  | fail

mutual

/-- **The tree for the choices in a queue**, where the rules `live` may match. -/
def mkDecTree (nodeQ : NodeQueue) (live : Ruleset) : Dectree :=
  if h : live.Nonempty then
    match hb : bestOrNode nodeQ live h with
    | some (node, remainder) =>
      let casesRules := (node.cases.map fun c => c.2.1).foldl (fun acc rules => rules ∪ acc) ∅
      let casesLive := casesRules ∩ live
      let dtCases := mkcases node.cases remainder node.defaults live
      let liveDefaults := live ∩ node.defaults
      let stillLive := casesLive ∪ liveDefaults
      let defaultDtOp :=
        if dtCases.length = signToWidth node.sign then none
        else some (mkDecTree remainder liveDefaults)
      .switch node.path node.sign dtCases defaultDtOp stillLive
    | none => .rhs (live.min' h)
  else .fail
termination_by sizeQ nodeQ
decreasing_by
  all_goals
    have := sizeQ_bestOrNode hb
    omega

/-- The trees of the cases that have a live rule. -/
def mkcases (cases : List Variant) (nodeQ : NodeQueue) (defaults live : Ruleset) :
    List (Con × Dectree) :=
  match cases with
  | [] => []
  | (con, caseRules, subcase) :: cases =>
    let caseLive := caseRules ∩ live
    let defaultsLive := defaults ∩ live
    let casePlusDefaultsLive := caseLive ∪ defaultsLive
    if caseLive = ∅ then mkcases cases nodeQ defaults live
    else
      (con, mkDecTree (accessibleSub subcase nodeQ) casePlusDefaultsLive) ::
        mkcases cases nodeQ defaults live
termination_by sizeQ nodeQ + sizeCases cases
decreasing_by
  all_goals
    simp only [sizeCases, sizeQ_accessibleSub]
    omega

end

/-- **The decision tree of an and-or tree.** -/
def makeDectree (andor : Andor) (live : Ruleset) : Dectree := mkDecTree (accessible andor []) live

/-- The outcome of a match: the right-hand side of a rule, or failure. -/
inductive Outcome
  | rhs (rule : ℕ)
  | fail
  deriving DecidableEq

mutual

/-- **What a decision tree does with a value**: none if it is at a loss. -/
def evalTree (v : Value) : Dectree → Option Outcome
  | .switch path _ cases defaultOp _ =>
    match valAt v path with
    | none => none
    | some u => evalCases v u (evalDefault v defaultOp) cases
  | .rhs rule => some (.rhs rule)
  | .fail => some .fail

def evalDefault (v : Value) : Option Dectree → Option Outcome
  | none => none
  | some dt => evalTree v dt

def evalCases (v u : Value) (default : Option Outcome) : List (Con × Dectree) → Option Outcome
  | [] => default
  | (con, dt) :: cases => if conMatches con u then evalTree v dt else evalCases v u default cases

end

attribute [simp] evalTree evalDefault evalCases

section Unfold

def liveCases (node : OrNode Andor) (live : Ruleset) : List Variant :=
  node.cases.filter fun c => decide (c.2.1 ∩ live ≠ ∅)

theorem mem_liveCases {c : Variant} :
    c ∈ liveCases node live ↔ c ∈ node.cases ∧ c.2.1 ∩ live ≠ ∅ := by
  simp [liveCases]

theorem mkcases_eq (cases : List Variant) (nodeQ : NodeQueue) (defaults live : Ruleset) :
    mkcases cases nodeQ defaults live =
      (cases.filter fun c => decide (c.2.1 ∩ live ≠ ∅)).map fun c =>
        (c.1, mkDecTree (accessibleSub c.2.2 nodeQ) (c.2.1 ∩ live ∪ defaults ∩ live)) := by
  induction cases with
  | nil => rw [mkcases]; rfl
  | cons c cases ih =>
    obtain ⟨con, rules, s⟩ := c
    rw [mkcases]
    by_cases h : rules ∩ live = ∅
    · simp [h, ih]
    · simp [h, ih]

theorem mkDecTree_of_best (hb : bestOrNode nodeQ live h = some (node, remainder)) :
    ∃ stillLive, mkDecTree nodeQ live = .switch node.path node.sign
      ((liveCases node live).map fun c =>
        (c.1, mkDecTree (accessibleSub c.2.2 remainder) (c.2.1 ∩ live ∪ node.defaults ∩ live)))
      (if (liveCases node live).length = signToWidth node.sign then none
        else some (mkDecTree remainder (live ∩ node.defaults)))
      stillLive := by
  rw [mkDecTree, dif_pos h]
  split
  · next node' remainder' hb' =>
    rw [hb, Option.some.injEq, Prod.mk.injEq] at hb'
    obtain ⟨rfl, rfl⟩ := hb'
    simp only [mkcases_eq, List.length_map]
    exact ⟨_, rfl⟩
  · next hb' => rw [hb] at hb'; cases hb'

theorem mkDecTree_of_none (hb : bestOrNode nodeQ live h = none) :
    mkDecTree nodeQ live = .rhs (live.min' h) := by
  rw [mkDecTree, dif_pos h]
  split
  · next hb' => rw [hb] at hb'; cases hb'
  · rfl

theorem mkDecTree_empty (nodeQ : NodeQueue) : mkDecTree nodeQ ∅ = .fail := by
  rw [mkDecTree, dif_neg (by simp)]

end Unfold

end SmlNj.MatchComp
