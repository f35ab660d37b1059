import SmlNj.CPS.Convert.SwitchCorrect
import SmlNj.CPS.Numbers

/-!
# Switches on boxed numbers and on strings

The translation of a case analysis on boxed numbers is a binary search with tests for equality; that
of a case analysis on strings is a switch on the length, with the strings of one length compared one
after the other.

## Main definitions

* `boxedNumSwitch`, `stringSwitch` — the switches.
* `selectString` — the case analysis on strings.
* `Strings` — the meaning of the operators on strings.

## Main results

* `boxedGen_selects` — the binary search.
* `gather_spec` — the groups of the strings by their lengths.
* `boxed_and_string_correct` — the switches are right.
-/

namespace SmlNj.CPS.Switch

/-- The constants of patterns. -/
inductive Con
  | intcon (ival : ℤ) (ty : ℕ)
  | wordcon (ival : ℤ) (ty : ℕ)
  | stringcon (s : SmlString)
  deriving DecidableEq

section Boxed

variable (ty : IntTy) (nk : P.NumKind) (arg : Value) (default : Cexp)

def branch (cmpOp : P.CmpOp) (i : ℤ) (tr fl : Cexp) : Build Cexp := do
  return .branch (.cmp cmpOp nk) [arg, .num ⟨i, ty⟩] (← mkv) tr fl

def split {α : Type} : ℕ → List α → List α → Build (List α × α × List α)
  | 0, prefix', ic :: r => return (prefix'.reverse, ic, r)
  | n + 1, prefix', ic :: r => split n (ic :: prefix') r
  | _, _, [] => bug

def genCase : List (ℤ × Cexp) → Build Cexp
  | [] => return default
  | (i, act) :: r => do branch ty nk arg .eql i act (← genCase r)

/-- **Binary search** of `n` sorted cases. -/
def boxedGen (n : ℕ) (cases : List (ℤ × Cexp)) : Build Cexp :=
  if n > 4 then do
    let m := n / 2
    let (cases1, (i, act), cases2) ← split m [] cases
    let tr ← boxedGen m cases1
    let fl ← boxedGen (n - m - 1) cases2
    branch ty nk arg .eql i act (← branch ty nk arg .lt i tr fl)
  else genCase ty nk arg default cases
termination_by n

end Boxed

/-- **The switch on boxed integers or words.** -/
def boxedNumSwitch (arg : Value) (ty : Cty) (nk : P.NumKind) (cases : List (ℤ × Cexp))
    (default : Cexp) : Build Cexp :=
  match ty with
  | .numt ty =>
    let cases := numSort cases
    boxedGen ty nk arg default cases.length cases
  | _ => fun _ => .error .nomatch

def ifeqString (arg : Value) (s : SmlString) (tr fl : Cexp) : Build Cexp := do
  return .branch (.streql s) [arg] (← mkv) tr fl

def un_str : Con × Cexp → Build (SmlString × Cexp)
  | (.stringcon s, act) => return (s, act)
  | _ => bug

/-- Group cases that are sorted by the lengths of their strings: `current` is the group of the
strings of length `n`, and `acc` are the groups before it. -/
def gather : ℕ → List (SmlString × Cexp) → List (SmlString × Cexp) →
    List (ℤ × List (SmlString × Cexp)) → List (ℤ × List (SmlString × Cexp))
  | n, [], current, acc => (n, current) :: acc
  | n, (s, a) :: rest, current, acc =>
    let n' := s.length
    if n' = n then gather n rest ((s, a) :: current) acc
    else gather n' rest [(s, a)] ((n, current) :: acc)

def sortBySize (cases : List (SmlString × Cexp)) : List (SmlString × Cexp) :=
  cases.mergeSort fun c c' => decide (c.1.length ≤ c'.1.length)

/-- Group cases by the lengths of their strings. -/
def coalesce (cases : List (SmlString × Cexp)) :
    Except Exn (List (ℤ × List (SmlString × Cexp))) :=
  match sortBySize cases with
  | [] => .error .empty
  | (s, a) :: r => .ok (gather s.length ((s, a) :: r) [] [])

section Strings

variable (arg : Value) (default : Cexp)

def tryCases : List (SmlString × Cexp) → Build Cexp
  | [] => return default
  | (s, act) :: r => do ifeqString arg s act (← tryCases r)

/-- The tests for a group; there is only one empty string. -/
def genGrp : ℤ × List (SmlString × Cexp) → Build (ℤ × Cexp)
  | (n, cases) =>
    match decide (n = 0), cases with
    | true, (_, act) :: _ => return (0, act)
    | _, _ => do return (n, ← tryCases arg default cases)

/-- **The switch on strings.** -/
def stringSwitch (cases : List (Con × Cexp)) : Build Cexp := do
  let groups ← coalesce (← cases.mapM un_str)
  let bylength ← groups.mapM (genGrp arg default)
  pure .length [arg] tagNumTy fun len => taggedNumSwitch len tagWordKind bylength default none

end Strings

/-! ### Boxed numbers: the binary search -/

def boxedKind (isSigned : Bool) (sz : ℕ) : P.NumKind := if isSigned then .int sz else .uint sz

def BoxedHolds (isSigned : Bool) (sz : ℕ) (v : ℤ) : Prop :=
  match isSigned with
  | true => -2 ^ (sz - 1) ≤ v ∧ v < 2 ^ (sz - 1)
  | false => TwosComplement.Pattern sz v

section BoxedSelects

variable {D W : Type} {I : Interp D W} (N : Numbers I) {isSigned : Bool} {sz : ℕ}
  (hbox : Target.defaultIntSz < sz) (hsz : sz ≤ Target.mlValueSz) {env : Env D} {arg : Value} {default : Cexp} {v : ℤ}
  (hv : BoxedHolds isSigned sz v) (harg : val I env arg = some (N.num (.ofInt sz v)))

include hbox hsz in
theorem branch_boxed (oper : P.CmpOp) {a b : ℤ} (ha : BoxedHolds isSigned sz a)
    (hb : BoxedHolds isSigned sz b) :
    I.branch (.cmp oper (boxedKind isSigned sz)) [N.num (.ofInt sz a), N.num (.ofInt sz b)] =
      some (compareNum oper a b) := by
  refine N.branch _ [.ofInt sz a, .ofInt sz b] ?_
  have hsize : (Num.ofInt sz a).HasSize sz ∧ (Num.ofInt sz b).HasSize sz :=
    ⟨Num.hasSize_ofInt hsz a, Num.hasSize_ofInt hsz b⟩
  cases isSigned with
  | true =>
    refine (if_pos hsize).trans ?_
    rw [Num.toInt_ofInt (Nat.zero_lt_of_lt hbox) hsz ha.1 ha.2, Num.toInt_ofInt (Nat.zero_lt_of_lt hbox) hsz hb.1 hb.2]
  | false =>
    refine (if_pos hsize).trans ?_
    rw [Num.toWord_ofInt hsz ha, Num.toWord_ofInt hsz hb]

include hbox hsz hv harg

theorem reaches_branch (oper : P.CmpOp) {i : ℤ} (hi : BoxedHolds isSigned sz i) (tr fl : Cexp)
    (n : Lvar) :
    ∃ e, branch ⟨sz, false⟩ (boxedKind isSigned sz) arg oper i tr fl n = .ok (e, n + 1) ∧
      ∀ env' e', Reaches I env (if compareNum oper v i then tr else fl) env' e' →
        Reaches I env e env' e' := by
  refine ⟨_, rfl, ?_⟩
  intro env' e' hr
  have hnative : Num.ofInt sz i = .ofConst ⟨i, ⟨sz, false⟩⟩ :=
    if_neg (Nat.not_lt.mpr (Nat.succ_le_of_lt hbox))
  have hlit : val I env (.num ⟨i, ⟨sz, false⟩⟩) = some (N.num (.ofInt sz i)) := by
    rw [hnative]
    exact congrArg some (N.lit ⟨i, ⟨sz, false⟩⟩)
  have hvals : vals I env [arg, .num ⟨i, ⟨sz, false⟩⟩] =
      some [N.num (.ofInt sz v), N.num (.ofInt sz i)] := by
    simp [vals, harg, hlit]
  exact Reaches.branch hvals (branch_boxed N hbox hsz oper hv hi) hr

theorem genCase_selects {cases : List (ℤ × Cexp)}
    (hlab : ∀ c ∈ cases, BoxedHolds isSigned sz c.1) :
    Selects I env (select default cases v)
      (genCase ⟨sz, false⟩ (boxedKind isSigned sz) arg default cases) := by
  induction cases with
  | nil => exact selects_return
  | cons c r ih =>
    obtain ⟨i, act⟩ := c
    have hi : BoxedHolds isSigned sz i := hlab _ List.mem_cons_self
    have hr := ih fun c hc => hlab c (List.mem_cons_of_mem _ hc)
    rw [select]
    split
    · next heq =>
      apply Selects.bind_right hr.builds
      intro fl n
      obtain ⟨e, he, hreach⟩ := reaches_branch N hbox hsz hv harg .eql hi act fl n
      refine ⟨e, n + 1, env, he, Nat.le_succ n, hreach _ _ ?_, fun _ _ => rfl⟩
      rw [compareNum, if_pos (decide_eq_true heq.symm)]
      exact .refl _ _
    · next hne =>
      apply hr.bind
      intro fl n
      obtain ⟨e, he, hreach⟩ := reaches_branch N hbox hsz hv harg .eql hi act fl n
      refine ⟨e, n + 1, he, Nat.le_succ n, fun env' h => hreach _ _ ?_⟩
      rw [if_neg (fun h => hne (of_decide_eq_true h).symm)]
      exact h

omit hbox hsz hv harg in
theorem split_eq {α : Type} (l₁ : List α) (ic : α) (l₂ prefix' : List α) (n : Lvar) :
    split l₁.length prefix' (l₁ ++ ic :: l₂) n = .ok ((prefix'.reverse ++ l₁, ic, l₂), n) := by
  induction l₁ generalizing prefix' with
  | nil =>
    rw [List.append_nil]
    rfl
  | cons a l₁ ih =>
    refine (ih (a :: prefix')).trans ?_
    rw [List.reverse_cons, List.append_assoc, List.singleton_append]

omit hbox hsz hv harg in
theorem boxedGen_split (ty : IntTy) (nk : P.NumKind) {n : ℕ} (h : n > 4) {l₁ : List (ℤ × Cexp)}
    (i : ℤ) (act : Cexp) (l₂ : List (ℤ × Cexp)) (hl : l₁.length = n / 2) :
    boxedGen ty nk arg default n (l₁ ++ (i, act) :: l₂) = (do
      let tr ← boxedGen ty nk arg default (n / 2) l₁
      let fl ← boxedGen ty nk arg default (n - n / 2 - 1) l₂
      branch ty nk arg .eql i act (← branch ty nk arg .lt i tr fl)) := by
  rw [boxedGen, if_pos h]
  funext k
  have hs := split_eq l₁ (i, act) l₂ [] k
  rw [hl] at hs
  exact bind_run hs

omit hbox hsz hv harg in
theorem select_middle {l₁ l₂ : List (ℤ × Cexp)} {i : ℤ} {act : Cexp}
    (hs : (l₁ ++ (i, act) :: l₂).Pairwise fun c c' => c.1 < c'.1) :
    select default (l₁ ++ (i, act) :: l₂) v =
      if v = i then act else if v < i then select default l₁ v else select default l₂ v := by
  obtain ⟨-, hs₂, h₁₂⟩ := List.pairwise_append.mp hs
  have hlt : ∀ u ∈ labels l₁, u < i := by
    intro u hu
    obtain ⟨c, hc, rfl⟩ := List.mem_map.mp hu
    exact h₁₂ c hc _ List.mem_cons_self
  have hgt : ∀ u ∈ labels l₂, i < u := by
    intro u hu
    obtain ⟨c, hc, rfl⟩ := List.mem_map.mp hu
    exact (List.pairwise_cons.mp hs₂).1 c hc
  rcases lt_trichotomy v i with h | rfl | h
  · rw [if_neg h.ne, if_pos h]
    have hright : v ∉ labels ((i, act) :: l₂) := by
      rw [labels, List.map_cons, List.mem_cons, not_or]
      exact ⟨h.ne, fun hv => absurd (hgt v hv) (by omega)⟩
    by_cases hmem : v ∈ labels l₁
    · exact select_append_left _ hmem
    · rw [select_append_right _ hmem, select_of_not_mem hright, select_of_not_mem hmem]
  · rw [if_pos rfl, select_append_right _ fun hv => absurd (hlt v hv) (lt_irrefl v), select,
      if_pos rfl]
  · rw [if_neg h.ne', if_neg h.not_gt, select_append_right _ fun hv => absurd (hlt v hv) (by omega),
      select, if_neg h.ne]

/-- **The binary search.** -/
theorem boxedGen_selects (cases : List (ℤ × Cexp))
    (hs : cases.Pairwise fun c c' => c.1 < c'.1)
    (hlab : ∀ c ∈ cases, BoxedHolds isSigned sz c.1) :
    Selects I env (select default cases v)
      (boxedGen ⟨sz, false⟩ (boxedKind isSigned sz) arg default cases.length cases) := by
  induction hn : cases.length using Nat.strong_induction_on generalizing cases with
  | _ n ih =>
    by_cases h4 : n > 4
    · obtain ⟨l₁, ⟨i, act⟩, l₂, rfl, hl⟩ : ∃ l₁ ic l₂, cases = l₁ ++ ic :: l₂ ∧
          l₁.length = n / 2 := by
        have hlt : n / 2 < cases.length := by omega
        refine ⟨cases.take (n / 2), cases[n / 2], cases.drop (n / 2 + 1), ?_, ?_⟩
        · rw [← List.drop_eq_getElem_cons hlt, List.take_append_drop]
        · rw [List.length_take, min_eq_left hlt.le]
      have hl₂ : l₂.length = n - n / 2 - 1 := by
        rw [List.length_append, List.length_cons] at hn
        omega
      obtain ⟨hs₁, hs₂, -⟩ := List.pairwise_append.mp hs
      have hi : BoxedHolds isSigned sz i :=
        hlab (i, act) (List.mem_append_right _ List.mem_cons_self)
      have ih₁ := ih (n / 2) (by omega) l₁ hs₁
        (fun c hc => hlab c (List.mem_append_left _ hc)) hl
      have ih₂ := ih (n - n / 2 - 1) (by omega) l₂ (List.pairwise_cons.mp hs₂).2
        (fun c hc => hlab c (List.mem_append_right _ (List.mem_cons_of_mem _ hc))) hl₂
      rw [boxedGen_split _ _ h4 i act l₂ hl, select_middle hs]
      -- the two tests, from a term that the second one goes on to
      have htests : ∀ (tr fl : Cexp) (m : Lvar), ∃ e,
          (do
            branch ⟨sz, false⟩ (boxedKind isSigned sz) arg .eql i act
              (← branch ⟨sz, false⟩ (boxedKind isSigned sz) arg .lt i tr fl)) m = .ok (e, m + 2) ∧
          ∀ env' e', Reaches I env (if v = i then act else if v < i then tr else fl) env' e' →
            Reaches I env e env' e' := by
        intro tr fl m
        obtain ⟨lt, hlt, hrlt⟩ := reaches_branch N hbox hsz hv harg .lt hi tr fl m
        obtain ⟨e, he, hre⟩ := reaches_branch N hbox hsz hv harg .eql hi act lt (m + 1)
        refine ⟨e, (bind_run hlt).trans he, fun env' e' h => hre _ _ ?_⟩
        simp only [compareNum, decide_eq_true_eq] at hrlt ⊢
        split
        · rwa [if_pos ‹_›] at h
        · rw [if_neg ‹_›] at h
          exact hrlt _ _ h
      rcases lt_trichotomy v i with h | rfl | h
      · rw [if_neg h.ne, if_pos h]
        apply ih₁.bind
        intro tr m
        obtain ⟨fl, m₁, hfl, hle⟩ := ih₂.builds m
        obtain ⟨e, he, hr⟩ := htests tr fl m₁
        refine ⟨e, m₁ + 2, (bind_run hfl).trans he, hle.trans (Nat.le_add_right _ _),
          fun env' h' => hr _ _ ?_⟩
        rwa [if_neg h.ne, if_pos h]
      · rw [if_pos rfl]
        apply Selects.bind_right ih₁.builds
        intro tr
        apply Selects.bind_right ih₂.builds
        intro fl m
        obtain ⟨e, he, hr⟩ := htests tr fl m
        refine ⟨e, m + 2, env, he, Nat.le_add_right _ _, hr _ _ ?_, fun _ _ => rfl⟩
        rw [if_pos rfl]
        exact .refl _ _
      · rw [if_neg h.ne', if_neg h.not_gt]
        apply Selects.bind_right ih₁.builds
        intro tr
        apply ih₂.bind
        intro fl m
        obtain ⟨e, he, hr⟩ := htests tr fl m
        refine ⟨e, m + 2, he, Nat.le_add_right _ _, fun env' h' => hr _ _ ?_⟩
        rwa [if_neg h.ne', if_neg h.not_gt]
    · rw [boxedGen, if_neg h4]
      exact genCase_selects N hbox hsz hv harg hlab

/-- **The switch on boxed numbers.** -/
theorem boxedNumSwitch_selects {cases : List (ℤ × Cexp)} (hnd : (labels cases).Nodup)
    (hlab : ∀ c ∈ cases, BoxedHolds isSigned sz c.1) :
    Selects I env (select default cases v)
      (boxedNumSwitch arg (.numt ⟨sz, false⟩) (boxedKind isSigned sz) cases default) := by
  have hperm := numSort_perm cases
  have hnd' : (labels (numSort cases)).Nodup := ((hperm.map Prod.fst).nodup_iff).mpr hnd
  rw [← select_perm hperm hnd' v]
  exact boxedGen_selects N hbox hsz hv harg (numSort cases) (numSort_sorted hnd)
    fun c hc => hlab c (hperm.mem_iff.mp hc)

end BoxedSelects

/-! ### The groups of strings -/

@[grind =] def selectString (default : Cexp) : List (SmlString × Cexp) → SmlString → Cexp
  | [], _ => default
  | (s, act) :: r, x => if s = x then act else selectString default r x

variable {cases : List (SmlString × Cexp)} {x : SmlString}

theorem selectString_of_not_mem {default : Cexp} (h : x ∉ cases.map Prod.fst) :
    selectString default cases x = default := by
  induction cases with
  | nil => rfl
  | cons c r ih =>
    rw [List.map_cons, List.mem_cons, not_or] at h
    rw [selectString, if_neg (Ne.symm h.1), ih h.2]

theorem selectString_of_mem {default : Cexp} {act : Cexp} (h : (x, act) ∈ cases)
    (hone : ∀ act', (x, act') ∈ cases → act' = act) : selectString default cases x = act := by
  induction cases with
  | nil => cases h
  | cons c r ih =>
    obtain ⟨s, act'⟩ := c
    rw [selectString]
    split
    · next heq =>
      subst heq
      exact hone act' List.mem_cons_self
    · next hne =>
      refine ih ?_ fun b hb => hone b (List.mem_cons_of_mem _ hb)
      rcases List.mem_cons.mp h with he | h
      · exact absurd (congrArg Prod.fst he).symm hne
      · exact h

/-- The groups have different lengths, and each has strings of its length. -/
structure Groups (gs : List (ℤ × List (SmlString × Cexp))) : Prop where
  nodup : (gs.map Prod.fst).Nodup
  nonempty : ∀ g ∈ gs, g.2 ≠ []
  sized : ∀ g ∈ gs, ∀ c ∈ g.2, (c.1.length : ℤ) = g.1

theorem groups_nil : Groups [] :=
  ⟨List.nodup_nil, fun _ h => (nomatch h), fun _ h => (nomatch h)⟩

theorem Groups.cons {gs : List (ℤ × List (SmlString × Cexp))} (h : Groups gs) {n : ℕ}
    {current : List (SmlString × Cexp)} (hlt : ∀ g ∈ gs, g.1 < n) (hne : current ≠ [])
    (hcur : ∀ c ∈ current, c.1.length = n) : Groups ((n, current) :: gs) := by
  refine ⟨List.nodup_cons.mpr ⟨fun hmem => ?_, h.nodup⟩, fun g hg => ?_, fun g hg => ?_⟩
  · obtain ⟨g, hg, he⟩ := List.mem_map.mp hmem
    exact absurd he (hlt g hg).ne
  · rcases List.mem_cons.mp hg with rfl | hg
    · exact hne
    · exact h.nonempty g hg
  · rcases List.mem_cons.mp hg with rfl | hg
    · exact fun c hc => congrArg Nat.cast (hcur c hc)
    · exact h.sized g hg

/-- **Every case is in the group of its length.** -/
theorem gather_spec {n : ℕ} {rest current : List (SmlString × Cexp)}
    {acc : List (ℤ × List (SmlString × Cexp))}
    (hs : rest.Pairwise fun c c' => c.1.length ≤ c'.1.length) (hle : ∀ c ∈ rest, n ≤ c.1.length)
    (hne : current ≠ []) (hcur : ∀ c ∈ current, c.1.length = n) (hacc : Groups acc)
    (hlt : ∀ g ∈ acc, g.1 < n) :
    Groups (gather n rest current acc) ∧ ∀ c, (∃ g ∈ gather n rest current acc, c ∈ g.2) ↔
      c ∈ rest ∨ c ∈ current ∨ ∃ g ∈ acc, c ∈ g.2 := by
  have hcons : ∀ c, (∃ g ∈ ((n : ℤ), current) :: acc, c ∈ g.2) ↔
      c ∈ current ∨ ∃ g ∈ acc, c ∈ g.2 := by
    simp
  induction rest generalizing n current acc with
  | nil =>
    refine ⟨hacc.cons hlt hne hcur, fun c => (hcons c).trans ?_⟩
    simp
  | cons c rest ih =>
    obtain ⟨s, a⟩ := c
    obtain ⟨hhead, hs⟩ := List.pairwise_cons.mp hs
    rw [gather]
    split
    · next heq =>
      -- the group goes on
      obtain ⟨hg, hmem⟩ := @ih n ((s, a) :: current) acc hs
        (fun c hc => hle c (List.mem_cons_of_mem _ hc)) (List.cons_ne_nil _ _)
        (by
          intro c hc
          rcases List.mem_cons.mp hc with rfl | hc
          · exact heq
          · exact hcur c hc)
        hacc hlt (by
          intro c
          simp only [List.mem_cons, exists_eq_or_imp])
      refine ⟨hg, fun c => (hmem c).trans ?_⟩
      simp only [List.mem_cons]
      tauto
    · next hne' =>
      -- a longer string starts the next group
      have hlt' : n < s.length :=
        lt_of_le_of_ne (hle (s, a) List.mem_cons_self) (Ne.symm hne')
      obtain ⟨hg, hmem⟩ := @ih s.length [(s, a)] (((n : ℤ), current) :: acc) hs hhead
        (List.cons_ne_nil _ _)
        (by
          intro c hc
          rw [List.mem_singleton.mp hc])
        (hacc.cons hlt hne hcur)
        (by
          intro g hg
          rcases List.mem_cons.mp hg with rfl | hg
          · exact Int.ofNat_lt.mpr hlt'
          · exact (hlt g hg).trans (Int.ofNat_lt.mpr hlt'))
        (by
          intro c
          simp only [List.mem_cons, exists_eq_or_imp])
      refine ⟨hg, fun c => (hmem c).trans ?_⟩
      rw [hcons c, List.mem_singleton, List.mem_cons]
      tauto

theorem sortBySize_perm (cases : List (SmlString × Cexp)) : (sortBySize cases).Perm cases :=
  List.mergeSort_perm _ _

theorem sortBySize_sorted (cases : List (SmlString × Cexp)) :
    (sortBySize cases).Pairwise fun c c' => c.1.length ≤ c'.1.length := by
  have hle : (sortBySize cases).Pairwise fun c c' => decide (c.1.length ≤ c'.1.length) = true := by
    apply List.pairwise_mergeSort
    · intro a b c hab hbc
      simp only [decide_eq_true_eq] at hab hbc ⊢
      omega
    · intro a b
      simp only [Bool.or_eq_true, decide_eq_true_eq]
      omega
  exact hle.imp of_decide_eq_true

/-- **The groups of cases.** -/
theorem coalesce_spec (hne : cases ≠ []) :
    ∃ gs, coalesce cases = .ok gs ∧ Groups gs ∧ ∀ c, (∃ g ∈ gs, c ∈ g.2) ↔ c ∈ cases := by
  have hperm := sortBySize_perm cases
  have hs := sortBySize_sorted cases
  unfold coalesce
  cases hsort : sortBySize cases with
  | nil =>
    rw [hsort] at hperm
    exact absurd hperm.symm.eq_nil hne
  | cons c r =>
    obtain ⟨s, a⟩ := c
    rw [hsort] at hperm hs
    obtain ⟨hhead, hs⟩ := List.pairwise_cons.mp hs
    have hstep : gather s.length ((s, a) :: r) [] [] = gather s.length r [(s, a)] [] := by
      exact if_pos rfl
    obtain ⟨hg, hmem⟩ := @gather_spec s.length r [(s, a)] [] hs hhead (List.cons_ne_nil _ _)
      (by
        intro c hc
        rw [List.mem_singleton.mp hc])
      groups_nil (fun _ h => nomatch h)
    refine ⟨_, rfl, hstep ▸ hg, fun c => ?_⟩
    rw [hstep, hmem c, ← hperm.mem_iff]
    simp only [List.mem_cons, List.not_mem_nil, false_and, exists_const, or_false]
    exact or_comm

/-! ### Strings: the tests -/

/-- **The meaning of the operators on strings.**  The test for equality is only meaningful for
strings of the length of its label, which is not empty. -/
structure Strings {D W : Type} (I : Interp D W) (word : ℕ → D) where
  str : SmlString → D
  length (x : SmlString) (h : x.length < 2 ^ 63) :
    I.pure .length [str x] = some (word x.length)
  streql (s x : SmlString) (hlen : x.length = s.length) (hne : s ≠ []) :
    I.branch (.streql s) [str x] = some (decide (x = s))

section StringSelects

variable {D W : Type} {I : Interp D W} {word : ℕ → D} (S : Strings I word) {arg : Value}
  {default : Cexp}

theorem tryCases_reaches (cases : List (SmlString × Cexp)) (n : Lvar) :
    ∃ e n', tryCases arg default cases n = .ok (e, n') ∧ n ≤ n' ∧
      ∀ (env : Env D) (x : SmlString), val I env arg = some (S.str x) →
        (∀ c ∈ cases, x.length = c.1.length ∧ c.1 ≠ []) →
        Reaches I env e env (selectString default cases x) := by
  induction cases with
  | nil => exact ⟨default, n, rfl, le_rfl, fun env _ _ _ => .refl env default⟩
  | cons c r ih =>
    obtain ⟨s, act⟩ := c
    obtain ⟨e, n', he, hle, hr⟩ := ih
    refine ⟨_, n' + 1, bind_run he, hle.trans (Nat.le_succ _), fun env x hx hc => ?_⟩
    obtain ⟨hlen, hne⟩ := hc (s, act) List.mem_cons_self
    have hvals : vals I env [arg] = some [S.str x] := by
      simp [vals, hx]
    refine Reaches.branch hvals (S.streql s x hlen hne) ?_
    rw [selectString]
    by_cases h : s = x
    · rw [if_pos h, if_pos (decide_eq_true h.symm)]
      exact .refl _ _
    · rw [if_neg h, if_neg fun hd => h (of_decide_eq_true hd).symm]
      exact hr env x hx fun c hc' => hc c (List.mem_cons_of_mem _ hc')

/-- **The tests for a group**, from a string of its length. -/
theorem genGrp_reaches {g : ℤ × List (SmlString × Cexp)} (hne : g.2 ≠ [])
    (hsized : ∀ c ∈ g.2, (c.1.length : ℤ) = g.1) (n : Lvar) :
    ∃ e n', genGrp arg default g n = .ok ((g.1, e), n') ∧ n ≤ n' ∧
      ∀ (env : Env D) (x : SmlString), val I env arg = some (S.str x) → (x.length : ℤ) = g.1 →
        Reaches I env e env (selectString default g.2 x) := by
  obtain ⟨m, cases⟩ := g
  obtain ⟨⟨s, act⟩, r, rfl⟩ := List.exists_cons_of_ne_nil hne
  by_cases h0 : m = 0
  · subst h0
    refine ⟨act, n, rfl, le_rfl, fun env x _ hx => ?_⟩
    -- there is only one empty string
    obtain rfl : x = [] := List.length_eq_zero_iff.mp (Int.ofNat_eq_zero.mp hx)
    obtain rfl : s = [] := List.length_eq_zero_iff.mp
      (Int.ofNat_eq_zero.mp (hsized (s, act) List.mem_cons_self))
    exact .refl _ _
  · obtain ⟨e, n', he, hle, hr⟩ := tryCases_reaches S ((s, act) :: r) n
    have hgrp : genGrp arg default (m, (s, act) :: r) =
        (do return (m, ← tryCases arg default ((s, act) :: r))) := by
      simp [genGrp, decide_eq_false h0]
    refine ⟨e, n', ?_, hle, fun env x hx hlen => hr env x hx fun c hc => ?_⟩
    · rw [hgrp]
      exact bind_run he
    · have hc' : (c.1.length : ℤ) = m := hsized c hc
      refine ⟨Int.ofNat_inj.mp (hlen.trans hc'.symm), fun hnil => h0 ?_⟩
      rw [← hc', hnil]
      rfl

theorem mapM_genGrp {gs : List (ℤ × List (SmlString × Cexp))} (hne : ∀ g ∈ gs, g.2 ≠ [])
    (hsized : ∀ g ∈ gs, ∀ c ∈ g.2, (c.1.length : ℤ) = g.1) (n : Lvar) :
    ∃ bylength n', gs.mapM (genGrp arg default) n = .ok (bylength, n') ∧ n ≤ n' ∧
      List.Forall₂ (fun g c => c.1 = g.1 ∧ ∀ (env : Env D) (x : SmlString),
        val I env arg = some (S.str x) → (x.length : ℤ) = g.1 →
          Reaches I env c.2 env (selectString default g.2 x)) gs bylength := by
  induction gs generalizing n with
  | nil => exact ⟨[], n, rfl, le_rfl, .nil⟩
  | cons g gs ih =>
    obtain ⟨e, n₁, he, hle₁, hr⟩ := genGrp_reaches S (hne g List.mem_cons_self)
      (hsized g List.mem_cons_self) n
    obtain ⟨cs, n₂, hcs, hle₂, hall⟩ := ih (fun g hg => hne g (List.mem_cons_of_mem _ hg))
      (fun g hg => hsized g (List.mem_cons_of_mem _ hg)) n₁
    refine ⟨(g.1, e) :: cs, n₂, ?_, hle₁.trans hle₂, .cons ⟨rfl, hr⟩ hall⟩
    rw [List.mapM_cons, bind_run he, bind_run hcs]
    rfl

theorem selectString_groups {gs : List (ℤ × List (SmlString × Cexp))} (hg : Groups gs)
    (hmem : ∀ c, (∃ g ∈ gs, c ∈ g.2) ↔ c ∈ cases) (hnd : (cases.map Prod.fst).Nodup)
    {g : ℤ × List (SmlString × Cexp)} (hgs : g ∈ gs) (hx : (x.length : ℤ) = g.1) :
    selectString default g.2 x = selectString default cases x := by
  have hone : ∀ {act act' : Cexp}, (x, act) ∈ cases → (x, act') ∈ cases → act' = act :=
    fun h h' => (Prod.mk.inj (List.inj_on_of_nodup_map hnd h' h rfl)).2
  have hsub : ∀ c ∈ g.2, c ∈ cases := fun c hc => (hmem c).mp ⟨g, hgs, hc⟩
  by_cases hx' : x ∈ cases.map Prod.fst
  · obtain ⟨⟨_, act⟩, hc, rfl⟩ := List.mem_map.mp hx'
    -- the case is in a group, which is the one of its length
    obtain ⟨g', hgs', hc'⟩ := (hmem _).mpr hc
    obtain rfl : g' = g :=
      List.inj_on_of_nodup_map hg.nodup hgs' hgs ((hg.sized g' hgs' _ hc').symm.trans hx)
    rw [selectString_of_mem hc' fun act' h' => hone hc (hsub _ h'),
      selectString_of_mem hc fun act' h' => hone hc h']
  · rw [selectString_of_not_mem hx', selectString_of_not_mem fun h => hx' ?_]
    obtain ⟨c, hc, he⟩ := List.mem_map.mp h
    exact List.mem_map.mpr ⟨c, hsub c hc, he⟩

theorem mapM_un_str (cases : List (SmlString × Cexp)) (n : Lvar) :
    (cases.map fun c => (Con.stringcon c.1, c.2)).mapM un_str n = .ok (cases, n) := by
  induction cases with
  | nil => rfl
  | cons c r ih =>
    rw [List.map_cons, List.mapM_cons]
    exact (bind_run rfl).trans ((bind_run ih).trans rfl)

/-- **The switch on strings.** -/
theorem stringSwitch_reaches (hI : TaggedWords I word) (hne : cases ≠ [])
    (hnd : (cases.map Prod.fst).Nodup) (hlab : ∀ c ∈ cases, c.1.length < 2 ^ 63)
    (hx : x.length < 2 ^ 63) {env : Env D} (harg : val I env arg = some (S.str x)) {n : Lvar}
    (hn : ∀ a, arg = .var a → a < n) :
    ∃ e n' env', stringSwitch arg default (cases.map fun c => (.stringcon c.1, c.2)) n =
        .ok (e, n') ∧
      Reaches I env e env' (selectString default cases x) ∧ ∀ y < n, env' y = env y := by
  obtain ⟨gs, hgs, hg, hmem⟩ := coalesce_spec hne
  obtain ⟨bylength, n₁, hby, hle₁, hall⟩ := @mapM_genGrp D W I word S arg default gs hg.nonempty
    hg.sized n
  have hlabels : labels bylength = gs.map Prod.fst := by
    have h := List.forall₂_map_left_iff.mpr (List.forall₂_map_right_iff.mpr
      (hall.imp fun _ _ h => h.1.symm))
    exact (List.forall₂_eq_eq_eq ▸ h : gs.map Prod.fst = labels bylength).symm
  have hbound : ∀ g ∈ gs, 0 ≤ g.1 ∧ g.1 < 2 ^ 63 := by
    intro g hgm
    obtain ⟨c, hc⟩ := List.exists_mem_of_ne_nil _ (hg.nonempty g hgm)
    have hlt := hlab c ((hmem c).mp ⟨g, hgm, hc⟩)
    rw [← hg.sized g hgm c hc]
    omega
  have hlen : bits x.length = x.length := by
    rw [bits_of_nonneg (Int.natCast_nonneg _) (by omega), Int.toNat_natCast]
  have hon : SwitchOn .word bylength none x.length := by
    refine ⟨⟨Int.natCast_nonneg _, by omega⟩, hlabels ▸ hg.nodup, fun c hc => ?_,
      fun _ h => nomatch h⟩
    have hc' : c.1 ∈ gs.map Prod.fst := hlabels ▸ List.mem_map_of_mem hc
    obtain ⟨g, hgm, he⟩ := List.mem_map.mp hc'
    exact he ▸ hbound g hgm
  -- the switch on the length
  have hvar : val I (env.set n₁ (word x.length)) (.var n₁) = some (word (bits x.length)) := by
    rw [hlen]
    exact Env.set_self env n₁ _
  obtain ⟨e, n₂, env', he, _, hr, hout⟩ := @taggedNumSwitchWith_selects D W I word hI .word
    (env.set n₁ (word x.length)) (.var n₁) default x.length hvar bylength none hon (n₁ + 1)
  have hkeep : ∀ y < n, env' y = env y := fun y hy => by
    have hlt : y < n₁ := lt_of_lt_of_le hy hle₁
    rw [hout y (Nat.lt_succ_of_lt hlt), Env.set_of_ne env _ (Nat.ne_of_lt hlt)]
  have harg' : val I env' arg = some (S.str x) := by
    cases arg with
    | var a => exact (hkeep a (hn a rfl)).trans harg
    | _ => exact harg
  have hact : Reaches I env' (select default bylength x.length) env'
      (selectString default cases x) := by
    by_cases hx' : (x.length : ℤ) ∈ gs.map Prod.fst
    · obtain ⟨g, hgm, hgx⟩ := List.mem_map.mp hx'
      obtain ⟨i, hi, rfl⟩ := List.mem_iff_getElem.mp hgm
      have hi' : i < bylength.length := hall.length_eq ▸ hi
      obtain ⟨hc, htests⟩ := hall.get hi hi'
      have hsel : select default bylength x.length = bylength[i].2 := by
        refine select_eq_of_mem (hlabels ▸ hg.nodup) ?_
        rw [← hgx, show (gs[i]).1 = (bylength[i]).1 from hc.symm]
        exact List.getElem_mem hi'
      rw [hsel, ← selectString_groups hg hmem hnd hgm hgx.symm]
      exact htests env' x harg' hgx.symm
    · have hnot : x ∉ cases.map Prod.fst := by
        intro h
        obtain ⟨c, hc, rfl⟩ := List.mem_map.mp h
        obtain ⟨g, hgm, hcg⟩ := (hmem c).mpr hc
        exact hx' (List.mem_map.mpr ⟨g, hgm, (hg.sized g hgm c hcg).symm⟩)
      rw [select_of_not_mem (hlabels ▸ hx'), selectString_of_not_mem hnot]
      exact .refl _ _
  refine ⟨.pure .length [arg] n₁ tagNumTy e, n₂, env', ?_, ?_, hkeep⟩
  · rw [stringSwitch, bind_run (mapM_un_str cases n), LambdaVar.lift_bind hgs, bind_run hby]
    have hmkv : mkv n₁ = .ok (n₁, n₁ + 1) := rfl
    exact (bind_run hmkv).trans ((bind_run he).trans rfl)
  · have hvals : vals I env [arg] = some [S.str x] := by
      simp [vals, harg]
    exact Reaches.pure rfl hvals (S.length x hx) (hr.trans hact)

end StringSelects

/-! ### The switches are right -/

/-- **The switches on boxed numbers and on strings.**  For distinct labels the switch is built, and
its execution gets to the action of the case whose label the argument is, or to the default; only
variables from the supply change on the way.  Every number of a boxed type is an argument and a
label, and so is every string; a switch on strings has a case. -/
theorem boxed_and_string_correct :
    (∀ {D W : Type} {I : Interp D W} (N : Numbers I) (env : Env D) (arg : Value) (default : Cexp)
        (n : Lvar) (isSigned : Bool) (sz : ℕ) (cases : List (ℤ × Cexp)) (v : ℤ),
      Target.defaultIntSz < sz → sz ≤ Target.mlValueSz → (labels cases).Nodup →
      (∀ c ∈ cases, BoxedHolds isSigned sz c.1) → BoxedHolds isSigned sz v →
      val I env arg = some (N.num (.ofInt sz v)) →
      ∃ e n' env', boxedNumSwitch arg (.numt ⟨sz, false⟩) (boxedKind isSigned sz) cases default n =
          .ok (e, n') ∧
        Reaches I env e env' (select default cases v) ∧ (∀ x < n, env' x = env x) ∧
        ∀ store w, exec I store env w e = exec I store env' w (select default cases v)) ∧
    ∀ {D W : Type} {I : Interp D W} {word : ℕ → D} (_ : TaggedWords I word) (S : Strings I word)
        (env : Env D) (arg : Value) (default : Cexp) (n : Lvar) (cases : List (SmlString × Cexp))
        (x : SmlString), (∀ a, arg = .var a → a < n) → cases ≠ [] →
      (cases.map Prod.fst).Nodup → (∀ c ∈ cases, c.1.length < 2 ^ 63) → x.length < 2 ^ 63 →
      val I env arg = some (S.str x) →
      ∃ e n' env', stringSwitch arg default (cases.map fun c => (.stringcon c.1, c.2)) n =
          .ok (e, n') ∧
        Reaches I env e env' (selectString default cases x) ∧ (∀ y < n, env' y = env y) ∧
        ∀ store w, exec I store env w e =
          exec I store env' w (selectString default cases x) := by
  constructor
  · intro D W I N env arg default n isSigned sz cases v hbox hsz hnd hlab hv harg
    obtain ⟨e, n', env', he, _, hr, hout⟩ :=
      @boxedNumSwitch_selects D W I N isSigned sz hbox hsz env arg default v hv harg cases hnd hlab n
    exact ⟨e, n', env', he, hr, hout, hr.exec_eq⟩
  · intro D W I word hI S env arg default n cases x hn hne hnd hlab hx harg
    obtain ⟨e, n', env', he, hr, hout⟩ := stringSwitch_reaches S hI hne hnd hlab hx harg hn
    exact ⟨e, n', env', he, hr, hout, hr.exec_eq⟩

/-- **A switch on strings without a case raises `Empty`**; the caller yields the default itself. -/
theorem stringSwitch_empty :
    stringSwitch (.var 0) (.app (.var 1) []) [] 2 = .error .empty ∧
      ¬ ∀ (arg : Value) (default : Cexp) (n : Lvar) (cases : List (SmlString × Cexp)),
        (cases.map Prod.fst).Nodup → ∃ e n',
          stringSwitch arg default (cases.map fun c => (.stringcon c.1, c.2)) n = .ok (e, n') := by
  have hempty : stringSwitch (.var 0) (.app (.var 1) []) [] 2 = .error .empty := by
    have hsort : sortBySize [] = [] := List.mergeSort_nil
    have hcoalesce : coalesce [] = .error .empty := by
      rw [coalesce, hsort]
    have hcases : ([] : List (Con × Cexp)).mapM un_str 2 = .ok ([], 2) := rfl
    rw [stringSwitch, bind_run hcases, hcoalesce]
    rfl
  refine ⟨hempty, fun h => ?_⟩
  obtain ⟨e, n', he⟩ := h (.var 0) (.app (.var 1) []) 2 [] List.nodup_nil
  rw [List.map_nil, hempty] at he
  cases he

/-- Values of the example: tagged words and strings. -/
inductive SwitchVal
  | word (p : ℕ) | str (s : SmlString)
  deriving DecidableEq

/-- An interpretation with tagged words and strings. -/
def switchInterp : Interp SwitchVal Unit where
  fn := .word
  unfn _ := none
  lit
    | .num n => .word (bits n.ival)
    | .enum i => .word (bits i)
    | .string s => .str s
    | _ => .word 0
  path _ d := some d
  record _ _ := none
  select _ _ := none
  offset _ _ := none
  switch
    | .word p => some p
    | .str _ => none
  branch
    | .cmp .eql _, [.word a, .word b] => some (decide (a = b))
    | .cmp .lt (.int _), [.word a, .word b] =>
      some (decide (TwosComplement.signed 63 a < TwosComplement.signed 63 b))
    | .cmp .lt _, [.word a, .word b] => some (decide (a < b))
    | .streql s, [.str x] => some (decide (x = s))
    | _, _ => none
  arith _ _ := none
  pure
    | .cast, [a] => some a
    | .pureArith .sub _, [.word a, .word b] => some (.word ((a + (2 ^ 63 - b)) % 2 ^ 63))
    | .length, [.str s] => some (.word s.length)
    | _, _ => none
  alloc _ _ _ := none
  setter _ _ _ := none
  looker _ _ _ := none
  overflow _ := none
  rcc _ _ _ _ _ := none

theorem switchInterp_taggedWords : TaggedWords switchInterp .word where
  num := fun _ => rfl
  enum := fun _ => rfl
  eql := fun _ _ _ _ _ => rfl
  lt_signed := fun _ _ _ _ => rfl
  lt_unsigned := by
    intro kind hkind a b _ _
    rcases List.mem_cons.1 hkind with rfl | hkind
    · rfl
    · rw [List.mem_singleton] at hkind
      subst hkind
      rfl
  sub := fun _ _ _ _ _ _ => rfl
  cast := fun _ _ => rfl
  switch := fun _ _ => rfl

def switchInterpStrings : Strings switchInterp .word where
  str := .str
  length _ _ := rfl
  streql _ _ _ _ := rfl

/-- Six 64-bit words, and three strings, two of which have the same length. -/
theorem boxed_and_string_correct_samples :
    (∃ e n' env', boxedNumSwitch (.var 0) (.numt ⟨64, false⟩) (.uint 64)
          ([9, 2 ^ 63, 4, 0, 7, 5].map fun i => (i, .app (.label 7) [.num ⟨i, ⟨64, false⟩⟩]))
          (.app (.label 8) []) 9 = .ok (e, n') ∧
        Reaches numInterp (Env.set (fun _ => none) 0 (.num (.ofInt 64 (2 ^ 63)))) e env'
          (.app (.label 7) [.num ⟨2 ^ 63, ⟨64, false⟩⟩])) ∧
    ∃ e n' env', stringSwitch (.var 0) (.app (.label 8) [])
          [(.stringcon [97, 98], .app (.label 1) []), (.stringcon [97], .app (.label 2) []),
            (.stringcon [97, 99], .app (.label 3) [])] 9 = .ok (e, n') ∧
        Reaches switchInterp (Env.set (fun _ => none) 0 (.str [97, 98])) e env'
          (.app (.label 1) []) := by
  constructor
  · obtain ⟨e, n', env', he, hr, -⟩ := boxed_and_string_correct.1 numInterpNumbers
      (Env.set (fun _ => none) 0 (.num (.ofInt 64 (2 ^ 63)))) (.var 0) (.app (.label 8) []) 9 false
      64 ([9, 2 ^ 63, 4, 0, 7, 5].map fun i => (i, .app (.label 7) [.num ⟨i, ⟨64, false⟩⟩])) (2 ^ 63)
      (by decide) (by decide) (by decide) (by
        intro c hc
        obtain ⟨i, hi, rfl⟩ := List.mem_map.mp hc
        fin_cases hi <;> exact ⟨by decide, by decide⟩)
      ⟨by decide, by decide⟩ rfl
    exact ⟨e, n', env', he, hr⟩
  · obtain ⟨e, n', env', he, hr, -⟩ := boxed_and_string_correct.2 switchInterp_taggedWords
      switchInterpStrings (Env.set (fun _ => none) 0 (.str [97, 98])) (.var 0) (.app (.label 8) [])
      9 [([97, 98], .app (.label 1) []), ([97], .app (.label 2) []),
        ([97, 99], .app (.label 3) [])] [97, 98] (by rintro _ ⟨⟩; decide) (by simp) (by decide)
      (by decide) (by decide) rfl
    exact ⟨e, n', env', he, hr⟩

end SmlNj.CPS.Switch
