import SmlNj.Elaborator.MatchComp.MatchCorrect

/-!
# Every leaf of a decision tree is reached

The values at the choices in the queue may be chosen at will, each of its type,
as long as every type has a value.  So whatever a decision asks for can be had, and
every leaf of a decision tree is the outcome for some value.

## Main definitions

* `HasLeaf` — the leaves of a decision tree.
* `Realizable` — values for the choices in the queue can be chosen at will.

## Main results

* `leaf_reached` — every leaf is reached.
* `hasLeaf_of_eval` — what a tree does with a value is one of its leaves.
-/

namespace SmlNj.MatchComp

open ExceptList

mutual

def HasLeaf (o : Outcome) : Dectree → Prop
  | .switch _ _ cases defaultOp _ => HasLeafCases o cases ∨ HasLeafDefault o defaultOp
  | .rhs rule => o = .rhs rule
  | .fail => o = .fail

def HasLeafDefault (o : Outcome) : Option Dectree → Prop
  | none => False
  | some dt => HasLeaf o dt

def HasLeafCases (o : Outcome) : List (Con × Dectree) → Prop
  | [] => False
  | (_, dt) :: cases => HasLeaf o dt ∨ HasLeafCases o cases

end

attribute [simp] HasLeaf HasLeafDefault HasLeafCases

mutual

theorem hasLeaf_of_eval {v : Value} {o : Outcome} : ∀ {dt : Dectree}, evalTree v dt = some o →
    HasLeaf o dt
  | .switch path sign cases defaultOp live, h => by
    rw [evalTree] at h
    split at h
    · cases h
    · exact (hasLeafCases_of_eval h).imp id fun h => hasLeafDefault_of_eval h
  | .rhs rule, h => by simpa [eq_comm] using h
  | .fail, h => by simpa [eq_comm] using h

theorem hasLeafDefault_of_eval {v : Value} {o : Outcome} : ∀ {dt : Option Dectree},
    evalDefault v dt = some o → HasLeafDefault o dt
  | none, h => by cases h
  | some _, h => hasLeaf_of_eval h

theorem hasLeafCases_of_eval {v u : Value} {o : Outcome} {default : Option Outcome} :
    ∀ {cases : List (Con × Dectree)}, evalCases v u default cases = some o →
      HasLeafCases o cases ∨ default = some o
  | [], h => .inr h
  | (con, dt) :: cases, h => by
    rw [evalCases] at h
    split at h
    · exact .inl (.inl (hasLeaf_of_eval h))
    · exact (hasLeafCases_of_eval h).imp .inr id

end

theorem hasLeafCases_map {o : Outcome} {f : Variant → Dectree} {cases : List Variant} :
    HasLeafCases o (cases.map fun c => (c.1, f c)) ↔ ∃ c ∈ cases, HasLeaf o (f c) := by
  induction cases with
  | nil => simp
  | cons c cases ih => simp [ih]

/-! ### Values at will -/

section Realizable

theorem exists_perm_map {α β : Type*} {f : α → β} {m m' : List β} (h : m.Perm m') :
    ∀ l : List α, l.map f = m → ∃ l', l.Perm l' ∧ l'.map f = m' := by
  induction h with
  | nil => exact fun l hl => ⟨l, .refl _, hl⟩
  | cons b _ ih =>
    intro l hl
    obtain ⟨a, k, rfl, rfl, hk⟩ := List.map_eq_cons_iff.mp hl
    obtain ⟨k', hp, hk'⟩ := ih k hk
    exact ⟨a :: k', hp.cons a, by rw [List.map_cons, hk']⟩
  | swap b b' m =>
    intro l hl
    obtain ⟨a, k, rfl, rfl, hk⟩ := List.map_eq_cons_iff.mp hl
    obtain ⟨a', k', rfl, rfl, hk'⟩ := List.map_eq_cons_iff.mp hk
    exact ⟨a' :: a :: k', .swap _ _ _, by rw [List.map_cons, List.map_cons, hk']⟩
  | trans _ _ ih₁ ih₂ =>
    intro l hl
    obtain ⟨l₁, hp₁, hl₁⟩ := ih₁ l hl
    obtain ⟨l₂, hp₂, hl₂⟩ := ih₂ l₁ hl₁
    exact ⟨l₂, hp₁.trans hp₂, hl₂⟩

variable {T : Type} (E : TypeEnv T)

abbrev TypedNodes (T : Type) := List (OrNode Andor × T)

def Choice (QT : TypedNodes T) (W : List ((OrNode Andor × T) × Value)) : Prop :=
  W.map Prod.fst = QT ∧ ∀ w ∈ W, HasTy E Set.univ w.2 w.1.2

def Has (v : Value) (W : List ((OrNode Andor × T) × Value)) : Prop :=
  ∀ w ∈ W, valAt v w.1.1.path = some w.2

/-- **Values at the choices can be chosen at will** among the values that satisfy `P`. -/
def Realizable (QT : TypedNodes T) (P : Value → Prop) : Prop :=
  ∀ W, Choice E QT W → ∃ v, P v ∧ Has v W

variable {E}

theorem Realizable.perm {QT QT' : TypedNodes T} {P : Value → Prop} (h : Realizable E QT P)
    (hp : QT.Perm QT') : Realizable E QT' P := by
  rintro W' ⟨hW', hty⟩
  obtain ⟨W, hperm, hW⟩ := exists_perm_map hp.symm W' hW'
  obtain ⟨v, hv, hhas⟩ := h W ⟨hW, fun w hw => hty w (hperm.mem_iff.mpr hw)⟩
  exact ⟨v, hv, fun w hw => hhas w (hperm.mem_iff.mp hw)⟩

theorem Choice.append {QT QT' : TypedNodes T} {W : List ((OrNode Andor × T) × Value)}
    (h : Choice E (QT ++ QT') W) : ∃ W₁ W₂, W = W₁ ++ W₂ ∧ Choice E QT W₁ ∧ Choice E QT' W₂ := by
  obtain ⟨hW, hty⟩ := h
  obtain ⟨W₁, W₂, rfl, h₁, h₂⟩ := List.map_eq_append_iff.mp hW
  exact ⟨W₁, W₂, rfl, ⟨h₁, fun w hw => hty w (List.mem_append_left _ hw)⟩,
    ⟨h₂, fun w hw => hty w (List.mem_append_right _ hw)⟩⟩

theorem exists_choice (hinh : ∀ t, ∃ v, HasTy E Set.univ v t) (QT : TypedNodes T) :
    ∃ W, Choice E QT W := by
  induction QT with
  | nil => exact ⟨[], rfl, by simp⟩
  | cons q QT ih =>
    obtain ⟨W, hW, hty⟩ := ih
    obtain ⟨v, hv⟩ := hinh q.2
    exact ⟨(q, v) :: W, by rw [List.map_cons, hW], List.forall_mem_cons.mpr ⟨hv, hty⟩⟩

theorem allHaveTy_of_replicate {vs : List Value} {n : ℕ} {t : T}
    (h : HasTys E Set.univ vs (List.replicate n t)) : AllHaveTy E Set.univ vs t := by
  induction vs generalizing n with
  | nil => trivial
  | cons v vs ih =>
    cases n with
    | zero => exact h.elim
    | succ n => exact ⟨h.1, ih h.2⟩

theorem allHaveTy_replicate {v : Value} (n : ℕ) {t : T} (h : HasTy E Set.univ v t) :
    AllHaveTy E Set.univ (List.replicate n v) t := by
  induction n with
  | zero => trivial
  | succ n ih => exact ⟨h, ih⟩

/-- The choices below some place of type `t` at a path, with types, such that for every choice of
values there is a value of type `t` that has these wherever it stands at the path. -/
structure Buildable (E : TypeEnv T) (QT : TypedNodes T) (nodes : List (OrNode Andor))
    (build : List ((OrNode Andor × T) × Value) → Prop) : Prop where
  perm : (QT.map Prod.fst).Perm nodes
  typed : ∀ q ∈ QT, Typed E q.1.path (.or q.1) q.2
  build : ∀ W, Choice E QT W → build W

def nodesOf (nodeQ : NodeQueue) : List (OrNode Andor) := nodeQ.map Prod.snd

mutual

theorem build_tree (hinh : ∀ t, ∃ v, HasTy E Set.univ v t) : ∀ {a : Andor} {path : Path} {t : T},
    Typed E path a t → ∃ QT, Buildable E QT (nodesOf (accessible a [])) fun W =>
      ∃ u, HasTy E Set.univ u t ∧ ∀ v, valAt v path = some u → Has v W
  | .and children, path, t, ⟨ts, ht, h⟩ => by
    obtain ⟨QT, hp, htyped, hb⟩ := build_children hinh h
    refine ⟨QT, by rw [accessible]; exact hp, htyped, fun W hW => ?_⟩
    obtain ⟨us, hus, hhas⟩ := hb W hW
    refine ⟨.record us.reverse, ⟨ts, ht, by simpa using HasTys.reverse hus⟩, fun v hv => hhas v ?_⟩
    simpa using children_reverse (valAt_pi hv)
  | .or node, path, t, h => by
    obtain rfl : node.path = path := h.1
    refine ⟨[(node, t)], .refl _, by simpa using h, fun W hW => ?_⟩
    obtain ⟨w, W, rfl, hw, hW'⟩ := List.map_eq_cons_iff.mp hW.1
    obtain rfl := List.map_eq_nil_iff.mp hW'
    have hty := hW.2 w List.mem_cons_self
    rw [hw] at hty
    refine ⟨w.2, hty, fun v hv => ?_⟩
    intro w' hw'
    obtain rfl := List.mem_singleton.mp hw'
    rw [hw]
    exact hv
  | .var, _, t, _ | .wc, _, t, _ => by
    obtain ⟨u, hu⟩ := hinh t
    refine ⟨[], .refl _, by simp, fun W hW => ⟨u, hu, fun v _ => ?_⟩⟩
    rw [List.map_eq_nil_iff.mp hW.1]
    exact fun w hw => absurd hw List.not_mem_nil

theorem build_children (hinh : ∀ t, ∃ v, HasTy E Set.univ v t) : ∀ {as : List Andor} {path : Path}
    {link : ℕ → Link} {ts : List T}, TypedAll E path link as ts →
    ∃ QT, Buildable E QT (nodesOf (accessibleList as [])) fun W =>
      ∃ us, HasTys E Set.univ us ts ∧ ∀ v, Children v path link us → Has v W
  | [], path, link, [], _ => by
    refine ⟨[], .refl _, by simp, fun W hW => ⟨[], trivial, fun v _ => ?_⟩⟩
    rw [List.map_eq_nil_iff.mp hW.1]
    exact fun w hw => absurd hw List.not_mem_nil
  | [], _, _, _ :: _, h | _ :: _, _, _, [], h => h.elim
  | a :: as, path, link, t :: ts, h => by
    obtain ⟨QT₁, hp₁, htyped₁, hb₁⟩ := build_tree hinh h.1
    obtain ⟨QT₂, hp₂, htyped₂, hb₂⟩ := build_children hinh h.2
    refine ⟨QT₁ ++ QT₂, ?_, ?_, fun W hW => ?_⟩
    · have hperm := (accessibleList_perm as (accessible a [])).map Prod.snd
      rw [List.map_append] at hperm
      rw [accessibleList, List.map_append]
      exact (List.perm_append_comm.trans (hp₂.append hp₁)).trans hperm.symm
    · exact List.forall_mem_append.mpr ⟨htyped₁, htyped₂⟩
    · obtain ⟨W₁, W₂, rfl, hW₁, hW₂⟩ := hW.append
      obtain ⟨u, hu, hhas₁⟩ := hb₁ W₁ hW₁
      obtain ⟨us, hus, hhas₂⟩ := hb₂ W₂ hW₂
      have hlen : us.length = as.length := by
        rw [h.2.length_eq, (hasTys_iff.mp hus).length_eq]
      refine ⟨u :: us, ⟨hu, hus⟩, fun v hv => List.forall_mem_append.mpr ⟨?_, ?_⟩⟩
      · refine hhas₁ v ?_
        rw [← hlen]
        exact hv 0 u rfl
      · exact hhas₂ v hv.tail

end

/-- Below a case: the value is made by the constant of the case. -/
theorem build_sub (hinh : ∀ t, ∃ v, HasTy E Set.univ v t) {s : Subcase Andor} {path : Path}
    {con : Con} {t : T} (hcon : ConTy E con t) (h : TypedSub E path con s t) :
    ∃ QT, Buildable E QT (nodesOf (accessibleSub s [])) fun W =>
      ∃ u, HasTy E Set.univ u t ∧ conMatches con u ∧ ∀ v, valAt v path = some u → Has v W := by
  cases s with
  | const =>
    obtain ⟨u, hu, hm⟩ : ∃ u, HasTy E Set.univ u t ∧ conMatches con u := by
      unfold ConTy at hcon
      cases ht : E.view t with
      | num nt =>
        rw [ht] at hcon
        obtain ⟨n, rfl⟩ := hcon
        exact ⟨.num n, .inl ⟨nt, ht⟩, by rw [conMatches_numToCon]; simp⟩
      | string =>
        rw [ht] at hcon
        obtain ⟨x, rfl⟩ := hcon
        exact ⟨.string x, ht, by simp⟩
      | char =>
        rw [ht] at hcon
        obtain ⟨n, rfl⟩ := hcon
        exact ⟨.num n, .inr ⟨ht, Set.mem_univ _⟩, by simp⟩
      | record ts => rw [ht] at hcon; exact hcon.elim
      | vector t' =>
        rw [ht] at hcon
        obtain ⟨n, rfl⟩ := hcon
        simp [conArg] at h
      | data sign arg =>
        rw [ht] at hcon
        obtain ⟨d, rfl, -, -⟩ := hcon
        have harg : arg d.rep = some none := by simpa [conArg, ht] using h
        exact ⟨.con d.rep, ⟨sign, arg, ht, harg⟩, by simp⟩
    refine ⟨[], .refl _, by simp, fun W hW => ⟨u, hu, hm, fun v _ => ?_⟩⟩
    rw [List.map_eq_nil_iff.mp hW.1]
    exact fun w hw => absurd hw List.not_mem_nil
  | dcarg a =>
    obtain ⟨t', harg, ha⟩ := h
    obtain ⟨QT, hp, htyped, hb⟩ := build_tree hinh ha
    refine ⟨QT, hp, htyped, fun W hW => ?_⟩
    obtain ⟨w, hw, hhas⟩ := hb W hW
    cases con with
    | data k =>
      obtain ⟨sign, arg, ht, hk⟩ : ∃ sign arg, E.view t = .data sign arg ∧
          arg k.rep = some (some t') := by
        cases ht : E.view t <;> simp [conArg, ht] at harg
        exact ⟨_, _, rfl, harg⟩
      have hm : conMatches (.data k) (.app k.rep w) := by simp
      exact ⟨.app k.rep w, ⟨sign, arg, t', ht, hk, hw⟩, hm, fun v hv => hhas v (valAt_dc hv hm)⟩
    | _ => simp [conArg] at harg
  | velems as =>
    obtain ⟨t', rfl, ht, has⟩ := h
    obtain ⟨QT, hp, htyped, hb⟩ := build_children hinh has
    refine ⟨QT, hp, htyped, fun W hW => ?_⟩
    obtain ⟨us, hus, hhas⟩ := hb W hW
    have hlen : us.length = as.length := by simpa using (hasTys_iff.mp hus).length_eq
    have hall : AllHaveTy E Set.univ us.reverse t' :=
      allHaveTy_of_replicate (by simpa using HasTys.reverse hus)
    refine ⟨.vector us.reverse, ⟨t', ht, hall⟩, by simp [hlen], fun v hv => hhas v ?_⟩
    simpa using children_reverse (valAt_vi hv)

/-! ### A value for the default -/

@[grind =] def numOf : Con → Option ℤ
  | .int n _ | .word n _ => some n
  | _ => none

def stringOf : Con → Option SmlString
  | .string s => some s
  | _ => none

def lengthOf : Con → Option ℕ
  | .vlen n => some n
  | _ => none

theorem exists_fresh {α : Type} {S : Set α} (hS : S.Infinite) (f : Con → Option α)
    (cons : List Con) : ∃ a ∈ S, ∀ c ∈ cons, f c ≠ some a := by
  classical
  obtain ⟨a, ha, hnot⟩ := hS.exists_notMem_finset (cons.filterMap f).toFinset
  refine ⟨a, ha, fun c hc hfc => hnot ?_⟩
  exact List.mem_toFinset.mpr (List.mem_filterMap.mpr ⟨c, hc, hfc⟩)

theorem conMatches_num {c : Con} {n : ℤ} (h : conMatches c (.num n)) : numOf c = some n := by
  cases c <;> simp_all [numOf]

theorem conMatches_string {c : Con} {x : SmlString} (h : conMatches c (.string x)) :
    stringOf c = some x := by
  cases c <;> simp_all [stringOf]

theorem conMatches_vector {c : Con} {vs : List Value} (h : conMatches c (.vector vs)) :
    lengthOf c = some vs.length := by
  cases c <;> simp_all [lengthOf]

theorem conMatches_con {c : Con} {rep : Conrep} (h : conMatches c (.con rep)) :
    repOf c = some rep := by
  cases c <;> simp_all [repOf]

theorem conMatches_app {c : Con} {rep : Conrep} {w : Value} (h : conMatches c (.app rep w)) :
    repOf c = some rep := by
  cases c <;> simp_all [repOf]

/-- Every type has a value, and there are infinitely many exceptions. -/
structure Inhabited (E : TypeEnv T) : Prop where
  value : ∀ t, ∃ v, HasTy E Set.univ v t
  exceptions : ∀ t arg, E.view t = .data .cnil arg → {rep | (arg rep).isSome}.Infinite

theorem exists_data (hE : Inhabited E) {t : T} {sign : Consig} {arg : Conrep → Option (Option T)}
    (ht : E.view t = .data sign arg) {rep : Conrep} (hrep : (arg rep).isSome) {cons : List Con}
    (hfresh : ∀ c ∈ cons, repOf c ≠ some rep) :
    ∃ u, HasTy E Set.univ u t ∧ ∀ c ∈ cons, ¬ conMatches c u := by
  obtain ⟨o, ho⟩ := Option.isSome_iff_exists.mp hrep
  cases o with
  | none =>
    exact ⟨.con rep, ⟨sign, arg, ht, ho⟩, fun c hc hm => hfresh c hc (conMatches_con hm)⟩
  | some t' =>
    obtain ⟨w, hw⟩ := hE.value t'
    exact ⟨.app rep w, ⟨sign, arg, t', ht, ho, hw⟩, fun c hc hm => hfresh c hc (conMatches_app hm)⟩

/-- **A value for the default**, where the cases are not as many as the type has constants. -/
theorem exists_default (hE : Inhabited E) {t : T} {sign : Consig} {cases : List Variant}
    (hsign : (E.view t).sign? = some sign) (hcases : ∀ c ∈ cases, ConTy E c.1 t)
    (hapart : cases.Pairwise Apart) (hwidth : cases.length ≠ signToWidth sign) :
    ∃ u, HasTy E Set.univ u t ∧ ∀ c ∈ cases, ¬ conMatches c.1 u := by
  suffices h : ∃ u, HasTy E Set.univ u t ∧ ∀ c ∈ cases.map Prod.fst, ¬ conMatches c u by
    obtain ⟨u, hu, hm⟩ := h
    exact ⟨u, hu, fun c hc => hm c.1 (List.mem_map_of_mem hc)⟩
  cases ht : E.view t with
  | num nt =>
    obtain ⟨n, -, hn⟩ := exists_fresh Set.infinite_univ numOf (cases.map Prod.fst)
    exact ⟨.num n, .inl ⟨nt, ht⟩, fun c hc hm => hn c hc (conMatches_num hm)⟩
  | char =>
    obtain ⟨n, -, hn⟩ := exists_fresh Set.infinite_univ numOf (cases.map Prod.fst)
    exact ⟨.num n, .inr ⟨ht, Set.mem_univ _⟩, fun c hc hm => hn c hc (conMatches_num hm)⟩
  | string =>
    obtain ⟨x, -, hx⟩ := exists_fresh Set.infinite_univ stringOf (cases.map Prod.fst)
    exact ⟨.string x, ht, fun c hc hm => hx c hc (conMatches_string hm)⟩
  | vector t' =>
    obtain ⟨n, -, hn⟩ := exists_fresh Set.infinite_univ lengthOf (cases.map Prod.fst)
    obtain ⟨w, hw⟩ := hE.value t'
    refine ⟨.vector (List.replicate n w), ⟨t', ht, ?_⟩, fun c hc hm => hn c hc ?_⟩
    · exact allHaveTy_replicate n hw
    · simpa using conMatches_vector hm
  | record ts =>
    rw [ht] at hsign
    cases hsign
  | data sign' arg =>
    obtain rfl : sign' = sign := by simpa [ht, TyView.sign?] using hsign
    cases sign' with
    | cnil =>
      obtain ⟨rep, hrep, hfresh⟩ := exists_fresh (hE.exceptions t arg ht) repOf (cases.map Prod.fst)
      exact exists_data hE ht hrep hfresh
    | csig i j =>
      obtain ⟨reps, hcard, hreps⟩ := E.card_csig ht
      by_contra hnone
      have hall : ∀ rep ∈ reps, ∃ c ∈ cases, repOf c.1 = some rep := by
        intro rep hrep
        by_contra hfresh
        refine hnone (exists_data hE ht ((hreps rep).mp hrep) fun c hc hc' => hfresh ?_)
        obtain ⟨c₀, hc₀, rfl⟩ := List.mem_map.mp hc
        exact ⟨c₀, hc₀, hc'⟩
      -- the constructors are no more than the cases, and the other way round
      obtain ⟨hdata, hnodup⟩ := data_cases ht hcases hapart
      refine hwidth ?_
      rw [signToWidth, ← hcard, ← Finset.card_map ⟨some, Option.some_injective _⟩,
        ← List.length_map fun c : Variant => repOf c.1, ← List.toFinset_card_of_nodup hnodup]
      congr 1
      ext r
      rw [List.mem_toFinset, List.mem_map, Finset.mem_map]
      constructor
      · rintro ⟨c, hc, rfl⟩
        obtain ⟨d, hd, hd'⟩ := hdata c hc
        exact ⟨d.rep, (hreps _).mpr hd', by rw [hd]; rfl⟩
      · rintro ⟨rep, hrep, rfl⟩
        exact hall rep hrep

/-! ### Every leaf -/

theorem Realizable.case {node : OrNode Andor} {t : T} {con : Con} {subT RT : TypedNodes T}
    {P : Value → Prop} (h : Realizable E ((node, t) :: RT) P)
    (hbuild : ∀ W, Choice E subT W → ∃ u, HasTy E Set.univ u t ∧ conMatches con u ∧
      ∀ v, valAt v node.path = some u → Has v W) :
    Realizable E (subT ++ RT) fun v =>
      P v ∧ ∃ u, valAt v node.path = some u ∧ HasTy E Set.univ u t ∧ conMatches con u := by
  intro W hW
  obtain ⟨W₁, W₂, rfl, hW₁, hW₂⟩ := hW.append
  obtain ⟨u, hu, hm, hhas⟩ := hbuild W₁ hW₁
  obtain ⟨v, hv, hvW⟩ := h (((node, t), u) :: W₂)
    ⟨by rw [List.map_cons, hW₂.1], List.forall_mem_cons.mpr ⟨hu, hW₂.2⟩⟩
  obtain ⟨hvu, hvW₂⟩ := List.forall_mem_cons.mp hvW
  exact ⟨v, ⟨hv, u, hvu, hu, hm⟩, List.forall_mem_append.mpr ⟨hhas v hvu, hvW₂⟩⟩

theorem Realizable.default {node : OrNode Andor} {t : T} {RT : TypedNodes T} {P : Value → Prop}
    (h : Realizable E ((node, t) :: RT) P) {u : Value} (hu : HasTy E Set.univ u t) :
    Realizable E RT fun v => P v ∧ valAt v node.path = some u := by
  intro W hW
  obtain ⟨v, hv, hvW⟩ := h (((node, t), u) :: W)
    ⟨by rw [List.map_cons, hW.1], List.forall_mem_cons.mpr ⟨hu, hW.2⟩⟩
  obtain ⟨hvu, hvW⟩ := List.forall_mem_cons.mp hvW
  exact ⟨v, ⟨hv, hvu⟩, hvW⟩

/-- **Every leaf of the tree of a queue is reached**, by a value with a property `P` if the choices
can have any values among the values with this property. -/
theorem leaf_reached (hE : Inhabited E) {s : State} {QT : TypedNodes T} {P : Value → Prop}
    {o : Outcome} (hperm : (QT.map Prod.fst).Perm (nodesOf s.1))
    (htyped : ∀ q ∈ QT, Typed E q.1.path (.or q.1) q.2) (hcov : ∀ q ∈ s.1, Covers s.2 (.or q.2))
    (hreal : Realizable E QT P) (h : HasLeaf o s.tree) : ∃ v, P v ∧ evalTree v s.tree = some o := by
  induction hn : sizeQ s.1 using Nat.strong_induction_on generalizing s QT P with
  | _ n ih =>
    obtain ⟨nodeQ, live⟩ := s
    obtain ⟨W₀, hW₀⟩ := exists_choice hE.value QT
    obtain ⟨v₀, hv₀, -⟩ := hreal W₀ hW₀
    rcases live.eq_empty_or_nonempty with rfl | hne
    · rw [State.tree, mkDecTree_empty] at h ⊢
      exact ⟨v₀, hv₀, by rw [evalTree, h]⟩
    cases hb : bestOrNode nodeQ live hne with
    | none =>
      rw [State.tree, mkDecTree_of_none hb] at h ⊢
      exact ⟨v₀, hv₀, by rw [evalTree, h]⟩
    | some best =>
      obtain ⟨node, remainder⟩ := best
      obtain ⟨m, hQ⟩ := bestOrNode_perm hb
      obtain ⟨QT', hQT', hmap⟩ := exists_perm_map (hperm.trans (hQ.map Prod.snd)) QT rfl
      obtain ⟨q, RT, rfl, hq, hRT⟩ := List.map_eq_cons_iff.mp hmap
      obtain ⟨node', t⟩ := q
      obtain rfl : node' = node := hq
      have hreal := hreal.perm hQT'
      obtain ⟨hnode, htypedR⟩ := List.forall_mem_cons.mp fun q hq =>
        htyped q (hQT'.mem_iff.mpr hq)
      obtain ⟨-, hsign, hcases⟩ := hnode
      have hcases := typedCases_iff.mp hcases
      have hcovQ := fun q hq => hcov q (hQ.mem_iff.mpr hq)
      obtain ⟨⟨hlive, hbelow, hapart⟩, hcovR⟩ := List.forall_mem_cons.mp hcovQ
      obtain ⟨stillLive, htree⟩ := mkDecTree_of_best hb
      have hsize := sizeQ_bestOrNode hb
      have hRTperm : (RT.map Prod.fst).Perm (nodesOf remainder) := by rw [hRT]; exact .refl _
      simp only at hn
      rw [State.tree, htree] at h
      rcases h with h | h
      · -- the leaf is below a case
        obtain ⟨c, hc, hleaf⟩ := hasLeafCases_map.mp h
        have hc' := (mem_liveCases.mp hc).1
        obtain ⟨hcon, hsub⟩ := hcases c hc'
        obtain ⟨hdisj, hnest, hcovS⟩ := coversCases_iff.mp hbelow c hc'
        obtain ⟨subT, hsubp, hsubt, hbuild⟩ := build_sub hE.value hcon hsub
        have hlive' : c.2.1 ∩ live ∪ node'.defaults ∩ live ⊆ c.2.1 ∪ node'.defaults :=
          Finset.union_subset_union Finset.inter_subset_left Finset.inter_subset_left
        have hlive'' : c.2.1 ∩ live ∪ node'.defaults ∩ live ⊆ live :=
          Finset.union_subset Finset.inter_subset_right Finset.inter_subset_right
        have hsize' := sizeQ_accessibleSub c.2.2 remainder
        have hlt := sizeSub_lt hc'
        obtain ⟨v, ⟨hv, u, hu, hty, hm⟩, heval⟩ := @ih
          (sizeQ (accessibleSub c.2.2 remainder)) (by omega)
          (accessibleSub c.2.2 remainder, c.2.1 ∩ live ∪ node'.defaults ∩ live) (subT ++ RT) _
          (by
            rw [List.map_append]
            refine (hsubp.append hRTperm).trans ?_
            have := (accessibleSub_perm c.2.2 remainder).map Prod.snd
            rw [List.map_append] at this
            exact this.symm)
          (List.forall_mem_append.mpr ⟨hsubt, htypedR⟩)
          (fun q hq => by
            rcases List.mem_append.mp ((accessibleSub_perm c.2.2 remainder).mem_iff.mp hq) with
              hq | hq
            · exact (coversSub_accessible hcovS q hq).mono hlive'
            · exact (hcovR q hq).mono hlive'')
          (hreal.case hbuild) hleaf rfl
        refine ⟨v, hv, ?_⟩
        rw [State.tree, htree, evalTree, hu]
        refine (evalCases_of_mem hc hm fun c₂ hc₂ hm₂ => ?_).trans heval
        by_contra hne₂
        have heq := (hcon.eqCon_iff (hcases c₂ (mem_liveCases.mp hc₂).1).1 hm).mpr hm₂
        rw [(apart_of_mem hapart (mem_liveCases.mp hc₂).1 hc' hne₂).1] at heq
        cases heq
      · -- the leaf is below the default
        by_cases hwidth : (liveCases node' live).length = signToWidth node'.sign
        · rw [if_pos hwidth] at h
          exact h.elim
        rw [if_neg hwidth] at h
        obtain ⟨u, hu, hm⟩ := exists_default hE hsign
          (fun c hc => (hcases c (mem_liveCases.mp hc).1).1) (hapart.filter _) hwidth
        obtain ⟨v, ⟨hv, hvu⟩, heval⟩ := @ih (sizeQ remainder) (by omega)
          (remainder, live ∩ node'.defaults) RT _ hRTperm htypedR
          (fun q hq => (hcovR q hq).mono Finset.inter_subset_left) (hreal.default hu) h rfl
        refine ⟨v, hv, ?_⟩
        rw [State.tree, htree, evalTree, hvu, if_neg hwidth]
        exact (evalCases_of_forall hm).trans heval

/-- **Every leaf of the tree of a match is reached.** -/
theorem makeDectree_leaf (hE : Inhabited E) {andor : Andor} {t : T} {live : Ruleset} {o : Outcome}
    (htyped : Typed E [] andor t) (hcov : Covers live andor)
    (h : HasLeaf o (makeDectree andor live)) :
    ∃ v, HasTy E Set.univ v t ∧ evalTree v (makeDectree andor live) = some o := by
  obtain ⟨QT, hperm, htypedQ, hbuild⟩ := build_tree hE.value htyped
  refine @leaf_reached T E hE (accessible andor [], live) QT _ o hperm htypedQ
    (covers_accessible hcov) (fun W hW => ?_) h
  obtain ⟨u, hu, hhas⟩ := hbuild W hW
  exact ⟨u, hu, hhas u rfl⟩

end Realizable

end SmlNj.MatchComp
