import SmlNj.Elaborator.MatchComp.ProtoAndor

/-!
# What a proto-and-or tree says of its rules

A tree holds of a rule and a value if the constants at which the rule stands in
the tree are those that make the value.  Layering a pattern with a new rule makes
the tree hold of this rule and exactly the values that the pattern accepts, and
changes nothing for the others.

## Main definitions

* `HasRule` — a rule stands at some case of a tree.
* `Holds` — a tree holds of a rule and a value.
* `TreeOk` — a tree for values of a type: its cases have different constants of the type and
  different rules, and the rules below a case are among those of the case.

## Main results

* `merge_spec` — layering a pattern.
* `makeProtoAndor_spec` — the tree of the rules holds of a rule and the values that its pattern
  accepts.
-/

namespace SmlNj.MatchComp

open ExceptList

mutual

def HasRule (r : ℕ) : ProtoAndor → Prop
  | .and _ children => HasRuleAny r children
  | .or _ _ cases => HasRuleCases r cases
  | .var _ | .wc => False

def HasRuleAny (r : ℕ) : List ProtoAndor → Prop
  | [] => False
  | a :: as => HasRule r a ∨ HasRuleAny r as

def HasRuleCases (r : ℕ) : List (Con × Ruleset × Subcase ProtoAndor) → Prop
  | [] => False
  | (_, rules, subcase) :: cases => r ∈ rules ∨ HasRuleSub r subcase ∨ HasRuleCases r cases

def HasRuleSub (r : ℕ) : Subcase ProtoAndor → Prop
  | .const => False
  | .dcarg a => HasRule r a
  | .velems as => HasRuleAny r as

end

attribute [simp] HasRule HasRuleAny HasRuleCases HasRuleSub

mutual

/-- **Does a tree hold of a rule and a value?**  Wherever the rule stands at a case, the value is
made by the constant of the case. -/
@[grind =] def Holds (r : ℕ) : ProtoAndor → Value → Prop
  | .and _ children, .record vs => HoldsAll r children vs
  | .and _ _, _ => True
  | .or _ _ cases, v => HoldsCases r cases v
  | .var _, _ | .wc, _ => True

@[grind =] def HoldsAll (r : ℕ) : List ProtoAndor → List Value → Prop
  | a :: as, v :: vs => Holds r a v ∧ HoldsAll r as vs
  | _, _ => True

def HoldsCases (r : ℕ) : List (Con × Ruleset × Subcase ProtoAndor) → Value → Prop
  | [], _ => True
  | (con, rules, subcase) :: cases, v =>
    (r ∈ rules → conMatches con v ∧ HoldsSub r subcase v) ∧ HoldsCases r cases v

@[grind =] def HoldsSub (r : ℕ) : Subcase ProtoAndor → Value → Prop
  | .dcarg a, .app _ v => Holds r a v
  | .velems as, .vector vs => HoldsAll r as vs
  | _, _ => True

end

attribute [simp] Holds HoldsAll HoldsCases HoldsSub

/-- The signature of a type whose values are told apart by constants. -/
def TyView.sign? {T : Type} : TyView T → Option Consig
  | .data sign _ => some sign
  | .record _ => none
  | _ => some .cnil

variable {T : Type} (E : TypeEnv T) (chars : Set ℤ)

/-- What a constant of a type takes, unless this is a vector. -/
def conArg : Con → T → Option (Option T)
  | .data d, t =>
    match E.view t with
    | .data _ arg => arg d.rep
    | _ => none
  | .vlen _, _ => none
  | _, _ => some none

def Apart {α : Type} (c c' : Con × Ruleset × α) : Prop :=
  eqCon c.1 c'.1 = false ∧ Disjoint c.2.1 c'.2.1

mutual

/-- **A tree for values of a type.** -/
def TreeOk : ProtoAndor → T → Prop
  | .and _ children, t => ∃ ts, E.view t = .record ts ∧ TreesOk children ts
  | .or _ sign cases, t =>
    (E.view t).sign? = some sign ∧ CasesOk cases t ∧ cases.Pairwise Apart
  | .var _, _ | .wc, _ => True

@[grind =] def TreesOk : List ProtoAndor → List T → Prop
  | [], [] => True
  | a :: as, t :: ts => TreeOk a t ∧ TreesOk as ts
  | _, _ => False

def AllTreeOk : List ProtoAndor → T → Prop
  | [], _ => True
  | a :: as, t => TreeOk a t ∧ AllTreeOk as t

/-- Cases with constants of a type, below each of which only rules of the case stand. -/
def CasesOk : List (Con × Ruleset × Subcase ProtoAndor) → T → Prop
  | [], _ => True
  | (con, rules, subcase) :: cases, t =>
    (ConTy E con t ∧ SubcaseOk subcase con t ∧ ∀ r, HasRuleSub r subcase → r ∈ rules) ∧
      CasesOk cases t

def SubcaseOk : Subcase ProtoAndor → Con → T → Prop
  | .const, con, t => conArg E con t = some none
  | .dcarg a, con, t => ∃ t', conArg E con t = some (some t') ∧ TreeOk a t'
  | .velems as, con, t => ∃ t', con = .vlen as.length ∧ E.view t = .vector t' ∧ AllTreeOk as t'

end

attribute [simp] TreeOk TreesOk AllTreeOk CasesOk SubcaseOk

/-! ### Rules that do not stand in a tree -/

mutual

theorem holds_of_not_hasRule {r : ℕ} : ∀ {a : ProtoAndor} (v : Value), ¬ HasRule r a → Holds r a v
  | .and _ children, v, h => by
    cases v with
    | record vs => simpa using holdsAll_of_not_hasRule vs (by simpa using h)
    | _ => simp
  | .or _ _ cases, v, h => by simpa using holdsCases_of_not_hasRule v (by simpa using h)
  | .var _, _, _ | .wc, _, _ => by simp

theorem holdsAll_of_not_hasRule {r : ℕ} : ∀ {as : List ProtoAndor} (vs : List Value),
    ¬ HasRuleAny r as → HoldsAll r as vs
  | [], vs, _ => by cases vs <;> simp
  | a :: as, [], _ => by simp
  | a :: as, v :: vs, h => by
    obtain ⟨ha, has⟩ := by simpa using h
    exact ⟨holds_of_not_hasRule v ha, holdsAll_of_not_hasRule vs has⟩

theorem holdsCases_of_not_hasRule {r : ℕ} :
    ∀ {cases : List (Con × Ruleset × Subcase ProtoAndor)} (v : Value),
      ¬ HasRuleCases r cases → HoldsCases r cases v
  | [], _, _ => by simp
  | (con, rules, subcase) :: cases, v, h => by
    obtain ⟨hr, hsub, hcases⟩ := by simpa using h
    exact ⟨fun hr' => absurd hr' hr, holdsCases_of_not_hasRule v hcases⟩

end

variable {s : Subcase ProtoAndor} {cases : List ProtoVariant} {c c' : Con} {t t' : T} {rule : ℕ}
  {Acc : Value → Prop} {pats : List Pat} {k : Datacon} {a : ProtoAndor} {p : Pat} {sign : Consig}

theorem holdsSub_of_not_hasRule {r : ℕ} (v : Value) (h : ¬ HasRuleSub r s) : HoldsSub r s v := by
  cases s with
  | const => simp
  | dcarg a =>
    cases v with
    | app rep w => exact holds_of_not_hasRule w h
    | _ => simp
  | velems as =>
    cases v with
    | vector vs => exact holdsAll_of_not_hasRule vs h
    | _ => simp

theorem hasRuleCases_of_mem {r : ℕ} {x : ProtoVariant} (hx : x ∈ cases) (hr : r ∈ x.2.1) :
    HasRuleCases r cases := by
  induction cases with
  | nil => cases hx
  | cons y cases ih =>
    rcases List.mem_cons.mp hx with rfl | hx
    · exact .inl hr
    · exact .inr (.inr (ih hx))

@[simp] theorem hasRule_addVarRule (r rule : ℕ) (a : ProtoAndor) :
    HasRule r (addVarRule rule a) ↔ HasRule r a := by
  cases a <;> simp

@[simp] theorem holds_addVarRule (r rule : ℕ) (a : ProtoAndor) (v : Value) :
    Holds r (addVarRule rule a) v ↔ Holds r a v := by
  cases a <;> cases v <;> simp

@[simp] theorem treeOk_addVarRule (rule : ℕ) (a : ProtoAndor) (t : T) :
    TreeOk E (addVarRule rule a) t ↔ TreeOk E a t := by
  cases a <;> simp

/-! ### Equal constants -/

variable {E chars}

theorem conMatches_of_eqCon (h : eqCon c c') (v : Value) : conMatches c v = conMatches c' v := by
  cases c <;> cases c' <;> simp_all [eqCon, eqDatacon] <;> cases v <;> simp_all

theorem eqCon_left (h : eqCon c c') (d : Con) : eqCon d c = eqCon d c' := by
  cases c <;> cases c' <;> simp_all [eqCon, eqDatacon] <;> cases d <;> simp_all

theorem conArg_of_eqCon (h : eqCon c c') (t : T) : conArg E c t = conArg E c' t := by
  cases c <;> cases c' <;> simp_all [eqCon, eqDatacon, conArg]

/-! ### What layering a pattern preserves

Layering turns a tree, trees, or what is below a case into another that is fit for the type, has no
other rules than before but the new one, holds of the new rule and the accepted values, and says of
the other rules what it said before. -/

section Merged

variable (E chars)

/-- A tree, before and after a pattern that accepts `Acc` was layered. -/
structure Merged (t : T) (rule : ℕ) (Acc : Value → Prop) (a a' : ProtoAndor) : Prop where
  ok : TreeOk E a' t
  rules : ∀ r, HasRule r a' → r = rule ∨ HasRule r a
  new : ∀ v, HasTy E chars v t → (Holds rule a' v ↔ Acc v)
  old : ∀ r, r ≠ rule → ∀ v, HasTy E chars v t → (Holds r a' v ↔ Holds r a v)

/-- Trees, before and after. -/
structure MergedAll (ts : List T) (rule : ℕ) (Acc : List Value → Prop)
    (as as' : List ProtoAndor) : Prop where
  ok : TreesOk E as' ts
  rules : ∀ r, HasRuleAny r as' → r = rule ∨ HasRuleAny r as
  new : ∀ vs, HasTys E chars vs ts → (HoldsAll rule as' vs ↔ Acc vs)
  old : ∀ r, r ≠ rule → ∀ vs, HasTys E chars vs ts → (HoldsAll r as' vs ↔ HoldsAll r as vs)

/-- What is below the case of a constant, before and after. -/
structure MergedSub (c : Con) (t : T) (rule : ℕ) (Acc : Value → Prop)
    (s s' : Subcase ProtoAndor) : Prop where
  ok : SubcaseOk E s' c t
  rules : ∀ r, HasRuleSub r s' → r = rule ∨ HasRuleSub r s
  new : ∀ v, HasTy E chars v t → conMatches c v → (HoldsSub rule s' v ↔ Acc v)
  old : ∀ r, r ≠ rule → ∀ v, HasTy E chars v t → conMatches c v →
    (HoldsSub r s' v ↔ HoldsSub r s v)

/-- Cases, before and after. -/
structure MergedCases (c : Con) (t : T) (rule : ℕ) (Acc : Value → Prop)
    (cases cases' : List ProtoVariant) : Prop where
  ok : CasesOk E cases' t
  pairwise : cases'.Pairwise Apart
  rules : ∀ r, HasRuleCases r cases' → r = rule ∨ HasRuleCases r cases
  new : ∀ v, HasTy E chars v t → (HoldsCases rule cases' v ↔ conMatches c v ∧ Acc v)
  old : ∀ r, r ≠ rule → ∀ v, HasTy E chars v t → (HoldsCases r cases' v ↔ HoldsCases r cases v)
  apart : ∀ x : ProtoVariant, eqCon x.1 c = false → rule ∉ x.2.1 →
    (∀ y ∈ cases, Apart x y) → ∀ y ∈ cases', Apart x y

variable {E chars}

theorem mergedCases_nil (hc : ConTy E c t) (hm : MergedSub E chars c t rule Acc .const s) :
    MergedCases E chars c t rule Acc [] [(c, {rule}, s)] := by
  refine ⟨?_, by simp, ?_, ?_, ?_, ?_⟩
  · simpa [hc, hm.ok] using hm.rules
  · intro r hr
    rcases hr with hr | hr | hr
    · exact .inl (Finset.mem_singleton.mp hr)
    · exact (hm.rules r hr).imp id fun h => h.elim
    · exact hr.elim
  · intro v hv
    have := hm.new v hv
    simp only [HoldsCases, Finset.mem_singleton, forall_const, and_true]
    exact and_congr_right fun hcv => this hcv
  · intro r hr v _
    simp [hr]
  · intro x hx hrule _ y hy
    obtain rfl : y = _ := by simpa using hy
    exact ⟨hx, by simpa using hrule⟩

/-- **Adding a rule to the cases**, given what happens below a new and below an existing case. -/
theorem addACase_spec {gen : Except Exn (List ProtoAndor)}
    {merge : List ProtoAndor → Except Exn (List ProtoAndor)} (hc : ConTy E c t)
    (hnew : ∃ s, newSubcase c pats gen = .ok s ∧ MergedSub E chars c t rule Acc .const s)
    (hmerge : ∀ s, SubcaseOk E s c t → ¬ HasRuleSub rule s →
      ∃ s', mergeSubcase pats merge s = .ok s' ∧ MergedSub E chars c t rule Acc s s') :
    ∀ cases : List ProtoVariant, CasesOk E cases t → cases.Pairwise Apart →
      ¬ HasRuleCases rule cases → ∃ cases', addACase c pats gen merge rule cases = .ok cases' ∧
        MergedCases E chars c t rule Acc cases cases' := by
  intro cases
  induction cases with
  | nil =>
    intro _ _ _
    obtain ⟨s, hs, hm⟩ := hnew
    exact ⟨[(c, {rule}, s)], by rw [addACase, hs]; rfl, mergedCases_nil hc hm⟩
  | cons hd rest ih =>
    obtain ⟨c', rules, s⟩ := hd
    intro hok hpw hfresh
    obtain ⟨⟨hc', hsub, hnest⟩, hrest⟩ := by simpa using hok
    obtain ⟨hapart, hpw⟩ := List.pairwise_cons.mp hpw
    obtain ⟨hrule, hfs, hfrest⟩ := by simpa using hfresh
    rw [addACase]
    by_cases heq : eqCon c c'
    · -- the case exists: the rule joins it
      have hsub' : SubcaseOk E s c t := by
        cases s with
        | const => simpa [conArg_of_eqCon heq] using hsub
        | dcarg a => simpa [conArg_of_eqCon heq] using hsub
        | velems as =>
          cases c <;> simp_all [eqCon]
      obtain ⟨s', hs', hm⟩ := hmerge s hsub' hfs
      refine ⟨(c, insert rule rules, s') :: rest, by rw [if_pos heq, hs']; rfl, ?_, ?_, ?_, ?_, ?_,
        ?_⟩
      · refine ⟨⟨hc, hm.ok, fun r hr => ?_⟩, hrest⟩
        exact Finset.mem_insert.mpr ((hm.rules r hr).imp id (hnest r))
      · refine List.pairwise_cons.mpr ⟨fun y hy => ?_, hpw⟩
        obtain ⟨hne, hdisj⟩ := hapart y hy
        refine ⟨?_, Finset.disjoint_insert_left.mpr ⟨fun hmem => ?_, hdisj⟩⟩
        · rw [eqCon_comm, eqCon_left heq, eqCon_comm]
          exact hne
        · exact hfrest (hasRuleCases_of_mem hy hmem)
      · intro r hr
        simp only [HasRuleCases, Finset.mem_insert] at hr ⊢
        rcases hr with (rfl | hr) | hr | hr
        · exact .inl rfl
        · exact .inr (.inl hr)
        · exact (hm.rules r hr).imp id fun h => .inr (.inl h)
        · exact .inr (.inr (.inr hr))
      · intro v hv
        have := hm.new v hv
        simp only [HoldsCases, Finset.mem_insert_self, forall_const,
          holdsCases_of_not_hasRule v hfrest, and_true]
        exact and_congr_right fun hcv => this hcv
      · intro r hr v hv
        have := hm.old r hr v hv
        simp only [HoldsCases, Finset.mem_insert, hr, false_or, ← conMatches_of_eqCon heq]
        refine and_congr_left fun _ => imp_congr_right fun _ => and_congr_right fun hcv => this hcv
      · intro x hx hrx hall y hy
        rcases List.mem_cons.mp hy with rfl | hy
        · refine ⟨hx, ?_⟩
          have := (hall _ List.mem_cons_self).2
          exact Finset.disjoint_insert_right.mpr ⟨hrx, this⟩
        · exact hall y (List.mem_cons_of_mem _ hy)
    · -- the rule goes to a later case
      obtain ⟨cases', hcases', hm⟩ := ih hrest hpw hfrest
      have hne : eqCon c' c = false := by
        rw [eqCon_comm]
        simpa using heq
      refine ⟨(c', rules, s) :: cases', by rw [if_neg heq, hcases']; rfl, ?_, ?_, ?_, ?_, ?_, ?_⟩
      · exact ⟨⟨hc', hsub, hnest⟩, hm.ok⟩
      · exact List.pairwise_cons.mpr ⟨hm.apart _ hne hrule hapart, hm.pairwise⟩
      · intro r hr
        rcases hr with hr | hr | hr
        · exact .inr (.inl hr)
        · exact .inr (.inr (.inl hr))
        · exact (hm.rules r hr).imp id fun h => .inr (.inr h)
      · intro v hv
        have := hm.new v hv
        simpa [hrule] using this
      · intro r hr v hv
        have := hm.old r hr v hv
        simp [this]
      · intro x hx hrx hall y hy
        rcases List.mem_cons.mp hy with rfl | hy
        · exact hall _ List.mem_cons_self
        · exact hm.apart x hx hrx (fun y hy => hall y (List.mem_cons_of_mem _ hy)) y hy

end Merged

/-! ### What is below a case -/

section Subcases

theorem mergedSub_const (rule : ℕ) (h : conArg E c t = some none) :
    MergedSub E chars c t rule (fun _ => True) .const .const :=
  ⟨h, by simp, by simp, by simp⟩

theorem addConst_spec (hc : ConTy E c t) (harg : conArg E c t = some none) (hok : CasesOk E cases t)
    (hpw : cases.Pairwise Apart) (hfresh : ¬ HasRuleCases rule cases) :
    ∃ cases', addACase c [] (.ok []) mergeNone rule cases = .ok cases' ∧
      MergedCases E chars c t rule (fun _ => True) cases cases' := by
  refine addACase_spec hc ⟨.const, ?_, mergedSub_const rule harg⟩ (fun s hs _ => ?_) cases hok hpw
    hfresh
  · cases c <;> first | rfl | simp [conArg] at harg
  · cases s with
    | const => exact ⟨.const, rfl, mergedSub_const rule harg⟩
    | dcarg a =>
      obtain ⟨t', ht', -⟩ := hs
      rw [harg] at ht'
      cases ht'
    | velems as =>
      obtain ⟨t', rfl, -, -⟩ := hs
      simp [conArg] at harg

theorem exists_app (harg : conArg E (.data k) t = some (some t')) {v : Value}
    (hv : HasTy E chars v t) (hm : conMatches (.data k) v) :
    ∃ w, v = .app k.rep w ∧ HasTy E chars w t' := by
  cases v with
  | con rep =>
    obtain ⟨sign, arg, ht, h⟩ := hv
    obtain rfl : k.rep = rep := by simpa using hm
    simp [conArg, ht, h] at harg
  | app rep w =>
    obtain ⟨sign, arg, t'', ht, h, hw⟩ := hv
    obtain rfl : k.rep = rep := by simpa using hm
    obtain rfl : t'' = t' := by simpa [conArg, ht, h] using harg
    exact ⟨w, rfl, hw⟩
  | _ => simp at hm

theorem mergedSub_dcarg {a' : ProtoAndor} (harg : conArg E (.data k) t = some (some t'))
    (h : Merged E chars t' rule Acc a a') :
    MergedSub E chars (.data k) t rule (fun v => ∃ w, v = .app k.rep w ∧ Acc w)
      (.dcarg a) (.dcarg a') := by
  refine ⟨⟨t', harg, h.ok⟩, h.rules, fun v hv hm => ?_, fun r hr v hv hm => ?_⟩
  · obtain ⟨w, rfl, hw⟩ := exists_app harg hv hm
    simpa using h.new w hw
  · obtain ⟨w, rfl, hw⟩ := exists_app harg hv hm
    exact h.old r hr w hw

theorem MergedSub.from_const {s' : Subcase ProtoAndor} (h : MergedSub E chars c t rule Acc s s')
    (hs : ∀ r, ¬ HasRuleSub r s) : MergedSub E chars c t rule Acc .const s' :=
  ⟨h.ok, fun r hr => .inl ((h.rules r hr).resolve_right (hs r)), h.new, fun r hr v hv hm => by
    simpa using (h.old r hr v hv hm).mpr (holdsSub_of_not_hasRule v (hs r))⟩

theorem addDcarg_spec {merge : ProtoAndor → Except Exn ProtoAndor} {gen : Except Exn ProtoAndor}
    (hc : ConTy E (.data k) t) (harg : conArg E (.data k) t = some (some t'))
    (hgen : ∃ a, gen = .ok a ∧ Merged E chars t' rule Acc .wc a)
    (hmerge : ∀ a, TreeOk E a t' → ¬ HasRule rule a →
      ∃ a', merge a = .ok a' ∧ Merged E chars t' rule Acc a a') (hok : CasesOk E cases t)
    (hpw : cases.Pairwise Apart) (hfresh : ¬ HasRuleCases rule cases) :
    ∃ cases', addACase (.data k) [p] (do return [← gen]) (mergeOne merge) rule cases = .ok cases' ∧
      MergedCases E chars (.data k) t rule (fun v => ∃ w, v = .app k.rep w ∧ Acc w)
        cases cases' := by
  refine addACase_spec hc ?_ (fun s hs hfs => ?_) cases hok hpw hfresh
  · obtain ⟨a, ha, h⟩ := hgen
    exact ⟨.dcarg a, by rw [ha]; rfl, (mergedSub_dcarg harg h).from_const (by simp)⟩
  · cases s with
    | const => rw [SubcaseOk, harg] at hs; cases hs
    | dcarg a =>
      obtain ⟨t'', ht'', ha⟩ := hs
      obtain rfl : t' = t'' := by simpa [harg] using ht''
      obtain ⟨a', ha', h⟩ := hmerge a ha hfs
      exact ⟨.dcarg a', by simp only [mergeSubcase, mergeOne, ha']; rfl, mergedSub_dcarg harg h⟩
    | velems as => obtain ⟨t'', hk, -, -⟩ := hs; cases hk

theorem treesOk_replicate {as : List ProtoAndor} :
    TreesOk E as (List.replicate as.length t) ↔ AllTreeOk E as t := by
  induction as with
  | nil => simp
  | cons a as ih => simp [List.replicate_succ, ih]

theorem TreesOk.length_eq : ∀ {as : List ProtoAndor} {ts : List T}, TreesOk E as ts →
    as.length = ts.length
  | [], [], _ => rfl
  | [], _ :: _, h | _ :: _, [], h => by simp at h
  | a :: as, t :: ts, h => by rw [List.length_cons, TreesOk.length_eq h.2, List.length_cons]

theorem hasTys_replicate {vs : List Value} (h : AllHaveTy E chars vs t) :
    HasTys E chars vs (List.replicate vs.length t) := by
  induction vs with
  | nil => simp
  | cons v vs ih => exact ⟨h.1, ih h.2⟩

theorem patTys_replicate {ps : List Pat} (h : AllPatTy E ps t) :
    PatTys E ps (List.replicate ps.length t) := by
  induction ps with
  | nil => simp
  | cons p ps ih => exact ⟨h.1, ih h.2⟩

theorem exists_vector {n : ℕ} (ht : E.view t = .vector t') {v : Value} (hv : HasTy E chars v t)
    (hm : conMatches (.vlen n) v) :
    ∃ vs, v = .vector vs ∧ HasTys E chars vs (List.replicate n t') := by
  cases v with
  | vector vs =>
    obtain ⟨t'', ht'', h⟩ := hv
    obtain rfl : t' = t'' := by simpa [ht] using ht''
    obtain rfl : n = vs.length := by simpa using hm
    exact ⟨vs, rfl, hasTys_replicate h⟩
  | _ => simp at hm

theorem mergedSub_velems {n : ℕ} {Acc : List Value → Prop} {as as' : List ProtoAndor}
    (ht : E.view t = .vector t') (h : MergedAll E chars (List.replicate n t') rule Acc as as') :
    MergedSub E chars (.vlen n) t rule (fun v => ∃ vs, v = .vector vs ∧ Acc vs)
      (.velems as) (.velems as') := by
  have hlen : as'.length = n := by simpa using h.ok.length_eq
  refine ⟨⟨t', by rw [hlen], ht, treesOk_replicate.mp (by rw [hlen]; exact h.ok)⟩, h.rules,
    fun v hv hm => ?_, fun r hr v hv hm => ?_⟩
  · obtain ⟨vs, rfl, hvs⟩ := exists_vector ht hv hm
    simpa using h.new vs hvs
  · obtain ⟨vs, rfl, hvs⟩ := exists_vector ht hv hm
    exact h.old r hr vs hvs

theorem addVelems_spec {Acc : List Value → Prop}
    {merge : List ProtoAndor → Except Exn (List ProtoAndor)} {gen : Except Exn (List ProtoAndor)}
    (ht : E.view t = .vector t') (hgen : ∃ as as₀, gen = .ok as ∧ (∀ r, ¬ HasRuleAny r as₀) ∧
      MergedAll E chars (List.replicate pats.length t') rule Acc as₀ as)
    (hmerge : ∀ as, TreesOk E as (List.replicate pats.length t') → ¬ HasRuleAny rule as →
      ∃ as', merge as = .ok as' ∧
        MergedAll E chars (List.replicate pats.length t') rule Acc as as') (hok : CasesOk E cases t)
    (hpw : cases.Pairwise Apart) (hfresh : ¬ HasRuleCases rule cases) :
    ∃ cases', addACase (.vlen pats.length) pats gen merge rule cases = .ok cases' ∧
      MergedCases E chars (.vlen pats.length) t rule (fun v => ∃ vs, v = .vector vs ∧ Acc vs)
        cases cases' := by
  have hc : ConTy E (.vlen pats.length) t := by
    rw [ConTy, ht]
    exact ⟨_, rfl⟩
  refine addACase_spec hc ?_ (fun s hs hfs => ?_) cases hok hpw hfresh
  · obtain ⟨as, as₀, has, hnone, h⟩ := hgen
    exact ⟨.velems as, by simp only [has]; rfl,
      (mergedSub_velems ht h).from_const (by simpa using hnone)⟩
  · cases s with
    | const => simp [conArg] at hs
    | dcarg a => simp [conArg] at hs
    | velems as =>
      obtain ⟨t'', hlen, ht'', has⟩ := hs
      obtain rfl : t' = t'' := by simpa [ht] using ht''
      have hlen' : pats.length = as.length := by simpa using hlen
      obtain ⟨as', has', h⟩ := hmerge as (by rw [hlen']; exact treesOk_replicate.mpr has) hfs
      exact ⟨.velems as', by simp only [mergeSubcase, has']; rfl, mergedSub_velems ht h⟩

end Subcases

/-! ### Layering -/

section Layering

theorem MergedCases.merged {Acc' : Value → Prop} {cases' : List ProtoVariant}
    (h : MergedCases E chars c t rule Acc cases cases') (hsign : (E.view t).sign? = some sign)
    (varRules : Ruleset) (hacc : ∀ v, HasTy E chars v t → (conMatches c v ∧ Acc v ↔ Acc' v)) :
    Merged E chars t rule Acc' (.or varRules sign cases) (.or varRules sign cases') where
  ok := ⟨hsign, h.ok, h.pairwise⟩
  rules := h.rules
  new v hv := by rw [Holds, h.new v hv, hacc v hv]
  old r hr v hv := by rw [Holds, Holds, h.old r hr v hv]

/-- A tree with another record of the rules that have a variable at its root. -/
def retag (varRules : Ruleset) : ProtoAndor → ProtoAndor
  | .and _ children => .and varRules children
  | .or _ sign cases => .or varRules sign cases
  | .var newVarRules => .var (newVarRules ∪ varRules)
  | .wc => .var varRules

theorem Merged.retag {t : T} {rule : ℕ} {Acc : Value → Prop} {a : ProtoAndor}
    (h : Merged E chars t rule Acc .wc a) (varRules : Ruleset) :
    Merged E chars t rule Acc (.var varRules) (retag varRules a) := by
  have hrule : ∀ r, HasRule r (MatchComp.retag varRules a) ↔ HasRule r a := by
    cases a <;> simp [MatchComp.retag]
  have hholds : ∀ r v, Holds r (MatchComp.retag varRules a) v ↔ Holds r a v := by
    intro r v
    cases a <;> cases v <;> simp [MatchComp.retag]
  refine ⟨?_, fun r hr => ?_, fun v hv => ?_, fun r hr v hv => ?_⟩
  · cases a with
    | var _ | wc => trivial
    | and _ _ | or _ _ _ => exact h.ok
  · simpa using h.rules r ((hrule r).mp hr)
  · rw [hholds, h.new v hv]
  · rw [hholds, h.old r hr v hv]
    simp

theorem mergeAndor_var (hp : PlainPat p) (hvar : ∀ v, p ≠ .var v) (hwild : p ≠ .wild)
    (hlay : ∀ l b, p ≠ .layered l b) (varRules : Ruleset) (rule : ℕ) :
    mergeAndor p (.var varRules) rule = (do return retag varRules (← genAndor p rule)) := by
  cases p with
  | wild => exact absurd rfl hwild
  | var v => exact absurd rfl (hvar v)
  | layered l b => exact absurd rfl (hlay l b)
  | constraint p => exact hp.elim
  | mark p => exact hp.elim
  | or p q => exact hp.elim
  | num | string | char | con => rfl
  | record ps => simp only [mergeAndor, genAndor]; cases multiGen ps rule <;> rfl
  | vector ps => simp only [mergeAndor, genAndor]; cases multiGen ps rule <;> rfl
  | app k p => simp only [mergeAndor, genAndor]; cases genAndor p rule <;> rfl

theorem Merged.addVarRule {a' : ProtoAndor} (h : Merged E chars t rule Acc a a') :
    Merged E chars t rule Acc a (MatchComp.addVarRule rule a') where
  ok := (treeOk_addVarRule E rule a' t).mpr h.ok
  rules r hr := h.rules r ((hasRule_addVarRule r rule a').mp hr)
  new v hv := by rw [holds_addVarRule, h.new v hv]
  old r hr v hv := by rw [holds_addVarRule, h.old r hr v hv]

theorem Merged.refl (hok : TreeOk E a t) (hfresh : ¬ HasRule rule a) (hacc : ∀ v, Acc v) :
    Merged E chars t rule Acc a a where
  ok := hok
  rules _ hr := .inr hr
  new v _ := ⟨fun _ => hacc v, fun _ => holds_of_not_hasRule v hfresh⟩
  old _ _ _ _ := Iff.rfl

theorem MergedAll.nil {rule : ℕ} {Acc : List Value → Prop} (hacc : Acc []) :
    MergedAll E chars [] rule Acc [] [] where
  ok := trivial
  rules _ hr := hr.elim
  new vs hvs := by
    cases vs with
    | nil => simpa using hacc
    | cons v vs => exact hvs.elim
  old _ _ _ _ := Iff.rfl

theorem MergedAll.cons {t : T} {ts : List T} {rule : ℕ} {Acc : Value → Prop}
    {AccAll AccCons : List Value → Prop} {a a' : ProtoAndor} {as as' : List ProtoAndor}
    (h : Merged E chars t rule Acc a a') (hs : MergedAll E chars ts rule AccAll as as')
    (hacc : ∀ v vs, AccCons (v :: vs) ↔ Acc v ∧ AccAll vs) :
    MergedAll E chars (t :: ts) rule AccCons (a :: as) (a' :: as') where
  ok := ⟨h.ok, hs.ok⟩
  rules r hr := by
    rcases hr with hr | hr
    · exact (h.rules r hr).imp id .inl
    · exact (hs.rules r hr).imp id .inr
  new vs hvs := by
    cases vs with
    | nil => exact hvs.elim
    | cons v vs => rw [HoldsAll, h.new v hvs.1, hs.new vs hvs.2, hacc]
  old r hr vs hvs := by
    cases vs with
    | nil => exact hvs.elim
    | cons v vs => rw [HoldsAll, HoldsAll, h.old r hr v hvs.1, hs.old r hr vs hvs.2]

theorem MergedAll.record {t : T} {ts : List T} {rule : ℕ} {ps : List Pat}
    {as as' : List ProtoAndor} (ht : E.view t = .record ts) (varRules : Ruleset)
    (h : MergedAll E chars ts rule (fun vs => acceptsAll ps vs) as as') :
    Merged E chars t rule (fun v => accepts (.record ps) v) (.and varRules as)
      (.and varRules as') := by
  have hrec : ∀ v, HasTy E chars v t → ∃ vs, v = .record vs ∧ HasTys E chars vs ts := by
    intro v hv
    cases v with
    | record vs =>
      obtain ⟨ts', ht', h⟩ := hv
      obtain rfl : ts = ts' := by simpa [ht] using ht'
      exact ⟨vs, rfl, h⟩
    | num n => simp [ht] at hv
    | string s => simp [ht] at hv
    | vector vs => simp [ht] at hv
    | con rep => simp [ht] at hv
    | app rep w => simp [ht] at hv
  refine ⟨⟨ts, ht, h.ok⟩, h.rules, fun v hv => ?_, fun r hr v hv => ?_⟩
  · obtain ⟨vs, rfl, hvs⟩ := hrec v hv
    simpa using h.new vs hvs
  · obtain ⟨vs, rfl, hvs⟩ := hrec v hv
    exact h.old r hr vs hvs

def blanks (ps : List Pat) : List ProtoAndor := ps.map fun _ => .wc

theorem not_hasRuleAny_blanks (r : ℕ) (ps : List Pat) : ¬ HasRuleAny r (blanks ps) := by
  induction ps with
  | nil => exact id
  | cons p ps ih => exact fun h => h.elim id ih

theorem Merged.from_wc {a₀ : ProtoAndor} (h : Merged E chars t rule Acc a₀ a)
    (h₀ : ∀ r, ¬ HasRule r a₀) :
    Merged E chars t rule Acc .wc a where
  ok := h.ok
  rules r hr := .inl ((h.rules r hr).resolve_right (h₀ r))
  new := h.new
  old r hr v hv := by simpa using (h.old r hr v hv).mpr (holds_of_not_hasRule v (h₀ r))

theorem merged_single {Acc' : Value → Prop} (hc : ConTy E c t)
    (hm : MergedSub E chars c t rule Acc .const s) (hsign : (E.view t).sign? = some sign)
    (hacc : ∀ v, HasTy E chars v t → (conMatches c v ∧ Acc v ↔ Acc' v)) :
    Merged E chars t rule Acc' .wc (.or ∅ sign [(c, {rule}, s)]) :=
  ((mergedCases_nil hc hm).merged hsign ∅ hacc).from_wc fun _ => id

end Layering

/-! ### The patterns, one by one -/

section Patterns

/-- The constant of a constant pattern: none of its values carries anything. -/
structure ConstPat (E : TypeEnv T) (p : Pat) (t : T) (c : Con) (sign : Consig) : Prop where
  conTy : ConTy E c t
  arg : conArg E c t = some none
  sign : (E.view t).sign? = some sign
  accepts : ∀ chars v, HasTy E chars v t → (conMatches c v ∧ True ↔ accepts p v)

theorem constPat_num {n : ℤ} {nt : NumTy} (h : PatTy E (.num n nt) t) :
    ConstPat E (.num n nt) t (numToCon n nt) .cnil := by
  refine ⟨by rw [ConTy, h]; exact ⟨n, rfl⟩, by cases nt <;> rfl, by rw [h]; rfl, fun _ v _ => ?_⟩
  rw [conMatches_numToCon, and_true]

theorem constPat_string {s : SmlString} (h : PatTy E (.string s) t) :
    ConstPat E (.string s) t (.string s) .cnil := by
  refine ⟨by rw [ConTy, h]; exact ⟨s, rfl⟩, rfl, by rw [h]; rfl, fun _ v _ => ?_⟩
  cases v <;> simp

theorem constPat_char {c : UInt8} (h : PatTy E (.char c) t) :
    ConstPat E (.char c) t (charCon c) .cnil := by
  refine ⟨by rw [ConTy, h]; exact ⟨_, rfl⟩, rfl, by rw [h]; rfl, fun _ v _ => ?_⟩
  cases v <;> simp [charCon, intCon]

theorem constPat_con (h : PatTy E (.con k) t) : ConstPat E (.con k) t (.data k) k.sign := by
  obtain ⟨arg, ht, harg⟩ := h
  refine ⟨by rw [ConTy, ht]; exact ⟨k, rfl, rfl, by rw [harg]; rfl⟩, by rw [conArg, ht]; exact harg,
    by rw [ht]; rfl, fun chars v hv => ?_⟩
  cases v with
  | app rep w =>
    obtain ⟨sign, arg', t', ht', harg', -⟩ := hv
    simp only [conMatches, and_true, accepts, Bool.false_eq_true, iff_false, beq_iff_eq]
    rintro rfl
    rw [ht, TyView.data.injEq] at ht'
    rw [← ht'.2, harg] at harg'
    cases harg'
  | _ => simp

theorem appPat_ty {arg : Conrep → Option (Option T)} (ht : E.view t = .data k.sign arg)
    (harg : arg k.rep = some (some t')) :
    ConTy E (.data k) t ∧ conArg E (.data k) t = some (some t') ∧
      (E.view t).sign? = some k.sign :=
  ⟨by rw [ConTy, ht]; exact ⟨k, rfl, rfl, by rw [harg]; rfl⟩, by rw [conArg, ht]; exact harg,
    by rw [ht]; rfl⟩

theorem accepts_app (k : Datacon) (p : Pat) (v : Value) :
    conMatches (.data k) v ∧ (∃ w, v = .app k.rep w ∧ accepts p w) ↔ accepts (.app k p) v := by
  cases v with
  | app rep w =>
    simp only [conMatches, beq_iff_eq, Value.app.injEq, accepts, Bool.and_eq_true]
    constructor
    · rintro ⟨rfl, _, ⟨-, rfl⟩, h⟩
      exact ⟨rfl, h⟩
    · rintro ⟨rfl, h⟩
      exact ⟨rfl, w, ⟨rfl, rfl⟩, h⟩
  | _ => simp

theorem accepts_vector {ps : List Pat} (v : Value) :
    conMatches (.vlen ps.length) v ∧ (∃ vs, v = .vector vs ∧ acceptsAll ps vs) ↔
      accepts (.vector ps) v := by
  have hlen : ∀ {ps : List Pat} {vs : List Value}, acceptsAll ps vs → ps.length = vs.length := by
    intro ps
    induction ps with
    | nil => intro vs h; cases vs <;> simp_all
    | cons p ps ih =>
      intro vs h
      cases vs with
      | nil => simp at h
      | cons v vs =>
        obtain ⟨-, hvs⟩ := by simpa using h
        simpa using ih hvs
  cases v with
  | vector vs =>
    simp only [conMatches, beq_iff_eq, Value.vector.injEq, exists_eq_left']
    exact ⟨fun h => h.2, fun h => ⟨hlen h, h⟩⟩
  | _ => simp

theorem ConstPat.gen (h : ConstPat E p t c sign) (rule : ℕ) :
    Merged E chars t rule (fun v => MatchComp.accepts p v) .wc
      (.or ∅ sign [(c, {rule}, .const)]) :=
  merged_single h.conTy (mergedSub_const rule h.arg) h.sign (h.accepts chars)

end Patterns

mutual

/-- **The tree of one pattern.** -/
theorem gen_spec : ∀ {p : Pat} {t : T}, PlainPat p → PatTy E p t → ∀ rule,
    ∃ a, genAndor p rule = .ok a ∧
      Merged E chars t rule (fun v => accepts p v) .wc a
  | .wild, t, _, _, rule => ⟨.wc, rfl, .refl trivial id fun v => by simp⟩
  | .var x, t, _, _, rule =>
    have h : Merged E chars t rule (fun v => accepts (.var x) v) .wc .wc :=
      .refl trivial id fun v => by simp
    ⟨.var {rule}, rfl, h.addVarRule⟩
  | .num n nt, t, _, h, rule => ⟨_, rfl, (constPat_num h).gen rule⟩
  | .string s, t, _, h, rule => ⟨_, rfl, (constPat_string h).gen rule⟩
  | .char c, t, _, h, rule => ⟨_, rfl, (constPat_char h).gen rule⟩
  | .con k, t, _, h, rule => ⟨_, rfl, (constPat_con h).gen rule⟩
  | .layered l b, t, ⟨⟨x, hx⟩, hp⟩, h, rule => by
    obtain ⟨a, ha, hm⟩ := gen_spec hp h.2 rule
    subst hx
    refine ⟨addVarRule rule a, by simp only [genAndor, stripConstraints, ha]; rfl, ?_⟩
    simpa using hm.addVarRule
  | .record ps, t, hp, h, rule => by
    obtain ⟨ts, ht, hps⟩ := h
    obtain ⟨as, has, hm⟩ := multiGen_spec hp hps rule
    exact ⟨.and ∅ as, by simp only [genAndor, has]; rfl,
      (hm.record ht ∅).from_wc fun r => not_hasRuleAny_blanks r ps⟩
  | .vector ps, t, hp, h, rule => by
    obtain ⟨t', ht, hps⟩ := h
    obtain ⟨as, has, hm⟩ := multiGen_spec hp (patTys_replicate hps) rule
    refine ⟨.or ∅ .cnil [(.vlen ps.length, {rule}, .velems as)],
      by simp only [genAndor, has]; rfl, ?_⟩
    have hc : ConTy E (.vlen ps.length) t := by
      rw [ConTy, ht]
      exact ⟨_, rfl⟩
    exact merged_single hc
      ((mergedSub_velems ht hm).from_const fun r => not_hasRuleAny_blanks r ps)
      (by rw [ht]; rfl) fun v _ => accepts_vector v
  | .app k p, t, hp, h, rule => by
    obtain ⟨arg, t', ht, harg, hpt⟩ := h
    obtain ⟨a, ha, hm⟩ := gen_spec (p := p) hp hpt rule
    obtain ⟨hc, hca, hsign⟩ := appPat_ty ht harg
    exact ⟨.or ∅ k.sign [(.data k, {rule}, .dcarg a)], by simp only [genAndor, ha]; rfl,
      merged_single hc ((mergedSub_dcarg hca hm).from_const fun _ => id) hsign
        fun v _ => accepts_app k p v⟩

theorem multiGen_spec : ∀ {ps : List Pat} {ts : List T}, PlainPats ps → PatTys E ps ts → ∀ rule,
    ∃ as, multiGen ps rule = .ok as ∧
      MergedAll E chars ts rule (fun vs => acceptsAll ps vs) (blanks ps) as
  | [], [], _, _, _ => ⟨[], rfl, .nil (by simp)⟩
  | [], _ :: _, _, h, _ | _ :: _, [], _, h, _ => h.elim
  | p :: ps, t :: ts, hp, h, rule => by
    obtain ⟨a, ha, hm⟩ := gen_spec hp.1 h.1 rule
    obtain ⟨as, has, hms⟩ := multiGen_spec hp.2 h.2 rule
    exact ⟨a :: as, by simp only [multiGen, ha, has]; rfl, MergedAll.cons hm hms fun v vs => by simp⟩

end

@[simp] theorem mergeAndor_wc (p : Pat) (rule : ℕ) : mergeAndor p .wc rule = genAndor p rule := by
  cases p <;> simp

/-- On a node without rules a pattern is layered as if it stood alone; it remains to layer it on a
choice and on a record. -/
theorem merge_leaf (hp : PlainPat p) (h : PatTy E p t) (hvar : ∀ v, p ≠ .var v) (hwild : p ≠ .wild)
    (hlay : ∀ l b, p ≠ .layered l b) (hor : ∀ varRules sign cases, a = .or varRules sign cases →
      ∃ a', mergeAndor p a rule = .ok a' ∧ Merged E chars t rule (fun v => accepts p v) a a')
    (hand : ∀ varRules children, a = .and varRules children →
      ∃ a', mergeAndor p a rule = .ok a' ∧ Merged E chars t rule (fun v => accepts p v) a a') :
    ∃ a', mergeAndor p a rule = .ok a' ∧ Merged E chars t rule (fun v => accepts p v) a a' := by
  cases a with
  | wc =>
    obtain ⟨a, ha, hm⟩ := @gen_spec T E chars p t hp h rule
    exact ⟨a, by rw [mergeAndor_wc, ha], hm⟩
  | var varRules =>
    obtain ⟨a, ha, hm⟩ := @gen_spec T E chars p t hp h rule
    exact ⟨retag varRules a, by rw [mergeAndor_var hp hvar hwild hlay, ha]; rfl, hm.retag varRules⟩
  | or varRules sign cases => exact hor varRules sign cases rfl
  | and varRules children => exact hand varRules children rfl

theorem ConstPat.merge_spec {p : Pat} {t : T} {a : ProtoAndor} {c : Con} {sign : Consig} {rule : ℕ}
    (h : ConstPat E p t c sign) (hp : PlainPat p) (hpt : PatTy E p t) (hvar : ∀ v, p ≠ .var v)
    (hwild : p ≠ .wild) (hlay : ∀ l b, p ≠ .layered l b)
    (hmerge : ∀ varRules sign' cases, mergeAndor p (.or varRules sign' cases) rule =
      (do return .or varRules sign' (← addACase c [] (.ok []) mergeNone rule cases)))
    (ha : TreeOk E a t) (hfresh : ¬ HasRule rule a) :
    ∃ a', mergeAndor p a rule = .ok a' ∧
      Merged E chars t rule (fun v => MatchComp.accepts p v) a a' := by
  refine merge_leaf hp hpt hvar hwild hlay (fun vr s cs he => ?_) (fun vr as he => ?_)
  · subst he
    obtain ⟨hsign, hcases, hpw⟩ := ha
    obtain ⟨cs', hcs', hm⟩ := addConst_spec h.conTy h.arg hcases hpw hfresh
    exact ⟨_, by rw [hmerge, hcs']; rfl, hm.merged hsign vr (h.accepts chars)⟩
  · subst he
    obtain ⟨ts, ht, -⟩ := ha
    have := h.sign
    rw [ht] at this
    cases this

mutual

/-- **Layering a pattern** with a rule that is new. -/
theorem merge_spec : ∀ {p : Pat} {t : T} {a : ProtoAndor}, PlainPat p → PatTy E p t → TreeOk E a t →
    ∀ {rule}, ¬ HasRule rule a → ∃ a', mergeAndor p a rule = .ok a' ∧
      Merged E chars t rule (fun v => accepts p v) a a'
  | .wild, t, a, _, _, ha, rule, hfresh =>
    ⟨a, by cases a <;> simp, .refl ha hfresh fun v => by simp⟩
  | .var x, t, a, _, _, ha, rule, hfresh =>
    have h : Merged E chars t rule (fun v => accepts (.var x) v) a a :=
      .refl ha hfresh fun v => by simp
    ⟨addVarRule rule a, by cases a <;> simp, h.addVarRule⟩
  | .layered l b, t, a, ⟨⟨x, hx⟩, hp⟩, h, ha, rule, hfresh => by
    obtain ⟨a', ha', hm⟩ := merge_spec hp h.2 ha hfresh
    subst hx
    refine ⟨addVarRule rule a', ?_, by simpa using hm.addVarRule⟩
    cases a with
    | wc =>
      rw [mergeAndor_wc] at ha'
      simp only [mergeAndor_wc, genAndor, stripConstraints, ha']
      rfl
    | _ => simp only [mergeAndor, stripConstraints, ha']; rfl
  | .num n nt, t, a, _, h, ha, rule, hfresh => (constPat_num h).merge_spec trivial h
      (by simp) (by simp) (by simp) (fun _ _ _ => rfl) ha hfresh
  | .string s, t, a, _, h, ha, rule, hfresh => (constPat_string h).merge_spec trivial h
      (by simp) (by simp) (by simp) (fun _ _ _ => rfl) ha hfresh
  | .char c, t, a, _, h, ha, rule, hfresh => (constPat_char h).merge_spec trivial h
      (by simp) (by simp) (by simp) (fun _ _ _ => rfl) ha hfresh
  | .con k, t, a, _, h, ha, rule, hfresh => (constPat_con h).merge_spec trivial h
      (by simp) (by simp) (by simp) (fun _ _ _ => rfl) ha hfresh
  | .record ps, t, a, hp, h, ha, rule, hfresh => by
    refine merge_leaf (p := .record ps) hp h (by simp) (by simp) (by simp) (fun vr s cs he => ?_)
      (fun vr as he => ?_)
    · subst he
      obtain ⟨ts, ht, -⟩ := h
      obtain ⟨hsign, -⟩ := ha
      rw [ht] at hsign
      cases hsign
    · subst he
      obtain ⟨ts, ht, hps⟩ := h
      obtain ⟨ts', ht', has⟩ := ha
      obtain rfl : ts = ts' := by simpa [ht] using ht'
      obtain ⟨as', has', hm⟩ := multiMerge_spec hp hps has hfresh
      exact ⟨.and vr as', by simp only [mergeAndor, has']; rfl, hm.record ht vr⟩
  | .vector ps, t, a, hp, h, ha, rule, hfresh => by
    refine merge_leaf (p := .vector ps) hp h (by simp) (by simp) (by simp) (fun vr s cs he => ?_)
      (fun vr as he => ?_)
    · subst he
      obtain ⟨t', ht, hps⟩ := h
      obtain ⟨hsign, hcases, hpw⟩ := ha
      have hps' := patTys_replicate hps
      obtain ⟨as, has, hm⟩ := @multiGen_spec T E chars _ _ hp hps' rule
      obtain ⟨cs', hcs', hmc⟩ := addVelems_spec ht
        ⟨as, _, has, fun r => not_hasRuleAny_blanks r ps, hm⟩
        (fun as hok hf => multiMerge_spec hp hps' hok hf) hcases hpw hfresh
      exact ⟨.or vr s cs', by simp only [mergeAndor, hcs']; rfl,
        hmc.merged hsign vr fun v _ => accepts_vector v⟩
    · subst he
      obtain ⟨t', ht, -⟩ := h
      obtain ⟨ts, ht', -⟩ := ha
      rw [ht] at ht'
      cases ht'
  | .app k p, t, a, hp, h, ha, rule, hfresh => by
    refine merge_leaf (p := .app k p) hp h (by simp) (by simp) (by simp) (fun vr s cs he => ?_)
      (fun vr as he => ?_)
    · subst he
      obtain ⟨arg, t', ht, harg, hpt⟩ := h
      obtain ⟨hsign, hcases, hpw⟩ := ha
      obtain ⟨hc, hca, -⟩ := appPat_ty ht harg
      obtain ⟨cs', hcs', hmc⟩ := addDcarg_spec (p := p) hc hca
        (@gen_spec T E chars p t' hp hpt rule)
        (fun a hok hf => merge_spec (p := p) hp hpt hok hf) hcases hpw hfresh
      exact ⟨.or vr s cs', by simp only [mergeAndor, hcs']; rfl,
        hmc.merged hsign vr fun v _ => accepts_app k p v⟩
    · subst he
      obtain ⟨arg, t', ht, -, -⟩ := h
      obtain ⟨ts, ht', -⟩ := ha
      rw [ht] at ht'
      cases ht'

theorem multiMerge_spec : ∀ {ps : List Pat} {ts : List T} {as : List ProtoAndor}, PlainPats ps →
    PatTys E ps ts → TreesOk E as ts → ∀ {rule}, ¬ HasRuleAny rule as →
      ∃ as', multiMerge ps as rule = .ok as' ∧
        MergedAll E chars ts rule (fun vs => acceptsAll ps vs) as as'
  | [], [], [], _, _, _, rule, _ => ⟨[], rfl, .nil (by simp)⟩
  | [], _ :: _, _, _, h, _, _, _ | _ :: _, [], _, _, h, _, _, _ => h.elim
  | [], [], _ :: _, _, _, h, _, _ | _ :: _, _ :: _, [], _, _, h, _, _ => h.elim
  | p :: ps, t :: ts, a :: as, hp, h, ha, rule, hfresh => by
    obtain ⟨a', ha', hm⟩ := merge_spec hp.1 h.1 ha.1 fun h => hfresh (.inl h)
    obtain ⟨as', has', hms⟩ := multiMerge_spec hp.2 h.2 ha.2 fun h => hfresh (.inr h)
    exact ⟨a' :: as', by simp only [multiMerge, ha', has']; rfl,
      MergedAll.cons hm hms fun v vs => by simp⟩

end

section Rules

/-- **The tree of some rules**: these and no others stand in it, and it holds of a rule and the
values that the rule's pattern accepts. -/
structure TreeOf (E : TypeEnv T) (chars : Set ℤ) (t : T) (pats : List Pat) (a : ProtoAndor) :
    Prop where
  ok : TreeOk E a t
  rules : ∀ r, HasRule r a → r < pats.length
  holds : ∀ r p, pats[r]? = some p → ∀ v, HasTy E chars v t → (Holds r a v ↔ accepts p v)

theorem TreeOf.merge (h : TreeOf E chars t pats a) (hp : PlainPat p) (hpt : PatTy E p t) :
    ∃ a', mergeAndor p a pats.length = .ok a' ∧ TreeOf E chars t (pats ++ [p]) a' := by
  have hfresh : ¬ HasRule pats.length a := fun hr => absurd (h.rules _ hr) (lt_irrefl _)
  obtain ⟨a', ha', hm⟩ := @merge_spec T E chars p t a hp hpt h.ok _ hfresh
  refine ⟨a', ha', hm.ok, fun r hr => ?_, fun r q hq v hv => ?_⟩
  · rw [List.length_append]
    rcases hm.rules r hr with rfl | hr
    · exact Nat.lt_succ_self _
    · exact Nat.lt_succ_of_lt (h.rules r hr)
  · rcases Nat.lt_or_ge r pats.length with hlt | hge
    · rw [List.getElem?_append_left hlt] at hq
      rw [hm.old r hlt.ne v hv, h.holds r q hq v hv]
    · rw [List.getElem?_append_right hge] at hq
      obtain ⟨hr, hq⟩ := List.getElem?_eq_some_iff.mp hq
      rw [List.length_singleton] at hr
      obtain rfl : r = pats.length := by omega
      obtain rfl : p = q := by simpa using hq
      exact hm.new v hv

theorem mergePats_spec {t : T} : ∀ {rest pats : List Pat} {a : ProtoAndor},
    TreeOf E chars t pats a → (∀ p ∈ rest, PlainPat p ∧ PatTy E p t) →
      ∃ a', mergePats rest pats.length a = .ok a' ∧ TreeOf E chars t (pats ++ rest) a'
  | [], pats, a, h, _ => ⟨a, rfl, by simpa using h⟩
  | p :: rest, pats, a, h, hrest => by
    obtain ⟨hp, hpt⟩ := hrest p List.mem_cons_self
    obtain ⟨a₁, ha₁, h₁⟩ := h.merge hp hpt
    obtain ⟨a₂, ha₂, h₂⟩ := mergePats_spec h₁ fun q hq => hrest q (List.mem_cons_of_mem _ hq)
    refine ⟨a₂, ?_, by simpa using h₂⟩
    rw [mergePats, ha₁, ok_bind, ← ha₂, List.length_append, List.length_singleton]

/-- **The tree of the rules is made, and is as it should be.** -/
theorem makeProtoAndor_spec {t : T} {pats : List Pat} (hne : pats ≠ [])
    (hpats : ∀ p ∈ pats, PlainPat p ∧ PatTy E p t) :
    ∃ a, makeProtoAndor pats = .ok a ∧ TreeOf E chars t pats a := by
  cases pats with
  | nil => exact absurd rfl hne
  | cons p rest =>
    obtain ⟨hp, hpt⟩ := hpats p List.mem_cons_self
    have hwc : TreeOf E chars t [] .wc := ⟨trivial, fun _ h => h.elim, fun r q hq => by simp at hq⟩
    obtain ⟨a₁, ha₁, h₁⟩ := hwc.merge hp hpt
    obtain ⟨a₂, ha₂, h₂⟩ := mergePats_spec h₁ fun q hq => hpats q (List.mem_cons_of_mem _ hq)
    refine ⟨a₂, ?_, by simpa using h₂⟩
    rw [List.length_nil, mergeAndor_wc] at ha₁
    rw [makeProtoAndor, ha₁, ← ha₂]
    rfl

end Rules

end SmlNj.MatchComp
