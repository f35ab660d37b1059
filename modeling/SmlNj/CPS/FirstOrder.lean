import SmlNj.CPS.Syntax

/-!
# First-order terms

After closure conversion the functions of a program are closed and stand side by
side: a term has no `FIX`, and control leaves it by jumps to labels or by calls
of unknown functions.

## Main definitions

* `FirstOrder` — a term without `FIX`.
* `callees` — the labels to which a term jumps.
* `relabel` — a term whose jumps to one label go to another.

## Main results

* `callees_relabel` — where a relabelled term jumps.
* `relabel_relabel` — relabelling to a label that does not occur is undone.
-/

namespace SmlNj.CPS

mutual

/-- Is the term without `FIX`? -/
@[grind =] def FirstOrder : Cexp → Bool
  | .app _ _ => true
  | .fix _ _ => false
  | .switch _ _ cases => FirstOrderCases cases
  | .branch _ _ _ e1 e2 => FirstOrder e1 && FirstOrder e2
  | .record _ _ _ e | .select _ _ _ _ e | .offset _ _ _ e | .setter _ _ e
  | .looker _ _ _ _ e | .arith _ _ _ _ e | .pure _ _ _ _ e | .rcc _ _ _ _ _ e => FirstOrder e

/-- Are the cases without `FIX`? -/
def FirstOrderCases : List Cexp → Bool
  | [] => true
  | e :: es => FirstOrder e && FirstOrderCases es

end

mutual

/-- The labels to which a term jumps, in order, with repetitions. -/
@[grind =] def callees : Cexp → List Lvar
  | .app (.label l) _ => [l]
  | .app _ _ | .fix _ _ => []
  | .switch _ _ cases => casesCallees cases
  | .branch _ _ _ e1 e2 => callees e1 ++ callees e2
  | .record _ _ _ e | .select _ _ _ _ e | .offset _ _ _ e | .setter _ _ e
  | .looker _ _ _ _ e | .arith _ _ _ _ e | .pure _ _ _ _ e | .rcc _ _ _ _ _ e => callees e

def casesCallees : List Cexp → List Lvar
  | [] => []
  | e :: es => callees e ++ casesCallees es

end

mutual

/-- The term with its jumps to `l` going to `h`. -/
@[grind =] def relabel (l h : Lvar) : Cexp → Cexp
  | .app (.label x) args => .app (.label (if x = l then h else x)) args
  | .app f args => .app f args
  | .fix fns e => .fix fns e
  | .record rk flds x e => .record rk flds x (relabel l h e)
  | .select i v x ty e => .select i v x ty (relabel l h e)
  | .offset i v x e => .offset i v x (relabel l h e)
  | .switch v id cases => .switch v id (relabelCases l h cases)
  | .branch p vs id e1 e2 => .branch p vs id (relabel l h e1) (relabel l h e2)
  | .setter p vs e => .setter p vs (relabel l h e)
  | .looker p vs x ty e => .looker p vs x ty (relabel l h e)
  | .arith p vs x ty e => .arith p vs x ty (relabel l h e)
  | .pure p vs x ty e => .pure p vs x ty (relabel l h e)
  | .rcc re cc proto vs results e => .rcc re cc proto vs results (relabel l h e)

/-- The cases with their jumps to `l` going to `h`. -/
def relabelCases (l h : Lvar) : List Cexp → List Cexp
  | [] => []
  | e :: es => relabel l h e :: relabelCases l h es

end

attribute [simp] FirstOrder FirstOrderCases callees casesCallees relabel relabelCases

section Induction

variable {P : Cexp → Prop} {Q : List Cexp → Prop}

/-- What it takes to show `P` of all first-order terms, and `Q` of the cases of a `SWITCH`. -/
structure Induction (P : Cexp → Prop) (Q : List Cexp → Prop) : Prop where
  label : ∀ l args, P (.app (.label l) args)
  app : ∀ f args, (∀ l, f ≠ .label l) → P (.app f args)
  record : ∀ rk flds x e, P e → P (.record rk flds x e)
  select : ∀ i v x ty e, P e → P (.select i v x ty e)
  offset : ∀ i v x e, P e → P (.offset i v x e)
  switch : ∀ v id cases, Q cases → P (.switch v id cases)
  branch : ∀ p vs id e1 e2, P e1 → P e2 → P (.branch p vs id e1 e2)
  setter : ∀ p vs e, P e → P (.setter p vs e)
  looker : ∀ p vs x ty e, P e → P (.looker p vs x ty e)
  arith : ∀ p vs x ty e, P e → P (.arith p vs x ty e)
  pure : ∀ p vs x ty e, P e → P (.pure p vs x ty e)
  rcc : ∀ re cc proto vs results e, P e → P (.rcc re cc proto vs results e)
  nil : Q []
  cons : ∀ e es, P e → Q es → Q (e :: es)

mutual

/-- **Induction on first-order terms.** -/
theorem Induction.term (h : Induction P Q) : ∀ {e : Cexp}, FirstOrder e = true → P e
  | .app f args, _ => by
    by_cases hl : ∃ l, f = .label l
    · obtain ⟨l, rfl⟩ := hl
      exact h.label l args
    · exact h.app f args fun l hf => hl ⟨l, hf⟩
  | .fix _ _, hf => by simp at hf
  | .record _ _ _ _, hf => h.record _ _ _ _ (h.term (by simpa using hf))
  | .select _ _ _ _ _, hf => h.select _ _ _ _ _ (h.term (by simpa using hf))
  | .offset _ _ _ _, hf => h.offset _ _ _ _ (h.term (by simpa using hf))
  | .switch _ _ _, hf => h.switch _ _ _ (h.cases (by simpa using hf))
  | .branch _ _ _ _ _, hf => by
    obtain ⟨h1, h2⟩ := Bool.and_eq_true_iff.mp (by simpa only [FirstOrder] using hf)
    exact h.branch _ _ _ _ _ (h.term h1) (h.term h2)
  | .setter _ _ _, hf => h.setter _ _ _ (h.term (by simpa using hf))
  | .looker _ _ _ _ _, hf => h.looker _ _ _ _ _ (h.term (by simpa using hf))
  | .arith _ _ _ _ _, hf => h.arith _ _ _ _ _ (h.term (by simpa using hf))
  | .pure _ _ _ _ _, hf => h.pure _ _ _ _ _ (h.term (by simpa using hf))
  | .rcc _ _ _ _ _ _, hf => h.rcc _ _ _ _ _ _ (h.term (by simpa using hf))

theorem Induction.cases (h : Induction P Q) :
    ∀ {es : List Cexp}, FirstOrderCases es = true → Q es
  | [], _ => h.nil
  | _ :: _, hf => by
    obtain ⟨h1, h2⟩ := Bool.and_eq_true_iff.mp (by simpa only [FirstOrderCases] using hf)
    exact h.cons _ _ (h.term h1) (h.cases h2)

end

end Induction

theorem callees_relabel (l h : Lvar) {e : Cexp} (he : FirstOrder e = true) :
    callees (relabel l h e) = (callees e).map fun x => if x = l then h else x := by
  refine Induction.term
    (P := fun e => callees (relabel l h e) = (callees e).map fun x => if x = l then h else x)
    (Q := fun es => casesCallees (relabelCases l h es) =
      (casesCallees es).map fun x => if x = l then h else x) ?_ he
  constructor <;> intros <;> simp_all

theorem relabel_relabel {l h : Lvar} {e : Cexp} (he : FirstOrder e = true)
    (hh : h ∉ callees e) : relabel h l (relabel l h e) = e := by
  refine Induction.term (P := fun e => h ∉ callees e → relabel h l (relabel l h e) = e)
    (Q := fun es => h ∉ casesCallees es → relabelCases h l (relabelCases l h es) = es)
    ?_ he hh
  constructor
  case label =>
    intro x args hx
    have hne : x ≠ h := fun he => hx (by simp [he])
    by_cases hl : x = l <;> simp [hl, hne]
  all_goals intros; simp_all

end SmlNj.CPS
