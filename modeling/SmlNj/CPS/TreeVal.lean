import SmlNj.CPS.Parametric

/-!
# Trees and reference cells

An interpretation whose values are trees over numbers, reference cells and functions, and whose world
is the contents of the cells.  Its operators do not look into closures.

## Main definitions

* `TreeVal`, `TreeVal.Rel` — values, and values that are related for a pairing of closures.
* `treeInterp` — the interpretation.

## Main results

* `treeParametric` — it is parametric.
-/

namespace SmlNj.CPS

/-- Values. -/
inductive TreeVal
  | num (i : ℤ)
  | ref (n : ℕ)
  | fn (n : ℕ)
  | ext (n : ℕ)
  | node (ts : List TreeVal)

namespace TreeVal

def IsFun : TreeVal → Prop
  | .fn _ | .ext _ => True
  | _ => False

def toInt : TreeVal → Option ℤ
  | .num i => some i
  | _ => none

def toRef : TreeVal → Option ℕ
  | .ref n => some n
  | _ => none

def field (i : ℕ) : TreeVal → Option TreeVal
  | .node ts => ts[i]?
  | _ => none

def path : AccessPath → TreeVal → Option TreeVal
  | .offp 0, t => some t
  | .offp _, _ => none
  | .selp i p, t => (t.field i).bind (path p)

/-- **Related values.** -/
inductive Rel (ρ : Pairing TreeVal) : TreeVal → TreeVal → Prop
  | num (i : ℤ) : Rel ρ (.num i) (.num i)
  | ref (n : ℕ) : Rel ρ (.ref n) (.ref n)
  | fn {n : ℕ} {t : TreeVal} (h : ρ n t) : Rel ρ (.fn n) t
  | ext (n : ℕ) : Rel ρ (.ext n) (.ext n)
  | node {ts ts' : List TreeVal} (h : List.Forall₂ (Rel ρ) ts ts') : Rel ρ (.node ts) (.node ts')

end TreeVal

def less : P.Branch → List ℤ → Option Bool
  | .cmp .lt _, [i, j] => some (i < j)
  | _, _ => none

def sum : P.Arith → List ℤ → Option (Option ℤ)
  | .iarith .iadd _, [i, j] =>
    some (if -2 ^ 62 ≤ i + j ∧ i + j < 2 ^ 62 then some (i + j) else none)
  | _, _ => none

/-- The interpretation by trees. -/
@[grind =] def treeInterp : Interp TreeVal (List TreeVal) where
  fn := .fn
  unfn
    | .fn n => some n
    | _ => none
  lit
    | .num c => .num c.ival
    | .enum i => .num i
    | .label l => .ext l
    | _ => .num 0
  path := TreeVal.path
  record _ ts := some (.node ts)
  select := TreeVal.field
  offset _ _ := none
  switch t := t.toInt.bind fun i => if 0 ≤ i then some i.toNat else none
  branch p ts := (ts.mapM TreeVal.toInt).bind (less p)
  arith p ts := ((ts.mapM TreeVal.toInt).bind (sum p)).map (Option.map .num)
  pure _ _ := none
  alloc p ts w :=
    match p, ts with
    | .makeref, [t] => some (.ref w.length, w ++ [t])
    | _, _ => none
  setter p ts w :=
    match p, ts with
    | .assign, [r, t] => r.toRef.bind fun n => if n < w.length then some (w.set n t) else none
    | _, _ => none
  looker p ts w :=
    match p, ts with
    | .deref, [r] => r.toRef.bind fun n => w[n]?.map fun t => (t, w)
    | _, _ => none
  overflow _ := some (.ext 0, [])
  rcc _ _ _ _ _ := none

/-! ### It is parametric -/

namespace TreeVal

variable {ρ : Pairing TreeVal} {t t' : TreeVal} {ts ts' : List TreeVal}

theorem toInt_rel (hρ : ∀ n t, ρ n t → IsFun t) (h : Rel ρ t t') : t.toInt = t'.toInt := by
  cases h with
  | fn h => cases t' <;> first | rfl | exact (hρ _ _ h).elim
  | _ => rfl

theorem toRef_rel (hρ : ∀ n t, ρ n t → IsFun t) (h : Rel ρ t t') : t.toRef = t'.toRef := by
  cases h with
  | fn h => cases t' <;> first | rfl | exact (hρ _ _ h).elim
  | _ => rfl

theorem toInts_rel (hρ : ∀ n t, ρ n t → IsFun t) (h : List.Forall₂ (Rel ρ) ts ts') :
    ts.mapM toInt = ts'.mapM toInt := by
  induction h with
  | nil => rfl
  | cons ht _ ih => rw [List.mapM_cons, List.mapM_cons, toInt_rel hρ ht, ih]

theorem getElem?_rel {r : TreeVal → TreeVal → Prop} (h : List.Forall₂ r ts ts') (i : ℕ) :
    Option.Rel r ts[i]? ts'[i]? := by
  induction h generalizing i with
  | nil => exact .none
  | cons ht _ ih =>
    cases i with
    | zero => exact .some ht
    | succ i => exact ih i

theorem field_rel (hρ : ∀ n t, ρ n t → IsFun t) (i : ℕ) (h : Rel ρ t t') :
    Option.Rel (Rel ρ) (t.field i) (t'.field i) := by
  cases h with
  | fn h => cases t' <;> first | exact .none | exact (hρ _ _ h).elim
  | node h => exact getElem?_rel h i
  | _ => exact .none

theorem path_rel (hρ : ∀ n t, ρ n t → IsFun t) (p : AccessPath) (h : Rel ρ t t') :
    Option.Rel (Rel ρ) (path p t) (path p t') := by
  induction p generalizing t t' with
  | offp i =>
    cases i with
    | zero => exact .some h
    | succ i => exact .none
  | selp i p ih => exact rel_bind (field_rel hρ i h) fun _ _ h => ih h

theorem set_rel {r : TreeVal → TreeVal → Prop} (h : List.Forall₂ r ts ts') (ht : r t t') (n : ℕ) :
    List.Forall₂ r (ts.set n t) (ts'.set n t') := by
  induction h generalizing n with
  | nil => exact .nil
  | cons hs h ih =>
    cases n with
    | zero => exact .cons ht h
    | succ n => exact .cons hs (ih n)

mutual

theorem Rel.mono {ρ ρ' : Pairing TreeVal} {t t' : TreeVal} (hρ : ρ ≤ ρ') (h : Rel ρ t t') :
    Rel ρ' t t' := by
  cases t with
  | num | ref | ext =>
    cases h
    constructor
  | fn n =>
    cases h with
    | fn h => exact .fn (hρ _ _ h)
  | node ts =>
    cases h with
    | node h => exact .node (rels_mono hρ h)

theorem rels_mono {ρ ρ' : Pairing TreeVal} {ts ts' : List TreeVal} (hρ : ρ ≤ ρ')
    (h : List.Forall₂ (Rel ρ) ts ts') : List.Forall₂ (Rel ρ') ts ts' := by
  cases ts with
  | nil =>
    cases h
    exact .nil
  | cons t ts =>
    cases h with
    | cons ht h => exact .cons (Rel.mono hρ ht) (rels_mono hρ h)

end

end TreeVal

open TreeVal

section Respects

variable {ρ : Pairing TreeVal} {ts ts' w w' : List TreeVal}

theorem tree_alloc (p : P.Pure) (hts : List.Forall₂ (Rel ρ) ts ts')
    (hw : List.Forall₂ (Rel ρ) w w') :
    Option.Rel (fun r r' => Rel ρ r.1 r'.1 ∧ List.Forall₂ (Rel ρ) r.2 r'.2)
      (treeInterp.alloc p ts w) (treeInterp.alloc p ts' w') := by
  cases p with
  | makeref =>
    rcases hts with _ | ⟨ht, _ | _⟩
    case cons.nil =>
      refine .some ⟨?_, List.rel_append hw (.cons ht .nil)⟩
      rw [hw.length_eq]
      exact .ref _
    all_goals exact .none
  | _ => exact .none

theorem tree_setter (hρ : ∀ n t, ρ n t → IsFun t) (p : P.Setter)
    (hts : List.Forall₂ (Rel ρ) ts ts') (hw : List.Forall₂ (Rel ρ) w w') :
    Option.Rel (List.Forall₂ (Rel ρ)) (treeInterp.setter p ts w) (treeInterp.setter p ts' w') := by
  cases p with
  | assign =>
    rcases hts with _ | ⟨hr, _ | ⟨ht, _ | _⟩⟩
    case cons.cons.nil r r' t t' =>
      simp only [treeInterp, toRef_rel hρ hr, hw.length_eq]
      cases r'.toRef with
      | none => exact .none
      | some n =>
        simp only [Option.bind_some]
        split
        · exact .some (set_rel hw ht n)
        · exact .none
    all_goals exact .none
  | _ => exact .none

theorem tree_looker (hρ : ∀ n t, ρ n t → IsFun t) (p : P.Looker)
    (hts : List.Forall₂ (Rel ρ) ts ts') (hw : List.Forall₂ (Rel ρ) w w') :
    Option.Rel (fun r r' => Rel ρ r.1 r'.1 ∧ List.Forall₂ (Rel ρ) r.2 r'.2)
      (treeInterp.looker p ts w) (treeInterp.looker p ts' w') := by
  cases p with
  | deref =>
    rcases hts with _ | ⟨hr, _ | _⟩
    case cons.nil r r' =>
      simp only [treeInterp, toRef_rel hρ hr]
      cases r'.toRef with
      | none => exact .none
      | some n => exact rel_map (getElem?_rel hw n) fun _ _ ht => ⟨ht, hw⟩
    all_goals exact .none
  | _ => exact .none

/-- **The operators preserve related trees**, if closures are paired with functions. -/
theorem tree_respects (hρ : ∀ n t, ρ n t → IsFun t) :
    Respects treeInterp (Rel ρ) (List.Forall₂ (Rel ρ)) where
  lit v := by
    cases v with
    | num c => exact .num _
    | enum i => exact .num _
    | label l => exact .ext _
    | _ => exact .num 0
  path p _ _ h := path_rel hρ p h
  record _ _ _ h := .some (.node h)
  select i _ _ h := field_rel hρ i h
  offset _ _ _ _ := .none
  switch h := by simp [treeInterp, toInt_rel hρ h]
  branch p _ _ h := by simp [treeInterp, toInts_rel hρ h]
  arith p _ ts' h := by
    simp only [treeInterp, toInts_rel hρ h]
    generalize (ts'.mapM toInt).bind (sum p) = r
    rcases r with _ | _ | i
    · exact .none
    · exact .some .none
    · exact .some (.some (.num i))
  pure _ _ _ _ := .none
  alloc p _ _ _ _ h hw := tree_alloc p h hw
  setter p _ _ _ _ h hw := tree_setter hρ p h hw
  looker p _ _ _ _ h hw := tree_looker hρ p h hw
  overflow _ := .some ⟨.ext 0, .nil⟩
  rcc _ _ _ _ _ _ _ _ _ := .none

end Respects

/-- **The interpretation is parametric**, for pairings of closures with functions. -/
def treeParametric (Good : Pairing TreeVal → Prop)
    (hGood : ∀ ρ, Good ρ → ∀ n t, ρ n t → IsFun t) : Parametric treeInterp Good where
  val := Rel
  world ρ := List.Forall₂ (Rel ρ)
  unfn_fn _ := rfl
  val_mono h _ _ ht := ht.mono h
  world_mono h _ _ hw := hw.imp fun _ _ ht => ht.mono h
  val_fn h := .fn h
  unfn _ _ _ h := by
    cases h with
    | fn h => exact .inr ⟨_, rfl, h⟩
    | _ => exact .inl ⟨rfl, rfl⟩
  respects h := tree_respects (hGood _ h)

end SmlNj.CPS
