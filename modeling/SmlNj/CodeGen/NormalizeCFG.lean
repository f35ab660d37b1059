import SmlNj.CodeGen.Cfg
import SmlNj.Lib.Numbering

/-!
# Normalizing control-flow graphs

The variables and labels of a compilation unit are renamed to canonical names, in the order in which
they first appear.

## Main definitions

* `rn` — the new name of a variable or label.
* `cvtExp`, `cvtStm`, `cvtFrag`, `cvtCluster`, `normalize` — the pass.
* `CompUnit.names`, `CompUnit.rename` — the names of a unit, and the unit with other names.

## Main results

* `normalize_correct` — the pass computes a canonical form.
-/

namespace SmlNj

namespace CFG

/-- A compilation unit. -/
structure CompUnit where
  srcFile : SmlString
  entry : Cluster
  fns : List Cluster
  deriving Inhabited

end CFG

namespace NormalizeCFG

open CFG

/-! ### The pass -/

/-- The table of new names, and the next one to be used. -/
structure Renaming where
  renameTbl : Lvar → Option Lvar
  nextId : ℕ

abbrev Cvt := StateM Renaming

/-- **The new name** of a variable or label. -/
def rn (lv : Lvar) : Cvt Lvar := fun s =>
  match s.renameTbl lv with
  | none =>
    let newLV := s.nextId
    (newLV, ⟨Function.update s.renameTbl lv (some newLV), s.nextId + 1⟩)
  | some newLV => (newLV, s)

mutual

def cvtExp : Exp → Cvt Exp
  | .var name => do return .var (← rn name)
  | .label name => do return .label (← rn name)
  | .num iv sz => return .num iv sz
  | .looker oper args => do return .looker oper (← cvtExps args)
  | .pure oper args => do return .pure oper (← cvtExps args)
  | .select idx arg => do return .select idx (← cvtExp arg)

def cvtExps : List Exp → Cvt (List Exp)
  | [] => return []
  | e :: es => do return (← cvtExp e) :: (← cvtExps es)

end

def cvtParam (p : Param) : Cvt Param := do return { p with name := ← rn p.name }

mutual

def cvtStm : Stm → Cvt Stm
  | .letE e x k => do return .letE (← cvtExp e) (← cvtParam x) (← cvtStm k)
  | .alloc p args x k => do return .alloc p (← cvtExps args) (← rn x) (← cvtStm k)
  | .apply f args tys => do return .apply (← cvtExp f) (← cvtExps args) tys
  | .throw f args tys => do return .throw (← cvtExp f) (← cvtExps args) tys
  | .goto lab args => do return .goto (← rn lab) (← cvtExps args)
  | .switch e cases => do return .switch (← cvtExp e) (← cvtStms cases)
  | .branch p args prob k1 k2 => do
      return .branch p (← cvtExps args) prob (← cvtStm k1) (← cvtStm k2)
  | .arith p args x k => do return .arith p (← cvtExps args) (← cvtParam x) (← cvtStm k)
  | .setter p args k => do return .setter p (← cvtExps args) (← cvtStm k)
  | .callgc roots newRoots k => do
      return .callgc (← cvtExps roots) (← newRoots.mapM rn) (← cvtStm k)
  | .rcc reentrant linkage proto cfn args results live k => do
      return .rcc reentrant linkage proto (← cvtExp cfn) (← cvtExps args)
        (← results.mapM cvtParam) (← live.mapM cvtParam) (← cvtStm k)

def cvtStms : List Stm → Cvt (List Stm)
  | [] => return []
  | k :: ks => do return (← cvtStm k) :: (← cvtStms ks)

end

def cvtFrag (f : Frag) : Cvt Frag := do
  return ⟨f.kind, ← rn f.lab, ← f.params.mapM cvtParam, ← cvtStm f.body⟩

def cvtCluster (cl : Cluster) : Cvt Cluster := do return ⟨cl.attrs, ← cl.frags.mapM cvtFrag⟩

def cvtUnit (u : CompUnit) : Cvt CompUnit := do
  return ⟨u.srcFile, ← cvtCluster u.entry, ← u.fns.mapM cvtCluster⟩

def noNames : Renaming := ⟨fun _ => none, 1⟩

/-- **Normalizing a compilation unit.** -/
def normalize (u : CompUnit) : CompUnit := (cvtUnit u noNames).1

end NormalizeCFG

/-! ### Names -/

namespace CFG

mutual

/-- The variables and labels of an expression, in order. -/
def Exp.names : Exp → List Lvar
  | .var name | .label name => [name]
  | .num _ _ => []
  | .looker _ args | .pure _ args => expNames args
  | .select _ arg => arg.names

def expNames : List Exp → List Lvar
  | [] => []
  | e :: es => e.names ++ expNames es

end

mutual

/-- The expression with other names. -/
def Exp.rename (f : Lvar → Lvar) : Exp → Exp
  | .var name => .var (f name)
  | .label name => .label (f name)
  | .num iv sz => .num iv sz
  | .looker oper args => .looker oper (renameExps f args)
  | .pure oper args => .pure oper (renameExps f args)
  | .select idx arg => .select idx (arg.rename f)

def renameExps (f : Lvar → Lvar) : List Exp → List Exp
  | [] => []
  | e :: es => e.rename f :: renameExps f es

end

def Param.rename (f : Lvar → Lvar) (p : Param) : Param := ⟨f p.name, p.ty⟩

mutual

/-- The variables and labels of a statement, in order. -/
def Stm.names : Stm → List Lvar
  | .letE e x k => e.names ++ ([x.name] ++ k.names)
  | .alloc _ args x k => expNames args ++ ([x] ++ k.names)
  | .apply f args _ | .throw f args _ => f.names ++ expNames args
  | .goto lab args => [lab] ++ expNames args
  | .switch e cases => e.names ++ stmNames cases
  | .branch _ args _ k1 k2 => expNames args ++ (k1.names ++ k2.names)
  | .arith _ args x k => expNames args ++ ([x.name] ++ k.names)
  | .setter _ args k => expNames args ++ k.names
  | .callgc roots newRoots k => expNames roots ++ (newRoots ++ k.names)
  | .rcc _ _ _ cfn args results live k =>
    cfn.names ++ (expNames args ++ (results.map Param.name ++ (live.map Param.name ++ k.names)))

def stmNames : List Stm → List Lvar
  | [] => []
  | k :: ks => k.names ++ stmNames ks

end

mutual

/-- The statement with other names. -/
def Stm.rename (f : Lvar → Lvar) : Stm → Stm
  | .letE e x k => .letE (e.rename f) (x.rename f) (k.rename f)
  | .alloc p args x k => .alloc p (renameExps f args) (f x) (k.rename f)
  | .apply g args tys => .apply (g.rename f) (renameExps f args) tys
  | .throw g args tys => .throw (g.rename f) (renameExps f args) tys
  | .goto lab args => .goto (f lab) (renameExps f args)
  | .switch e cases => .switch (e.rename f) (renameStms f cases)
  | .branch p args prob k1 k2 =>
    .branch p (renameExps f args) prob (k1.rename f) (k2.rename f)
  | .arith p args x k => .arith p (renameExps f args) (x.rename f) (k.rename f)
  | .setter p args k => .setter p (renameExps f args) (k.rename f)
  | .callgc roots newRoots k => .callgc (renameExps f roots) (newRoots.map f) (k.rename f)
  | .rcc reentrant linkage proto cfn args results live k =>
    .rcc reentrant linkage proto (cfn.rename f) (renameExps f args) (results.map (Param.rename f))
      (live.map (Param.rename f)) (k.rename f)

def renameStms (f : Lvar → Lvar) : List Stm → List Stm
  | [] => []
  | k :: ks => k.rename f :: renameStms f ks

end

def Frag.names (g : Frag) : List Lvar := [g.lab] ++ (g.params.map Param.name ++ g.body.names)

def Frag.rename (f : Lvar → Lvar) (g : Frag) : Frag :=
  ⟨g.kind, f g.lab, g.params.map (Param.rename f), g.body.rename f⟩

def Cluster.names (cl : Cluster) : List Lvar := cl.frags.flatMap Frag.names

def Cluster.rename (f : Lvar → Lvar) (cl : Cluster) : Cluster :=
  ⟨cl.attrs, cl.frags.map (Frag.rename f)⟩

/-- **The variables and labels of a unit**, in order. -/
def CompUnit.names (u : CompUnit) : List Lvar := u.entry.names ++ u.fns.flatMap Cluster.names

/-- **The unit with other names.** -/
def CompUnit.rename (f : Lvar → Lvar) (u : CompUnit) : CompUnit :=
  ⟨u.srcFile, u.entry.rename f, u.fns.map (Cluster.rename f)⟩

attribute [simp] Exp.names expNames Exp.rename renameExps Param.rename Stm.names stmNames Stm.rename
  renameStms

section Rename

mutual

theorem Exp.rename_id : ∀ e : Exp, e.rename id = e
  | .var _ | .label _ | .num _ _ => by simp
  | .looker _ args | .pure _ args => by simp [renameExps_id args]
  | .select _ arg => by simp [arg.rename_id]

theorem renameExps_id : ∀ es : List Exp, renameExps id es = es
  | [] => rfl
  | e :: es => by simp [e.rename_id, renameExps_id es]

end

@[simp] theorem Param.rename_id : Param.rename id = id := rfl

mutual

theorem Stm.rename_id : ∀ k : Stm, k.rename id = k
  | .letE e _ k => by simp [e.rename_id, k.rename_id]
  | .alloc _ args _ k => by simp [renameExps_id, k.rename_id]
  | .apply e args _ | .throw e args _ => by simp [e.rename_id, renameExps_id]
  | .goto _ args => by simp [renameExps_id]
  | .switch e cases => by simp [e.rename_id, renameStms_id cases]
  | .branch _ args _ k1 k2 => by simp [renameExps_id, k1.rename_id, k2.rename_id]
  | .arith _ args _ k => by simp [renameExps_id, k.rename_id]
  | .setter _ args k => by simp [renameExps_id, k.rename_id]
  | .callgc roots newRoots k => by simp [renameExps_id, k.rename_id]
  | .rcc _ _ _ cfn args results live k => by
    simp [Stm.rename, cfn.rename_id, renameExps_id, List.map_id, k.rename_id]

theorem renameStms_id : ∀ ks : List Stm, renameStms id ks = ks
  | [] => rfl
  | k :: ks => by simp [k.rename_id, renameStms_id ks]

end

theorem Frag.rename_id (fr : Frag) : fr.rename id = fr := by
  simp [Frag.rename, Stm.rename_id]

theorem Cluster.rename_id (cl : Cluster) : cl.rename id = cl := by
  rw [Cluster.rename, (List.map_id'' Frag.rename_id cl.frags : _ = cl.frags)]

theorem CompUnit.rename_id (u : CompUnit) : u.rename id = u := by
  rw [CompUnit.rename, u.entry.rename_id, (List.map_id'' Cluster.rename_id u.fns : _ = u.fns)]

variable (f g : Lvar → Lvar)

mutual

theorem Exp.names_rename : ∀ e : Exp, (e.rename f).names = e.names.map f
  | .var _ | .label _ | .num _ _ => by simp
  | .looker _ args | .pure _ args => by simp [expNames_rename args]
  | .select _ arg => by simp [arg.names_rename]

theorem expNames_rename : ∀ es : List Exp, expNames (renameExps f es) = (expNames es).map f
  | [] => rfl
  | e :: es => by simp [e.names_rename, expNames_rename es]

end

mutual

theorem Exp.rename_rename : ∀ e : Exp, (e.rename f).rename g = e.rename (g ∘ f)
  | .var _ | .label _ | .num _ _ => by simp
  | .looker _ args | .pure _ args => by simp [renameExps_renameExps args]
  | .select _ arg => by simp [arg.rename_rename]

theorem renameExps_renameExps : ∀ es : List Exp,
    renameExps g (renameExps f es) = renameExps (g ∘ f) es
  | [] => rfl
  | e :: es => by simp [e.rename_rename, renameExps_renameExps es]

end

@[simp] theorem Param.map_name_rename (ps : List Param) :
    (ps.map (Param.rename f)).map Param.name = (ps.map Param.name).map f := by
  simp

@[simp] theorem Param.map_rename_rename (ps : List Param) :
    (ps.map (Param.rename f)).map (Param.rename g) = ps.map (Param.rename (g ∘ f)) := by
  simp

mutual

theorem Stm.names_rename : ∀ k : Stm, (k.rename f).names = k.names.map f
  | .letE e _ k => by simp [e.names_rename, k.names_rename]
  | .alloc _ args _ k => by simp [expNames_rename, k.names_rename]
  | .apply e args _ | .throw e args _ => by simp [e.names_rename, expNames_rename]
  | .goto _ args => by simp [expNames_rename]
  | .switch e cases => by simp [e.names_rename, stmNames_rename cases]
  | .branch _ args _ k1 k2 => by simp [expNames_rename, k1.names_rename, k2.names_rename]
  | .arith _ args _ k => by simp [expNames_rename, k.names_rename]
  | .setter _ args k => by simp [expNames_rename, k.names_rename]
  | .callgc roots newRoots k => by simp [expNames_rename, k.names_rename]
  | .rcc _ _ _ cfn args results live k => by
    simp only [Stm.rename, Stm.names, cfn.names_rename, expNames_rename, Param.map_name_rename,
      k.names_rename, List.map_append]

theorem stmNames_rename : ∀ ks : List Stm, stmNames (renameStms f ks) = (stmNames ks).map f
  | [] => rfl
  | k :: ks => by simp [k.names_rename, stmNames_rename ks]

end

mutual

theorem Stm.rename_rename : ∀ k : Stm, (k.rename f).rename g = k.rename (g ∘ f)
  | .letE e _ k => by simp [e.rename_rename, k.rename_rename]
  | .alloc _ args _ k => by simp [renameExps_renameExps, k.rename_rename]
  | .apply e args _ | .throw e args _ => by simp [e.rename_rename, renameExps_renameExps]
  | .goto _ args => by simp [renameExps_renameExps]
  | .switch e cases => by simp [e.rename_rename, renameStms_renameStms cases]
  | .branch _ args _ k1 k2 => by
    simp [renameExps_renameExps, k1.rename_rename, k2.rename_rename]
  | .arith _ args _ k => by simp [renameExps_renameExps, k.rename_rename]
  | .setter _ args k => by simp [renameExps_renameExps, k.rename_rename]
  | .callgc roots newRoots k => by simp [renameExps_renameExps, k.rename_rename]
  | .rcc _ _ _ cfn args results live k => by
    simp [Stm.rename, cfn.rename_rename, renameExps_renameExps, k.rename_rename]

theorem renameStms_renameStms : ∀ ks : List Stm,
    renameStms g (renameStms f ks) = renameStms (g ∘ f) ks
  | [] => rfl
  | k :: ks => by simp [k.rename_rename, renameStms_renameStms ks]

end

theorem Frag.names_rename (h : Frag) : (h.rename f).names = h.names.map f := by
  simp [Frag.names, Frag.rename, Stm.names_rename]

theorem Frag.rename_rename (h : Frag) : (h.rename f).rename g = h.rename (g ∘ f) := by
  simp [Frag.rename, Stm.rename_rename]

theorem Cluster.names_rename (cl : Cluster) : (cl.rename f).names = cl.names.map f := by
  simp [Cluster.names, Cluster.rename, List.flatMap_map, Frag.names_rename, List.map_flatMap]

theorem Cluster.rename_rename (cl : Cluster) : (cl.rename f).rename g = cl.rename (g ∘ f) := by
  simp [Cluster.rename, Frag.rename_rename]

theorem CompUnit.names_rename (u : CompUnit) : (u.rename f).names = u.names.map f := by
  simp [CompUnit.names, CompUnit.rename, List.flatMap_map, Cluster.names_rename, List.map_flatMap]

theorem CompUnit.rename_rename (u : CompUnit) : (u.rename f).rename g = u.rename (g ∘ f) := by
  simp [CompUnit.rename, Cluster.rename_rename]

end Rename

end CFG

/-! ### What the conversion does -/

namespace NormalizeCFG

open CFG Numbering

def tableOf (l : List Lvar) : Renaming :=
  ⟨fun x => if x ∈ l then some (position l x) else none, l.length + 1⟩

theorem noNames_eq : noNames = tableOf [] := by
  simp [noNames, tableOf]

theorem update_tableOf {l : List Lvar} {x : Lvar} (h : x ∉ l) :
    Function.update (tableOf l).renameTbl x (some (l.length + 1)) =
      (tableOf (l ++ [x])).renameTbl := by
  funext y
  by_cases hy : y = x
  · subst hy
    simp [tableOf, position, List.idxOf_append_of_notMem h]
  · by_cases hyl : y ∈ l
    · simp [tableOf, hy, position, List.idxOf_append_of_mem hyl]
    · simp [tableOf, hy, hyl]

theorem rn_eq (l : List Lvar) (x : Lvar) :
    rn x (tableOf l) = (position (enter l x) x, tableOf (enter l x)) := by
  by_cases h : x ∈ l
  · simp [rn, tableOf, enter, h]
  · have hpos : position (l ++ [x]) x = l.length + 1 := by
      simp [position, List.idxOf_append_of_notMem h]
    have hnew : (tableOf l).renameTbl x = none := if_neg h
    rw [enter, if_neg h, hpos]
    unfold rn
    rw [hnew]
    refine Prod.ext rfl (congrArg₂ Renaming.mk (update_tableOf h) ?_)
    rw [List.length_append]
    rfl

/-- **The conversion of an item**: it enters the names of the item, in order, and renames them. -/
structure Converts {α : Type} (m : Cvt α) (names : List Lvar) (ren : (Lvar → Lvar) → α) :
    Prop where
  run : ∀ l, m (tableOf l) = (ren (position (enterAll l names)), tableOf (enterAll l names))
  congr : ∀ f g, (∀ x ∈ names, f x = g x) → ren f = ren g

namespace Converts

variable {α β : Type} {m : Cvt α} {n n₁ n₂ : List Lvar} {r : (Lvar → Lvar) → α}

theorem pure (a : α) : Converts (Pure.pure a) [] fun _ => a :=
  ⟨fun _ => rfl, fun _ _ _ => rfl⟩

theorem rn (x : Lvar) : Converts (rn x) [x] fun f => f x :=
  ⟨fun l => rn_eq l x, fun _ _ h => h x List.mem_cons_self⟩

theorem bind {k : α → Cvt β} {r₂ : (Lvar → Lvar) → α → β} (h : Converts m n₁ r)
    (hk : ∀ a, Converts (k a) n₂ fun f => r₂ f a) :
    Converts (m >>= k) (n₁ ++ n₂) fun f => r₂ f (r f) where
  run l := by
    have hr : r (position (enterAll l n₁)) = r (position (enterAll (enterAll l n₁) n₂)) :=
      h.congr _ _ fun x hx => (position_enterAll (mem_enterAll.mpr (.inr hx))).symm
    rw [enterAll_append]
    change k (m (tableOf l)).1 (m (tableOf l)).2 = _
    rw [h.run, (hk _).run, hr]
  congr f g hfg := by
    rw [h.congr f g fun x hx => hfg x (List.mem_append_left _ hx)]
    exact (hk _).congr f g fun x hx => hfg x (List.mem_append_right _ hx)

theorem last (h : Converts m n r) (c : α → β) :
    Converts (m >>= fun a => Pure.pure (c a)) n fun f => c (r f) := by
  have hpure : ∀ a, Converts (Pure.pure (c a)) [] fun _ => c a := fun a => pure (c a)
  have hb := h.bind hpure
  rwa [List.append_nil] at hb

theorem mapM {γ : Type} {c : γ → Cvt α} {n : γ → List Lvar} {r : γ → (Lvar → Lvar) → α} :
    ∀ {xs : List γ}, (∀ x ∈ xs, Converts (c x) (n x) (r x)) →
      Converts (xs.mapM c) (xs.flatMap n) fun f => xs.map fun x => r x f
  | [], _ => by
    rw [List.mapM_nil]
    exact pure _
  | x :: xs, h => by
    obtain ⟨hx, hxs⟩ := List.forall_mem_cons.mp h
    rw [List.mapM_cons]
    exact hx.bind fun a => (mapM hxs).last _

theorem mapM_rn (xs : List Lvar) : Converts (xs.mapM NormalizeCFG.rn) xs fun f => xs.map f := by
  have h := mapM fun x (_ : x ∈ xs) => rn x
  rwa [List.flatMap_singleton'] at h

theorem param (p : Param) : Converts (cvtParam p) [p.name] fun f => p.rename f :=
  (rn p.name).last _

theorem params (ps : List Param) :
    Converts (ps.mapM cvtParam) (ps.map Param.name) fun f => ps.map (Param.rename f) := by
  have h := mapM fun p (_ : p ∈ ps) => param p
  rwa [← List.map_eq_flatMap] at h

mutual

theorem exp : ∀ e : Exp, Converts (cvtExp e) e.names fun f => e.rename f
  | .var name => (rn name).last _
  | .label name => (rn name).last _
  | .num _ _ => pure _
  | .looker _ args => (exps args).last _
  | .pure _ args => (exps args).last _
  | .select _ arg => (exp arg).last _

theorem exps : ∀ es : List Exp, Converts (cvtExps es) (expNames es) fun f => renameExps f es
  | [] => pure _
  | e :: es => (exp e).bind fun _ => (exps es).last _

end

mutual

theorem stm : ∀ k : Stm, Converts (cvtStm k) k.names fun f => k.rename f
  | .letE e x k => (exp e).bind fun _ => (param x).bind fun _ => (stm k).last _
  | .alloc _ args x k => (exps args).bind fun _ => (rn x).bind fun _ => (stm k).last _
  | .apply e args _ => (exp e).bind fun _ => (exps args).last _
  | .throw e args _ => (exp e).bind fun _ => (exps args).last _
  | .goto lab args => (rn lab).bind fun _ => (exps args).last _
  | .switch e cases => (exp e).bind fun _ => (stms cases).last _
  | .branch _ args _ k1 k2 => (exps args).bind fun _ => (stm k1).bind fun _ => (stm k2).last _
  | .arith _ args x k => (exps args).bind fun _ => (param x).bind fun _ => (stm k).last _
  | .setter _ args k => (exps args).bind fun _ => (stm k).last _
  | .callgc roots newRoots k =>
    (exps roots).bind fun _ => (mapM_rn newRoots).bind fun _ => (stm k).last _
  | .rcc _ _ _ cfn args results live k =>
    (exp cfn).bind fun _ => (exps args).bind fun _ => (params results).bind fun _ =>
      (params live).bind fun _ => (stm k).last _

theorem stms : ∀ ks : List Stm, Converts (cvtStms ks) (stmNames ks) fun f => renameStms f ks
  | [] => pure _
  | k :: ks => (stm k).bind fun _ => (stms ks).last _

end

theorem frag (g : Frag) : Converts (cvtFrag g) g.names fun f => g.rename f :=
  (rn g.lab).bind fun _ => (params g.params).bind fun _ => (stm g.body).last _

theorem cluster (cl : Cluster) : Converts (cvtCluster cl) cl.names fun f => cl.rename f :=
  (mapM fun g _ => frag g).last _

theorem unit (u : CompUnit) : Converts (cvtUnit u) u.names fun f => u.rename f :=
  (cluster u.entry).bind fun _ => (mapM fun cl _ => cluster cl).last _

end Converts

theorem normalize_eq (u : CompUnit) : normalize u = u.rename (number u.names) := by
  rw [normalize, noNames_eq, (Converts.unit u).run]
  rfl

theorem rename_congr {f g : Lvar → Lvar} {u : CompUnit} (h : ∀ x ∈ u.names, f x = g x) :
    u.rename f = u.rename g :=
  (Converts.unit u).congr f g h

theorem normalize_rename {f : Lvar → Lvar} {u : CompUnit}
    (hf : Set.InjOn f {x | x ∈ u.names}) : normalize (u.rename f) = normalize u := by
  rw [normalize_eq, normalize_eq, CompUnit.rename_rename, CompUnit.names_rename]
  exact rename_congr fun x hx => number_map hf (fun _ hy => hy) hx

theorem exists_rename {u v : CompUnit} (h : normalize u = normalize v) :
    ∃ f, Set.InjOn f {x | x ∈ u.names} ∧ v = u.rename f := by
  rw [normalize_eq, normalize_eq] at h
  have hnames : u.names.map (number u.names) = v.names.map (number v.names) := by
    rw [← CompUnit.names_rename, ← CompUnit.names_rename, h]
  have hinj := number_injOn v.names
  let g := Function.invFunOn (number v.names) {x | x ∈ v.names}
  have hg : ∀ x ∈ v.names, g (number v.names x) = x := fun x hx => hinj.leftInvOn_invFunOn hx
  refine ⟨g ∘ number u.names, fun x hx y hy he => ?_, ?_⟩
  · -- the number of a name of `u` is that of a name of `v`, from which `g` gets back
    have hnum : ∀ z ∈ u.names, ∃ w ∈ v.names, number v.names w = number u.names z := fun z hz =>
      List.mem_map.mp (hnames ▸ List.mem_map_of_mem hz)
    obtain ⟨x', hx', hnx⟩ := hnum x hx
    obtain ⟨y', hy', hny⟩ := hnum y hy
    refine number_injOn u.names hx hy ?_
    rw [Function.comp_apply, Function.comp_apply, ← hnx, ← hny, hg x' hx', hg y' hy'] at he
    rw [← hnx, ← hny, he]
  · rw [← CompUnit.rename_rename, h, CompUnit.rename_rename]
    exact (v.rename_id.symm.trans (rename_congr fun x hx => (hg x hx).symm))

/-- **Normalization computes a canonical form**: a unit is renamed injectively, to a unit that is
normalized already, and two units have one normal form if each is the other one with other names. -/
theorem normalize_correct :
    (∀ u, ∃ f, Function.Injective f ∧ normalize u = u.rename f) ∧
      (∀ u, normalize (normalize u) = normalize u) ∧
      ∀ u v, normalize u = normalize v ↔ ∃ f, Function.Injective f ∧ v = u.rename f := by
  have hinjective : ∀ {u : CompUnit} {f : Lvar → Lvar}, Set.InjOn f {x | x ∈ u.names} →
      ∃ g, Function.Injective g ∧ u.rename f = u.rename g := fun hf => by
    obtain ⟨g, hg, hfg⟩ := exists_injective hf
    exact ⟨g, hg, rename_congr fun x hx => (hfg x hx).symm⟩
  refine ⟨fun u => ?_, fun u => ?_, fun u v => ⟨fun h => ?_, ?_⟩⟩
  · obtain ⟨g, hg, he⟩ := hinjective (number_injOn u.names)
    exact ⟨g, hg, (normalize_eq u).trans he⟩
  · rw [normalize_eq u, normalize_rename (number_injOn u.names), normalize_eq u]
  · obtain ⟨f, hf, rfl⟩ := exists_rename h
    exact hinjective hf
  · rintro ⟨f, hf, rfl⟩
    exact (normalize_rename hf.injOn).symm

end NormalizeCFG

end SmlNj
