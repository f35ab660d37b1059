import SmlNj.CPS.FirstOrder
import SmlNj.CPS.Main.NormalizeCluster
import SmlNj.Lib.ExceptList

/-!
# The call graph of a cluster

The graph that is built has an edge from each function to the functions that it
calls directly and that are not entries, and its lists of predecessors and of
successors agree.  Removing the incoming edges of a node keeps them in agreement,
so the edges left at any time are those of the whole graph that do not lead to a
new entry.

## Main definitions

* `Linked` — predecessors and successors agree.
* `Cut` — the edges left after some nodes were made entries.

## Main results

* `callGraph_spec` — the edges of the call graph.
* `newEntry_spec` — making a node an entry.
-/

namespace SmlNj.NormalizeCluster

open CPS ExceptList

variable {n : ℕ}

/-- The predecessors and the successors in a graph agree, and none is listed twice. -/
structure Linked (g : Graph n) : Prop where
  succs_nodup : ∀ a, (g.succs a).Nodup
  preds_nodup : ∀ b, (g.preds b).Nodup
  linked : ∀ a b, a ∈ g.preds b ↔ b ∈ g.succs a

@[simp] theorem succs_updateBy_self (f : Nd n → Nd n) (g : Graph n) (a : Fin n) :
    (updateBy f g a).succs a = (f (g a)).succs := by
  simp [updateBy, Graph.succs]

@[simp] theorem preds_updateBy_self (f : Nd n → Nd n) (g : Graph n) (a : Fin n) :
    (updateBy f g a).preds a = (f (g a)).preds := by
  simp [updateBy, Graph.preds]

theorem succs_updateBy_of_ne (f : Nd n → Nd n) (g : Graph n) {a x : Fin n} (h : x ≠ a) :
    (updateBy f g a).succs x = g.succs x := by
  simp [updateBy, Graph.succs, Function.update_of_ne h]

theorem preds_updateBy_of_ne (f : Nd n → Nd n) (g : Graph n) {a x : Fin n} (h : x ≠ a) :
    (updateBy f g a).preds x = g.preds x := by
  simp [updateBy, Graph.preds, Function.update_of_ne h]

def setSuccs (g : Graph n) (a : Fin n) (l : List (Fin n)) : Graph n :=
  updateBy (fun nd => { nd with succs := l }) g a

def setPreds (g : Graph n) (a : Fin n) (l : List (Fin n)) : Graph n :=
  updateBy (fun nd => { nd with preds := l }) g a

theorem succs_setSuccs (g : Graph n) (a x : Fin n) (l : List (Fin n)) :
    (setSuccs g a l).succs x = if x = a then l else g.succs x := by
  by_cases h : x = a
  · rw [if_pos h, h]
    exact succs_updateBy_self _ g a
  · rw [if_neg h]
    exact succs_updateBy_of_ne _ g h

theorem preds_setPreds (g : Graph n) (a x : Fin n) (l : List (Fin n)) :
    (setPreds g a l).preds x = if x = a then l else g.preds x := by
  by_cases h : x = a
  · rw [if_pos h, h]
    exact preds_updateBy_self _ g a
  · rw [if_neg h]
    exact preds_updateBy_of_ne _ g h

@[simp] theorem preds_setSuccs (g : Graph n) (a x : Fin n) (l : List (Fin n)) :
    (setSuccs g a l).preds x = g.preds x := by
  by_cases h : x = a
  · rw [h]
    exact preds_updateBy_self _ g a
  · exact preds_updateBy_of_ne _ g h

@[simp] theorem succs_setPreds (g : Graph n) (a x : Fin n) (l : List (Fin n)) :
    (setPreds g a l).succs x = g.succs x := by
  by_cases h : x = a
  · rw [h]
    exact succs_updateBy_self _ g a
  · exact succs_updateBy_of_ne _ g h

/-! ### Building the graph -/

theorem addSucc_eq (id : Fin n) (r ids : List (Fin n)) :
    addSucc id r ids = if id ∈ r then none else some (id :: (r.reverse ++ ids)) := by
  induction r generalizing ids with
  | nil => simp [addSucc]
  | cons x r ih =>
    rw [addSucc, ih]
    by_cases hx : id = x
    · simp [hx]
    · by_cases hr : id ∈ r <;> simp [hx, hr]

theorem calls_eq {σ : Type} (f : Lvar → σ → Except Exn σ) {e : Cexp}
    (he : FirstOrder e = true) (s : σ) :
    calls f e s = (callees e).foldlM (fun s l => f l s) s := by
  refine Induction.term
    (P := fun e => ∀ s, calls f e s = (callees e).foldlM (fun s l => f l s) s)
    (Q := fun es => ∀ s, callsCases f es s = (casesCallees es).foldlM (fun s l => f l s) s)
    ?_ he s
  constructor
  case label =>
    intro l args s
    simp [calls]
  all_goals intros; simp_all [calls, callsCases, List.foldlM_append, pure, Except.pure]

/-- The functions that a function calls and that are not entries. -/
def Target (info : Info) (ls : List Lvar) (b : info.Id) : Prop :=
  info.isEntry b = false ∧ ∃ l ∈ ls, info.idOf l = .ok b

variable {info : Info}

/-- Entering `gId` as a predecessor of `b` goes with entering `b` as a successor of `gId`. -/
theorem Linked.addEdge {g : Graph n} {a b : Fin n} {l : List (Fin n)}
    (h : Linked (setSuccs g a l)) (hb : b ∉ l) {l' : List (Fin n)}
    (hl' : l'.Perm (b :: l)) :
    Linked (setSuccs (updateBy (fun nd => { nd with preds := a :: nd.preds }) g b) a l') := by
  have hnot : a ∉ g.preds b := by
    intro ha
    rw [← preds_setSuccs g a b l, h.linked, succs_setSuccs, if_pos rfl] at ha
    exact hb ha
  have hp : ∀ x, (updateBy (fun nd => { nd with preds := a :: nd.preds }) g b).preds x =
      if x = b then a :: g.preds b else g.preds x := fun x => by
    by_cases hx : x = b
    · rw [if_pos hx, hx]
      exact preds_updateBy_self _ g b
    · rw [if_neg hx]
      exact preds_updateBy_of_ne _ g hx
  have hs : ∀ x, (updateBy (fun nd => { nd with preds := a :: nd.preds }) g b).succs x =
      g.succs x := fun x => by
    by_cases hx : x = b
    · rw [hx]
      exact succs_updateBy_self _ g b
    · exact succs_updateBy_of_ne _ g hx
  refine ⟨fun x => ?_, fun x => ?_, fun x y => ?_⟩
  · have hx := h.succs_nodup x
    rw [succs_setSuccs] at hx ⊢
    by_cases hxa : x = a
    · rw [if_pos hxa] at hx ⊢
      exact hl'.nodup_iff.mpr (List.nodup_cons.mpr ⟨hb, hx⟩)
    · rw [if_neg hxa] at hx ⊢
      rwa [hs]
  · have hx := h.preds_nodup x
    rw [preds_setSuccs] at hx ⊢
    rw [hp]
    by_cases hxb : x = b
    · rw [if_pos hxb]
      exact List.nodup_cons.mpr ⟨hnot, hxb ▸ hx⟩
    · rwa [if_neg hxb]
  · have hxy := h.linked x y
    rw [preds_setSuccs, succs_setSuccs] at hxy ⊢
    rw [hp, hs]
    by_cases hxa : x = a
    · rw [if_pos hxa] at hxy ⊢
      rw [hl'.mem_iff, List.mem_cons]
      by_cases hyb : y = b
      · simp [hyb, hxa]
      · rw [if_neg hyb, hxy]
        simp [hyb]
    · rw [if_neg hxa] at hxy ⊢
      by_cases hyb : y = b
      · rw [if_pos hyb, List.mem_cons, ← hxy, hyb]
        simp [hxa]
      · rw [if_neg hyb, hxy]

theorem target_cons (l : Lvar) (ls : List Lvar) (b : info.Id) :
    Target info (l :: ls) b ↔
      (info.isEntry b = false ∧ info.idOf l = .ok b) ∨ Target info ls b := by
  simp [Target, or_and_right, exists_or, and_or_left]

/-- Adding the edges from a function, whose successors are entered only afterwards. -/
theorem foldlM_addEdge {gId : info.Id} {ls : List Lvar}
    (hls : ∀ l ∈ ls, ∃ b, info.idOf l = .ok b) {g : Graph info.funcs.length}
    (hg : Linked (setSuccs g gId [])) :
    ∃ g' nodes, ls.foldlM (fun s l => addEdge info gId l s) (g, []) = .ok (g', nodes) ∧
      Linked (setSuccs g' gId nodes) ∧ (∀ a, g'.succs a = g.succs a) ∧
      ∀ b, b ∈ nodes ↔ Target info ls b := by
  let I : List Lvar → Graph info.funcs.length × List info.Id → Prop := fun ls' s =>
    (∀ l ∈ ls', ∃ b, info.idOf l = .ok b) ∧ Linked (setSuccs s.1 gId s.2) ∧
      (∀ a, s.1.succs a = g.succs a) ∧ ∀ b, b ∈ s.2 ∨ Target info ls' b ↔ Target info ls b
  have hstep : ∀ l ls' s, I (l :: ls') s → ∃ s', addEdge info gId l s = .ok s' ∧ I ls' s' := by
    rintro l ls' ⟨g₁, nodes⟩ ⟨hok, hlink, hsuccs, hiff⟩
    obtain ⟨b, hb⟩ := hok l List.mem_cons_self
    have hok' : ∀ l ∈ ls', ∃ b, info.idOf l = .ok b := fun l hl =>
      hok l (List.mem_cons_of_mem _ hl)
    simp only [target_cons, hb, Except.ok.injEq] at hiff
    simp only [addEdge, hb, ok_bind, addSucc_eq]
    by_cases he : info.isEntry b = true
    · -- edges to entries are left out
      rw [if_pos he]
      refine ⟨_, rfl, hok', hlink, hsuccs, fun c => ?_⟩
      rw [← hiff]
      have hne : ¬(info.isEntry c = false ∧ b = c) := by
        rintro ⟨hc, rfl⟩
        rw [he] at hc
        cases hc
      simp [hne]
    · rw [if_neg he]
      by_cases hm : b ∈ nodes
      · -- the edge is there
        rw [if_pos hm]
        refine ⟨_, rfl, hok', hlink, hsuccs, fun c => ?_⟩
        rw [← hiff]
        constructor
        · exact fun h => h.imp id .inr
        · rintro (h | ⟨-, rfl⟩ | h)
          · exact .inl h
          · exact .inl hm
          · exact .inr h
      · rw [if_neg hm]
        refine ⟨_, rfl, hok', hlink.addEdge hm (by simp), fun a => ?_, fun c => ?_⟩
        · rw [← hsuccs a]
          by_cases hab : a = b
          · rw [hab]
            exact succs_updateBy_self _ g₁ b
          · exact succs_updateBy_of_ne _ g₁ hab
        · rw [← hiff]
          have he' : info.isEntry b = false := by simpa using he
          simp only [List.append_nil, List.mem_cons, List.mem_reverse]
          constructor
          · rintro ((rfl | h) | h)
            · exact .inr (.inl ⟨he', rfl⟩)
            · exact .inl h
            · exact .inr (.inr h)
          · rintro (h | ⟨-, rfl⟩ | h)
            · exact .inl (.inr h)
            · exact .inl (.inl rfl)
            · exact .inr h
  have hstart : I ls (g, []) := ⟨hls, hg, fun _ => rfl, fun b => by simp⟩
  obtain ⟨⟨g', nodes⟩, hf, -, hlink, hsuccs, hiff⟩ := foldlM_ok I hstep hstart
  exact ⟨g', nodes, hf, hlink, hsuccs, fun b => by rw [← hiff]; simp [Target]⟩

theorem linked_emptyGraph : Linked (emptyGraph : Graph n) :=
  ⟨fun _ => List.nodup_nil, fun _ => List.nodup_nil, fun _ _ =>
    ⟨fun h => absurd h List.not_mem_nil, fun h => absurd h List.not_mem_nil⟩⟩

/-- The functions of a cluster are first-order and jump to each other. -/
structure Info.Ok (info : Info) : Prop where
  firstOrder : ∀ a, FirstOrder (info.funcOf a).body = true
  closed : ∀ a, ∀ l ∈ callees (info.funcOf a).body, ∃ b, info.idOf l = .ok b

/-- **The call graph**: its edges are the direct calls of functions that are not entries. -/
theorem callGraph_spec (h : info.Ok) :
    ∃ g, callGraph info = .ok g ∧ Linked g ∧
      ∀ a b, b ∈ g.succs a ↔ Target info (callees (info.funcOf a).body) b := by
  let I : List info.Id → Graph info.funcs.length → Prop := fun ids g =>
    ids.Nodup ∧ Linked g ∧ (∀ a ∈ ids, g.succs a = []) ∧
      ∀ a ∉ ids, ∀ b, b ∈ g.succs a ↔ Target info (callees (info.funcOf a).body) b
  have hstep : ∀ a ids g, I (a :: ids) g → ∃ g', addEdges info g a = .ok g' ∧ I ids g' := by
    rintro a ids g ⟨hnd, hlink, hnil, hdone⟩
    obtain ⟨ha, hnd⟩ := List.nodup_cons.mp hnd
    have hg : Linked (setSuccs g a []) := by
      have hself : setSuccs g a [] = g := by
        funext x
        have h1 : (setSuccs g a [] x).preds = (g x).preds := preds_setSuccs g a x []
        have h2 : (setSuccs g a [] x).succs = (g x).succs := by
          refine (succs_setSuccs g a x []).trans ?_
          split
          · next hx => rw [hx]; exact (hnil a List.mem_cons_self).symm
          · rfl
        cases hs : setSuccs g a [] x
        cases hx : g x
        simp_all
      rwa [hself]
    obtain ⟨g', nodes, hf, hlink', hsuccs, hiff⟩ := foldlM_addEdge (h.closed a) hg
    refine ⟨setSuccs g' a nodes, ?_, hnd, hlink', fun x hx => ?_, fun x hx b => ?_⟩
    · unfold addEdges
      rw [calls_eq _ (h.firstOrder a), hf]
      rfl
    · have hxa : x ≠ a := fun he => ha (he ▸ hx)
      rw [succs_setSuccs, if_neg hxa, hsuccs]
      exact hnil x (List.mem_cons_of_mem _ hx)
    · rw [succs_setSuccs]
      by_cases hxa : x = a
      · rw [if_pos hxa, hiff, hxa]
      · rw [if_neg hxa, hsuccs]
        exact hdone x (by simp [hxa, hx]) b
  have hstart : I (List.finRange info.funcs.length) emptyGraph :=
    ⟨List.nodup_finRange _, linked_emptyGraph, fun _ _ => rfl,
      fun a ha => absurd (List.mem_finRange a) ha⟩
  obtain ⟨g, hg, -, hlink, -, hdone⟩ := foldlM_ok I hstep hstart
  exact ⟨g, hg, hlink, fun a => hdone a List.not_mem_nil⟩

/-! ### Removing edges -/

theorem rmv_eq {a : Fin n} {l : List (Fin n)} (h : a ∈ l) : rmv a l = .ok (l.erase a) := by
  induction l with
  | nil => cases h
  | cons b l ih =>
    rw [rmv]
    by_cases hb : b = a
    · rw [if_pos hb, hb, List.erase_cons_head]
    · have hl : a ∈ l := (List.mem_cons.mp h).resolve_left fun he => hb he.symm
      rw [if_neg hb, ih hl, List.erase_cons_tail (by simpa using hb)]
      rfl

/-- Removing an edge that is there. -/
theorem removeEdge_spec {g : Graph n} (hg : Linked g) {a b : Fin n} (h : b ∈ g.succs a) :
    ∃ g', removeEdge g a b = .ok g' ∧ Linked g' ∧
      ∀ x y, y ∈ g'.succs x ↔ y ∈ g.succs x ∧ ¬(x = a ∧ y = b) := by
  let g₁ := setSuccs g a ((g.succs a).erase b)
  let g₂ := setPreds g₁ b ((g₁.preds b).erase a)
  have hpb : g₁.preds b = g.preds b := preds_setSuccs ..
  have hs : ∀ x, g₂.succs x = if x = a then (g.succs a).erase b else g.succs x := fun x =>
    (succs_setPreds ..).trans (succs_setSuccs ..)
  have hp : ∀ y, g₂.preds y = if y = b then (g.preds b).erase a else g.preds y := fun y => by
    refine (preds_setPreds ..).trans ?_
    rw [hpb]
    exact congrArg (ite _ _) (preds_setSuccs ..)
  have hmem : ∀ x y, y ∈ g₂.succs x ↔ y ∈ g.succs x ∧ ¬(x = a ∧ y = b) := fun x y => by
    rw [hs]
    by_cases hx : x = a
    · rw [if_pos hx, hx, (hg.succs_nodup a).mem_erase_iff]
      simp [and_comm]
    · rw [if_neg hx]
      simp [hx]
  refine ⟨g₂, ?_, ⟨fun x => ?_, fun y => ?_, fun x y => ?_⟩, hmem⟩
  · have ha : a ∈ g₁.preds b := hpb ▸ (hg.linked a b).mpr h
    unfold removeEdge
    rw [rmv_eq h]
    show (rmv a (g₁.preds b) >>= _) = _
    rw [rmv_eq ha]
    rfl
  · rw [hs]
    split
    · exact (hg.succs_nodup a).erase b
    · exact hg.succs_nodup x
  · rw [hp]
    split
    · exact (hg.preds_nodup b).erase a
    · exact hg.preds_nodup y
  · rw [hmem, hp, ← hg.linked]
    by_cases hy : y = b
    · rw [if_pos hy, hy, (hg.preds_nodup b).mem_erase_iff]
      simp [and_comm]
    · rw [if_neg hy]
      simp [hy]

/-- **The edges left**, of those of the whole graph, after some nodes were made entries. -/
structure Cut (base : Graph n) (s : Split n) : Prop where
  linked : Linked s.graph
  succs : ∀ a b, b ∈ s.graph.succs a ↔ b ∈ base.succs a ∧ b ∉ s.newEntries

/-- **Making a node an entry.** -/
theorem newEntry_spec {base : Graph n} {s : Split n} (h : Cut base s) (id : Fin n) :
    ∃ s', newEntry s id = .ok s' ∧ Cut base s' ∧ s'.newEntries = insert id s.newEntries := by
  let I : List (Fin n) → Graph n → Prop := fun ids g =>
    ids.Nodup ∧ Linked g ∧ (∀ a, a ∈ ids ↔ id ∈ g.succs a) ∧
      ∀ a b, b ≠ id → (b ∈ g.succs a ↔ b ∈ s.graph.succs a)
  have hstep : ∀ a ids g, I (a :: ids) g → ∃ g', removeEdge g a id = .ok g' ∧ I ids g' := by
    rintro a ids g ⟨hnd, hlink, hids, hother⟩
    obtain ⟨ha, hnd⟩ := List.nodup_cons.mp hnd
    obtain ⟨g', hg', hlink', hmem⟩ := removeEdge_spec hlink ((hids a).mp List.mem_cons_self)
    refine ⟨g', hg', hnd, hlink', fun x => ?_, fun x y hy => ?_⟩
    · rw [hmem, ← hids, List.mem_cons]
      constructor
      · exact fun hx => ⟨.inr hx, fun hxa => ha (hxa.1 ▸ hx)⟩
      · rintro ⟨hx, hxa⟩
        exact hx.resolve_left fun he => hxa ⟨he, rfl⟩
    · rw [hmem, hother x y hy]
      simp [hy]
  have hstart : I (s.graph.preds id) s.graph :=
    ⟨h.linked.preds_nodup id, h.linked, fun a => h.linked.linked a id, fun _ _ _ => Iff.rfl⟩
  obtain ⟨g', hg', -, hlink, hids, hother⟩ := foldlM_ok I hstep hstart
  refine ⟨⟨insert id s.newEntries, g'⟩, ?_, ⟨hlink, fun a b => ?_⟩, rfl⟩
  · unfold newEntry
    rw [hg']
    rfl
  · by_cases hb : b = id
    · have hno : id ∉ g'.succs a := fun hm => absurd ((hids a).mpr hm) List.not_mem_nil
      simp [hb, hno]
    · show b ∈ g'.succs a ↔ _
      rw [hother a b hb, h.succs]
      simp [hb]

end SmlNj.NormalizeCluster
