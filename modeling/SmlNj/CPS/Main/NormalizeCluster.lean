import SmlNj.Basics.LambdaVar
import SmlNj.Lib.DepthFirst

/-!
# Cluster normalization

A cluster is a list of first-order functions that jump to each other.  The pass
splits a cluster with several entry functions: the fragments that only one entry
reaches stay with it, and a fragment at which the parts of two entries meet
becomes the entry of a new cluster.  A new entry that is jumped to from its own
cluster is replaced by a header that jumps to it.

Inside a cluster functions are numbered in order, entries first.  A signature, a
bit vector in the source, is the set of its members.  The supply of variables is
the next number to be used.

## Main definitions

* `callGraph` — the jumps between the functions of a cluster.
* `splitCluster` — the division into clusters with one entry.
* `checkForHeader` — the introduction of a header.
* `transform` — the pass.
-/

namespace SmlNj.NormalizeCluster

open CPS

abbrev Cluster := List Function

/-! ### Cluster info -/

/-- The functions of a cluster by their numbers, of which the first `nEntries` are entries. -/
structure Info where
  funcs : List Function
  nEntries : ℕ

namespace Info

abbrev Id (info : Info) := Fin info.funcs.length

variable (info : Info)

def isEntry (id : info.Id) : Bool := id.val < info.nEntries

def funcOf (id : info.Id) : Function := info.funcs.get id

/-- The number of the function with a name; of several, the last one was entered last. -/
def idOf (l : Lvar) : Except Exn info.Id :=
  match (List.finRange info.funcs.length).reverse.find? fun id => (info.funcOf id).name == l with
  | some id => .ok id
  | none => .error .fail

end Info

/-- A node of the call graph. -/
structure Nd (n : ℕ) where
  preds : List (Fin n)
  succs : List (Fin n)

abbrev Graph (n : ℕ) := Fin n → Nd n

variable {n : ℕ}

def emptyGraph : Graph n := fun _ => ⟨[], []⟩

def Graph.preds (g : Graph n) (id : Fin n) : List (Fin n) := (g id).preds

def Graph.succs (g : Graph n) (id : Fin n) : List (Fin n) := (g id).succs

def updateBy (f : Nd n → Nd n) (g : Graph n) (id : Fin n) : Graph n :=
  Function.update g id (f (g id))

/-- Add `id` to a list of successors, unless it is there. -/
def addSucc (id : Fin n) : List (Fin n) → List (Fin n) → Option (List (Fin n))
  | [], ids => some (id :: ids)
  | id' :: r, ids => if id ≠ id' then addSucc id r (id' :: ids) else none

/-- Add an edge from `gId`, whose successors so far are `succs`, to the function `f`; edges to
entries are left out. -/
def addEdge (info : Info) (gId : info.Id) (f : Lvar)
    (s : Graph info.funcs.length × List info.Id) :
    Except Exn (Graph info.funcs.length × List info.Id) := do
  let (graph, succs) := s
  let id ← info.idOf f
  if info.isEntry id then .ok (graph, succs)
  else
    match addSucc id succs [] with
    | some ids => .ok (updateBy (fun nd => { nd with preds := gId :: nd.preds }) graph id, ids)
    | none => .ok (graph, succs)

mutual

/-- Run over the direct calls of a term. -/
@[grind =] def calls {σ : Type} (addEdge : Lvar → σ → Except Exn σ) : Cexp → σ → Except Exn σ
  | .app (.label l) _, s => addEdge l s
  | .app _ _, s => .ok s
  | .record _ _ _ e, s | .select _ _ _ _ e, s | .offset _ _ _ e, s => calls addEdge e s
  | .switch _ _ es, s => callsCases addEdge es s
  | .branch _ _ _ e1 e2, s => do
      let s ← calls addEdge e1 s
      calls addEdge e2 s
  | .setter _ _ e, s | .looker _ _ _ _ e, s | .arith _ _ _ _ e, s | .pure _ _ _ _ e, s
  | .rcc _ _ _ _ _ e, s => calls addEdge e s
  | .fix _ _, _ => .error .impossible

/-- Run over the direct calls of the cases of a `SWITCH`. -/
def callsCases {σ : Type} (addEdge : Lvar → σ → Except Exn σ) : List Cexp → σ → Except Exn σ
  | [], s => .ok s
  | e :: es, s => do
      let s ← calls addEdge e s
      callsCases addEdge es s

end

def addEdges (info : Info) (graph : Graph info.funcs.length) (gId : info.Id) :
    Except Exn (Graph info.funcs.length) := do
  let (graph, nodes) ← calls (addEdge info gId) (info.funcOf gId).body (graph, [])
  .ok (updateBy (fun nd => { nd with succs := nodes }) graph gId)

/-- **The call graph of a cluster**, without edges to entries. -/
def callGraph (info : Info) : Except Exn (Graph info.funcs.length) :=
  (List.finRange info.funcs.length).foldlM (addEdges info) emptyGraph

def rmv (id : Fin n) : List (Fin n) → Except Exn (List (Fin n))
  | [] => .error .impossible
  | id' :: ids => if id' = id then .ok ids else (rmv id ids).map fun ids => id' :: ids

/-- Remove the edge from `fId` to `gId`. -/
def removeEdge (graph : Graph n) (fId gId : Fin n) : Except Exn (Graph n) := do
  let succs ← rmv gId (graph.succs fId)
  let graph := updateBy (fun nd => { nd with succs := succs }) graph fId
  let preds ← rmv fId (graph.preds gId)
  .ok (updateBy (fun nd => { nd with preds := preds }) graph gId)

/-! ### Splitting -/

/-- The new entries, and the graph of the edges that are left. -/
structure Split (n : ℕ) where
  newEntries : Finset (Fin n)
  graph : Graph n

def newEntry (s : Split n) (id : Fin n) : Except Exn (Split n) := do
  let graph ← (s.graph.preds id).foldlM (fun graph id' => removeEdge graph id' id) s.graph
  .ok ⟨insert id s.newEntries, graph⟩

/-- The signatures: for each node, the entries from which it is reachable. -/
abbrev Sigs (n : ℕ) := Fin n → Finset (Fin n)

/-- Add an entry to the signatures of the nodes that are visited from it. -/
def dfsSig (graph : Graph n) (idToSig : Sigs n) (entryId : Fin n) : Sigs n :=
  (DepthFirst.dfs graph.succs [entryId] []).reverse.foldl
    (fun idToSig id => Function.update idToSig id (insert entryId (idToSig id))) idToSig

/-- The state of a walk from an entry: the nodes visited, and the fragments found. -/
structure Walk (n : ℕ) where
  visited : Finset (Fin n)
  frags : List (Fin n)
  split : Split n

/-- **The walk over the fragments that only one entry reaches**, from the nodes that are still to
be visited.  Other nodes that are met become new entries. -/
def walk (entrySig : Finset (Fin n)) (idToSig : Sigs n) : List (Fin n) → Walk n →
    Except Exn (Walk n)
  | [], s => .ok s
  | id :: ids, s =>
      if id ∈ s.visited then walk entrySig idToSig ids s
      else if entrySig = idToSig id then
        walk entrySig idToSig (s.split.graph.succs id ++ ids)
          { s with visited := insert id s.visited, frags := id :: s.frags }
      else do
        let split ← newEntry s.split id
        walk entrySig idToSig ids ⟨insert id s.visited, s.frags, split⟩
termination_by ids s => (s.visitedᶜ.card, ids.length)
decreasing_by
  · exact Prod.Lex.right _ (Nat.lt_succ_self _)
  · exact Prod.Lex.left _ _ (DepthFirst.card_compl_insert_lt ‹_›)
  · exact Prod.Lex.left _ _ (DepthFirst.card_compl_insert_lt ‹_›)

/-- The cluster of an entry. -/
def newCluster (idToSig : Sigs n) (s : Split n) (entryId : Fin n) :
    Except Exn ((Fin n × List (Fin n)) × Split n) := do
  let entrySig := {entryId}
  if entrySig = idToSig entryId then do
    let w ← walk entrySig idToSig (s.graph.succs entryId) ⟨entrySig, [], s⟩
    .ok ((entryId, w.frags.reverse), w.split)
  else do
    let s ← (s.graph.succs entryId).foldlM newEntry s
    .ok ((entryId, []), s)

/-- The clusters of several entries, one after the other. -/
def newClusters (idToSig : Sigs n) : List (Fin n) → Split n →
    Except Exn (List (Fin n × List (Fin n)) × Split n)
  | [], s => .ok ([], s)
  | entryId :: entryIds, s => do
      let (c, s) ← newCluster idToSig s entryId
      let (cs, s) ← newClusters idToSig entryIds s
      .ok (c :: cs, s)

def unassigned (fragIds : List (Fin n)) (cs : List (Fin n × List (Fin n))) : Finset (Fin n) :=
  cs.foldl (fun s c => s \ c.2.toFinset) fragIds.toFinset

theorem unassigned_subset (fragIds : List (Fin n)) (cs : List (Fin n × List (Fin n))) :
    unassigned fragIds cs ⊆ fragIds.toFinset := by
  unfold unassigned
  generalize fragIds.toFinset = s
  induction cs generalizing s with
  | nil => exact Finset.Subset.refl s
  | cons c cs ih => exact (ih _).trans Finset.sdiff_subset

theorem split_decreases {entryIds fragIds frags' : List (Fin n)}
    {cs : List (Fin n × List (Fin n))} (ne : Finset (Fin n)) (he : entryIds ≠ [])
    (h : (unassigned fragIds cs).sort (· ≤ ·) = frags') :
    Prod.Lex (· < ·) (· < ·)
      ((frags'.filter (· ∉ ne)).toFinset.card, if frags'.filter (· ∈ ne) = [] then 0 else 1)
      (fragIds.toFinset.card, if entryIds = [] then 0 else 1) := by
  have hsub : frags'.toFinset ⊆ fragIds.toFinset := by
    rw [← h, Finset.sort_toFinset]
    exact unassigned_subset fragIds cs
  rw [List.toFinset_filter, if_neg he]
  by_cases hnil : frags'.filter (· ∈ ne) = []
  · rw [if_pos hnil]
    have hle := Finset.card_le_card ((Finset.filter_subset (· ∉ ne) _).trans hsub)
    rcases hle.lt_or_eq with hlt | heq
    · exact Prod.Lex.left _ _ (by simpa using hlt)
    · exact Prod.Lex.right' _ (by simpa using heq.le) Nat.one_pos
  · refine Prod.Lex.left _ _ (lt_of_lt_of_le ?_ (Finset.card_le_card hsub))
    obtain ⟨x, hx⟩ := List.exists_mem_of_ne_nil _ hnil
    obtain ⟨hx, hne⟩ := List.mem_filter.mp hx
    refine Finset.card_lt_card (Finset.filter_ssubset.mpr ⟨x, List.mem_toFinset.mpr hx, ?_⟩)
    simpa using hne

def signatures (graph : Graph n) (entryIds : List (Fin n)) : Sigs n :=
  entryIds.foldl (dfsSig graph) fun _ => ∅

/-- **Split a cluster**, whose entries and other functions are given, until everything is
assigned to an entry. -/
def split (entryIds fragIds : List (Fin n)) (s : Split n) :
    Except Exn (List (Fin n × List (Fin n)) × Split n) :=
  if entryIds = [] then .error .impossible
  else do
    let (clusters, s) ← newClusters (signatures s.graph entryIds) entryIds s
    match _h : (unassigned fragIds clusters).sort (· ≤ ·) with
    | [] => .ok (clusters, s)
    | frags' => do
        let (clusters', s) ← split (frags'.filter (· ∈ s.newEntries))
          (frags'.filter (· ∉ s.newEntries)) s
        .ok (clusters ++ clusters', s)
termination_by (fragIds.toFinset.card, if entryIds = [] then 0 else 1)
decreasing_by exact split_decreases _ ‹_› _h

/-- Split a cluster; its entries and other functions have consecutive numbers. -/
def splitCluster (info : Info) (graph : Graph info.funcs.length) :
    Except Exn (List (info.Id × List info.Id) × Split info.funcs.length) :=
  split ((List.finRange info.funcs.length).filter info.isEntry)
    ((List.finRange info.funcs.length).filter fun id => !info.isEntry id) ⟨∅, graph⟩

/-! ### Headers -/

mutual

/-- Does a term jump to the entry? -/
@[grind =] def hasBackEdge (entryLab : Lvar) : Cexp → Except Exn Bool
  | .app (.label l) _ => .ok (l == entryLab)
  | .app _ _ => .ok false
  | .record _ _ _ e | .select _ _ _ _ e | .offset _ _ _ e => hasBackEdge entryLab e
  | .switch _ _ es => hasBackEdgeCases entryLab es
  | .branch _ _ _ e1 e2 => do
      if ← hasBackEdge entryLab e1 then .ok true else hasBackEdge entryLab e2
  | .setter _ _ e | .looker _ _ _ _ e | .arith _ _ _ _ e | .pure _ _ _ _ e
  | .rcc _ _ _ _ _ e => hasBackEdge entryLab e
  | .fix _ _ => .error .impossible

def hasBackEdgeCases (entryLab : Lvar) : List Cexp → Except Exn Bool
  | [] => .ok false
  | e :: es => do
      if ← hasBackEdge entryLab e then .ok true else hasBackEdgeCases entryLab es

end

mutual

/-- Rewrite jumps to `entryLab` to jumps to `hdrLab`. -/
@[grind =] def rewrite (entryLab hdrLab : Lvar) : Cexp → Except Exn Cexp
  | .app (.label l) args =>
      if l = entryLab then .ok (.app (.label hdrLab) args) else .ok (.app (.label l) args)
  | .app f args => .ok (.app f args)
  | .record rk args lv e => do .ok (.record rk args lv (← rewrite entryLab hdrLab e))
  | .select i v lv ty e => do .ok (.select i v lv ty (← rewrite entryLab hdrLab e))
  | .offset i v lv e => do .ok (.offset i v lv (← rewrite entryLab hdrLab e))
  | .switch v id es => do .ok (.switch v id (← rewriteCases entryLab hdrLab es))
  | .branch p vs id e1 e2 => do
      let e1 ← rewrite entryLab hdrLab e1
      let e2 ← rewrite entryLab hdrLab e2
      .ok (.branch p vs id e1 e2)
  | .setter p vs e => do .ok (.setter p vs (← rewrite entryLab hdrLab e))
  | .looker p vs lv ty e => do .ok (.looker p vs lv ty (← rewrite entryLab hdrLab e))
  | .arith p vs lv ty e => do .ok (.arith p vs lv ty (← rewrite entryLab hdrLab e))
  | .pure p vs lv ty e => do .ok (.pure p vs lv ty (← rewrite entryLab hdrLab e))
  | .rcc b cc proto vs lvs e => do .ok (.rcc b cc proto vs lvs (← rewrite entryLab hdrLab e))
  | .fix _ _ => .error .impossible

/-- Rewrite the jumps of the cases of a `SWITCH`. -/
def rewriteCases (entryLab hdrLab : Lvar) : List Cexp → Except Exn (List Cexp)
  | [] => .ok []
  | e :: es => do
      let e ← rewrite entryLab hdrLab e
      let es ← rewriteCases entryLab hdrLab es
      .ok (e :: es)

end

def rewriteFunction (entryLab hdrLab : Lvar) : Function → Except Exn Function
  | .mk fk lab xs tys e => do .ok (.mk fk lab xs tys (← rewrite entryLab hdrLab e))

/-- **The introduction of a header**: if there is a jump to the entry from its own cluster, the
entry becomes a function that jumps to a new one, and the jumps of the cluster go there. -/
def checkForHeader (next : Lvar) (entry : Function) (frags : List Function) :
    Except Exn (Cluster × Lvar) := do
  let .mk fk entryLab params tys body := entry
  let back ← hasBackEdge entryLab body
  let back ← if back then .ok true else frags.anyM fun f => hasBackEdge entryLab f.body
  if back then do
    let hdrLab := next
    let params' := (List.range params.length).map (next + 1 + ·)
    let entry' := .mk fk entryLab params' tys (.app (.label hdrLab) (params'.map .var))
    let frags' ← frags.mapM (rewriteFunction entryLab hdrLab)
    let body ← rewrite entryLab hdrLab body
    .ok (entry' :: .mk .known hdrLab params tys body :: frags', next + 1 + params.length)
  else .ok (entry :: frags, next)

/-- Introduce the headers of the clusters with new entries. -/
def doClusters (info : Info) (newEntries : Finset info.Id) :
    Lvar → List (info.Id × List info.Id) → Except Exn (List Cluster × Lvar)
  | next, [] => .ok ([], next)
  | next, (entryId, fragIds) :: cs => do
      let entry := info.funcOf entryId
      let frags := fragIds.map info.funcOf
      let id ← info.idOf entry.name
      let (c, next) ← if id ∈ newEntries then checkForHeader next entry frags
        else .ok (entry :: frags, next)
      let (cs, next) ← doClusters info newEntries next cs
      .ok (c :: cs, next)

/-- Normalize a cluster with several entries. -/
def normalize (next : Lvar) (entries frags : List Function) :
    Except Exn (List Cluster × Lvar) := do
  let info : Info := ⟨entries ++ frags, entries.length⟩
  let graph ← callGraph info
  let (clusters, s) ← splitCluster info graph
  doClusters info s.newEntries next clusters

def isEscaping (f : Function) : Bool :=
  match f.kind with
  | .cont | .escape => true
  | _ => false

def transformOne (next : Lvar) (cluster : Cluster) : Except Exn (List Cluster × Lvar) :=
  match cluster with
  | [frag] => .ok ([[frag]], next)
  | cluster =>
      match cluster.partition isEscaping with
      | ([], _) => .error .impossible
      | ([entry], frags) => .ok ([entry :: frags], next)
      | (ents, frags) => normalize next ents frags

/-- **Normalize clusters**, the last one first. -/
def transform (next : Lvar) : List Cluster → Except Exn (List Cluster × Lvar)
  | [] => .ok ([], next)
  | cluster :: clusters => do
      let (cs, next) ← transform next clusters
      let (c, next) ← transformOne next cluster
      .ok (c ++ cs, next)

end SmlNj.NormalizeCluster
