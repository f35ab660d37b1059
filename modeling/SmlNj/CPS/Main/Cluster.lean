import SmlNj.CPS.Main.ClusterGraph
import SmlNj.Lib.UnionFind

/-!
# Clustering

The functions of a first-order program are grouped into clusters: a function and the functions that
it calls directly belong together.  A work list finds the functions that are reachable from an entry,
while their direct calls are entered into a union-find structure on the numbers of the functions.

## Main definitions

* `build` — the work list.
* `extract` — the clusters, in the order of their least functions.
* `cluster` — the pass.
* `Reachable`, `Connected` — what it computes, in terms of the direct calls of the program.

## Main results

* `build_spec` — the work list finds the reachable functions, and connects them.
* `cluster_correct` — the clusters are the connected parts of the reachable program.
-/

namespace SmlNj.Cluster

open CPS UnionFind UnionFind.Forest ExceptList

def isEntry : Function → Bool
  | .mk .cont .. => true
  | .mk .escape .. => true
  | _ => false

/-- The sets of functions, and the functions that have been added to the work list. -/
structure State (n : ℕ) where
  trees : Forest n
  visitMarks : Finset (Fin n)

section Build

variable (funcs : List Function)

/-- The number of the function with a name; of several, the last one was entered last. -/
def lookup (l : Lvar) : Except Exn (Fin funcs.length) :=
  match (List.finRange funcs.length).reverse.find? fun id => (funcs.get id).name == l with
  | some id => .ok id
  | none => .error .fail

def initialWL : List Function := funcs.filter isEntry

def initialState : State funcs.length where
  trees := .discrete funcs.length
  visitMarks := Finset.univ.filter fun id => isEntry (funcs.get id)

/-- A direct call from the function `fId`. -/
def call (fId : Fin funcs.length) (l : Lvar) :
    State funcs.length × List Function → Except Exn (State funcs.length × List Function)
  | (s, wl) => do
    let lId ← lookup funcs l
    let s := { s with trees := s.trees.union fId lId }
    if lId ∈ s.visitMarks then .ok (s, wl)
    else .ok ({ s with visitMarks := insert lId s.visitMarks }, funcs.get lId :: wl)

/-- Run over the direct calls of a term in the function `fId`. -/
def calls (fId : Fin funcs.length) :
    Cexp → State funcs.length × List Function → Except Exn (State funcs.length × List Function) :=
  NormalizeCluster.calls (call funcs fId)

/-- What is left to do: functions to be visited, and functions on the work list. -/
def left (s : State funcs.length × List Function) : ℕ := s.1.visitMarksᶜ.card + s.2.length

end Build

mutual

theorem calls_invariant {σ : Type} {f : Lvar → σ → Except Exn σ} {P : σ → Prop}
    (hf : ∀ l s s', f l s = .ok s' → P s → P s') :
    ∀ (e : Cexp) (s s' : σ), NormalizeCluster.calls f e s = .ok s' → P s → P s'
  | .app (.label l) _, s, s', h, hs => hf l s s' (by simpa [NormalizeCluster.calls] using h) hs
  | .app (.var _) _, s, s', h, hs | .app (.num _) _, s, s', h, hs
  | .app (.enum _) _, s, s', h, hs | .app (.real _) _, s, s', h, hs
  | .app (.string _) _, s, s', h, hs | .app .void _, s, s', h, hs => by
    obtain rfl : s = s' := by simpa [NormalizeCluster.calls] using h
    exact hs
  | .record _ _ _ e, s, s', h, hs | .select _ _ _ _ e, s, s', h, hs
  | .offset _ _ _ e, s, s', h, hs | .setter _ _ e, s, s', h, hs
  | .looker _ _ _ _ e, s, s', h, hs | .arith _ _ _ _ e, s, s', h, hs
  | .pure _ _ _ _ e, s, s', h, hs | .rcc _ _ _ _ _ e, s, s', h, hs =>
    calls_invariant hf e s s' (by simpa [NormalizeCluster.calls] using h) hs
  | .switch _ _ es, s, s', h, hs =>
    callsCases_invariant hf es s s' (by simpa [NormalizeCluster.calls] using h) hs
  | .branch _ _ _ e1 e2, s, s', h, hs => by
    rw [NormalizeCluster.calls] at h
    obtain ⟨s₁, h₁, h₂⟩ := bind_eq_ok.mp h
    exact calls_invariant hf e2 s₁ s' h₂ (calls_invariant hf e1 s s₁ h₁ hs)
  | .fix _ _, s, s', h, _ => by simp [NormalizeCluster.calls] at h

theorem callsCases_invariant {σ : Type} {f : Lvar → σ → Except Exn σ} {P : σ → Prop}
    (hf : ∀ l s s', f l s = .ok s' → P s → P s') :
    ∀ (es : List Cexp) (s s' : σ), NormalizeCluster.callsCases f es s = .ok s' → P s → P s'
  | [], s, s', h, hs => by
    obtain rfl : s = s' := by simpa [NormalizeCluster.callsCases] using h
    exact hs
  | e :: es, s, s', h, hs => by
    rw [NormalizeCluster.callsCases] at h
    obtain ⟨s₁, h₁, h₂⟩ := bind_eq_ok.mp h
    exact callsCases_invariant hf es s₁ s' h₂ (calls_invariant hf e s s₁ h₁ hs)

end

section Build

variable {funcs : List Function}

theorem call_eq {fId lId : Fin funcs.length} {l : Lvar} (h : lookup funcs l = .ok lId)
    (s : State funcs.length) (wl : List Function) :
    call funcs fId l (s, wl) = .ok (if lId ∈ s.visitMarks then
      (⟨s.trees.union fId lId, s.visitMarks⟩, wl)
    else (⟨s.trees.union fId lId, insert lId s.visitMarks⟩, funcs.get lId :: wl)) := by
  unfold call
  simp only [h, ok_bind]
  split_ifs <;> rfl

theorem left_call {fId : Fin funcs.length} {l : Lvar} {s s' : State funcs.length × List Function}
    (h : call funcs fId l s = .ok s') : left funcs s' ≤ left funcs s := by
  obtain ⟨lId, hl⟩ : ∃ lId, lookup funcs l = .ok lId := by
    obtain ⟨lId, hl, -⟩ := bind_eq_ok.mp h
    exact ⟨lId, hl⟩
  rw [call_eq hl] at h
  cases h
  split_ifs with hm
  · exact le_refl _
  · have hcard := DepthFirst.card_compl_insert_lt hm
    simp only [left, List.length_cons]
    omega

theorem left_calls {fId : Fin funcs.length} {e : Cexp}
    {s s' : State funcs.length × List Function} (h : calls funcs fId e s = .ok s') :
    left funcs s' ≤ left funcs s :=
  calls_invariant (P := fun s' => left funcs s' ≤ left funcs s)
    (fun _ _ _ hc hs => (left_call hc).trans hs) e s s' h le_rfl

variable (funcs) in
/-- **The work list.** -/
def build (wl : List Function) (s : State funcs.length) : Except Exn (State funcs.length) :=
  match wl with
  | [] => .ok s
  | f :: rest =>
    match lookup funcs f.name with
    | .error e => .error e
    | .ok fId =>
      match _h : calls funcs fId f.body (s, rest) with
      | .error e => .error e
      | .ok (s', wl') => build wl' s'
termination_by left funcs (s, wl)
decreasing_by exact Nat.lt_succ_of_le (left_calls _h)

theorem build_nil (s : State funcs.length) : build funcs [] s = .ok s := by
  rw [build]

theorem build_cons {f : Function} {rest wl : List Function} {s s' : State funcs.length}
    {fId : Fin funcs.length} (hf : lookup funcs f.name = .ok fId)
    (hc : calls funcs fId f.body (s, rest) = .ok (s', wl)) :
    build funcs (f :: rest) s = build funcs wl s' := by
  rw [build]
  simp only [hf]
  split
  · next e he =>
    rw [hc] at he
    cases he
  · next s₁ wl₁ he =>
    rw [hc] at he
    cases he
    rfl

end Build

section Extract

variable (funcs : List Function)

/-- Group the visited functions by their roots, from the last one to the first. -/
def collect (s : State funcs.length) : Fin funcs.length → List Function :=
  (List.finRange funcs.length).foldr (fun id clusters =>
    if id ∈ s.visitMarks then
      Function.update clusters (s.trees.ascend id)
        (funcs.get id :: clusters (s.trees.ascend id))
    else clusters) fun _ => []

/-- The groups that are not empty. -/
def finish (clusters : Fin funcs.length → List Function) : List (List Function) :=
  (List.finRange funcs.length).foldr (fun id acc =>
    match clusters id with
    | [] => acc
    | cl => cl :: acc) []

/-- **The clusters**, in the order of their least functions. -/
def extract (s : State funcs.length) : List (List Function) := finish funcs (collect funcs s)

end Extract

/-- **Clustering.** -/
def cluster : List Function → Except Exn (List (List Function))
  | [] => .error .empty
  | funcs => do
    let s ← build funcs (initialWL funcs) (initialState funcs)
    .ok (extract funcs s)

/-- A first-order program: its functions have different names, and direct calls are to them. -/
structure Program (funcs : List Function) : Prop where
  nodup : (funcs.map Function.name).Nodup
  firstOrder : ∀ f ∈ funcs, FirstOrder f.body = true
  closed : ∀ f ∈ funcs, ∀ l ∈ callees f.body, ∃ g ∈ funcs, g.name = l

section Spec

variable (funcs : List Function)

def Calls (f g : Function) : Prop := f ∈ funcs ∧ g ∈ funcs ∧ g.name ∈ callees f.body

def Reachable (f : Function) : Prop :=
  ∃ e ∈ funcs, isEntry e = true ∧ Relation.ReflTransGen (Calls funcs) e f

/-- Two functions are connected by direct calls of reachable functions, in either direction. -/
def Connected : Function → Function → Prop :=
  Relation.EqvGen fun f g => Reachable funcs f ∧ Calls funcs f g

def Edge (a b : Fin funcs.length) : Prop :=
  (funcs.get b).name ∈ callees (funcs.get a).body

end Spec

section Numbers

variable {funcs : List Function} {a b : Fin funcs.length}

theorem exists_id {f : Function} (hf : f ∈ funcs) : ∃ a : Fin funcs.length, funcs.get a = f :=
  List.mem_iff_get.mp hf

theorem calls_get : Calls funcs (funcs.get a) (funcs.get b) ↔ Edge funcs a b :=
  ⟨fun h => h.2.2, fun h => ⟨List.get_mem .., List.get_mem .., h⟩⟩

variable (h : Program funcs)

include h

theorem Program.name_injective (he : (funcs.get a).name = (funcs.get b).name) : a = b := by
  have hlen : funcs.length = (funcs.map Function.name).length := by simp
  have hget : a.cast hlen = b.cast hlen := h.nodup.injective_get (by simpa using he)
  exact Fin.ext (by simpa using congrArg Fin.val hget)

theorem Program.get_injective (he : funcs.get a = funcs.get b) : a = b :=
  h.name_injective (congrArg Function.name he)

theorem Program.lookup_eq {l : Lvar} (hl : (funcs.get b).name = l) : lookup funcs l = .ok b := by
  unfold lookup
  split
  · next c hc =>
    have hc' : (funcs.get c).name = l := by simpa using List.find?_some hc
    rw [h.name_injective (hc'.trans hl.symm)]
  · next hnone =>
    have hb := List.find?_eq_none.mp hnone b (List.mem_reverse.mpr (List.mem_finRange b))
    exact absurd hl (by simpa using hb)

end Numbers

/-! ### The work list -/

section WorkList

variable {funcs : List Function}

/-- **The invariant of the work list** with the numbers `ids`: a function that is visited and no
longer on the work list has been connected to the functions that it calls. -/
structure Explored (s : State funcs.length) (ids : List (Fin funcs.length)) : Prop where
  nodup : ids.Nodup
  visited : ∀ a ∈ ids, a ∈ s.visitMarks
  entries : ∀ a, isEntry (funcs.get a) = true → a ∈ s.visitMarks
  reachable : ∀ a ∈ s.visitMarks, Reachable funcs (funcs.get a)
  closed : ∀ a ∈ s.visitMarks, a ∉ ids → ∀ b, Edge funcs a b → b ∈ s.visitMarks
  represents : s.trees.Represents fun a b => a ∈ s.visitMarks ∧ a ∉ ids ∧ Edge funcs a b

/-- The invariant while the function `a`, which was taken from the work list, is run over; `done`
are its direct calls so far. -/
structure Exploring (s : State funcs.length) (a : Fin funcs.length) (ids : List (Fin funcs.length))
    (done : List Lvar) : Prop where
  nodup : (a :: ids).Nodup
  visited : ∀ c ∈ a :: ids, c ∈ s.visitMarks
  entries : ∀ c, isEntry (funcs.get c) = true → c ∈ s.visitMarks
  reachable : ∀ c ∈ s.visitMarks, Reachable funcs (funcs.get c)
  closed : ∀ c ∈ s.visitMarks, c ∉ a :: ids → ∀ b, Edge funcs c b → b ∈ s.visitMarks
  called : ∀ b, (funcs.get b).name ∈ done → b ∈ s.visitMarks
  represents : s.trees.Represents fun u v =>
    (u ∈ s.visitMarks ∧ u ∉ a :: ids ∧ Edge funcs u v) ∨ (u = a ∧ (funcs.get v).name ∈ done)

variable {s : State funcs.length} {a : Fin funcs.length} {ids : List (Fin funcs.length)}
  {done : List Lvar}

theorem Explored.start (h : Explored s (a :: ids)) : Exploring s a ids [] where
  nodup := h.nodup
  visited := h.visited
  entries := h.entries
  reachable := h.reachable
  closed := h.closed
  called b hb := absurd hb List.not_mem_nil
  represents := h.represents.congr fun u v => by simp

theorem Exploring.finish (h : Exploring s a ids (callees (funcs.get a).body)) : Explored s ids where
  nodup := (List.nodup_cons.mp h.nodup).2
  visited c hc := h.visited c (List.mem_cons_of_mem _ hc)
  entries := h.entries
  reachable := h.reachable
  closed c hc hids b hb := by
    by_cases hca : c = a
    · exact h.called b (hca ▸ hb)
    · exact h.closed c hc (by simp [hca, hids]) b hb
  represents := h.represents.congr fun u v => by
    have ha : a ∈ s.visitMarks := h.visited a List.mem_cons_self
    have hn : a ∉ ids := (List.nodup_cons.mp h.nodup).1
    by_cases hu : u = a
    · subst hu
      simp [ha, hn, Edge]
    · simp [hu]

theorem Exploring.old (hp : Program funcs) (h : Exploring s a ids done) {b : Fin funcs.length}
    (hb : b ∈ s.visitMarks) :
    Exploring ⟨s.trees.union a b, s.visitMarks⟩ a ids (done ++ [(funcs.get b).name]) where
  nodup := h.nodup
  visited := h.visited
  entries := h.entries
  reachable := h.reachable
  closed := h.closed
  called c hc := by
    rcases List.mem_append.mp hc with hc | hc
    · exact h.called c hc
    · rw [hp.name_injective (List.mem_singleton.mp hc)]
      exact hb
  represents := (h.represents.union a b).congr fun u v => by
    have hv : (funcs.get v).name = (funcs.get b).name ↔ v = b :=
      ⟨hp.name_injective, fun h => h ▸ rfl⟩
    simp only [List.mem_append, List.mem_singleton, hv, and_or_left, or_assoc]

theorem Exploring.new (h : Exploring s a ids done) {b : Fin funcs.length} (hb : b ∉ s.visitMarks)
    (hab : Edge funcs a b) : Exploring ⟨s.trees, insert b s.visitMarks⟩ a (b :: ids) done where
  nodup := by
    have hba : b ∉ a :: ids := fun hm => hb (h.visited b hm)
    rw [(List.Perm.swap b a ids).nodup_iff]
    exact List.nodup_cons.mpr ⟨hba, h.nodup⟩
  visited c hc := by
    rw [Finset.mem_insert]
    rcases List.mem_cons.mp hc with rfl | hc
    · exact .inr (h.visited c List.mem_cons_self)
    · exact (List.mem_cons.mp hc).imp id fun hc => h.visited c (List.mem_cons_of_mem _ hc)
  entries c hc := Finset.mem_insert_of_mem (h.entries c hc)
  reachable c hc := by
    rcases Finset.mem_insert.mp hc with rfl | hc
    · obtain ⟨e, he, hentry, hpath⟩ := h.reachable a (h.visited a List.mem_cons_self)
      exact ⟨e, he, hentry, hpath.tail (calls_get.mpr hab)⟩
    · exact h.reachable c hc
  closed c hc hids d hd := by
    have hcb : c ≠ b := fun he => hids (by simp [he])
    refine Finset.mem_insert_of_mem (h.closed c ((Finset.mem_insert.mp hc).resolve_left hcb) ?_ d hd)
    exact fun hm => hids (by rcases List.mem_cons.mp hm with rfl | hm <;> simp_all)
  called c hc := Finset.mem_insert_of_mem (h.called c hc)
  represents := h.represents.congr fun u v => by
    by_cases hu : u = b
    · subst hu
      simp [hb]
    · simp [hu]

theorem Explored.calls (hp : Program funcs) (h : Explored s (a :: ids)) :
    ∃ s' ids', Cluster.calls funcs a (funcs.get a).body (s, ids.map funcs.get) =
        .ok (s', ids'.map funcs.get) ∧ Explored s' ids' := by
  let I : List Lvar → State funcs.length × List Function → Prop := fun ls s =>
    ∃ done ids, done ++ ls = callees (funcs.get a).body ∧ s.2 = ids.map funcs.get ∧
      Exploring s.1 a ids done
  have hstep : ∀ l ls s, I (l :: ls) s → ∃ s', call funcs a l s = .ok s' ∧ I ls s' := by
    rintro l ls ⟨s, wl⟩ ⟨done, ids, hdone, rfl, hex⟩
    have hmem : l ∈ callees (funcs.get a).body := hdone ▸ by simp
    obtain ⟨g, hg, rfl⟩ := hp.closed _ (List.get_mem ..) l hmem
    obtain ⟨b, rfl⟩ := exists_id hg
    rw [call_eq (hp.lookup_eq rfl)]
    refine ⟨_, rfl, done ++ [(funcs.get b).name], ?_⟩
    split_ifs with hb
    · exact ⟨ids, by simpa using hdone, rfl, hex.old hp hb⟩
    · exact ⟨b :: ids, by simpa using hdone, rfl,
        (hex.new hb hmem).old hp (Finset.mem_insert_self ..)⟩
  obtain ⟨⟨s', wl⟩, hs', done, ids', hdone, hwl, hex⟩ :=
    foldlM_ok I hstep (s := (s, ids.map funcs.get)) ⟨[], ids, rfl, rfl, h.start⟩
  have hwl' : wl = ids'.map funcs.get := hwl
  subst hwl'
  rw [List.append_nil] at hdone
  subst hdone
  refine ⟨s', ids', ?_, hex.finish⟩
  rw [Cluster.calls, NormalizeCluster.calls_eq _ (hp.firstOrder _ (List.get_mem ..))]
  exact hs'

/-- **The work list** visits the functions that are reachable, and connects them. -/
theorem build_spec (hp : Program funcs) (h : Explored s ids) :
    ∃ s', build funcs (ids.map funcs.get) s = .ok s' ∧ Explored s' [] := by
  generalize hm : left funcs (s, ids.map funcs.get) = m
  induction m using Nat.strongRecOn generalizing s ids with
  | ind m ih =>
    cases ids with
    | nil => exact ⟨s, build_nil s, h⟩
    | cons a ids =>
      obtain ⟨s', ids', hc, h'⟩ := h.calls hp
      have hlt : left funcs (s', ids'.map funcs.get) < m :=
        hm ▸ Nat.lt_succ_of_le (left_calls hc)
      obtain ⟨s'', hs'', h''⟩ := ih _ hlt h' rfl
      refine ⟨s'', ?_, h''⟩
      rw [List.map_cons, build_cons (hp.lookup_eq rfl) hc, hs'']

theorem explored_initial (funcs : List Function) :
    ∃ ids : List (Fin funcs.length), initialWL funcs = ids.map funcs.get ∧
      Explored (initialState funcs) ids := by
  have hmarks : ∀ a, a ∈ (initialState funcs).visitMarks ↔ isEntry (funcs.get a) = true := fun a => by
    simp [initialState]
  have hids : ∀ a, a ∈ (List.finRange funcs.length).filter (fun id => isEntry (funcs.get id)) ↔
      isEntry (funcs.get a) = true := fun a => by simp
  refine ⟨(List.finRange funcs.length).filter fun id => isEntry (funcs.get id), ?_,
    (List.nodup_finRange _).filter _, fun a ha => (hmarks a).mpr ((hids a).mp ha),
    fun a ha => (hmarks a).mpr ha,
    fun a ha => ⟨_, List.get_mem .., (hmarks a).mp ha, .refl⟩,
    fun a ha hn => absurd ((hids a).mpr ((hmarks a).mp ha)) hn,
    represents_discrete.congr fun u v => ?_⟩
  · rw [initialWL]
    conv_lhs => rw [← List.map_get_finRange funcs]
    rw [List.filter_map]
    rfl
  · exact ⟨False.elim, fun h => h.2.1 ((hids u).mpr ((hmarks u).mp h.1))⟩

end WorkList

/-! ### The groups -/

section Groups

variable {funcs : List Function} (s : State funcs.length)

def group (r : Fin funcs.length) : List (Fin funcs.length) :=
  (List.finRange funcs.length).filter fun a => a ∈ s.visitMarks ∧ s.trees.ascend a = r

variable {s}

theorem mem_group {r a : Fin funcs.length} :
    a ∈ group s r ↔ a ∈ s.visitMarks ∧ s.trees.ascend a = r := by
  simp [group]

theorem collect_eq (s : State funcs.length) (r : Fin funcs.length) :
    collect funcs s r = (group s r).map funcs.get := by
  unfold collect group
  induction List.finRange funcs.length with
  | nil => rfl
  | cons a l ih =>
    rw [List.foldr_cons]
    by_cases ha : a ∈ s.visitMarks
    · rw [if_pos ha]
      by_cases hr : s.trees.ascend a = r
      · rw [List.filter_cons_of_pos (by simp [ha, hr]), hr, Function.update_self, ih, List.map_cons]
      · rw [List.filter_cons_of_neg (by simp [hr]), Function.update_of_ne (Ne.symm hr), ih]
    · rw [if_neg ha, List.filter_cons_of_neg (by simp [ha]), ih]

theorem finish_eq (clusters : Fin funcs.length → List Function) :
    finish funcs clusters =
      ((List.finRange funcs.length).map clusters).filter fun cl => !cl.isEmpty := by
  unfold finish
  induction List.finRange funcs.length with
  | nil => rfl
  | cons a l ih =>
    rw [List.foldr_cons, ih, List.map_cons]
    cases hc : clusters a with
    | nil => rw [List.filter_cons_of_neg (by simp)]
    | cons f cl => rw [List.filter_cons_of_pos (by simp)]

theorem extract_eq (s : State funcs.length) : extract funcs s =
    ((List.finRange funcs.length).map fun r => (group s r).map funcs.get).filter
      fun cl => !cl.isEmpty := by
  rw [extract, finish_eq, funext (collect_eq s)]

theorem mem_extract {cl : List Function} :
    cl ∈ extract funcs s ↔ cl ≠ [] ∧ ∃ r, (group s r).map funcs.get = cl := by
  rw [extract_eq]
  simp [and_comm]

theorem flatten_extract (s : State funcs.length) : (extract funcs s).flatten =
    ((List.finRange funcs.length).flatMap (group s)).map funcs.get := by
  rw [extract_eq, List.flatten_filter_not_isEmpty, List.map_flatMap, List.flatMap_def]

theorem mem_flatten_extract {f : Function} :
    f ∈ (extract funcs s).flatten ↔ ∃ a ∈ s.visitMarks, funcs.get a = f := by
  simp [flatten_extract, mem_group]

theorem nodup_groups (s : State funcs.length) :
    ((List.finRange funcs.length).flatMap (group s)).Nodup := by
  refine List.nodup_flatMap.mpr ⟨fun r _ => (List.nodup_finRange _).filter _, ?_⟩
  refine (List.nodup_finRange _).imp fun {r r'} hne a ha ha' => hne ?_
  exact (mem_group.mp ha).2.symm.trans (mem_group.mp ha').2

variable (hp : Program funcs)

include hp

theorem same_cluster_iff {a b : Fin funcs.length} (ha : a ∈ s.visitMarks) (hb : b ∈ s.visitMarks) :
    (∃ cl ∈ extract funcs s, funcs.get a ∈ cl ∧ funcs.get b ∈ cl) ↔
      s.trees.ascend a = s.trees.ascend b := by
  have hget : ∀ {r c}, funcs.get c ∈ (group s r).map funcs.get ↔ c ∈ group s r := fun {r c} => by
    refine ⟨fun hc => ?_, List.mem_map_of_mem⟩
    obtain ⟨d, hd, hdc⟩ := List.mem_map.mp hc
    exact hp.get_injective hdc ▸ hd
  constructor
  · rintro ⟨cl, hcl, hacl, hbcl⟩
    obtain ⟨-, r, rfl⟩ := mem_extract.mp hcl
    exact (mem_group.mp (hget.mp hacl)).2.trans (mem_group.mp (hget.mp hbcl)).2.symm
  · intro he
    have hag : a ∈ group s (s.trees.ascend a) := mem_group.mpr ⟨ha, rfl⟩
    refine ⟨_, mem_extract.mpr ⟨?_, s.trees.ascend a, rfl⟩, hget.mpr hag,
      hget.mpr (mem_group.mpr ⟨hb, he.symm⟩)⟩
    exact List.ne_nil_of_mem (hget.mpr hag)

theorem mem_visitMarks_iff (h : Explored s []) (a : Fin funcs.length) :
    a ∈ s.visitMarks ↔ Reachable funcs (funcs.get a) := by
  refine ⟨h.reachable a, ?_⟩
  rintro ⟨e, he, hentry, hpath⟩
  obtain ⟨c, rfl⟩ := exists_id he
  have hmem : ∀ f, Relation.ReflTransGen (Calls funcs) (funcs.get c) f →
      ∃ b ∈ s.visitMarks, funcs.get b = f := by
    intro f hf
    induction hf with
    | refl => exact ⟨c, h.entries c hentry, rfl⟩
    | @tail f g _ hcalls ih =>
      obtain ⟨b, hb, rfl⟩ := ih
      obtain ⟨d, rfl⟩ := exists_id hcalls.2.1
      exact ⟨d, h.closed b hb List.not_mem_nil d hcalls.2.2, rfl⟩
  obtain ⟨b, hb, hba⟩ := hmem _ hpath
  exact hp.get_injective hba ▸ hb

/-- Connected functions, by their numbers. -/
theorem connected_get {a b : Fin funcs.length} : Connected funcs (funcs.get a) (funcs.get b) ↔
    Relation.EqvGen (fun a b => Reachable funcs (funcs.get a) ∧ Edge funcs a b) a b := by
  constructor
  · intro h
    have hgen : ∀ f g, Connected funcs f g → f = g ∨ ∃ a b, funcs.get a = f ∧ funcs.get b = g ∧
        Relation.EqvGen (fun a b => Reachable funcs (funcs.get a) ∧ Edge funcs a b) a b := by
      intro f g hfg
      induction hfg with
      | rel f g hfg =>
        obtain ⟨a, rfl⟩ := exists_id hfg.2.1
        obtain ⟨b, rfl⟩ := exists_id hfg.2.2.1
        exact .inr ⟨a, b, rfl, rfl, .rel _ _ ⟨hfg.1, hfg.2.2.2⟩⟩
      | refl => exact .inl rfl
      | symm f g _ ih =>
        rcases ih with rfl | ⟨a, b, rfl, rfl, hab⟩
        · exact .inl rfl
        · exact .inr ⟨b, a, rfl, rfl, .symm _ _ hab⟩
      | trans f g k _ _ ih ih' =>
        rcases ih with rfl | ⟨a, b, rfl, hb, hab⟩
        · exact ih'
        · rcases ih' with rfl | ⟨b', c, hb', rfl, hbc⟩
          · exact .inr ⟨a, b, rfl, hb, hab⟩
          · rw [hp.get_injective (hb'.trans hb.symm)] at hbc
            exact .inr ⟨a, c, rfl, rfl, .trans _ _ _ hab hbc⟩
    rcases hgen _ _ h with he | ⟨a', b', ha, hb, hab⟩
    · rw [hp.get_injective he]
      exact .refl b
    · rwa [hp.get_injective ha, hp.get_injective hb] at hab
  · intro h
    induction h with
    | rel a b hab => exact .rel _ _ ⟨hab.1, calls_get.mpr hab.2⟩
    | refl => exact .refl _
    | symm _ _ _ ih => exact .symm _ _ ih
    | trans _ _ _ _ _ ih ih' => exact .trans _ _ _ ih ih'

end Groups

theorem Reachable.mem {funcs : List Function} {f : Function} (h : Reachable funcs f) :
    f ∈ funcs := by
  obtain ⟨e, he, -, hpath⟩ := h
  cases hpath with
  | refl => exact he
  | tail _ hcalls => exact hcalls.2.1

theorem extract_first {f : Function} {rest : List Function} {s : State (f :: rest).length}
    (h : 0 ∈ s.visitMarks) : ∃ frags others, extract (f :: rest) s = (f :: frags) :: others := by
  have hroot : s.trees.ascend 0 = 0 := le_antisymm (s.trees.ascend_le 0) (Fin.zero_le _)
  obtain ⟨ids, hids⟩ : ∃ ids, List.finRange (f :: rest).length = 0 :: ids :=
    ⟨_, List.finRange_succ⟩
  obtain ⟨frags, hfrags⟩ : ∃ frags, group s 0 = 0 :: frags := by
    refine ⟨ids.filter fun a => a ∈ s.visitMarks ∧ s.trees.ascend a = 0, ?_⟩
    rw [group, hids, List.filter_cons_of_pos (by simp [h, hroot])]
  rw [extract_eq, hids, List.map_cons, hfrags]
  exact ⟨frags.map (f :: rest).get, _, rfl⟩

/-- **Clustering partitions the program**: the clusters contain the reachable functions, each once;
two of them are in one cluster if they are connected; and a first function that is an entry is the
first function of the first cluster. -/
theorem cluster_correct {funcs : List Function} (hne : funcs ≠ []) (hp : Program funcs) :
    ∃ clusters, cluster funcs = .ok clusters ∧
      (∀ f, f ∈ clusters.flatten ↔ Reachable funcs f) ∧
      (clusters.flatten.map Function.name).Nodup ∧
      (∀ f g, Reachable funcs f → Reachable funcs g →
        ((∃ cl ∈ clusters, f ∈ cl ∧ g ∈ cl) ↔ Connected funcs f g)) ∧
      (∀ f rest, funcs = f :: rest → isEntry f = true →
        ∃ frags others, clusters = (f :: frags) :: others) := by
  obtain ⟨ids, hids, hex⟩ := explored_initial funcs
  obtain ⟨s, hs, h⟩ := build_spec hp hex
  have hvisited := mem_visitMarks_iff hp h
  refine ⟨extract funcs s, ?_, fun f => ?_, ?_, fun f g hf hg => ?_, ?_⟩
  · cases funcs with
    | nil => exact absurd rfl hne
    | cons f rest =>
      rw [cluster, hids, hs]
      · rfl
      · exact List.cons_ne_nil f rest
  · rw [mem_flatten_extract]
    constructor
    · rintro ⟨a, ha, rfl⟩
      exact (hvisited a).mp ha
    · intro hf
      obtain ⟨a, rfl⟩ := exists_id hf.mem
      exact ⟨a, (hvisited a).mpr hf, rfl⟩
  · rw [flatten_extract, List.map_map]
    exact (nodup_groups s).map fun a b he => hp.name_injective he
  · obtain ⟨a, rfl⟩ := exists_id hf.mem
    obtain ⟨b, rfl⟩ := exists_id hg.mem
    have hedges : ∀ u v, (u ∈ s.visitMarks ∧ u ∉ ([] : List (Fin funcs.length)) ∧
        Edge funcs u v) ↔ Reachable funcs (funcs.get u) ∧ Edge funcs u v := fun u v => by
      rw [hvisited]
      simp
    rw [same_cluster_iff hp ((hvisited a).mpr hf) ((hvisited b).mpr hg), connected_get hp]
    exact (h.represents.congr hedges) a b
  · rintro f rest rfl hentry
    exact extract_first (h.entries 0 hentry)

/-- An entry that calls a known function, and a function that is never called. -/
theorem cluster_correct_pair :
    let f : Function := .mk .escape 1 [2] [.funt] (.app (.label 4) [.var 2])
    let g : Function := .mk .known 4 [5] [.funt] (.app (.var 5) [])
    let u : Function := .mk .known 6 [7] [.funt] (.app (.label 4) [.var 7])
    [f, g, u] ≠ [] ∧ Program [f, g, u] ∧ ∃ clusters, cluster [f, g, u] = .ok clusters ∧
      (∀ h, h ∈ clusters.flatten ↔ Reachable [f, g, u] h) ∧
      (clusters.flatten.map Function.name).Nodup ∧
      (∀ h k, Reachable [f, g, u] h → Reachable [f, g, u] k →
        ((∃ cl ∈ clusters, h ∈ cl ∧ k ∈ cl) ↔ Connected [f, g, u] h k)) ∧
      (∀ h rest, [f, g, u] = h :: rest → isEntry h = true →
        ∃ frags others, clusters = (h :: frags) :: others) := by
  intro f g u
  have hne : [f, g, u] ≠ [] := List.cons_ne_nil _ _
  have hp : Program [f, g, u] := by
    refine ⟨by simp [f, g, u], by simp [f, g, u], ?_⟩
    intro h hh l hl
    simp only [List.mem_cons, List.not_mem_nil, or_false] at hh
    rcases hh with rfl | rfl | rfl <;> simp_all [f, g, u]
  exact ⟨hne, hp, cluster_correct hne hp⟩

end SmlNj.Cluster
