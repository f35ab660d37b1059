import SmlNj.CodeGen.InvokeGCSound

/-!
# What the points of a compilation unit share

A run of the compiler over a compilation unit calls the shared code at many points, with other uses
of the supply of variables in between, and emits the clusters.  Points that jump to the same label
have the same flag and classes of parameters, and so does the cluster at this label.

## Main definitions

* `UnitStep` — the steps of the run.
* `Grows` — a computation that does not reuse variables.

## Main results

* `shared` — what the points share.
* `invokeGC_correct` — the code that invokes the collector is right.
-/

namespace SmlNj.InvokeGC

open CFG LambdaVar RedBlack

/-! ### The order of signatures -/

variable {α β : Type} {f : α → Supply β} {n lab n' : Lvar} {gcSig : GcSig}

/-! ### The supply of variables -/

def Grows {α : Type} (m : Supply α) : Prop := ∀ n a n', m n = .ok (a, n') → n ≤ n'

theorem bind_eq_ok {m : Supply α} {n'' : Lvar} {b : β} (h : (m >>= f) n = .ok (b, n'')) :
    ∃ a n', m n = .ok (a, n') ∧ f a n' = .ok (b, n'') := by
  change (m n >>= fun q => f q.1 q.2) = _ at h
  cases hm : m n with
  | error e =>
    rw [hm] at h
    cases h
  | ok q =>
    rw [hm] at h
    exact ⟨q.1, q.2, rfl, h⟩

theorem Grows.bind {m : Supply α} (hm : Grows m) (hf : ∀ a, Grows (f a)) : Grows (m >>= f) := by
  intro n b n'' h
  obtain ⟨a, n', ha, hb⟩ := bind_eq_ok h
  exact (hm n a n' ha).trans (hf a n' b n'' hb)

theorem grows_pure (a : α) : Grows (pure a : Supply α) := by
  rintro n _ _ ⟨⟩
  exact le_rfl

theorem grows_mkLvar : Grows mkLvar := by
  rintro n _ _ ⟨⟩
  exact Nat.le_succ n

theorem grows_lift (m : Except Exn α) : Grows (liftM m : Supply α) := by
  intro n a n' h
  cases m with
  | error e => cases h
  | ok b =>
    cases h
    exact le_rfl

theorem grows_mapM (hf : ∀ a, Grows (f a)) (as : List α) : Grows (as.mapM f) := by
  induction as with
  | nil => exact grows_pure _
  | cons a as ih =>
    rw [List.mapM_cons]
    exact (hf a).bind fun _ => ih.bind fun _ => grows_pure _

theorem grows_pack (live : List Param) (newRoots : List Lvar) (code : Stm) (roots : List Root)
    (args : List Exp) : Grows (pack live newRoots code roots args) := by
  induction roots generalizing args with
  | nil => exact grows_pure _
  | cons root roots ih =>
    cases root with
    | unit => exact ih _
    | ptr ix => exact (grows_lift _).bind fun _ => ih _
    | record ptrs raw =>
      cases raw with
      | nil =>
        exact (grows_lift _).bind fun _ => grows_mkLvar.bind fun _ => (ih _).bind fun _ =>
          grows_pure _
      | cons q raw =>
        cases ptrs with
        | nil =>
          exact grows_mkLvar.bind fun _ => (grows_lift _).bind fun _ => (ih _).bind fun _ =>
            grows_pure _
        | cons ix ptrs =>
          exact (grows_lift _).bind fun _ => (grows_lift _).bind fun _ => grows_mkLvar.bind fun _ =>
            (ih _).bind fun _ => grows_pure _

theorem grows_callGC {isCont : Bool} {live : List Param} {k : List Exp → Supply Stm}
    (hk : ∀ results, Grows (k results)) : Grows (callGC isCont live k) :=
  (grows_lift _).bind fun _ => (grows_mapM (fun _ => grows_mkLvar) _).bind fun _ =>
    (grows_lift _).bind fun results => (hk results).bind fun _ => grows_pack _ _ _ _ _

theorem grows_hd (es : List Exp) : Grows (hd es) := by
  cases es with
  | nil =>
    intro n a n' h
    cases h
  | cons e es => exact grows_pure e

theorem unzip_eq (params : List Param) (args : List Exp) (tys : List Ty) :
    unzip params args tys = (args.reverse ++ params.map fun p => .var p.name,
      tys.reverse ++ params.map Param.ty) := by
  induction params generalizing args tys with
  | nil => simp [unzip]
  | cons p params ih =>
    rw [unzip, ih]
    simp

def sigOf (isCont : Bool) (params : List Param) : GcSig := (isCont, params.map Param.ty)

def jumpOf (isCont : Bool) (params : List Param) (lab : Lvar) : Stm :=
  jmp isCont (params.map fun p => .var p.name) (params.map Param.ty) lab

/-- **The call of the shared code**: the label of the signature, which may be new. -/
theorem invokeStdGC_eq (gcMap : Cache) (isCont : Bool) (params : List Param) (n : Lvar) :
    invokeStdGC gcMap isCont params n = match gcMap.find (sigOf isCont params) with
      | some lab => .ok ((jumpOf isCont params lab, gcMap), n)
      | none => do
        let gcMap ← gcMap.insert (sigOf isCont params) n
        return ((jumpOf isCont params n, gcMap), n + 1) := by
  rw [invokeStdGC, unzip_eq]
  simp only [List.reverse_nil, List.nil_append]
  change (match gcMap.find (sigOf isCont params) with | some lab => _ | none => _ : Supply _) n = _
  cases gcMap.find (sigOf isCont params) with
  | some lab => rfl
  | none =>
    change (mkLvar >>= _) n = _
    rw [mkLvar_bind]
    cases h : gcMap.insert (sigOf isCont params) n with
    | error e =>
      have h' : gcMap.insert (isCont, params.map Param.ty) n = .error e := h
      rw [h']
      rfl
    | ok gcMap' =>
      have h' : gcMap.insert (isCont, params.map Param.ty) n = .ok gcMap' := h
      rw [h']
      rfl

theorem jumpOf_inj {isCont : Bool} {params : List Param} {lab' : Lvar}
    (h : jumpOf isCont params lab = jumpOf isCont params lab') : lab = lab' := by
  cases isCont
  · have h : Stm.apply (.label lab) _ _ = Stm.apply (.label lab') _ _ := h
    exact Exp.label.inj (Stm.apply.inj h).1
  · have h : Stm.throw (.label lab) _ _ = Stm.throw (.label lab') _ _ := h
    exact Exp.label.inj (Stm.throw.inj h).1

/-! ### The clusters -/

def Cluster.IsFor (c : Cluster) (gcSig : GcSig) (lab : Lvar) : Prop :=
  ∃ frag, c.frags = [frag] ∧ frag.lab = lab ∧
    frag.kind = (if gcSig.1 then .stdCont else .stdFun) ∧ frag.params.map Param.ty = gcSig.2

theorem mapM_params {tys : List Ty} {params : List Param}
    (h : (tys.mapM fun ty => (do return ⟨← mkLvar, ty⟩ : Supply Param)) n = .ok (params, n')) :
    params.map Param.ty = tys := by
  induction tys generalizing n n' params with
  | nil =>
    cases h
    rfl
  | cons ty tys ih =>
    rw [List.mapM_cons] at h
    obtain ⟨p, n₁, hp, hrest⟩ := bind_eq_ok (m := (do return ⟨← mkLvar, ty⟩ : Supply Param)) h
    obtain ⟨ps, n₂, hps, hret⟩ := bind_eq_ok hrest
    cases hp
    cases hret
    exact congrArg (ty :: ·) (ih hps)

theorem mkCluster_spec {c : Cluster} (h : mkCluster gcSig lab n = .ok (c, n')) :
    n ≤ n' ∧ Cluster.IsFor c gcSig lab := by
  obtain ⟨isCont, tys⟩ := gcSig
  obtain ⟨params, n₁, hparams, h⟩ := bind_eq_ok h
  have htys := mapM_params hparams
  have hn₁ : n ≤ n₁ :=
    grows_mapM (fun _ => grows_mkLvar.bind fun _ => grows_pure _) tys n params n₁ hparams
  cases isCont with
  | true | false =>
    obtain ⟨frag, n₂, hfrag, h⟩ := bind_eq_ok h
    obtain ⟨body, n₃, hbody, hfrag⟩ := bind_eq_ok hfrag
    have hn₃ := grows_callGC (fun results => (grows_hd results).bind fun _ => grows_pure _)
      n₁ body n₃ hbody
    cases hfrag
    cases h
    exact ⟨hn₁.trans hn₃, _, rfl, rfl, rfl, htys⟩

theorem foldrM_mkCluster {items : List ((Bool ×ₗ List (ℕ ×ₗ ℕ)) × GcSig × Lvar)} {cs : List Cluster}
    (h : items.foldrM (fun item clusters => (do
      return (← mkCluster item.2.1 item.2.2) :: clusters : Supply (List Cluster))) [] n =
        .ok (cs, n')) : n ≤ n' ∧ ∀ c ∈ cs, ∃ item ∈ items, Cluster.IsFor c item.2.1 item.2.2 := by
  induction items generalizing n' cs with
  | nil =>
    cases h
    exact ⟨le_rfl, fun _ h => nomatch h⟩
  | cons item items ih =>
    rw [List.foldrM_cons] at h
    obtain ⟨cs', n₁, hcs', h⟩ := bind_eq_ok h
    obtain ⟨c, n₂, hc, h⟩ := bind_eq_ok h
    cases h
    obtain ⟨hn₁, hall⟩ := ih hcs'
    obtain ⟨hn₂, hfor⟩ := mkCluster_spec hc
    refine ⟨hn₁.trans hn₂, fun c' hc' => ?_⟩
    rcases List.mem_cons.mp hc' with rfl | hc'
    · exact ⟨item, List.mem_cons_self, hfor⟩
    · obtain ⟨item', hitem', h⟩ := hall c' hc'
      exact ⟨item', List.mem_cons_of_mem _ hitem', h⟩

/-! ### The run of the compiler -/

/-- The state of the compiler: the cache, the supply of variables, the points so far with their
signatures and the labels that they jump to, and the clusters that were emitted. -/
structure UnitState where
  gcMap : Cache
  next : Lvar
  points : List (GcSig × Lvar)
  clusters : List Cluster

/-- **The steps of the compiler**: other code takes variables, a point calls the shared code, and at
the end of a compilation unit the clusters are emitted. -/
inductive UnitStep : UnitState → UnitState → Prop
  | other (s : UnitState) {n : Lvar} (h : s.next ≤ n) : UnitStep s { s with next := n }
  | invoke (s : UnitState) (isCont : Bool) (params : List Param) {lab n : Lvar} {gcMap : Cache}
      (h : invokeStdGC s.gcMap isCont params s.next =
        .ok ((jumpOf isCont params lab, gcMap), n)) :
      UnitStep s ⟨gcMap, n, (sigOf isCont params, lab) :: s.points, s.clusters⟩
  | flush (s : UnitState) {cs : List Cluster} {gcMap : Cache} {n : Lvar}
      (h : getCompUnitCode s.gcMap s.next = .ok ((cs, gcMap), n)) :
      UnitStep s ⟨gcMap, n, s.points, cs ++ s.clusters⟩

def UnitState.start (n : Lvar) : UnitState := ⟨Cache.new, n, [], []⟩

/-- **What the points share**, with what the cache and the clusters know of them. -/
structure Shared (s : UnitState) : Prop where
  cache : ∃ F, OrdMap.Implements s.gcMap F ∧
    ∀ k sig lab, F k = some (sig, lab) → sigKey sig = k ∧ (sig, lab) ∈ s.points
  fresh : ∀ p ∈ s.points, p.2 < s.next
  same : ∀ p ∈ s.points, ∀ q ∈ s.points, p.2 = q.2 → sigKey p.1 = sigKey q.1
  clusters : ∀ c ∈ s.clusters, ∃ p ∈ s.points, Cluster.IsFor c p.1 p.2

theorem Shared.start (n : Lvar) : Shared (UnitState.start n) :=
  ⟨⟨fun _ => none, OrdMap.implements_empty, fun _ _ _ h => nomatch h⟩, fun _ h => (nomatch h),
    fun _ h => (nomatch h), fun _ h => (nomatch h)⟩

variable {s : UnitState}

theorem Shared.hit (hs : Shared s) (h : s.gcMap.find gcSig = some lab) :
    Shared ⟨s.gcMap, s.next, (gcSig, lab) :: s.points, s.clusters⟩ := by
  obtain ⟨F, hF, hcache⟩ := hs.cache
  rw [Cache.find, hF.find_eq', Option.map_eq_some_iff] at h
  obtain ⟨⟨sig, lab⟩, hk, rfl⟩ := h
  obtain ⟨hkey, hmem⟩ := hcache _ _ _ hk
  refine ⟨⟨F, hF, fun k sig lab h => ⟨(hcache k sig lab h).1,
    List.mem_cons_of_mem _ (hcache k sig lab h).2⟩⟩, fun p hp => ?_, fun p hp q hq hpq => ?_,
    fun c hc => ?_⟩
  · rcases List.mem_cons.mp hp with rfl | hp
    · exact hs.fresh (sig, lab) hmem
    · exact hs.fresh p hp
  · rcases List.mem_cons.mp hp with rfl | hp <;> rcases List.mem_cons.mp hq with rfl | hq
    · rfl
    · exact hkey.symm.trans (hs.same _ hmem q hq hpq)
    · exact (hs.same p hp _ hmem hpq).trans hkey
    · exact hs.same p hp q hq hpq
  · obtain ⟨p, hp, h⟩ := hs.clusters c hc
    exact ⟨p, List.mem_cons_of_mem _ hp, h⟩

theorem Shared.miss (hs : Shared s) {gcMap : Cache} (h : s.gcMap.insert gcSig s.next = .ok gcMap) :
    Shared ⟨gcMap, s.next + 1, (gcSig, s.next) :: s.points, s.clusters⟩ := by
  obtain ⟨F, hF, hcache⟩ := hs.cache
  obtain ⟨m', hm', himp⟩ := OrdMap.implements_insert hF (sigKey gcSig) (gcSig, s.next)
  rw [Cache.insert, hm'] at h
  cases h
  refine ⟨⟨_, himp, fun k sig lab h => ?_⟩, fun p hp => ?_, fun p hp q hq hpq => ?_, fun c hc => ?_⟩
  · unfold Function.update at h
    split at h
    · obtain rfl : k = sigKey gcSig := ‹_›
      cases h
      exact ⟨rfl, List.mem_cons_self⟩
    · exact ⟨(hcache k sig lab h).1, List.mem_cons_of_mem _ (hcache k sig lab h).2⟩
  · rcases List.mem_cons.mp hp with rfl | hp
    · exact Nat.lt_succ_self _
    · exact Nat.lt_succ_of_lt (hs.fresh p hp)
  · rcases List.mem_cons.mp hp with rfl | hp <;> rcases List.mem_cons.mp hq with rfl | hq
    · rfl
    · exact absurd hpq.symm (Nat.ne_of_lt (hs.fresh q hq))
    · exact absurd hpq (Nat.ne_of_lt (hs.fresh p hp))
    · exact hs.same p hp q hq hpq
  · obtain ⟨p, hp, h⟩ := hs.clusters c hc
    exact ⟨p, List.mem_cons_of_mem _ hp, h⟩

/-- **A step keeps what the points share.** -/
theorem Shared.step {s' : UnitState} (hs : Shared s) (h : UnitStep s s') : Shared s' := by
  cases h with
  | other h =>
    exact ⟨hs.cache, fun p hp => (hs.fresh p hp).trans_le h, hs.same, hs.clusters⟩
  | @invoke isCont params lab n gcMap h =>
    rw [invokeStdGC_eq] at h
    cases hfind : s.gcMap.find (sigOf isCont params) with
    | some lab' =>
      rw [hfind] at h
      obtain ⟨hres, rfl⟩ := Prod.mk.inj (Except.ok.inj h)
      obtain ⟨hj, rfl⟩ := Prod.mk.inj hres
      rw [← jumpOf_inj hj]
      exact hs.hit hfind
    | none =>
      rw [hfind] at h
      cases hins : s.gcMap.insert (sigOf isCont params) s.next with
      | error e =>
        rw [hins] at h
        cases h
      | ok gcMap' =>
        rw [hins] at h
        obtain ⟨hres, rfl⟩ := Prod.mk.inj (Except.ok.inj h)
        obtain ⟨hj, rfl⟩ := Prod.mk.inj hres
        rw [← jumpOf_inj hj]
        exact hs.miss hins
  | flush h =>
    obtain ⟨F, hF, hcache⟩ := hs.cache
    obtain ⟨cs, n₁, hcs, h⟩ := bind_eq_ok h
    cases h
    obtain ⟨hn, hall⟩ := foldrM_mkCluster hcs
    refine ⟨⟨fun _ => none, OrdMap.implements_empty, fun _ _ _ h => nomatch h⟩,
      fun p hp => (hs.fresh p hp).trans_le hn, hs.same, fun c hc => ?_⟩
    rcases List.mem_append.mp hc with hc | hc
    · obtain ⟨⟨k, sig, lab⟩, hitem, hfor⟩ := hall c hc
      exact ⟨(sig, lab), (hcache k sig lab ((hF.mem_listItemsi k (sig, lab)).mp hitem)).2, hfor⟩
    · exact hs.clusters c hc

/-- **What the points share in every run.** -/
theorem shared (h : Relation.ReflTransGen UnitStep (UnitState.start n) s) : Shared s := by
  induction h with
  | refl => exact .start n
  | tail _ hstep ih => exact ih.step hstep

/-- **The code that invokes the collector is right.**  For all parameters whose raw types are 64
bits wide it passes the fixed number of roots, and after a collection that returns roots denoting
the same values, the results are the live values in their positions.  And in every run of the compiler,
points that jump to the same shared code have the same flag and the same classes of parameters,
which are those of its cluster. -/
theorem invokeGC_correct {V W : Type} {I : Interp V W} (C : Memory I) :
    (∀ (isCont : Bool) (live : List Param) (vs : List V) (w : W) (env : Env V) (n : Lvar)
        (k : List Exp → Supply Stm),
      (∀ p ∈ live, p.ty.Raw64) → List.Forall₂ (fun p v => C.Fits w p.ty v) live vs →
      Memory.Bound env live vs → (∀ p ∈ live, p.name < n) →
      (∀ results n, results.length = live.length →
        ∃ code n', k results n = .ok (code, n') ∧ n ≤ n') →
      ∃ s n₂ results code n₁, callGC isCont live k n = .ok (s, n₂) ∧
        results.length = live.length ∧ k results (n + numGCRoots) = .ok (code, n₁) ∧
        ∃ env₁ w₁ roots newRoots env₂ w₂ vs', roots.length = numGCRoots ∧
          newRoots.length = numGCRoots ∧
          Leads I ⟨env, w, s⟩ ⟨env₁, w₁, .callgc roots newRoots code⟩ ∧
          Leads I ⟨env₁, w₁, .callgc roots newRoots code⟩ ⟨env₂, w₂, code⟩ ∧
          evals I env₂ w₂ results = some vs' ∧ C.Preserved live w vs w₂ vs') ∧
    ∀ (n : Lvar) (s : UnitState), Relation.ReflTransGen UnitStep (UnitState.start n) s →
      (∀ p ∈ s.points, ∀ q ∈ s.points, p.2 = q.2 →
        p.1.1 = q.1.1 ∧ p.1.2.map classOf = q.1.2.map classOf) ∧
      ∀ p ∈ s.points, ∀ c ∈ s.clusters, ∀ frag ∈ c.frags, frag.lab = p.2 →
        frag.kind = (if p.1.1 then .stdCont else .stdFun) ∧
        (frag.params.map Param.ty).map classOf = p.1.2.map classOf := by
  refine ⟨fun isCont live vs w env n k h64 hvs hb hlive hk =>
    callGC_spec C isCont h64 hvs hb hlive hk, fun n s hs => ?_⟩
  have hsh := shared hs
  have hsame : ∀ p ∈ s.points, ∀ q ∈ s.points, p.2 = q.2 →
      p.1.1 = q.1.1 ∧ p.1.2.map classOf = q.1.2.map classOf := fun p hp q hq hpq =>
    Prod.mk.inj (toLex.injective (hsh.same p hp q hq hpq))
  refine ⟨hsame, fun p hp c hc frag hfrag hlab => ?_⟩
  obtain ⟨q, hq, frag', hfs, hl, hkind, htys⟩ := hsh.clusters c hc
  rw [hfs] at hfrag
  obtain rfl := List.mem_singleton.mp hfrag
  obtain ⟨hflag, hcls⟩ := hsame q hq p hp (hl.symm.trans hlab)
  exact ⟨hflag ▸ hkind, (congrArg (List.map classOf) htys).trans hcls⟩

def mixedLive : List Param :=
  (List.range 7).map (⟨·, .ptrt⟩) ++ [⟨7, .numt 64⟩, ⟨8, .labt⟩]

def mixedVals : List Cell :=
  (List.range 7).map (fun i => .obj (100 + i) [.num i]) ++ [.num 5, .obj 200 []]

/-- **A continuation with a mixed record, and two points that share code**: a label counts as a
pointer. -/
theorem invokeGC_correct_mixed :
    (∃ s n₂ results code n₁, callGC true mixedLive (fun live => return .goto 50 live) 9 =
        .ok (s, n₂) ∧
      results.length = mixedLive.length ∧ (return .goto 50 results : Supply Stm) (9 + numGCRoots) =
        .ok (code, n₁) ∧
      ∃ env₁ w₁ roots newRoots env₂ w₂ vs', roots.length = numGCRoots ∧
        newRoots.length = numGCRoots ∧
        Leads cellInterp ⟨fun x => mixedVals[x]?, 300, s⟩
          ⟨env₁, w₁, .callgc roots newRoots code⟩ ∧
        Leads cellInterp ⟨env₁, w₁, .callgc roots newRoots code⟩ ⟨env₂, w₂, code⟩ ∧
        evals cellInterp env₂ w₂ results = some vs' ∧
        cellMemory.Preserved mixedLive 300 mixedVals w₂ vs') ∧
    ∃ s, Relation.ReflTransGen UnitStep (UnitState.start 0) s ∧
      s.points = [((false, [.labt, .ptrt]), 0), ((false, [.ptrt, .ptrt]), 0)] ∧
      [Ty.labt, .ptrt].map classOf = [Ty.ptrt, .ptrt].map classOf := by
  constructor
  · refine (invokeGC_correct cellMemory).1 true mixedLive mixedVals 300 (fun x => mixedVals[x]?) 9
      (fun live => return .goto 50 live) ?_ ?_ ?_ ?_ ?_
    · intro p hp
      rcases List.mem_append.mp hp with hp | hp
      · obtain ⟨i, _, rfl⟩ := List.mem_map.mp hp
        trivial
      · rcases List.mem_pair.mp hp with rfl | rfl
        · rfl
        · trivial
    · exact List.rel_append (List.forall₂_map_left_iff.mpr (List.forall₂_map_right_iff.mpr
        (List.forall₂_same.mpr fun _ _ => trivial))) (.cons ⟨5, rfl⟩ (.cons trivial .nil))
    · refine List.rel_append (List.forall₂_map_left_iff.mpr (List.forall₂_map_right_iff.mpr
        (List.forall₂_same.mpr fun i hi => ?_))) (.cons rfl (.cons rfl .nil))
      have hi : i < 7 := List.mem_range.mp hi
      interval_cases i <;> rfl
    · intro p hp
      rcases List.mem_append.mp hp with hp | hp
      · obtain ⟨i, hi, rfl⟩ := List.mem_map.mp hp
        exact (List.mem_range.mp hi).trans (by decide)
      · rcases List.mem_pair.mp hp with rfl | rfl <;> decide
    · exact fun results n _ => ⟨_, n, rfl, le_rfl⟩
  · have h₁ := UnitStep.invoke (UnitState.start 0) false [⟨1, .ptrt⟩, ⟨2, .ptrt⟩] rfl
    have hs := (Relation.ReflTransGen.single h₁).tail
      (UnitStep.invoke _ false [⟨3, .labt⟩, ⟨4, .ptrt⟩] rfl)
    exact ⟨_, hs, rfl, (((invokeGC_correct cellMemory).2 0 _ hs).1 _ List.mem_cons_self _
      (List.mem_cons_of_mem _ List.mem_cons_self) rfl).2⟩

end SmlNj.InvokeGC
