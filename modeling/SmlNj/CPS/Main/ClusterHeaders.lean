import SmlNj.CPS.FirstOrder
import SmlNj.CPS.Main.NormalizeCluster
import SmlNj.Lib.ExceptList

/-!
# Headers of clusters

A new entry that is jumped to from its own cluster becomes a header, which jumps
to a function with a fresh label; the jumps of the cluster go to that label.
Replacing the jumps to it again gives back the cluster.

## Main definitions

* `headed` — the cluster with a header.
* `removeHeader` — the cluster without its header.

## Main results

* `checkForHeader_eq` — when a header is introduced.
* `removeHeader_headed` — the header is removed again.
-/

namespace SmlNj.NormalizeCluster

open CPS ExceptList

/-- The function with its jumps to `l` going to `h`. -/
def relabelFunction (l h : Lvar) (f : Function) : Function :=
  .mk f.kind f.name f.params f.tys (relabel l h f.body)

/-- The header of a function, which jumps to `h` with its parameters. -/
def header (h : Lvar) (entry : Function) : Function :=
  let params' := (List.range entry.params.length).map (h + 1 + ·)
  .mk entry.kind entry.name params' entry.tys (.app (.label h) (params'.map .var))

/-- **The cluster with a header**, whose jumps to the entry go to `h`. -/
def headed (h : Lvar) (entry : Function) (frags : List Function) : Cluster :=
  header h entry ::
    .mk .known h entry.params entry.tys (relabel entry.name h entry.body) ::
      frags.map (relabelFunction entry.name h)

/-- **The cluster without its header**, if it has one, whose label is not below `next`. -/
def removeHeader (next : Lvar) : Cluster → Cluster
  | entry :: hdr :: frags =>
      if next ≤ hdr.name then
        .mk entry.kind entry.name hdr.params hdr.tys (relabel hdr.name entry.name hdr.body) ::
          frags.map (relabelFunction hdr.name entry.name)
      else entry :: hdr :: frags
  | cluster => cluster

/-! ### The rewriting functions -/

theorem hasBackEdge_eq (l : Lvar) {e : Cexp} (he : FirstOrder e = true) :
    hasBackEdge l e = .ok ((callees e).contains l) := by
  refine Induction.term (P := fun e => hasBackEdge l e = .ok ((callees e).contains l))
    (Q := fun es => hasBackEdgeCases l es = .ok ((casesCallees es).contains l)) ?_ he
  constructor
  case label =>
    intro x args
    simp [hasBackEdge, Bool.beq_eq_decide_eq, eq_comm]
  case branch | cons =>
    intros
    simp_all only [hasBackEdge, hasBackEdgeCases, callees, casesCallees, ok_bind,
      List.contains_append]
    split <;> simp_all
  all_goals intros; simp_all [hasBackEdge, hasBackEdgeCases]

theorem rewrite_eq (l h : Lvar) {e : Cexp} (he : FirstOrder e = true) :
    rewrite l h e = .ok (relabel l h e) := by
  refine Induction.term (P := fun e => rewrite l h e = .ok (relabel l h e))
    (Q := fun es => rewriteCases l h es = .ok (relabelCases l h es)) ?_ he
  constructor
  case label =>
    intro x args
    by_cases hx : x = l <;> simp [rewrite, hx]
  all_goals intros; simp_all [rewrite, rewriteCases, ok_bind]

theorem rewriteFunction_eq (l h : Lvar) {f : Function} (hf : FirstOrder f.body = true) :
    rewriteFunction l h f = .ok (relabelFunction l h f) := by
  obtain ⟨fk, x, xs, tys, body⟩ := f
  have hbody : rewrite l h body = .ok (relabel l h body) := rewrite_eq l h hf
  rw [rewriteFunction, hbody]
  rfl

def BackEdge (entry : Function) (frags : List Function) : Prop :=
  ∃ f ∈ entry :: frags, entry.name ∈ callees f.body

instance (entry : Function) (frags : List Function) : Decidable (BackEdge entry frags) :=
  inferInstanceAs (Decidable (∃ f ∈ entry :: frags, entry.name ∈ callees f.body))

theorem anyM_hasBackEdge (l : Lvar) {fs : List Function}
    (hfs : ∀ f ∈ fs, FirstOrder f.body = true) :
    fs.anyM (fun f => hasBackEdge l f.body) =
      (.ok (fs.any fun f => (callees f.body).contains l) : Except Exn Bool) := by
  induction fs with
  | nil => rfl
  | cons f fs ih =>
    have hf := hasBackEdge_eq l (hfs f List.mem_cons_self)
    have ih := ih fun g hg => hfs g (List.mem_cons_of_mem _ hg)
    rw [List.anyM, hf, ok_bind, ih, List.any_cons]
    cases (callees f.body).contains l <;> rfl

theorem mapM_rewriteFunction (l h : Lvar) {fs : List Function}
    (hfs : ∀ f ∈ fs, FirstOrder f.body = true) :
    fs.mapM (rewriteFunction l h) = .ok (fs.map (relabelFunction l h)) := by
  refine mapM_eq_ok.mpr ?_
  rw [List.forall₂_map_right_iff, List.forall₂_same]
  exact fun f hf => rewriteFunction_eq l h (hfs f hf)

/-- **A header is introduced if there is a jump to the entry from its cluster.** -/
theorem checkForHeader_eq (next : Lvar) {entry : Function} {frags : List Function}
    (hfo : ∀ f ∈ entry :: frags, FirstOrder f.body = true) :
    checkForHeader next entry frags =
      .ok (if BackEdge entry frags then (headed next entry frags, next + 1 + entry.params.length)
        else (entry :: frags, next)) := by
  have hentry := hfo entry List.mem_cons_self
  have hfrags : ∀ f ∈ frags, FirstOrder f.body = true := fun f hf =>
    hfo f (List.mem_cons_of_mem _ hf)
  obtain ⟨fk, l, xs, tys, body⟩ := entry
  have hbody : FirstOrder body = true := hentry
  have hback : ((callees body).contains l ||
      frags.any fun f => (callees f.body).contains l) = true ↔
        BackEdge (.mk fk l xs tys body) frags := by
    simp [BackEdge]
  simp only [checkForHeader, hasBackEdge_eq l hbody, ok_bind, anyM_hasBackEdge l hfrags,
    mapM_rewriteFunction l next hfrags, rewrite_eq l next hbody]
  by_cases hb : BackEdge (.mk fk l xs tys body) frags
  · rw [if_pos hb]
    rcases Bool.or_eq_true_iff.mp (hback.mpr hb) with h | h
    · simp only [h, if_true]
      rfl
    · cases (callees body).contains l <;> simp only [h, if_true] <;> rfl
  · rw [if_neg hb]
    obtain ⟨h1, h2⟩ := Bool.or_eq_false_iff.mp (Bool.eq_false_iff.mpr fun h => hb (hback.mp h))
    simp only [h1, h2, Bool.false_eq_true, if_false]

/-! ### Clusters with headers -/

section Headed

variable {h : Lvar} {entry : Function} {frags : List Function}

theorem relabelFunction_relabelFunction {l : Lvar} {f : Function}
    (hf : FirstOrder f.body = true) (hh : h ∉ callees f.body) :
    relabelFunction h l (relabelFunction l h f) = f := by
  obtain ⟨fk, x, xs, tys, body⟩ := f
  have hbody : relabel h l (relabel l h body) = body := relabel_relabel hf hh
  unfold relabelFunction
  simp only [Function.kind_mk, Function.name_mk, Function.params_mk, Function.tys_mk,
    Function.body_mk, hbody]

/-- **Removing the header gives back the cluster.** -/
theorem removeHeader_headed {next : Lvar} (hnext : next ≤ h)
    (hfo : ∀ f ∈ entry :: frags, FirstOrder f.body = true)
    (hh : ∀ f ∈ entry :: frags, h ∉ callees f.body) :
    removeHeader next (headed h entry frags) = entry :: frags := by
  have hentry := relabelFunction_relabelFunction (l := entry.name) (hfo _ List.mem_cons_self)
    (hh _ List.mem_cons_self)
  have hfrags : (frags.map (relabelFunction entry.name h)).map (relabelFunction h entry.name) =
      frags := by
    rw [List.map_map]
    refine (List.map_congr_left fun f hf => ?_).trans (List.map_id frags)
    exact relabelFunction_relabelFunction (hfo f (List.mem_cons_of_mem _ hf))
      (hh f (List.mem_cons_of_mem _ hf))
  show (if next ≤ h then _ else _) = _
  rw [if_pos hnext]
  exact congrArg₂ List.cons hentry hfrags

theorem map_name_headed : (headed h entry frags).map Function.name =
    entry.name :: h :: frags.map Function.name := by
  unfold headed
  rw [List.map_cons, List.map_cons, List.map_map]
  rfl

theorem callees_headed (hfo : ∀ f ∈ entry :: frags, FirstOrder f.body = true) {f : Function}
    (hf : f ∈ headed h entry frags) {l : Lvar} (hl : l ∈ callees f.body) :
    l = h ∨ l ≠ entry.name ∧ ∃ g ∈ entry :: frags, l ∈ callees g.body := by
  have hrel : ∀ g ∈ entry :: frags, l ∈ callees (relabel entry.name h g.body) →
      l = h ∨ l ≠ entry.name ∧ ∃ g ∈ entry :: frags, l ∈ callees g.body := by
    intro g hg hlg
    rw [callees_relabel _ _ (hfo g hg)] at hlg
    obtain ⟨x, hx, rfl⟩ := List.mem_map.mp hlg
    split
    · exact .inl rfl
    · next hne => exact .inr ⟨hne, g, hg, hx⟩
  rcases List.mem_cons.mp hf with rfl | hf'
  · exact .inl (List.mem_singleton.mp hl)
  · rcases List.mem_cons.mp hf' with rfl | hf''
    · exact hrel entry List.mem_cons_self hl
    · obtain ⟨g, hg, rfl⟩ := List.mem_map.mp hf''
      exact hrel g (List.mem_cons_of_mem _ hg) hl

end Headed

/-- **What becomes of a cluster**, whose entry may be a new one: it gets a header with a label from
`next` to `next'`, or has no need of one. -/
inductive Finished (next next' : Lvar) (new : Bool) (entry : Function) (frags : List Function) :
    Cluster → Prop
  | same (h : new = true → ¬BackEdge entry frags) :
      Finished next next' new entry frags (entry :: frags)
  | headed {h : Lvar} (hnew : new = true) (hle : next ≤ h) (hlt : h < next') :
      Finished next next' new entry frags (headed h entry frags)

end SmlNj.NormalizeCluster
