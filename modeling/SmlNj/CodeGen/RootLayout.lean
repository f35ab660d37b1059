import Mathlib.Data.List.Enum
import SmlNj.CodeGen.InvokeGC

/-!
# The layout of the roots

Whatever the parameters are, the layout has the right number of roots, every parameter is in one of
them, raw parameters only in the raw part of a record, and unpacking the new roots is a sequence of
updates: one for each access to a root.

## Main definitions

* `Root.accesses` — the parameters that a root holds, with how they are fetched from it.

## Main results

* `assignRoots_spec` — the layout is right.
* `unpack_eq` — the results of unpacking.
-/

namespace SmlNj

namespace CFG

/-- The kind of the raw values of a type; the other types have a uniform representation. -/
def Ty.rawKind : Ty → Option Prim.Numkind
  | .numt _ => some .int
  | .fltt _ => some .flt
  | _ => none

def Ty.Raw64 : Ty → Prop
  | .numt sz => sz = 64
  | .fltt sz => sz = 64
  | _ => True

end CFG

namespace InvokeGC

open CFG

/-! ### Splitting the parameters -/

def boxedIxs (ix : ℕ) (params : List Param) : List ℕ :=
  (params.zipIdx ix).filterMap fun q => if q.1.ty.rawKind = none then some q.2 else none

def rawIxs (ix : ℕ) (params : List Param) : List (ℕ × Prim.Numkind) :=
  (params.zipIdx ix).filterMap fun q => q.1.ty.rawKind.map (q.2, ·)

variable {params live : List Param} {i : ℕ} {k : Prim.Numkind} {p : Param}

theorem mem_boxedIxs : i ∈ boxedIxs 0 params ↔ ∃ p, params[i]? = some p ∧ p.ty.rawKind = none := by
  simp only [boxedIxs, List.mem_filterMap, Prod.exists, List.mem_zipIdx_iff_getElem?]
  constructor
  · rintro ⟨p, j, hp, h⟩
    split at h
    · cases h
      exact ⟨p, hp, ‹_›⟩
    · cases h
  · rintro ⟨p, hp, hk⟩
    exact ⟨p, i, hp, if_pos hk⟩

theorem mem_rawIxs :
    (i, k) ∈ rawIxs 0 params ↔ ∃ p, params[i]? = some p ∧ p.ty.rawKind = some k := by
  simp only [rawIxs, List.mem_filterMap, Prod.exists, List.mem_zipIdx_iff_getElem?]
  constructor
  · rintro ⟨p, j, hp, h⟩
    obtain ⟨k', hk, he⟩ := Option.map_eq_some_iff.mp h
    cases he
    exact ⟨p, hp, hk⟩
  · rintro ⟨p, hp, hk⟩
    exact ⟨p, i, hp, by rw [hk, Option.map_some]⟩

theorem boxedIxs_uniform (h : p.ty.rawKind = none) (ix : ℕ) (params : List Param) :
    boxedIxs ix (p :: params) = ix :: boxedIxs (ix + 1) params := by
  rw [boxedIxs, List.zipIdx_cons, List.filterMap_cons, if_pos h]
  rfl

theorem boxedIxs_raw (h : p.ty.rawKind = some k) (ix : ℕ) (params : List Param) :
    boxedIxs ix (p :: params) = boxedIxs (ix + 1) params := by
  rw [boxedIxs, List.zipIdx_cons, List.filterMap_cons, h, if_neg (Option.some_ne_none k)]
  rfl

theorem rawIxs_uniform (h : p.ty.rawKind = none) (ix : ℕ) (params : List Param) :
    rawIxs ix (p :: params) = rawIxs (ix + 1) params := by
  rw [rawIxs, List.zipIdx_cons, List.filterMap_cons, h]
  rfl

theorem rawIxs_raw (h : p.ty.rawKind = some k) (ix : ℕ) (params : List Param) :
    rawIxs ix (p :: params) = (ix, k) :: rawIxs (ix + 1) params := by
  rw [rawIxs, List.zipIdx_cons, List.filterMap_cons, h]
  rfl

theorem split_uniform (h : p.ty.rawKind = none) (ix : ℕ) (params : List Param) (boxed : List ℕ)
    (raw : List (ℕ × Prim.Numkind)) :
    split ix (p :: params) boxed raw = split (ix + 1) params (ix :: boxed) raw := by
  obtain ⟨name, ty⟩ := p
  cases ty <;> first | rfl | cases h

theorem split_raw (h : p.ty.rawKind = some k) (h64 : p.ty.Raw64) (ix : ℕ) (params : List Param)
    (boxed : List ℕ) (raw : List (ℕ × Prim.Numkind)) :
    split ix (p :: params) boxed raw = split (ix + 1) params boxed ((ix, k) :: raw) := by
  obtain ⟨name, ty⟩ := p
  cases ty <;> cases h <;> exact if_pos h64

/-- **The two lists of parameters**, when the raw ones are 64 bits wide. -/
theorem split_eq (h : ∀ p ∈ params, p.ty.Raw64) (ix : ℕ) (boxed : List ℕ)
    (raw : List (ℕ × Prim.Numkind)) :
    split ix params boxed raw = .ok (ix + params.length, boxed.reverse ++ boxedIxs ix params,
      raw.reverse ++ rawIxs ix params) := by
  induction params generalizing ix boxed raw with
  | nil => simp [split, boxedIxs, rawIxs]
  | cons p params ih =>
    have ih := ih fun q hq => h q (List.mem_cons_of_mem _ hq)
    have hlen : ix + (p :: params).length = ix + 1 + params.length := by
      rw [List.length_cons, Nat.add_right_comm, Nat.add_assoc]
    -- the parameter is added to one of the two lists, which are reversed in the end
    cases hk : p.ty.rawKind with
    | none =>
      rw [split_uniform hk, ih, hlen, boxedIxs_uniform hk, rawIxs_uniform hk, List.reverse_cons,
        List.append_assoc, List.singleton_append]
    | some k =>
      rw [split_raw hk (h p List.mem_cons_self), ih, hlen, boxedIxs_raw hk, rawIxs_raw hk,
        List.reverse_cons, List.append_assoc, List.singleton_append]

/-! ### Assigning roots -/

/-- The roots after the assignment: the others are as before. -/
theorem assignLoop_spec (extra : Option Root) (gcRoots : List Root) (ids ixs : List ℕ)
    (hnd : ids.Nodup) (hlt : ∀ id ∈ ids, id < gcRoots.length)
    (hlen : ixs.length + extra.toList.length ≤ ids.length) :
    ∃ roots, assignLoop extra gcRoots ids ixs = .ok roots ∧ roots.length = gcRoots.length ∧
      (∀ j, j ∉ ids → roots[j]? = gcRoots[j]?) ∧ (∀ ix ∈ ixs, Root.ptr ix ∈ roots) ∧
      (∀ r, extra = some r → r ∈ roots) ∧
      ∀ r ∈ roots, r ∈ gcRoots ∨ (∃ ix ∈ ixs, r = .ptr ix) ∨ extra = some r := by
  induction ixs generalizing gcRoots ids with
  | nil =>
    cases extra with
    | none =>
      refine ⟨gcRoots, by cases ids <;> rfl, rfl, fun _ _ => rfl, fun _ h => ?_, fun _ h => ?_,
        fun r hr => .inl hr⟩
      · cases h
      · cases h
    | some r =>
      cases ids with
      | nil => simp at hlen
      | cons id ids =>
        have hid : id < gcRoots.length := hlt id List.mem_cons_self
        refine ⟨gcRoots.set id r, rfl, List.length_set, fun j hj => ?_, fun _ h => ?_,
          fun r' h => ?_, fun r' hr' => ?_⟩
        · exact List.getElem?_set_ne fun h : id = j => hj (h ▸ List.mem_cons_self)
        · cases h
        · cases h
          exact List.mem_set hid _
        · rcases List.mem_or_eq_of_mem_set hr' with h | rfl
          · exact .inl h
          · exact .inr (.inr rfl)
  | cons ix ixs ih =>
    cases ids with
    | nil => simp at hlen
    | cons id ids =>
      obtain ⟨hid, hnd⟩ := List.nodup_cons.mp hnd
      have hlt' : id < gcRoots.length := hlt id List.mem_cons_self
      obtain ⟨roots, h, hl, hout, hptr, hex, hr⟩ := ih (gcRoots.set id (.ptr ix)) ids hnd
        (fun j hj => by rw [List.length_set]; exact hlt j (List.mem_cons_of_mem _ hj))
        (by simp only [List.length_cons] at hlen; omega)
      refine ⟨roots, h, hl.trans List.length_set, fun j hj => ?_, fun jx hjx => ?_, hex,
        fun r hr' => ?_⟩
      · rw [hout j fun hj' => hj (List.mem_cons_of_mem _ hj')]
        exact List.getElem?_set_ne fun h' : id = j => hj (h' ▸ List.mem_cons_self)
      · rcases List.mem_cons.mp hjx with rfl | hjx
        · have hget : roots[id]? = some (.ptr jx) := by
            rw [hout id hid, List.getElem?_set_self hlt']
          exact List.mem_of_getElem? hget
        · exact hptr jx hjx
      · rcases hr r hr' with h' | ⟨jx, hjx, rfl⟩ | h'
        · rcases List.mem_or_eq_of_mem_set h' with h' | rfl
          · exact .inl h'
          · exact .inr (.inl ⟨ix, List.mem_cons_self, rfl⟩)
        · exact .inr (.inl ⟨jx, List.mem_cons_of_mem _ hjx, rfl⟩)
        · exact .inr (.inr h')

def rootIds (isCont : Bool) : List ℕ := if isCont then contRootOrder else stdRootOrder

theorem rootIds_eq (isCont : Bool) :
    (if isCont = true then contRootOrder else stdRootOrder) = rootIds isCont := rfl

theorem rootIds_nodup (isCont : Bool) : (rootIds isCont).Nodup := by
  cases isCont <;> decide

theorem rootIds_lt (isCont : Bool) : ∀ id ∈ rootIds isCont, id < numGCRoots := by
  cases isCont <;> decide

theorem length_rootIds (isCont : Bool) : (rootIds isCont).length = numGCRoots := by
  cases isCont <;> decide

/-! ### The accesses to the roots -/

namespace Root

/-- The parameters that a root holds, with how they are fetched from the variable that is bound to
the root. -/
def accesses (x : Lvar) : Root → List (ℕ × Exp)
  | .unit => []
  | .ptr ix => [(ix, .var x)]
  | .record roots raw =>
    (roots.zipIdx.map fun q => (q.1, Exp.select q.2 (.var x))) ++
      (raw.zipIdx roots.length).map fun q => (q.1.1, rawSelect q.1.2 64 (8 * q.2) (.var x))

def Ok (live : List Param) : Root → Prop
  | .unit => True
  | .ptr ix => ix ∈ boxedIxs 0 live
  | .record roots raw => (∀ ix ∈ roots, ix ∈ boxedIxs 0 live) ∧ ∀ q ∈ raw, q ∈ rawIxs 0 live

def indices : Root → List ℕ
  | .unit => []
  | .ptr ix => [ix]
  | .record roots raw => roots ++ raw.map Prod.fst

theorem map_fst_accesses (x : Lvar) (r : Root) : (r.accesses x).map Prod.fst = r.indices := by
  cases r with
  | unit | ptr ix => rfl
  | record roots raw =>
    have hroots : roots.zipIdx.map (fun q => q.1) = roots := List.zipIdx_map_fst 0 roots
    have hraw : (raw.zipIdx roots.length).map (fun q => q.1.1) = raw.map Prod.fst := by
      conv_rhs => rw [← List.zipIdx_map_fst roots.length raw, List.map_map]
      rfl
    simp [accesses, indices, Function.comp_def, hroots, hraw]

end Root

/-- What the layout of the roots is to fulfil. -/
structure Layout (live : List Param) (roots : List Root) : Prop where
  length : roots.length = numGCRoots
  ok : ∀ r ∈ roots, r.Ok live
  covers : ∀ i < live.length, ∃ r ∈ roots, i ∈ r.indices

theorem mem_boxedIxs_or_rawIxs (h : i < live.length) :
    i ∈ boxedIxs 0 live ∨ i ∈ (rawIxs 0 live).map Prod.fst := by
  have hget : live[i]? = some live[i] := List.getElem?_eq_getElem h
  cases hk : live[i].ty.rawKind with
  | none => exact .inl (mem_boxedIxs.mpr ⟨_, hget, hk⟩)
  | some k => exact .inr (List.mem_map.mpr ⟨(i, k), mem_rawIxs.mpr ⟨_, hget, hk⟩, rfl⟩)

theorem assignLoop_layout (isCont : Bool) (boxed : List ℕ) (extra : Option Root)
    (hlen : boxed.length + extra.toList.length ≤ numGCRoots)
    (hb : ∀ ix ∈ boxed, ix ∈ boxedIxs 0 live) (he : ∀ r, extra = some r → r.Ok live)
    (hc : ∀ i < live.length, i ∈ boxed ∨ ∃ r, extra = some r ∧ i ∈ r.indices) :
    ∃ roots, assignLoop extra (List.replicate numGCRoots .unit) (rootIds isCont) boxed =
      .ok roots ∧ Layout live roots := by
  obtain ⟨roots, h, hl, _, hptr, hex, hr⟩ := assignLoop_spec extra
    (List.replicate numGCRoots .unit) (rootIds isCont) boxed (rootIds_nodup isCont)
    (by rw [List.length_replicate]; exact rootIds_lt isCont)
    (by rw [length_rootIds]; exact hlen)
  refine ⟨roots, h, hl.trans List.length_replicate, fun r hr' => ?_, fun i hi => ?_⟩
  · rcases hr r hr' with h | ⟨ix, hix, rfl⟩ | h
    · rw [List.eq_of_mem_replicate h]
      trivial
    · exact hb ix hix
    · exact he r h
  · rcases hc i hi with h | ⟨r, h, hi⟩
    · exact ⟨.ptr i, hptr i h, List.mem_singleton_self i⟩
    · exact ⟨r, hex r h, hi⟩

/-- **The layout is right**, however many parameters of either representation there are. -/
theorem assignRoots_spec (isCont : Bool) (h : ∀ p ∈ live, p.ty.Raw64) :
    ∃ roots, assignRoots isCont live = .ok (live.length, roots) ∧ Layout live roots := by
  have hsplit := split_eq h 0 [] []
  simp only [Nat.zero_add, List.reverse_nil, List.nil_append] at hsplit
  have hix : ∀ i < live.length, i ∈ boxedIxs 0 live ∨ i ∈ (rawIxs 0 live).map Prod.fst :=
    fun i hi => mem_boxedIxs_or_rawIxs hi
  -- the parameters beyond the first six are in the record
  have hexcess : numGCRoots - 1 ≤ (boxedIxs 0 live).length →
      ∃ roots, assignLoop (some (.record ((boxedIxs 0 live).drop (numGCRoots - 1)) (rawIxs 0 live)))
        (List.replicate numGCRoots .unit) (rootIds isCont)
        ((boxedIxs 0 live).take (numGCRoots - 1)) = .ok roots ∧ Layout live roots := by
    intro hlen
    refine assignLoop_layout isCont _ _ ?_ (fun ix hix => List.mem_of_mem_take hix) ?_ ?_
    · rw [List.length_take, min_eq_left hlen]
      exact le_rfl
    · rintro r ⟨⟩
      exact ⟨fun ix hix => List.mem_of_mem_drop hix, fun q hq => hq⟩
    · intro i hi
      rcases hix i hi with hb | hr
      · rw [← List.take_append_drop (numGCRoots - 1) (boxedIxs 0 live)] at hb
        rcases List.mem_append.mp hb with hb | hb
        · exact .inl hb
        · exact .inr ⟨_, rfl, List.mem_append_left _ hb⟩
      · exact .inr ⟨_, rfl, List.mem_append_right _ hr⟩
  have hno : (rawIxs 0 live).length = 0 → ∀ i < live.length, i ∈ boxedIxs 0 live := by
    intro hraw i hi
    rcases hix i hi with hb | hr
    · exact hb
    · rw [List.length_eq_zero_iff.mp hraw] at hr
      cases hr
  unfold assignRoots
  rw [hsplit]
  by_cases hraw : (rawIxs 0 live).length = 0
  · by_cases hb : (boxedIxs 0 live).length ≤ numGCRoots
    · obtain ⟨roots, hl, hlay⟩ := assignLoop_layout isCont (boxedIxs 0 live) none hb
        (fun _ h => h) (fun _ h => nomatch h) fun i hi => .inl (hno hraw i hi)
      refine ⟨roots, ?_, hlay⟩
      simp only [bind, Except.bind, hraw, hb, if_true]
      rw [rootIds_eq, hl]
      rfl
    · obtain ⟨roots, hl, hlay⟩ := hexcess (by omega)
      refine ⟨roots, ?_, hlay⟩
      rw [List.length_eq_zero_iff.mp hraw] at hl
      simp only [bind, Except.bind, hraw, hb, if_true, if_false, List.splitAt_eq]
      rw [rootIds_eq, hl]
      rfl
  · by_cases hb : (boxedIxs 0 live).length < numGCRoots
    · obtain ⟨roots, hl, hlay⟩ := assignLoop_layout isCont (boxedIxs 0 live)
        (some (.record [] (rawIxs 0 live)))
        (by simp only [Option.toList_some, List.length_singleton]; omega) (fun _ h => h)
        (by
          rintro r ⟨⟩
          exact ⟨fun _ h => (nomatch h), fun q hq => hq⟩)
        (by
          intro i hi
          rcases hix i hi with hb | hr
          · exact .inl hb
          · exact .inr ⟨_, rfl, hr⟩)
      refine ⟨roots, ?_, hlay⟩
      simp only [bind, Except.bind, hraw, hb, if_true, if_false]
      rw [rootIds_eq, hl]
      rfl
    · obtain ⟨roots, hl, hlay⟩ := hexcess (by omega)
      refine ⟨roots, ?_, hlay⟩
      simp only [bind, Except.bind, hraw, hb, if_false, List.splitAt_eq]
      rw [rootIds_eq, hl]
      rfl

/-! ### Unpacking -/

def setAll (results : List Exp) (as : List (ℕ × Exp)) : List Exp :=
  as.foldl (fun res a => res.set a.1 a.2) results

theorem length_setAll (as : List (ℕ × Exp)) (results : List Exp) :
    (setAll results as).length = results.length := by
  induction as generalizing results with
  | nil => rfl
  | cons a as ih => exact (ih _).trans List.length_set

theorem setAll_append (results : List Exp) (as bs : List (ℕ × Exp)) :
    setAll results (as ++ bs) = setAll (setAll results as) bs := List.foldl_append

theorem setAll_spec {P : ℕ → Exp → Prop} {as : List (ℕ × Exp)} (h : ∀ a ∈ as, P a.1 a.2)
    {results : List Exp} {e : Exp} (he : (setAll results as)[i]? = some e)
    (hi : i ∈ as.map Prod.fst ∨ ∀ e, results[i]? = some e → P i e) : P i e := by
  induction as generalizing results with
  | nil =>
    rcases hi with hi | hi
    · cases hi
    · exact hi e he
  | cons a as ih =>
    refine ih (fun b hb => h b (List.mem_cons_of_mem _ hb)) he ?_
    by_cases hia : a.1 = i
    · -- a later update may come, but so far the value is the one of this update
      refine .inr fun e' he' => ?_
      subst hia
      rw [List.getElem?_set_self'] at he'
      obtain ⟨_, _, rfl⟩ := Option.map_eq_some_iff.mp he'
      exact h a List.mem_cons_self
    · rcases hi with hi | hi
      · rcases List.mem_cons.mp hi with rfl | hi
        · exact absurd rfl hia
        · exact .inl hi
      · exact .inr fun e' he' => hi e' (by rwa [List.getElem?_set_ne hia] at he')

theorem unpackRaw_eq (x : Lvar) (raw : List (ℕ × Prim.Numkind)) (ix : ℕ) (results : List Exp) :
    unpackRaw x ix raw results = setAll results
      ((raw.zipIdx ix).map fun q => (q.1.1, rawSelect q.1.2 64 (8 * q.2) (.var x))) := by
  induction raw generalizing ix results with
  | nil => rfl
  | cons r raw ih =>
    rw [unpackRaw, ih]
    rfl

theorem unpackRoots_eq (x : Lvar) (raw : List (ℕ × Prim.Numkind)) (roots : List ℕ) (ix : ℕ)
    (results : List Exp) :
    unpackRoots x raw ix roots results = setAll results
      (((roots.zipIdx ix).map fun q => (q.1, Exp.select q.2 (.var x))) ++
        (raw.zipIdx (ix + roots.length)).map
          fun q => (q.1.1, rawSelect q.1.2 64 (8 * q.2) (.var x))) := by
  induction roots generalizing ix results with
  | nil => exact unpackRaw_eq x raw ix results
  | cons jx roots ih =>
    rw [unpackRoots, ih, List.length_cons, Nat.add_right_comm, Nat.add_assoc]
    rfl

def allAccesses (newRoots : List Lvar) (roots : List Root) : List (ℕ × Exp) :=
  (newRoots.zip roots).flatMap fun q => q.2.accesses q.1

/-- **Unpacking fetches every parameter from its root.** -/
theorem unpack_eq {newRoots : List Lvar} {roots : List Root} (h : newRoots.length = roots.length)
    (results : List Exp) :
    unpack newRoots roots results = .ok (setAll results (allAccesses newRoots roots)) := by
  induction newRoots generalizing roots results with
  | nil =>
    obtain rfl : roots = [] := List.length_eq_zero_iff.mp h.symm
    rfl
  | cons x xs ih =>
    cases roots with
    | nil => cases h
    | cons r rs =>
      have ih := fun results => ih (Nat.succ.inj h) results
      cases r with
      | unit => exact ih results
      | ptr ix => exact ih _
      | record roots raw =>
        rw [unpack, ih, unpackRoots_eq, Nat.zero_add, ← setAll_append]
        rfl

theorem Layout.mem_allAccesses {roots : List Root} (h : Layout live roots) {newRoots : List Lvar}
    (hlen : newRoots.length = roots.length) (hi : i < live.length) :
    i ∈ (allAccesses newRoots roots).map Prod.fst := by
  obtain ⟨r, hr, hir⟩ := h.covers i hi
  obtain ⟨j, hj, rfl⟩ := List.mem_iff_getElem.mp hr
  have hj' : j < newRoots.length := hlen ▸ hj
  rw [← Root.map_fst_accesses newRoots[j]] at hir
  rw [allAccesses, List.map_flatMap]
  refine List.mem_flatMap.mpr ⟨(newRoots[j], roots[j]), ?_, hir⟩
  rw [List.mem_iff_getElem]
  exact ⟨j, by rw [List.length_zip, hlen, min_self]; exact hj, List.getElem_zip⟩

end InvokeGC

end SmlNj
