import SmlNj.CodeGen.CfgSemantics
import SmlNj.CodeGen.RootLayout

/-!
# The collector preserves the live values

The code that invokes the garbage collector, executed with any memory whose records can be read back
and any collector that returns roots denoting the same values, passes a fixed number of roots and
goes on with the live values in their original positions.

## Main definitions

* `Memory` — what the code relies on: records and a collector.
* `Memory.Holds` — a value holds what a root is to hold.

## Main results

* `pack_spec` — the roots that are passed hold the parameters.
* `callGC_spec` — the results are the live values.
-/

namespace SmlNj.InvokeGC

open CFG LambdaVar ObjectDesc

variable {i : ℕ} {n : Lvar}

theorem forall₂_getElem? {α β : Type} {R : α → β → Prop} {xs : List α} {ys : List β}
    (h : List.Forall₂ R xs ys) {a : α} (ha : xs[i]? = some a) : ∃ b, ys[i]? = some b ∧ R a b := by
  induction h generalizing i with
  | nil => cases ha
  | cons hab _ ih =>
    cases i with
    | zero =>
      cases ha
      exact ⟨_, rfl, hab⟩
    | succ i => exact ih ha

variable {V W : Type}

/-- **A memory with a garbage collector.**  Values of uniform representation may be different in
another world and yet denote the same, since the collector moves records; the fields of records that
denote the same denote the same.  The fields of a new record can be read, raw fields with their
kind, and a collection returns roots that denote the same. -/
structure Memory (I : Interp V W) where
  /-- The value has the uniform representation. -/
  uniform : W → V → Prop
  raw : Prim.Numkind → V → Prop
  /-- A value in a world denotes the same as a value in another. -/
  same : W → V → W → V → Prop
  refl (w : W) (v : V) : same w v w v
  trans {w w' w'' : W} {v v' v'' : V} (h : same w v w' v') (h' : same w' v' w'' v'') :
    same w v w'' v''
  uniform_unit (w : W) : uniform w (I.num 1 Target.mlValueSz)
  uniform_of_same {w w' : W} {v v' : V} (h : same w v w' v') (hv : uniform w v) : uniform w' v'
  select_of_same {w w' : W} {r r' v : V} {i : ℕ} (h : same w r w' r')
    (hv : I.select i r w = some v) : ∃ v', I.select i r' w' = some v' ∧ same w v w' v'
  rawSelect_of_same {w w' : W} {r r' v : V} {k : Prim.Numkind} {i : ℕ} (h : same w r w' r')
    (hv : I.pure (.rawSelect k 64 (8 * i)) [r] = some v) :
    I.pure (.rawSelect k 64 (8 * i)) [r'] = some v
  record (w : W) {vs : List V} (h : ∀ v ∈ vs, uniform w v) :
    ∃ r w', I.alloc (InvokeGC.record (makeDesc vs.length tagRecord)) vs w = some (r, w') ∧
      uniform w' r ∧ (∀ v, same w v w' v) ∧ ∀ i v, vs[i]? = some v → I.select i r w' = some v
  rawRecord (w : W) {ks : List Prim.Numkind} {vs : List V} (h : List.Forall₂ raw ks vs) :
    ∃ r w', I.alloc (.rawRecord (makeDesc ks.length tagRaw) 64 (ks.map fun k => ⟨k, 64⟩)) vs w =
      some (r, w') ∧ uniform w' r ∧ (∀ v, same w v w' v) ∧
      ∀ i k v, ks[i]? = some k → vs[i]? = some v →
        I.pure (.rawSelect k 64 (8 * i)) [r] = some v
  /-- A record of uniform values and raw ones. -/
  mixedRecord (w : W) {us : List V} {ks : List Prim.Numkind} {vs : List V} {desc : ℤ}
    (hd : makeMixedDesc us.length ks.length = .ok desc) (hu : ∀ v ∈ us, uniform w v)
    (h : List.Forall₂ raw ks vs) :
    ∃ r w', I.alloc (InvokeGC.record desc) (us ++ vs) w = some (r, w') ∧ uniform w' r ∧
      (∀ v, same w v w' v) ∧ (∀ i v, us[i]? = some v → I.select i r w' = some v) ∧
      ∀ i k v, ks[i]? = some k → vs[i]? = some v →
        I.pure (.rawSelect k 64 (8 * (us.length + i))) [r] = some v
  callgc (w : W) {vs : List V} (hlen : vs.length = numGCRoots) (h : ∀ v ∈ vs, uniform w v) :
    ∃ vs' w', I.callgc vs w = some (vs', w') ∧ List.Forall₂ (fun v v' => same w v w' v') vs vs'

variable {w : W} {rs : List V} {env : Env V}

namespace Memory

variable {I : Interp V W} (C : Memory I)

def Fits (w : W) (ty : Ty) (v : V) : Prop :=
  match ty.rawKind with
  | none => C.uniform w v
  | some k => C.raw k v

/-- **A value of a type is preserved**: a raw one is the same. -/
def Keeps (ty : Ty) (w : W) (v : V) (w' : W) (v' : V) : Prop :=
  match ty.rawKind with
  | none => C.same w v w' v'
  | some _ => v' = v

def Bound (env : Env V) (live : List Param) (vs : List V) : Prop :=
  List.Forall₂ (fun p v => env p.name = some v) live vs

section

variable (live : List Param) (vs : List V) (w₀ : W)

def Yields (env : Env V) (w : W) (i : ℕ) (e : Exp) : Prop :=
  ∃ p v v', live[i]? = some p ∧ vs[i]? = some v ∧ eval I env w e = some v' ∧
    C.Keeps p.ty w₀ v w v'

/-- **A value holds what a root is to hold**: every parameter can be fetched from it. -/
structure Holds (w : W) (root : Root) (r : V) : Prop where
  uniform : C.uniform w r
  yields (env : Env V) (x : Lvar) (hx : env x = some r) (a : ℕ × Exp) (ha : a ∈ root.accesses x) :
    C.Yields live vs w₀ env w a.1 a.2

variable {live vs w₀} {C}

theorem uniform_of_mem (hvs : List.Forall₂ (fun p v => C.Fits w p.ty v) live vs)
    (hi : i ∈ boxedIxs 0 live) :
    ∃ p v, live[i]? = some p ∧ vs[i]? = some v ∧ p.ty.rawKind = none ∧ C.uniform w v := by
  obtain ⟨p, hp, hk⟩ := mem_boxedIxs.mp hi
  obtain ⟨v, hv, hfit⟩ := forall₂_getElem? hvs hp
  rw [Fits, hk] at hfit
  exact ⟨p, v, hp, hv, hk, hfit⟩

theorem raw_of_mem (hvs : List.Forall₂ (fun p v => C.Fits w p.ty v) live vs) {k : Prim.Numkind}
    (hi : (i, k) ∈ rawIxs 0 live) :
    ∃ p v, live[i]? = some p ∧ vs[i]? = some v ∧ p.ty.rawKind = some k ∧ C.raw k v := by
  obtain ⟨p, hp, hk⟩ := mem_rawIxs.mp hi
  obtain ⟨v, hv, hfit⟩ := forall₂_getElem? hvs hp
  rw [Fits, hk] at hfit
  exact ⟨p, v, hp, hv, hk, hfit⟩

/-- **What a root holds is preserved.** -/
theorem Holds.of_same {w' : W} {root : Root} {r r' : V} (hok : root.Ok live)
    (h : C.Holds live vs w₀ w root r) (hs : C.same w r w' r') : C.Holds live vs w₀ w' root r' := by
  refine ⟨C.uniform_of_same hs h.uniform, fun env x hx a ha => ?_⟩
  obtain ⟨p, v, v', hp, hv, he, hk⟩ := h.yields (fun _ => some r) x rfl a ha
  cases root with
  | unit => cases ha
  | ptr ix =>
    obtain rfl := List.mem_singleton.mp ha
    obtain ⟨q, hq, hraw⟩ := mem_boxedIxs.mp hok
    obtain rfl : q = p := Option.some.inj (hq.symm.trans hp)
    obtain rfl : r = v' := Option.some.inj he
    rw [Keeps, hraw] at hk
    refine ⟨q, v, r', hp, hv, hx, ?_⟩
    rw [Keeps, hraw]
    exact C.trans hk hs
  | record roots raw =>
    rcases List.mem_append.mp ha with ha | ha
    · -- a pointer of the record
      obtain ⟨⟨jx, i⟩, hmem, rfl⟩ := List.mem_map.mp ha
      obtain ⟨q, hq, hraw⟩ := mem_boxedIxs.mp (hok.1 jx (List.fst_mem_of_mem_zipIdx hmem))
      obtain rfl : q = p := Option.some.inj (hq.symm.trans hp)
      rw [Keeps, hraw] at hk
      obtain ⟨v'', hv'', hs'⟩ := C.select_of_same hs (he : I.select i r w = some v')
      refine ⟨q, v, v'', hp, hv, ?_, ?_⟩
      · rw [eval, eval, hx, Option.bind_some, hv'']
      · rw [Keeps, hraw]
        exact C.trans hk hs'
    · -- a raw field
      obtain ⟨⟨⟨jx, k⟩, i⟩, hmem, rfl⟩ := List.mem_map.mp ha
      obtain ⟨q, hq, hraw⟩ := mem_rawIxs.mp (hok.2 (jx, k) (List.fst_mem_of_mem_zipIdx hmem))
      obtain rfl : q = p := Option.some.inj (hq.symm.trans hp)
      rw [Keeps, hraw] at hk
      subst hk
      have hr' := C.rawSelect_of_same hs (he : I.pure (.rawSelect k 64 (8 * i)) [r] = some v')
      refine ⟨q, v', v', hp, hv, ?_, ?_⟩
      · simpa only [rawSelect, eval, evals, hx, Option.bind_some, Option.map_some] using hr'
      · rw [Keeps, hraw]

theorem holds_ptr (hw : ∀ v, C.same w₀ v w v)
    (hvs : List.Forall₂ (fun p v => C.Fits w₀ p.ty v) live vs) (hi : i ∈ boxedIxs 0 live) {v : V}
    (hv : vs[i]? = some v) : C.Holds live vs w₀ w (.ptr i) v := by
  obtain ⟨p, v', hp, hv', hk, hu⟩ := uniform_of_mem hvs hi
  obtain rfl : v' = v := Option.some.inj (hv'.symm.trans hv)
  refine ⟨C.uniform_of_same (hw v') hu, fun env x hx a ha => ?_⟩
  obtain rfl := List.mem_singleton.mp ha
  refine ⟨p, v', v', hp, hv, hx, ?_⟩
  rw [Keeps, hk]
  exact hw v'

theorem holds_unit (w : W) : C.Holds live vs w₀ w .unit (I.num 1 Target.mlValueSz) :=
  ⟨C.uniform_unit w, fun _ _ _ _ ha => nomatch ha⟩

/-- **A record holds the parameters whose values its fields are.** -/
theorem holds_record (hw : ∀ v, C.same w₀ v w v)
    (hvs : List.Forall₂ (fun p v => C.Fits w₀ p.ty v) live vs) {roots : List ℕ}
    {raw : List (ℕ × Prim.Numkind)} (hok : (Root.record roots raw).Ok live) {us : List V}
    (hus : List.Forall₂ (fun ix v => vs[ix]? = some v) roots us)
    (hrs : List.Forall₂ (fun q v => vs[q.1]? = some v) raw rs) {r : V} (hr : C.uniform w r)
    (hsel : ∀ i v, us[i]? = some v → I.select i r w = some v)
    (hraw : ∀ i k v, (raw.map Prod.snd)[i]? = some k → rs[i]? = some v →
      I.pure (.rawSelect k 64 (8 * (us.length + i))) [r] = some v) :
    C.Holds live vs w₀ w (.record roots raw) r := by
  refine ⟨hr, fun env x hx a ha => ?_⟩
  rcases List.mem_append.mp ha with ha | ha
  · obtain ⟨⟨jx, i⟩, hmem, rfl⟩ := List.mem_map.mp ha
    have hix : roots[i]? = some jx := List.mem_zipIdx_iff_getElem?.mp hmem
    obtain ⟨v, hv, hjx⟩ := forall₂_getElem? hus hix
    obtain ⟨p, v', hp, hv', hk, _⟩ := uniform_of_mem hvs (hok.1 jx (List.mem_of_getElem? hix))
    obtain rfl : v' = v := Option.some.inj (hv'.symm.trans hjx)
    refine ⟨p, v', v', hp, hjx, ?_, ?_⟩
    · rw [eval, eval, hx, Option.bind_some, hsel i v' hv]
    · rw [Keeps, hk]
      exact hw v'
  · obtain ⟨⟨⟨jx, k⟩, i⟩, hmem, rfl⟩ := List.mem_map.mp ha
    obtain ⟨j, rfl⟩ := Nat.exists_eq_add_of_le (List.le_snd_of_mem_zipIdx hmem)
    have hix : raw[j]? = some (jx, k) := List.mk_add_mem_zipIdx_iff_getElem?.mp hmem
    obtain ⟨v, hv, hjx⟩ := forall₂_getElem? hrs hix
    obtain ⟨p, v', hp, hv', hk, _⟩ := raw_of_mem hvs (hok.2 _ (List.mem_of_getElem? hix))
    obtain rfl : v' = v := Option.some.inj (hv'.symm.trans hjx)
    have hget := hraw j k v' (by rw [List.getElem?_map, hix, Option.map_some]) hv
    rw [← hus.length_eq] at hget
    refine ⟨p, v', v', hp, hjx, ?_, ?_⟩
    · simpa only [rawSelect, eval, evals, hx, Option.bind_some, Option.map_some] using hget
    · rw [Keeps, hk]

end

end Memory

/-! ### Packing -/

section Pack

variable {I : Interp V W} {C : Memory I} {live : List Param} {vs : List V}

open Memory

theorem evals_append (env : Env V) (w : W) {es es' : List Exp} {rs' : List V}
    (h : evals I env w es = some rs) (h' : evals I env w es' = some rs') :
    evals I env w (es ++ es') = some (rs ++ rs') := by
  induction es generalizing rs with
  | nil =>
    cases h
    exact h'
  | cons e es ih =>
    obtain ⟨v, hv, h⟩ := Option.bind_eq_some_iff.mp h
    obtain ⟨vs, hvs, rfl⟩ := Option.map_eq_some_iff.mp h
    simp [hv, ih hvs]

theorem getLives_spec {w₀ : W} (hvs : List.Forall₂ (fun p v => C.Fits w₀ p.ty v) live vs)
    {ixs : List ℕ} (h : ∀ ix ∈ ixs, ix < live.length) :
    ∃ es rs, getLives live ixs = .ok es ∧ List.Forall₂ (fun ix v => vs[ix]? = some v) ixs rs ∧
      ∀ (env : Env V) (w : W), Bound env live vs → evals I env w es = some rs := by
  induction ixs with
  | nil => exact ⟨[], [], rfl, .nil, fun _ _ _ => rfl⟩
  | cons ix ixs ih =>
    obtain ⟨es, rs, hes, hrs, hev⟩ := ih fun jx hjx => h jx (List.mem_cons_of_mem _ hjx)
    have hix : ix < live.length := h ix List.mem_cons_self
    have hp : live[ix]? = some live[ix] := List.getElem?_eq_getElem hix
    obtain ⟨v, hv, _⟩ := forall₂_getElem? hvs hp
    refine ⟨.var live[ix].name :: es, v :: rs, ?_, .cons hv hrs, fun env w hb => ?_⟩
    · rw [getLives] at hes
      rw [getLives, List.mapM_cons, getLive, hp, hes]
      rfl
    · obtain ⟨v', hv', hx⟩ := forall₂_getElem? hb hp
      obtain rfl : v' = v := Option.some.inj (hv'.symm.trans hv)
      simp [hx, hev env w hb]

/-- **The code that packs some roots**: it passes values that hold the roots that were packed
already, in `done`, and those that remain. -/
def Packs (C : Memory I) (live : List Param) (vs : List V) (w₀ : W) (newRoots : List Lvar)
    (code : Stm) (todo : List Root) (args : List Exp) (done : List Root) (n : Lvar)
    (result : Except Exn (Stm × Lvar)) : Prop :=
  ∃ s n', result = .ok (s, n') ∧ n ≤ n' ∧ ∀ (env : Env V) (w : W) (rs : List V),
    (∀ v, C.same w₀ v w v) → Bound env live vs →
    (∀ (env' : Env V) (w' : W), (∀ x < n, env' x = env x) →
      evals I env' w' args.reverse = some rs) →
    List.Forall₂ (C.Holds live vs w₀ w) done rs →
    ∃ (env' : Env V) (w' : W) (args' : List Exp) (rs' : List V),
      Leads I ⟨env, w, s⟩ ⟨env', w', .callgc args' newRoots code⟩ ∧
      args'.length = args.length + todo.length ∧ evals I env' w' args' = some rs' ∧
      (∀ v, C.same w₀ v w' v) ∧ List.Forall₂ (C.Holds live vs w₀ w') (done ++ todo) rs'

variable {w₀ : W} {newRoots : List Lvar} {code : Stm}

theorem Packs.arg {root : Root} {todo : List Root} {arg : Exp} {args : List Exp}
    {done : List Root} {n : Lvar} {result : Except Exn (Stm × Lvar)} {r : V}
    (harg : ∀ (env env' : Env V) (w' : W), Bound env live vs → (∀ x < n, env' x = env x) →
      eval I env' w' arg = some r)
    (hr : ∀ w, (∀ v, C.same w₀ v w v) → C.Holds live vs w₀ w root r)
    (h : Packs C live vs w₀ newRoots code todo (arg :: args) (done ++ [root]) n result) :
    Packs C live vs w₀ newRoots code (root :: todo) args done n result := by
  obtain ⟨s, n', hs, hn, h⟩ := h
  refine ⟨s, n', hs, hn, fun env w rs hw hb hargs hdone => ?_⟩
  obtain ⟨env', w', args', rs', hl, hlen, hev, hw', hall⟩ := h env w (rs ++ [r]) hw hb
    (fun env' w' he => by
      rw [List.reverse_cons]
      refine evals_append env' w' (hargs env' w' he) ?_
      simp only [evals, harg env env' w' hb he, Option.bind_some, Option.map_some])
    (List.rel_append hdone (.cons (hr w hw) .nil))
  rw [List.append_assoc] at hall
  refine ⟨env', w', args', rs', hl, ?_, hev, hw', hall⟩
  rw [hlen, List.length_cons, List.length_cons]
  omega

/-- **A root that is a new record.** -/
theorem Packs.alloc {root : Root} {todo : List Root} {p : Prim.Alloc} {flds args : List Exp}
    {done : List Root} {result : Except Exn (Stm × Lvar)} {fs : List V}
    (hlive : ∀ q ∈ live, q.name < n) (hdone : ∀ r ∈ done, r.Ok live)
    (hflds : ∀ (env : Env V) (w : W), Bound env live vs → evals I env w flds = some fs)
    (halloc : ∀ w, (∀ v, C.same w₀ v w v) → ∃ r w', I.alloc p fs w = some (r, w') ∧
      (∀ v, C.same w v w' v) ∧ C.Holds live vs w₀ w' root r)
    (h : Packs C live vs w₀ newRoots code todo (.var n :: args) (done ++ [root]) (n + 1) result) :
    Packs C live vs w₀ newRoots code (root :: todo) args done n
      (result >>= fun q => .ok (.alloc p flds n q.1, q.2)) := by
  obtain ⟨s, n', rfl, hn, h⟩ := h
  refine ⟨.alloc p flds n s, n', rfl, Nat.le_of_succ_le hn, fun env w rs hw hb hargs hrs => ?_⟩
  obtain ⟨r, w₁, hp, hw₁, hr⟩ := halloc w hw
  have hw₁' : ∀ v, C.same w₀ v w₁ v := fun v => C.trans (hw v) (hw₁ v)
  -- the variable of the record is fresh
  have hset : ∀ x < n, env.set n r x = env x := fun x hx =>
    CPS.Env.set_of_ne env r (Nat.ne_of_lt hx)
  have hb₁ : Bound (env.set n r) live vs := by
    rw [Bound, List.forall₂_iff_get] at hb ⊢
    refine ⟨hb.1, fun i h₁ h₂ => ?_⟩
    rw [hset _ (hlive _ (List.get_mem live ⟨i, h₁⟩))]
    exact hb.2 i h₁ h₂
  have hrs₁ : List.Forall₂ (C.Holds live vs w₀ w₁) done rs := by
    rw [List.forall₂_iff_get] at hrs ⊢
    exact ⟨hrs.1, fun i h₁ h₂ =>
      (hrs.2 i h₁ h₂).of_same (hdone _ (List.get_mem done ⟨i, h₁⟩)) (hw₁ _)⟩
  obtain ⟨env', w', args', rs', hl, hlen, hev, hw', hall⟩ := h (env.set n r) w₁ (rs ++ [r]) hw₁' hb₁
    (fun env' w' he => by
      rw [List.reverse_cons]
      refine evals_append env' w'
        (hargs env' w' fun x hx => (he x (Nat.lt_succ_of_lt hx)).trans (hset x hx)) ?_
      have hr : env' n = some r := (he n (Nat.lt_succ_self n)).trans (CPS.Env.set_self env n r)
      simp only [evals, eval, hr, Option.bind_some, Option.map_some])
    (List.rel_append hrs₁ (.cons hr .nil))
  rw [List.append_assoc] at hall
  refine ⟨env', w', args', rs', (Leads.alloc (hflds env w hb) hp).trans hl, ?_, hev, hw', hall⟩
  rw [hlen, List.length_cons, List.length_cons]
  omega

theorem pack_mixed (ix : ℕ) (roots : List ℕ) (q : ℕ × Prim.Numkind)
    (raw : List (ℕ × Prim.Numkind)) (todo : List Root) (args : List Exp) :
    pack live newRoots code (.record (ix :: roots) (q :: raw) :: todo) args = do
      let flds ← getLives live ((ix :: roots) ++ (q :: raw).map Prod.fst)
      let desc ← makeMixedDesc (ix :: roots).length (q :: raw).length
      let tpl ← mkLvar
      return .alloc (record desc) flds tpl (← pack live newRoots code todo (.var tpl :: args)) :=
  rfl

/-- The code allocates the record of a root, and packs the other roots. -/
theorem pack_record {roots : List ℕ} {raw : List (ℕ × Prim.Numkind)} {todo : List Root}
    {args : List Exp} {done : List Root} (hvs : List.Forall₂ (fun p v => C.Fits w₀ p.ty v) live vs)
    (hlive : ∀ q ∈ live, q.name < n) (hdone : ∀ r ∈ done, r.Ok live)
    (hok : (Root.record roots raw).Ok live)
    (h : Packs C live vs w₀ newRoots code todo (.var n :: args) (done ++ [.record roots raw]) (n + 1)
      (pack live newRoots code todo (.var n :: args) (n + 1))) :
    Packs C live vs w₀ newRoots code (.record roots raw :: todo) args done n
      (pack live newRoots code (.record roots raw :: todo) args n) := by
  have hroots : ∀ ix ∈ roots, ix < live.length := fun ix hix => by
    obtain ⟨p, hp, _⟩ := mem_boxedIxs.mp (hok.1 ix hix)
    exact (List.getElem?_eq_some_iff.mp hp).1
  have hraw : ∀ ix ∈ raw.map Prod.fst, ix < live.length := fun ix hix => by
    obtain ⟨⟨jx, k⟩, hq, rfl⟩ := List.mem_map.mp hix
    obtain ⟨p, hp, _⟩ := mem_rawIxs.mp (hok.2 _ hq)
    exact (List.getElem?_eq_some_iff.mp hp).1
  obtain ⟨es, us, hes, hus, hev⟩ := getLives_spec hvs hroots
  obtain ⟨es', rs, hes', hrs, hev'⟩ := getLives_spec hvs hraw
  rw [List.forall₂_map_left_iff] at hrs
  -- the fields have the right representations
  have hu : ∀ w, (∀ v, C.same w₀ v w v) → ∀ v ∈ us, C.uniform w v := fun w hw v hv => by
    obtain ⟨i, hi⟩ := List.mem_iff_getElem?.mp hv
    obtain ⟨ix, hix, hv⟩ := forall₂_getElem? hus.flip hi
    obtain ⟨_, v', _, hv', _, h⟩ := uniform_of_mem hvs (hok.1 ix (List.mem_of_getElem? hix))
    obtain rfl : v' = v := Option.some.inj (hv'.symm.trans hv)
    exact C.uniform_of_same (hw v') h
  have hks : List.Forall₂ C.raw (raw.map Prod.snd) rs := by
    rw [List.forall₂_map_left_iff]
    refine List.forall₂_iff_get.mpr ⟨hrs.length_eq, fun i h₁ h₂ => ?_⟩
    obtain ⟨_, v', _, hv', _, h⟩ := raw_of_mem hvs (hok.2 _ (List.get_mem raw ⟨i, h₁⟩))
    obtain rfl : v' = rs.get ⟨i, h₂⟩ := Option.some.inj (hv'.symm.trans (hrs.get h₁ h₂))
    exact h
  have hkl : (raw.map Prod.snd).length = raw.length := List.length_map _
  cases raw with
  | nil =>
    have hpack : pack live newRoots code (.record roots [] :: todo) args n =
        pack live newRoots code todo (.var n :: args) (n + 1) >>= fun q =>
          .ok (.alloc (record (makeDesc roots.length tagRecord)) es n q.1, q.2) := by
      rw [pack, lift_bind hes]
      rfl
    rw [hpack]
    refine .alloc hlive hdone hev (fun w hw => ?_) h
    obtain ⟨r, w', hp, hr, hw', hsel⟩ := C.record w (hu w hw)
    rw [← hus.length_eq] at hp
    exact ⟨r, w', hp, hw', holds_record (fun v => C.trans (hw v) (hw' v)) hvs hok hus .nil hr hsel
      fun i k v hk => nomatch hk⟩
  | cons q raw =>
    cases roots with
    | nil =>
      have hpack : pack live newRoots code (.record [] (q :: raw) :: todo) args n =
          pack live newRoots code todo (.var n :: args) (n + 1) >>= fun c =>
            .ok (.alloc (.rawRecord (makeDesc (q :: raw).length tagRaw) 64
              ((q :: raw).map fun r => ⟨r.2, 64⟩)) es' n c.1, c.2) := by
        rw [pack, mkLvar_bind, lift_bind hes']
        · rfl
        · exact List.cons_ne_nil q raw
      rw [hpack]
      refine .alloc hlive hdone hev' (fun w hw => ?_) h
      obtain ⟨r, w', hp, hr, hw', hsel⟩ := C.rawRecord w hks
      rw [hkl, List.map_map] at hp
      refine ⟨r, w', hp, hw', holds_record (fun v => C.trans (hw v) (hw' v)) hvs hok .nil hrs hr
        (fun i v hv => nomatch hv) fun i k v hk hv => ?_⟩
      rw [List.length_nil, Nat.zero_add]
      exact hsel i k v hk hv
    | cons ix roots =>
      obtain ⟨desc, hd⟩ : ∃ desc, makeMixedDesc (ix :: roots).length (q :: raw).length =
          .ok desc := ⟨_, if_neg (by simp)⟩
      have hboth : getLives live ((ix :: roots) ++ (q :: raw).map Prod.fst) = .ok (es ++ es') := by
        rw [getLives] at hes hes' ⊢
        rw [List.mapM_append, hes, hes']
        rfl
      have hpack : pack live newRoots code (.record (ix :: roots) (q :: raw) :: todo) args n =
          pack live newRoots code todo (.var n :: args) (n + 1) >>= fun c =>
            .ok (.alloc (record desc) (es ++ es') n c.1, c.2) := by
        rw [pack_mixed, lift_bind hboth, lift_bind hd]
        rfl
      rw [hpack]
      refine .alloc hlive hdone (fun env w hb => evals_append env w (hev env w hb) (hev' env w hb))
        (fun w hw => ?_) h
      rw [hus.length_eq, ← hkl] at hd
      obtain ⟨r, w', hp, hr, hw', hsel, hrsel⟩ := C.mixedRecord w hd (hu w hw) hks
      exact ⟨r, w', hp, hw', holds_record (fun v => C.trans (hw v) (hw' v)) hvs hok hus hrs hr hsel
        hrsel⟩

/-- **The roots that are passed hold the parameters.** -/
theorem pack_spec (newRoots : List Lvar) (code : Stm)
    (hvs : List.Forall₂ (fun p v => C.Fits w₀ p.ty v) live vs) (todo : List Root) (htodo : ∀ r ∈ todo, r.Ok live) (args : List Exp) (done : List Root)
    (hdone : ∀ r ∈ done, r.Ok live) (n : Lvar) (hlive : ∀ q ∈ live, q.name < n) :
    Packs C live vs w₀ newRoots code todo args done n
      (pack live newRoots code todo args n) := by
  induction todo generalizing args done n with
  | nil =>
    refine ⟨_, n, rfl, le_rfl, fun env w rs hw hb hargs hrs => ?_⟩
    refine ⟨env, w, args.reverse, rs, Relation.ReflTransGen.refl, List.length_reverse,
      hargs env w fun _ _ => rfl, hw, ?_⟩
    rwa [List.append_nil]
  | cons root todo ih =>
    have hroot : root.Ok live := htodo root List.mem_cons_self
    have ih := ih fun r hr => htodo r (List.mem_cons_of_mem _ hr)
    have hdone' : ∀ r ∈ done ++ [root], r.Ok live := fun r hr => by
      rcases List.mem_append.mp hr with hr | hr
      · exact hdone r hr
      · exact List.mem_singleton.mp hr ▸ hroot
    cases root with
    | unit =>
      exact .arg (fun _ _ _ _ _ => rfl) (fun w _ => holds_unit w) (ih _ _ hdone' n hlive)
    | ptr ix =>
      obtain ⟨p, v, hp, hv, _, _⟩ := uniform_of_mem hvs hroot
      have hget : getLive live ix = .ok (.var p.name) := by rw [getLive, hp]
      rw [pack, lift_bind hget]
      refine .arg (fun env env' w' hb he => ?_) (fun w hw => holds_ptr hw hvs hroot hv)
        (ih _ _ hdone' n hlive)
      obtain ⟨v', hv', hx⟩ := forall₂_getElem? hb hp
      obtain rfl : v' = v := Option.some.inj (hv'.symm.trans hv)
      exact (he _ (hlive p (List.mem_of_getElem? hp))).trans hx
    | record roots raw =>
      exact pack_record hvs hlive hdone hroot
        (ih _ _ hdone' (n + 1) fun q hq => Nat.lt_succ_of_lt (hlive q hq))

/-! ### Unpacking -/

theorem bind_spec {xs : List Lvar} (hxs : xs.Nodup) (env : Env V) (hlen : xs.length = rs.length) :
    ∃ env', env.bind xs rs = some env' ∧ (∀ z, z ∉ xs → env' z = env z) ∧
      List.Forall₂ (fun x r => env' x = some r) xs rs := by
  induction xs generalizing env rs with
  | nil =>
    obtain rfl : rs = [] := List.length_eq_zero_iff.mp hlen.symm
    exact ⟨env, rfl, fun _ _ => rfl, .nil⟩
  | cons x xs ih =>
    cases rs with
    | nil => cases hlen
    | cons r rs =>
      obtain ⟨hx, hxs⟩ := List.nodup_cons.mp hxs
      obtain ⟨env', hb, hout, hall⟩ := ih hxs (env.set x r) (Nat.succ.inj hlen)
      refine ⟨env', hb, fun z hz => ?_, .cons ((hout x hx).trans (CPS.Env.set_self env x r)) hall⟩
      rw [hout z fun h => hz (List.mem_cons_of_mem _ h)]
      exact CPS.Env.set_of_ne env r fun h => hz (h ▸ List.mem_cons_self)

theorem yields_allAccesses {roots : List Root} (hall : List.Forall₂ (C.Holds live vs w₀ w) roots rs)
    (hbound : List.Forall₂ (fun x r => env x = some r) newRoots rs) {a : ℕ × Exp}
    (ha : a ∈ allAccesses newRoots roots) : C.Yields live vs w₀ env w a.1 a.2 := by
  obtain ⟨⟨x, root⟩, hmem, ha⟩ := List.mem_flatMap.mp ha
  obtain ⟨j, hj⟩ := List.mem_iff_getElem?.mp hmem
  obtain ⟨hx, hroot⟩ := List.getElem?_zip_eq_some.mp hj
  obtain ⟨r, hr, henv⟩ := forall₂_getElem? hbound hx
  obtain ⟨r', hr', hholds⟩ := forall₂_getElem? hall hroot
  obtain rfl : r' = r := Option.some.inj (hr'.symm.trans hr)
  exact hholds.yields env x henv a ha

theorem evals_of_forall {P : ℕ → V → Prop} {es : List Exp}
    (h : ∀ i e, es[i]? = some e → ∃ v, eval I env w e = some v ∧ P i v) :
    ∃ rs, evals I env w es = some rs ∧ rs.length = es.length ∧ ∀ i v, rs[i]? = some v → P i v := by
  induction es generalizing P with
  | nil => exact ⟨[], rfl, rfl, fun _ _ h => nomatch h⟩
  | cons e es ih =>
    obtain ⟨v, hv, hP⟩ := h 0 e rfl
    obtain ⟨rs, hrs, hlen, hall⟩ := ih (P := fun i => P (i + 1)) fun i e' he' => h (i + 1) e' he'
    refine ⟨v :: rs, ?_, congrArg (· + 1) hlen, fun i v' hv' => ?_⟩
    · simp [hv, hrs]
    · cases i with
      | zero =>
        cases hv'
        exact hP
      | succ i => exact hall i v' hv'

theorem newRoots_eq (n : Lvar) :
    ((List.range numGCRoots).mapM fun _ => mkLvar : Supply (List Lvar)) n =
      .ok ([n, n + 1, n + 2, n + 3, n + 4, n + 5, n + 6], n + numGCRoots) := rfl

end Pack

def Memory.Preserved {I : Interp V W} (C : Memory I) (live : List Param) (w : W) (vs : List V)
    (w' : W) (vs' : List V) : Prop :=
  vs'.length = live.length ∧ ∀ (i : ℕ) (p : Param) (v v' : V), live[i]? = some p →
    vs[i]? = some v → vs'[i]? = some v' → C.Keeps p.ty w v w' v'

/-- **The code gets to a call of the collector with its roots, and from there to the rest of the
code, where the results are the live values.** -/
theorem callGC_spec {I : Interp V W} (C : Memory I) (isCont : Bool) {live : List Param}
    (h64 : ∀ p ∈ live, p.ty.Raw64) {vs : List V}
    (hvs : List.Forall₂ (fun p v => C.Fits w p.ty v) live vs) (hb : Memory.Bound env live vs)
    (hlive : ∀ p ∈ live, p.name < n) {k : List Exp → Supply Stm}
    (hk : ∀ results n, results.length = live.length →
      ∃ code n', k results n = .ok (code, n') ∧ n ≤ n') :
    ∃ s n₂ results code n₁, callGC isCont live k n = .ok (s, n₂) ∧
      results.length = live.length ∧ k results (n + numGCRoots) = .ok (code, n₁) ∧
      ∃ env₁ w₁ roots newRoots env₂ w₂ vs', roots.length = numGCRoots ∧
        newRoots.length = numGCRoots ∧
        Leads I ⟨env, w, s⟩ ⟨env₁, w₁, .callgc roots newRoots code⟩ ∧
        Leads I ⟨env₁, w₁, .callgc roots newRoots code⟩ ⟨env₂, w₂, code⟩ ∧
        evals I env₂ w₂ results = some vs' ∧ C.Preserved live w vs w₂ vs' := by
  obtain ⟨roots, hroots, hlay⟩ := assignRoots_spec isCont h64
  let newRoots : List Lvar := [n, n + 1, n + 2, n + 3, n + 4, n + 5, n + 6]
  have hnl : newRoots.length = roots.length := hlay.length.symm
  let results := setAll (List.replicate live.length unit) (allAccesses newRoots roots)
  have hrl : results.length = live.length := (length_setAll _ _).trans List.length_replicate
  obtain ⟨code, n₁, hcode, hn₁⟩ := hk results (n + numGCRoots) hrl
  obtain ⟨s, n₂, hs, _, hpack⟩ := pack_spec newRoots code hvs roots hlay.ok [] []
    (fun _ h => nomatch h) n₁ fun p hp =>
      (hlive p hp).trans_le ((Nat.le_add_right n numGCRoots).trans hn₁)
  refine ⟨s, n₂, results, code, n₁, ?_, hrl, hcode, ?_⟩
  · rw [callGC, lift_bind hroots]
    change (((List.range numGCRoots).mapM fun _ => mkLvar : Supply (List Lvar)) >>= _) n = _
    rw [run_bind (newRoots_eq n), lift_bind (unpack_eq hnl _), run_bind hcode]
    exact hs
  -- the call of the collector
  obtain ⟨env₁, w₁, args, rs, hl, hlen, hev, hw₁, hall⟩ := hpack env w [] (C.refl w) hb
    (fun _ _ _ => rfl) .nil
  have hargs : args.length = numGCRoots := by rw [hlen, List.length_nil, Nat.zero_add, hlay.length]
  have hrs : rs.length = numGCRoots := hall.length_eq.symm.trans hlay.length
  obtain ⟨rs', w₂, hgc, hsame⟩ := C.callgc w₁ hrs fun r hr => by
    obtain ⟨i, hi⟩ := List.mem_iff_getElem?.mp hr
    obtain ⟨_, _, h⟩ := forall₂_getElem? hall.flip hi
    exact h.uniform
  have hnd : newRoots.Nodup := by
    simp [newRoots]
  obtain ⟨env₂, hbind, _, hbound⟩ := bind_spec hnd env₁ (hrs.symm.trans hsame.length_eq)
  -- the new roots hold what the old ones held
  have hall' : List.Forall₂ (C.Holds live vs w w₂) roots rs' := by
    refine List.forall₂_iff_get.mpr
      ⟨hlay.length.trans (hrs.symm.trans hsame.length_eq), fun i h₁ h₂ => ?_⟩
    have h₃ : i < rs.length := hsame.length_eq ▸ h₂
    exact (hall.get h₁ h₃).of_same (hlay.ok _ (List.get_mem roots ⟨i, h₁⟩)) (hsame.get h₃ h₂)
  have hyield : ∀ i e, results[i]? = some e → ∃ v', eval I env₂ w₂ e = some v' ∧
      ∀ (p : Param) (v : V), live[i]? = some p → vs[i]? = some v →
        C.Keeps p.ty w v w₂ v' := fun i e he => by
    have hi : i < live.length := hrl ▸ (List.getElem?_eq_some_iff.mp he).1
    obtain ⟨p, v, v', hp, hv, hev, hkeep⟩ := setAll_spec
      (fun a ha => yields_allAccesses hall' hbound ha) he (.inl (hlay.mem_allAccesses hnl hi))
    refine ⟨v', hev, fun q v'' hq hv'' => ?_⟩
    obtain rfl : p = q := Option.some.inj (hp.symm.trans hq)
    obtain rfl : v = v'' := Option.some.inj (hv.symm.trans hv'')
    exact hkeep
  obtain ⟨vs', hvs', hlen', hpres⟩ := evals_of_forall hyield
  exact ⟨env₁, w₁, args, newRoots, env₂, w₂, vs', hargs, rfl, hl, .callgc hev hgc hbind, hvs',
    hlen'.trans hrl, fun i p v v' hp hv hv' => hpres i v' hv' p v hp hv⟩

/-! ### A memory whose collector moves every record -/

/-- Numbers, and records with their addresses. -/
inductive Cell
  | num (i : ℤ)
  | obj (addr : ℕ) (fields : List Cell)

namespace Cell

mutual

def relocate (f : ℕ → ℕ) : Cell → Cell
  | .num i => .num i
  | .obj addr fields => .obj (f addr) (relocates f fields)

def relocates (f : ℕ → ℕ) : List Cell → List Cell
  | [] => []
  | v :: vs => relocate f v :: relocates f vs

end

theorem relocates_eq (f : ℕ → ℕ) (vs : List Cell) : relocates f vs = vs.map (relocate f) := by
  induction vs with
  | nil => rfl
  | cons v vs ih => rw [relocates, ih, List.map_cons]

mutual

theorem relocate_const (f : ℕ → ℕ) : ∀ v : Cell,
    relocate (fun _ => 0) (relocate f v) = relocate (fun _ => 0) v
  | .num _ => rfl
  | .obj _ fields => congrArg (Cell.obj 0) (relocates_const f fields)

theorem relocates_const (f : ℕ → ℕ) : ∀ vs : List Cell,
    relocates (fun _ => 0) (relocates f vs) = relocates (fun _ => 0) vs
  | [] => rfl
  | v :: vs => congrArg₂ List.cons (relocate_const f v) (relocates_const f vs)

end

abbrev strip : Cell → Cell := relocate fun _ => 0

theorem field_of_strip {a a' : ℕ} {fs fs' : List Cell} (h : strip (.obj a fs) = strip (.obj a' fs'))
    {v : Cell} (hv : fs[i]? = some v) : ∃ v', fs'[i]? = some v' ∧ strip v = strip v' := by
  have hfs : fs.map strip = fs'.map strip := by
    have h := (Cell.obj.inj h).2
    rwa [relocates_eq, relocates_eq] at h
  have hget : (fs'.map strip)[i]? = some (strip v) := by
    rw [← hfs, List.getElem?_map, hv, Option.map_some]
  rw [List.getElem?_map] at hget
  obtain ⟨v', hv', he⟩ := Option.map_eq_some_iff.mp hget
  exact ⟨v', hv', he.symm⟩

/-- The raw field of a record. -/
def rawField (i : ℕ) : Cell → Option Cell
  | .obj _ fields =>
    match fields[i]? with
    | some (.num n) => some (.num n)
    | _ => none
  | .num _ => none

theorem rawField_eq_some {r v : Cell} :
    rawField i r = some v ↔ ∃ a fs n, r = .obj a fs ∧ fs[i]? = some (.num n) ∧ v = .num n := by
  constructor
  · intro h
    cases r with
    | num n => cases h
    | obj a fs =>
      rw [rawField] at h
      split at h
      · cases h
        exact ⟨a, fs, _, rfl, ‹_›, rfl⟩
      · cases h
  · rintro ⟨a, fs, n, rfl, hn, rfl⟩
    rw [rawField, hn]

end Cell

/-- An interpretation with records; the world is the next address, and the collector moves
everything. -/
def cellInterp : Interp Cell ℕ where
  num i _ := .num i
  label l := .num l
  pure
    | .rawSelect _ 64 offset, [r] => r.rawField (offset / 8)
    | _, _ => none
  looker _ _ _ := none
  select
    | i, .obj _ fields, _ => fields[i]?
    | _, .num _, _ => none
  alloc _ vs next := some (.obj next vs, next + 1)
  arith _ _ := none
  branch _ _ := none
  switch _ := none
  setter _ _ _ := none
  callgc vs next := some (vs.map (Cell.relocate (· + next)), 2 * next)

theorem cellInterp_rawSelect (k : Prim.Numkind) (i : ℕ) (r : Cell) :
    cellInterp.pure (.rawSelect k 64 (8 * i)) [r] = r.rawField i := by
  change r.rawField (8 * i / 8) = _
  rw [Nat.mul_div_cancel_left i (by decide)]

/-- It is a memory with a collector. -/
def cellMemory : Memory cellInterp where
  uniform _ _ := True
  raw _ v := ∃ n, v = .num n
  same _ v _ v' := v.strip = v'.strip
  refl _ _ := rfl
  trans h h' := h.trans h'
  uniform_unit _ := trivial
  uniform_of_same _ _ := trivial
  select_of_same {_ _ r r' v i} h hv := by
    cases r with
    | num n => cases hv
    | obj a fs =>
      cases r' with
      | num n => cases h
      | obj a' fs' => exact Cell.field_of_strip h hv
  rawSelect_of_same {_ _ r r' v k i} h hv := by
    rw [cellInterp_rawSelect] at hv ⊢
    obtain ⟨a, fs, n, rfl, hn, rfl⟩ := Cell.rawField_eq_some.mp hv
    cases r' with
    | num n => cases h
    | obj a' fs' =>
      obtain ⟨v', hv', he⟩ := Cell.field_of_strip h hn
      cases v' with
      | num m =>
        cases he
        exact Cell.rawField_eq_some.mpr ⟨a', fs', n, rfl, hv', rfl⟩
      | obj a'' fs'' => cases he
  record w vs _ := ⟨.obj w vs, w + 1, rfl, trivial, fun _ => rfl, fun _ _ h => h⟩
  rawRecord w ks vs h := by
    refine ⟨.obj w vs, w + 1, rfl, trivial, fun _ => rfl, fun i k v hk hv => ?_⟩
    rw [cellInterp_rawSelect]
    obtain ⟨v', hv', n, rfl⟩ := forall₂_getElem? h hk
    obtain rfl : Cell.num n = v := Option.some.inj (hv'.symm.trans hv)
    exact Cell.rawField_eq_some.mpr ⟨w, vs, n, rfl, hv, rfl⟩
  mixedRecord w us ks vs _ _ _ h := by
    refine ⟨.obj w (us ++ vs), w + 1, rfl, trivial, fun _ => rfl, fun i v hv => ?_,
      fun i k v hk hv => ?_⟩
    · exact (List.getElem?_append_left (List.getElem?_eq_some_iff.mp hv).1).trans hv
    · rw [cellInterp_rawSelect]
      obtain ⟨v', hv', n, rfl⟩ := forall₂_getElem? h hk
      obtain rfl : Cell.num n = v := Option.some.inj (hv'.symm.trans hv)
      refine Cell.rawField_eq_some.mpr ⟨w, us ++ vs, n, rfl, ?_, rfl⟩
      rw [List.getElem?_append_right (Nat.le_add_right _ _), Nat.add_sub_cancel_left]
      exact hv
  callgc w vs _ _ :=
    ⟨vs.map (Cell.relocate (· + w)), 2 * w, rfl, List.forall₂_map_right_iff.mpr
      (List.forall₂_same.mpr fun v _ => (Cell.relocate_const _ v).symm)⟩

end SmlNj.InvokeGC
