import SmlNj.CPS.Main.ClusterGraph

/-!
# The division of a cluster

The signature of a node tells the entries that reach it.  Along an edge
signatures grow, so the nodes that only one entry reaches are reached through
each other; they are what the walk from the entry finds.  The other nodes that it
meets become entries, and no edge leads to them any more, so the rest can be
split in the same way.

## Main definitions

* `Parted` — what is given to be split.
* `Parts` — what the division yields.

## Main results

* `walk_spec` — the walk from an entry finds the nodes that only it reaches.
* `split_spec` — the division succeeds, and its parts are closed under jumps except to
  entries.
-/

namespace SmlNj.NormalizeCluster

open CPS ExceptList DepthFirst

variable {n : ℕ}

variable {sigs : Sigs n} {e' x : Fin n} {g : Graph n} {c : Fin n × List (Fin n)}

theorem mem_foldl_insert {ids : List (Fin n)} {e : Fin n} :
    e' ∈ ids.foldl (fun sigs id => Function.update sigs id (insert e (sigs id))) sigs x ↔
      e' ∈ sigs x ∨ e' = e ∧ x ∈ ids := by
  induction ids generalizing sigs with
  | nil => simp
  | cons id ids ih =>
    rw [List.foldl_cons, ih]
    by_cases hx : x = id
    · rw [hx, Function.update_self, Finset.mem_insert]
      tauto
    · rw [Function.update_of_ne hx]
      simp [hx]

theorem mem_dfsSig {e : Fin n} :
    e' ∈ dfsSig g sigs e x ↔ e' ∈ sigs x ∨ e' = e ∧ Reach g.succs e x := by
  unfold dfsSig
  rw [mem_foldl_insert, List.mem_reverse, mem_dfs_iff]

/-- **The signature of a node**: the entries that reach it. -/
theorem mem_signatures {entryIds : List (Fin n)} {e : Fin n} :
    e ∈ signatures g entryIds x ↔ e ∈ entryIds ∧ Reach g.succs e x := by
  have hfold : ∀ sigs : Sigs n, e ∈ entryIds.foldl (dfsSig g) sigs x ↔
      e ∈ sigs x ∨ e ∈ entryIds ∧ Reach g.succs e x := by
    induction entryIds with
    | nil => simp
    | cons e' es ih =>
      intro sigs
      rw [List.foldl_cons, ih, mem_dfsSig, or_assoc, List.mem_cons, or_and_right]
      refine or_congr_right (or_congr_left ?_)
      exact ⟨fun h => ⟨h.1, h.1 ▸ h.2⟩, fun h => ⟨h.1, h.1 ▸ h.2⟩⟩
  unfold signatures
  rw [hfold]
  simp

/-- **What is given to be split**: entries that are not jumped to, and other nodes that they
reach. -/
structure Parted (base : Graph n) (entryIds fragIds : List (Fin n)) (s : Split n) : Prop where
  cut : Cut base s
  nodup : (entryIds ++ fragIds).Nodup
  nonempty : entryIds ≠ []
  noIn : ∀ e ∈ entryIds, ∀ a, e ∉ s.graph.succs a
  closed : ∀ a ∈ entryIds ++ fragIds, ∀ b ∈ s.graph.succs a, b ∈ fragIds
  reached : ∀ x ∈ fragIds, ∃ e ∈ entryIds, Reach s.graph.succs e x
  old : ∀ x ∈ fragIds, x ∉ s.newEntries

namespace Parted

variable {base : Graph n} {entryIds fragIds : List (Fin n)} {s : Split n}
  (h : Parted base entryIds fragIds s)

include h

theorem eq_of_reach {e : Fin n} (he : e ∈ entryIds) (hr : Reach s.graph.succs e' e) : e' = e := by
  cases hr with
  | refl => rfl
  | tail _ hab => exact absurd hab (h.noIn e he _)

theorem sig_entry {e : Fin n} (he : e ∈ entryIds) :
    signatures s.graph entryIds e = {e} := by
  ext e'
  rw [mem_signatures, Finset.mem_singleton]
  refine ⟨fun hr => h.eq_of_reach he hr.2, ?_⟩
  rintro rfl
  exact ⟨he, .refl⟩

theorem mem_of_reach {e : Fin n} (he : e ∈ entryIds) (hr : Reach s.graph.succs e x) :
    x = e ∨ x ∈ fragIds := by
  induction hr with
  | refl => exact .inl rfl
  | tail _ hab ih =>
    rcases ih with rfl | ha
    · exact .inr (h.closed _ (List.mem_append_left _ he) _ hab)
    · exact .inr (h.closed _ (List.mem_append_right _ ha) _ hab)

end Parted

theorem signatures_mono {entryIds : List (Fin n)} {y : Fin n} (h : y ∈ g.succs x) :
    signatures g entryIds x ⊆ signatures g entryIds y := by
  intro e he
  rw [mem_signatures] at he ⊢
  exact ⟨he.1, he.2.tail h⟩

/-! ### The walk -/

/-- The signature of a new entry: it is reached by several entries. -/
def Shared (entryIds : List (Fin n)) (sigs : Sigs n) (y : Fin n) : Prop :=
  (∃ e ∈ entryIds, e ∈ sigs y) ∧ ∀ e, sigs y ≠ {e}

/-- The invariant of a walk from the entry `e`, where `ids` are still to be visited, in a graph
whose edges at the beginning of the division were those of `s₀`. -/
structure WalkInv (base : Graph n) (entryIds : List (Fin n)) (s₀ : Split n) (e : Fin n)
    (ids : List (Fin n)) (w : Walk n) : Prop where
  cut : Cut base w.split
  nodup : w.frags.Nodup
  frags : ∀ x ∈ w.frags, x ≠ e ∧ signatures s₀.graph entryIds x = {e}
  entry : e ∈ w.visited
  visited : ∀ x ∈ w.visited, x = e ∨ x ∈ w.frags ∨ x ∈ w.split.newEntries
  sub : ∀ x ∈ w.frags, x ∈ w.visited
  edges : ∀ x, x = e ∨ x ∈ w.frags → ∀ y ∈ base.succs x,
    y ∈ w.visited ∨ y ∈ w.split.newEntries ∨ y ∈ ids
  mono : s₀.newEntries ⊆ w.split.newEntries
  shared : ∀ y ∈ w.split.newEntries,
    y ∈ s₀.newEntries ∨ Shared entryIds (signatures s₀.graph entryIds) y
  stack : ∀ y ∈ ids, e ∈ signatures s₀.graph entryIds y

variable {base : Graph n} {entryIds : List (Fin n)} {s₀ : Split n} {e : Fin n}

/-- A walk succeeds and keeps its invariant. -/
theorem walk_inv (h₀ : Cut base s₀) (he : e ∈ entryIds) {ids : List (Fin n)} {w : Walk n}
    (h : WalkInv base entryIds s₀ e ids w) :
    ∃ w', walk {e} (signatures s₀.graph entryIds) ids w = .ok w' ∧
      WalkInv base entryIds s₀ e [] w' ∧ w.split.newEntries ⊆ w'.split.newEntries := by
  fun_induction walk {e} (signatures s₀.graph entryIds) ids w with
  | case1 w => exact ⟨w, rfl, h, Finset.Subset.refl _⟩
  | case2 v ids w hid ih =>
    -- visited before
    refine ih { h with edges := fun x hx y hy => ?_, stack := fun y hy => ?_ }
    · rcases h.edges x hx y hy with hv | hn | hs
      · exact .inl hv
      · exact .inr (.inl hn)
      · rcases List.mem_cons.mp hs with rfl | hs'
        · exact .inl hid
        · exact .inr (.inr hs')
    · exact h.stack y (List.mem_cons_of_mem _ hy)
  | case3 v ids w hid hsig ih =>
    -- a node that only `e` reaches
    have hide : v ≠ e := fun heq => hid (heq ▸ h.entry)
    refine ih ⟨h.cut, ?_, fun x hx => ?_, ?_, fun x hx => ?_, fun x hx => ?_,
      fun x hx y hy => ?_, h.mono, h.shared, fun y hy => ?_⟩
    · exact List.nodup_cons.mpr ⟨fun hm => hid (h.sub v hm), h.nodup⟩
    · rcases List.mem_cons.mp hx with rfl | hx'
      · exact ⟨hide, hsig.symm⟩
      · exact h.frags x hx'
    · exact Finset.mem_insert_of_mem h.entry
    · rcases Finset.mem_insert.mp hx with rfl | hx'
      · exact .inr (.inl List.mem_cons_self)
      · rcases h.visited x hx' with hxe | hxf | hxn
        · exact .inl hxe
        · exact .inr (.inl (List.mem_cons_of_mem _ hxf))
        · exact .inr (.inr hxn)
    · rcases List.mem_cons.mp hx with rfl | hx'
      · exact Finset.mem_insert_self _ _
      · exact Finset.mem_insert_of_mem (h.sub x hx')
    · by_cases hxid : x = v
      · by_cases hyn : y ∈ w.split.newEntries
        · exact .inr (.inl hyn)
        · refine .inr (.inr (List.mem_append_left _ ?_))
          exact (h.cut.succs v y).mpr ⟨hxid ▸ hy, hyn⟩
      · have hx' : x = e ∨ x ∈ w.frags :=
          hx.imp_right fun hm => (List.mem_cons.mp hm).resolve_left hxid
        rcases h.edges x hx' y hy with hv | hn | hs
        · exact .inl (Finset.mem_insert_of_mem hv)
        · exact .inr (.inl hn)
        · rcases List.mem_cons.mp hs with rfl | hs'
          · exact .inl (Finset.mem_insert_self _ _)
          · exact .inr (.inr (List.mem_append_right _ hs'))
    · rcases List.mem_append.mp hy with hy' | hy'
      · obtain ⟨hb, hn⟩ := (h.cut.succs v y).mp hy'
        have hy₀ : y ∈ s₀.graph.succs v :=
          (h₀.succs v y).mpr ⟨hb, fun hm => hn (h.mono hm)⟩
        exact signatures_mono hy₀ (h.stack v List.mem_cons_self)
      · exact h.stack y (List.mem_cons_of_mem _ hy')
  | case4 v ids w hid hsig ih =>
    -- the node becomes an entry
    obtain ⟨s', hs', hcut, hne⟩ := newEntry_spec h.cut v
    have hide : e ∈ signatures s₀.graph entryIds v := h.stack v List.mem_cons_self
    have hsub : w.split.newEntries ⊆ s'.newEntries := hne ▸ Finset.subset_insert _ _
    have hinv : WalkInv base entryIds s₀ e ids ⟨insert v w.visited, w.frags, s'⟩ := by
      refine ⟨hcut, h.nodup, h.frags, Finset.mem_insert_of_mem h.entry, fun x hx => ?_,
        fun x hx => Finset.mem_insert_of_mem (h.sub x hx), fun x hx y hy => ?_,
        h.mono.trans hsub, fun y hy => ?_, fun y hy => h.stack y (List.mem_cons_of_mem _ hy)⟩
      · rcases Finset.mem_insert.mp hx with rfl | hx'
        · exact .inr (.inr (hne ▸ Finset.mem_insert_self _ _))
        · exact (h.visited x hx').imp_right (Or.imp_right fun hm => hsub hm)
      · rcases h.edges x hx y hy with hv | hn | hs
        · exact .inl (Finset.mem_insert_of_mem hv)
        · exact .inr (.inl (hsub hn))
        · rcases List.mem_cons.mp hs with rfl | hs'
          · exact .inl (Finset.mem_insert_self _ _)
          · exact .inr (.inr hs')
      · have hy' : y ∈ insert v w.split.newEntries := hne ▸ hy
        rcases Finset.mem_insert.mp hy' with rfl | hm
        · refine .inr ⟨⟨e, he, hide⟩, fun e' heq => ?_⟩
          rw [heq, Finset.mem_singleton] at hide
          exact hsig (hide ▸ heq.symm)
        · exact h.shared y hm
    obtain ⟨w', hw', hinv', hmono⟩ := ih s' hinv
    refine ⟨w', ?_, hinv', hsub.trans hmono⟩
    rw [hs']
    exact hw'

/-! ### Clusters -/

/-- The state of a division that began with `s₀`, after some entries have got their clusters. -/
structure Within (base : Graph n) (entryIds : List (Fin n)) (s₀ s : Split n) : Prop where
  cut : Cut base s
  mono : s₀.newEntries ⊆ s.newEntries
  shared : ∀ y ∈ s.newEntries,
    y ∈ s₀.newEntries ∨ Shared entryIds (signatures s₀.graph entryIds) y

/-- The cluster of an entry consists of the nodes that only the entry reaches, from which edges
lead to each other or to the new entries `ne`. -/
structure Owned (base : Graph n) (sigs : Sigs n) (ne : Finset (Fin n))
    (c : Fin n × List (Fin n)) : Prop where
  nodup : c.2.Nodup
  mem : ∀ x, x ∈ c.2 ↔ x ≠ c.1 ∧ sigs x = {c.1}
  edges : ∀ x, x = c.1 ∨ x ∈ c.2 → ∀ y ∈ base.succs x, y ∈ c.2 ∨ y ∈ ne

theorem Owned.mono {ne ne' : Finset (Fin n)} (h : Owned base sigs ne c) (hsub : ne ⊆ ne') :
    Owned base sigs ne' c :=
  { h with edges := fun x hx y hy => (h.edges x hx y hy).imp_right fun hm => hsub hm }

variable {fragIds : List (Fin n)} {s : Split n}

theorem mem_frags_of_sig (h₀ : Parted base entryIds fragIds s₀) (he : e ∈ entryIds) {w : Walk n}
    (hw : WalkInv base entryIds s₀ e [] w) (hr : Reach s₀.graph.succs e x)
    (hx : signatures s₀.graph entryIds x = {e}) : x = e ∨ x ∈ w.frags := by
  induction hr with
  | refl => exact .inl rfl
  | @tail z x hez hzx ih =>
    have hz : signatures s₀.graph entryIds z = {e} := by
      apply Finset.Subset.antisymm
      · rw [← hx]
        exact signatures_mono hzx
      · rw [Finset.singleton_subset_iff, mem_signatures]
        exact ⟨he, hez⟩
    obtain ⟨hb, hn⟩ := (h₀.cut.succs z x).mp hzx
    have hnot : x ∉ w.split.newEntries := by
      intro hm
      rcases hw.shared x hm with hold | hsh
      · exact hn hold
      · exact hsh.2 e hx
    rcases hw.edges z (ih hz) x hb with hv | hm | hs
    · rcases hw.visited x hv with hxe | hxf | hm
      · exact .inl hxe
      · exact .inr hxf
      · exact absurd hm hnot
    · exact absurd hm hnot
    · cases hs

/-- **The cluster of an entry.** -/
theorem newCluster_spec (h₀ : Parted base entryIds fragIds s₀) (he : e ∈ entryIds)
    (h : Within base entryIds s₀ s) :
    ∃ l s', newCluster (signatures s₀.graph entryIds) s e = .ok ((e, l), s') ∧
      Within base entryIds s₀ s' ∧ s.newEntries ⊆ s'.newEntries ∧
      Owned base (signatures s₀.graph entryIds) s'.newEntries (e, l) := by
  have hsig := h₀.sig_entry he
  have hinv : WalkInv base entryIds s₀ e (s.graph.succs e) ⟨{e}, [], s⟩ := by
    refine ⟨h.cut, List.nodup_nil, fun x hx => absurd hx List.not_mem_nil,
      Finset.mem_singleton_self e, fun x hx => .inl (Finset.mem_singleton.mp hx),
      fun x hx => absurd hx List.not_mem_nil, fun x hx y hy => ?_, h.mono, h.shared,
      fun y hy => ?_⟩
    · have hxe : x = e := hx.resolve_right List.not_mem_nil
      by_cases hyn : y ∈ s.newEntries
      · exact .inr (.inl hyn)
      · exact .inr (.inr ((h.cut.succs e y).mpr ⟨hxe ▸ hy, hyn⟩))
    · obtain ⟨hb, hn⟩ := (h.cut.succs e y).mp hy
      have hy₀ : y ∈ s₀.graph.succs e := (h₀.cut.succs e y).mpr ⟨hb, fun hm => hn (h.mono hm)⟩
      exact mem_signatures.mpr ⟨he, .single hy₀⟩
  obtain ⟨w, hw, hwinv, hmono⟩ := walk_inv h₀.cut he hinv
  refine ⟨w.frags.reverse, w.split, ?_, ⟨hwinv.cut, hwinv.mono, hwinv.shared⟩, hmono,
    ⟨List.nodup_reverse.mpr hwinv.nodup, fun x => ?_, fun x hx y hy => ?_⟩⟩
  · unfold newCluster
    simp [hsig, hw, ok_bind]
  · rw [List.mem_reverse]
    refine ⟨hwinv.frags x, fun ⟨hne, hx⟩ => ?_⟩
    have hex : e ∈ signatures s₀.graph entryIds x := hx ▸ Finset.mem_singleton_self e
    exact (mem_frags_of_sig h₀ he hwinv (mem_signatures.mp hex).2 hx).resolve_left hne
  · have hcase : y = e ∨ y ∈ w.frags ∨ y ∈ w.split.newEntries := by
      rcases hwinv.edges x (hx.imp_right List.mem_reverse.mp) y hy with hv | hn | hs
      · exact hwinv.visited y hv
      · exact .inr (.inr hn)
      · cases hs
    rcases hcase with rfl | hf | hn
    · -- an edge to the entry itself was removed before
      by_cases hyn : y ∈ s₀.newEntries
      · exact .inr (hwinv.mono hyn)
      · exact absurd ((h₀.cut.succs x y).mpr ⟨hy, hyn⟩) (h₀.noIn y he x)
    · exact .inl (List.mem_reverse.mpr hf)
    · exact .inr hn

theorem newClusters_spec (h₀ : Parted base entryIds fragIds s₀) {es : List (Fin n)}
    (hes : ∀ e ∈ es, e ∈ entryIds) (h : Within base entryIds s₀ s) :
    ∃ cs s', newClusters (signatures s₀.graph entryIds) es s = .ok (cs, s') ∧
      Within base entryIds s₀ s' ∧ s.newEntries ⊆ s'.newEntries ∧ cs.map Prod.fst = es ∧
      ∀ c ∈ cs, Owned base (signatures s₀.graph entryIds) s'.newEntries c := by
  induction es generalizing s with
  | nil =>
    exact ⟨[], s, rfl, h, Finset.Subset.refl _, rfl, fun c hc => absurd hc List.not_mem_nil⟩
  | cons e es ih =>
    obtain ⟨l, s₁, hs₁, h₁, hsub₁, hown⟩ := newCluster_spec h₀ (hes e List.mem_cons_self) h
    obtain ⟨cs, s₂, hs₂, h₂, hsub₂, hmap, hcs⟩ :=
      ih (fun e he => hes e (List.mem_cons_of_mem _ he)) h₁
    refine ⟨(e, l) :: cs, s₂, ?_, h₂, hsub₁.trans hsub₂, by rw [List.map_cons, hmap], ?_⟩
    · simp [newClusters, hs₁, ok_bind, hs₂]
    · intro c hc
      rcases List.mem_cons.mp hc with rfl | hc'
      · exact hown.mono hsub₂
      · exact hcs c hc'

theorem mem_unassigned {cs : List (Fin n × List (Fin n))} :
    x ∈ unassigned fragIds cs ↔ x ∈ fragIds ∧ ∀ c ∈ cs, x ∉ c.2 := by
  have hfold : ∀ u : Finset (Fin n),
      x ∈ cs.foldl (fun s c => s \ c.2.toFinset) u ↔ x ∈ u ∧ ∀ c ∈ cs, x ∉ c.2 := by
    induction cs with
    | nil => simp
    | cons c cs ih =>
      intro u
      rw [List.foldl_cons, ih, Finset.mem_sdiff, List.mem_toFinset, List.forall_mem_cons,
        and_assoc]
  unfold unassigned
  rw [hfold, List.mem_toFinset]

/-! ### The rest -/

/-- One pass of the division: the entries have got their clusters. -/
structure Pass (base : Graph n) (entryIds fragIds : List (Fin n)) (s₀ : Split n)
    (cs : List (Fin n × List (Fin n))) (s : Split n) : Prop where
  parted : Parted base entryIds fragIds s₀
  within : Within base entryIds s₀ s
  heads : cs.map Prod.fst = entryIds
  owned : ∀ c ∈ cs, Owned base (signatures s₀.graph entryIds) s.newEntries c

namespace Pass

variable {cs : List (Fin n × List (Fin n))} (h : Pass base entryIds fragIds s₀ cs s)

include h

theorem head_mem (hc : c ∈ cs) : c.1 ∈ entryIds :=
  h.heads ▸ List.mem_map_of_mem hc

theorem exists_head (he : e ∈ entryIds) : ∃ c ∈ cs, c.1 = e := by
  rw [← h.heads] at he
  exact List.mem_map.mp he

theorem mem_fragIds (hc : c ∈ cs) (hx : x ∈ c.2) : x ∈ fragIds := by
  obtain ⟨hne, hsig⟩ := ((h.owned c hc).mem x).mp hx
  have hmem : c.1 ∈ signatures s₀.graph entryIds x := hsig ▸ Finset.mem_singleton_self _
  obtain ⟨he, hr⟩ := mem_signatures.mp hmem
  exact (h.parted.mem_of_reach he hr).resolve_left hne

theorem not_mem_newEntries (hc : c ∈ cs) (hx : x ∈ c.2) : x ∉ s.newEntries := by
  intro hm
  rcases h.within.shared x hm with hold | hsh
  · exact h.parted.old x (h.mem_fragIds hc hx) hold
  · exact hsh.2 c.1 (((h.owned c hc).mem x).mp hx).2

theorem newEntry_mem {y : Fin n} (hy : y ∈ s.newEntries) : y ∈ s₀.newEntries ∨ y ∈ fragIds := by
  refine (h.within.shared y hy).imp_right fun hsh => ?_
  obtain ⟨⟨e, he, hey⟩, hne⟩ := hsh
  refine (h.parted.mem_of_reach he (mem_signatures.mp hey).2).resolve_left ?_
  rintro rfl
  exact hne y (h.parted.sig_entry he)

/-- An entry or an assigned fragment has left the cluster, so its edges lead to assigned fragments
or to new entries. -/
theorem edges_assigned {a b : Fin n} (ha : a ∈ entryIds ++ fragIds)
    (hu : a ∉ unassigned fragIds cs) (hb : b ∈ base.succs a) :
    b ∉ unassigned fragIds cs ∨ b ∈ s.newEntries := by
  have hassigned : ∃ c ∈ cs, a = c.1 ∨ a ∈ c.2 := by
    rcases List.mem_append.mp ha with he | hf
    · obtain ⟨c, hc, rfl⟩ := h.exists_head he
      exact ⟨c, hc, .inl rfl⟩
    · by_contra hno
      refine hu (mem_unassigned.mpr ⟨hf, fun c hc hm => hno ⟨c, hc, .inr hm⟩⟩)
  obtain ⟨c, hc, hac⟩ := hassigned
  refine ((h.owned c hc).edges a hac b hb).imp_left fun hm hun => ?_
  exact (mem_unassigned.mp hun).2 c hc hm

theorem unassigned_of_edge {a b : Fin n} (ha : a ∈ unassigned fragIds cs)
    (hab : b ∈ s₀.graph.succs a) : b ∈ unassigned fragIds cs := by
  obtain ⟨haf, hno⟩ := mem_unassigned.mp ha
  refine mem_unassigned.mpr
    ⟨h.parted.closed a (List.mem_append_right _ haf) b hab, fun c hc hb => ?_⟩
  have hsub : signatures s₀.graph entryIds a ⊆ signatures s₀.graph entryIds b :=
    signatures_mono hab
  rw [(((h.owned c hc).mem b).mp hb).2] at hsub
  obtain ⟨e, he, hr⟩ := h.parted.reached a haf
  have hea := mem_signatures.mpr ⟨he, hr⟩
  have hec : e = c.1 := Finset.mem_singleton.mp (hsub hea)
  have hsig : signatures s₀.graph entryIds a = {c.1} :=
    Finset.Subset.antisymm hsub (Finset.singleton_subset_iff.mpr (hec ▸ hea))
  refine hno c hc (((h.owned c hc).mem a).mpr ⟨?_, hsig⟩)
  rintro rfl
  exact List.disjoint_of_nodup_append h.parted.nodup (h.head_mem hc) haf

/-- **What is left can be split in the same way.** -/
theorem rest (hx : x ∈ unassigned fragIds cs) {frags' : List (Fin n)}
    (hfrags : (unassigned fragIds cs).sort (· ≤ ·) = frags') :
    Parted base (frags'.filter (· ∈ s.newEntries)) (frags'.filter (· ∉ s.newEntries)) s := by
  have hmem : ∀ y, y ∈ frags' ↔ y ∈ unassigned fragIds cs := fun y => by
    rw [← hfrags, Finset.mem_sort]
  have hnd : frags'.Nodup := hfrags ▸ Finset.sort_nodup _ _
  -- edges left lead from what is left to what is left
  have hedge : ∀ a b, a ∈ entryIds ++ fragIds → b ∈ s₀.graph.succs a → b ∈ unassigned fragIds cs →
      b ∉ s.newEntries → a ∈ unassigned fragIds cs ∧ b ∈ s.graph.succs a := by
    intro a b ha hab hb hne
    have hbase : b ∈ base.succs a := ((h.parted.cut.succs a b).mp hab).1
    refine ⟨?_, (h.within.cut.succs a b).mpr ⟨hbase, hne⟩⟩
    by_contra hu
    exact (h.edges_assigned ha hu hbase).elim (fun hnb => hnb hb) hne
  have hreach : ∀ y ∈ unassigned fragIds cs, ∃ e ∈ frags'.filter (· ∈ s.newEntries),
      Reach s.graph.succs e y := by
    intro y hy
    obtain ⟨e, he, hr⟩ := h.parted.reached y (mem_unassigned.mp hy).1
    induction hr with
    | refl =>
      -- an entry is not a fragment
      have hdis := List.disjoint_of_nodup_append h.parted.nodup
      exact absurd (mem_unassigned.mp hy).1 (fun hf => hdis he hf)
    | @tail a b hea hab ih =>
      by_cases hb : b ∈ s.newEntries
      · exact ⟨b, List.mem_filter.mpr ⟨(hmem b).mpr hy, by simpa using hb⟩, .refl⟩
      · have ha : a ∈ entryIds ++ fragIds := by
          rcases h.parted.mem_of_reach he hea with rfl | hf
          · exact List.mem_append_left _ he
          · exact List.mem_append_right _ hf
        obtain ⟨hua, hab'⟩ := hedge a b ha hab hy hb
        obtain ⟨e', he', hr'⟩ := ih hua
        exact ⟨e', he', hr'.tail hab'⟩
  refine ⟨h.within.cut, ?_, ?_, fun e he a hae => ?_, fun a ha b hab => ?_, fun y hy => ?_,
    fun y hy => ?_⟩
  · have hperm := List.filter_append_perm (fun y => decide (y ∈ s.newEntries)) frags'
    simp only [decide_not] at hperm ⊢
    exact hperm.nodup_iff.mpr hnd
  · obtain ⟨e, he, -⟩ := hreach x hx
    exact List.ne_nil_of_mem he
  · have hne : e ∈ s.newEntries := by simpa using (List.mem_filter.mp he).2
    exact ((h.within.cut.succs a e).mp hae).2 hne
  · have ha' : a ∈ unassigned fragIds cs := by
      rw [← hmem]
      rcases List.mem_append.mp ha with hf | hf
      · exact (List.mem_filter.mp hf).1
      · exact (List.mem_filter.mp hf).1
    obtain ⟨hb, hne⟩ := (h.within.cut.succs a b).mp hab
    have hab₀ : b ∈ s₀.graph.succs a :=
      (h.parted.cut.succs a b).mpr ⟨hb, fun hm => hne (h.within.mono hm)⟩
    refine List.mem_filter.mpr ⟨(hmem b).mpr ?_, by simpa using hne⟩
    exact h.unassigned_of_edge ha' hab₀
  · exact hreach y ((hmem y).mp (List.mem_filter.mp hy).1)
  · simpa using (List.mem_filter.mp hy).2

end Pass

/-! ### The division -/

/-- **What the division yields.** -/
structure Parts (base : Graph n) (entryIds fragIds : List (Fin n)) (s₀ : Split n)
    (cs : List (Fin n × List (Fin n))) (s : Split n) : Prop where
  mono : s₀.newEntries ⊆ s.newEntries
  nodup : (cs.flatMap fun c => c.1 :: c.2).Nodup
  mem : ∀ x, x ∈ cs.flatMap (fun c => c.1 :: c.2) ↔ x ∈ entryIds ++ fragIds
  entries : ∀ e ∈ entryIds, ∃ c ∈ cs, c.1 = e
  heads : ∀ c ∈ cs, c.1 ∈ entryIds ∨ c.1 ∈ s.newEntries
  news : ∀ y ∈ s.newEntries, y ∈ s₀.newEntries ∨ y ∈ fragIds
  frags : ∀ c ∈ cs, ∀ x ∈ c.2, x ∈ fragIds
  old : ∀ c ∈ cs, ∀ x ∈ c.2, x ∉ s.newEntries
  edges : ∀ c ∈ cs, ∀ x, x = c.1 ∨ x ∈ c.2 → ∀ y ∈ base.succs x, y ∈ c.2 ∨ y ∈ s.newEntries
  owned : ∀ c ∈ cs, c.1 ∈ entryIds →
    ∀ x, x ∈ c.2 ↔ x ≠ c.1 ∧ signatures s₀.graph entryIds x = {c.1}

namespace Pass

variable {cs : List (Fin n × List (Fin n))} (h : Pass base entryIds fragIds s₀ cs s)

include h

theorem nodup : (cs.flatMap fun c => c.1 :: c.2).Nodup := by
  have hdis := List.disjoint_of_nodup_append h.parted.nodup
  have hheads : (cs.map Prod.fst).Nodup := h.heads ▸ (List.nodup_append.mp h.parted.nodup).1
  refine List.nodup_flatMap.mpr ⟨fun c hc => ?_, ?_⟩
  · refine List.nodup_cons.mpr ⟨fun hm => ?_, (h.owned c hc).nodup⟩
    exact (((h.owned c hc).mem c.1).mp hm).1 rfl
  · refine (List.pairwise_map.mp hheads).imp_of_mem ?_
    intro c d hc hd hne x hxc hxd
    rcases List.mem_cons.mp hxc with rfl | hxc'
    · rcases List.mem_cons.mp hxd with heq | hxd'
      · exact hne heq
      · exact hdis (h.head_mem hc) (h.mem_fragIds hd hxd')
    · rcases List.mem_cons.mp hxd with rfl | hxd'
      · exact hdis (h.head_mem hd) (h.mem_fragIds hc hxc')
      · have h1 := (((h.owned c hc).mem x).mp hxc').2
        have h2 := (((h.owned d hd).mem x).mp hxd').2
        exact hne (Finset.singleton_injective (h1.symm.trans h2))

theorem mem_flatMap (x : Fin n) :
    x ∈ cs.flatMap (fun c => c.1 :: c.2) ↔
      x ∈ entryIds ++ fragIds ∧ x ∉ unassigned fragIds cs := by
  rw [List.mem_flatMap, mem_unassigned]
  constructor
  · rintro ⟨c, hc, hx⟩
    rcases List.mem_cons.mp hx with rfl | hx'
    · refine ⟨List.mem_append_left _ (h.head_mem hc), fun hf => ?_⟩
      exact List.disjoint_of_nodup_append h.parted.nodup (h.head_mem hc) hf.1
    · exact ⟨List.mem_append_right _ (h.mem_fragIds hc hx'), fun hf => hf.2 c hc hx'⟩
  · rintro ⟨hx, hno⟩
    rcases List.mem_append.mp hx with he | hf
    · obtain ⟨c, hc, rfl⟩ := h.exists_head he
      exact ⟨c, hc, List.mem_cons_self⟩
    · by_contra hcon
      refine hno ⟨hf, fun c hc hm => hcon ⟨c, hc, List.mem_cons_of_mem _ hm⟩⟩

theorem done (hu : unassigned fragIds cs = ∅) : Parts base entryIds fragIds s₀ cs s where
  mono := h.within.mono
  nodup := h.nodup
  mem x := by simp [h.mem_flatMap, hu]
  entries _ he := h.exists_head he
  heads _ hc := .inl (h.head_mem hc)
  news _ hy := h.newEntry_mem hy
  frags _ hc _ hx := h.mem_fragIds hc hx
  old _ hc _ hx := h.not_mem_newEntries hc hx
  edges c hc := (h.owned c hc).edges
  owned c hc _ := (h.owned c hc).mem

/-- The parts of what is left complete the division. -/
theorem append {frags' : List (Fin n)}
    (hfrags : (unassigned fragIds cs).sort (· ≤ ·) = frags')
    {cs' : List (Fin n × List (Fin n))} {s' : Split n}
    (h' : Parts base (frags'.filter (· ∈ s.newEntries)) (frags'.filter (· ∉ s.newEntries)) s
      cs' s') : Parts base entryIds fragIds s₀ (cs ++ cs') s' := by
  have hmem : ∀ y, y ∈ frags' ↔ y ∈ unassigned fragIds cs := fun y => by
    rw [← hfrags, Finset.mem_sort]
  have hmem' : ∀ x, x ∈ cs'.flatMap (fun c => c.1 :: c.2) ↔ x ∈ unassigned fragIds cs :=
    fun x => by
      rw [h'.mem, ← hmem]
      by_cases hx : x ∈ s.newEntries <;> simp [hx]
  have hnew : ∀ y ∈ s'.newEntries, y ∈ s.newEntries ∨ y ∈ unassigned fragIds cs :=
    fun y hy => (h'.news y hy).imp_right fun hf => (hmem y).mp (List.mem_filter.mp hf).1
  have hfrag : ∀ {x}, x ∈ unassigned fragIds cs → x ∈ fragIds := fun hx =>
    (mem_unassigned.mp hx).1
  -- the heads of the later clusters were fragments
  have hhead : ∀ c ∈ cs', c.1 ∈ unassigned fragIds cs := fun c hc =>
    (hmem' c.1).mp (List.mem_flatMap.mpr ⟨c, hc, List.mem_cons_self⟩)
  refine ⟨h.within.mono.trans h'.mono, ?_, fun x => ?_, fun e he => ?_, fun c hc => ?_,
    fun y hy => ?_, fun c hc x hx => ?_, fun c hc x hx hm => ?_, fun c hc x hx y hy => ?_,
    fun c hc hce => ?_⟩
  · rw [List.flatMap_append]
    refine List.nodup_append'.mpr ⟨h.nodup, h'.nodup, fun x hx hx' => ?_⟩
    exact ((h.mem_flatMap x).mp hx).2 ((hmem' x).mp hx')
  · rw [List.flatMap_append, List.mem_append, h.mem_flatMap, hmem']
    constructor
    · rintro (hx | hx)
      · exact hx.1
      · exact List.mem_append_right _ (hfrag hx)
    · intro hx
      by_cases hu : x ∈ unassigned fragIds cs
      · exact .inr hu
      · exact .inl ⟨hx, hu⟩
  · obtain ⟨c, hc, rfl⟩ := h.exists_head he
    exact ⟨c, List.mem_append_left _ hc, rfl⟩
  · rcases List.mem_append.mp hc with hc' | hc'
    · exact .inl (h.head_mem hc')
    · refine .inr ((h'.heads c hc').elim (fun he => ?_) id)
      exact h'.mono (by simpa using (List.mem_filter.mp he).2)
  · rcases hnew y hy with hm | hu
    · exact h.newEntry_mem hm
    · exact .inr (hfrag hu)
  · rcases List.mem_append.mp hc with hc' | hc'
    · exact h.mem_fragIds hc' hx
    · exact hfrag ((hmem x).mp (List.mem_filter.mp (h'.frags c hc' x hx)).1)
  · rcases List.mem_append.mp hc with hc' | hc'
    · rcases hnew x hm with hn | hu
      · exact h.not_mem_newEntries hc' hx hn
      · exact (mem_unassigned.mp hu).2 c hc' hx
    · exact h'.old c hc' x hx hm
  · rcases List.mem_append.mp hc with hc' | hc'
    · exact ((h.owned c hc').edges x hx y hy).imp_right fun hm => h'.mono hm
    · exact h'.edges c hc' x hx y hy
  · rcases List.mem_append.mp hc with hc' | hc'
    · exact (h.owned c hc').mem
    · exact absurd (hfrag (hhead c hc')) (List.disjoint_of_nodup_append h.parted.nodup hce)

end Pass

/-- **The division succeeds.** -/
theorem split_spec {entryIds fragIds : List (Fin n)} {s₀ : Split n}
    (h : Parted base entryIds fragIds s₀) :
    ∃ cs s, split entryIds fragIds s₀ = .ok (cs, s) ∧ Parts base entryIds fragIds s₀ cs s := by
  fun_induction split entryIds fragIds s₀ with
  | case1 => exact absurd rfl h.nonempty
  | case2 entryIds fragIds s₀ hne ih =>
    obtain ⟨cs, s, hcs, hwithin, -, hheads, hown⟩ := newClusters_spec h (fun _ he => he)
      ⟨h.cut, Finset.Subset.refl _, fun _ hy => .inl hy⟩
    have hpass : Pass base entryIds fragIds s₀ cs s := ⟨h, hwithin, hheads, hown⟩
    rw [hcs, ok_bind]
    dsimp only
    split
    · next hnil =>
      refine ⟨cs, s, rfl, hpass.done ?_⟩
      exact Finset.eq_empty_of_forall_notMem fun x hx => by
        rw [← Finset.mem_sort (· ≤ ·), hnil] at hx
        exact List.not_mem_nil hx
    · next hnil =>
      obtain ⟨x, hx⟩ := List.exists_mem_of_ne_nil _ hnil
      rw [Finset.mem_sort] at hx
      obtain ⟨cs', s', hcs', hparts⟩ := ih cs s _ rfl (hpass.rest hx rfl)
      refine ⟨cs ++ cs', s', ?_, hpass.append rfl hparts⟩
      rw [hcs']
      rfl

end SmlNj.NormalizeCluster
