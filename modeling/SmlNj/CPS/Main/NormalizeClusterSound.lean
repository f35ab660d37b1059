import SmlNj.CPS.Main.ClusterSplit
import SmlNj.CPS.Main.ClusterHeaders

/-!
# Cluster normalization is correct

The pass succeeds on clusters in which every function is reachable from an entry.
Its clusters have one entry each, the functions are those given and the headers,
and jumps stay in a cluster or go to an entry.  A new entry is not jumped to from
its own cluster, but an entry that was there before keeps such jumps.

## Main definitions

* `WellFormed` — the clusters that are given.
* `Normalized` — the clusters that are to be returned.
* `NoEntryLoop` — no entry is jumped to from a function that only it reaches.

## Main results

* `transform_spec` — the pass succeeds, and what it yields is normalized but for jumps to entries
  that were there before.
* `transform_normalized_iff` — when it is normalized.
-/

namespace SmlNj.NormalizeCluster

open CPS ExceptList

/-! ### What is given -/

def Calls (cl : Cluster) (f g : Function) : Prop := g ∈ cl ∧ g.name ∈ callees f.body

def CallsFrag (cl : Cluster) (f g : Function) : Prop := Calls cl f g ∧ isEscaping g = false

/-- The first function reaches the second through functions that are not entries. -/
def Reaches (cl : Cluster) : Function → Function → Prop := Relation.TransGen (CallsFrag cl)

def OwnedBy (cl : Cluster) (e f : Function) : Prop :=
  f = e ∨ Reaches cl e f ∧ ∀ e' ∈ cl, isEscaping e' = true → Reaches cl e' f → e' = e

/-- **No entry is jumped to from itself or from a function that only it reaches.** -/
def NoEntryLoop (cl : Cluster) : Prop :=
  ∀ e ∈ cl, isEscaping e = true → ∀ f ∈ cl, OwnedBy cl e f → e.name ∉ callees f.body

/-- A cluster of first-order functions with labels below `next`, which jump to each other and are
reachable by direct calls from an entry. -/
structure ClusterOk (next : Lvar) (cl : Cluster) : Prop where
  nonempty : cl ≠ []
  firstOrder : ∀ f ∈ cl, FirstOrder f.body = true
  closed : ∀ f ∈ cl, ∀ l ∈ callees f.body, ∃ g ∈ cl, g.name = l
  distinct : (cl.map Function.name).Nodup
  fresh : ∀ f ∈ cl, f.name < next
  reached : ∀ f ∈ cl, ∃ e ∈ cl, isEscaping e = true ∧ Relation.ReflTransGen (Calls cl) e f

namespace ClusterOk

variable {next : Lvar} {cl : Cluster} (h : ClusterOk next cl)

include h

theorem eq_of_name {f g : Function} (hf : f ∈ cl) (hg : g ∈ cl) (he : f.name = g.name) : f = g :=
  List.inj_on_of_nodup_map h.distinct hf hg he

theorem callees_lt {f : Function} (hf : f ∈ cl) {l : Lvar} (hl : l ∈ callees f.body) :
    l < next := by
  obtain ⟨g, hg, rfl⟩ := h.closed f hf l hl
  exact h.fresh g hg

theorem exists_reaches {f : Function} (hf : f ∈ cl) (hne : isEscaping f = false) :
    ∃ e ∈ cl, isEscaping e = true ∧ Reaches cl e f := by
  obtain ⟨e, he, hesc, hr⟩ := h.reached f hf
  have hcase : (f ∈ cl ∧ isEscaping f = true) ∨
      ∃ e ∈ cl, isEscaping e = true ∧ Reaches cl e f := by
    clear hf hne
    induction hr with
    | refl => exact .inl ⟨he, hesc⟩
    | @tail a b hea hab ih =>
      by_cases hb : isEscaping b = true
      · exact .inl ⟨hab.1, hb⟩
      · -- the last entry on the path is where it begins
        have hab' : CallsFrag cl a b := ⟨hab, by simpa using hb⟩
        rcases ih with ⟨ha, hesca⟩ | ⟨e', he', hesc', hr'⟩
        · exact .inr ⟨a, ha, hesca, .single hab'⟩
        · exact .inr ⟨e', he', hesc', hr'.tail hab'⟩
  rcases hcase with ⟨-, hesc'⟩ | hex
  · rw [hesc'] at hne
    cases hne
  · exact hex

end ClusterOk

/-- **The division of a cluster** into entries with the functions that go with them. -/
structure Division (cl : Cluster) (cs : List (Function × List Function)) : Prop where
  perm : (cs.flatMap fun c => c.1 :: c.2).Perm cl
  frags : ∀ c ∈ cs, ∀ f ∈ c.2, isEscaping f = false
  jumps : ∀ c ∈ cs, ∀ f ∈ c.1 :: c.2, ∀ l ∈ callees f.body,
    (∃ g ∈ c.2, g.name = l) ∨ ∃ c' ∈ cs, c'.1.name = l
  owned : ∀ c ∈ cs, isEscaping c.1 = true → ∀ f ∈ cl, f ∈ c.1 :: c.2 ↔ OwnedBy cl c.1 f

/-- A cluster with one entry is not divided. -/
theorem division_single {next : Lvar} {cl : Cluster} (h : ClusterOk next cl) {entry : Function}
    {frags : List Function} (hp : cl.partition isEscaping = ([entry], frags)) :
    Division cl [(entry, frags)] := by
  rw [List.partition_eq_filter_filter, Prod.mk.injEq] at hp
  obtain ⟨hentry, hfrags⟩ := hp
  have hperm : (entry :: frags).Perm cl := by
    have hp := List.filter_append_perm isEscaping cl
    rwa [hentry, show cl.filter (fun f => !isEscaping f) = frags from hfrags] at hp
  have hesc : ∀ e, e ∈ cl ∧ isEscaping e = true ↔ e = entry := fun e => by
    rw [← List.mem_filter, hentry, List.mem_singleton]
  have hfrag : ∀ f, f ∈ frags ↔ f ∈ cl ∧ isEscaping f = false := fun f => by
    rw [← hfrags]
    simp
  refine ⟨by simpa using hperm, fun c hc f hf => ?_, fun c hc f hf l hl => ?_,
    fun c hc hce f hf => ?_⟩
  · rw [List.mem_singleton.mp hc] at hf
    exact ((hfrag f).mp hf).2
  · rw [List.mem_singleton.mp hc] at hf ⊢
    obtain ⟨g, hg, rfl⟩ := h.closed f (hperm.mem_iff.mp hf) l hl
    rcases List.mem_cons.mp (hperm.mem_iff.mpr hg) with rfl | hg'
    · exact .inr ⟨(g, frags), List.mem_cons_self, rfl⟩
    · exact .inl ⟨g, hg', rfl⟩
  · rw [List.mem_singleton.mp hc]
    refine ⟨fun _ => ?_, fun _ => hperm.mem_iff.mpr hf⟩
    by_cases hfe : f = entry
    · exact .inl hfe
    · have hne : isEscaping f = false := by
        by_contra hcon
        exact hfe ((hesc f).mp ⟨hf, by simpa using hcon⟩)
      obtain ⟨e, he, hesce, hr⟩ := h.exists_reaches hf hne
      refine .inr ⟨(hesc e).mp ⟨he, hesce⟩ ▸ hr, fun e' he' hesce' _ => ?_⟩
      exact (hesc e').mp ⟨he', hesce'⟩

/-! ### Numbered functions -/

/-- The functions of a cluster, numbered with the entries first. -/
structure Info.Numbers (info : Info) (cl : Cluster) : Prop where
  perm : info.funcs.Perm cl
  entry : ∀ a, info.isEntry a = isEscaping (info.funcOf a)

theorem numbers_partition {cl : Cluster} {ents frags : List Function}
    (hp : cl.partition isEscaping = (ents, frags)) :
    Info.Numbers ⟨ents ++ frags, ents.length⟩ cl := by
  rw [List.partition_eq_filter_filter] at hp
  obtain ⟨rfl, rfl⟩ := hp
  refine ⟨List.filter_append_perm isEscaping cl, fun a => ?_⟩
  show decide (a.val < (cl.filter isEscaping).length) = isEscaping (List.get _ a)
  rw [List.get_eq_getElem, List.getElem_append]
  by_cases ha : a.val < (cl.filter isEscaping).length
  · rw [dif_pos ha]
    have hm := List.getElem_mem ha
    simp [ha, (List.mem_filter.mp hm).2]
  · rw [dif_neg ha]
    have hlt : a.val - (cl.filter isEscaping).length < (cl.filter (not ∘ isEscaping)).length := by
      have ha' := a.isLt
      simp only [List.length_append] at ha'
      omega
    have hm := List.getElem_mem hlt
    have hne := (List.mem_filter.mp hm).2
    simp only [Function.comp_apply, Bool.not_eq_true'] at hne
    rw [hne]
    simpa using ha

namespace Info.Numbers

variable {next : Lvar} {cl : Cluster} {info : Info} (hn : info.Numbers cl)

include hn

theorem mem (a : info.Id) : info.funcOf a ∈ cl :=
  hn.perm.mem_iff.mp (List.get_mem _ a)

theorem exists_id {f : Function} (hf : f ∈ cl) : ∃ a, info.funcOf a = f :=
  List.mem_iff_get.mp (hn.perm.mem_iff.mpr hf)

theorem mem_entries {a : info.Id} :
    a ∈ (List.finRange info.funcs.length).filter info.isEntry ↔
      isEscaping (info.funcOf a) = true := by
  rw [List.mem_filter, hn.entry]
  simp

theorem mem_frags {a : info.Id} :
    a ∈ (List.finRange info.funcs.length).filter (fun id => !info.isEntry id) ↔
      isEscaping (info.funcOf a) = false := by
  rw [List.mem_filter, hn.entry]
  simp

variable (h : ClusterOk next cl)

include h

theorem name_injective {a b : info.Id} (he : (info.funcOf a).name = (info.funcOf b).name) :
    a = b := by
  have hnd : (info.funcs.map Function.name).Nodup := (hn.perm.map _).nodup_iff.mpr h.distinct
  have hf : info.funcs.get a = info.funcs.get b := h.eq_of_name (hn.mem a) (hn.mem b) he
  exact (List.Nodup.of_map _ hnd).injective_get hf

theorem idOf_eq_ok {l : Lvar} {b : info.Id} :
    info.idOf l = .ok b ↔ (info.funcOf b).name = l := by
  unfold Info.idOf
  constructor
  · intro hid
    split at hid
    · next c hc =>
      cases hid
      simpa using List.find?_some hc
    · cases hid
  · intro hl
    split
    · next c hc =>
      have hc' : (info.funcOf c).name = l := by simpa using List.find?_some hc
      rw [hn.name_injective h (hc'.trans hl.symm)]
    · next hnone =>
      have hb := List.find?_eq_none.mp hnone b
      exact absurd hl (by simpa using hb)

theorem ok : info.Ok where
  firstOrder a := h.firstOrder _ (hn.mem a)
  closed a l hl := by
    obtain ⟨g, hg, hgl⟩ := h.closed _ (hn.mem a) l hl
    obtain ⟨b, rfl⟩ := hn.exists_id hg
    exact ⟨b, (hn.idOf_eq_ok h).mpr hgl⟩

theorem target_iff (a b : info.Id) :
    Target info (callees (info.funcOf a).body) b ↔
      CallsFrag cl (info.funcOf a) (info.funcOf b) := by
  unfold Target CallsFrag Calls
  rw [hn.entry]
  simp only [hn.idOf_eq_ok h, exists_eq_right', hn.mem b, true_and]
  exact and_comm

variable {g : Graph info.funcs.length}
  (hg : ∀ a b, b ∈ g.succs a ↔ Target info (callees (info.funcOf a).body) b)

include hg

theorem reaches_iff {a : info.Id} {f : Function} :
    Reaches cl (info.funcOf a) f ↔
      ∃ b, info.funcOf b = f ∧ Relation.TransGen (DepthFirst.Edge g.succs) a b := by
  constructor
  · intro hr
    induction hr with
    | @single f hf =>
      obtain ⟨b, rfl⟩ := hn.exists_id hf.1.1
      exact ⟨b, rfl, .single ((hg a b).mpr ((hn.target_iff h a b).mpr hf))⟩
    | @tail f f' _ hff' ih =>
      obtain ⟨b, rfl, hab⟩ := ih
      obtain ⟨c, rfl⟩ := hn.exists_id hff'.1.1
      exact ⟨c, rfl, hab.tail ((hg b c).mpr ((hn.target_iff h b c).mpr hff'))⟩
  · rintro ⟨b, rfl, hr⟩
    exact Relation.TransGen.lift info.funcOf
      (fun x y hxy => (hn.target_iff h x y).mp ((hg x y).mp hxy)) a b hr

theorem parted (hlink : Linked g) {f : Function} (hf : f ∈ cl) :
    Parted g ((List.finRange info.funcs.length).filter info.isEntry)
      ((List.finRange info.funcs.length).filter fun id => !info.isEntry id) ⟨∅, g⟩ := by
  have hedge : ∀ a b, b ∈ g.succs a → isEscaping (info.funcOf b) = false := fun a b hab =>
    ((hn.target_iff h a b).mp ((hg a b).mp hab)).2
  refine ⟨⟨hlink, fun a b => by simp⟩, ?_, ?_, fun e he a hae => ?_, fun a _ b hab => ?_,
    fun x hx => ?_, fun x _ => Finset.notMem_empty x⟩
  · exact (List.filter_append_perm info.isEntry _).nodup_iff.mpr (List.nodup_finRange _)
  · obtain ⟨e, he, hesc, -⟩ := h.reached f hf
    obtain ⟨a, rfl⟩ := hn.exists_id he
    exact List.ne_nil_of_mem (hn.mem_entries.mpr hesc)
  · have hesc := hn.mem_entries.mp he
    rw [hedge a e hae] at hesc
    cases hesc
  · exact hn.mem_frags.mpr (hedge a b hab)
  · obtain ⟨e, he, hesc, hr⟩ := h.exists_reaches (hn.mem x) (hn.mem_frags.mp hx)
    obtain ⟨a, rfl⟩ := hn.exists_id he
    obtain ⟨b, hb, hab⟩ := (hn.reaches_iff h hg).mp hr
    have hbx : b = x := hn.name_injective h (congrArg Function.name hb)
    exact ⟨a, hn.mem_entries.mpr hesc, hbx ▸ hab.to_reflTransGen⟩

/-- The nodes that only one entry reaches are the functions that it owns. -/
theorem owned_iff {e x : info.Id} (he : isEscaping (info.funcOf e) = true) :
    (x = e ∨ x ≠ e ∧ signatures g ((List.finRange info.funcs.length).filter info.isEntry) x =
      {e}) ↔ OwnedBy cl (info.funcOf e) (info.funcOf x) := by
  have hreach : ∀ {a : info.Id}, Reaches cl (info.funcOf a) (info.funcOf x) ↔
      Relation.TransGen (DepthFirst.Edge g.succs) a x := fun {a} => by
    rw [hn.reaches_iff h hg]
    constructor
    · rintro ⟨b, hb, hab⟩
      rwa [← hn.name_injective h (congrArg Function.name hb)]
    · exact fun hax => ⟨x, rfl, hax⟩
  have heq : ∀ {a b : info.Id}, info.funcOf a = info.funcOf b ↔ a = b := fun {a b} =>
    ⟨fun hab => hn.name_injective h (congrArg Function.name hab), fun hab => hab ▸ rfl⟩
  by_cases hx : x = e
  · simp [hx, OwnedBy]
  simp only [hx, false_or, ne_eq, not_false_eq_true, true_and, OwnedBy, heq, hreach]
  have hmem : ∀ a, a ∈ signatures g ((List.finRange info.funcs.length).filter info.isEntry) x ↔
      isEscaping (info.funcOf a) = true ∧ DepthFirst.Reach g.succs a x := fun a => by
    rw [mem_signatures, hn.mem_entries]
  constructor
  · intro hsig
    simp only [hsig, Finset.mem_singleton] at hmem
    refine ⟨?_, fun e' he' hesc hr => ?_⟩
    · exact (Relation.reflTransGen_iff_eq_or_transGen.mp ((hmem e).mp rfl).2).resolve_left hx
    · obtain ⟨a, rfl⟩ := hn.exists_id he'
      rw [(hmem a).mpr ⟨hesc, (hreach.mp hr).to_reflTransGen⟩]
  · rintro ⟨hr, hall⟩
    ext a
    rw [hmem, Finset.mem_singleton]
    constructor
    · rintro ⟨hesc, hax⟩
      rcases Relation.reflTransGen_iff_eq_or_transGen.mp hax with rfl | hax
      · -- an entry is not reached
        obtain ⟨z, -, hzx⟩ := Relation.TransGen.tail'_iff.mp hr
        rw [((hn.target_iff h z x).mp ((hg z x).mp hzx)).2] at hesc
        cases hesc
      · exact heq.mp (hall _ (hn.mem a) hesc (hreach.mpr hax))
    · rintro rfl
      exact ⟨he, hr.to_reflTransGen⟩

end Info.Numbers

/-- **A cluster with several entries is divided.** -/
theorem division_split {next : Lvar} {cl : Cluster} {info : Info} (hn : info.Numbers cl)
    (h : ClusterOk next cl) :
    ∃ g cs s, callGraph info = .ok g ∧ splitCluster info g = .ok (cs, s) ∧
      Division cl (cs.map fun c => (info.funcOf c.1, c.2.map info.funcOf)) ∧
      ∀ c ∈ cs, c.1 ∈ s.newEntries ↔ isEscaping (info.funcOf c.1) = false := by
  obtain ⟨g, hg, hlink, hedges⟩ := callGraph_spec (hn.ok h)
  obtain ⟨f, hf⟩ := List.exists_mem_of_ne_nil _ h.nonempty
  obtain ⟨cs, s, hcs, parts⟩ := split_spec (hn.parted h hedges hlink hf)
  -- the new entries are functions that are not entries, and each has its cluster
  have hnew : ∀ y ∈ s.newEntries, isEscaping (info.funcOf y) = false := fun y hy =>
    hn.mem_frags.mp ((parts.news y hy).resolve_left (Finset.notMem_empty y))
  have hhead : ∀ y ∈ s.newEntries, ∃ c ∈ cs, c.1 = y := by
    intro y hy
    have hy' := (parts.mem y).mpr (List.mem_append_right _ (hn.mem_frags.mpr (hnew y hy)))
    obtain ⟨c, hc, hyc⟩ := List.mem_flatMap.mp hy'
    rcases List.mem_cons.mp hyc with rfl | hyc'
    · exact ⟨c, hc, rfl⟩
    · exact absurd hy (parts.old c hc y hyc')
  have hcons : ∀ c : info.Id × List info.Id, ∀ f, f ∈ info.funcOf c.1 :: c.2.map info.funcOf ↔
      ∃ x, (x = c.1 ∨ x ∈ c.2) ∧ info.funcOf x = f := by
    intro c f
    rw [← List.map_cons, List.mem_map]
    simp
  refine ⟨g, cs, s, hg, hcs, ⟨?_, ?_, ?_, ?_⟩, fun c hc => ⟨hnew c.1, fun hne => ?_⟩⟩
  · have hperm : (cs.flatMap fun c => c.1 :: c.2).Perm (List.finRange info.funcs.length) := by
      refine (List.perm_ext_iff_of_nodup parts.nodup (List.nodup_finRange _)).mpr fun x => ?_
      rw [parts.mem, List.mem_append, hn.mem_entries, hn.mem_frags]
      simp
    have hmap := hperm.map info.funcOf
    rw [List.map_flatMap] at hmap
    rw [List.flatMap_map]
    refine hmap.trans (List.Perm.trans (.of_eq ?_) hn.perm)
    exact List.map_get_finRange info.funcs
  · intro c' hc' f hf
    obtain ⟨c, hc, rfl⟩ := List.mem_map.mp hc'
    obtain ⟨x, hx, rfl⟩ := List.mem_map.mp hf
    exact hn.mem_frags.mp (parts.frags c hc x hx)
  · intro c' hc' f hf l hl
    obtain ⟨c, hc, rfl⟩ := List.mem_map.mp hc'
    obtain ⟨x, hx, rfl⟩ := (hcons c f).mp hf
    obtain ⟨f', hf', rfl⟩ := h.closed _ (hn.mem x) l hl
    obtain ⟨b, rfl⟩ := hn.exists_id hf'
    have hto : (∃ c ∈ cs, c.1 = b) → ∃ c' ∈ cs.map fun c =>
        (info.funcOf c.1, c.2.map info.funcOf), c'.1.name = (info.funcOf b).name := by
      rintro ⟨d, hd, rfl⟩
      exact ⟨_, List.mem_map_of_mem hd, rfl⟩
    by_cases hesc : isEscaping (info.funcOf b) = true
    · exact .inr (hto (parts.entries b (hn.mem_entries.mpr hesc)))
    · have hxb : b ∈ g.succs x :=
        (hedges x b).mpr ((hn.target_iff h x b).mpr ⟨⟨hf', hl⟩, by simpa using hesc⟩)
      rcases parts.edges c hc x hx b hxb with hb | hb
      · exact .inl ⟨_, List.mem_map_of_mem hb, rfl⟩
      · exact .inr (hto (hhead b hb))
  · intro c' hc' hesc f hf
    obtain ⟨c, hc, rfl⟩ := List.mem_map.mp hc'
    obtain ⟨x, rfl⟩ := hn.exists_id hf
    have hown := parts.owned c hc (hn.mem_entries.mpr hesc) x
    rw [← hn.owned_iff h hedges hesc, ← hown, hcons]
    constructor
    · rintro ⟨y, hy, hyx⟩
      rwa [← hn.name_injective h (congrArg Function.name hyx)]
    · exact fun hx => ⟨x, hx, rfl⟩
  · refine (parts.heads c hc).resolve_left fun he => ?_
    rw [hn.mem_entries.mp he] at hne
    cases hne

/-! ### Headers -/

def labels (cs : List Cluster) : List Lvar := cs.flatten.map Function.name

/-- What becomes of divided clusters: each is finished, and the headers `hs` have distinct labels
from `next` to `next'`. -/
structure Headers (next next' : Lvar) (cs : List (Function × List Function))
    (out : List Cluster) (hs : List Lvar) : Prop where
  le : next ≤ next'
  finished : List.Forall₂ (fun c o => Finished next next' (!isEscaping c.1) c.1 c.2 o) cs out
  nodup : hs.Nodup
  range : ∀ h ∈ hs, next ≤ h ∧ h < next'
  labels : (labels out).Perm ((cs.flatMap fun c => c.1 :: c.2).map Function.name ++ hs)

theorem Finished.mono {a a' b b' : Lvar} {new : Bool} {entry : Function} {frags : List Function}
    {o : Cluster} (h : Finished a a' new entry frags o) (hb : b ≤ a) (hb' : a' ≤ b') :
    Finished b b' new entry frags o := by
  cases h with
  | same h => exact .same h
  | headed hnew hle hlt => exact .headed hnew (hb.trans hle) (hlt.trans_le hb')

theorem Headers.nil (next : Lvar) : Headers next next [] [] [] :=
  ⟨le_rfl, .nil, .nil, fun _ h => absurd h List.not_mem_nil, .refl _⟩

theorem Headers.mono {a a' b b' : Lvar} {cs : List (Function × List Function)}
    {out : List Cluster} {hs : List Lvar} (h : Headers a a' cs out hs) (hb : b ≤ a)
    (hb' : a' ≤ b') : Headers b b' cs out hs where
  le := hb.trans (h.le.trans hb')
  finished := h.finished.imp fun _ _ hf => hf.mono hb hb'
  nodup := h.nodup
  range l hl := ⟨hb.trans (h.range l hl).1, (h.range l hl).2.trans_le hb'⟩
  labels := h.labels

theorem Headers.append {a b : Lvar} {cs cs' : List (Function × List Function)}
    {out out' : List Cluster} {hs hs' : List Lvar} (h : Headers a b cs out hs)
    (h' : Headers a b cs' out' hs') (hd : hs.Disjoint hs') :
    Headers a b (cs ++ cs') (out ++ out') (hs ++ hs') where
  le := h.le
  finished := List.rel_append h.finished h'.finished
  nodup := List.nodup_append'.mpr ⟨h.nodup, h'.nodup, hd⟩
  range l hl := (List.mem_append.mp hl).elim (h.range l) (h'.range l)
  labels := by
    have hperm := h.labels.append h'.labels
    simp only [NormalizeCluster.labels, List.flatten_append, List.map_append,
      List.flatMap_append] at hperm ⊢
    refine hperm.trans ?_
    simp only [List.append_assoc]
    refine List.Perm.append_left _ ?_
    simp only [← List.append_assoc]
    exact List.Perm.append_right _ List.perm_append_comm

theorem Headers.disjoint {a b c : Lvar} {cs cs' : List (Function × List Function)}
    {out out' : List Cluster} {hs hs' : List Lvar} (h : Headers a b cs out hs)
    (h' : Headers b c cs' out' hs') : hs.Disjoint hs' := fun l hl hl' =>
  absurd (h.range l hl).2 (Nat.not_lt.mpr (h'.range l hl').1)

theorem headers_single (next : Lvar) {entry : Function} {frags : List Function}
    (hfo : ∀ f ∈ entry :: frags, FirstOrder f.body = true) :
    ∃ o next' hs, (if isEscaping entry = false then checkForHeader next entry frags
        else .ok (entry :: frags, next)) = .ok (o, next') ∧
      Headers next next' [(entry, frags)] [o] hs := by
  by_cases hesc : isEscaping entry = false
  · rw [if_pos hesc, checkForHeader_eq next hfo]
    by_cases hb : BackEdge entry frags
    · rw [if_pos hb]
      have hlt : next < next + 1 + entry.params.length :=
        (Nat.lt_succ_self next).trans_le (Nat.le_add_right _ _)
      refine ⟨headed next entry frags, next + 1 + entry.params.length, [next], rfl, hlt.le,
        .cons (.headed (by simp [hesc]) le_rfl hlt) .nil, List.nodup_singleton _, ?_, ?_⟩
      · intro h hh
        rw [List.mem_singleton.mp hh]
        exact ⟨le_rfl, hlt⟩
      · simp only [labels, List.flatten_cons, List.flatten_nil, List.append_nil, map_name_headed,
          List.flatMap_cons, List.flatMap_nil]
        exact .cons _ (show ([next] ++ frags.map Function.name).Perm _ from
          List.perm_append_comm)
    · rw [if_neg hb]
      exact ⟨_, _, [], rfl, le_rfl, .cons (.same fun _ => hb) .nil, .nil,
        fun _ h => absurd h List.not_mem_nil, by simp [labels]⟩
  · rw [if_neg hesc]
    exact ⟨_, _, [], rfl, le_rfl, .cons (.same fun h => by simp_all) .nil, .nil,
      fun _ h => absurd h List.not_mem_nil, by simp [labels]⟩

theorem doClusters_spec {next₀ : Lvar} {cl : Cluster} {info : Info} (hn : info.Numbers cl)
    (h : ClusterOk next₀ cl) (ne : Finset info.Id) {cs : List (info.Id × List info.Id)}
    (next : Lvar) (hne : ∀ c ∈ cs, c.1 ∈ ne ↔ isEscaping (info.funcOf c.1) = false) :
    ∃ out next' hs, doClusters info ne next cs = .ok (out, next') ∧
      Headers next next' (cs.map fun c => (info.funcOf c.1, c.2.map info.funcOf)) out hs := by
  induction cs generalizing next with
  | nil => exact ⟨[], next, [], rfl, .nil next⟩
  | cons c cs ih =>
    obtain ⟨entryId, fragIds⟩ := c
    have hfo : ∀ f ∈ info.funcOf entryId :: fragIds.map info.funcOf,
        FirstOrder f.body = true := by
      intro f hf
      rw [← List.map_cons] at hf
      obtain ⟨x, -, rfl⟩ := List.mem_map.mp hf
      exact h.firstOrder _ (hn.mem x)
    obtain ⟨o, next₁, hs, ho, h₁⟩ := headers_single next hfo
    obtain ⟨out, next₂, hs', hout, h₂⟩ :=
      ih next₁ fun c hc => hne c (List.mem_cons_of_mem _ hc)
    have hiff := hne (entryId, fragIds) List.mem_cons_self
    refine ⟨o :: out, next₂, hs ++ hs', ?_,
      (h₁.mono le_rfl h₂.le).append (h₂.mono h₁.le le_rfl) (h₁.disjoint h₂)⟩
    rw [doClusters, (hn.idOf_eq_ok h).mpr rfl, ok_bind]
    simp only [hiff]
    by_cases hesc : isEscaping (info.funcOf entryId) = false
    · rw [if_pos hesc] at ho ⊢
      simp [ho, ok_bind, hout]
    · rw [if_neg hesc] at ho ⊢
      cases ho
      simp [hout, ok_bind]

/-- **One cluster is transformed.** -/
theorem transformOne_spec {next₀ : Lvar} {cl : Cluster} (h : ClusterOk next₀ cl) (next : Lvar) :
    ∃ cs out next' hs, transformOne next cl = .ok (out, next') ∧ Division cl cs ∧
      Headers next next' cs out hs := by
  have hone : ∀ entry frags, cl.partition isEscaping = ([entry], frags) →
      ∃ hs, Division cl [(entry, frags)] ∧
        Headers next next [(entry, frags)] [entry :: frags] hs := by
    intro entry frags hp
    have hdiv := division_single h hp
    have hesc : isEscaping entry = true := by
      rw [List.partition_eq_filter_filter, Prod.mk.injEq] at hp
      have hm : entry ∈ cl.filter isEscaping := hp.1 ▸ List.mem_cons_self
      exact (List.mem_filter.mp hm).2
    refine ⟨[], hdiv, le_rfl, .cons (.same fun hf => ?_) .nil, .nil,
      fun _ h => absurd h List.not_mem_nil, by simp [labels]⟩
    simp [hesc] at hf
  obtain ⟨f, hf⟩ := List.exists_mem_of_ne_nil _ h.nonempty
  obtain ⟨e, he, hesc, -⟩ := h.reached f hf
  have hmem : e ∈ (cl.partition isEscaping).1 := by
    rw [List.partition_eq_filter_filter]
    exact List.mem_filter.mpr ⟨he, hesc⟩
  unfold transformOne
  split
  · next frag =>
    have hfe : e = frag := List.mem_singleton.mp he
    have hp : [frag].partition isEscaping = ([frag], []) := by
      simp [← hfe, hesc]
    obtain ⟨hs, hdiv, hh⟩ := hone frag [] hp
    exact ⟨_, _, _, hs, rfl, hdiv, hh⟩
  · split
    · next hp =>
      rw [hp] at hmem
      cases hmem
    · next entry frags hp =>
      obtain ⟨hs, hdiv, hh⟩ := hone entry frags hp
      exact ⟨_, _, _, hs, rfl, hdiv, hh⟩
    · next ents frags _ _ hp =>
      have hn := numbers_partition hp
      obtain ⟨g, cs, s, hg, hcs, hdiv, hne⟩ := division_split hn h
      obtain ⟨out, next', hs, hout, hh⟩ := doClusters_spec hn h s.newEntries next hne
      refine ⟨_, out, next', hs, ?_, hdiv, hh⟩
      unfold normalize
      dsimp only
      rw [hg, ok_bind, hcs]
      exact hout

/-! ### The pass -/

/-- **The clusters that are given**: in all of them together every label is that of one
function. -/
structure WellFormed (next : Lvar) (clusters : List Cluster) : Prop where
  ok : ∀ cl ∈ clusters, ClusterOk next cl
  distinct : (labels clusters).Nodup

theorem transform_headers {next₀ : Lvar} {clusters : List Cluster}
    (h : ∀ cl ∈ clusters, ClusterOk next₀ cl) (next : Lvar) :
    ∃ css out next' hs, transform next clusters = .ok (out, next') ∧
      List.Forall₂ Division clusters css ∧ Headers next next' css.flatten out hs := by
  induction clusters with
  | nil => exact ⟨[], [], next, [], rfl, .nil, .nil next⟩
  | cons cl clusters ih =>
    obtain ⟨css, out, next₁, hs, hout, hdivs, h₁⟩ :=
      ih fun cl hcl => h cl (List.mem_cons_of_mem _ hcl)
    obtain ⟨cs, out', next₂, hs', hout', hdiv, h₂⟩ :=
      transformOne_spec (h cl List.mem_cons_self) next₁
    refine ⟨cs :: css, out' ++ out, next₂, hs' ++ hs, ?_, .cons hdiv hdivs,
      (h₂.mono h₁.le le_rfl).append (h₁.mono le_rfl h₂.le) (h₁.disjoint h₂).symm⟩
    simp [transform, hout, ok_bind, hout']

def NoBackEdges (c : Cluster) : Prop := ∀ e ∈ c.head?, ∀ f ∈ c, e.name ∉ callees f.body

/-- **The clusters that are to be returned.** -/
structure Normalized (next : Lvar) (clusters out : List Cluster) : Prop where
  /-- Without the headers, the functions are those given. -/
  restored : (out.map (removeHeader next)).flatten.Perm clusters.flatten
  /-- A header jumps to the function with the fresh label. -/
  headers : ∀ e hdr frags, e :: hdr :: frags ∈ out → next ≤ hdr.name →
    e.body = .app (.label hdr.name) (e.params.map .var)
  distinct : (labels out).Nodup
  entry : ∀ c ∈ out, ∃ e frags, c = e :: frags ∧ ∀ f ∈ frags, isEscaping f = false
  /-- A jump goes to a function of the cluster or to the entry of a cluster. -/
  jumps : ∀ c ∈ out, ∀ f ∈ c, ∀ l ∈ callees f.body,
    (∃ g ∈ c, g.name = l) ∨ ∃ c' ∈ out, ∃ e ∈ c'.head?, e.name = l
  /-- No jump goes to the entry of its own cluster. -/
  noBackEdges : ∀ c ∈ out, NoBackEdges c

/-- A cluster of known functions, whose labels and jumps are below `next`. -/
structure Below (next : Lvar) (entry : Function) (frags : List Function) : Prop where
  firstOrder : ∀ f ∈ entry :: frags, FirstOrder f.body = true
  name : ∀ f ∈ entry :: frags, f.name < next
  callees : ∀ f ∈ entry :: frags, ∀ l ∈ callees f.body, l < next
  frags : ∀ f ∈ frags, isEscaping f = false

namespace Finished

variable {next₀ a b : Lvar} {new : Bool} {entry : Function} {frags : List Function} {o : Cluster}
  (h : Finished a b new entry frags o)

include h

theorem exists_of_frag {g : Function} (hg : g ∈ frags) : ∃ g' ∈ o, g'.name = g.name := by
  cases h with
  | same h => exact ⟨g, List.mem_cons_of_mem _ hg, rfl⟩
  | headed _ _ _ =>
    exact ⟨_, List.mem_cons_of_mem _ (List.mem_cons_of_mem _ (List.mem_map_of_mem hg)), rfl⟩

variable (hb : Below next₀ entry frags)

include hb

theorem exists_entry : ∃ e fs, o = e :: fs ∧ e.name = entry.name ∧
    ∀ f ∈ fs, isEscaping f = false := by
  cases h with
  | same h => exact ⟨entry, frags, rfl, rfl, hb.frags⟩
  | headed _ _ _ =>
    refine ⟨_, _, rfl, rfl, fun f hf => ?_⟩
    rcases List.mem_cons.mp hf with rfl | hf'
    · rfl
    · obtain ⟨g, hg, rfl⟩ := List.mem_map.mp hf'
      exact hb.frags g hg

theorem header_body {e hdr : Function} {fs : List Function} (ho : o = e :: hdr :: fs)
    (hn : next₀ ≤ hdr.name) : e.body = .app (.label hdr.name) (e.params.map .var) := by
  cases h with
  | same h =>
    rw [List.cons.injEq] at ho
    have hlt := hb.name hdr (by rw [ho.2]; exact List.mem_cons_of_mem _ List.mem_cons_self)
    exact absurd hn (Nat.not_le.mpr hlt)
  | headed _ _ _ =>
    obtain ⟨rfl, rfl, -⟩ := ho
    rfl

theorem exists_of_jump {f : Function} (hf : f ∈ o) {l : Lvar} (hl : l ∈ CPS.callees f.body) :
    (∃ g ∈ o, g.name = l) ∨ ∃ g ∈ entry :: frags, l ∈ CPS.callees g.body := by
  cases h with
  | same h => exact .inr ⟨f, hf, hl⟩
  | headed _ _ _ =>
    rcases callees_headed hb.firstOrder hf hl with rfl | ⟨-, hg⟩
    · exact .inl ⟨_, List.mem_cons_of_mem _ List.mem_cons_self, rfl⟩
    · exact .inr hg

variable (ha : next₀ ≤ a)

include ha

theorem removeHeader_eq : removeHeader next₀ o = entry :: frags := by
  cases h with
  | same h =>
    cases frags with
    | nil => rfl
    | cons f fs =>
      have hlt := hb.name f (List.mem_cons_of_mem _ List.mem_cons_self)
      exact if_neg (Nat.not_le.mpr hlt)
  | @headed l _ hle _ =>
    refine removeHeader_headed (ha.trans hle) hb.firstOrder fun f hf hl => ?_
    exact absurd (hb.callees f hf l hl) (Nat.not_lt.mpr (ha.trans hle))

theorem noBackEdges_iff : NoBackEdges o ↔ (new = false → ¬BackEdge entry frags) := by
  have hsame : NoBackEdges (entry :: frags) ↔ ¬BackEdge entry frags := by
    unfold NoBackEdges BackEdge
    simp
  cases h with
  | same h =>
    rw [hsame]
    cases new with
    | false => simp
    | true => simp [h rfl]
  | @headed l hnew hle _ =>
    refine ⟨fun _ hf => ?_, fun _ e he f hf hl => ?_⟩
    · rw [hnew] at hf
      cases hf
    · have hee : e.name = entry.name := by
        rw [← Option.some.inj he]
        rfl
      rw [hee] at hl
      rcases callees_headed hb.firstOrder hf hl with heq | ⟨hne, -⟩
      · have hlt := hb.name entry List.mem_cons_self
        rw [heq] at hlt
        exact absurd hlt (Nat.not_lt.mpr (ha.trans hle))
      · exact hne rfl

end Finished

/-- **The pass succeeds**, and what it yields is normalized but for jumps to entries that were there
before: those it keeps. -/
theorem transform_spec {next : Lvar} {clusters : List Cluster} (h : WellFormed next clusters) :
    ∃ out next', transform next clusters = .ok (out, next') ∧
      ((∀ c ∈ out, NoBackEdges c) → Normalized next clusters out) ∧
      ((∀ c ∈ out, NoBackEdges c) ↔ ∀ cl ∈ clusters, NoEntryLoop cl) := by
  obtain ⟨css, out, next', hs, hout, hdivs, hh⟩ := transform_headers h.ok next
  have hcl : ∀ c ∈ css.flatten, ∃ cl ∈ clusters, ∃ cs ∈ css, Division cl cs ∧ c ∈ cs := by
    intro c hc
    obtain ⟨cs, hcs, hc'⟩ := List.mem_flatten.mp hc
    obtain ⟨cl, hcl, hdiv⟩ := forall₂_mem_right hdivs hcs
    exact ⟨cl, hcl, cs, hcs, hdiv, hc'⟩
  have hmem : ∀ {cl cs c f}, Division cl cs → c ∈ cs → f ∈ c.1 :: c.2 → f ∈ cl :=
    fun hdiv hc hf => hdiv.perm.mem_iff.mp (List.mem_flatMap.mpr ⟨_, hc, hf⟩)
  have hbelow : ∀ c ∈ css.flatten, Below next c.1 c.2 := by
    intro c hc
    obtain ⟨cl, hcl, cs, -, hdiv, hc'⟩ := hcl c hc
    have hok := h.ok cl hcl
    exact ⟨fun f hf => hok.firstOrder f (hmem hdiv hc' hf),
      fun f hf => hok.fresh f (hmem hdiv hc' hf),
      fun f hf l hl => hok.callees_lt (hmem hdiv hc' hf) hl, hdiv.frags c hc'⟩
  have hflat : (css.flatten.flatMap fun c => c.1 :: c.2).Perm clusters.flatten := by
    clear hcl hbelow hmem hh h hout
    induction hdivs with
    | nil => exact .refl _
    | cons hdiv _ ih =>
      rw [List.flatten_cons, List.flatMap_append]
      exact hdiv.perm.append ih
  refine ⟨out, next', hout, fun hno => ⟨?_, fun e hdr frags ho hn => ?_, ?_, fun o ho => ?_,
    fun o ho f hf l hl => ?_, hno⟩, fun hno cl hc e he hesc f hf hown hl => ?_,
    fun hno o ho => ?_⟩
  · have heq : List.Forall₂ (· = ·) (out.map (removeHeader next))
        (css.flatten.map fun c => c.1 :: c.2) := by
      rw [List.forall₂_map_left_iff, List.forall₂_map_right_iff]
      exact (forall₂_imp_mem hh.finished fun c hc o _ hf =>
        hf.removeHeader_eq (hbelow c hc) le_rfl).flip
    rw [List.forall₂_eq_eq_eq] at heq
    rw [heq]
    exact hflat
  · obtain ⟨c, hc, hfin⟩ := forall₂_mem_right hh.finished ho
    exact hfin.header_body (hbelow c hc) rfl hn
  · rw [hh.labels.nodup_iff, List.nodup_append']
    refine ⟨(hflat.map _).nodup_iff.mpr h.distinct, hh.nodup, fun l hl hl' => ?_⟩
    obtain ⟨f, hf, rfl⟩ := List.mem_map.mp hl
    obtain ⟨c, hc, hfc⟩ := List.mem_flatMap.mp hf
    exact absurd ((hbelow c hc).name f hfc) (Nat.not_lt.mpr (hh.range _ hl').1)
  · obtain ⟨c, hc, hfin⟩ := forall₂_mem_right hh.finished ho
    obtain ⟨e, fs, heq, -, hfs⟩ := hfin.exists_entry (hbelow c hc)
    exact ⟨e, fs, heq, hfs⟩
  · obtain ⟨c, hc, hfin⟩ := forall₂_mem_right hh.finished ho
    rcases hfin.exists_of_jump (hbelow c hc) hf hl with hg | ⟨g, hg, hlg⟩
    · exact .inl hg
    · obtain ⟨cl, -, cs, hcs, hdiv, hc'⟩ := hcl c hc
      rcases hdiv.jumps c hc' g hg l hlg with ⟨g', hg', rfl⟩ | ⟨d, hd, rfl⟩
      · exact .inl (hfin.exists_of_frag hg')
      · have hd' : d ∈ css.flatten := List.mem_flatten.mpr ⟨cs, hcs, hd⟩
        obtain ⟨o', ho', hfin'⟩ := forall₂_mem_left hh.finished hd'
        obtain ⟨e, fs, rfl, hname, -⟩ := hfin'.exists_entry (hbelow d hd')
        exact .inr ⟨_, ho', e, rfl, hname⟩
  · obtain ⟨cs, hcs, hdiv⟩ := forall₂_mem_left hdivs hc
    obtain ⟨c, hc', hec⟩ := List.mem_flatMap.mp (hdiv.perm.mem_iff.mpr he)
    -- an entry is the head of its cluster
    have hce : e = c.1 := (List.mem_cons.mp hec).resolve_right fun hm => by
      rw [hdiv.frags c hc' e hm] at hesc
      cases hesc
    subst hce
    have hcf : c ∈ css.flatten := List.mem_flatten.mpr ⟨cs, hcs, hc'⟩
    obtain ⟨o, ho, hfin⟩ := forall₂_mem_left hh.finished hcf
    have hnb := (hfin.noBackEdges_iff (hbelow c hcf) le_rfl).mp (hno o ho)
    exact hnb (by simp [hesc]) ⟨f, (hdiv.owned c hc' hesc f hf).mpr hown, hl⟩
  · obtain ⟨c, hc, hfin⟩ := forall₂_mem_right hh.finished ho
    refine (hfin.noBackEdges_iff (hbelow c hc) le_rfl).mpr fun hesc => ?_
    rintro ⟨f, hf, hl⟩
    obtain ⟨cl, hclm, cs, -, hdiv, hc'⟩ := hcl c hc
    have hesc' : isEscaping c.1 = true := by simpa using hesc
    have hfcl := hmem hdiv hc' hf
    exact hno cl hclm c.1 (hmem hdiv hc' List.mem_cons_self) hesc' f hfcl
      ((hdiv.owned c hc' hesc' f hfcl).mp hf) hl

/-- **When the pass yields normalized clusters**: if and only if no entry is jumped to from itself
or from a function that only it reaches. -/
theorem transform_normalized_iff {next : Lvar} {clusters : List Cluster}
    (h : WellFormed next clusters) :
    (∃ out next', transform next clusters = .ok (out, next') ∧ Normalized next clusters out) ↔
      ∀ cl ∈ clusters, NoEntryLoop cl := by
  obtain ⟨out, next', hout, hnorm, hiff⟩ := transform_spec h
  rw [← hiff]
  constructor
  · rintro ⟨out', next'', hout', hnorm'⟩
    rw [hout] at hout'
    obtain ⟨rfl, -⟩ := Prod.mk.inj (Except.ok.inj hout')
    exact hnorm'.noBackEdges
  · exact fun hno => ⟨out, next', hout, hnorm hno⟩

def sharedLoop : Cluster :=
  [.mk .escape 0 [3, 4] [.funt, .enumt] (.app (.label 2) [.var 4]),
    .mk .escape 1 [5, 6] [.funt, .enumt] (.app (.label 2) [.var 6]),
    .mk .known 2 [7] [.enumt] (.app (.label 2) [.var 7])]

/-- The loop that two entries share becomes a cluster of its own, with a header. -/
theorem transform_normalized_sharedLoop :
    ∃ out next', transform 8 [sharedLoop] = .ok (out, next') ∧ Normalized 8 [sharedLoop] out := by
  have hcalls : ∀ f ∈ sharedLoop, Calls sharedLoop f (sharedLoop.get ⟨2, by decide⟩) := by
    intro f hf
    refine ⟨List.get_mem _ _, ?_⟩
    revert f
    decide
  have hok : ClusterOk 8 sharedLoop := by
    refine ⟨by decide, by decide, by decide, by decide, by decide, fun f hf => ?_⟩
    have hcase : f = sharedLoop.get ⟨2, by decide⟩ ∨ isEscaping f = true := by
      simp only [sharedLoop, List.mem_cons, List.not_mem_nil, or_false] at hf
      rcases hf with rfl | rfl | rfl
      · exact .inr rfl
      · exact .inr rfl
      · exact .inl rfl
    rcases hcase with rfl | hesc
    · exact ⟨_, List.mem_cons_self, rfl, .single (hcalls _ List.mem_cons_self)⟩
    · exact ⟨f, hf, hesc, .refl⟩
  have hwf : WellFormed 8 [sharedLoop] :=
    ⟨fun cl hcl => List.mem_singleton.mp hcl ▸ hok, by decide⟩
  refine (transform_normalized_iff hwf).mpr fun cl hcl => ?_
  rw [List.mem_singleton.mp hcl]
  have hno : ∀ e ∈ sharedLoop, isEscaping e = true → ∀ f ∈ sharedLoop,
      e.name ∉ callees f.body := by decide
  exact fun e he hesc f hf _ => hno e he hesc f hf

def selfLoop : Function :=
  .mk .escape 0 [1, 2] [.funt, .enumt] (.app (.label 0) [.var 1, .var 2])

/-- It is returned as it is, so its cluster is not normalized. -/
theorem transform_keeps_selfLoop :
    WellFormed 3 [[selfLoop]] ∧
      ¬∃ out next', transform 3 [[selfLoop]] = .ok (out, next') ∧
        Normalized 3 [[selfLoop]] out := by
  constructor
  · refine ⟨fun cl hcl => ?_, by decide⟩
    rw [List.mem_singleton.mp hcl]
    refine ⟨by decide, by decide, by decide, by decide, by decide, fun f hf => ?_⟩
    exact ⟨f, hf, List.mem_singleton.mp hf ▸ rfl, .refl⟩
  · rintro ⟨out, next', hout, hn⟩
    obtain ⟨rfl, -⟩ := Prod.mk.inj (Except.ok.inj hout)
    exact hn.noBackEdges _ List.mem_cons_self selfLoop rfl selfLoop List.mem_cons_self
      List.mem_cons_self

end SmlNj.NormalizeCluster
