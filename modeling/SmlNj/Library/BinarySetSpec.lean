import SmlNj.Library.BinarySetRebalance
import SmlNj.Lib.CompareSets

/-!
# The pieces of the set operations

Adding an element, joining trees with and without an element between them, and
splitting a tree at an element.  The statement about each of them has two parts: it
returns a tree for the right set, whatever happens; and the tree is in balance, if
those it was made from are and every call of `T'` restores the criterion.

## Main definitions

* `BinarySet.Gives` — a computation returns, with a property of its result, and with
  another one if its calls of `T'` restore the criterion.
* `BinarySet.Rep` — a tree with the right counts, in search order, for a set.

## Main results

* `BinarySet.add_spec`, `BinarySet.concat3_spec`, `BinarySet.split_lt_spec`,
  `BinarySet.split_gt_spec`, `BinarySet.delete'_spec`, `BinarySet.concat_spec`.
-/

namespace SmlNj.BinarySet

open BinarySet.Tree CompareSets
open Std (TransCmp OrientedCmp)

variable {α β γ : Type}

/-- A computation returns a result with the property `P`, and with the property `Q` if
every call of `T'` that it makes restores the criterion. -/
def Gives (m : M α β) (P Q : β → Prop) : Prop :=
  ∀ log, ∃ b new, m.run log = .ok (b, new ++ log) ∧ P b ∧ ((∀ c ∈ new, Restores c) → Q b)

theorem gives_pure {b : β} {P Q : β → Prop} (hP : P b) (hQ : Q b) :
    Gives (pure b : M α β) P Q := fun _ => ⟨b, [], rfl, hP, fun _ => hQ⟩

theorem gives_lift {x : Except Exn β} {b : β} {P Q : β → Prop} (hx : x = .ok b) (hP : P b)
    (hQ : Q b) : Gives (liftM x : M α β) P Q := by
  subst hx
  exact gives_pure hP hQ

theorem gives_bind {m : M α β} {f : β → M α γ} {P Q : β → Prop} {P' Q' : γ → Prop}
    (hm : Gives m P Q) (hf : ∀ b, P b → Gives (f b) P' fun c => Q b → Q' c) :
    Gives (m >>= f) P' Q' := by
  intro log
  obtain ⟨b, new, hrun, hP, hQ⟩ := hm log
  obtain ⟨c, new', hrun', hP', hQ'⟩ := hf b hP (new ++ log)
  refine ⟨c, new' ++ new, ?_, hP', ?_⟩
  · rw [StateT.run_bind, hrun, List.append_assoc]
    exact hrun'
  · intro h
    refine hQ' (fun c hc => h c (List.mem_append_left _ hc)) (hQ fun c hc => ?_)
    exact h c (List.mem_append_right _ hc)

theorem Gives.mono {m : M α β} {P Q P' Q' : β → Prop} (h : Gives m P Q)
    (hP : ∀ b, P b → P' b) (hQ : ∀ b, P b → Q b → Q' b) : Gives m P' Q' := by
  intro log
  obtain ⟨b, new, hrun, hb, hq⟩ := h log
  exact ⟨b, new, hrun, hP b hb, fun hres => hQ b hb (hq hres)⟩

theorem call_gives (v : α) {l r : Tree α} (hl : Counted l) (hr : Counted r) :
    Gives (T'.call v l r) (fun t => Counted t ∧ elems t = elems l ++ v :: elems r)
      fun t => Balanced l → Balanced r → Balanced t := by
  intro log
  obtain ⟨t, ht, hcount, helems, hbal⟩ := (T'_spec v hl hr).returns
  refine ⟨t, [⟨v, l, r⟩], ?_, ⟨hcount, helems⟩, ?_⟩
  · have hrun : (T'.call v l r).run log =
        (liftM (T' v l r) : M α (Tree α)).run (⟨v, l, r⟩ :: log) := rfl
    rw [hrun, ht]
    rfl
  · intro hres hbl hbr
    exact (hbal hbl hbr).mpr (hres _ List.mem_cons_self)

/-! ### Trees for sets -/

section Order

variable (compare : α → α → Ordering)

/-- A tree with the right counts, in search order, for a set. -/
structure Rep (t : Tree α) (S : Set α) : Prop where
  counted : Counted t
  ascending : Ascending compare (elems t)
  toSet_eq : toSet compare (elems t) = S

theorem rep_E : Rep compare E ∅ := ⟨trivial, ascending_nil compare, toSet_nil compare⟩

variable {compare} {S L R : Set α} {v x : α} {t l r s : Tree α} {n : ℕ}

theorem Rep.eq_empty (h : Rep compare E S) : S = ∅ := h.toSet_eq.symm.trans (toSet_nil compare)

variable [TransCmp compare]

theorem rep_node (hl : Rep compare l L) (hr : Rep compare r R) (hL : L ⊆ below compare v)
    (hR : R ⊆ above compare v) (hc : Counted t) (he : elems t = elems l ++ v :: elems r) :
    Rep compare t (L ∪ same compare v ∪ R) := by
  refine ⟨hc, ?_, ?_⟩
  · rw [he, ascending_append_cons, hl.toSet_eq, hr.toSet_eq]
    exact ⟨hl.ascending, hr.ascending, hL, hR⟩
  · rw [he, toSet_append_cons, hl.toSet_eq, hr.toSet_eq]

/-- The parts of a node. -/
theorem Rep.parts (h : Rep compare (T v n l r) S) :
    Rep compare l (S ∩ below compare v) ∧ Rep compare r (S ∩ above compare v) ∧
      S = (S ∩ below compare v) ∪ same compare v ∪ (S ∩ above compare v) := by
  have hasc := h.ascending
  rw [elems_T, ascending_append_cons] at hasc
  obtain ⟨hl, hr, hlv, hvr⟩ := hasc
  have hS : S = toSet compare (elems l) ∪ same compare v ∪ toSet compare (elems r) := by
    rw [← h.toSet_eq, elems_T, toSet_append_cons]
  have hbelow : S ∩ below compare v = toSet compare (elems l) := by
    ext y
    rw [hS]
    constructor
    · rintro ⟨(hy | hy) | hy, hyv⟩
      · exact hy
      · exact absurd hyv (by rw [mem_below, (mem_same _).mp hy]; simp)
      · exact absurd (TransCmp.lt_trans hyv (hvr hy)) (lt_irrefl y)
    · exact fun hy => ⟨.inl (.inl hy), hlv hy⟩
  have habove : S ∩ above compare v = toSet compare (elems r) := by
    ext y
    rw [hS]
    constructor
    · rintro ⟨(hy | hy) | hy, hvy⟩
      · exact absurd (TransCmp.lt_trans hvy (hlv hy)) (lt_irrefl v)
      · have := TransCmp.lt_of_lt_of_eq hvy ((mem_same _).mp hy)
        exact absurd this (lt_irrefl v)
      · exact hy
    · exact fun hy => ⟨.inr hy, hvr hy⟩
  exact ⟨⟨h.counted.2.1, hl, hbelow.symm⟩, ⟨h.counted.2.2, hr, habove.symm⟩,
    by rw [hbelow, habove]; exact hS⟩

theorem Rep.root_mem (h : Rep compare (T v n l r) S) : v ∈ S := by
  rw [h.parts.2.2]
  exact .inl (.inr (eq_self v))

theorem Rep.closed (h : Rep compare t S) {x y : α} (hxy : compare x y = .eq) (hy : y ∈ S) :
    x ∈ S := by
  rw [← h.toSet_eq] at hy ⊢
  exact toSet_closed hxy hy

omit [TransCmp compare] in
theorem Rep.eq {S' : Set α} (h : Rep compare t S) (hS : S = S') : Rep compare t S' := hS ▸ h

theorem call_spec (hl : Rep compare l L) (hr : Rep compare r R) (hL : L ⊆ below compare v)
    (hR : R ⊆ above compare v) (hS : L ∪ same compare v ∪ R = S) :
    Gives (T'.call v l r) (Rep compare · S) fun t => Balanced l → Balanced r → Balanced t :=
  (call_gives v hl.counted hr.counted).mono
    (fun _ h => (rep_node hl hr hL hR h.1 h.2).eq hS) (fun _ _ h => h)

/-! ### Adding an element -/

theorem add_spec (x : α) : ∀ {s : Tree α} {S : Set α}, Rep compare s S →
    Gives (add compare s x) (Rep compare · (S ∪ same compare x)) fun t =>
      Balanced s → Balanced t := by
  intro s
  induction s with
  | E =>
    intro S h
    have hS : S = ∅ := h.eq_empty
    refine gives_pure ?_ (fun _ => by simp [mkT, OkSizes])
    refine (rep_node (rep_E compare) (rep_E compare) (Set.empty_subset _) (Set.empty_subset _)
      (by simp [mkT]) rfl).eq ?_
    rw [hS, Set.union_empty]
  | T v n l r ihl ihr =>
    intro S h
    obtain ⟨hl, hr, hS⟩ := h.parts
    unfold add
    cases hxv : compare x v with
    | lt =>
      refine gives_bind (ihl hl) fun t ht => ?_
      refine (call_spec ht hr ?_ Set.inter_subset_right ?_).mono (fun _ h => h) ?_
      · rintro y (⟨_, hy⟩ | hy)
        · exact hy
        · exact below_closed v y x hy hxv
      · rw [hS]
        ext y
        simp only [Set.mem_union, Set.mem_inter_iff]
        tauto
      · intro t' _ hbal hlt hb
        exact hbal (hlt hb.2.1) hb.2.2
    | gt =>
      have hvx := lt_of_gt hxv
      refine gives_bind (ihr hr) fun t ht => ?_
      refine (call_spec hl ht Set.inter_subset_right ?_ ?_).mono (fun _ h => h) ?_
      · rintro y (⟨_, hy⟩ | hy)
        · exact hy
        · exact above_closed v y x hy hvx
      · rw [hS]
        ext y
        simp only [Set.mem_union, Set.mem_inter_iff]
        tauto
      · intro t' _ hbal hrt hb
        exact hbal hb.2.1 (hrt hb.2.2)
    | eq =>
      have hcls : same compare x = same compare v := by
        ext y
        exact ⟨fun hy => TransCmp.eq_trans hy hxv,
          fun hy => TransCmp.eq_trans hy (OrientedCmp.eq_symm hxv)⟩
      refine gives_pure ?_ (fun hb => hb)
      refine (rep_node hl hr ?_ ?_ ?_ rfl).eq ?_
      · intro y hy
        exact TransCmp.lt_of_lt_of_eq hy.2 (OrientedCmp.eq_symm hxv)
      · intro y hy
        exact TransCmp.lt_of_eq_of_lt hxv hy.2
      · exact h.counted
      · rw [hcls]
        conv_rhs => rw [hS]
        ext y
        simp only [Set.mem_union]
        tauto

/-! ### Joining and splitting -/

theorem concat3_spec (l : Tree α) (v : α) (r : Tree α) : ∀ {L R : Set α}, Rep compare l L →
    Rep compare r R → L ⊆ below compare v → R ⊆ above compare v →
    Gives (concat3 compare l v r) (Rep compare · (L ∪ same compare v ∪ R)) fun t =>
      Balanced l → Balanced r → Balanced t := by
  fun_induction concat3 compare l v r with
  | case1 v r =>
    intro L R hl hr _ _
    have hL : L = ∅ := hl.eq_empty
    refine (add_spec v hr).mono (fun t ht => ht.eq ?_) (fun t _ hbal _ hb => hbal hb)
    rw [hL, Set.empty_union, Set.union_comm]
  | case2 l v _ =>
    intro L R hl hr _ _
    have hR : R = ∅ := hr.eq_empty
    refine (add_spec v hl).mono (fun t ht => ht.eq ?_) (fun t _ hbal hb _ => hbal hb)
    rw [hR, Set.union_empty]
  | case3 v1 n1 l1 r1 v v2 n2 l2 r2 hwt ih =>
    intro L R hl hr hL hR
    obtain ⟨hl2, hr2, hReq⟩ := hr.parts
    have hv2 : compare v v2 = .lt := hR hr.root_mem
    refine gives_bind (ih hl hl2 hL (Set.inter_subset_left.trans hR)) fun t ht => ?_
    refine (call_spec ht hr2 ?_ Set.inter_subset_right ?_).mono (fun _ h => h) ?_
    · rintro y ((hy | hy) | ⟨_, hy⟩)
      · exact TransCmp.lt_trans (hL hy) hv2
      · exact TransCmp.lt_of_eq_of_lt hy hv2
      · exact hy
    · conv_rhs => rw [hReq]
      ext y
      simp only [Set.mem_union]
      tauto
    · intro t' _ hbal ht' hbl hbr
      exact hbal (ht' hbl hbr.2.1) hbr.2.2
  | case4 v1 n1 l1 r1 v v2 n2 l2 r2 hwt hwt' ih =>
    intro L R hl hr hL hR
    obtain ⟨hl1, hr1, hLeq⟩ := hl.parts
    have hv1 : compare v1 v = .lt := hL hl.root_mem
    refine gives_bind (ih hr1 hr (Set.inter_subset_left.trans hL) hR) fun t ht => ?_
    refine (call_spec hl1 ht Set.inter_subset_right ?_ ?_).mono (fun _ h => h) ?_
    · rintro y ((⟨_, hy⟩ | hy) | hy)
      · exact hy
      · exact TransCmp.lt_of_lt_of_eq hv1 (OrientedCmp.eq_symm hy)
      · exact TransCmp.lt_trans hv1 (hR hy)
    · conv_rhs => rw [hLeq]
      ext y
      simp only [Set.mem_union]
      tauto
    · intro t' _ hbal ht' hbl hbr
      exact hbal hbl.2.1 (ht' hbl.2.2 hbr)
  | case5 v1 n1 l1 r1 v v2 n2 l2 r2 hwt hwt' =>
    intro L R hl hr hL hR
    have hN := N_eq (v := v) hl.counted hr.counted
    refine gives_pure ?_ ?_
    · refine rep_node hl hr hL hR ?_ ?_
      · rw [hN]
        exact ⟨rfl, hl.counted, hr.counted⟩
      · rw [hN, elems_T]
    · intro hbl hbr
      refine ⟨?_, hbl, hbr⟩
      have h1 : n1 = size (T v1 n1 l1 r1) := hl.counted.1
      have h2 : n2 = size (T v2 n2 l2 r2) := hr.counted.1
      rw [wt_eq] at hwt hwt'
      unfold OkSizes
      omega

theorem split_lt_spec (x : α) : ∀ {s : Tree α} {S : Set α}, Rep compare s S →
    Gives (split_lt compare s x) (Rep compare · (S ∩ below compare x)) fun t =>
      Balanced s → Balanced t := by
  intro s
  induction s with
  | E =>
    intro S h
    refine gives_pure (h.eq ?_) (fun hb => hb)
    rw [h.eq_empty, Set.empty_inter]
  | T v n l r ihl ihr =>
    intro S h
    obtain ⟨hl, hr, hS⟩ := h.parts
    unfold split_lt
    cases hvx : compare v x with
    | gt =>
      have hxv := lt_of_gt hvx
      refine (ihl hl).mono (fun t ht => ht.eq ?_) (fun t _ hbal hb => hbal hb.2.1)
      ext y
      exact ⟨fun h => ⟨h.1.1, h.2⟩, fun h => ⟨⟨h.1, TransCmp.lt_trans h.2 hxv⟩, h.2⟩⟩
    | lt =>
      refine gives_bind (ihr hr) fun t ht => ?_
      refine (concat3_spec l v t hl ht Set.inter_subset_right ?_).mono (fun t' ht' => ht'.eq ?_) ?_
      · exact fun y hy => hy.1.2
      · ext y
        conv_rhs => rw [hS]
        constructor
        · rintro ((⟨hy, hyv⟩ | hy) | ⟨⟨hy, hyv⟩, hyx⟩)
          · exact ⟨.inl (.inl ⟨hy, hyv⟩), TransCmp.lt_trans hyv hvx⟩
          · exact ⟨.inl (.inr hy), TransCmp.lt_of_eq_of_lt hy hvx⟩
          · exact ⟨.inr ⟨hy, hyv⟩, hyx⟩
        · rintro ⟨(hy | hy) | hy, hyx⟩
          · exact .inl (.inl hy)
          · exact .inl (.inr hy)
          · exact .inr ⟨hy, hyx⟩
      · intro t' _ hbal hrt hb
        exact hbal hb.2.1 (hrt hb.2.2)
    | eq =>
      refine gives_pure (hl.eq ?_) (fun hb => hb.2.1)
      ext y
      exact ⟨fun h => ⟨h.1, TransCmp.lt_of_lt_of_eq h.2 hvx⟩,
        fun h => ⟨h.1, TransCmp.lt_of_lt_of_eq h.2 (OrientedCmp.eq_symm hvx)⟩⟩

theorem split_gt_spec (x : α) : ∀ {s : Tree α} {S : Set α}, Rep compare s S →
    Gives (split_gt compare s x) (Rep compare · (S ∩ above compare x)) fun t =>
      Balanced s → Balanced t := by
  intro s
  induction s with
  | E =>
    intro S h
    refine gives_pure (h.eq ?_) (fun hb => hb)
    rw [h.eq_empty, Set.empty_inter]
  | T v n l r ihl ihr =>
    intro S h
    obtain ⟨hl, hr, hS⟩ := h.parts
    unfold split_gt
    cases hvx : compare v x with
    | lt =>
      refine (ihr hr).mono (fun t ht => ht.eq ?_) (fun t _ hbal hb => hbal hb.2.2)
      ext y
      exact ⟨fun h => ⟨h.1.1, h.2⟩, fun h => ⟨⟨h.1, TransCmp.lt_trans hvx h.2⟩, h.2⟩⟩
    | gt =>
      have hxv := lt_of_gt hvx
      refine gives_bind (ihl hl) fun t ht => ?_
      refine (concat3_spec t v r ht hr ?_ Set.inter_subset_right).mono (fun t' ht' => ht'.eq ?_) ?_
      · exact fun y hy => hy.1.2
      · ext y
        conv_rhs => rw [hS]
        constructor
        · rintro ((⟨⟨hy, hyv⟩, hyx⟩ | hy) | ⟨hy, hyv⟩)
          · exact ⟨.inl (.inl ⟨hy, hyv⟩), hyx⟩
          · exact ⟨.inl (.inr hy), TransCmp.lt_of_lt_of_eq hxv (OrientedCmp.eq_symm hy)⟩
          · exact ⟨.inr ⟨hy, hyv⟩, TransCmp.lt_trans hxv hyv⟩
        · rintro ⟨(hy | hy) | hy, hyx⟩
          · exact .inl (.inl ⟨hy, hyx⟩)
          · exact .inl (.inr hy)
          · exact .inr hy
      · intro t' _ hbal hlt hb
        exact hbal (hlt hb.2.1) hb.2.2
    | eq =>
      refine gives_pure (hr.eq ?_) (fun hb => hb.2.2)
      ext y
      exact ⟨fun h => ⟨h.1, TransCmp.lt_of_eq_of_lt (OrientedCmp.eq_symm hvx) h.2⟩,
        fun h => ⟨h.1, TransCmp.lt_of_eq_of_lt hvx h.2⟩⟩

/-! ### Joining without an element between -/

/-- The smallest element, and the tree without it. -/
theorem min_delmin_spec : ∀ {s : Tree α} {S : Set α}, Rep compare s S → s ≠ E →
    ∃ m, min s = .ok m ∧ m ∈ S ∧ S ⊆ same compare m ∪ above compare m ∧
      Gives (delmin s) (Rep compare · (S ∩ above compare m)) fun t =>
        Balanced s → Balanced t := by
  intro s
  induction s with
  | E => exact fun _ h => absurd rfl h
  | T v n l r ihl ihr =>
    intro S h _
    obtain ⟨hl, hr, hS⟩ := h.parts
    cases l with
    | E =>
      have hempty : S ∩ below compare v = ∅ := hl.eq_empty
      refine ⟨v, rfl, h.root_mem, ?_, gives_pure hr (fun hb => hb.2.2)⟩
      intro y hy
      rw [hS, hempty, Set.empty_union] at hy
      exact hy.imp id fun hy => hy.2
    | T v' n' l' r' =>
      obtain ⟨m, hm, hmS, hleast, hdel⟩ := ihl hl (by simp)
      have hmv : compare m v = .lt := hmS.2
      refine ⟨m, hm, hmS.1, ?_, ?_⟩
      · intro y hy
        rw [hS] at hy
        rcases hy with (hy | hy) | hy
        · exact hleast hy
        · exact .inr (TransCmp.lt_of_lt_of_eq hmv (OrientedCmp.eq_symm hy))
        · exact .inr (TransCmp.lt_trans hmv hy.2)
      · refine gives_bind hdel fun t ht => ?_
        refine (call_spec ht hr (fun y hy => hy.1.2) Set.inter_subset_right ?_).mono
          (fun _ h => h) ?_
        · ext y
          conv_rhs => rw [hS]
          constructor
          · rintro ((⟨⟨hy, hyv⟩, hmy⟩ | hy) | ⟨hy, hvy⟩)
            · exact ⟨.inl (.inl ⟨hy, hyv⟩), hmy⟩
            · exact ⟨.inl (.inr hy),
                TransCmp.lt_of_lt_of_eq hmv (OrientedCmp.eq_symm hy)⟩
            · exact ⟨.inr ⟨hy, hvy⟩, TransCmp.lt_trans hmv hvy⟩
          · rintro ⟨(hy | hy) | hy, hmy⟩
            · exact .inl (.inl ⟨hy, hmy⟩)
            · exact .inl (.inr hy)
            · exact .inr hy
        · intro t' _ hbal hlt hb
          exact hbal (hlt hb.2.1) hb.2.2

theorem join_min_spec (hl : Rep compare l L) (hr : Rep compare r R) (hne : r ≠ E)
    (hlt : ∀ x ∈ L, ∀ y ∈ R, compare x y = .lt) :
    Gives (do let v ← min r; T'.call v l (← delmin r) : M α (Tree α))
      (Rep compare · (L ∪ R)) fun t => Balanced l → Balanced r → Balanced t := by
  obtain ⟨m, hm, hmR, hleast, hdel⟩ := min_delmin_spec hr hne
  refine gives_bind (P := (· = m)) (Q := fun _ => True) (gives_lift hm rfl trivial) ?_
  rintro b rfl
  refine gives_bind (hdel.mono (fun _ h => h) fun _ _ h => h) fun t ht => ?_
  refine (call_spec hl ht (fun y hy => hlt y hy b hmR) Set.inter_subset_right ?_).mono
    (fun _ h => h) ?_
  · ext y
    constructor
    · rintro ((hy | hy) | ⟨hy, _⟩)
      · exact .inl hy
      · exact .inr (hr.closed hy hmR)
      · exact .inr hy
    · rintro (hy | hy)
      · exact .inl (.inl hy)
      · rcases hleast hy with hy' | hy'
        · exact .inl (.inr hy')
        · exact .inr ⟨hy, hy'⟩
  · intro t' _ hbal hrt _ hbl hbr
    exact hbal hbl (hrt hbr)

theorem delete'_spec (hl : Rep compare l L) (hr : Rep compare r R)
    (hlt : ∀ x ∈ L, ∀ y ∈ R, compare x y = .lt) :
    Gives (delete' l r) (Rep compare · (L ∪ R)) fun t =>
      Balanced l → Balanced r → Balanced t := by
  cases l with
  | E =>
    refine gives_pure (hr.eq ?_) (fun _ hb => hb)
    rw [hl.eq_empty, Set.empty_union]
  | T v1 n1 l1 r1 =>
    cases r with
    | E =>
      refine gives_pure (hl.eq ?_) (fun hb _ => hb)
      rw [hr.eq_empty, Set.union_empty]
    | T v2 n2 l2 r2 => exact join_min_spec hl hr (by simp) hlt

theorem concat_spec (l r : Tree α) : ∀ {L R : Set α}, Rep compare l L → Rep compare r R →
    (∀ x ∈ L, ∀ y ∈ R, compare x y = .lt) →
    Gives (concat l r) (Rep compare · (L ∪ R)) fun t =>
      Balanced l → Balanced r → Balanced t := by
  fun_induction concat l r with
  | case1 r =>
    intro L R hl hr _
    refine gives_pure (hr.eq ?_) (fun _ hb => hb)
    rw [hl.eq_empty, Set.empty_union]
  | case2 l =>
    intro L R hl hr _
    refine gives_pure (hl.eq ?_) (fun hb _ => hb)
    rw [hr.eq_empty, Set.union_empty]
  | case3 v1 n1 l1 r1 v2 n2 l2 r2 hwt ih =>
    intro L R hl hr hlt
    obtain ⟨hl2, hr2, hReq⟩ := hr.parts
    refine gives_bind (ih hl hl2 fun x hx y hy => hlt x hx y hy.1) fun t ht => ?_
    refine (call_spec ht hr2 ?_ Set.inter_subset_right ?_).mono (fun _ h => h) ?_
    · rintro y (hy | ⟨_, hy⟩)
      · exact hlt y hy v2 hr.root_mem
      · exact hy
    · conv_rhs => rw [hReq]
      ext y
      simp only [Set.mem_union]
      tauto
    · intro t' _ hbal ht' hbl hbr
      exact hbal (ht' hbl hbr.2.1) hbr.2.2
  | case4 v1 n1 l1 r1 v2 n2 l2 r2 hwt hwt' ih =>
    intro L R hl hr hlt
    obtain ⟨hl1, hr1, hLeq⟩ := hl.parts
    refine gives_bind (ih hr1 hr fun x hx y hy => hlt x hx.1 y hy) fun t ht => ?_
    refine (call_spec hl1 ht Set.inter_subset_right ?_ ?_).mono (fun _ h => h) ?_
    · rintro y (⟨_, hy⟩ | hy)
      · exact hy
      · exact hlt v1 hl.root_mem y hy
    · conv_rhs => rw [hLeq]
      ext y
      simp only [Set.mem_union]
      tauto
    · intro t' _ hbal ht' hbl hbr
      exact hbal hbl.2.1 (ht' hbl.2.2 hbr)
  | case5 v1 n1 l1 r1 v2 n2 l2 r2 hwt hwt' =>
    intro L R hl hr hlt
    exact join_min_spec hl hr (by simp) hlt

end Order

end SmlNj.BinarySet
