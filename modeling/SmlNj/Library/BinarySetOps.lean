import SmlNj.Library.BinarySetSpec

/-!
# The set operations

The hedge union trims one tree while it walks through the other, between bounds that
may be missing on either side; the five functions of the source are one function of
optional bounds.  With it, the other operations and the tests are those of sets.

## Main definitions

* `BinarySet.uniO` — the hedge union between optional bounds.
* `BinarySet.Built` — the sets that the operations build.

## Main results

* `BinarySet.uniO_spec` — the hedge union between bounds.
* `BinarySet.set_operations_correct` — every operation computes its set.
-/

namespace SmlNj.BinarySet

open BinarySet.Tree CompareSets
open Std (TransCmp OrientedCmp)

variable {α : Type} (compare : α → α → Ordering)

/-! ### Optional bounds -/

def between (lo hi : Option α) : Set α :=
  {y | (∀ a ∈ lo, compare a y = .lt) ∧ ∀ b ∈ hi, compare y b = .lt}

def aboveLo (lo : Option α) (v : α) : Bool :=
  match lo with
  | none => true
  | some a => compare v a == .gt

def belowHi (hi : Option α) (v : α) : Bool :=
  match hi with
  | none => true
  | some b => compare v b == .lt

/-- `trim`, `trim_lo` and `trim_hi`. -/
def trimO (lo hi : Option α) : Tree α → Tree α
  | E => E
  | s@(T v _ l r) =>
      if aboveLo compare lo v then
        if belowHi compare hi v then s else trimO lo hi l
      else trimO lo hi r

/-- `split_gt` at a bound. -/
def split_gtO (s : Tree α) : Option α → M α (Tree α)
  | none => return s
  | some lo => split_gt compare s lo

/-- `split_lt` at a bound. -/
def split_ltO (s : Tree α) : Option α → M α (Tree α)
  | none => return s
  | some hi => split_lt compare s hi

/-- `uni_bd`, `uni_hi`, `uni_lo` and `uni`. -/
@[grind =] def uniO : Tree α → Tree α → Option α → Option α → M α (Tree α)
  | s, E, _, _ => return s
  | E, s, none, none => return s
  | E, T v _ l r, lo, hi => do
      let l ← split_gtO compare l lo
      let r ← split_ltO compare r hi
      concat3 compare l v r
  | T v _ l1 r1, s2@(T _ _ _ _), lo, hi => do
      let l ← uniO l1 (trimO compare lo (some v) s2) lo (some v)
      let r ← uniO r1 (trimO compare (some v) hi s2) (some v) hi
      concat3 compare l v r

theorem trim_eq (lo hi : α) (s : Tree α) :
    trim compare lo hi s = trimO compare (some lo) (some hi) s := by
  induction s with
  | E => rfl
  | T v n l r ihl ihr =>
    unfold trim trimO
    simp [ihl, ihr, aboveLo, belowHi]

theorem trim_lo_eq (lo : α) (s : Tree α) :
    trim_lo compare lo s = trimO compare (some lo) none s := by
  induction s with
  | E => rfl
  | T v n l r ihl ihr =>
    unfold trim_lo trimO
    simp only [ihr, aboveLo, belowHi]
    split
    · next h => simp [h]
    · next h => simp [show compare v lo ≠ .gt from h]

theorem trim_hi_eq (hi : α) (s : Tree α) :
    trim_hi compare hi s = trimO compare none (some hi) s := by
  induction s with
  | E => rfl
  | T v n l r ihl ihr =>
    unfold trim_hi trimO
    simp only [ihl, aboveLo, belowHi]
    split
    · next h => simp [h]
    · next h => simp [show compare v hi ≠ .lt from h]

theorem uni_bd_eq (s1 : Tree α) : ∀ (s2 : Tree α) (lo hi : α),
    uni_bd compare s1 s2 lo hi = uniO compare s1 s2 (some lo) (some hi) := by
  induction s1 with
  | E =>
    intro s2 lo hi
    cases s2 <;> rfl
  | T v n l r ihl ihr =>
    intro s2 lo hi
    cases s2 with
    | E => rfl
    | T v2 n2 l2 r2 =>
      unfold uni_bd uniO
      simp [ihl, ihr, trim_eq]

theorem uni_hi_eq (s1 : Tree α) : ∀ (s2 : Tree α) (hi : α),
    uni_hi compare s1 s2 hi = uniO compare s1 s2 none (some hi) := by
  induction s1 with
  | E =>
    intro s2 hi
    cases s2 with
    | E => rfl
    | T v2 n2 l2 r2 =>
      rfl
  | T v n l r ihl ihr =>
    intro s2 hi
    cases s2 with
    | E => rfl
    | T v2 n2 l2 r2 =>
      unfold uni_hi uniO
      simp [ihl, uni_bd_eq, trim_eq, trim_hi_eq]

theorem uni_lo_eq (s1 : Tree α) : ∀ (s2 : Tree α) (lo : α),
    uni_lo compare s1 s2 lo = uniO compare s1 s2 (some lo) none := by
  induction s1 with
  | E =>
    intro s2 lo
    cases s2 with
    | E => rfl
    | T v2 n2 l2 r2 =>
      rfl
  | T v n l r ihl ihr =>
    intro s2 lo
    cases s2 with
    | E => rfl
    | T v2 n2 l2 r2 =>
      unfold uni_lo uniO
      simp [ihr, uni_bd_eq, trim_eq, trim_lo_eq]

theorem uni_eq (s1 s2 : Tree α) : uni compare s1 s2 = uniO compare s1 s2 none none := by
  cases s1 with
  | E => cases s2 <;> rfl
  | T v n l r =>
    cases s2 with
    | E => rfl
    | T v2 n2 l2 r2 =>
      unfold uni uniO
      simp [uni_hi_eq, uni_lo_eq, trim_lo_eq, trim_hi_eq]

/-! ### The hedge union -/

variable {compare} [TransCmp compare] {S S' R L : Set α} {s t l r : Tree α}

theorem mem_between {lo hi : Option α} {y : α} : y ∈ between compare lo hi ↔
    aboveLo compare lo y = true ∧ belowHi compare hi y = true := by
  have hlo : (∀ a ∈ lo, compare a y = .lt) ↔ aboveLo compare lo y = true := by
    cases lo with
    | none => simp [aboveLo]
    | some a => simp [aboveLo, OrientedCmp.gt_iff_lt]
  have hhi : (∀ b ∈ hi, compare y b = .lt) ↔ belowHi compare hi y = true := by
    cases hi with
    | none => simp [belowHi]
    | some b => simp [belowHi]
  exact and_congr hlo hhi

theorem between_closed {lo hi : Option α} {x y : α} (h : compare x y = .eq)
    (hy : y ∈ between compare lo hi) : x ∈ between compare lo hi :=
  ⟨fun a ha => TransCmp.lt_of_lt_of_eq (hy.1 a ha) (OrientedCmp.eq_symm h),
    fun b hb => TransCmp.lt_of_eq_of_lt h (hy.2 b hb)⟩

omit [TransCmp compare] in
theorem between_none : between compare none none = Set.univ := by
  simp [between]

def RootIn (I : Set α) : Tree α → Prop
  | E => True
  | T v _ _ _ => v ∈ I

/-- Trimming keeps what is between the bounds. -/
theorem trimO_spec (lo hi : Option α) : ∀ {s : Tree α} {S : Set α}, Rep compare s S →
    ∃ S', Rep compare (trimO compare lo hi s) S' ∧
      S' ∩ between compare lo hi = S ∩ between compare lo hi ∧
      RootIn (between compare lo hi) (trimO compare lo hi s) ∧
      (Balanced s → Balanced (trimO compare lo hi s)) := by
  intro s
  induction s with
  | E => exact fun {S} h => ⟨S, h, rfl, trivial, fun hb => hb⟩
  | T v n l r ihl ihr =>
    intro S h
    obtain ⟨hl, hr, hS⟩ := h.parts
    unfold trimO
    by_cases hlo : aboveLo compare lo v = true
    · rw [if_pos hlo]
      by_cases hhi : belowHi compare hi v = true
      · rw [if_pos hhi]
        exact ⟨S, h, rfl, mem_between.mpr ⟨hlo, hhi⟩, fun hb => hb⟩
      · rw [if_neg hhi]
        obtain ⟨S', hS', hinter, hroot, hbal⟩ := ihl hl
        refine ⟨S', hS', ?_, hroot, fun hb => hbal hb.2.1⟩
        rw [hinter]
        ext y
        refine ⟨fun hy => ⟨hy.1.1, hy.2⟩, fun hy => ⟨⟨hy.1, ?_⟩, hy.2⟩⟩
        -- What is not below the root is not below the bound.
        rcases cases_cmp compare y v with hlt | heq | hgt
        · exact hlt
        · have := between_closed (OrientedCmp.eq_symm heq) hy.2
          exact absurd (mem_between.mp this).2 hhi
        · cases hi with
          | none => exact absurd rfl hhi
          | some b =>
            have := TransCmp.lt_trans hgt (hy.2.2 b rfl)
            exact absurd (by simp [belowHi, this]) hhi
    · rw [if_neg hlo]
      obtain ⟨S', hS', hinter, hroot, hbal⟩ := ihr hr
      refine ⟨S', hS', ?_, hroot, fun hb => hbal hb.2.2⟩
      rw [hinter]
      ext y
      refine ⟨fun hy => ⟨hy.1.1, hy.2⟩, fun hy => ⟨⟨hy.1, ?_⟩, hy.2⟩⟩
      rcases cases_cmp compare y v with hlt | heq | hgt
      · cases lo with
        | none => exact absurd rfl hlo
        | some a =>
          have := TransCmp.lt_trans (hy.2.1 a rfl) hlt
          exact absurd (by simp [aboveLo, OrientedCmp.gt_of_lt this]) hlo
      · have := between_closed (OrientedCmp.eq_symm heq) hy.2
        exact absurd (mem_between.mp this).1 hlo
      · exact hgt

theorem split_gtO_spec (h : Rep compare s S) (lo : Option α) :
    Gives (split_gtO compare s lo) (Rep compare · (S ∩ between compare lo none)) fun t =>
      Balanced s → Balanced t := by
  cases lo with
  | none =>
    refine gives_pure (h.eq ?_) (fun hb => hb)
    rw [between_none, Set.inter_univ]
  | some a =>
    refine (split_gt_spec a h).mono (fun t ht => ht.eq ?_) (fun _ _ hb => hb)
    ext y
    simp [between]

theorem split_ltO_spec (h : Rep compare s S) (hi : Option α) :
    Gives (split_ltO compare s hi) (Rep compare · (S ∩ between compare none hi)) fun t =>
      Balanced s → Balanced t := by
  cases hi with
  | none =>
    refine gives_pure (h.eq ?_) (fun hb => hb)
    rw [between_none, Set.inter_univ]
  | some b =>
    refine (split_lt_spec b h).mono (fun t ht => ht.eq ?_) (fun _ _ hb => hb)
    ext y
    simp [between]

theorem uniO_spec : ∀ {s1 : Tree α} {S1 : Set α} {lo hi : Option α} {s2 : Tree α} {S2 : Set α},
    Rep compare s1 S1 → S1 ⊆ between compare lo hi → Rep compare s2 S2 →
    RootIn (between compare lo hi) s2 →
    Gives (uniO compare s1 s2 lo hi) (Rep compare · (S1 ∪ S2 ∩ between compare lo hi)) fun t =>
      Balanced s1 → Balanced s2 → Balanced t := by
  intro s1
  induction s1 with
  | E =>
    intro S1 lo hi s2 S2 h1 hin h2 hroot
    have hS1 : S1 = ∅ := h1.eq_empty
    subst hS1
    rw [Set.empty_union]
    cases s2 with
    | E =>
      have hS2 : S2 = ∅ := h2.eq_empty
      refine gives_pure (h2.eq ?_) (fun _ hb => hb)
      rw [hS2, Set.empty_inter]
    | T v n l r =>
      have hjoin : Gives (do
            let l ← split_gtO compare l lo
            let r ← split_ltO compare r hi
            concat3 compare l v r : M α (Tree α))
          (Rep compare · (S2 ∩ between compare lo hi)) fun t =>
            Balanced (E : Tree α) → Balanced (T v n l r) → Balanced t := by
        obtain ⟨hl, hr, hS⟩ := h2.parts
        refine gives_bind (split_gtO_spec hl lo) fun l' hl' => ?_
        refine gives_bind (split_ltO_spec hr hi) fun r' hr' => ?_
        refine (concat3_spec l' v r' hl' hr' (fun y hy => hy.1.2) (fun y hy => hy.1.2)).mono
          (fun t ht => ht.eq ?_) ?_
        · ext y
          conv_rhs => rw [hS]
          constructor
          · rintro ((⟨⟨hy, hyv⟩, hb⟩ | hy) | ⟨⟨hy, hvy⟩, hb⟩)
            · refine ⟨.inl (.inl ⟨hy, hyv⟩), hb.1, fun b hb' => ?_⟩
              exact TransCmp.lt_trans hyv (hroot.2 b hb')
            · exact ⟨.inl (.inr hy), between_closed hy hroot⟩
            · refine ⟨.inr ⟨hy, hvy⟩, fun a ha => ?_, hb.2⟩
              exact TransCmp.lt_trans (hroot.1 a ha) hvy
          · rintro ⟨(hy | hy) | hy, hb⟩
            · exact .inl (.inl ⟨hy, hb.1, by simp⟩)
            · exact .inl (.inr hy)
            · exact .inr ⟨hy, by simp, hb.2⟩
        · intro t _ hbal hr'b hl'b _ hb
          exact hbal (hl'b hb.2.1) (hr'b hb.2.2)
      cases lo with
      | none =>
        cases hi with
        | none =>
          refine gives_pure (h2.eq ?_) (fun _ hb => hb)
          rw [between_none, Set.inter_univ]
        | some b => exact hjoin
      | some a => exact hjoin
  | T v n l1 r1 ihl ihr =>
    intro S1 lo hi s2 S2 h1 hin h2 hroot
    cases s2 with
    | E =>
      have hS2 : S2 = ∅ := h2.eq_empty
      refine gives_pure (h1.eq ?_) (fun hb _ => hb)
      rw [hS2, Set.empty_inter, Set.union_empty]
    | T v2 n2 l2 r2 =>
      obtain ⟨hl, hr, hS⟩ := h1.parts
      have hv := hin h1.root_mem
      -- The two bounds that meet at the root.
      have hleft : between compare lo (some v) = between compare lo hi ∩ below compare v := by
        ext y
        constructor
        · intro hy
          have hyv : compare y v = .lt := hy.2 v rfl
          exact ⟨⟨hy.1, fun b hb => TransCmp.lt_trans hyv (hv.2 b hb)⟩, hyv⟩
        · rintro ⟨hy, hyv⟩
          exact ⟨hy.1, by simpa using hyv⟩
      have hright : between compare (some v) hi = between compare lo hi ∩ above compare v := by
        ext y
        constructor
        · intro hy
          have hvy : compare v y = .lt := hy.1 v rfl
          exact ⟨⟨fun a ha => TransCmp.lt_trans (hv.1 a ha) hvy, hy.2⟩, hvy⟩
        · rintro ⟨hy, hvy⟩
          exact ⟨by simpa using hvy, hy.2⟩
      obtain ⟨L', hL', hLeq, hLroot, hLbal⟩ := trimO_spec lo (some v) h2
      obtain ⟨R', hR', hReq, hRroot, hRbal⟩ := trimO_spec (some v) hi h2
      have goL := ihl hl (hleft ▸ fun y hy => ⟨hin hy.1, hy.2⟩) hL' hLroot
      have goR := ihr hr (hright ▸ fun y hy => ⟨hin hy.1, hy.2⟩) hR' hRroot
      rw [hLeq, hleft] at goL
      rw [hReq, hright] at goR
      refine gives_bind goL fun l' hl' => ?_
      refine gives_bind goR fun r' hr' => ?_
      refine (concat3_spec l' v r' hl' hr' ?_ ?_).mono (fun t ht => ht.eq ?_) ?_
      · rintro y (hy | hy)
        · exact hy.2
        · exact hy.2.2
      · rintro y (hy | hy)
        · exact hy.2
        · exact hy.2.2
      · ext y
        conv_rhs => rw [hS]
        constructor
        · rintro (((hy | hy) | hy) | (hy | hy))
          · exact .inl (.inl (.inl hy))
          · exact .inr ⟨hy.1, hy.2.1⟩
          · exact .inl (.inl (.inr hy))
          · exact .inl (.inr hy)
          · exact .inr ⟨hy.1, hy.2.1⟩
        · rintro (((hy | hy) | hy) | ⟨hy, hb⟩)
          · exact .inl (.inl (.inl hy))
          · exact .inl (.inr hy)
          · exact .inr (.inl hy)
          · rcases cases_cmp compare y v with hlt | heq | hgt
            · exact .inl (.inl (.inr ⟨hy, hb, hlt⟩))
            · exact .inl (.inr heq)
            · exact .inr (.inr ⟨hy, hb, hgt⟩)
      · intro t _ hbal hrb hlb hb1 hb2
        exact hbal (hlb hb1.2.1 (hLbal hb2)) (hrb hb1.2.2 (hRbal hb2))

theorem union_spec (hs : Rep compare s S) (ht : Rep compare t S') :
    Gives (union compare s t) (Rep compare · (S ∪ S')) fun u =>
      Balanced s → Balanced t → Balanced u := by
  unfold union
  rw [uni_eq]
  refine (uniO_spec hs ?_ ht ?_).mono (fun u hu => hu.eq ?_) (fun _ _ h => h)
  · rw [between_none]
    exact Set.subset_univ S
  · rw [between_none]
    cases t <;> trivial
  · rw [between_none, Set.inter_univ]

/-! ### Tests -/

theorem member_spec (x : α) : ∀ {s : Tree α} {S : Set α}, Rep compare s S →
    (member compare s x = true ↔ x ∈ S) := by
  intro s
  induction s with
  | E =>
    intro S h
    rw [h.eq_empty]
    simp [member]
  | T v n l r ihl ihr =>
    intro S h
    obtain ⟨hl, hr, hS⟩ := h.parts
    unfold member
    cases hxv : compare x v with
    | lt =>
      rw [ihl hl]
      exact and_iff_left hxv
    | eq => exact iff_of_true rfl (h.closed hxv h.root_mem)
    | gt =>
      rw [ihr hr]
      exact and_iff_left (lt_of_gt hxv)

omit [TransCmp compare] in
theorem treeIn_eq (t' t : Tree α) :
    treeIn compare t' t = true ↔ ∀ x ∈ elems t, member compare t' x = true := by
  fun_induction treeIn compare t' t with
  | case1 => simp
  | case2 => simp
  | case3 v n l _ ih =>
    simp [or_imp, forall_and]
    tauto
  | case4 v n r _ ih => simp [ih]
  | case5 v n l r _ _ _ ihl ihr =>
    simp [or_imp, forall_and]
    tauto

theorem treeIn_spec (hs : Rep compare s S) (ht : Rep compare t S') :
    treeIn compare t s = true ↔ S ⊆ S' := by
  rw [treeIn_eq, ← hs.toSet_eq]
  constructor
  · intro h
    exact toSet_subset (fun x y hxy hy => ht.closed hxy hy)
      fun x hx => (member_spec x ht).mp (h x hx)
  · intro h x hx
    exact (member_spec x ht).mpr (h (mem_toSet_self hx))

theorem size_le_of_subset (hs : Rep compare s S) (ht : Rep compare t S') (h : S ⊆ S') :
    size s ≤ size t := by
  rw [← length_elems, ← length_elems]
  apply length_le_of_subset hs.ascending
  rw [hs.toSet_eq, ht.toSet_eq]
  exact h

theorem isSubset_spec (hs : Rep compare s S) (ht : Rep compare t S') :
    isSubset compare s t = true ↔ S ⊆ S' := by
  have hle := size_le_of_subset hs ht
  cases s with
  | E =>
    have hS : S = ∅ := hs.eq_empty
    rw [hS]
    exact iff_of_true rfl (Set.empty_subset _)
  | T v n l r =>
    cases t with
    | E =>
      refine iff_of_false Bool.false_ne_true fun h => ?_
      have := hle h
      simp at this
    | T v' n' l' r' =>
      unfold isSubset
      rw [Bool.and_eq_true, decide_eq_true_eq, treeIn_spec hs ht]
      refine and_iff_right_of_imp fun h => ?_
      have hn : n = size (T v n l r) := hs.counted.1
      have hn' : n' = size (T v' n' l' r') := ht.counted.1
      rw [hn, hn']
      exact hle h

theorem equal_spec (hs : Rep compare s S) (ht : Rep compare t S') :
    equal compare s t = true ↔ S = S' := by
  have hle := size_le_of_subset hs ht
  have hge := size_le_of_subset ht hs
  cases s with
  | E =>
    cases t with
    | E =>
      refine iff_of_true rfl ?_
      rw [← hs.toSet_eq, ← ht.toSet_eq]
    | T v' n' l' r' =>
      refine iff_of_false Bool.false_ne_true fun h => ?_
      have := hge h.ge
      simp at this
  | T v n l r =>
    cases t with
    | E =>
      refine iff_of_false Bool.false_ne_true fun h => ?_
      have := hle h.le
      simp at this
    | T v' n' l' r' =>
      have hn : n = size (T v n l r) := hs.counted.1
      have hn' : n' = size (T v' n' l' r') := ht.counted.1
      unfold equal
      rw [Bool.and_eq_true, beq_iff_eq, treeIn_spec hs ht]
      constructor
      · rintro ⟨hnn, hsub⟩
        refine Set.Subset.antisymm hsub ?_
        rw [← hs.toSet_eq, ← ht.toSet_eq] at hsub ⊢
        refine subset_of_length_le hs.ascending hsub ?_
        rw [length_elems, length_elems, ← hn, ← hn', hnn]
      · intro h
        exact ⟨by rw [hn, hn']; exact le_antisymm (hle h.le) (hge h.ge), h.le⟩

/-! ### Deletion, intersection, difference -/

theorem delete_spec {x : α} : ∀ {s : Tree α} {S : Set α}, Rep compare s S → x ∈ S →
    Gives (delete compare s x) (Rep compare · (S \ same compare x)) fun t =>
      Balanced s → Balanced t := by
  intro s
  induction s with
  | E =>
    intro S h hx
    rw [h.eq_empty] at hx
    exact absurd hx (Set.notMem_empty x)
  | T v n l r ihl ihr =>
    intro S h hx
    obtain ⟨hl, hr, hS⟩ := h.parts
    unfold delete
    cases hxv : compare x v with
    | lt =>
      refine gives_bind (ihl hl ⟨hx, hxv⟩) fun t ht => ?_
      refine (call_spec ht hr (fun y hy => hy.1.2) Set.inter_subset_right ?_).mono
        (fun _ h => h) ?_
      · ext y
        conv_rhs => rw [hS]
        constructor
        · rintro ((⟨hy, hyx⟩ | hy) | hy)
          · exact ⟨.inl (.inl hy), hyx⟩
          · refine ⟨.inl (.inr hy), fun hyx => ?_⟩
            have := TransCmp.lt_of_eq_of_lt hyx hxv
            rw [(mem_same compare).mp hy] at this
            cases this
          · refine ⟨.inr hy, fun hyx => ?_⟩
            have := TransCmp.lt_trans (TransCmp.lt_of_eq_of_lt hyx hxv) hy.2
            exact lt_irrefl y this
        · rintro ⟨(hy | hy) | hy, hyx⟩
          · exact .inl (.inl ⟨hy, hyx⟩)
          · exact .inl (.inr hy)
          · exact .inr hy
      · intro t' _ hbal hlt hb
        exact hbal (hlt hb.2.1) hb.2.2
    | gt =>
      have hvx := lt_of_gt hxv
      refine gives_bind (ihr hr ⟨hx, hvx⟩) fun t ht => ?_
      refine (call_spec hl ht Set.inter_subset_right (fun y hy => hy.1.2) ?_).mono
        (fun _ h => h) ?_
      · ext y
        conv_rhs => rw [hS]
        constructor
        · rintro ((hy | hy) | ⟨hy, hyx⟩)
          · refine ⟨.inl (.inl hy), fun hyx => ?_⟩
            have := TransCmp.lt_of_lt_of_eq hvx (OrientedCmp.eq_symm hyx)
            exact lt_irrefl y (TransCmp.lt_trans hy.2 this)
          · refine ⟨.inl (.inr hy), fun hyx => ?_⟩
            have := TransCmp.lt_of_lt_of_eq hvx (OrientedCmp.eq_symm hyx)
            rw [OrientedCmp.eq_symm ((mem_same compare).mp hy)] at this
            cases this
          · exact ⟨.inr hy, hyx⟩
        · rintro ⟨(hy | hy) | hy, hyx⟩
          · exact .inl (.inl hy)
          · exact .inl (.inr hy)
          · exact .inr ⟨hy, hyx⟩
      · intro t' _ hbal hrt hb
        exact hbal hb.2.1 (hrt hb.2.2)
    | eq =>
      refine (delete'_spec hl hr ?_).mono (fun t ht => ht.eq ?_)
        (fun t _ hbal hb => hbal hb.2.1 hb.2.2)
      · exact fun y hy z hz => TransCmp.lt_trans hy.2 hz.2
      · ext y
        conv_rhs => rw [hS]
        simp only [Set.mem_union, Set.mem_inter_iff, mem_below, mem_above]
        constructor
        · rintro (⟨hy, hyv⟩ | ⟨hy, hvy⟩)
          · refine ⟨.inl (.inl ⟨hy, hyv⟩), fun hyx => ?_⟩
            rw [TransCmp.eq_trans hyx hxv] at hyv
            cases hyv
          · refine ⟨.inr ⟨hy, hvy⟩, fun hyx => ?_⟩
            rw [OrientedCmp.eq_symm (TransCmp.eq_trans hyx hxv)] at hvy
            cases hvy
        · rintro ⟨(hy | hy) | hy, hyx⟩
          · exact .inl hy
          · exact absurd (TransCmp.eq_trans hy (OrientedCmp.eq_symm hxv)) hyx
          · exact .inr hy

theorem delete_notFound {x : α} : ∀ {s : Tree α} {S : Set α}, Rep compare s S → x ∉ S →
    ∀ log, (delete compare s x).run log = .error .notFound := by
  intro s
  induction s with
  | E => exact fun _ _ _ => rfl
  | T v n l r ihl ihr =>
    intro S h hx log
    obtain ⟨hl, hr, hS⟩ := h.parts
    unfold delete
    cases hxv : compare x v with
    | lt =>
      rw [StateT.run_bind, ihl hl (fun h => hx h.1)]
      rfl
    | gt =>
      rw [StateT.run_bind, ihr hr (fun h => hx h.1)]
      rfl
    | eq => exact absurd (h.closed hxv h.root_mem) hx

theorem intersection_spec : ∀ {t s : Tree α} {S S' : Set α}, Rep compare s S →
    Rep compare t S' → Gives (intersection compare s t) (Rep compare · (S ∩ S')) fun u =>
      Balanced s → Balanced t → Balanced u := by
  intro t
  induction t with
  | E =>
    intro s S S' hs ht
    have hS' : S' = ∅ := ht.eq_empty
    have hres : intersection compare s E = pure E := by cases s <;> rfl
    rw [hres, hS', Set.inter_empty]
    exact gives_pure (rep_E compare) (fun _ _ => trivial)
  | T v n l r ihl ihr =>
    intro s S S' hs ht
    cases s with
    | E =>
      have hS : S = ∅ := hs.eq_empty
      rw [hS, Set.empty_inter]
      exact gives_pure (rep_E compare) (fun _ _ => trivial)
    | T w m a b =>
      obtain ⟨hl, hr, hS'⟩ := ht.parts
      unfold intersection
      refine gives_bind (split_lt_spec v hs) fun l2 hl2 => ?_
      refine gives_bind (split_gt_spec v hs) fun r2 hr2 => ?_
      have hmem := member_spec v hs
      split
      · next hv =>
        refine gives_bind (ihl hl2 hl) fun l' hl' => ?_
        refine gives_bind (ihr hr2 hr) fun r' hr' => ?_
        refine (concat3_spec l' v r' hl' hr' (fun y hy => hy.1.2) (fun y hy => hy.1.2)).mono
          (fun u hu => hu.eq ?_) ?_
        · ext y
          conv_rhs => rw [hS']
          have hvS := hmem.mp hv
          have hcls : y ∈ same compare v → y ∈ S := fun hy => hs.closed hy hvS
          simp only [Set.mem_union, Set.mem_inter_iff]
          tauto
        · intro u _ hbal hrb hlb hr2b hl2b hbs hbt
          exact hbal (hlb (hl2b hbs) hbt.2.1) (hrb (hr2b hbs) hbt.2.2)
      · next hv =>
        refine gives_bind (ihl hl2 hl) fun l' hl' => ?_
        refine gives_bind (ihr hr2 hr) fun r' hr' => ?_
        refine (concat_spec l' r' hl' hr' ?_).mono (fun u hu => hu.eq ?_) ?_
        · exact fun y hy z hz => TransCmp.lt_trans hy.1.2 hz.1.2
        · ext y
          conv_rhs => rw [hS']
          have hvS : v ∉ S := fun h => hv (hmem.mpr h)
          have hcls : y ∈ same compare v → y ∉ S :=
            fun hy h => hvS (hs.closed (OrientedCmp.eq_symm hy) h)
          simp only [Set.mem_union, Set.mem_inter_iff]
          tauto
        · intro u _ hbal hrb hlb hr2b hl2b hbs hbt
          exact hbal (hlb (hl2b hbs) hbt.2.1) (hrb (hr2b hbs) hbt.2.2)

theorem difference_spec : ∀ {t s : Tree α} {S S' : Set α}, Rep compare s S →
    Rep compare t S' → Gives (difference compare s t) (Rep compare · (S \ S')) fun u =>
      Balanced s → Balanced u := by
  intro t
  induction t with
  | E =>
    intro s S S' hs ht
    have hS' : S' = ∅ := ht.eq_empty
    have hres : difference compare s E = pure s := by cases s <;> rfl
    rw [hres, hS', Set.sdiff_empty]
    exact gives_pure hs (fun hb => hb)
  | T v n l r ihl ihr =>
    intro s S S' hs ht
    cases s with
    | E =>
      have hS : S = ∅ := hs.eq_empty
      rw [hS, Set.empty_sdiff]
      exact gives_pure (rep_E compare) (fun _ => trivial)
    | T w m a b =>
      obtain ⟨hl, hr, hS'⟩ := ht.parts
      refine gives_bind (split_lt_spec v hs) fun l2 hl2 => ?_
      refine gives_bind (split_gt_spec v hs) fun r2 hr2 => ?_
      refine gives_bind (ihl hl2 hl) fun l' hl' => ?_
      refine gives_bind (ihr hr2 hr) fun r' hr' => ?_
      refine (concat_spec l' r' hl' hr' ?_).mono (fun u hu => hu.eq ?_) ?_
      · exact fun y hy z hz => TransCmp.lt_trans hy.1.2 hz.1.2
      · ext y
        have hcases := cases_cmp compare y v
        have hroot : y ∈ same compare v → y ∈ S' := fun hy => ht.closed hy ht.root_mem
        simp only [Set.mem_union, Set.mem_sdiff, Set.mem_inter_iff] at *
        tauto
      · intro u _ hbal hrb hlb hr2b hl2b hbs
        exact hbal (hlb (hl2b hbs)) (hrb (hr2b hbs))

omit [TransCmp compare] in
theorem foldl_eq {β : Type} (f : α → β → M α β) (s : Tree α) : ∀ b : β,
    foldl f b s = (elems s).foldlM (fun b x => f x b) b := by
  induction s with
  | E => exact fun _ => rfl
  | T v n l r ihl ihr =>
    intro b
    unfold foldl
    rw [ihl]
    simp [ihr]

variable (compare) in
/-- Filtering. -/
theorem filter_spec (pred : α → Bool) (s : Tree α) :
    Gives (filter compare pred s) (Rep compare · (toSet compare ((elems s).filter pred)))
      fun t => Balanced t := by
  have run : ∀ (l : List α) (acc : Tree α) (A : Set α), Rep compare acc A →
      Gives (l.foldlM (fun s item => if pred item then add compare s item else return s) acc :
          M α (Tree α))
        (Rep compare · (A ∪ toSet compare (l.filter pred))) fun t =>
          Balanced acc → Balanced t := by
    intro l
    induction l with
    | nil =>
      intro acc A h
      refine gives_pure (h.eq ?_) (fun hb => hb)
      rw [List.filter_nil, toSet_nil, Set.union_empty]
    | cons x l ih =>
      intro acc A h
      rw [List.foldlM_cons]
      by_cases hx : pred x = true
      · simp only [hx]
        refine gives_bind (add_spec x h) fun t ht => ?_
        refine (ih t _ ht).mono (fun u hu => hu.eq ?_) (fun u _ hu hadd hb => hu (hadd hb))
        rw [List.filter_cons_of_pos hx, ← List.nil_append (x :: l.filter pred),
          toSet_append_cons, toSet_nil, Set.empty_union, Set.union_assoc]
      · simp only [hx]
        rw [List.filter_cons_of_neg hx]
        exact ih acc A h
  unfold filter
  rw [foldl_eq]
  refine (run (elems s) empty ∅ (rep_E compare)).mono (fun t ht => ht.eq ?_)
    (fun _ _ hb => hb trivial)
  rw [Set.empty_union]

/-! ### The sets that are built -/

variable (compare)

def setOf (t : Tree α) : Set α := toSet compare (elems t)

/-- The trees that the operations build. -/
inductive Built : Tree α → Prop
  | empty : Built empty
  | singleton (x : α) : Built (singleton x)
  | add {s t : Tree α} (x : α) : Built s → result (add compare s x) = .ok t → Built t
  | delete {s t : Tree α} (x : α) : Built s → result (delete compare s x) = .ok t → Built t
  | union {s s' t : Tree α} : Built s → Built s' → result (union compare s s') = .ok t → Built t
  | intersection {s s' t : Tree α} : Built s → Built s' →
      result (intersection compare s s') = .ok t → Built t
  | difference {s s' t : Tree α} : Built s → Built s' →
      result (difference compare s s') = .ok t → Built t
  | filter {s t : Tree α} (pred : α → Bool) : Built s →
      result (filter compare pred s) = .ok t → Built t

variable {compare}

omit [TransCmp compare] in
theorem Gives.result_eq {β : Type} {m : M α β} {P Q : β → Prop} (h : Gives m P Q) :
    ∃ b, result m = .ok b ∧ P b := by
  obtain ⟨b, new, hrun, hP, _⟩ := h []
  refine ⟨b, ?_, hP⟩
  unfold result
  rw [StateT.run'_eq, hrun]
  rfl

omit [TransCmp compare] in
theorem Gives.of_result {β : Type} {m : M α β} {P Q : β → Prop} (h : Gives m P Q) {b : β}
    (hb : result m = .ok b) : P b := by
  obtain ⟨b', hb', hP⟩ := h.result_eq
  rw [hb] at hb'
  cases hb'
  exact hP

theorem result_delete_notFound {x : α} (h : Rep compare s S) (hx : x ∉ S) :
    result (delete compare s x) = .error .notFound := by
  unfold result
  rw [StateT.run'_eq, delete_notFound h hx]
  rfl

/-- Every tree that is built has the right counts and is in search order. -/
theorem Built.rep (h : Built compare s) : Rep compare s (setOf compare s) := by
  have wf : ∃ S, Rep compare s S := by
    induction h with
    | empty => exact ⟨∅, rep_E compare⟩
    | singleton x =>
      exact ⟨_, rep_node (rep_E compare) (rep_E compare)
        (Set.empty_subset (CompareSets.below compare x))
        (Set.empty_subset _) ⟨rfl, trivial, trivial⟩ rfl⟩
    | add x _ hres ih =>
      obtain ⟨S, hS⟩ := ih
      exact ⟨_, (add_spec x hS).of_result hres⟩
    | @delete s t x _ hres ih =>
      obtain ⟨S, hS⟩ := ih
      by_cases hx : x ∈ S
      · exact ⟨_, (delete_spec hS hx).of_result hres⟩
      · rw [result_delete_notFound hS hx] at hres
        cases hres
    | union _ _ hres ih ih' =>
      obtain ⟨S, hS⟩ := ih
      obtain ⟨S', hS'⟩ := ih'
      exact ⟨_, (union_spec hS hS').of_result hres⟩
    | intersection _ _ hres ih ih' =>
      obtain ⟨S, hS⟩ := ih
      obtain ⟨S', hS'⟩ := ih'
      exact ⟨_, (intersection_spec hS hS').of_result hres⟩
    | difference _ _ hres ih ih' =>
      obtain ⟨S, hS⟩ := ih
      obtain ⟨S', hS'⟩ := ih'
      exact ⟨_, (difference_spec hS hS').of_result hres⟩
    | @filter s t pred _ hres ih => exact ⟨_, (filter_spec compare pred s).of_result hres⟩
  obtain ⟨S, hS⟩ := wf
  exact ⟨hS.counted, hS.ascending, rfl⟩

/-- **The set operations.**  On all sets that the operations build, they compute the
operations on sets, and the tests decide their questions; every tree is in search
order and has the right counts. -/
theorem set_operations_correct (hs : Built compare s) (ht : Built compare t) :
    (Counted s ∧ Ascending compare (elems s)) ∧
    (∀ x, ∃ u, result (add compare s x) = .ok u ∧ Built compare u ∧
      setOf compare u = setOf compare s ∪ same compare x) ∧
    (∀ x, (x ∈ setOf compare s → ∃ u, result (delete compare s x) = .ok u ∧ Built compare u ∧
        setOf compare u = setOf compare s \ same compare x) ∧
      (x ∉ setOf compare s → result (delete compare s x) = .error .notFound)) ∧
    (∃ u, result (union compare s t) = .ok u ∧ Built compare u ∧
      setOf compare u = setOf compare s ∪ setOf compare t) ∧
    (∃ u, result (intersection compare s t) = .ok u ∧ Built compare u ∧
      setOf compare u = setOf compare s ∩ setOf compare t) ∧
    (∃ u, result (difference compare s t) = .ok u ∧ Built compare u ∧
      setOf compare u = setOf compare s \ setOf compare t) ∧
    (∀ pred, ∃ u, result (filter compare pred s) = .ok u ∧ Built compare u ∧
      setOf compare u = toSet compare ((elems s).filter pred)) ∧
    (∀ x, member compare s x = true ↔ x ∈ setOf compare s) ∧
    (isSubset compare s t = true ↔ setOf compare s ⊆ setOf compare t) ∧
    (equal compare s t = true ↔ setOf compare s = setOf compare t) := by
  have hsr := hs.rep
  have htr := ht.rep
  refine ⟨⟨hsr.counted, hsr.ascending⟩, ?_, ?_, ?_, ?_, ?_, ?_, fun x => member_spec x hsr,
    isSubset_spec hsr htr, equal_spec hsr htr⟩
  · intro x
    obtain ⟨u, hu, hrep⟩ := (add_spec x hsr).result_eq
    exact ⟨u, hu, .add x hs hu, hrep.toSet_eq⟩
  · intro x
    refine ⟨fun hx => ?_, fun hx => result_delete_notFound hsr hx⟩
    obtain ⟨u, hu, hrep⟩ := (delete_spec hsr hx).result_eq
    exact ⟨u, hu, .delete x hs hu, hrep.toSet_eq⟩
  · obtain ⟨u, hu, hrep⟩ := (union_spec hsr htr).result_eq
    exact ⟨u, hu, .union hs ht hu, hrep.toSet_eq⟩
  · obtain ⟨u, hu, hrep⟩ := (intersection_spec hsr htr).result_eq
    exact ⟨u, hu, .intersection hs ht hu, hrep.toSet_eq⟩
  · obtain ⟨u, hu, hrep⟩ := (difference_spec hsr htr).result_eq
    exact ⟨u, hu, .difference hs ht hu, hrep.toSet_eq⟩
  · intro pred
    obtain ⟨u, hu, hrep⟩ := (filter_spec compare pred s).result_eq
    exact ⟨u, hu, .filter pred hs hu, hrep.toSet_eq⟩

/-- The union of two sets of numbers. -/
theorem set_operations_correct_two :
    ∃ u : Tree ℕ, result (union Ord.compare (singleton 1) (singleton 2)) = .ok u ∧
      Built Ord.compare u ∧
      setOf Ord.compare u = setOf Ord.compare (singleton 1) ∪ setOf Ord.compare (singleton 2) :=
  (@set_operations_correct ℕ Ord.compare inferInstance (singleton 1) (singleton 2)
    (Built.singleton 1) (Built.singleton 2)).2.2.2.1

end SmlNj.BinarySet
