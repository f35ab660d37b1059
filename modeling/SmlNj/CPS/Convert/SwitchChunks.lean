import SmlNj.CPS.Convert.Switch

/-!
# Grouping cases into chunks

The chunks of a switch have no gaps and stand in increasing order, and together they
select the same action as the cases that they group.

## Main definitions

* `select default cases v` — the action for the number `v`.
* `Chunk.Dense`, `Chunks` — what holds of one chunk and of a list of them.

## Main results

* `merge_spec` — merging keeps the order and the selected action.
* `groupCases_spec` — the chunks of sorted cases.
-/

namespace SmlNj.CPS.Switch

/-- The action of the case with the label `v`, or the default. -/
@[grind =] def select (default : Cexp) : List (ℤ × Cexp) → ℤ → Cexp
  | [], _ => default
  | (i, act) :: r, v => if i = v then act else select default r v

abbrev labels (cases : List (ℤ × Cexp)) : List ℤ := cases.map Prod.fst

variable {default : Cexp}

/-! ### Selection -/

variable {cases l1 l2 l : List (ℤ × Cexp)} {v lb ub lo hi : ℤ} {chunks : List Chunk}

theorem select_of_not_mem (h : v ∉ labels cases) : select default cases v = default := by
  induction cases with
  | nil => rfl
  | cons c r ih =>
    rw [labels, List.map_cons, List.mem_cons, not_or] at h
    rw [select, if_neg (Ne.symm h.1), ih h.2]

theorem select_append_left (l2 : List (ℤ × Cexp)) (h : v ∈ labels l1) :
    select default (l1 ++ l2) v = select default l1 v := by
  induction l1 with
  | nil => cases h
  | cons c r ih =>
    rw [List.cons_append, select, select]
    split
    · rfl
    · next hne =>
      apply ih
      rw [labels, List.map_cons, List.mem_cons] at h
      exact h.resolve_left (Ne.symm hne)

theorem select_append_right (l2 : List (ℤ × Cexp)) (h : v ∉ labels l1) :
    select default (l1 ++ l2) v = select default l2 v := by
  induction l1 with
  | nil => rfl
  | cons c r ih =>
    rw [labels, List.map_cons, List.mem_cons, not_or] at h
    rw [List.cons_append, select, if_neg (Ne.symm h.1), ih h.2]

theorem select_append_congr (l : List (ℤ × Cexp)) (h : select default l1 v = select default l2 v) :
    select default (l ++ l1) v = select default (l ++ l2) v := by
  by_cases hv : v ∈ labels l
  · rw [select_append_left _ hv, select_append_left _ hv]
  · rw [select_append_right _ hv, select_append_right _ hv, h]

theorem select_filled {filled : List (ℤ × Cexp)} (h : ∀ c ∈ filled, c.2 = default)
    (hlt : ∀ c ∈ filled, c.1 ∉ labels l) (v : ℤ) :
    select default (filled ++ l) v = select default l v := by
  induction filled with
  | nil => rfl
  | cons c r ih =>
    rw [List.cons_append, select]
    split
    · next heq =>
      have hv : v ∉ labels l := by
        rw [← heq]
        exact hlt c List.mem_cons_self
      rw [select_of_not_mem hv]
      exact h c List.mem_cons_self
    · apply ih
      · intro c' hc'
        exact h c' (List.mem_cons_of_mem _ hc')
      · intro c' hc'
        exact hlt c' (List.mem_cons_of_mem _ hc')

theorem select_eq_of_mem (hnd : (labels cases).Nodup) {act : Cexp} (h : (v, act) ∈ cases) :
    select default cases v = act := by
  induction cases with
  | nil => cases h
  | cons c r ih =>
    rw [labels, List.map_cons, List.nodup_cons] at hnd
    rw [List.mem_cons] at h
    rcases h with rfl | h
    · rw [select, if_pos rfl]
    · have hne : c.1 ≠ v := by
        rintro rfl
        exact hnd.1 (List.mem_map.2 ⟨_, h, rfl⟩)
      rw [select, if_neg hne, ih hnd.2 h]

theorem select_perm (hp : l1.Perm l2) (hnd : (labels l1).Nodup) (v : ℤ) :
    select default l1 v = select default l2 v := by
  have hp' : (labels l1).Perm (labels l2) := hp.map _
  by_cases hv : v ∈ labels l1
  · obtain ⟨⟨i, act⟩, hmem, rfl⟩ := List.mem_map.1 hv
    rw [select_eq_of_mem hnd hmem, select_eq_of_mem (hp'.nodup_iff.1 hnd) (hp.mem_iff.1 hmem)]
  · rw [select_of_not_mem hv, select_of_not_mem (fun h => hv (hp'.mem_iff.2 h))]

/-- The labels go up by one, from `lb`. -/
def Consecutive : ℤ → List (ℤ × Cexp) → Prop
  | _, [] => True
  | lb, (i, _) :: r => i = lb ∧ Consecutive (lb + 1) r

theorem Consecutive.append (h1 : Consecutive lb l1) (hub : ub = lb + l1.length)
    (h2 : Consecutive ub l2) : Consecutive lb (l1 ++ l2) := by
  induction l1 generalizing lb with
  | nil =>
    rw [List.length_nil, Nat.cast_zero, Int.add_zero] at hub
    subst hub
    exact h2
  | cons c r ih =>
    refine ⟨h1.1, ih h1.2 ?_⟩
    rw [hub, List.length_cons]
    omega

theorem Consecutive.mem_labels (h : Consecutive lb l) :
    v ∈ labels l ↔ lb ≤ v ∧ v < lb + l.length := by
  induction l generalizing lb with
  | nil =>
    rw [List.length_nil]
    constructor
    · intro hv
      cases hv
    · rintro ⟨hle, hlt⟩
      omega
  | cons c r ih =>
    rw [labels, List.map_cons, List.mem_cons, ih h.2, h.1, List.length_cons]
    omega

theorem Consecutive.getElem? (h : Consecutive lb l) (hle : lb ≤ v) (hlt : v < lb + l.length) :
    (l.map Prod.snd)[(v - lb).toNat]? = some (select default l v) := by
  induction l generalizing lb with
  | nil =>
    rw [List.length_nil] at hlt
    omega
  | cons c r ih =>
    rw [select, h.1]
    by_cases heq : lb = v
    · subst heq
      rw [if_pos rfl, Int.sub_self]
      rfl
    · have hidx : (v - lb).toNat = (v - (lb + 1)).toNat + 1 := by omega
      rw [if_neg heq, hidx]
      apply ih h.2
      · omega
      · rw [List.length_cons] at hlt
        omega

/-- A chunk has no gaps, and its bounds and its size are right. -/
structure Chunk.Dense (c : Chunk) : Prop where
  consecutive : Consecutive c.lb c.cases
  n_eq : c.n = c.cases.length
  ub_eq : c.ub + 1 = c.lb + c.cases.length
  cases_ne : c.cases ≠ []

/-- Chunks in increasing order. -/
structure Chunks (chunks : List Chunk) : Prop where
  dense : ∀ c ∈ chunks, c.Dense
  ordered : chunks.Pairwise fun c c' => c.ub < c'.lb

def allCases (chunks : List Chunk) : List (ℤ × Cexp) := chunks.flatMap Chunk.cases

@[simp] theorem allCases_nil : allCases [] = [] := rfl

@[simp] theorem allCases_cons (c : Chunk) (cs : List Chunk) :
    allCases (c :: cs) = c.cases ++ allCases cs := rfl

theorem allCases_append (cs cs' : List Chunk) :
    allCases (cs ++ cs') = allCases cs ++ allCases cs' := List.flatMap_append

theorem Chunk.Dense.mem_labels {c : Chunk} (h : c.Dense) :
    v ∈ labels c.cases ↔ c.lb ≤ v ∧ v ≤ c.ub := by
  have hub := h.ub_eq
  rw [h.consecutive.mem_labels]
  omega

theorem Chunk.Dense.lb_le_ub {c : Chunk} (h : c.Dense) : c.lb ≤ c.ub := by
  have hub := h.ub_eq
  have hpos := List.length_pos_of_ne_nil h.cases_ne
  omega

theorem dense_singleton (i : ℤ) (act : Cexp) : Chunk.Dense ⟨i, i, 1, [(i, act)]⟩ :=
  ⟨⟨rfl, trivial⟩, rfl, rfl, List.cons_ne_nil _ _⟩

theorem mem_labels_allCases (h : ∀ c ∈ chunks, c.Dense) :
    v ∈ labels (allCases chunks) ↔ ∃ c ∈ chunks, c.lb ≤ v ∧ v ≤ c.ub := by
  rw [labels, allCases, List.map_flatMap, List.mem_flatMap]
  constructor
  · rintro ⟨c, hc, hv⟩
    exact ⟨c, hc, (h c hc).mem_labels.1 hv⟩
  · rintro ⟨c, hc, hv⟩
    exact ⟨c, hc, (h c hc).mem_labels.2 hv⟩

theorem Chunks.tail {c : Chunk} {cs : List Chunk} (h : Chunks (c :: cs)) : Chunks cs :=
  ⟨fun c' hc' => h.dense c' (List.mem_cons_of_mem _ hc'), (List.pairwise_cons.1 h.ordered).2⟩

theorem Chunks.cons {c : Chunk} {cs : List Chunk} (hc : c.Dense) (h : Chunks cs)
    (hlt : ∀ c' ∈ cs, c.ub < c'.lb) : Chunks (c :: cs) := by
  refine ⟨?_, List.pairwise_cons.2 ⟨hlt, h.ordered⟩⟩
  intro c' hc'
  rcases List.mem_cons.1 hc' with rfl | hc'
  · exact hc
  · exact h.dense c' hc'

/-! ### Merging -/

theorem fill_spec {ub i : ℤ} (hle : ub ≤ i) (n : ℕ) {cases : List (ℤ × Cexp)}
    (hc : Consecutive (i + 1) cases) (hn : n = cases.length) :
    Consecutive (ub + 1) (fill default ub i n cases).2 ∧
      (fill default ub i n cases).1 = (fill default ub i n cases).2.length ∧
      ((fill default ub i n cases).2.length : ℤ) = cases.length + (i - ub) ∧
      ∃ filled, (fill default ub i n cases).2 = filled ++ cases ∧
        ∀ c ∈ filled, c.2 = default ∧ c.1 ≤ i := by
  induction hk : (i - ub).toNat generalizing i n cases with
  | zero =>
    obtain rfl : i = ub := by omega
    rw [fill, if_neg (lt_irrefl i)]
    refine ⟨hc, hn, ?_, [], rfl, ?_⟩
    · rw [Int.sub_self, Int.add_zero]
    · intro c h
      cases h
  | succ k ih =>
    rw [fill, if_pos (by omega)]
    have hc' : Consecutive (i - 1 + 1) ((i, default) :: cases) := by
      rw [Int.sub_add_cancel]
      exact ⟨rfl, hc⟩
    obtain ⟨h1, h2, h3, filled, h4, h5⟩ := ih (by omega) (n + 1) hc'
      (by rw [hn, List.length_cons]) (by omega)
    refine ⟨h1, h2, ?_, filled ++ [(i, default)], ?_, ?_⟩
    · rw [h3, List.length_cons]
      omega
    · rw [h4, List.append_assoc, List.singleton_append]
    · intro c hmem
      rcases List.mem_append.1 hmem with hmem | hmem
      · obtain ⟨hd, hi⟩ := h5 c hmem
        exact ⟨hd, by omega⟩
      · rw [List.mem_singleton] at hmem
        subst hmem
        exact ⟨rfl, le_refl i⟩

/-- **Merging.**  A chunk merged into the chunks above it. -/
theorem merge_spec {lb ub : ℤ} {n : ℕ} {cases : List (ℤ × Cexp)} {chunks : List Chunk}
    (hd : Chunk.Dense ⟨lb, ub, n, cases⟩) (hcs : Chunks chunks)
    (hlt : ∀ c ∈ chunks, ub < c.lb) :
    Chunks (merge default lb ub n cases chunks) ∧
      (∀ c ∈ merge default lb ub n cases chunks, lb ≤ c.lb) ∧
      ∀ v, select default (allCases (merge default lb ub n cases chunks)) v
        = select default (cases ++ allCases chunks) v := by
  induction chunks generalizing ub n cases with
  | nil =>
    rw [merge]
    refine ⟨Chunks.cons hd hcs hlt, ?_, ?_⟩
    · intro c hc
      rw [List.mem_singleton] at hc
      subst hc
      exact le_refl lb
    · intro v
      rfl
  | cons c chunkr ih =>
    obtain ⟨lb', ub', n', cases'⟩ := c
    have hd' := hcs.dense _ List.mem_cons_self
    have hgap : ub < lb' := hlt _ List.mem_cons_self
    have hub := hd.ub_eq
    have hub' := hd'.ub_eq
    have hle := hd.lb_le_ub
    have hle' := hd'.lb_le_ub
    simp only at hub hub' hle hle'
    rw [merge]
    split
    · -- the chunks stay apart
      refine ⟨Chunks.cons hd hcs hlt, ?_, fun v => rfl⟩
      intro c hc
      rcases List.mem_cons.1 hc with rfl | hc
      · exact le_refl lb
      · have := hlt c hc
        omega
    · -- the gap is filled, and merging goes on
      have hc1 : Consecutive (lb' - 1 + 1) cases' := by
        rw [Int.sub_add_cancel]
        exact hd'.consecutive
      have hfill : ub ≤ lb' - 1 := by omega
      obtain ⟨h1, h2, h3, filled, h4, h5⟩ := @fill_spec default _ _ hfill n' _ hc1 hd'.n_eq
      have hnext : Chunk.Dense ⟨lb, ub', n + (fill default ub (lb' - 1) n' cases').1,
          cases ++ (fill default ub (lb' - 1) n' cases').2⟩ := by
        refine ⟨hd.consecutive.append hub h1, ?_, ?_, ?_⟩
        · simp only
          rw [List.length_append, h2, ← hd.n_eq]
        · simp only
          rw [List.length_append]
          omega
        · intro h0
          exact hd.cases_ne (List.append_eq_nil_iff.1 h0).1
      obtain ⟨hr1, hr2, hr3⟩ := ih hnext hcs.tail (List.pairwise_cons.1 hcs.ordered).1
      refine ⟨hr1, hr2, ?_⟩
      intro v
      rw [hr3, h4, List.append_assoc, List.append_assoc]
      apply select_append_congr
      apply select_filled
      · exact fun c hc => (h5 c hc).1
      · -- the filled labels are below those of the chunks that follow
        intro c hc hmem
        obtain ⟨c', hc', hlo, -⟩ := (mem_labels_allCases hcs.dense).1 hmem
        have hci := (h5 c hc).2
        rcases List.mem_cons.1 hc' with rfl | hc'
        · simp only at hlo
          omega
        · have := (List.pairwise_cons.1 hcs.ordered).1 c' hc'
          simp only at this
          omega

/-! ### Grouping -/

theorem initialChunks_spec {cases : List (ℤ × Cexp)}
    (hs : cases.Pairwise fun c c' => c.1 < c'.1) :
    Chunks (initialChunks default cases) ∧
      (∀ t, (∀ c ∈ cases, t < c.1) → ∀ c ∈ initialChunks default cases, t < c.lb) ∧
      ∀ v, select default (allCases (initialChunks default cases)) v
        = select default cases v := by
  induction cases with
  | nil =>
    refine ⟨⟨?_, List.Pairwise.nil⟩, ?_, fun v => rfl⟩
    · intro c hc
      cases hc
    · intro t _ c hc
      cases hc
  | cons ic r ih =>
    obtain ⟨i, act⟩ := ic
    obtain ⟨hlt, hr⟩ := List.pairwise_cons.1 hs
    obtain ⟨h1, h2, h3⟩ := ih hr
    obtain ⟨hm1, hm2, hm3⟩ := merge_spec (dense_singleton i act) h1 (h2 i hlt)
    refine ⟨hm1, ?_, ?_⟩
    · intro t ht c hc
      exact lt_of_lt_of_le (ht _ List.mem_cons_self) (hm2 c hc)
    · intro v
      refine (hm3 v).trans ?_
      exact select_append_congr [(i, act)] (h3 v)

/-- The singletons of a chunk. -/
theorem singletons_spec (hc : Consecutive lb cases) (hub : ub + 1 = lb + cases.length)
    (hcs : Chunks chunks) (hlt : ∀ c ∈ chunks, ub < c.lb) :
    Chunks (cases.foldr (fun ic chunks => ⟨ic.1, ic.1, 1, [ic]⟩ :: chunks) chunks) ∧
      (∀ c ∈ cases.foldr (fun ic chunks => ⟨ic.1, ic.1, 1, [ic]⟩ :: chunks) chunks,
        c ∈ chunks ∨ lb ≤ c.lb) ∧
      allCases (cases.foldr (fun ic chunks => ⟨ic.1, ic.1, 1, [ic]⟩ :: chunks) chunks)
        = cases ++ allCases chunks := by
  induction cases generalizing lb with
  | nil => exact ⟨hcs, fun c hc => .inl hc, rfl⟩
  | cons ic r ih =>
    obtain ⟨i, act⟩ := ic
    obtain ⟨rfl, hr⟩ := hc
    rw [List.length_cons] at hub
    obtain ⟨h1, h2, h3⟩ := ih hr (by omega)
    rw [List.foldr_cons]
    refine ⟨Chunks.cons (dense_singleton i act) h1 ?_, ?_, ?_⟩
    · intro c hc
      rcases h2 c hc with hc | hc
      · have := hlt c hc
        simp only
        omega
      · simp only
        omega
    · intro c hc
      rcases List.mem_cons.1 hc with rfl | hc
      · exact .inr (le_refl i)
      · rcases h2 c hc with hc | hc
        · exact .inl hc
        · exact .inr (by omega)
    · rw [allCases_cons, h3]
      rfl

theorem separate_spec {chunk : Chunk} (hd : chunk.Dense) (hcs : Chunks chunks)
    (hlt : ∀ c ∈ chunks, chunk.ub < c.lb) :
    Chunks (separate chunk chunks) ∧
      (∀ c ∈ separate chunk chunks, c ∈ chunks ∨ chunk.lb ≤ c.lb) ∧
      allCases (separate chunk chunks) = chunk.cases ++ allCases chunks := by
  rw [separate]
  split
  · exact singletons_spec hd.consecutive hd.ub_eq hcs hlt
  · refine ⟨Chunks.cons hd hcs hlt, ?_, rfl⟩
    intro c hc
    rcases List.mem_cons.1 hc with rfl | hc
    · exact .inr (le_refl _)
    · exact .inl hc

theorem foldr_separate_spec (h : Chunks chunks) :
    Chunks (chunks.foldr separate []) ∧
      (∀ c ∈ chunks.foldr separate [], ∃ c' ∈ chunks, c'.lb ≤ c.lb) ∧
      allCases (chunks.foldr separate []) = allCases chunks := by
  induction chunks with
  | nil =>
    refine ⟨h, ?_, rfl⟩
    intro c hc
    cases hc
  | cons chunk r ih =>
    obtain ⟨h1, h2, h3⟩ := ih h.tail
    have hlt (c : Chunk) (hc : c ∈ r.foldr separate []) : chunk.ub < c.lb := by
      obtain ⟨c', hc', hle⟩ := h2 c hc
      exact lt_of_lt_of_le ((List.pairwise_cons.1 h.ordered).1 c' hc') hle
    obtain ⟨hs1, hs2, hs3⟩ := separate_spec (h.dense _ List.mem_cons_self) h1 hlt
    refine ⟨hs1, ?_, ?_⟩
    · intro c hc
      rcases hs2 c hc with hc | hc
      · obtain ⟨c', hc', hle⟩ := h2 c hc
        exact ⟨c', List.mem_cons_of_mem _ hc', hle⟩
      · exact ⟨chunk, List.mem_cons_self, hc⟩
    · rw [List.foldr_cons, hs3, h3, allCases_cons]

/-- **Grouping.**  The chunks of sorted cases have no gaps, stand in order, and select what the
cases select. -/
theorem groupCases_spec {cases : List (ℤ × Cexp)}
    (hs : cases.Pairwise fun c c' => c.1 < c'.1) :
    Chunks (groupCases cases default) ∧
      ∀ v, select default (allCases (groupCases cases default)) v = select default cases v := by
  obtain ⟨h1, -, h3⟩ := @initialChunks_spec default _ hs
  obtain ⟨hs1, -, hs3⟩ := foldr_separate_spec h1
  refine ⟨hs1, ?_⟩
  intro v
  rw [groupCases, hs3, h3]

theorem merge_ne_nil (lb ub : ℤ) (n : ℕ) (cases : List (ℤ × Cexp)) (chunks : List Chunk) :
    merge default lb ub n cases chunks ≠ [] := by
  induction chunks generalizing ub n cases with
  | nil => exact List.cons_ne_nil _ _
  | cons c chunkr ih =>
    rw [merge]
    split
    · exact List.cons_ne_nil _ _
    · apply ih

theorem groupCases_ne_nil (hs : cases.Pairwise fun c c' => c.1 < c'.1) (hne : cases ≠ []) :
    groupCases cases default ≠ [] := by
  obtain ⟨h1, -, -⟩ := @initialChunks_spec default _ hs
  have hall := (foldr_separate_spec h1).2.2
  intro hnil
  rw [groupCases] at hnil
  rw [hnil] at hall
  cases cases with
  | nil => exact hne rfl
  | cons ic r =>
    -- some chunk is there, and it has a case
    obtain ⟨c, cs, hcs⟩ := List.exists_cons_of_ne_nil
      (merge_ne_nil ic.1 ic.1 1 [ic] (initialChunks default r))
    have hinit : initialChunks default (ic :: r) = c :: cs := hcs
    rw [hinit] at h1 hall
    exact (h1.dense c List.mem_cons_self).cases_ne (List.append_eq_nil_iff.1 hall.symm).1

/-! ### The bounds of the chunks -/

/-- All chunks lie between `lo` and `hi`. -/
def Within (lo hi : ℤ) (chunks : List Chunk) : Prop := ∀ c ∈ chunks, lo ≤ c.lb ∧ c.ub ≤ hi

theorem Within.cons {lo hi : ℤ} {c : Chunk} {cs : List Chunk} (hlo : lo ≤ c.lb) (hhi : c.ub ≤ hi)
    (h : Within lo hi cs) : Within lo hi (c :: cs) := by
  intro c' hc'
  rcases List.mem_cons.1 hc' with rfl | hc'
  · exact ⟨hlo, hhi⟩
  · exact h c' hc'

theorem Within.tail {lo hi : ℤ} {c : Chunk} {cs : List Chunk} (h : Within lo hi (c :: cs)) :
    Within lo hi cs := fun c' hc' => h c' (List.mem_cons_of_mem _ hc')

theorem merge_within (hlo : lo ≤ lb) (hhi : ub ≤ hi) (n : ℕ) (cases : List (ℤ × Cexp))
    (h : Within lo hi chunks) : Within lo hi (merge default lb ub n cases chunks) := by
  induction chunks generalizing ub n cases with
  | nil => exact Within.cons hlo hhi h
  | cons c chunkr ih =>
    rw [merge]
    split
    · exact Within.cons hlo hhi h
    · exact ih (h _ List.mem_cons_self).2 _ _ h.tail

theorem initialChunks_within (h : ∀ c ∈ cases, lo ≤ c.1 ∧ c.1 ≤ hi) :
    Within lo hi (initialChunks default cases) := by
  induction cases with
  | nil =>
    intro c hc
    cases hc
  | cons ic r ih =>
    obtain ⟨hlo, hhi⟩ := h ic List.mem_cons_self
    apply merge_within hlo hhi
    apply ih
    intro c hc
    exact h c (List.mem_cons_of_mem _ hc)

theorem singletons_within (h : ∀ c ∈ cases, lo ≤ c.1 ∧ c.1 ≤ hi) (hcs : Within lo hi chunks) :
    Within lo hi (cases.foldr (fun ic chunks => ⟨ic.1, ic.1, 1, [ic]⟩ :: chunks) chunks) := by
  induction cases with
  | nil => exact hcs
  | cons ic r ih =>
    obtain ⟨hlo, hhi⟩ := h ic List.mem_cons_self
    refine Within.cons hlo hhi (ih ?_)
    intro c hc
    exact h c (List.mem_cons_of_mem _ hc)

theorem foldr_separate_within (hcs : Chunks chunks) (h : Within lo hi chunks) :
    Within lo hi (chunks.foldr separate []) := by
  induction chunks with
  | nil => exact h
  | cons chunk r ih =>
    have htail := ih hcs.tail h.tail
    obtain ⟨hlo, hhi⟩ := h _ List.mem_cons_self
    have hd := hcs.dense _ List.mem_cons_self
    rw [List.foldr_cons, separate]
    split
    · apply singletons_within _ htail
      intro c hc
      have hmem := hd.mem_labels.1 (List.mem_map_of_mem hc)
      omega
    · exact Within.cons hlo hhi htail

theorem groupCases_within (hs : cases.Pairwise fun c c' => c.1 < c'.1)
    (h : ∀ c ∈ cases, lo ≤ c.1 ∧ c.1 ≤ hi) : Within lo hi (groupCases cases default) :=
  foldr_separate_within (initialChunks_spec hs).1 (initialChunks_within h)

end SmlNj.CPS.Switch
