import SmlNj.Library.IntervalSetOps

/-!
# Filtering the points of an interval set

The loop over the points of an interval looks one point ahead, and tests for the interval's end
only when the point ahead passes, or when the point before it did not pass and neither does the
point.  In the other cases it runs past the end of the interval, and then it never stops.

## Main definitions

* `FilterEnds` — the loop stops at the end of an interval.

## Main results

* `scan_spec`, `scan_diverges` — what the loop yields, and when it yields nothing.
* `filter_iff` — when the points that pass a test are filtered.
-/

open Order (succ)
open Set (Icc)
open IntervalList

namespace SmlNj.IntervalSet

variable {Point : Type*} [LinearOrder Point] [IntervalDomain Point]

/-- The loop stops at the end of the interval: the end is reached from the start in finitely many
steps, and it is the end of the domain, or the last two points pass or fail together, or the
interval is a single point that fails. -/
def FilterEnds (p : Point → Bool) (i : Point × Point) : Prop :=
  (∃ n, succ^[n] i.1 = i.2) ∧
    (i.2 = ⊤ ∨ if i.1 = i.2 then p i.2 = false else p i.2 = p (Order.pred i.2))

theorem loop_diverges (p : Point → Bool) {last : Point} (fuel : ℕ) :
    (∀ start item l, (∀ n, succ^[n] (succ item) ≠ last) →
      filter.lp p fuel start item last l = none) ∧
    (∀ next l, (∀ n, succ^[n] next ≠ last) → filter.scan p fuel next last l = none) := by
  induction fuel with
  | zero => exact ⟨fun _ _ _ _ => rfl, fun _ _ _ => rfl⟩
  | succ fuel ih =>
    obtain ⟨ihlp, ihscan⟩ := ih
    constructor
    · intro start item l h
      have hne : succ item ≠ last := h 0
      rw [filter.lp]
      by_cases hp : p (succ item) = true
      · simp only [hp, if_true, compare_eq_iff_eq, hne, if_false]
        exact ihlp _ _ _ fun n => h (n + 1)
      · simp only [hp]
        exact ihscan _ _ fun n => h (n + 1)
    · intro next l h
      have hne : next ≠ last := h 0
      rw [filter.scan]
      by_cases hp : p next = true
      · simp only [hp, if_true]
        exact ihlp _ _ _ fun n => h (n + 1)
      · simp only [hp, compare_eq_iff_eq, hne, if_false]
        exact ihscan _ _ fun n => h (n + 1)

theorem iterate_succ_ne {x last : Point} (h : last < x) (n : ℕ) : succ^[n] x ≠ last :=
  (h.trans_le (Order.le_succ_iterate n x)).ne'

theorem loop_mono (p : Point → Bool) (fuel : ℕ) (last : Point) (l' : List (Point × Point)) :
    (∀ start item l, filter.lp p fuel start item last l = some l' →
      filter.lp p (fuel + 1) start item last l = some l') ∧
    (∀ next l, filter.scan p fuel next last l = some l' →
      filter.scan p (fuel + 1) next last l = some l') := by
  induction fuel with
  | zero => exact ⟨fun _ _ _ h => (nomatch h), fun _ _ h => (nomatch h)⟩
  | succ fuel ih =>
    obtain ⟨ihlp, ihscan⟩ := ih
    constructor
    · intro start item l h
      rw [filter.lp] at h ⊢
      split_ifs at h ⊢ with hp he
      · exact h
      · exact ihlp _ _ _ h
      · exact ihscan _ _ h
    · intro next l h
      rw [filter.scan] at h ⊢
      split_ifs at h ⊢ with hp he
      · exact ihlp _ _ _ h
      · exact h
      · exact ihscan _ _ h

theorem scan_mono {p : Point → Bool} {fuel fuel' : ℕ} {next last : Point}
    {l l' : List (Point × Point)} (h : filter.scan p fuel next last l = some l')
    (hf : fuel ≤ fuel') : filter.scan p fuel' next last l = some l' := by
  induction hf with
  | refl => exact h
  | step _ ih => exact (loop_mono p _ last l').2 _ _ ih

/-! ### The loop up to the end -/

section Loop

variable {p : Point → Bool} {last : Point}

def ScanEnds (p : Point → Bool) (last x : Point) : Prop :=
  last = ⊤ ∨ if x = last then p last = false else p last = p (Order.pred last)

/-- The run of points that pass stops when it has come to a point. -/
def RunEnds (p : Point → Bool) (last x : Point) : Prop :=
  last = ⊤ ∨ (x < last ∧ p last = p (Order.pred last))

theorem pred_eq_of_succ_eq {x : Point} (hx : x < last) (h : succ x = last) :
    Order.pred last = x := by
  rw [← h, Order.pred_succ_of_not_isMax (not_isMax_of_lt hx)]

theorem scanEnds_succ_iff {x : Point} (hx : x < last) (hp : p x = false) :
    ScanEnds p last (succ x) ↔ ScanEnds p last x := by
  refine or_congr_right ?_
  rw [if_neg hx.ne]
  split
  case isTrue h => rw [pred_eq_of_succ_eq hx h, hp]
  case isFalse h => rfl

theorem runEnds_iff_scanEnds {x : Point} (hx : x ≤ last) (hp : p x = true) :
    RunEnds p last x ↔ ScanEnds p last x := by
  refine or_congr_right ?_
  split
  case isTrue h => simp [← h, hp]
  case isFalse h => simp [lt_of_le_of_ne hx h]

theorem scanEnds_iff_runEnds {x : Point} (hx : x < last) (hnext : succ x < last)
    (hp : p (succ x) = false) : ScanEnds p last (succ (succ x)) ↔ RunEnds p last x := by
  rw [scanEnds_succ_iff hnext hp]
  refine or_congr_right ?_
  simp [hnext.ne, hx]

/-- **The loop never stops** when it does not stop at the end. -/
theorem loop_diverges_of_not_ends (n : ℕ) :
    (∀ start x, succ^[n] x = last → p x = true → ¬RunEnds p last x →
      ∀ fuel l, filter.lp p fuel start x last l = none) ∧
    (∀ x, succ^[n] x = last → ¬ScanEnds p last x →
      ∀ fuel l, filter.scan p fuel x last l = none) := by
  induction n using Nat.strong_induction_on with
  | _ n ih =>
    have hlp : ∀ start x, succ^[n] x = last → p x = true → ¬RunEnds p last x →
        ∀ fuel l, filter.lp p fuel start x last l = none := by
      intro start x hn hpx hends fuel l
      have hlast : last < ⊤ := lt_top_iff_ne_top.2 fun h => hends (.inl h)
      rcases (hn ▸ Order.le_succ_iterate n x : x ≤ last).eq_or_lt with rfl | hx
      · -- at the end of the interval the loop steps past it
        have hpast := Order.lt_succ_of_not_isMax (not_isMax_of_lt hlast)
        exact (loop_diverges p fuel).1 _ _ _ (iterate_succ_ne hpast)
      obtain _ | m := n
      · exact absurd hn hx.ne
      rcases fuel with _ | fuel
      · rfl
      rw [filter.lp]
      rcases (Order.succ_le_of_lt hx).eq_or_lt with he | hnext
      · -- the point ahead is the end: it fails, or the last two points would pass
        have hpn : p (succ x) = false := by
          by_contra hpn
          refine hends (.inr ⟨hx, ?_⟩)
          rw [pred_eq_of_succ_eq hx he, hpx, ← he]
          simpa using hpn
        have hpast := Order.lt_succ_of_not_isMax (not_isMax_of_lt hlast)
        rw [he] at hpn ⊢
        simp only [hpn]
        exact (loop_diverges p fuel).2 _ _ (iterate_succ_ne hpast)
      · by_cases hpn : p (succ x) = true
        · simp only [hpn, if_true, compare_eq_iff_eq, hnext.ne, if_false]
          refine (ih m (Nat.lt_succ_self m)).1 _ _ hn hpn (fun h => hends ?_) fuel l
          exact h.imp_right fun h => ⟨hx, h.2⟩
        · have hpn : p (succ x) = false := by simpa using hpn
          obtain _ | k := m
          · exact absurd hn hnext.ne
          simp only [hpn]
          exact (ih k (by omega)).2 _ hn (mt (scanEnds_iff_runEnds hx hnext hpn).1 hends) fuel _
    refine ⟨hlp, fun x hn hends fuel l => ?_⟩
    have hx : x ≤ last := hn ▸ Order.le_succ_iterate n x
    rcases fuel with _ | fuel
    · rfl
    rw [filter.scan]
    by_cases hpx : p x = true
    · simp only [hpx, if_true]
      exact hlp _ _ hn hpx (mt (runEnds_iff_scanEnds hx hpx).1 hends) fuel l
    · have hpx : p x = false := by simpa using hpx
      rcases hx.eq_or_lt with rfl | hx
      · exact absurd (.inr (by simp [hpx])) hends
      obtain _ | m := n
      · exact absurd hn hx.ne
      simp only [hpx, compare_eq_iff_eq, hx.ne, if_false]
      exact (ih m (Nat.lt_succ_self m)).2 _ hn (mt (scanEnds_succ_iff hx hpx).1 hends) fuel l

/-- The loop puts the subintervals of the points that pass, from `x` to the end, in front of the
list that it is given. -/
def Yields (p : Point → Bool) (last x : Point)
    (loop : ℕ → List (Point × Point) → Option (List (Point × Point))) : Prop :=
  ∃ fuel l', (∀ l, loop fuel l = some (l' ++ l)) ∧ Separated l'.reverse ∧
    points l' = {z | z ∈ Icc x last ∧ p z = true}

theorem passing_succ {x : Point} (hp : p x = false) :
    {z | z ∈ Icc (succ x) last ∧ p z = true} = {z | z ∈ Icc x last ∧ p z = true} := by
  ext z
  refine and_congr_left fun hz => and_congr_left fun _ => ?_
  constructor
  · exact (Order.le_succ x).trans
  · intro hxz
    refine Order.succ_le_of_lt (lt_of_le_of_ne hxz ?_)
    rintro rfl
    exact Bool.false_ne_true (hp.symm.trans hz)

/-- A run that breaks off is put in front of the list. -/
theorem Yields.run {start x : Point} (hstart : start ≤ x) (hrun : ∀ z ∈ Icc start x, p z = true)
    (hx : x < last) (hpn : p (succ x) = false)
    (h : ∃ fuel l', (∀ l, filter.scan p fuel (succ (succ x)) last l = some (l' ++ l)) ∧
      Separated l'.reverse ∧
      points l' = {z | z ∈ Icc (succ x) last ∧ p z = true}) :
    Yields p last start fun fuel => filter.lp p fuel start x last := by
  obtain ⟨fuel, l', hl', hsep, hpts⟩ := h
  refine ⟨fuel + 1, l' ++ [(start, x)], fun l => ?_, ?_, ?_⟩
  · change filter.lp p (fuel + 1) start x last l = _
    rw [filter.lp]
    simp [hpn, hl']
  · rw [List.reverse_append, List.reverse_singleton, List.singleton_append]
    refine separated_cons.2 ⟨hstart, hsep.above fun z hz => ?_, hsep⟩
    rw [points_reverse, hpts] at hz
    refine lt_of_le_of_ne hz.1.1 fun hzx => ?_
    have hpz : p z = true := hz.2
    rw [← hzx, hpn] at hpz
    exact Bool.false_ne_true hpz
  · rw [points_append, hpts]
    ext z
    simp only [points_cons, points_nil, Set.union_empty, Set.mem_union, Set.mem_ofPred_eq]
    rcases le_or_gt z x with hzx | hxz
    · have hnz : ¬z ∈ Icc (succ x) last := fun h =>
        absurd (h.1.trans hzx) (Order.lt_succ_of_not_isMax (not_isMax_of_lt hx)).not_ge
      constructor
      · rintro (h | h)
        · exact absurd h.1 hnz
        · exact ⟨⟨h.1, h.2.trans hx.le⟩, hrun z h⟩
      · exact fun h => .inr ⟨h.1.1, hzx⟩
    · constructor
      · rintro (h | h)
        · exact ⟨⟨hstart.trans hxz.le, h.1.2⟩, h.2⟩
        · exact absurd h.2 hxz.not_ge
      · exact fun h => .inl ⟨⟨Order.succ_le_of_lt hxz, h.1.2⟩, h.2⟩

/-- **The loop yields the points that pass** when it stops at the end. -/
theorem loop_yields (n : ℕ) :
    (∀ start x, succ^[n] x = last → start ≤ x → (∀ z ∈ Icc start x, p z = true) →
      RunEnds p last x → Yields p last start fun fuel => filter.lp p fuel start x last) ∧
    (∀ x, succ^[n] x = last → ScanEnds p last x →
      Yields p last x fun fuel => filter.scan p fuel x last) := by
  induction n using Nat.strong_induction_on with
  | _ n ih =>
    have hlp : ∀ start x, succ^[n] x = last → start ≤ x → (∀ z ∈ Icc start x, p z = true) →
        RunEnds p last x → Yields p last start fun fuel => filter.lp p fuel start x last := by
      intro start x hn hstart hrun hends
      have hx : x ≤ last := hn ▸ Order.le_succ_iterate n x
      -- a run that goes up to the end is the last subinterval
      have hlast : succ x = last → p last = true →
          Yields p last start fun fuel => filter.lp p fuel start x last := by
        intro he hpl
        refine ⟨1, [(start, last)], fun l => ?_, by simp [hstart.trans hx], ?_⟩
        · change filter.lp p 1 start x last l = _
          rw [filter.lp]
          simp [he, hpl]
        · ext z
          rw [points_cons, points_nil, Set.union_empty, Set.mem_ofPred_eq]
          refine (and_iff_left_of_imp fun hz => ?_).symm
          rcases le_or_gt z x with hzx | hxz
          · exact hrun z ⟨hz.1, hzx⟩
          · rw [le_antisymm hz.2 (he ▸ Order.succ_le_of_lt hxz), hpl]
      rcases hx.eq_or_lt with rfl | hx
      · obtain rfl : x = ⊤ := hends.resolve_right fun h => lt_irrefl _ h.1
        exact hlast Order.succ_top (hrun _ ⟨hstart, le_rfl⟩)
      obtain _ | m := n
      · exact absurd hn hx.ne
      have hpx : p x = true := hrun x ⟨hstart, le_rfl⟩
      rcases (Order.succ_le_of_lt hx).eq_or_lt with he | hnext
      · by_cases hpl : p last = true
        · exact hlast he hpl
        · -- the end fails: it is the end of the domain, and the search stays there
          have hpl : p last = false := by simpa using hpl
          have htop : last = ⊤ := by
            refine hends.resolve_right fun h => ?_
            rw [pred_eq_of_succ_eq hx he, hpx, hpl] at h
            exact Bool.false_ne_true h.2
          refine .run hstart hrun hx (he ▸ hpl) ⟨1, [], fun l => ?_, separated_nil, ?_⟩
          · have hst : succ last = last := by rw [htop, Order.succ_top]
            rw [he, hst, filter.scan]
            simp [hpl]
          · rw [he, points_nil, Set.Icc_self]
            ext z
            simp only [Set.mem_empty_iff_false, Set.mem_ofPred_eq, Set.mem_singleton_iff,
              false_iff, not_and]
            rintro rfl
            simp [hpl]
      · by_cases hpn : p (succ x) = true
        · -- the run goes on
          have hrun' : ∀ z ∈ Icc start (succ x), p z = true := by
            intro z hz
            rcases le_or_gt z x with hzx | hxz
            · exact hrun z ⟨hz.1, hzx⟩
            · rw [le_antisymm hz.2 (Order.succ_le_of_lt hxz), hpn]
          obtain ⟨fuel, l', hl', hrest⟩ := (ih m (Nat.lt_succ_self m)).1 start _ hn
            (hstart.trans (Order.le_succ x)) hrun' (hends.imp_right fun h => ⟨hnext, h.2⟩)
          refine ⟨fuel + 1, l', fun l => ?_, hrest⟩
          change filter.lp p (fuel + 1) start x last l = _
          rw [filter.lp]
          simp [hpn, hnext.ne, hl']
        · have hpn : p (succ x) = false := by simpa using hpn
          obtain _ | k := m
          · exact absurd hn hnext.ne
          obtain ⟨fuel, l', hl', hsep, hpts⟩ := (ih k (by omega)).2 _ hn
            ((scanEnds_iff_runEnds hx hnext hpn).2 hends)
          exact .run hstart hrun hx hpn ⟨fuel, l', hl', hsep, hpts.trans (passing_succ hpn)⟩
    refine ⟨hlp, fun x hn hends => ?_⟩
    have hx : x ≤ last := hn ▸ Order.le_succ_iterate n x
    by_cases hpx : p x = true
    · -- a run starts
      obtain ⟨fuel, l', hl', hrest⟩ := hlp x x hn le_rfl
        (fun z hz => by rw [le_antisymm hz.2 hz.1, hpx]) ((runEnds_iff_scanEnds hx hpx).2 hends)
      refine ⟨fuel + 1, l', fun l => ?_, hrest⟩
      change filter.scan p (fuel + 1) x last l = _
      rw [filter.scan, if_pos hpx]
      exact hl' l
    · have hpx : p x = false := by simpa using hpx
      rcases hx.eq_or_lt with rfl | hx
      · -- the search stops at the end
        refine ⟨1, [], fun l => ?_, separated_nil, ?_⟩
        · change filter.scan p 1 x x l = _
          rw [filter.scan]
          simp [hpx]
        · ext z
          simp only [points_nil, Set.mem_empty_iff_false, Set.mem_ofPred_eq, Set.Icc_self,
            Set.mem_singleton_iff, false_iff, not_and]
          rintro rfl
          simp [hpx]
      · obtain _ | m := n
        · exact absurd hn hx.ne
        obtain ⟨fuel, l', hl', hsep, hpts⟩ := (ih m (Nat.lt_succ_self m)).2 _ hn
          ((scanEnds_succ_iff hx hpx).2 hends)
        refine ⟨fuel + 1, l', fun l => ?_, hsep, hpts.trans (passing_succ hpx)⟩
        change filter.scan p (fuel + 1) x last l = _
        rw [filter.scan]
        simp [hpx, hx.ne, hl']

end Loop

/-! ### The filter -/

section Filter

variable {p : Point → Bool}

/-- **An interval is filtered** when the loop over its points stops, and then the subintervals of
the points that pass go in front of the list. -/
theorem filterInt_yields {a b : Point} (h : FilterEnds p (a, b)) :
    Yields p b a fun fuel => filter.filterInt fuel p (a, b) := by
  obtain ⟨⟨n, hn⟩, hends⟩ := h
  exact (loop_yields n).2 a hn hends

theorem filterEnds_of_eq_some {a b : Point} {fuel : ℕ} {l l' : List (Point × Point)}
    (h : filter.filterInt fuel p (a, b) l = some l') : FilterEnds p (a, b) := by
  by_contra hends
  have hnone : filter.filterInt fuel p (a, b) l = none := by
    by_cases hn : ∃ n, succ^[n] a = b
    · obtain ⟨n, hn⟩ := hn
      exact (loop_diverges_of_not_ends n).2 a hn (fun h => hends ⟨⟨n, hn⟩, h⟩) fuel l
    · exact (loop_diverges p fuel).2 a l (not_exists.1 hn)
  rw [hnone] at h
  exact nomatch h

theorem filter'_mono {r acc : List (Point × Point)} {fuel fuel' : ℕ} {t : IntervalSet Point}
    (h : filter.filter' fuel p r acc = some t) (hf : fuel ≤ fuel') :
    filter.filter' fuel' p r acc = some t := by
  induction r generalizing acc with
  | nil => exact h
  | cons i r ih =>
    obtain ⟨l₁, h₁, h⟩ := Option.bind_eq_some_iff.1 h
    exact Option.bind_eq_some_iff.2 ⟨l₁, scan_mono h₁ hf, ih h⟩

theorem filter'_yields {r : List (Point × Point)} (hr : Separated r)
    (hends : ∀ i ∈ r, FilterEnds p i) (acc : List (Point × Point)) :
    ∃ fuel out, filter.filter' fuel p r acc = some (SET (acc.reverse ++ out)) ∧
      Separated out ∧ points out = {x | x ∈ points r ∧ p x = true} := by
  induction r generalizing acc with
  | nil => exact ⟨0, [], by simp [filter.filter'], separated_nil, by simp⟩
  | cons i r ih =>
    obtain ⟨a, b⟩ := i
    obtain ⟨hab, hbr, hr⟩ := separated_cons.1 hr
    obtain ⟨hi, hends⟩ := List.forall_mem_cons.1 hends
    obtain ⟨fuel, l', hl', hsep, hpts⟩ := filterInt_yields hi
    obtain ⟨fuel', out, hout, hosep, hopts⟩ := ih hr hends (l' ++ acc)
    refine ⟨max fuel fuel', l'.reverse ++ out, ?_, hsep.append hosep fun j hj => ?_, ?_⟩
    · refine Option.bind_eq_some_iff.2 ⟨l' ++ acc, scan_mono (hl' acc) (le_max_left ..), ?_⟩
      rw [filter'_mono hout (le_max_right ..)]
      simp
    · -- a subinterval ends no later than the interval, and the rest lies past that
      have hj2 : j.2 ∈ points l'.reverse := ⟨j, hj, hsep.le j hj, le_rfl⟩
      rw [points_reverse, hpts] at hj2
      refine hosep.above fun x hx => ?_
      rw [hopts] at hx
      exact (Order.succ_le_succ hj2.1.2).trans_lt (hbr.lt hx.1)
    · rw [points_append, points_reverse, hpts, hopts, points_cons]
      ext x
      simp [or_and_right]

theorem filterEnds_of_filter' {r acc : List (Point × Point)} {fuel : ℕ} {t : IntervalSet Point}
    (h : filter.filter' fuel p r acc = some t) : ∀ i ∈ r, FilterEnds p i := by
  induction r generalizing acc with
  | nil => simp
  | cons i r ih =>
    obtain ⟨l₁, h₁, h⟩ := Option.bind_eq_some_iff.1 h
    exact List.forall_mem_cons.2 ⟨filterEnds_of_eq_some h₁, ih h⟩

/-- **The points that pass are filtered** exactly when the loop stops in every interval. -/
theorem implements_filter_iff {s : IntervalSet Point} {S : Set Point} (hs : Implements s S) :
    (∃ fuel t, filter fuel p s = some t ∧ Implements t {x | x ∈ S ∧ p x = true}) ↔
      ∀ i ∈ s.intervals, FilterEnds p i := by
  obtain ⟨l⟩ := s
  obtain ⟨hl, rfl⟩ := implements_iff.1 hs
  constructor
  · rintro ⟨fuel, t, ht, -⟩
    exact filterEnds_of_filter' ht
  · intro hends
    obtain ⟨fuel, out, hout, hsep, hpts⟩ := filter'_yields hl hends []
    exact ⟨fuel, SET out, hout, implements_iff.2 ⟨hsep, hpts⟩⟩

end Filter

end SmlNj.IntervalSet
