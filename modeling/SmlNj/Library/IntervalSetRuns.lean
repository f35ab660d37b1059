import SmlNj.Library.IntervalSetUnion
import SmlNj.Library.IntervalSetFilter
import Mathlib.Data.Fin.SuccPredOrder

/-!
# Sets built by the operations of interval sets

A program that builds sets is an expression over the operations.  Every set that it builds is in
the form of the representation and has the points that the operations stand for, as long as each
step avoids the inputs that an operation mishandles: a complement of a set that stops one point
before the end of the domain, a union in which a run of the first set reaches into one of the
second set from below, and a filter whose loop runs past the end of an interval.

## Main definitions

* `SetExpr` — programs that build sets.
* `SetExpr.denote` — the set of points that a program stands for.
* `SetExpr.Safe` — each step of a program avoids the mishandled inputs.

## Main results

* `sets_correct` — the sets that a program builds are right exactly when its steps are safe.
-/

open Order (succ)
open Set (Icc)
open IntervalList

namespace SmlNj.IntervalSet

variable {Point : Type*} [LinearOrder Point] [IntervalDomain Point]

/-- A program that builds a set.  The intervals that it names are well-formed. -/
inductive SetExpr (Point : Type*) [LinearOrder Point]
  | empty
  | all
  | singleton (x : Point)
  | interval (a b : Point) (h : a ≤ b)
  | fromList (items : List Point)
  | add (e : SetExpr Point) (x : Point)
  | addInt (e : SetExpr Point) (a b : Point) (h : a ≤ b)
  | complement (e : SetExpr Point)
  | union (e₁ e₂ : SetExpr Point)
  | intersect (e₁ e₂ : SetExpr Point)
  | difference (e₁ e₂ : SetExpr Point)
  | filter (p : Point → Bool) (e : SetExpr Point)
  | filterInt (p : Point × Point → Bool) (e : SetExpr Point)

namespace SetExpr

/-- The set that a program builds, if the loops of its filters stop within `fuel` steps. -/
@[grind =] def eval (fuel : ℕ) : SetExpr Point → Option (IntervalSet Point)
  | empty => some IntervalSet.empty
  | all => some «universe»
  | singleton x => some (IntervalSet.singleton x)
  | interval a b _ => (IntervalSet.interval a b).toOption
  | fromList items => IntervalSet.fromList items
  | add e x => do IntervalSet.add (← e.eval fuel) x
  | addInt e a b _ => do (IntervalSet.addInt (← e.eval fuel) (a, b)).toOption
  | complement e => do return IntervalSet.complement (← e.eval fuel)
  | union e₁ e₂ => do return IntervalSet.union (← e₁.eval fuel) (← e₂.eval fuel)
  | intersect e₁ e₂ => do return IntervalSet.intersect (← e₁.eval fuel) (← e₂.eval fuel)
  | difference e₁ e₂ => do return IntervalSet.difference (← e₁.eval fuel) (← e₂.eval fuel)
  | filter p e => do IntervalSet.filter fuel p (← e.eval fuel)
  | filterInt p e => do return IntervalSet.filterInt p (← e.eval fuel)

omit [IntervalDomain Point] in
/-- The set of points that a program stands for. -/
@[grind =] def denote : SetExpr Point → Set Point
  | empty => ∅
  | all => Set.univ
  | singleton x => {x}
  | interval a b _ => Icc a b
  | fromList items => {x | x ∈ items}
  | add e x => insert x e.denote
  | addInt e a b _ => e.denote ∪ Icc a b
  | complement e => e.denoteᶜ
  | union e₁ e₂ => e₁.denote ∪ e₂.denote
  | intersect e₁ e₂ => e₁.denote ∩ e₂.denote
  | difference e₁ e₂ => e₁.denote \ e₂.denote
  | filter p e => {x | x ∈ e.denote ∧ p x = true}
  | filterInt p e => {x | ∃ a b, IsRun e.denote a b ∧ p (a, b) = true ∧ a ≤ x ∧ x ≤ b}

/-- **The steps of a program are safe**: each one avoids the inputs that its operation mishandles.
The conditions are about the sets of points before the step. -/
@[grind =] def Safe : SetExpr Point → Prop
  | empty | all | singleton _ | interval _ _ _ | fromList _ => True
  | add e _ | addInt e _ _ _ | filterInt _ e => e.Safe
  | complement e => e.Safe ∧ (Order.pred ⊤ ∈ e.denote → ⊤ ∈ e.denote)
  | union e₁ e₂ => (e₁.Safe ∧ e₂.Safe) ∧
      ¬∃ a b c d, IsRun e₁.denote a b ∧ IsRun e₂.denote c d ∧ a < c ∧ c ≤ b ∧ b < d
  | intersect e₁ e₂ => e₁.Safe ∧ e₂.Safe
  | difference e₁ e₂ => (e₁.Safe ∧ e₂.Safe) ∧
      (⊤ ∈ e₁.denote → Order.pred ⊤ ∈ e₂.denote → ⊤ ∈ e₂.denote)
  | filter p e => e.Safe ∧ ∀ a b, IsRun e.denote a b → FilterEnds p (a, b)

omit [IntervalDomain Point] in
/-- The steps of a program. -/
@[grind =] def parts : SetExpr Point → List (SetExpr Point)
  | e@(empty) | e@(all) | e@(singleton _) | e@(interval _ _ _) | e@(fromList _) => [e]
  | e@(add e' _) | e@(addInt e' _ _ _) | e@(complement e') | e@(filter _ e')
  | e@(filterInt _ e') => e :: e'.parts
  | e@(union e₁ e₂) | e@(intersect e₁ e₂) | e@(difference e₁ e₂) => e :: (e₁.parts ++ e₂.parts)

/-- A program builds a set, and the set has the points that the program stands for. -/
def Correct (e : SetExpr Point) : Prop :=
  ∃ fuel s, e.eval fuel = some s ∧ Implements s e.denote

theorem eval_mono {e : SetExpr Point} {fuel fuel' : ℕ} {s : IntervalSet Point}
    (h : e.eval fuel = some s) (hf : fuel ≤ fuel') : e.eval fuel' = some s := by
  induction e generalizing s with
  | empty | all | singleton | interval | fromList => exact h
  | add e x ih | addInt e a b _ ih | complement e ih | filterInt p e ih =>
    obtain ⟨t, ht, h⟩ := Option.bind_eq_some_iff.1 h
    exact Option.bind_eq_some_iff.2 ⟨t, ih ht, h⟩
  | filter p e ih =>
    obtain ⟨t, ht, h⟩ := Option.bind_eq_some_iff.1 h
    exact Option.bind_eq_some_iff.2 ⟨t, ih ht, filter'_mono h hf⟩
  | union e₁ e₂ ih₁ ih₂ | intersect e₁ e₂ ih₁ ih₂ | difference e₁ e₂ ih₁ ih₂ =>
    obtain ⟨t₁, ht₁, h⟩ := Option.bind_eq_some_iff.1 h
    obtain ⟨t₂, ht₂, h⟩ := Option.bind_eq_some_iff.1 h
    exact Option.bind_eq_some_iff.2 ⟨t₁, ih₁ ht₁, Option.bind_eq_some_iff.2 ⟨t₂, ih₂ ht₂, h⟩⟩

theorem eval_det {e : SetExpr Point} {fuel fuel' : ℕ} {s s' : IntervalSet Point}
    (h : e.eval fuel = some s) (h' : e.eval fuel' = some s') : s = s' := by
  have h := eval_mono h (le_max_left fuel fuel')
  have h' := eval_mono h' (le_max_right fuel fuel')
  exact Option.some.inj (h.symm.trans h')

/-! ### The steps one by one -/

section Steps

variable {e e₁ e₂ e' : SetExpr Point} {s s₁ s₂ : IntervalSet Point} {n n₁ n₂ : ℕ}

theorem correct_unary {f : ℕ → IntervalSet Point → Option (IntervalSet Point)}
    (hs : e.eval n = some s) (heval : ∀ fuel, e'.eval fuel = (e.eval fuel).bind (f fuel))
    (hmono : ∀ fuel fuel' s t, f fuel s = some t → fuel ≤ fuel' → f fuel' s = some t) :
    e'.Correct ↔ ∃ fuel t, f fuel s = some t ∧ Implements t e'.denote := by
  constructor
  · rintro ⟨fuel, t, ht, himp⟩
    obtain ⟨s', hs', hf⟩ := Option.bind_eq_some_iff.1 ((heval fuel).symm.trans ht)
    obtain rfl := eval_det hs hs'
    exact ⟨fuel, t, hf, himp⟩
  · rintro ⟨fuel, t, hf, himp⟩
    refine ⟨max n fuel, t, ?_, himp⟩
    rw [heval, eval_mono hs (le_max_left ..)]
    exact hmono _ _ _ _ hf (le_max_right ..)

theorem correct_unary_total {g : IntervalSet Point → IntervalSet Point}
    (hs : e.eval n = some s)
    (heval : ∀ fuel, e'.eval fuel = (e.eval fuel).bind fun s => some (g s)) :
    e'.Correct ↔ Implements (g s) e'.denote := by
  rw [correct_unary hs heval fun _ _ _ _ h _ => h]
  constructor
  · rintro ⟨-, t, ht, himp⟩
    obtain rfl := Option.some.inj ht
    exact himp
  · exact fun himp => ⟨0, _, rfl, himp⟩

theorem correct_binary {g : IntervalSet Point → IntervalSet Point → IntervalSet Point}
    (hs₁ : e₁.eval n₁ = some s₁) (hs₂ : e₂.eval n₂ = some s₂)
    (heval : ∀ fuel, e'.eval fuel =
      (e₁.eval fuel).bind fun s => (e₂.eval fuel).bind fun t => some (g s t)) :
    e'.Correct ↔ Implements (g s₁ s₂) e'.denote := by
  constructor
  · rintro ⟨fuel, t, ht, himp⟩
    obtain ⟨s₁', hs₁', ht⟩ := Option.bind_eq_some_iff.1 ((heval fuel).symm.trans ht)
    obtain ⟨s₂', hs₂', ht⟩ := Option.bind_eq_some_iff.1 ht
    obtain rfl := eval_det hs₁ hs₁'
    obtain rfl := eval_det hs₂ hs₂'
    obtain rfl := Option.some.inj ht
    exact himp
  · intro himp
    refine ⟨max n₁ n₂, g s₁ s₂, ?_, himp⟩
    rw [heval, eval_mono hs₁ (le_max_left ..), eval_mono hs₂ (le_max_right ..)]
    rfl

end Steps

omit [IntervalDomain Point] in
theorem mem_parts (e : SetExpr Point) : e ∈ e.parts := by
  cases e <;> simp [parts]

theorem mem_intervals_iff {s : IntervalSet Point} {S : Set Point} (hs : Implements s S)
    {a b : Point} : (a, b) ∈ s.intervals ↔ IsRun S a b := by
  obtain ⟨hsep, rfl⟩ := implements_iff.1 hs
  exact hsep.mem_iff

theorem straddles_iff {s₁ s₂ : IntervalSet Point} {S₁ S₂ : Set Point} (hs₁ : Implements s₁ S₁)
    (hs₂ : Implements s₂ S₂) : Straddles s₁.intervals s₂.intervals ↔
      ∃ a b c d, IsRun S₁ a b ∧ IsRun S₂ c d ∧ a < c ∧ c ≤ b ∧ b < d := by
  constructor
  · rintro ⟨⟨a, b⟩, hi, ⟨c, d⟩, hj, h⟩
    exact ⟨a, b, c, d, (mem_intervals_iff hs₁).1 hi, (mem_intervals_iff hs₂).1 hj, h⟩
  · rintro ⟨a, b, c, d, hi, hj, h⟩
    exact ⟨(a, b), (mem_intervals_iff hs₁).2 hi, (c, d), (mem_intervals_iff hs₂).2 hj, h⟩

theorem correct_leaf {e : SetExpr Point} {s : IntervalSet Point} (h : e.eval 0 = some s)
    (himp : Implements s e.denote) : e.Correct :=
  ⟨0, s, h, himp⟩

/-- **The sets that a program builds are right exactly when its steps are safe.** -/
theorem correct_iff_safe (e : SetExpr Point) : (∀ e' ∈ e.parts, e'.Correct) ↔ e.Safe := by
  induction e with
  | empty => simpa [parts, Safe] using correct_leaf rfl implements_empty
  | all => simpa [parts, Safe] using correct_leaf rfl implements_universe
  | singleton x => simpa [parts, Safe] using correct_leaf rfl (implements_singleton x)
  | interval a b hab =>
    have h := implements_interval a b
    rw [if_pos hab] at h
    obtain ⟨s, hs, himp⟩ := h
    have heval : (interval a b hab).eval 0 = some s := by simp [eval, hs, Except.toOption]
    simpa [parts, Safe] using correct_leaf heval himp
  | fromList items =>
    obtain ⟨s, hs, himp⟩ := implements_fromList items
    simpa [parts, Safe] using correct_leaf (e := fromList items) hs himp
  | add e x ih =>
    rw [parts, List.forall_mem_cons, ih, Safe]
    refine and_iff_right_of_imp fun hsafe => ?_
    obtain ⟨n, s, hs, himp⟩ := ih.2 hsafe e (mem_parts e)
    obtain ⟨t, ht, htimp⟩ := implements_add himp x
    exact (correct_unary (f := fun _ s => IntervalSet.add s x) hs (fun _ => rfl)
      fun _ _ _ _ h _ => h).2 ⟨0, t, ht, htimp⟩
  | addInt e a b hab ih =>
    rw [parts, List.forall_mem_cons, ih, Safe]
    refine and_iff_right_of_imp fun hsafe => ?_
    obtain ⟨n, s, hs, himp⟩ := ih.2 hsafe e (mem_parts e)
    have h := implements_addInt himp a b
    rw [if_pos hab] at h
    obtain ⟨t, ht, htimp⟩ := h
    exact (correct_unary (f := fun _ s => (IntervalSet.addInt s (a, b)).toOption) hs
      (fun _ => rfl) fun _ _ _ _ h _ => h).2 ⟨0, t, by simp [ht, Except.toOption], htimp⟩
  | complement e ih =>
    rw [parts, List.forall_mem_cons, ih, Safe, and_comm]
    refine and_congr_right fun hsafe => ?_
    obtain ⟨n, s, hs, himp⟩ := ih.2 hsafe e (mem_parts e)
    rw [correct_unary_total hs (fun _ => rfl)]
    exact implements_complement_iff himp
  | filterInt p e ih =>
    rw [parts, List.forall_mem_cons, ih, Safe]
    refine and_iff_right_of_imp fun hsafe => ?_
    obtain ⟨n, s, hs, himp⟩ := ih.2 hsafe e (mem_parts e)
    rw [correct_unary_total hs (fun _ => rfl)]
    convert implements_filterInt himp.separated p using 1
    ext x
    simp [denote, ← mem_intervals_iff himp]
  | filter p e ih =>
    rw [parts, List.forall_mem_cons, ih, Safe, and_comm]
    refine and_congr_right fun hsafe => ?_
    obtain ⟨n, s, hs, himp⟩ := ih.2 hsafe e (mem_parts e)
    rw [correct_unary (f := fun fuel => IntervalSet.filter fuel p) hs (fun _ => rfl)
      fun _ _ _ _ h hf => filter'_mono h hf, denote, implements_filter_iff himp, Prod.forall]
    simp [mem_intervals_iff himp]
  | union e₁ e₂ ih₁ ih₂ =>
    rw [parts, List.forall_mem_cons, List.forall_mem_append, ih₁, ih₂, Safe, and_comm]
    refine and_congr_right fun hsafe => ?_
    obtain ⟨n₁, s₁, hs₁, himp₁⟩ := ih₁.2 hsafe.1 e₁ (mem_parts e₁)
    obtain ⟨n₂, s₂, hs₂, himp₂⟩ := ih₂.2 hsafe.2 e₂ (mem_parts e₂)
    rw [correct_binary hs₁ hs₂ (fun _ => rfl), denote, implements_union_iff himp₁ himp₂,
      straddles_iff himp₁ himp₂]
  | intersect e₁ e₂ ih₁ ih₂ =>
    rw [parts, List.forall_mem_cons, List.forall_mem_append, ih₁, ih₂, Safe]
    refine and_iff_right_of_imp fun hsafe => ?_
    obtain ⟨n₁, s₁, hs₁, himp₁⟩ := ih₁.2 hsafe.1 e₁ (mem_parts e₁)
    obtain ⟨n₂, s₂, hs₂, himp₂⟩ := ih₂.2 hsafe.2 e₂ (mem_parts e₂)
    rw [correct_binary hs₁ hs₂ (fun _ => rfl)]
    exact implements_intersect himp₁ himp₂
  | difference e₁ e₂ ih₁ ih₂ =>
    rw [parts, List.forall_mem_cons, List.forall_mem_append, ih₁, ih₂, Safe, and_comm]
    refine and_congr_right fun hsafe => ?_
    obtain ⟨n₁, s₁, hs₁, himp₁⟩ := ih₁.2 hsafe.1 e₁ (mem_parts e₁)
    obtain ⟨n₂, s₂, hs₂, himp₂⟩ := ih₂.2 hsafe.2 e₂ (mem_parts e₂)
    rw [correct_binary hs₁ hs₂ (fun _ => rfl)]
    exact implements_difference_iff himp₁ himp₂

end SetExpr

/-! ### All programs -/

/-- The domain of the numbers up to a bound. -/
instance (n : ℕ) : IntervalDomain (Fin (n + 1)) where
  isSucc a b := decide (a.val + 1 = b.val)
  isSucc_iff a b := by
    rw [decide_eq_true_iff]
    constructor
    · intro h
      refine ⟨Fin.lt_def.2 (by omega), fun c hac hcb => ?_⟩
      rw [Fin.lt_def] at hac hcb
      omega
    · intro h
      by_contra hne
      have hab : a.val < b.val := Fin.lt_def.1 h.lt
      exact h.2 (c := ⟨a.val + 1, by omega⟩) (Fin.lt_def.2 (by simp))
        (Fin.lt_def.2 (by simp; omega))

/-- **Interval sets implement sets of points.**  Every step of a program that builds sets yields
an ordered list of disjoint, non-adjacent intervals with the points that the step stands for
exactly when no step complements a set that has the point before the greatest one but not the
greatest one, which a difference does with its second set when the first one has the greatest
point, no step joins a set to one into which one of its runs reaches from below, and no step
filters an interval past whose end the loop runs.  The tests then agree with the sets of
points. -/
theorem sets_correct (Point : Type*) [LinearOrder Point] [IntervalDomain Point] :
    (∀ e : SetExpr Point, (∀ e' ∈ e.parts, e'.Correct) ↔ e.Safe) ∧
      ∀ e₁ e₂ : SetExpr Point, e₁.Safe → e₂.Safe →
        ∃ fuel s₁ s₂, e₁.eval fuel = some s₁ ∧ e₂.eval fuel = some s₂ ∧
          (IntervalSet.compare s₁ s₂ = .eq ↔ e₁.denote = e₂.denote) ∧
          (isSubset s₁ s₂ = true ↔ e₁.denote ⊆ e₂.denote) ∧
          (isUniverse s₁ = true ↔ e₁.denote = Set.univ) ∧
          (isEmpty s₁ = true ↔ e₁.denote = ∅) := by
  refine ⟨SetExpr.correct_iff_safe, fun e₁ e₂ h₁ h₂ => ?_⟩
  obtain ⟨n₁, s₁, hs₁, himp₁⟩ := (SetExpr.correct_iff_safe e₁).2 h₁ e₁ (SetExpr.mem_parts e₁)
  obtain ⟨n₂, s₂, hs₂, himp₂⟩ := (SetExpr.correct_iff_safe e₂).2 h₂ e₂ (SetExpr.mem_parts e₂)
  exact ⟨max n₁ n₂, s₁, s₂, SetExpr.eval_mono hs₁ (le_max_left ..),
    SetExpr.eval_mono hs₂ (le_max_right ..), compare_eq_iff himp₁ himp₂,
    isSubset_iff himp₁ himp₂, isUniverse_iff himp₁, isEmpty_iff himp₁⟩

/-- A program whose step is safe: the sets of the points from 0 to 2 and from 3 to 5 are joined,
which gives all points. -/
theorem sets_correct_fin :
    (SetExpr.union (.interval 0 2 (by decide)) (.interval 3 5 (by decide)) :
        SetExpr (Fin 6)).Correct ∧
      ∃ fuel, ∃ s₁ s₂ : IntervalSet (Fin 6),
        (SetExpr.interval 0 2 (by decide)).eval fuel = some s₁ ∧
        (SetExpr.interval 3 5 (by decide)).eval fuel = some s₂ ∧
        (IntervalSet.compare s₁ s₂ = .eq ↔ Icc (0 : Fin 6) 2 = Icc 3 5) := by
  obtain ⟨hiff, htests⟩ := sets_correct (Fin 6)
  have hsafe : (SetExpr.union (.interval 0 2 (by decide)) (.interval 3 5 (by decide)) :
      SetExpr (Fin 6)).Safe := by
    refine ⟨⟨trivial, trivial⟩, ?_⟩
    rintro ⟨a, b, c, d, hab, hcd, -, hcb, -⟩
    have hb : b ≤ 2 := (hab.subset ⟨hab.le, le_rfl⟩).2
    have hc : 3 ≤ c := (hcd.subset ⟨le_rfl, hcd.le⟩).1
    exact absurd ((hc.trans hcb).trans hb) (by decide)
  obtain ⟨fuel, s₁, s₂, h₁, h₂, hcmp, -⟩ :=
    htests (.interval 0 2 (by decide)) (.interval 3 5 (by decide)) trivial trivial
  exact ⟨(hiff _).2 hsafe _ (SetExpr.mem_parts _), fuel, s₁, s₂, h₁, h₂, hcmp⟩

/-- The operations do not always yield what they stand for: in the domain of the numbers up to
five, the union of the sets of the points from 0 to 2 and from 1 to 4 has two overlapping
intervals, the complement of the set of the points from 0 to 4 lacks the point 5, and the filter
of the set of the point 3 does not end. -/
theorem not_sets_correct :
    ¬(SetExpr.union (.interval 0 2 (by decide)) (.interval 1 4 (by decide)) :
        SetExpr (Fin 6)).Correct ∧
      ¬(SetExpr.complement (.interval 0 4 (by decide)) : SetExpr (Fin 6)).Correct ∧
      ¬(SetExpr.filter (fun _ => true) (.singleton 3) : SetExpr (Fin 6)).Correct := by
  refine ⟨?_, ?_, ?_⟩
  · rintro ⟨fuel, s, hs, himp⟩
    have hval : union (SET [(0, 2)]) (SET [(1, 4)]) =
        (SET [(0, 2), (1, 4)] : IntervalSet (Fin 6)) := by
      have h₁ : compare (0 : Fin 6) 1 = .lt := by decide
      have h₂ : compare (2 : Fin 6) 4 = .lt := by decide
      have h₃ : isSucc (2 : Fin 6) 1 = false := by decide
      simp [union, union.join, h₁, h₂, h₃]
    have hs : some (union (SET [(0, 2)]) (SET [(1, 4)])) = some s := hs
    rw [hval] at hs
    obtain rfl := Option.some.inj hs
    have hgap : succ (2 : Fin 6) < 1 :=
      ((above_cons ..).1 (separated_cons.1 himp.separated).2.1).1
    exact absurd hgap (by decide)
  · rintro ⟨fuel, s, hs, himp⟩
    have hval : complement (SET [(0, 4)]) = (SET [] : IntervalSet (Fin 6)) := by decide
    have hs : some (complement (SET [(0, 4)])) = some s := hs
    rw [hval] at hs
    obtain rfl := Option.some.inj hs
    have hmem : member (SET [] : IntervalSet (Fin 6)) 5 = true := by
      rw [himp.member_iff]
      rintro ⟨-, h⟩
      exact absurd h (by decide)
    exact Bool.false_ne_true hmem
  · rintro ⟨fuel, s, hs, himp⟩
    have hs : filter fuel (fun _ => true) (SET [(3, 3)]) = some s := hs
    have hends := filterEnds_of_filter' hs (3, 3) List.mem_cons_self
    rcases hends.2 with h | h
    · exact absurd h (by decide)
    · exact Bool.false_ne_true h.symm

end SmlNj.IntervalSet
