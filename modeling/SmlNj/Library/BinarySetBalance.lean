import SmlNj.Library.BinarySetOps

/-!
# The balance of sets

The criterion of bounded balance over whole runs: sets are built from the empty set
and singletons by adding, deleting, and by the three operations on two sets, and a run
records all calls of `T'` that it makes.  As long as every call restores the criterion,
every set that is reached is in balance.  A run that only adds shows that this is no
formality: `T'` chooses its rotation by the sizes of two grandchildren, and a single
rotation may put a grandchild beside a tree that is more than three times smaller.

## Main definitions

* `BinarySet.History` — the sets that runs reach, with the calls of `T'` they made.

## Main results

* `BinarySet.balanced_of_restores` — the balance of everything that is reached.
* `BinarySet.adds_out_of_balance` — a run of thirteen additions that loses it.
-/

namespace SmlNj.BinarySet

open BinarySet.Tree CompareSets

variable {α : Type} (compare : α → α → Ordering)

/-- The sets that runs reach, with the log of the calls of `T'`. -/
inductive History : Tree α → List (Call α) → Prop
  | empty : History empty []
  | singleton (x : α) : History (singleton x) []
  | add {s t : Tree α} {log log' : List (Call α)} (x : α) : History s log →
      (add compare s x).run log = .ok (t, log') → History t log'
  | delete {s t : Tree α} {log log' : List (Call α)} (x : α) : History s log →
      (delete compare s x).run log = .ok (t, log') → History t log'
  | union {s s' t : Tree α} {log log' log'' : List (Call α)} : History s log →
      History s' log' → (union compare s s').run (log ++ log') = .ok (t, log'') →
      History t log''
  | intersection {s s' t : Tree α} {log log' log'' : List (Call α)} : History s log →
      History s' log' → (intersection compare s s').run (log ++ log') = .ok (t, log'') →
      History t log''
  | difference {s s' t : Tree α} {log log' log'' : List (Call α)} : History s log →
      History s' log' → (difference compare s s').run (log ++ log') = .ok (t, log'') →
      History t log''

variable {compare} [Std.TransCmp compare] {s s' t : Tree α} {log log' log'' : List (Call α)}

omit [Std.TransCmp compare] in
theorem Gives.step {m : M α (Tree α)} {S : Set α} {Q : Tree α → Prop}
    (h : Gives m (Rep compare · S) Q) (hrun : m.run log = .ok (t, log')) :
    Rep compare t (setOf compare t) ∧
      ((∀ c ∈ log', Restores c) → (∀ c ∈ log, Restores c) ∧ Q t) := by
  obtain ⟨t', new, hrun', hrep, hQ⟩ := h log
  rw [hrun'] at hrun
  cases hrun
  refine ⟨⟨hrep.counted, hrep.ascending, rfl⟩, fun hres => ⟨fun c hc => ?_, ?_⟩⟩
  · exact hres c (List.mem_append_right new hc)
  · exact hQ fun c hc => hres c (List.mem_append_left log hc)

theorem mem_of_delete {x : α} (h : Rep compare s (setOf compare s))
    (hrun : (delete compare s x).run log = .ok (t, log')) : x ∈ setOf compare s := by
  by_contra hx
  rw [delete_notFound h hx] at hrun
  cases hrun

omit [Std.TransCmp compare] in
theorem restores_append (h : ∀ c ∈ log ++ log', Restores c) :
    (∀ c ∈ log, Restores c) ∧ ∀ c ∈ log', Restores c :=
  List.forall_mem_append.mp h

/-- What every run keeps: the order and the counts, and the balance as long as the
calls restore it.  The induction is on the run. -/
theorem History.kept (h : History compare t log) :
    Rep compare t (setOf compare t) ∧ ((∀ c ∈ log, Restores c) → Balanced t) := by
  induction h with
  | empty => exact ⟨Built.empty.rep, fun _ => trivial⟩
  | singleton x => exact ⟨(Built.singleton x).rep, fun _ => ⟨by simp [OkSizes], trivial, trivial⟩⟩
  | add x _ hrun ih =>
    obtain ⟨hrep, hbal⟩ := (add_spec x ih.1).step hrun
    refine ⟨hrep, fun hres => ?_⟩
    obtain ⟨hlog, hbal⟩ := hbal hres
    exact hbal (ih.2 hlog)
  | delete x _ hrun ih =>
    obtain ⟨hrep, hbal⟩ := (delete_spec ih.1 (mem_of_delete ih.1 hrun)).step hrun
    refine ⟨hrep, fun hres => ?_⟩
    obtain ⟨hlog, hbal⟩ := hbal hres
    exact hbal (ih.2 hlog)
  | union _ _ hrun ih ih' =>
    obtain ⟨hrep, hbal⟩ := (union_spec ih.1 ih'.1).step hrun
    refine ⟨hrep, fun hres => ?_⟩
    obtain ⟨hlogs, hbal⟩ := hbal hres
    obtain ⟨hlog, hlog'⟩ := restores_append hlogs
    exact hbal (ih.2 hlog) (ih'.2 hlog')
  | intersection _ _ hrun ih ih' =>
    obtain ⟨hrep, hbal⟩ := (intersection_spec ih.1 ih'.1).step hrun
    refine ⟨hrep, fun hres => ?_⟩
    obtain ⟨hlogs, hbal⟩ := hbal hres
    obtain ⟨hlog, hlog'⟩ := restores_append hlogs
    exact hbal (ih.2 hlog) (ih'.2 hlog')
  | difference _ _ hrun ih ih' =>
    obtain ⟨hrep, hbal⟩ := (difference_spec ih.1 ih'.1).step hrun
    refine ⟨hrep, fun hres => ?_⟩
    obtain ⟨hlogs, hbal⟩ := hbal hres
    -- the subtrahend gives no nodes to the result
    exact hbal (ih.2 (restores_append hlogs).1)

/-- **The balance of sets.**  In a run whose calls of `T'` all restore the criterion,
every set that is reached is in balance. -/
theorem balanced_of_restores (h : History compare t log) (hres : ∀ c ∈ log, Restores c) :
    Balanced t := h.kept.2 hres

omit [Std.TransCmp compare] in
theorem History.adds (l : List α) : ∀ {s : Tree α} {log : List (Call α)}, History compare s log →
    (l.foldlM (BinarySet.add compare) s).run log = .ok (t, log') → History compare t log' := by
  induction l with
  | nil =>
    intro s log hs hrun
    cases hrun
    exact hs
  | cons x l ih =>
    intro s log hs hrun
    rw [List.foldlM_cons, StateT.run_bind] at hrun
    cases hadd : (BinarySet.add compare s x).run log with
    | error e =>
      rw [hadd] at hrun
      cases hrun
    | ok b =>
      rw [hadd] at hrun
      exact ih (.add x hs hadd) hrun

/-- Three items, added in ascending order, are rotated into balance. -/
theorem balanced_of_restores_three : Balanced (T 2 3 (T 1 1 E E) (T 3 1 E E)) := by
  refine @balanced_of_restores ℕ Ord.compare inferInstance _
    [⟨1, E, T 2 2 E (T 3 1 E E)⟩, ⟨2, E, T 3 1 E E⟩, ⟨1, E, T 2 1 E E⟩]
    (History.adds [2, 3] (History.singleton 1) rfl) ?_
  simp [Restores, RestoresLeft, SingleOk, DoubleOk, OkSizes]

instance (a b : ℕ) : Decidable (OkSizes a b) := by
  unfold OkSizes
  infer_instance

instance decidableBalanced : (t : Tree α) → Decidable (Balanced t)
  | E => .isTrue trivial
  | T _ _ left right =>
      have := decidableBalanced left
      have := decidableBalanced right
      inferInstanceAs (Decidable (OkSizes (size left) (size right) ∧ Balanced left ∧
        Balanced right))

/-- A run of thirteen additions that ends out of balance: a single rotation has put a
subtree of four elements beside a single one. -/
theorem adds_out_of_balance :
    ∃ (t : Tree ℕ) (log : List (Call ℕ)),
      ([5, 1, 11, 10, 12, 13, 4, 8, 6, 7, 2, 9, 3].foldlM (add Ord.compare) empty).run [] =
        .ok (t, log) ∧ History Ord.compare t log ∧ ¬ Balanced t := by
  have hrun : (match ([5, 1, 11, 10, 12, 13, 4, 8, 6, 7, 2, 9, 3].foldlM (add Ord.compare)
      (empty : Tree ℕ)).run [] with
    | .ok (t, _) => !decide (Balanced t)
    | .error _ => false) = true := by decide +kernel
  split at hrun
  · rename_i t log hok
    exact ⟨t, log, hok, .adds _ .empty hok, by simpa using hrun⟩
  · cases hrun

end SmlNj.BinarySet
