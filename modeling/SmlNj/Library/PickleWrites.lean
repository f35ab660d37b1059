import SmlNj.Library.PickleTree

/-!
# What a pickler writes

The hash-consing map is a table of shapes: the codes of a pickle are the
positions of the nodes that it consists of.  A pickle of a tree keeps that
table, marks only nodes of the tree, and the text that it yields holds the tree
whenever it is put into a text that already holds the nodes of the table.

What a pickle is given and what it yields is stated once, as `Written`, and
each combinator keeps it.

## Main definitions

* `Table`, `Hashes` — the table behind a hash-consing map.
* `Inv`, `Ready` — the states that a pickle may start from.
* `Written`, `Writes` — what one pickle does.

## Main results

* `writes_both`, `writes_nullary`, `writes_dollar`, `writes_lazy`,
  `writes_ahShare` — the combinators.
-/

namespace SmlNj.PickleUtil

open List (Forall₂)

/-! ### The table of the nodes -/

/-- The position at which a node of a shape begins, and the position at which it ends. -/
abbrev Table := Shape → Option (ℕ × ℕ)

namespace Table

def Id (tab : Table) (s : Shape) (i : ℕ) : Prop := ∃ e, tab s = some (i, e)

theorem Id.unique {tab : Table} {s : Shape} {i j : ℕ} (hi : tab.Id s i) (hj : tab.Id s j) :
    i = j := by
  obtain ⟨e, he⟩ := hi
  obtain ⟨e', he'⟩ := hj
  rw [he] at he'
  exact congrArg Prod.fst (Option.some.inj he')

theorem codes_unique {tab : Table} {args : List Shape} {codes codes' : List ℕ}
    (h : Forall₂ tab.Id args codes) (h' : Forall₂ tab.Id args codes') : codes = codes' := by
  induction h generalizing codes' with
  | nil =>
    cases h'
    rfl
  | cons hd _ ih =>
    cases h' with
    | cons hd' tl' => rw [hd.unique hd', ih tl']

def insert (tab : Table) (s : Shape) (x : ℕ × ℕ) : Table :=
  Function.update tab s (some x)

theorem insert_self (tab : Table) (s : Shape) (x : ℕ × ℕ) : tab.insert s x s = some x := by
  rw [insert, Function.update_self]

theorem insert_of_ne {tab : Table} {s s' : Shape} (h : s' ≠ s) (x : ℕ × ℕ) :
    tab.insert s x s' = tab s' := by
  rw [insert, Function.update_of_ne h]

theorem insert_mono {tab : Table} {s : Shape} (hs : tab s = none) (x : ℕ × ℕ) {s' : Shape}
    {y : ℕ × ℕ} (h : tab s' = some y) : tab.insert s x s' = some y := by
  rw [insert_of_ne, h]
  rintro rfl
  rw [hs] at h
  cases h

theorem of_insert {tab : Table} {s s' : Shape} {x y : ℕ × ℕ} (h : tab.insert s x s' = some y) :
    s' = s ∧ y = x ∨ tab s' = some y := by
  by_cases hs : s' = s
  · subst hs
    rw [insert_self] at h
    exact Or.inl ⟨rfl, (Option.some.inj h).symm⟩
  · rw [insert_of_ne hs] at h
    exact Or.inr h

end Table

/-- The hash-consing map has the nodes of the table under their constructors and codes. -/
structure Hashes (hcm : Key → Option ℕ) (tab : Table) : Prop where
  key : ∀ {ti c args i}, tab.Id (.node ti c args) i →
    ∃ codes, Forall₂ tab.Id args codes ∧ hcm (c, ti, codes) = some i
  shape : ∀ {ti c codes i}, hcm (c, ti, codes) = some i →
    ∃ args, Forall₂ tab.Id args codes ∧ tab.Id (.node ti c args) i
  inj : ∀ {s s' i}, tab.Id s i → tab.Id s' i → s = s'

namespace Hashes

variable {hcm : Key → Option ℕ} {tab : Table}

theorem args_unique (h : Hashes hcm tab) {args args' : List Shape} {codes : List ℕ}
    (ha : Forall₂ tab.Id args codes) (ha' : Forall₂ tab.Id args' codes) : args = args' := by
  induction ha generalizing args' with
  | nil =>
    cases ha'
    rfl
  | cons hd _ ih =>
    cases ha' with
    | cons hd' tl' => rw [h.inj hd hd', ih tl']

theorem id_of_key (h : Hashes hcm tab) {ti : ℤ} {c : Str} {args : List Shape} {codes : List ℕ}
    {i : ℕ} (hargs : Forall₂ tab.Id args codes) (hk : hcm (c, ti, codes) = some i) :
    tab.Id (.node ti c args) i := by
  obtain ⟨args', hargs', hid⟩ := h.shape hk
  rw [h.args_unique hargs hargs']
  exact hid

theorem exists_id (h : Hashes hcm tab) : ∀ {T : Tree},
    (∀ s ∈ T.shapes, ∃ i, tab.Id s i) →
    ∀ {ti c arg}, .node ti c arg ∈ T.nodes → ∃ i, tab.Id (.node ti c arg.shapes) i
  | .nil, _, _, _, _, hmem => absurd hmem List.not_mem_nil
  | .and T V, hs, _, _, _, hmem => by
    rcases List.mem_append.1 hmem with hmem | hmem
    · exact exists_id h (fun s hmem => hs s (List.mem_append_left _ hmem)) hmem
    · exact exists_id h (fun s hmem => hs s (List.mem_append_right _ hmem)) hmem
  | .thunk T, hs, _, _, _, hmem => exists_id (T := T) h hs hmem
  | .node ti c arg, hs, _, _, _, hmem => by
    obtain ⟨i, hid⟩ := hs _ (List.mem_singleton_self _)
    rcases List.mem_cons.1 hmem with heq | hmem
    · cases heq
      exact ⟨i, hid⟩
    · obtain ⟨codes, hcodes, _⟩ := h.key hid
      refine exists_id h (fun s hmem => ?_) hmem
      obtain ⟨n, hn, rfl⟩ := List.getElem_of_mem hmem
      exact ⟨_, hcodes.get hn (hcodes.length_eq ▸ hn)⟩

theorem insert (h : Hashes hcm tab) {ti : ℤ} {c : Str} {args : List Shape} {codes : List ℕ}
    {n : ℕ} (e : ℕ) (hargs : Forall₂ tab.Id args codes) (hk : hcm (c, ti, codes) = none)
    (hn : ∀ s, ¬tab.Id s n) :
    tab (.node ti c args) = none ∧
      Hashes (Function.update hcm (c, ti, codes) (some n))
        (tab.insert (.node ti c args) (n, e)) := by
  have hnone : tab (.node ti c args) = none := by
    by_contra hne
    obtain ⟨⟨i, e'⟩, he⟩ := Option.ne_none_iff_exists'.1 hne
    obtain ⟨codes', hcodes', hk'⟩ := h.key ⟨e', he⟩
    rw [← Table.codes_unique hargs hcodes', hk] at hk'
    cases hk'
  have hmono : ∀ {s i}, tab.Id s i → (tab.insert (.node ti c args) (n, e)).Id s i :=
    fun ⟨e', he⟩ => ⟨e', Table.insert_mono hnone _ he⟩
  refine ⟨hnone, ⟨?_, ?_, ?_⟩⟩
  · rintro ti' c' args' i ⟨e', he⟩
    rcases Table.of_insert he with ⟨hs, hx⟩ | he
    · cases hs
      cases hx
      exact ⟨codes, hargs.imp fun _ _ => hmono, by rw [Function.update_self]⟩
    · obtain ⟨codes', hcodes', hk'⟩ := h.key ⟨e', he⟩
      refine ⟨codes', hcodes'.imp fun _ _ => hmono, ?_⟩
      rw [Function.update_of_ne, hk']
      intro heq
      rw [heq, hk] at hk'
      cases hk'
  · intro ti' c' codes' i hk'
    by_cases heq : (c', ti', codes') = (c, ti, codes)
    · rw [heq, Function.update_self] at hk'
      cases heq
      cases hk'
      exact ⟨args, hargs.imp fun _ _ => hmono, e, Table.insert_self _ _ _⟩
    · rw [Function.update_of_ne heq] at hk'
      obtain ⟨args', hargs', hid⟩ := h.shape hk'
      exact ⟨args', hargs'.imp fun _ _ => hmono, hmono hid⟩
  · rintro s s' i ⟨e₁, h₁⟩ ⟨e₂, h₂⟩
    rcases Table.of_insert h₁ with ⟨rfl, hx₁⟩ | h₁ <;>
      rcases Table.of_insert h₂ with ⟨rfl, hx₂⟩ | h₂
    · rfl
    · cases hx₁
      exact absurd ⟨e₂, h₂⟩ (hn s')
    · cases hx₂
      exact absurd ⟨e₁, h₁⟩ (hn s)
    · exact h.inj ⟨e₁, h₁⟩ ⟨e₂, h₂⟩

end Hashes

/-! ### The states of a pickle -/

variable {ahm : Type} {st st' st'' : State ahm} {tab tab' tab'' : Table}

/-- The invariant of the state. -/
structure Inv (st : State ahm) (tab : Table) : Prop where
  hashes : Hashes st.hcm tab
  id_lt : ∀ {s i}, tab.Id s i → i < st.next
  fwdm_lt : ∀ {p i}, st.fwdm p = some i → p < st.next

/-- A position in the user's map stands for a node with the tree of its value. -/
def Known (tab : Table) (st : State ahm) (t : Ty) (v : Val t) (p : ℕ) : Prop :=
  p < st.next ∧ ∃ s, (treeOf t v).shapes = [s] ∧ tab.Id s ((st.fwdm p).getD p)

/-- How deep ad-hoc sharing is nested in a type. -/
def Ty.depth : Ty → ℕ
  | .int | .word | .bool | .string | .intinf => 0
  | .list t | .option t | .lazy t => t.depth
  | .pair t u => max t.depth u.depth
  | .shared t => t.depth + 1

variable (sh : ∀ t, AdHoc ahm (Val t)) (U : List Tree)

/-- The user's map before a pickle in which ad-hoc sharing is nested up to `b` deep, and whose
values under `bare` ad-hoc sharing are new.  Values of deeper types may be in the map while they
are pickled themselves. -/
structure Ready (b : ℕ) (bares : List (Σ t, Val t)) (st : State ahm) (tab : Table) : Prop where
  known : ∀ {t v p}, t.isNode = true → t.depth < b → (sh t).find st.ahm v = some p →
    Known tab st t v p
  bare : ∀ x ∈ bares, (sh x.1).find st.ahm x.2 = none

/-- The marked positions are those of sharable nodes, as far as they are in the table, and those
between `lo` and `hi` are in the table. -/
structure Fits (M : Finset ℕ) (Θ : ℕ → Tree × ℕ) (tab : Table) (lo hi : ℕ) : Prop where
  shared : ∀ {s m e}, tab s = some (m, e) → m ∈ M → ∃ ti c arg,
    .node ti c arg ∈ U ∧ s = .node ti c arg.shapes ∧ Sharable ti c ∧ Θ m = (.node ti c arg, e)
  ids : ∀ {m}, m ∈ M → lo ≤ m → m < hi → ∃ s, tab.Id s m

def Kept (text : Str) (M : Finset ℕ) (Θ : ℕ → Tree × ℕ) (tab : Table) : Prop :=
  ∀ {s i e}, tab s = some (i, e) → ∃ ti c arg, .node ti c arg ∈ U ∧ s = .node ti c arg.shapes ∧
    At text i (markAt M i c) ∧ Stored text M Θ arg (i + c.length) e

/-- **What a pickle has done** when it has taken a state to another one. -/
structure Written (nd : Bool) (bares : List (Σ t, Val t)) (T : Tree) (st : State ahm)
    (tab : Table) (codes : List ℕ) (pr : PreResult) (st' : State ahm) (tab' : Table) : Prop where
  inv : Inv st' tab'
  next : st'.next = st.next + preSize pr
  pos : T.shapes ≠ [] → 0 < preSize pr
  le : ∀ {s x}, tab s = some x → tab' s = some x
  coded : Forall₂ tab'.Id T.shapes codes
  /-- New nodes are nodes of the tree, and begin where a string begins. -/
  new : ∀ {ti c args i}, tab'.Id (.node ti c args) i → tab.Id (.node ti c args) i ∨
    st.next ≤ i ∧ ChunkAt pr st.next i c ∧ ∃ a ∈ T.nodes, a.shapes = [.node ti c args]
  si : st.si ⊆ st'.si
  mark : ∀ {m}, m ∈ st'.si → m ∈ st.si ∨ ∃ ti c arg,
    .node ti c arg ∈ T.nodes ∧ Sharable ti c ∧ tab'.Id (.node ti c arg.shapes) m
  fwdm : ∀ {p}, p < st.next → st'.fwdm p = st.fwdm p
  /-- The position of a node is forwarded to its code. -/
  anchor : nd = true → codes = [(st'.fwdm st.next).getD st.next]
  found : ∀ {t v p}, (sh t).find st'.ahm v = some p → (sh t).find st.ahm v = some p ∨
    if t.isNode then Known tab' st' t v p else ⟨t, v⟩ ∈ bares
  text : ∀ {text M Θ}, Fits U M Θ tab' st.next st'.next → st'.si ⊆ M →
    At text st.next (render M st.next pr) → Kept U text M Θ tab →
    Stored text M Θ T st.next st'.next ∧ Kept U text M Θ tab'

/-- **What a pickle does.** -/
def Writes (nd : Bool) (b : ℕ) (bares : List (Σ t, Val t)) (w : Pickle ahm) (T : Tree) : Prop :=
  ∀ ⦃st tab⦄, Inv st tab → Ready sh b bares st tab → T.nodes ⊆ U → ∃ codes pr st' tab',
    w st = .ok (codes, pr, st') ∧ Written sh U nd bares T st tab codes pr st' tab'

variable {sh U} {nd nd' : Bool} {b b' : ℕ} {bares bares' : List (Σ t, Val t)} {w w' : Pickle ahm}
  {T V : Tree} {codes codes' : List ℕ} {pr pr' : PreResult}

theorem Written.le_id (h : Written sh U nd bares T st tab codes pr st' tab') {s : Shape} {i : ℕ}
    (hid : tab.Id s i) : tab'.Id s i :=
  ⟨_, h.le hid.choose_spec⟩

theorem Written.next_le (h : Written sh U nd bares T st tab codes pr st' tab') :
    st.next ≤ st'.next := by
  rw [h.next]
  exact Nat.le_add_right _ _

theorem Written.known (h : Written sh U nd bares T st tab codes pr st' tab') {t : Ty} {v : Val t}
    {p : ℕ} (hk : Known tab st t v p) : Known tab' st' t v p := by
  obtain ⟨hp, s, hs, hid⟩ := hk
  refine ⟨hp.trans_le h.next_le, s, hs, ?_⟩
  rw [h.fwdm hp]
  exact h.le_id hid

theorem Written.ready (h : Written sh U nd bares T st tab codes pr st' tab')
    (hr : Ready sh b bares' st tab) (hdisj : ∀ x ∈ bares', x ∉ bares)
    (hnode : ∀ x ∈ bares', x.1.isNode = false) : Ready sh b bares' st' tab' where
  known := by
    intro t v p ht hb hfind
    rcases h.found hfind with hfind | hk
    · exact h.known (hr.known ht hb hfind)
    · rw [if_pos ht] at hk
      exact hk
  bare := by
    intro x hx
    by_contra hne
    obtain ⟨p, hfind⟩ := Option.ne_none_iff_exists'.1 hne
    rcases h.found hfind with hfind | hk
    · rw [hr.bare x hx] at hfind
      cases hfind
    · rw [if_neg (by rw [hnode x hx]; exact Bool.false_ne_true)] at hk
      exact hdisj x hx hk

theorem Writes.mono (h : Writes sh U nd b bares w T) (hb : b ≤ b') :
    Writes sh U nd b' bares w T := fun _ _ hinv hr hU =>
  h hinv ⟨fun ht hlt => hr.known ht (hlt.trans_le hb), hr.bare⟩ hU

theorem Writes.weaken (h : Writes sh U nd b bares w T) : Writes sh U false b bares w T := by
  intro st tab hinv hr hU
  obtain ⟨codes, pr, st', tab', heq, hw⟩ := h hinv hr hU
  exact ⟨codes, pr, st', tab', heq, { hw with anchor := fun h => absurd h Bool.false_ne_true }⟩

/-! ### Sequences -/

theorem Fits.left {M : Finset ℕ} {Θ : ℕ → Tree × ℕ} {lo hi : ℕ}
    (h : Fits U M Θ tab'' lo hi) (hw : Written sh U nd bares V st' tab' codes pr st'' tab'')
    (hhi : st'.next ≤ hi) : Fits U M Θ tab' lo st'.next where
  shared hs := h.shared (hw.le hs)
  ids := by
    intro m hm h₁ h₂
    obtain ⟨⟨ti, c, args⟩, hid⟩ := h.ids hm h₁ (h₂.trans_le hhi)
    rcases hw.new hid with hid | ⟨hle, _⟩
    · exact ⟨_, hid⟩
    · omega

theorem Fits.right {M : Finset ℕ} {Θ : ℕ → Tree × ℕ} {lo mid hi : ℕ} (h : Fits U M Θ tab lo hi)
    (hlo : lo ≤ mid) : Fits U M Θ tab mid hi :=
  ⟨h.shared, fun hm h₁ h₂ => h.ids hm (hlo.trans h₁) h₂⟩

theorem Written.and (h : Written sh U nd bares T st tab codes pr st' tab')
    (h' : Written sh U nd' bares' V st' tab' codes' pr' st'' tab'') :
    Written sh U false (bares ++ bares') (.and T V) st tab (codes ++ codes') (.concat pr pr') st''
      tab'' where
  inv := h'.inv
  next := by
    rw [h'.next, h.next, preSize, Nat.add_assoc]
  pos := by
    intro hne
    by_cases hT : T.shapes = []
    · have hV : V.shapes ≠ [] := by
        intro hV
        exact hne (by rw [Tree.shapes, hT, hV, List.append_nil])
      exact Nat.add_pos_right _ (h'.pos hV)
    · exact Nat.add_pos_left (h.pos hT) _
  le hs := h'.le (h.le hs)
  coded := List.rel_append (h.coded.imp fun _ _ => h'.le_id) h'.coded
  new := by
    intro ti c args i hid
    rcases h'.new hid with hid | ⟨hle, hchunk, a, ha, hs⟩
    · rcases h.new hid with hid | ⟨hle, hchunk, a, ha, hs⟩
      · exact Or.inl hid
      · exact Or.inr ⟨hle, Or.inl hchunk, a, List.mem_append_left _ ha, hs⟩
    · rw [h.next] at hchunk
      exact Or.inr ⟨h.next_le.trans hle, Or.inr hchunk, a, List.mem_append_right _ ha, hs⟩
  si := h.si.trans h'.si
  mark := by
    intro m hm
    rcases h'.mark hm with hm | ⟨ti, c, arg, ha, hs, hid⟩
    · rcases h.mark hm with hm | ⟨ti, c, arg, ha, hs, hid⟩
      · exact Or.inl hm
      · exact Or.inr ⟨ti, c, arg, List.mem_append_left _ ha, hs, h'.le_id hid⟩
    · exact Or.inr ⟨ti, c, arg, List.mem_append_right _ ha, hs, hid⟩
  fwdm hp := (h'.fwdm (hp.trans_le h.next_le)).trans (h.fwdm hp)
  anchor h := absurd h Bool.false_ne_true
  found := by
    intro t v p hfind
    rcases h'.found hfind with hfind | hk
    · rcases h.found hfind with hfind | hk
      · exact Or.inl hfind
      · refine Or.inr ?_
        split_ifs at hk ⊢ with ht
        · exact h'.known hk
        · exact List.mem_append_left _ hk
    · refine Or.inr ?_
      split_ifs at hk ⊢ with ht
      · exact hk
      · exact List.mem_append_right _ hk
  text := by
    intro text M Θ hfits hsi hat hkept
    rw [render, at_append, length_render, ← h.next] at hat
    obtain ⟨hT, hkept⟩ := h.text (hfits.left h' h'.next_le) (h'.si.trans hsi) hat.1 hkept
    obtain ⟨hV, hkept⟩ := h'.text (hfits.right h.next_le) hsi hat.2 hkept
    exact ⟨.and hT hV, hkept⟩

theorem writes_both (h : Writes sh U nd b bares w T) (h' : Writes sh U nd' b bares' w' V)
    (hdisj : ∀ x ∈ bares', x ∉ bares) (hnode : ∀ x ∈ bares', x.1.isNode = false) :
    Writes sh U false b (bares ++ bares') (both w w') (.and T V) := by
  intro st tab hinv hr hU
  obtain ⟨codes, pr, st₁, tab₁, heq, hw⟩ :=
    h hinv ⟨hr.known, fun x hx => hr.bare x (List.mem_append_left _ hx)⟩
      fun a ha => hU (List.mem_append_left _ ha)
  have hr₁ : Ready sh b bares' st₁ tab₁ :=
    hw.ready ⟨hr.known, fun x hx => hr.bare x (List.mem_append_right _ hx)⟩ hdisj hnode
  obtain ⟨codes', pr', st₂, tab₂, heq', hw'⟩ :=
    h' hw.inv hr₁ fun a ha => hU (List.mem_append_right _ ha)
  refine ⟨_, _, _, _, ?_, hw.and hw'⟩
  rw [both, heq]
  change (w' st₁ >>= _) = _
  rw [heq']
  rfl

/-! ### Nodes -/

section Nodes

variable {M : Finset ℕ} {Θ : ℕ → Tree × ℕ} {text : Str} {ti : ℤ} {c : Str} {arg : Tree}
  {i lo hi : ℕ}

theorem Fits.node_eq (h : Fits U M Θ tab lo hi) (hcoh : Tree.CoherentOn U)
    (hmem : .node ti c arg ∈ U) {e : ℕ} (hs : tab (.node ti c arg.shapes) = some (i, e))
    (hi : i ∈ M) : Sharable ti c ∧ Θ i = (.node ti c arg, e) := by
  obtain ⟨ti', c', arg', hmem', hshape, hsh, hΘ⟩ := h.shared hs hi
  have heq : Tree.node ti c arg = .node ti' c' arg' :=
    hcoh _ hmem _ hmem' (by rw [Tree.shapes, Tree.shapes, hshape])
  cases heq
  exact ⟨hsh, hΘ⟩

theorem Kept.node_eq (h : Kept U text M Θ tab) (hcoh : Tree.CoherentOn U)
    (hmem : .node ti c arg ∈ U) {e : ℕ} (hs : tab (.node ti c arg.shapes) = some (i, e)) :
    At text i (markAt M i c) ∧ Stored text M Θ arg (i + c.length) e := by
  obtain ⟨ti', c', arg', hmem', hshape, hat, harg⟩ := h hs
  have heq : Tree.node ti c arg = .node ti' c' arg' :=
    hcoh _ hmem _ hmem' (by rw [Tree.shapes, Tree.shapes, hshape])
  cases heq
  exact ⟨hat, harg⟩

theorem render_eq_of_unmarked {p : ℕ} (h : ∀ m ∈ M, p ≤ m → m < p + preSize pr → False) :
    render M p pr = render ∅ p pr :=
  render_congr fun q h₁ h₂ => iff_of_false (fun hq => h q hq h₁ h₂) (Finset.notMem_empty q)

/-- Writing a reference to a node of the table. -/
theorem written_backref (hinv : Inv st tab) (hcoh : Tree.CoherentOn U)
    (hid : tab.Id (.node ti c arg.shapes) i) (hs : Sharable ti c) (hmem : .node ti c arg ∈ U)
    (fwdm : ℕ → Option ℕ) (hfwdm : ∀ p < st.next, fwdm p = st.fwdm p)
    (hle : ∀ {p j}, fwdm p = some j → p ≤ st.next)
    (hnd : nd = true → i = (fwdm st.next).getD st.next) (si : Finset ℕ) (hsi : st.si ⊆ si)
    (hmark : ∀ m ∈ si, m ∈ st.si ∨ ∃ ti c arg', .node ti c arg' ∈ arg.nodes ∧ Sharable ti c ∧
      tab.Id (.node ti c arg'.shapes) m) :
    Written sh U nd bares (.node ti c arg) st tab [i]
      (.concat backref (.string (intEncode i)))
      { st with
        fwdm := fwdm, next := st.next + sizeBackref + (intEncode i).length, si := insert i si }
      tab where
  inv :=
    { hashes := hinv.hashes
      id_lt := fun h => (hinv.id_lt h).trans_le (by rw [Nat.add_assoc]; exact Nat.le_add_right _ _)
      fwdm_lt := fun h => by
        have := hle h
        simp only [sizeBackref]
        omega }
  next := by simp [preSize, backref, sizeBackref, Nat.add_assoc]
  pos _ := Nat.add_pos_left Nat.one_pos _
  le hs := hs
  coded := .cons hid .nil
  new hid := Or.inl hid
  si := hsi.trans (Finset.subset_insert _ _)
  mark := by
    intro m hm
    rcases Finset.mem_insert.1 hm with rfl | hm
    · exact Or.inr ⟨ti, c, arg, List.mem_cons_self, hs, hid⟩
    · rcases hmark m hm with hm | ⟨ti', c', arg', ha, hs', hid'⟩
      · exact Or.inl hm
      · exact Or.inr ⟨ti', c', arg', List.mem_cons_of_mem _ ha, hs', hid'⟩
  fwdm hp := hfwdm _ hp
  anchor h := congrArg (fun j => [j]) (hnd h)
  found hfind := Or.inl hfind
  text := by
    intro text M Θ hfits hsi hat hkept
    obtain ⟨e, he⟩ := hid
    have hi : i ∈ M := hsi (Finset.mem_insert_self _ _)
    obtain ⟨hc, harg⟩ := hkept.node_eq hcoh hmem he
    -- the positions of the reference are no nodes, so that none of them is marked
    have hplain : render M st.next (.concat backref (.string (intEncode i))) =
        backrefChar :: intEncode i := by
      rw [render_eq_of_unmarked]
      · simp only [render, markAt_of_not_mem (Finset.notMem_empty _)]
        rfl
      · intro m hm h₁ h₂
        obtain ⟨s, hs⟩ := hfits.ids hm h₁ (by
          simp only [preSize, backref, sizeBackref, List.length_singleton] at h₂ ⊢
          omega)
        exact absurd (hinv.id_lt hs) (Nat.not_lt.2 h₁)
    rw [hplain] at hat
    exact ⟨.back hat hi (hfits.node_eq hcoh hmem he hi) hc harg, hkept⟩

theorem writes_nullary (hcoh : Tree.CoherentOn U) (hc : c ≠ []) :
    Writes sh U true b bares (nullary ti c) (.node ti c .nil) := by
  intro st tab hinv hr hU
  have hmem : .node ti c .nil ∈ U := hU List.mem_cons_self
  have hpos : 0 < c.length := List.length_pos_of_ne_nil hc
  cases hk : st.hcm (c, ti, []) with
  | some i =>
    have hid : tab.Id (.node ti c []) i := hinv.hashes.id_of_key .nil hk
    refine ⟨[i], .string c, { st with
      fwdm := Function.update st.fwdm st.next (some i), next := st.next + c.length }, tab,
      by rw [nullary, hk], ?_⟩
    exact {
      inv :=
        { hashes := hinv.hashes
          id_lt := fun h => (hinv.id_lt h).trans_le (Nat.le_add_right _ _)
          fwdm_lt := by
            intro p j hp
            by_cases h : p = st.next
            · rw [h]
              exact Nat.lt_add_of_pos_right hpos
            · have hp' : st.fwdm p = some j := by
                rw [← hp]
                exact (Function.update_of_ne h _ _).symm
              exact (hinv.fwdm_lt hp').trans_le (Nat.le_add_right _ _) }
      next := rfl
      pos := fun _ => hpos
      le := id
      coded := .cons hid .nil
      new := Or.inl
      si := Finset.Subset.refl _
      mark := Or.inl
      fwdm := fun hp => Function.update_of_ne hp.ne _ _
      anchor := fun _ => by simp
      found := Or.inl
      text := by
        intro text M Θ hfits hsi hat hkept
        refine ⟨.node hat (fun hM => ?_) .nil, hkept⟩
        obtain ⟨s, hs⟩ := hfits.ids hM le_rfl (Nat.lt_add_of_pos_right hpos)
        exact absurd (hinv.id_lt hs) (Nat.lt_irrefl _) }
  | none =>
    have hnew : ∀ s, ¬tab.Id s st.next := fun s hs => absurd (hinv.id_lt hs) (Nat.lt_irrefl _)
    obtain ⟨hnone, hhash⟩ :=
      hinv.hashes.insert (st.next + c.length) .nil hk hnew
    have hself := Table.insert_self tab (.node ti c []) (st.next, st.next + c.length)
    refine ⟨[st.next], .string c, { st with
      hcm := Function.update st.hcm (c, ti, []) (some st.next), next := st.next + c.length },
      tab.insert (.node ti c []) (st.next, st.next + c.length), by rw [nullary, hk], ?_⟩
    have hcase : ∀ {s j}, (tab.insert (.node ti c []) (st.next, st.next + c.length)).Id s j →
        s = .node ti c [] ∧ j = st.next ∨ tab.Id s j := by
      rintro s j ⟨e, he⟩
      rcases Table.of_insert he with ⟨hs, hx⟩ | he
      · exact Or.inl ⟨hs, congrArg Prod.fst hx⟩
      · exact Or.inr ⟨e, he⟩
    exact {
      inv :=
        { hashes := hhash
          id_lt := by
            intro s j hid
            rcases hcase hid with ⟨_, rfl⟩ | hid
            · exact Nat.lt_add_of_pos_right hpos
            · exact (hinv.id_lt hid).trans_le (Nat.le_add_right _ _)
          fwdm_lt := fun h => (hinv.fwdm_lt h).trans_le (Nat.le_add_right _ _) }
      next := rfl
      pos := fun _ => hpos
      le := Table.insert_mono hnone _
      coded := .cons ⟨_, hself⟩ .nil
      new := by
        intro ti' c' args j hid
        rcases hcase hid with ⟨hs, rfl⟩ | hid
        · cases hs
          exact Or.inr ⟨le_rfl, ⟨rfl, rfl, hc⟩, _, List.mem_cons_self, rfl⟩
        · exact Or.inl hid
      si := Finset.Subset.refl _
      mark := Or.inl
      fwdm := fun _ => rfl
      anchor := fun _ => by
        have : st.fwdm st.next = none := by
          by_contra hne
          obtain ⟨j, hj⟩ := Option.ne_none_iff_exists'.1 hne
          exact absurd (hinv.fwdm_lt hj) (Nat.lt_irrefl _)
        simp [this]
      found := Or.inl
      text := by
        intro text M Θ hfits hsi hat hkept
        refine ⟨.node hat (hfits.node_eq hcoh hmem hself) .nil, ?_⟩
        intro s j e he
        rcases Table.of_insert he with ⟨rfl, hx⟩ | he
        · cases hx
          exact ⟨ti, c, .nil, hmem, rfl, hat, .nil⟩
        · exact hkept he }

theorem Inv.advance (h : Inv st tab) {n : ℕ} (hn : st.next ≤ n) :
    Inv { st with next := n } tab where
  hashes := h.hashes
  id_lt hid := (h.id_lt hid).trans_le hn
  fwdm_lt hp := (h.fwdm_lt hp).trans_le hn

theorem Ready.advance (h : Ready sh b bares st tab) {n : ℕ} (hn : st.next ≤ n) :
    Ready sh b bares { st with next := n } tab where
  known ht hb hfind := by
    obtain ⟨hp, hs⟩ := h.known ht hb hfind
    exact ⟨hp.trans_le hn, hs⟩
  bare := h.bare

theorem Inv.fwdm_next (h : Inv st tab) : st.fwdm st.next = none := by
  by_contra hne
  obtain ⟨j, hj⟩ := Option.ne_none_iff_exists'.1 hne
  exact absurd (h.fwdm_lt hj) (Nat.lt_irrefl _)

/-- What is left of a node that was pickled before: only its marks, and these are on nodes that
were pickled before as well. -/
theorem Written.dropped
    (hw : Written sh U nd bares arg { st with next := hi } tab codes pr st' tab')
    (hinv : Inv st tab) (hk : st.hcm (c, ti, codes) = some i) :
    tab.Id (.node ti c arg.shapes) i ∧
      ∀ m ∈ st'.si, m ∈ st.si ∨ ∃ ti c arg', .node ti c arg' ∈ arg.nodes ∧ Sharable ti c ∧
        tab.Id (.node ti c arg'.shapes) m := by
  obtain ⟨args, hargs, hid⟩ := hinv.hashes.shape hk
  have heq : args = arg.shapes :=
    hw.inv.hashes.args_unique (hargs.imp fun _ _ => hw.le_id) hw.coded
  subst heq
  refine ⟨hid, fun m hm => ?_⟩
  rcases hw.mark hm with hm | ⟨ti', c', arg', ha, hs, hid'⟩
  · exact Or.inl hm
  · have hall : ∀ s ∈ (Tree.node ti c arg).shapes, ∃ j, tab.Id s j := by
      intro s hs
      rw [List.mem_singleton.1 hs]
      exact ⟨i, hid⟩
    obtain ⟨j, hj⟩ := hinv.hashes.exists_id hall (List.mem_cons_of_mem _ ha)
    rw [hid'.unique (hw.le_id hj)]
    exact Or.inr ⟨ti', c', arg', ha, hs, hj⟩

theorem Written.fresh (hw : Written sh U nd bares arg { st with next := hi } tab codes pr st' tab')
    (hinv : Inv st tab) (hcoh : Tree.CoherentOn U) (hU : (Tree.node ti c arg).nodes ⊆ U)
    (hk : st.hcm (c, ti, codes) = none) : st'.hcm (c, ti, codes) = none := by
  by_contra hne
  obtain ⟨j, hj⟩ := Option.ne_none_iff_exists'.1 hne
  rcases hw.new (hw.inv.hashes.id_of_key hw.coded hj) with hid | ⟨_, _, a, ha, hs⟩
  · obtain ⟨codes', hcodes', hk'⟩ := hinv.hashes.key hid
    rw [← Table.codes_unique hw.coded (hcodes'.imp fun _ _ => hw.le_id), hk] at hk'
    cases hk'
  · have heq : a = .node ti c arg := hcoh _ (hU (List.mem_cons_of_mem _ ha)) _
      (hU List.mem_cons_self) hs
    rw [heq] at ha
    exact Tree.not_mem_nodes_arg ha

/-- Writing a node in front of its arguments. -/
theorem Written.node (hinv : Inv st tab) (hcoh : Tree.CoherentOn U)
    (hU : (Tree.node ti c arg).nodes ⊆ U) (hc : c ≠ [])
    (hw : Written sh U nd bares arg { st with next := st.next + c.length } tab codes pr st' tab')
    (hk : st'.hcm (c, ti, codes) = none) :
    ∃ tab'', Written sh U true bares (.node ti c arg) st tab [st.next] (.concat (.string c) pr)
      { st' with hcm := Function.update st'.hcm (c, ti, codes) (some st.next) } tab'' := by
  have hmem : .node ti c arg ∈ U := hU List.mem_cons_self
  have hpos : 0 < c.length := List.length_pos_of_ne_nil hc
  have hnext : st'.next = st.next + c.length + preSize pr := hw.next
  have hnew : ∀ s, ¬tab'.Id s st.next := by
    rintro ⟨ti', c', args⟩ hid
    rcases hw.new hid with hid | ⟨hle, _⟩
    · exact absurd (hinv.id_lt hid) (Nat.lt_irrefl _)
    · change st.next + c.length ≤ st.next at hle
      omega
  obtain ⟨hnone, hhash⟩ := hw.inv.hashes.insert st'.next hw.coded hk hnew
  have hself := Table.insert_self tab' (.node ti c arg.shapes) (st.next, st'.next)
  have hmono : ∀ {s x}, tab' s = some x →
      tab'.insert (.node ti c arg.shapes) (st.next, st'.next) s = some x :=
    Table.insert_mono hnone _
  have hcase : ∀ {s j}, (tab'.insert (.node ti c arg.shapes) (st.next, st'.next)).Id s j →
      s = .node ti c arg.shapes ∧ j = st.next ∨ tab'.Id s j := by
    rintro s j ⟨e, he⟩
    rcases Table.of_insert he with ⟨hs, hx⟩ | he
    · exact Or.inl ⟨hs, congrArg Prod.fst hx⟩
    · exact Or.inr ⟨e, he⟩
  refine ⟨tab'.insert (.node ti c arg.shapes) (st.next, st'.next), ?_⟩
  exact {
    inv :=
      { hashes := hhash
        id_lt := by
          intro s j hid
          rcases hcase hid with ⟨_, rfl⟩ | hid
          · change st.next < st'.next
            omega
          · exact hw.inv.id_lt hid
        fwdm_lt := hw.inv.fwdm_lt }
    next := by
      rw [preSize, preSize]
      change st'.next = _
      omega
    pos := fun _ => Nat.add_pos_left hpos _
    le := fun hs => hmono (hw.le hs)
    coded := .cons ⟨_, hself⟩ .nil
    new := by
      intro ti' c' args j hid
      rcases hcase hid with ⟨hs, rfl⟩ | hid
      · cases hs
        exact Or.inr ⟨le_rfl, Or.inl ⟨rfl, rfl, hc⟩, _, List.mem_cons_self, rfl⟩
      · rcases hw.new hid with hid | ⟨hle, hchunk, a, ha, hs⟩
        · exact Or.inl hid
        · exact Or.inr ⟨(Nat.le_add_right _ _).trans hle, Or.inr hchunk, a,
            List.mem_cons_of_mem _ ha, hs⟩
    si := hw.si
    mark := by
      intro m hm
      rcases hw.mark hm with hm | ⟨ti', c', arg', ha, hs, e, he⟩
      · exact Or.inl hm
      · exact Or.inr ⟨ti', c', arg', List.mem_cons_of_mem _ ha, hs, e, hmono he⟩
    fwdm := fun hp => hw.fwdm (hp.trans_le (Nat.le_add_right _ _))
    anchor := by
      intro _
      have hfwdm : st'.fwdm st.next = none := by
        rw [hw.fwdm (Nat.lt_add_of_pos_right hpos)]
        exact hinv.fwdm_next
      rw [hfwdm, Option.getD_none]
    found := by
      intro t v p hfind
      rcases hw.found hfind with hfind | hkn
      · exact Or.inl hfind
      · refine Or.inr ?_
        split_ifs at hkn ⊢ with ht
        · obtain ⟨hp, s, hs, e, he⟩ := hkn
          exact ⟨hp, s, hs, e, hmono he⟩
        · exact hkn
    text := by
      intro text M Θ hfits hsi hat hkept
      rw [render_string_append, at_append, length_markAt] at hat
      have hfits' : Fits U M Θ tab' (st.next + c.length) st'.next := by
        refine ⟨fun hs => hfits.shared (hmono hs), fun hm h₁ h₂ => ?_⟩
        obtain ⟨s, hid⟩ := hfits.ids hm (by omega) h₂
        rcases hcase hid with ⟨_, rfl⟩ | hid
        · omega
        · exact ⟨s, hid⟩
      obtain ⟨harg, hkept'⟩ := hw.text hfits' hsi hat.2 hkept
      refine ⟨.node hat.1 (hfits.node_eq hcoh hmem hself) harg, ?_⟩
      intro s j e he
      rcases Table.of_insert he with ⟨rfl, hx⟩ | he
      · cases hx
        exact ⟨ti, c, arg, hmem, rfl, hat.1, harg⟩
      · exact hkept' he }

theorem writes_dollar {ws : List (Pickle ahm)} (hcoh : Tree.CoherentOn U) (hs : Sharable ti c)
    (h : Writes sh U nd b bares (collapse w ws) arg) :
    Writes sh U true b bares (dollar ti c (w :: ws)) (.node ti c arg) := by
  intro st tab hinv hr hU
  have hle : st.next ≤ st.next + c.length := Nat.le_add_right _ _
  obtain ⟨codes, pr, st', tab', heq, hw⟩ :=
    h (hinv.advance hle) (hr.advance hle) fun a ha => hU (List.mem_cons_of_mem _ ha)
  cases hk : st.hcm (c, ti, codes) with
  | some i =>
    obtain ⟨hid, hmark⟩ := hw.dropped hinv hk
    refine ⟨_, _, _, _, ?_, written_backref hinv hcoh hid hs (hU List.mem_cons_self)
      (Function.update st.fwdm st.next (some i)) (fun p hp => Function.update_of_ne hp.ne _ _)
      ?_ ?_ st'.si hw.si hmark⟩
    · simp only [dollar, heq, hk, bind, Except.bind, pure, Except.pure]
    · intro p j hp
      by_contra hlt
      rw [Function.update_of_ne (by omega)] at hp
      exact absurd (hinv.fwdm_lt hp) (by omega)
    · intro _
      rw [Function.update_self, Option.getD_some]
  | none =>
    obtain ⟨_, d, s, rfl, _⟩ := hs
    obtain ⟨tab'', hw'⟩ := hw.node hinv hcoh hU (List.cons_ne_nil d s) (hw.fresh hinv hcoh hU hk)
    refine ⟨_, _, _, tab'', ?_, hw'⟩
    simp only [dollar, heq, hk, bind, Except.bind, pure, Except.pure]

end Nodes

/-! ### Thunks -/

theorem length_anyintDigits (rounds n : ℕ) (l : Str) :
    (anyintDigits rounds n l).length ≤ rounds + l.length := by
  induction rounds generalizing n l with
  | zero => exact (Nat.zero_add _).ge
  | succ rounds ih =>
    rw [anyintDigits]
    split_ifs
    · exact Nat.le_add_left _ _
    · refine (ih _ _).trans ?_
      rw [List.length_cons]
      omega

theorem length_intEncode (i : ℤ) : (intEncode i).length ≤ 10 := by
  rw [intEncode, largeintEncode]
  split_ifs <;> exact length_anyintDigits 9 _ _

theorem render_empty_eq (p q : ℕ) : ∀ pr, render ∅ p pr = render ∅ q pr
  | .string s => by
    rw [render, render, markAt_of_not_mem (Finset.notMem_empty p),
      markAt_of_not_mem (Finset.notMem_empty q)]
  | .concat x y => by
    rw [render, render, render_empty_eq p q x, render_empty_eq _ (q + preSize x) y]

theorem preSize_pad (pr : PreResult) (n : ℕ) : preSize (pad pr n) = n + preSize pr := by
  induction n generalizing pr with
  | zero => exact (Nat.zero_add _).symm
  | succ n ih =>
    rw [pad, ih, preSize, null, preSize, List.length_singleton]
    omega

theorem render_pad (p : ℕ) (pr : PreResult) (n : ℕ) :
    render ∅ p (pad pr n) = List.replicate n (Char.ofNat 0) ++ render ∅ p pr := by
  induction n generalizing pr with
  | zero => rfl
  | succ n ih =>
    rw [pad, ih, render, null, render, markAt_of_not_mem (Finset.notMem_empty p),
      render_empty_eq _ p pr, List.replicate_succ', List.append_assoc]

theorem lazyLoop_spec (h : Writes sh U nd b bares w T) (hinv : Inv st tab)
    (hr : Ready sh b bares st tab) (hU : T.nodes ⊆ U) :
    ∀ (rounds nxt ilen : ℕ), st.next ≤ nxt → ilen ≤ 10 → 11 ≤ rounds + ilen →
    ∃ ilen' codes pr st' tab', ilen ≤ ilen' ∧ (intEncode (preSize pr)).length ≤ ilen' ∧
      Written sh U nd bares T { st with next := nxt + (ilen' - ilen) } tab codes pr st' tab' ∧
      lazyLoop w st rounds nxt ilen = .ok (codes,
        .concat (pad (.string (intEncode (preSize pr)))
          (ilen' - (intEncode (preSize pr)).length)) pr, st')
  | 0, _, _, _, h₁, h₂ => by omega
  | rounds + 1, nxt, ilen, hnxt, hilen, hrounds => by
    obtain ⟨codes, pr, st', tab', heq, hw⟩ := h (hinv.advance hnxt) (hr.advance hnxt) hU
    by_cases hlt : ilen < (intEncode (preSize pr)).length
    · have hmax := length_intEncode (preSize pr)
      obtain ⟨ilen', codes', pr', st'', tab'', hle, hfit, hw', hloop⟩ :=
        lazyLoop_spec h hinv hr hU rounds (nxt + 1) (ilen + 1) (by omega) (by omega) (by omega)
      refine ⟨ilen', codes', pr', st'', tab'', by omega, hfit, ?_, ?_⟩
      · rw [show nxt + (ilen' - ilen) = nxt + 1 + (ilen' - (ilen + 1)) by omega]
        exact hw'
      · rw [← hloop]
        simp [lazyLoop, heq, bind, Except.bind, if_pos hlt]
    · refine ⟨ilen, codes, pr, st', tab', le_rfl, Nat.le_of_not_lt hlt, ?_, ?_⟩
      · rw [Nat.sub_self]
        exact hw
      · simp only [lazyLoop, heq, bind, Except.bind, if_neg hlt]
        rfl

/-- Writing the size of a value in front of it. -/
theorem Written.thunk (hinv : Inv st tab) (hne : T.shapes ≠ []) {pr₀ : PreResult} {k : ℕ}
    (hpr₀ : pr₀ = pad (.string (intEncode (preSize pr))) k)
    (hw : Written sh U nd bares T { st with next := st.next + preSize pr₀ } tab codes pr st' tab') :
    Written sh U false bares (.thunk T) st tab codes (.concat pr₀ pr) st' tab' where
  inv := hw.inv
  next := by
    rw [hw.next, preSize, Nat.add_assoc]
  pos _ := Nat.add_pos_right _ (hw.pos hne)
  le := hw.le
  coded := hw.coded
  new := by
    intro ti c args i hid
    rcases hw.new hid with hid | ⟨hle, hchunk, ha⟩
    · exact Or.inl hid
    · exact Or.inr ⟨(Nat.le_add_right _ _).trans hle, Or.inr hchunk, ha⟩
  si := hw.si
  mark := hw.mark
  fwdm hp := hw.fwdm (hp.trans_le (Nat.le_add_right _ _))
  anchor h := absurd h Bool.false_ne_true
  found := hw.found
  text := by
    intro text M Θ hfits hsi hat hkept
    have hnext : st'.next = st.next + preSize pr₀ + preSize pr := hw.next
    have hsize : preSize pr₀ = k + (intEncode (preSize pr)).length := by
      rw [hpr₀, preSize_pad, preSize]
    -- no node begins in the size
    have hplain : render M st.next pr₀ =
        List.replicate k (Char.ofNat 0) ++ intEncode (preSize pr) := by
      rw [render_eq_of_unmarked, hpr₀, render_pad, render,
        markAt_of_not_mem (Finset.notMem_empty _)]
      intro m hm h₁ h₂
      obtain ⟨⟨ti, c, args⟩, hid⟩ := hfits.ids hm h₁ (by omega)
      rcases hw.new hid with hid | ⟨hle, _⟩
      · exact absurd (hinv.id_lt hid) (Nat.not_lt.2 h₁)
      · exact absurd h₂ (Nat.not_lt.2 hle)
    rw [render, at_append, length_render, hplain] at hat
    obtain ⟨hT, hkept'⟩ := hw.text (hfits.right (Nat.le_add_right _ _)) hsi hat.2 hkept
    refine ⟨?_, hkept'⟩
    rw [hnext] at hT ⊢
    exact .thunk hat.1 (by omega) (hw.pos hne) hT

theorem writes_lazy {α : Type} {w : α → Pickle ahm} {thunk : Unit → α}
    (h : Writes sh U nd b bares (w (thunk ())) T) (hne : T.shapes ≠ []) :
    Writes sh U false b bares (wLazy w thunk) (.thunk T) := by
  intro st tab hinv hr hU
  obtain ⟨ilen, codes, pr, st', tab', hle, hfit, hw, hloop⟩ := lazyLoop_spec h hinv hr hU 8
    (st.next + trialStart) trialStart (Nat.le_add_right _ _) (by decide) (by decide)
  have hsize : st.next + trialStart + (ilen - trialStart) = st.next +
      preSize (pad (.string (intEncode (preSize pr)))
        (ilen - (intEncode (preSize pr)).length)) := by
    rw [preSize_pad, preSize]
    omega
  rw [hsize] at hw
  exact ⟨_, _, _, tab', hloop, hw.thunk hinv hne rfl⟩

/-! ### Ad-hoc sharing -/

theorem writes_ahShare {emptyMap : ahm} (hsh : Lawful sh emptyMap) (hcoh : Tree.CoherentOn U)
    {t : Ty} {v : Val t} {w : Val t → Pickle ahm} (hnd : (bare (.shared t) v).Nodup)
    (hT : t.isNode = true → ∃ ti c arg, treeOf t v = .node ti c arg ∧ Sharable ti c)
    (h : Writes sh U t.isNode t.depth (bare t v) (w v) (treeOf t v)) :
    Writes sh U false (t.depth + 1) (bare (.shared t) v) (ahShare (sh t) w v) (treeOf t v) := by
  intro st tab hinv hr hU
  cases hfind : (sh t).find st.ahm v with
  | some i₀ =>
    cases ht : t.isNode with
    | false =>
      have hmem : (⟨t, v⟩ : Σ t, Val t) ∈ bare (.shared t) v := by
        rw [bare, ht]
        exact List.mem_append_left _ (List.mem_singleton_self _)
      rw [hr.bare _ hmem] at hfind
      cases hfind
    | true =>
      obtain ⟨ti, c, arg, htree, hs⟩ := hT ht
      obtain ⟨_, s, hshape, hid⟩ := hr.known ht (Nat.lt_succ_self _) hfind
      rw [htree] at hshape hU ⊢
      cases hshape
      refine ⟨_, _, _, _, ?_, written_backref hinv hcoh hid hs (hU List.mem_cons_self)
        st.fwdm (fun p _ => rfl) (fun hp => (hinv.fwdm_lt hp).le)
        (fun h => absurd h Bool.false_ne_true) st.si (Finset.Subset.refl _)
        (fun m hm => Or.inl hm)⟩
      rw [ahShare, hfind]
  | none =>
    have hbare : ∀ x ∈ bare t v, x ≠ (⟨t, v⟩ : Σ t, Val t) := by
      rintro x hx rfl
      have hnode : t.isNode = false := isNode_of_mem_bare hx
      rw [bare, hnode] at hnd
      exact (List.nodup_cons.1 hnd).1 hx
    have hr' : Ready sh t.depth (bare t v)
        { st with ahm := (sh t).insert st.ahm v st.next } tab := by
      refine ⟨?_, ?_⟩
      · intro u x p hu hlt hfind'
        rcases hsh.find_insert hfind' with ⟨heq, _⟩ | hfind'
        · cases heq
          exact absurd hlt (Nat.lt_irrefl _)
        · exact hr.known hu (hlt.trans (Nat.lt_succ_self _)) hfind'
      · intro x hx
        by_contra hne
        obtain ⟨p, hp⟩ := Option.ne_none_iff_exists'.1 hne
        rcases hsh.find_insert hp with ⟨heq, _⟩ | hp
        · exact hbare x hx heq
        · rw [hr.bare x (List.mem_append_right _ hx)] at hp
          cases hp
    obtain ⟨codes, pr, st', tab', heq, hw⟩ :=
      @h { st with ahm := (sh t).insert st.ahm v st.next } tab
        ⟨hinv.hashes, hinv.id_lt, hinv.fwdm_lt⟩ hr' hU
    refine ⟨codes, pr, st', tab', by rw [ahShare, hfind]; exact heq, ?_⟩
    exact {
      inv := hw.inv
      next := hw.next
      pos := hw.pos
      le := hw.le
      coded := hw.coded
      new := hw.new
      si := hw.si
      mark := hw.mark
      fwdm := hw.fwdm
      anchor := fun h => absurd h Bool.false_ne_true
      found := by
        intro u x p hp
        rcases hw.found hp with hp | hk
        · rcases hsh.find_insert hp with ⟨heq, rfl⟩ | hp
          · -- the value itself, which stands at the position where it was written
            cases heq
            refine Or.inr ?_
            split_ifs with ht
            · obtain ⟨ti, c, arg, htree, _⟩ := hT ht
              have hcoded := hw.coded
              have hpos := hw.pos
              rw [htree] at hcoded hpos
              rw [hw.anchor ht] at hcoded
              cases hcoded with
              | cons hid _ =>
                refine ⟨?_, _, by rw [htree]; rfl, hid⟩
                have hnext : st'.next = st.next + preSize pr := hw.next
                have := hpos (List.cons_ne_nil _ _)
                omega
            · rw [bare, if_neg ht]
              exact List.mem_append_left _ (List.mem_singleton_self _)
          · exact Or.inl hp
        · refine Or.inr ?_
          split_ifs at hk ⊢ with ht
          · exact hk
          · exact List.mem_append_right _ hk
      text := hw.text }

end SmlNj.PickleUtil
