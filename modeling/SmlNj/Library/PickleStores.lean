import SmlNj.Library.PickleWrites

/-!
# A pickled value is stored in the text

The pickler of each type writes the tree of its value, by induction on the type
from what the combinators do.  So the pickle of a coherent value is a text that
holds its tree.

## Main results

* `pickler_writes` — the pickler of a type writes the tree of the value.
* `pickle_stored` — the pickled string holds the tree, or is too long.
-/

namespace SmlNj.PickleUtil

variable {ahm : Type} {sh : ∀ t, AdHoc ahm (Val t)} {U : List Tree} {b : ℕ}

/-- An argument of a node: its bare values, its pickle and its tree. -/
abbrev Item (ahm : Type) := List (Σ t, Val t) × Pickle ahm × Tree

/-- The arguments of a node have their trees written, and no two of them the same bare value. -/
structure Writable (sh : ∀ t, AdHoc ahm (Val t)) (U : List Tree) (b : ℕ)
    (items : List (Item ahm)) : Prop where
  writes : ∀ x ∈ items, Writes sh U false b x.1 x.2.1 x.2.2
  nodup : (items.flatMap Prod.fst).Nodup
  bare : ∀ x ∈ items.flatMap Prod.fst, x.1.isNode = false

theorem writes_collapse {x : Item ahm} {xs : List (Item ahm)} (h : Writable sh U b (x :: xs)) :
    Writes sh U false b ((x :: xs).flatMap Prod.fst) (collapse x.2.1 (xs.map fun y => y.2.1))
      (.seq ((x :: xs).map fun y => y.2.2)) := by
  induction xs generalizing x with
  | nil =>
    have := h.writes x List.mem_cons_self
    rw [List.flatMap_cons, List.flatMap_nil, List.append_nil]
    exact this
  | cons y ys ih =>
    have hnd := h.nodup
    have hbare := h.bare
    rw [List.flatMap_cons] at hnd hbare ⊢
    obtain ⟨_, hnd', hdisj⟩ := List.nodup_append'.1 hnd
    have htail : Writable sh U b (y :: ys) :=
      ⟨fun z hz => h.writes z (List.mem_cons_of_mem x hz), hnd',
        fun z hz => hbare z (List.mem_append_right _ hz)⟩
    exact writes_both (h.writes x List.mem_cons_self) (ih htail)
      (fun z hz hz' => hdisj hz' hz) htail.bare

theorem writes_items (hcoh : Tree.CoherentOn U) {ti : ℤ} {c : Str} (hs : Sharable ti c)
    {items : List (Item ahm)} (h : Writable sh U b items) :
    Writes sh U true b (items.flatMap Prod.fst) (dollar ti c (items.map fun y => y.2.1))
      (.node ti c (.seq (items.map fun y => y.2.2))) := by
  cases items with
  | nil =>
    obtain ⟨_, d, s, rfl, _⟩ := hs
    exact writes_nullary hcoh (List.cons_ne_nil d s)
  | cons x xs => exact writes_dollar hcoh hs (writes_collapse h)

/-! ### Lists -/

section Lists

variable {α : Type} {w : α → Pickle ahm} {f : α → Tree} {bs : α → List (Σ t, Val t)}

theorem sharable_list {c : Char} (h : ord c < 127) : Sharable tiL [c] :=
  ⟨Or.inl rfl, c, [], rfl, h⟩

theorem writes_chops (hcoh : Tree.CoherentOn U) : ∀ {cl : List (Five α)},
    (∀ a ∈ fives cl, Writes sh U false b (bs a) (w a) (f a)) → ((fives cl).flatMap bs).Nodup →
    (∀ x ∈ (fives cl).flatMap bs, x.1.isNode = false) →
    Writes sh U true b ((fives cl).flatMap bs) (wChops w cl) (chopsTree f cl)
  | [], _, _, _ => writes_nullary hcoh (List.cons_ne_nil _ _)
  | (a₁, a₂, a₃, a₄, a₅) :: r, hw, hnd, hbare => by
    have hbs : (fives ((a₁, a₂, a₃, a₄, a₅) :: r)).flatMap bs =
        ([a₁, a₂, a₃, a₄, a₅].map (fun a => (bs a, w a, f a)) ++
          [((fives r).flatMap bs, wChops w r, chopsTree f r)]).flatMap Prod.fst := by
      simp [fives]
    have hmem : ∀ a ∈ fives r, a ∈ fives ((a₁, a₂, a₃, a₄, a₅) :: r) := fun a ha => by
      simp only [fives, List.mem_cons]
      tauto
    have hsub : ((fives r).flatMap bs).Sublist
        ((fives ((a₁, a₂, a₃, a₄, a₅) :: r)).flatMap bs) := by
      refine List.Sublist.flatMap ?_ bs
      exact ((((List.sublist_cons_self a₅ _).cons a₄).cons a₃).cons a₂).cons a₁
    have htail := writes_chops hcoh (fun a ha => hw a (hmem a ha)) (hnd.sublist hsub)
      fun x hx => hbare x (hsub.subset hx)
    rw [hbs] at hnd hbare ⊢
    refine writes_items hcoh (sharable_list (by decide)) ⟨?_, hnd, hbare⟩
    intro x hx
    rcases List.mem_append.1 hx with hx | hx
    · obtain ⟨a, ha, rfl⟩ := List.mem_map.1 hx
      refine hw a ?_
      simp only [fives, List.mem_cons, List.not_mem_nil, or_false] at ha ⊢
      tauto
    · rw [List.mem_singleton.1 hx]
      exact htail.weaken

theorem wList_eq {l hd : List α} {cl : List (Five α)} (h : chop5 l = (hd, cl))
    (hlen : hd.length ≤ 4) : wList w l = dollar tiL [listChar hd.length !cl.isEmpty]
      (hd.map w ++ if cl.isEmpty then [] else [wChops w cl]) := by
  rw [wList, h]
  rcases hd with _ | ⟨a₁, _ | ⟨a₂, _ | ⟨a₃, _ | ⟨a₄, _ | ⟨a₅, r⟩⟩⟩⟩⟩
  · cases cl <;> rfl
  · cases cl <;> rfl
  · cases cl <;> rfl
  · cases cl <;> rfl
  · cases cl <;> rfl
  · simp only [List.length_cons] at hlen
    omega

theorem listTree_eq {l hd : List α} {cl : List (Five α)} (h : chop5 l = (hd, cl)) :
    listTree f l = .node tiL [listChar hd.length !cl.isEmpty]
      (.seq (hd.map f ++ if cl.isEmpty then [] else [chopsTree f cl])) := by
  rw [listTree, h]

theorem ord_listChar {n : ℕ} (hn : n ≤ 4) (fives : Bool) :
    ord (listChar n fives) = 48 + n + if fives then 5 else 0 := by
  interval_cases n <;> cases fives <;> rfl

theorem writes_list (hcoh : Tree.CoherentOn U) {l : List α}
    (hw : ∀ a ∈ l, Writes sh U false b (bs a) (w a) (f a)) (hnd : (l.flatMap bs).Nodup)
    (hbare : ∀ x ∈ l.flatMap bs, x.1.isNode = false) :
    Writes sh U true b (l.flatMap bs) (wList w l) (listTree f l) := by
  obtain ⟨hd, cl, hchop, rfl, hlen⟩ := chop5_spec l
  rw [List.flatMap_append] at hnd hbare
  have hfives : Writes sh U false b ((fives cl).flatMap bs) (wChops w cl) (chopsTree f cl) :=
    (writes_chops hcoh (fun a ha => hw a (List.mem_append_right _ ha))
      (List.nodup_append'.1 hnd).2.1 fun x hx => hbare x (List.mem_append_right _ hx)).weaken
  let items : List (Item ahm) := hd.map (fun a => (bs a, w a, f a)) ++
    if cl.isEmpty then [] else [((fives cl).flatMap bs, wChops w cl, chopsTree f cl)]
  have hbs : items.flatMap Prod.fst = hd.flatMap bs ++ (fives cl).flatMap bs := by
    rw [List.flatMap_append, List.flatMap_map]
    cases cl with
    | nil => rfl
    | cons x r => simp
  have hpickles : items.map (fun y => y.2.1) =
      hd.map w ++ if cl.isEmpty then [] else [wChops w cl] := by
    rw [List.map_append, List.map_map]
    cases cl <;> rfl
  have htrees : items.map (fun y => y.2.2) =
      hd.map f ++ if cl.isEmpty then [] else [chopsTree f cl] := by
    rw [List.map_append, List.map_map]
    cases cl <;> rfl
  have hitems : Writable sh U b items := by
    refine ⟨?_, by rw [hbs]; exact hnd, by rw [hbs]; exact hbare⟩
    intro x hx
    rcases List.mem_append.1 hx with hx | hx
    · obtain ⟨a, ha, rfl⟩ := List.mem_map.1 hx
      exact hw a (List.mem_append_left _ ha)
    · split_ifs at hx
      · exact absurd hx List.not_mem_nil
      · rw [List.mem_singleton.1 hx]
        exact hfives
  have hchar : ord (listChar hd.length !cl.isEmpty) < 127 := by
    rw [ord_listChar hlen]
    split_ifs <;> omega
  have := writes_items hcoh (sharable_list hchar) hitems
  rw [hpickles, htrees, hbs, ← List.flatMap_append, ← wList_eq hchop hlen,
    ← listTree_eq hchop] at this
  exact this

end Lists

/-! ### The types -/

theorem length_le_anyintDigits (rounds n : ℕ) (l : Str) :
    l.length ≤ (anyintDigits rounds n l).length := by
  induction rounds generalizing n l with
  | zero => exact le_rfl
  | succ rounds ih =>
    rw [anyintDigits]
    split_ifs
    · exact le_rfl
    · refine (Nat.le_succ _).trans (ih (n / 128) (byteChar (n % 128 ||| 128) :: l))

theorem anyintEncode_ne_nil (n : ℕ) (negative : Bool) : anyintEncode n negative ≠ [] :=
  List.ne_nil_of_length_pos (length_le_anyintDigits 9 _ [_])

theorem intEncode_ne_nil (i : ℤ) : intEncode i ≠ [] := by
  rw [intEncode, largeintEncode]
  split_ifs <;> exact anyintEncode_ne_nil _ _

theorem sharable_quoted (s : Str) : Sharable tiS (quoted s) :=
  ⟨Or.inr (Or.inr (Or.inr rfl)), quote, _, rfl, by decide⟩

theorem exists_node {t : Ty} (v : Val t) (ht : t.isNode = true) :
    ∃ ti c arg, treeOf t v = .node ti c arg ∧ Sharable ti c := by
  cases t with
  | int | word | bool | lazy | shared => cases ht
  | string => exact ⟨tiS, _, .nil, rfl, sharable_quoted _⟩
  | intinf => exact ⟨tiS, _, .nil, rfl, sharable_quoted _⟩
  | list t =>
    obtain ⟨hd, cl, hchop, _, hlen⟩ := chop5_spec v
    refine ⟨_, _, _, listTree_eq hchop, sharable_list ?_⟩
    rw [ord_listChar hlen]
    split_ifs <;> omega
  | option t =>
    cases v with
    | none => exact ⟨tiO, _, _, rfl, Or.inr (Or.inl rfl), _, _, rfl, by decide⟩
    | some v => exact ⟨tiO, _, _, rfl, Or.inr (Or.inl rfl), _, _, rfl, by decide⟩
  | pair t u => exact ⟨tiP, _, _, rfl, Or.inr (Or.inr (Or.inl rfl)), _, _, rfl, by decide⟩

theorem shapes_treeOf_ne_nil {t : Ty} (v : Val t) : (treeOf t v).shapes ≠ [] := by
  induction t with
  | int | word | bool => exact List.cons_ne_nil _ _
  | lazy t ih => exact ih (v ())
  | shared t ih => exact ih v
  | string | intinf | list | option | pair =>
    obtain ⟨ti, c, arg, h, _⟩ := exists_node v rfl
    rw [h]
    exact List.cons_ne_nil _ _

theorem writes_string (hcoh : Tree.CoherentOn U) (s : Str) :
    Writes sh U true b [] (wString s) (stringTree s) := by
  have hdummy : Writes sh U false b [] (dummyPickle : Pickle ahm) .nil := by
    intro st tab hinv _ _
    exact ⟨[], nullbytes, st, tab, rfl, {
      inv := hinv
      next := rfl
      pos := fun h => absurd rfl h
      le := id
      coded := .nil
      new := Or.inl
      si := Finset.Subset.refl _
      mark := Or.inl
      fwdm := fun _ => rfl
      anchor := fun h => absurd h Bool.false_ne_true
      found := Or.inl
      text := fun _ _ _ hkept => ⟨.nil, hkept⟩ }⟩
  exact writes_dollar hcoh (sharable_quoted s) hdummy

/-- **A pickler writes the tree of its value.** -/
theorem pickler_writes {emptyMap : ahm} (hsh : Lawful sh emptyMap) (hcoh : Tree.CoherentOn U)
    (t : Ty) (v : Val t) (hnd : (bare t v).Nodup) :
    Writes sh U t.isNode t.depth (bare t v) (pickler sh t v) (treeOf t v) := by
  induction t with
  | int => exact (writes_nullary hcoh (intEncode_ne_nil _)).weaken
  | word => exact (writes_nullary hcoh (anyintEncode_ne_nil _ _)).weaken
  | bool =>
    cases v <;> exact (writes_nullary hcoh (List.cons_ne_nil _ _)).weaken
  | string => exact writes_string hcoh v
  | intinf => exact writes_string hcoh _
  | list t ih =>
    refine writes_list hcoh (fun a ha => (ih a ?_).weaken) hnd fun x hx =>
      isNode_of_mem_bare (t := .list t) hx
    exact (List.nodup_flatMap.1 hnd).1 a ha
  | option t ih =>
    cases v with
    | none => exact writes_nullary hcoh (List.cons_ne_nil _ _)
    | some v =>
      exact writes_dollar hcoh ⟨Or.inr (Or.inl rfl), _, _, rfl, by decide⟩ (ih v hnd)
  | pair t u iht ihu =>
    obtain ⟨v, w⟩ := v
    obtain ⟨hndt, hndu, hdisj⟩ := List.nodup_append'.1 hnd
    have hv := (iht v hndt).mono (le_max_left t.depth u.depth)
    have hw := (ihu w hndu).mono (le_max_right t.depth u.depth)
    exact writes_dollar hcoh ⟨Or.inr (Or.inr (Or.inl rfl)), _, _, rfl, by decide⟩
      (writes_both hv hw (fun x hx hx' => hdisj hx' hx) fun x hx => isNode_of_mem_bare hx)
  | lazy t ih => exact writes_lazy (ih (v ()) hnd) (shapes_treeOf_ne_nil _)
  | shared t ih =>
    exact writes_ahShare hsh hcoh hnd (exists_node (t := t) v) (ih v (List.nodup_append'.1 hnd).2.1)

/-- **The pickled string holds the tree of the value**, unless it is too long. -/
theorem pickle_stored {emptyMap : ahm} (hsh : Lawful sh emptyMap) (t : Ty) (v : Val t)
    (hcoh : (treeOf t v).Coherent) (hnd : (bare t v).Nodup) :
    pickle emptyMap (pickler sh t v) = .error .size ∨
      ∃ s M Θ, pickle emptyMap (pickler sh t v) = .ok s ∧ s.length ≤ maxSize ∧
        Stored s M Θ (treeOf t v) 0 s.length := by
  have hempty : ∀ s i, ¬Table.Id (fun _ => none) s i := by
    rintro s i ⟨e, he⟩
    cases he
  have hinv : Inv (⟨fun _ => none, fun _ => none, emptyMap, 0, ∅⟩ : State ahm)
      (fun _ => none) :=
    { hashes :=
        { key := fun h => absurd h (hempty _ _)
          shape := fun h => by cases h
          inj := fun h => absurd h (hempty _ _) }
      id_lt := fun h => absurd h (hempty _ _)
      fwdm_lt := fun h => by cases h }
  have hready : Ready sh t.depth (bare t v) ⟨fun _ => none, fun _ => none, emptyMap, 0, ∅⟩
      (fun _ => none) :=
    { known := by
        intro u x p _ _ hfind
        rw [hsh.find_empty] at hfind
        cases hfind
      bare := fun x _ => hsh.find_empty _ _ }
  obtain ⟨codes, pr, st, tab, heq, hw⟩ :=
    pickler_writes hsh hcoh t v hnd hinv hready (List.Subset.refl _)
  have hnext : st.next = preSize pr := by rw [hw.next, Nat.zero_add]
  -- every shared position has a sharable node, whose string begins there
  have hshared : ∀ m ∈ st.si, ∃ x : Tree × ℕ, ∃ ti c arg, x.1 = .node ti c arg ∧
      x.1 ∈ (treeOf t v).nodes ∧ Sharable ti c ∧ tab (.node ti c arg.shapes) = some (m, x.2) := by
    intro m hm
    rcases hw.mark hm with hm | ⟨ti, c, arg, hmem, hs, e, he⟩
    · exact absurd hm (Finset.notMem_empty m)
    · exact ⟨(.node ti c arg, e), ti, c, arg, rfl, hmem, hs, he⟩
  have hmark : ∀ m ∈ st.si, Markable pr m := by
    intro m hm
    obtain ⟨_, ti, c, arg, _, _, ⟨_, d, s, rfl, hd⟩, he⟩ := hshared m hm
    rcases hw.new ⟨_, he⟩ with hid | ⟨_, hchunk, _⟩
    · exact absurd hid (hempty _ _)
    · exact ⟨d, s, hchunk, hd.trans (Nat.lt_succ_self _)⟩
  have hpickle : pickle emptyMap (pickler sh t v) =
      if preSize pr ≤ maxSize then .ok (render st.si 0 pr) else .error .size := by
    rw [← pr2s_eq hmark, ← hnext]
    simp [pickle, heq, bind, Except.bind]
  by_cases hsize : preSize pr ≤ maxSize
  · have hne : Nonempty (Tree × ℕ) := ⟨(.nil, 0)⟩
    choose! Θ hΘ using hshared
    have hfits : Fits (treeOf t v).nodes st.si Θ tab 0 st.next := by
      refine ⟨?_, ?_⟩
      · intro s m e hs hm
        obtain ⟨ti, c, arg, hnode, hmem, hsh, he⟩ := hΘ m hm
        rw [hnode] at hmem
        have hshape : s = .node ti c arg.shapes := hw.inv.hashes.inj ⟨e, hs⟩ ⟨_, he⟩
        subst hshape
        rw [hs] at he
        cases he
        exact ⟨ti, c, arg, hmem, rfl, hsh, Prod.ext hnode rfl⟩
      · intro m hm _ _
        obtain ⟨ti, c, arg, _, _, _, he⟩ := hΘ m hm
        exact ⟨_, _, he⟩
    have hat : At (render st.si 0 pr) 0 (render st.si 0 pr) := List.prefix_rfl
    have hkept : Kept (treeOf t v).nodes (render st.si 0 pr) st.si Θ fun _ => none := by
      intro s i e h
      cases h
    obtain ⟨hstored, _⟩ := hw.text hfits (Finset.Subset.refl _) hat hkept
    refine Or.inr ⟨render st.si 0 pr, st.si, Θ, ?_, ?_, ?_⟩
    · rw [hpickle, if_pos hsize]
    · rw [length_render]
      exact hsize
    · rw [length_render, ← hnext]
      exact hstored
  · left
    rw [hpickle, if_neg hsize]

end SmlNj.PickleUtil
