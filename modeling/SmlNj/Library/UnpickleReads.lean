import Mathlib
import SmlNj.Library.PickleStores
import SmlNj.Library.UnpickleUtil

/-!
# Reading a stored tree

A reader that starts where a tree of its type is stored reads the value of the
tree and ends where the tree ends.  The heap of the session stays sound: what
the sharing maps have at a marked position is the value of the node there, and
what a cell has is the value of its thunk or the place where that is stored.

## Main definitions

* `Agree` — a value that was read agrees with a value, up to a relation between
  cells and thunks.
* `Sound` — the invariant of the heap.
* `Run` — a reader ends with a result.

## Main results

* `share_run` — a node is read, whether it is there, was read before, or is
  referred to.
* `reader_run`, `force_run` — the reader of a type, and forcing a thunk.
-/

namespace SmlNj.PickleUtil

open List (Forall₂)

/-- The values agree, where `P` relates cells to the values of thunks. -/
def Agree (P : ∀ t, ℕ → Val t → Prop) : ∀ t, Got t → Val t → Prop
  | .int, x, y => x = y
  | .word, x, y => x = y
  | .bool, x, y => x = y
  | .string, x, y => x = y
  | .intinf, x, y => x = y
  | .list t, l, l' => Forall₂ (Agree P t) l l'
  | .option t, x, y => Option.Rel (Agree P t) x y
  | .pair t u, x, y => Agree P t x.1 y.1 ∧ Agree P u x.2 y.2
  | .lazy t, c, v => P t c (v ())
  | .shared t, x, y => Agree P t x y

theorem Agree.mono {P Q : ∀ t, ℕ → Val t → Prop} (hPQ : ∀ t c v, P t c v → Q t c v) {t : Ty}
    {x : Got t} {y : Val t} (h : Agree P t x y) : Agree Q t x y := by
  induction t with
  | int | word | bool | string | intinf => exact h
  | list t ih => exact Forall₂.imp (fun _ _ => ih) h
  | option t ih =>
    cases h with
    | some h => exact .some (ih h)
    | none => exact .none
  | pair t u iht ihu => exact ⟨iht h.1, ihu h.2⟩
  | lazy t ih => exact hPQ t x (y ()) h
  | shared t ih => exact ih h

/-! ### Trees determine values -/

theorem seq_injective : ∀ {l l' : List Tree}, l.length = l'.length → Tree.seq l = Tree.seq l' →
    l = l'
  | [], [], _, _ => rfl
  | [_], [_], _, h => congrArg (fun T => [T]) h
  | _ :: T :: l, _ :: T' :: l', hlen, h => by
    obtain ⟨rfl, htail⟩ := Tree.and.inj h
    rw [seq_injective (Nat.succ.inj hlen) htail]

section Lists

variable {α : Type} {f : α → Tree}

theorem chopsTree_injective (hf : Function.Injective f) :
    ∀ {cl cl' : List (Five α)}, chopsTree f cl = chopsTree f cl' → cl = cl'
  | [], [], _ => rfl
  | [], (_, _, _, _, _) :: _, h => absurd (List.cons.inj (Tree.node.inj h).2.1).1 (by decide)
  | (_, _, _, _, _) :: _, [], h => absurd (List.cons.inj (Tree.node.inj h).2.1).1 (by decide)
  | (_, _, _, _, _) :: r, (_, _, _, _, _) :: r', h => by
    have hseq := (Tree.node.inj h).2.2
    have harg := seq_injective (by rfl) hseq
    simp only [List.cons.injEq, and_true] at harg
    obtain ⟨h₁, h₂, h₃, h₄, h₅, hr⟩ := harg
    rw [hf h₁, hf h₂, hf h₃, hf h₄, hf h₅, chopsTree_injective hf hr]

theorem listChar_injective {n n' : ℕ} {b b' : Bool} (hn : n ≤ 4) (hn' : n' ≤ 4)
    (h : listChar n b = listChar n' b') : n = n' ∧ b = b' := by
  have hord := congrArg ord h
  rw [ord_listChar hn, ord_listChar hn'] at hord
  cases b <;> cases b' <;> simp only [Bool.false_eq_true, if_true, if_false] at hord
  · exact ⟨by omega, rfl⟩
  · omega
  · omega
  · exact ⟨by omega, rfl⟩

theorem listTree_injective (hf : Function.Injective f) {l l' : List α}
    (h : listTree f l = listTree f l') : l = l' := by
  obtain ⟨hd, cl, hchop, rfl, hlen⟩ := chop5_spec l
  obtain ⟨hd', cl', hchop', rfl, hlen'⟩ := chop5_spec l'
  rw [listTree_eq hchop, listTree_eq hchop'] at h
  obtain ⟨_, hc, harg⟩ := Tree.node.inj h
  obtain ⟨hlength, hempty⟩ := listChar_injective hlen hlen' (List.cons.inj hc).1
  have hempty' : cl.isEmpty = cl'.isEmpty := Bool.not_inj hempty
  rw [hempty'] at harg
  have hargs := seq_injective (by
    simp only [List.length_append, List.length_map, hlength]
    split_ifs <;> rfl) harg
  obtain ⟨hhd, htl⟩ := List.append_inj hargs (by rw [List.length_map, List.length_map, hlength])
  rw [List.map_injective_iff.2 hf hhd]
  cases cl' with
  | nil => rw [List.isEmpty_iff.1 hempty']
  | cons x r =>
    rw [chopsTree_injective hf (List.singleton_inj.1 htl)]

end Lists

theorem at_self (s : Str) : At s 0 s := List.prefix_rfl

theorem quoted_injective : Function.Injective quoted := by
  intro u v h
  have htext : u.flatMap esc ++ [quote] = v.flatMap esc ++ [quote] := (List.cons.inj h).2
  have hu := stringLoop_of_at (h := mkSession) (l := []) u
    (at_self (u.flatMap esc ++ [quote])) rfl
    (Nat.lt_succ_of_le (le_max_left u.length v.length))
  rw [htext] at hu
  have hv := stringLoop_of_at (h := mkSession) (l := []) v
    (at_self (v.flatMap esc ++ [quote])) rfl
    (Nat.lt_succ_of_le (le_max_right u.length v.length))
  rw [hu] at hv
  exact (Prod.mk.inj (Except.ok.inj hv)).1

theorem intEncode_injective {i j : Int63} (h : intEncode i.1 = intEncode j.1) : i = j := by
  have hi := rInt_of_at (h := mkSession) i.2
    (at_self (intEncode i.1)) rfl (Nat.lt_succ_self _)
  rw [h] at hi
  have hj := rInt_of_at (h := mkSession) j.2
    (at_self (intEncode j.1)) rfl (Nat.lt_succ_self _)
  rw [hi] at hj
  exact (Prod.mk.inj (Except.ok.inj hj)).1

theorem wordEncode_injective {w w' : Word63} (h : wordEncode w.1 = wordEncode w'.1) : w = w' := by
  have hw := rWord_of_at (h := mkSession)
    (at_self (wordEncode w.1)) rfl (Nat.lt_succ_self _)
  rw [h] at hw
  have hw' := rWord_of_at (h := mkSession)
    (at_self (wordEncode w'.1)) rfl (Nat.lt_succ_self _)
  rw [hw] at hw'
  exact (Prod.mk.inj (Except.ok.inj hw')).1

theorem stringTree_injective : Function.Injective stringTree := fun _ _ h =>
  quoted_injective (Tree.node.inj h).2.1

/-- **A value is determined by its tree.** -/
theorem treeOf_injective (t : Ty) : Function.Injective (treeOf t) := by
  induction t with
  | int => exact fun i j h => intEncode_injective (Tree.node.inj h).2.1
  | word => exact fun i j h => wordEncode_injective (Tree.node.inj h).2.1
  | bool =>
    intro b b' h
    cases b <;> cases b'
    · rfl
    · exact absurd (Tree.node.inj h).2.1 (by decide)
    · exact absurd (Tree.node.inj h).2.1 (by decide)
    · rfl
  | string => exact stringTree_injective
  | intinf => exact stringTree_injective.comp intInfToString_injective
  | list t ih => exact fun l l' h => listTree_injective ih h
  | option t ih =>
    intro x y h
    cases x <;> cases y
    · rfl
    · exact absurd (Tree.node.inj h).2.1 (by decide)
    · exact absurd (Tree.node.inj h).2.1 (by decide)
    · exact congrArg some (ih (Tree.node.inj h).2.2)
  | pair t u iht ihu =>
    rintro ⟨x, x'⟩ ⟨y, y'⟩ h
    obtain ⟨h₁, h₂⟩ := Tree.and.inj (Tree.node.inj h).2.2
    rw [iht h₁, ihu h₂]
  | lazy t ih =>
    intro x y h
    funext u
    exact ih (Tree.thunk.inj h)
  | shared t ih => exact ih

/-- The trees that a reader meets at a type: those of its values, and for a list the trees of
its fives as well. -/
def TreeFor (t : Ty) (T : Tree) (v : Val t) : Prop :=
  T = treeOf t v ∨
    match t, v with
    | .list t, l => ∃ cl, l = fives cl ∧ T = chopsTree (treeOf t) cl
    | _, _ => False

theorem listTree_ne_chopsTree {α : Type} {f : α → Tree} (l : List α) (cl : List (Five α)) :
    listTree f l ≠ chopsTree f cl := by
  intro h
  obtain ⟨hd, cl', hchop, _, hlen⟩ := chop5_spec l
  rw [listTree_eq hchop] at h
  have hbound : ord (listChar hd.length !cl'.isEmpty) ≤ 57 := by
    rw [ord_listChar hlen]
    split_ifs <;> omega
  rcases cl with _ | ⟨⟨_, _, _, _, _⟩, r⟩
  · rw [(List.cons.inj (Tree.node.inj h).2.1).1] at hbound
    exact absurd hbound (by decide)
  · rw [(List.cons.inj (Tree.node.inj h).2.1).1] at hbound
    exact absurd hbound (by decide)

theorem TreeFor.unique {t : Ty} {T : Tree} {v v' : Val t} (h : TreeFor t T v)
    (h' : TreeFor t T v') : v = v' := by
  cases t with
  | list t =>
    rcases h with h | ⟨cl, rfl, h⟩ <;> rcases h' with h' | ⟨cl', rfl, h'⟩
    · exact treeOf_injective _ (h.symm.trans h')
    · exact absurd (h.symm.trans h') (listTree_ne_chopsTree _ _)
    · exact absurd (h'.symm.trans h) (listTree_ne_chopsTree _ _)
    · rw [chopsTree_injective (treeOf_injective t) (h.symm.trans h')]
  | int | word | bool | string | intinf | option | pair | lazy | shared =>
    rcases h with h | h
    · rcases h' with h' | h'
      · exact treeOf_injective _ (h.symm.trans h')
      · exact h'.elim
    · exact h.elim

/-! ### The heap -/

abbrev Owner := ∀ t : Ty, ℕ → Option (Val t)

def Owner.Holds (owner : Owner) (t : Ty) (c : ℕ) (v : Val t) : Prop := owner t c = some v

def Owner.Le (owner owner' : Owner) : Prop := ∀ t c v, owner.Holds t c v → owner'.Holds t c v

section Heap

variable (s : Str) (M : Finset ℕ) (Θ : ℕ → Tree × ℕ) (fuel : ℕ)

def Gives (owner : Owner) (t : Ty) (v : Val t) : Memo (Got t) → Prop
  | .thunk start => ∃ n q : ℕ, start = n ∧ Stored s M Θ (treeOf t v) n q ∧
      (treeOf t v).size + s.length ≤ fuel
  | .value x => Agree owner.Holds t x v

/-- **The invariant of the heap.** -/
structure Sound (owner : Owner) (h : Heap) : Prop where
  state : ∀ {p x e}, h.state p = some (x, e) →
    ∃ n q : ℕ, p = n ∧ e = q ∧ n ∈ M ∧ Θ n = (stringTree x, q)
  maps : ∀ {t p x e}, h.maps t p = some (x, e) → ∃ (n q : ℕ) (T : Tree) (v : Val t),
    p = n ∧ e = q ∧ n ∈ M ∧ Θ n = (T, q) ∧ TreeFor t T v ∧ Agree owner.Holds t x v
  memos : ∀ {t c v}, owner t c = some v → ∃ memo, h.memos t c = some memo ∧
    Gives s M Θ fuel owner t v memo
  cells : ∀ {t c v}, owner t c = some v → c < h.cells

/-- A reader ends with a sound heap, where cells still stand for their values. -/
def Run {α : Type} (owner : Owner) (h : Heap) (r : Reader α) (Q : Owner → Heap → α → Prop) :
    Prop :=
  ∃ x h' owner', r h = .ok (x, h') ∧ owner.Le owner' ∧ Sound s M Θ fuel owner' h' ∧
    Q owner' h' x

variable {s M Θ fuel} {α β : Type} {owner owner' : Owner} {h h' : Heap} {p e : ℕ}

theorem Owner.Le.refl (owner : Owner) : owner.Le owner := fun _ _ _ h => h

theorem Owner.Le.trans {owner'' : Owner} (h : owner.Le owner') (h' : owner'.Le owner'') :
    owner.Le owner'' := fun t c v hc => h' t c v (h t c v hc)

theorem Sound.seek (h₀ : Sound s M Θ fuel owner h) (p : ℤ) :
    Sound s M Θ fuel owner { h with pos := p } :=
  ⟨h₀.state, h₀.maps, h₀.memos, h₀.cells⟩

variable {Q : Owner → Heap → α → Prop} {t : Ty} {T : Tree} {v : Val t}

theorem Run.of_ok {r : Reader α} {x : α} (hr : r h = .ok (x, h'))
    (hsound : Sound s M Θ fuel owner h') (hQ : Q owner h' x) : Run s M Θ fuel owner h r Q :=
  ⟨x, h', owner, hr, .refl owner, hsound, hQ⟩

theorem Run.bind {r : Reader α} {f : α → Reader β} {Q' : Owner → Heap → β → Prop}
    (hr : Run s M Θ fuel owner h r Q)
    (hf : ∀ owner' h' x, owner.Le owner' → Sound s M Θ fuel owner' h' → Q owner' h' x →
      Run s M Θ fuel owner' h' (f x) Q') : Run s M Θ fuel owner h (r >>= f) Q' := by
  obtain ⟨x, h₁, owner₁, hok, hle, hsound, hQ⟩ := hr
  obtain ⟨y, h₂, owner₂, hok', hle', hsound', hQ'⟩ := hf owner₁ h₁ x hle hsound hQ
  exact ⟨y, h₂, owner₂, by rw [bind_ok hok, hok'], hle.trans hle', hsound', hQ'⟩

theorem Run.mono {r : Reader α} {Q' : Owner → Heap → α → Prop} (hr : Run s M Θ fuel owner h r Q)
    (hQ : ∀ owner' h' x, owner.Le owner' → Q owner' h' x → Q' owner' h' x) :
    Run s M Θ fuel owner h r Q' := by
  obtain ⟨x, h₁, owner₁, hok, hle, hsound, hx⟩ := hr
  exact ⟨x, h₁, owner₁, hok, hle, hsound, hQ _ _ _ hle hx⟩

/-! ### Sharing -/

/-- A sharing map has values that are related to the nodes at their positions. -/
structure Shares (s : Str) (M : Finset ℕ) (Θ : ℕ → Tree × ℕ) (fuel : ℕ) (m : MapRef α)
    (E : Owner → Tree → α → Prop) : Prop where
  get : ∀ {owner h p x e}, Sound s M Θ fuel owner h → m.get h p = some (x, e) →
    ∃ (n q : ℕ) (T : Tree), p = n ∧ e = q ∧ n ∈ M ∧ Θ n = (T, q) ∧ E owner T x
  set : ∀ {owner h} {n q : ℕ} {T : Tree} {x}, Sound s M Θ fuel owner h → n ∈ M →
    Θ n = (T, q) → E owner T x →
    Sound s M Θ fuel owner (m.set h (Function.update (m.get h) n (some (x, (q : ℤ)))))
  pos : ∀ {h f}, (m.set h f).pos = h.pos

theorem shares_state : Shares s M Θ fuel stateRef fun _ T x => T = stringTree x where
  get h₀ hget := by
    obtain ⟨n, q, hn, hq, hM, hΘ⟩ := h₀.state hget
    exact ⟨n, q, _, hn, hq, hM, hΘ, rfl⟩
  set := by
    intro owner h n q T x h₀ hn hΘ hT
    subst hT
    refine ⟨?_, h₀.maps, h₀.memos, h₀.cells⟩
    intro p y e hget
    change Function.update h.state (n : ℤ) (some (x, (q : ℤ))) p = some (y, e) at hget
    by_cases hp : p = n
    · rw [hp, Function.update_self] at hget
      cases hget
      exact ⟨n, q, hp, rfl, hn, hΘ⟩
    · rw [Function.update_of_ne hp] at hget
      exact h₀.state hget
  pos := rfl

def Fitting (t : Ty) (owner : Owner) (T : Tree) (x : Got t) : Prop :=
  ∃ v, TreeFor t T v ∧ Agree owner.Holds t x v

theorem Fitting.agree {x : Got t} (h : Fitting t owner T x) (hT : TreeFor t T v) :
    Agree owner.Holds t x v := by
  obtain ⟨v', hT', hx⟩ := h
  rw [hT.unique hT']
  exact hx

theorem shares_map (t : Ty) : Shares s M Θ fuel (mapRef t) (Fitting t) where
  get h₀ hget := by
    obtain ⟨n, q, T, v, hn, hq, hM, hΘ, hT, hx⟩ := h₀.maps hget
    exact ⟨n, q, T, hn, hq, hM, hΘ, v, hT, hx⟩
  set := by
    rintro owner h n q T x h₀ hn hΘ ⟨v, hT, hx⟩
    refine ⟨h₀.state, ?_, h₀.memos, h₀.cells⟩
    intro u p y e hget
    by_cases hu : u = t
    · subst hu
      have hget' : Function.update (h.maps u) n (some (x, (q : ℤ))) p = some (y, e) := by
        rw [← hget]
        exact congrFun (Function.update_self u _ h.maps).symm p
      by_cases hp : p = n
      · subst hp
        rw [Function.update_self] at hget'
        cases hget'
        exact ⟨n, q, T, v, rfl, rfl, hn, hΘ, hT, hx⟩
      · rw [Function.update_of_ne hp] at hget'
        exact h₀.maps hget'
    · refine h₀.maps (t := u) (p := p) ?_
      rw [← hget]
      exact congrFun (Function.update_of_ne hu _ h.maps).symm p
  pos := rfl

section Share

variable {m : MapRef α} {E : Owner → Tree → α → Prop} {r : Char → Reader α} {ti : ℤ} {d : Char}
  {c : Str} {arg : Tree}

theorem firsttime_run (hm : Shares s M Θ fuel m E) (hd : ord d < 127) (hp : p ∈ M)
    (hΘ : Θ p = (.node ti (d :: c) arg, e))
    (hr : Run s M Θ fuel owner h (r d) fun owner' h' x =>
      h'.pos = e ∧ E owner' (.node ti (d :: c) arg) x) :
    Run s M Θ fuel owner h (firsttime m r p (Char.ofNat (ord d + 128))) fun owner' h' x =>
      h'.pos = e ∧ E owner' (.node ti (d :: c) arg) x := by
  have hchr : chr ((ord (Char.ofNat (ord d + 128)) : ℤ) - 128) = .ok d := by
    rw [ord_ofNat (by omega), Nat.cast_add, chr, if_pos (by omega)]
    refine congrArg _ ?_
    rw [show ((ord d : ℤ) + (128 : ℕ) - 128).toNat = ord d by omega]
    exact Char.ofNat_toNat d
  obtain ⟨x, h₁, owner₁, hok, hle, hsound, hpos, hx⟩ := hr
  refine ⟨x, _, owner₁, ?_, hle, hm.set hsound hp hΘ hx, hm.pos.trans hpos, hx⟩
  rw [firsttime, hchr, bind_ok (rfl : (liftM (Except.ok d) : Reader Char) h = .ok (d, h)),
    bind_ok hok]
  change Except.ok (x, m.set h₁ (Function.update (m.get h₁) p (some (x, h₁.pos)))) = _
  rw [hpos]

variable (fuel m r) in
theorem share_marked {ch : Char} (hch : s[p]? = some ch) (hp : h.pos = p)
    (hlow : ¬ord ch < 128) (hne : ch ≠ backrefChar) :
    share s fuel m r h = match m.get { h with pos := (p + 1 : ℕ) } p with
      | some (v, pos') => .ok (v, { h with pos := pos' })
      | none => firsttime m r p ch { h with pos := (p + 1 : ℕ) } := by
  have hsub : ((p + 1 : ℕ) : ℤ) - 1 = p := by omega
  rw [share, bind_ok (rd_of_at hch hp), if_neg hlow, if_neg hne]
  change (match m.get { h with pos := (p + 1 : ℕ) } (((p + 1 : ℕ) : ℤ) - 1) with
    | some (v, pos') => (do
      seek pos'
      return v : Reader α)
    | none => firsttime m r (((p + 1 : ℕ) : ℤ) - 1) ch) { h with pos := (p + 1 : ℕ) } = _
  rw [hsub]
  cases m.get { h with pos := (p + 1 : ℕ) } p <;> rfl

theorem share_backref {i : ℕ} (href : At s p (backrefChar :: intEncode i)) (hp : h.pos = p)
    (hi : -2 ^ 62 ≤ (i : ℤ) ∧ (i : ℤ) < 2 ^ 62) (hfuel : s.length < fuel) :
    share s fuel m r h =
      match m.get { h with pos := (p + 1 + (intEncode i).length : ℕ) } i with
      | some (v, _) => .ok (v, { h with pos := (p + 1 + (intEncode i).length : ℕ) })
      | none => (do
        let v ← firsttime m r i (← rd s)
        seek (p + 1 + (intEncode i).length : ℕ)
        return v : Reader α) { h with pos := i } := by
  obtain ⟨hhead, htail⟩ := at_cons.1 href
  have hint : fInt s fuel { h with pos := (p + 1 : ℕ) } = _ := rInt_of_at hi htail rfl hfuel
  rw [share, bind_ok (rd_of_at hhead hp), if_neg (by decide), if_pos rfl, bind_ok hint]
  change (match m.get { h with pos := (p + 1 + (intEncode i).length : ℕ) } i with
    | some (v, _) => (return v : Reader α)
    | none => do
      let here ← cur
      seek i
      let v ← firsttime m r i (← rd s)
      seek here
      return v) { h with pos := (p + 1 + (intEncode i).length : ℕ) } = _
  cases m.get { h with pos := (p + 1 + (intEncode i).length : ℕ) } i <;> rfl

/-- **A node is read**, where its text is, where it was read before or by a reference to it. -/
theorem share_run (hm : Shares s M Θ fuel m E) (hmax : s.length ≤ maxSize)
    (hfuel : s.length < fuel) (hd : ord d < 127)
    (hT : Stored s M Θ (.node ti (d :: c) arg) p e) (hsound : Sound s M Θ fuel owner h)
    (hp : h.pos = p)
    (hr : ∀ {h : Heap} {q e : ℕ}, Sound s M Θ fuel owner h → h.pos = (q + 1 : ℕ) →
      At s (q + 1) c → Stored s M Θ arg (q + (d :: c).length) e →
      Run s M Θ fuel owner h (r d) fun owner' h' x =>
        h'.pos = e ∧ E owner' (.node ti (d :: c) arg) x) :
    Run s M Θ fuel owner h (share s fuel m r) fun owner' h' x =>
      h'.pos = e ∧ E owner' (.node ti (d :: c) arg) x := by
  -- the first character of a marked node is no back reference
  have hord : ord (Char.ofNat (ord d + 128)) = ord d + 128 := ord_ofNat (by omega)
  have hmarked : Char.ofNat (ord d + 128) ≠ backrefChar := by
    intro heq
    have hord' := congrArg ord heq
    rw [hord, backrefChar, ord_ofNat (by decide)] at hord'
    omega
  have hread : ∀ {p' e' : ℕ} {h' : Heap}, p' ∈ M → At s p' (markAt M p' (d :: c)) →
      Θ p' = (.node ti (d :: c) arg, e') → Stored s M Θ arg (p' + (d :: c).length) e' →
      Sound s M Θ fuel owner h' → h'.pos = (p' + 1 : ℕ) →
      Run s M Θ fuel owner h' (firsttime m r p' (Char.ofNat (ord d + 128))) fun owner' h' x =>
        h'.pos = e' ∧ E owner' (.node ti (d :: c) arg) x := by
    intro p' e' h' hp' hat hΘ harg hsound' hpos'
    rw [markAt, at_cons] at hat
    exact firsttime_run hm hd hp' hΘ (hr hsound' hpos' hat.2 harg)
  cases hT with
  | node hc hM args =>
    obtain ⟨hhead, htail⟩ := at_cons.1 hc
    by_cases hpM : p ∈ M
    · rw [if_pos hpM] at hhead
      obtain ⟨_, hΘ⟩ := hM hpM
      have hshare := share_marked fuel m r hhead hp (by omega) hmarked
      cases hget : m.get { h with pos := (p + 1 : ℕ) } p with
      | some y =>
        obtain ⟨x, e'⟩ := y
        obtain ⟨n, q, T, hn, rfl, _, hΘ', hx⟩ := hm.get (hsound.seek _) hget
        cases Nat.cast_injective hn
        rw [hΘ] at hΘ'
        cases hΘ'
        rw [hget] at hshare
        exact Run.of_ok hshare (hsound.seek _) ⟨rfl, hx⟩
      | none =>
        rw [hget] at hshare
        obtain ⟨x, h₁, owner₁, hok, hrest⟩ := hread hpM hc hΘ args (hsound.seek _) rfl
        exact ⟨x, h₁, owner₁, hshare.trans hok, hrest⟩
    · rw [if_neg hpM] at hhead
      obtain ⟨x, h₁, owner₁, hok, hrest⟩ := hr (hsound.seek (p + 1 : ℕ)) rfl htail args
      refine ⟨x, h₁, owner₁, ?_, hrest⟩
      rw [share, bind_ok (rd_of_at hhead hp), if_pos (by omega), hok]
  | @back _ _ _ _ i e' href hi hM hc args =>
    have hile : i + (d :: c).length ≤ s.length := by
      refine hc.length_le ?_
      exact List.cons_ne_nil _ _
    have hbound : -2 ^ 62 ≤ (i : ℤ) ∧ (i : ℤ) < 2 ^ 62 := by
      rw [maxSize] at hmax
      omega
    have hshare := share_backref (m := m) (r := r) href hp hbound hfuel
    cases hget : m.get { h with pos := (p + 1 + (intEncode i).length : ℕ) } i with
    | some y =>
      obtain ⟨n, q, T, hn, _, _, hΘ', hx⟩ := hm.get (hsound.seek _) hget
      cases Nat.cast_injective hn
      rw [hM.2] at hΘ'
      cases hΘ'
      rw [hget] at hshare
      exact Run.of_ok hshare (hsound.seek _) ⟨rfl, hx⟩
    | none =>
      rw [hget] at hshare
      have hhead : s[i]? = some (Char.ofNat (ord d + 128)) := by
        have hat := hc
        rw [markAt, if_pos hi, at_cons] at hat
        exact hat.1
      obtain ⟨x, h₁, owner₁, hok, hle, hsound₁, _, hx⟩ :=
        hread hi hc hM.2 args (hsound.seek (i + 1 : ℕ)) rfl
      refine ⟨x, { h₁ with pos := (p + 1 + (intEncode i).length : ℕ) }, owner₁,
        hshare.trans ?_, hle, hsound₁.seek _, rfl, hx⟩
      rw [bind_ok (rd_of_at hhead rfl), bind_ok hok]
      rfl

end Share

/-! ### Lists -/

def ReadsAt (s : Str) (M : Finset ℕ) (Θ : ℕ → Tree × ℕ) (fuel : ℕ) (t : Ty) (v : Val t) : Prop :=
  ∀ {owner h} {p e : ℕ}, Stored s M Θ (treeOf t v) p e → Sound s M Θ fuel owner h → h.pos = p →
    Run s M Θ fuel owner h (reader s fuel t) fun owner' h' x =>
      h'.pos = e ∧ Agree owner'.Holds t x v

theorem stored_seq_cons {l : List Tree} (h : Stored s M Θ (.seq (T :: l)) p e) :
    ∃ q, Stored s M Θ T p q ∧ Stored s M Θ (.seq l) q e := by
  cases l with
  | nil => exact ⟨e, h, .nil⟩
  | cons U l =>
    cases h with
    | and left right => exact ⟨_, left, right⟩

theorem stored_seq_append (l l' : List Tree) (h : Stored s M Θ (.seq (l ++ l')) p e) :
    ∃ q, Stored s M Θ (.seq l) p q ∧ Stored s M Θ (.seq l') q e := by
  induction l generalizing p with
  | nil => exact ⟨p, .nil, h⟩
  | cons T l ih =>
    obtain ⟨q, hT, hrest⟩ := stored_seq_cons h
    obtain ⟨q', hl, hl'⟩ := ih hrest
    cases l with
    | nil =>
      cases hl
      exact ⟨q, hT, hl'⟩
    | cons U l => exact ⟨q', .and hT hl, hl'⟩

def readN (r : Reader α) : ℕ → Reader (List α)
  | 0 => return []
  | n + 1 => do return (← r) :: (← readN r n)

theorem readN_run {t : Ty} : ∀ {l : List (Val t)}, (∀ a ∈ l, ReadsAt s M Θ fuel t a) →
    ∀ {owner h} {p e : ℕ}, Stored s M Θ (.seq (l.map (treeOf t))) p e →
    Sound s M Θ fuel owner h → h.pos = p →
    Run s M Θ fuel owner h (readN (reader s fuel t) l.length) fun owner' h' x =>
      h'.pos = e ∧ Agree owner'.Holds (.list t) x l
  | [], _, owner, h, p, e, hT, hsound, hp => by
    cases hT
    exact Run.of_ok rfl hsound ⟨hp, .nil⟩
  | a :: l, hl, owner, h, p, e, hT, hsound, hp => by
    obtain ⟨q, ha, hrest⟩ := stored_seq_cons hT
    refine Run.bind (hl a List.mem_cons_self ha hsound hp) fun owner₁ h₁ x _ hsound₁ hx => ?_
    refine Run.bind (readN_run (fun b hb => hl b (List.mem_cons_of_mem a hb)) hrest hsound₁ hx.1)
      fun owner₂ h₂ xs hle hsound₂ hxs => ?_
    exact Run.of_ok rfl hsound₂ ⟨hxs.1, .cons (hx.2.mono hle) hxs.2⟩

theorem agree_append {P : ∀ t, ℕ → Val t → Prop} {x x' : List (Got t)} {l l' : List (Val t)}
    (h : Agree P (.list t) x l) (h' : Agree P (.list t) x' l') :
    Agree P (.list t) (x ++ x') (l ++ l') := List.rel_append h h'

theorem rChops_succ (m : MapRef (List α)) (r : Reader α) (rounds : ℕ) :
    rChops s fuel m r (rounds + 1) = share s fuel m fun c =>
      if c = 'N' then return []
      else if c = 'C' then do
        let hd ← readN r 5
        return hd ++ (← rChops s fuel m r rounds)
      else throw .format := by
  refine congrArg _ (funext fun c => ?_)
  split
  · rfl
  · simp [readN]
  · rename_i hN hC
    rw [if_neg hN, if_neg hC]

theorem rListAt_eq (m : MapRef (List α)) (r : Reader α) {n : ℕ} (hn : n ≤ 4) (b : Bool) :
    rListAt s fuel m r (listChar n b) = (do
      let hd ← readN r n
      return hd ++ (← if b then rChops s fuel m r fuel else pure [])) := by
  interval_cases n <;> cases b
  · change rListAt s fuel m r '0' = _
    simp [rListAt, readN]
  · change rListAt s fuel m r '5' = _
    simp [rListAt, readN]
  · change rListAt s fuel m r '1' = _
    simp [rListAt, readN]
  · change rListAt s fuel m r '6' = _
    simp [rListAt, readN]
  · change rListAt s fuel m r '2' = _
    simp [rListAt, readN]
  · change rListAt s fuel m r '7' = _
    simp [rListAt, readN]
  · change rListAt s fuel m r '3' = _
    simp [rListAt, readN]
  · change rListAt s fuel m r '8' = _
    simp [rListAt, readN]
  · change rListAt s fuel m r '4' = _
    simp [rListAt, readN]
  · change rListAt s fuel m r '9' = _
    simp [rListAt, readN]

theorem rChops_run {t : Ty} (hmax : s.length ≤ maxSize) (hfuel : s.length < fuel) :
    ∀ (cl : List (Five (Val t))), (∀ a ∈ fives cl, ReadsAt s M Θ fuel t a) →
    ∀ {rounds : ℕ}, cl.length < rounds → ∀ {owner h} {p e : ℕ},
    Stored s M Θ (chopsTree (treeOf t) cl) p e → Sound s M Θ fuel owner h → h.pos = p →
    Run s M Θ fuel owner h (rChops s fuel (mapRef (.list t)) (reader s fuel t) rounds)
      fun owner' h' x => h'.pos = e ∧ Agree owner'.Holds (.list t) x (fives cl)
  | [], _, rounds, hrounds, owner, h, p, e, hT, hsound, hp => by
    obtain ⟨rounds, rfl⟩ := Nat.exists_eq_add_one.2 hrounds
    have htree : TreeFor (.list t) (chopsTree (treeOf t) []) [] := Or.inr ⟨[], rfl, rfl⟩
    rw [rChops_succ]
    refine (share_run (shares_map (.list t)) hmax hfuel (by decide) hT hsound hp ?_).mono
      fun owner' h' x _ hx => ⟨hx.1, hx.2.agree htree⟩
    intro h' q e' hsound' hpos _ harg
    cases harg
    exact Run.of_ok rfl hsound' ⟨hpos, [], htree, .nil⟩
  | (a₁, a₂, a₃, a₄, a₅) :: cl, hl, rounds, hrounds, owner, h, p, e, hT, hsound, hp => by
    obtain ⟨rounds, rfl⟩ := Nat.exists_eq_add_one.2 (Nat.zero_lt_of_lt hrounds)
    have htree : TreeFor (.list t) (chopsTree (treeOf t) ((a₁, a₂, a₃, a₄, a₅) :: cl))
        (fives ((a₁, a₂, a₃, a₄, a₅) :: cl)) := Or.inr ⟨_, rfl, rfl⟩
    have hmem : ∀ a ∈ [a₁, a₂, a₃, a₄, a₅] ++ fives cl, ReadsAt s M Θ fuel t a := hl
    rw [rChops_succ]
    refine (share_run (shares_map (.list t)) hmax hfuel (by decide) hT hsound hp ?_).mono
      fun owner' h' x _ hx => ⟨hx.1, hx.2.agree htree⟩
    intro h' q e' hsound' hpos _ harg
    obtain ⟨q', hhd, htl⟩ := stored_seq_append
      ([a₁, a₂, a₃, a₄, a₅].map (treeOf t)) [chopsTree (treeOf t) cl] harg
    rw [if_neg (by decide)]
    refine Run.bind (readN_run (fun a ha => hmem a (List.mem_append_left _ ha)) hhd hsound' hpos)
      fun owner₁ h₁ x _ hsound₁ hx => ?_
    refine Run.bind (rChops_run hmax hfuel cl (fun a ha => hmem a (List.mem_append_right _ ha))
      (Nat.lt_of_succ_lt_succ hrounds) htl hsound₁ hx.1) fun owner₂ h₂ y hle hsound₂ hy => ?_
    exact Run.of_ok rfl hsound₂ ⟨hy.1, _, htree, agree_append (hx.2.mono hle) hy.2⟩

theorem length_lt_size_chopsTree {f : α → Tree} : ∀ cl : List (Five α),
    cl.length < (chopsTree f cl).size
  | [] => Nat.succ_pos _
  | (_, _, _, _, _) :: cl => by
    have := length_lt_size_chopsTree (f := f) cl
    simp only [chopsTree, Tree.size, Tree.seq, List.length_cons]
    omega

theorem size_le_seq {l : List Tree} (h : T ∈ l) : T.size ≤ (Tree.seq l).size := by
  induction l with
  | nil => exact absurd h List.not_mem_nil
  | cons U l ih =>
    rcases l with _ | ⟨V, l⟩
    · rw [List.mem_singleton.1 h]
      exact le_rfl
    · rcases List.mem_cons.1 h with rfl | h
      · exact Nat.le_add_right _ _
      · exact (ih h).trans (Nat.le_add_left _ _)

theorem size_le_chopsTree {f : α → Tree} {a : α} : ∀ {cl : List (Five α)}, a ∈ fives cl →
    (f a).size ≤ (chopsTree f cl).size
  | [], h => absurd h List.not_mem_nil
  | (a₁, a₂, a₃, a₄, a₅) :: cl, h => by
    have hseq : (f a).size ≤
        (Tree.seq [f a₁, f a₂, f a₃, f a₄, f a₅, chopsTree f cl]).size := by
      simp only [fives, List.mem_cons] at h
      rcases h with rfl | rfl | rfl | rfl | rfl | h
      · exact size_le_seq (by simp)
      · exact size_le_seq (by simp)
      · exact size_le_seq (by simp)
      · exact size_le_seq (by simp)
      · exact size_le_seq (by simp)
      · exact (size_le_chopsTree h).trans
          (size_le_seq (by simp))
    exact hseq.trans (Nat.le_succ _)

theorem size_le_listTree {f : α → Tree} {a : α} {l : List α} (h : a ∈ l) :
    (f a).size ≤ (listTree f l).size := by
  obtain ⟨hd, cl, hchop, rfl, _⟩ := chop5_spec l
  rw [listTree_eq hchop]
  refine le_trans ?_ (Nat.le_succ _)
  rcases List.mem_append.1 h with h | h
  · exact size_le_seq (List.mem_append_left _ (List.mem_map_of_mem h))
  · refine (size_le_chopsTree h).trans (size_le_seq (List.mem_append_right _ ?_))
    rw [if_neg]
    · exact List.mem_singleton_self _
    · rw [List.isEmpty_iff]
      rintro rfl
      exact absurd h List.not_mem_nil

theorem rList_run (hmax : s.length ≤ maxSize) {l : List (Val t)}
    (hfuel : (treeOf (.list t) l).size + s.length ≤ fuel) (hl : ∀ a ∈ l, ReadsAt s M Θ fuel t a) :
    ReadsAt s M Θ fuel (.list t) l := by
  intro owner h p e hT hsound hp
  have htree : TreeFor (.list t) (treeOf (.list t) l) l := Or.inl rfl
  have hlt : s.length < fuel := by
    have := (treeOf (.list t) l).size_pos
    omega
  obtain ⟨hd, cl, hchop, hl', hlen⟩ := chop5_spec l
  have hT' : treeOf (.list t) l = _ := listTree_eq hchop
  have hchar : ord (listChar hd.length !cl.isEmpty) < 127 := by
    rw [ord_listChar hlen]
    split_ifs <;> omega
  rw [hT'] at hT htree hfuel
  refine (share_run (shares_map (.list t)) hmax hlt hchar hT hsound hp ?_).mono
    fun owner' h' x _ hx => ⟨hx.1, hx.2.agree htree⟩
  intro h' q e' hsound' hpos _ harg
  obtain ⟨q', hhd, htl⟩ := stored_seq_append _ _ harg
  rw [rListAt_eq _ _ hlen]
  refine Run.bind (readN_run (fun a ha => hl a (hl' ▸ List.mem_append_left _ ha)) hhd hsound'
    hpos) fun owner₁ h₁ x _ hsound₁ hx => ?_
  cases cl with
  | nil =>
    cases htl
    refine Run.of_ok rfl hsound₁ ⟨hx.1, _, htree, ?_⟩
    rw [hl']
    exact agree_append hx.2 .nil
  | cons five cl =>
    have hrounds : (five :: cl).length < fuel := by
      have h₁ := length_lt_size_chopsTree (f := treeOf t) (five :: cl)
      have h₂ : (chopsTree (treeOf t) (five :: cl)).size ≤ _ :=
        size_le_seq (List.mem_append_right (hd.map (treeOf t)) (List.mem_singleton_self _))
      simp only [List.isEmpty_cons, Bool.false_eq_true, if_false, Tree.size] at hfuel
      omega
    refine Run.bind (rChops_run hmax hlt _ (fun a ha => hl a (hl' ▸ List.mem_append_right _ ha))
      hrounds htl hsound₁ hx.1) fun owner₂ h₂ y hle hsound₂ hy => ?_
    refine Run.of_ok rfl hsound₂ ⟨hy.1, _, htree, ?_⟩
    rw [hl']
    exact agree_append (hx.2.mono hle) hy.2

/-! ### The other types -/

theorem stored_leaf {ti : ℤ} {c : Str} (hti : ¬SharedTi ti)
    (hT : Stored s M Θ (.node ti c .nil) p e) : At s p c ∧ e = p + c.length := by
  cases hT with
  | node hc hM args =>
    have hp : p ∉ M := fun hp => hti (hM hp).1.1
    cases args
    rw [markAt_of_not_mem hp] at hc
    exact ⟨hc, rfl⟩
  | back href hi hM hc args => exact absurd hM.1.1 hti

theorem length_le_flatMap_esc (str : Str) : str.length ≤ (str.flatMap esc).length := by
  induction str with
  | nil => exact le_rfl
  | cons c str ih =>
    have hc : 1 ≤ (esc c).length := by
      rw [esc]
      split_ifs <;> simp
    rw [List.flatMap_cons, List.length_append, List.length_cons]
    omega

theorem rString_run (hmax : s.length ≤ maxSize) (hfuel : s.length < fuel) {str : Str}
    (hT : Stored s M Θ (stringTree str) p e) (hsound : Sound s M Θ fuel owner h)
    (hp : h.pos = p) :
    Run s M Θ fuel owner h (rString s fuel) fun _ h' x => h'.pos = e ∧ x = str := by
  refine (share_run shares_state hmax hfuel (by decide) hT hsound hp ?_).mono
    fun owner' h' x _ hx => ⟨hx.1, (stringTree_injective hx.2).symm⟩
  intro h' q e' hsound' hpos hat harg
  cases harg
  have hlen : str.length < fuel := by
    have hle := hat.length_le (List.append_ne_nil_of_right_ne_nil _ (List.cons_ne_nil _ _))
    have := length_le_flatMap_esc str
    rw [List.length_append] at hle
    omega
  have hloop := stringLoop_of_at (l := []) str hat hpos hlen
  refine Run.of_ok hloop (hsound'.seek _) ⟨?_, rfl⟩
  change ((q + 1 + (str.flatMap esc ++ [quote]).length : ℕ) : ℤ) =
    (q + (quote :: (str.flatMap esc ++ [quote])).length : ℕ)
  rw [List.length_cons]
  omega

theorem Stored.le_length (hT : Stored s M Θ T p e) (hp : p ≤ s.length) : e ≤ s.length := by
  induction hT with
  | nil => exact hp
  | and _ _ ihl ihr => exact ihr (ihl hp)
  | thunk hsize hq _ _ ih =>
    have := hsize.length_le (List.append_ne_nil_of_right_ne_nil _ (intEncode_ne_nil _))
    rw [List.length_append, List.length_replicate] at this
    omega
  | @node ti c arg p q hc _ _ ih =>
    refine ih ?_
    cases c with
    | nil => exact hp
    | cons d c =>
      have := hc.length_le (List.cons_ne_nil _ _)
      exact this
  | back href _ _ _ _ _ =>
    have := href.length_le (List.cons_ne_nil _ _)
    rw [List.length_cons] at this
    omega

theorem Gives.mono {memo : Memo (Got t)} (hle : owner.Le owner')
    (hg : Gives s M Θ fuel owner t v memo) : Gives s M Θ fuel owner' t v memo := by
  cases memo with
  | thunk start => exact hg
  | value x => exact Agree.mono hle hg

/-- A new cell. -/
theorem Sound.alloc (hsound : Sound s M Θ fuel owner h) {memo : Memo (Got t)}
    (hg : Gives s M Θ fuel owner t v memo) :
    ∃ owner' : Owner, owner.Le owner' ∧ owner'.Holds t h.cells v ∧
      Sound s M Θ fuel owner'
        { h with
          memos := Function.update h.memos t
            (Function.update (h.memos t) h.cells (some memo))
          cells := h.cells + 1 } := by
  let owner' : Owner :=
    Function.update owner t (Function.update (owner t) h.cells (some v))
  have hself : owner' t h.cells = some v := by
    simp [owner']
  have hcase : ∀ {u c} {w : Val u}, owner' u c = some w →
      (c = h.cells ∧ (⟨u, w⟩ : Σ t, Val t) = ⟨t, v⟩) ∨ owner u c = some w ∧ c < h.cells := by
    intro u c w hw
    by_cases hu : u = t
    · subst hu
      simp only [owner', Function.update_self] at hw
      by_cases hc : c = h.cells
      · subst hc
        rw [Function.update_self] at hw
        cases hw
        exact Or.inl ⟨rfl, rfl⟩
      · rw [Function.update_of_ne hc] at hw
        exact Or.inr ⟨hw, hsound.cells hw⟩
    · simp only [owner', Function.update_of_ne hu] at hw
      exact Or.inr ⟨hw, hsound.cells hw⟩
  have hle : owner.Le owner' := by
    intro u c w hw
    change owner' u c = some w
    have hc : c ≠ h.cells := (hsound.cells hw).ne
    by_cases hu : u = t
    · subst hu
      simp only [owner', Function.update_self, Function.update_of_ne hc]
      exact hw
    · simp only [owner', Function.update_of_ne hu]
      exact hw
  refine ⟨owner', hle, hself, hsound.state, ?_, ?_, ?_⟩
  · intro u q x e' hget
    obtain ⟨n, q', T, w, hn, hq, hM, hΘ, hT, hx⟩ := hsound.maps hget
    exact ⟨n, q', T, w, hn, hq, hM, hΘ, hT, hx.mono hle⟩
  · intro u c w hw
    rcases hcase hw with ⟨rfl, heq⟩ | ⟨hw', hc⟩
    · cases heq
      exact ⟨memo, by simp, hg.mono hle⟩
    · obtain ⟨memo', hmemo, hg'⟩ := hsound.memos hw'
      refine ⟨memo', ?_, hg'.mono hle⟩
      by_cases hu : u = t
      · subst hu
        simp only [Function.update_self, Function.update_of_ne hc.ne]
        exact hmemo
      · simp only [Function.update_of_ne hu]
        exact hmemo
  · intro u c w hw
    rcases hcase hw with ⟨rfl, _⟩ | ⟨_, hc⟩
    · exact Nat.lt_succ_self _
    · exact hc.trans (Nat.lt_succ_self _)

theorem rLazy_run (hmax : s.length ≤ maxSize) {v : Val (.lazy t)}
    (hfuel : (treeOf (.lazy t) v).size + s.length ≤ fuel) : ReadsAt s M Θ fuel (.lazy t) v := by
  intro owner h p e hT hsound hp
  change (treeOf t (v ())).size + 1 + s.length ≤ fuel at hfuel
  cases hT with
  | @thunk _ _ q k sz hsize hq hpos value =>
    have hlen := hsize.length_le (List.append_ne_nil_of_right_ne_nil _ (intEncode_ne_nil _))
    rw [List.length_append, List.length_replicate] at hlen
    have hend := value.le_length (by omega)
    have hsz : sz < 2 ^ 62 := by
      rw [maxSize] at hmax
      omega
    have hget := getSize_of_at hpos hsz hsize hp (by omega : s.length < fuel)
      (by omega : k < fuel)
    have hg : Gives s M Θ fuel owner t (v ()) (.thunk (q : ℕ)) :=
      ⟨q, q + sz, rfl, value, by omega⟩
    obtain ⟨owner', hle, hself, hsound'⟩ := (hsound.seek (q : ℕ)).alloc hg
    refine ⟨h.cells, _, owner', ?_, hle, hsound'.seek (q + sz : ℕ), rfl, hself⟩
    change rLazy s fuel t h = _
    rw [rLazy, bind_ok hget, ← hq]
    change Except.ok (h.cells, _) = Except.ok (h.cells, _)
    rw [Nat.cast_add]

/-- **The reader of a type** reads the value that is stored. -/
theorem reader_run (hmax : s.length ≤ maxSize) (t : Ty) (v : Val t)
    (hfuel : (treeOf t v).size + s.length ≤ fuel) : ReadsAt s M Θ fuel t v := by
  induction t with
  | int =>
    intro owner h p e hT hsound hp
    obtain ⟨hat, rfl⟩ := stored_leaf (by decide) hT
    have hlt : s.length < fuel := by
      have := (treeOf .int v).size_pos
      omega
    exact Run.of_ok (rInt_of_at v.2 hat hp hlt) (hsound.seek _) ⟨rfl, rfl⟩
  | word =>
    intro owner h p e hT hsound hp
    obtain ⟨hat, rfl⟩ := stored_leaf (by decide) hT
    have hlt : s.length < fuel := by
      have := (treeOf .word v).size_pos
      omega
    exact Run.of_ok (rWord_of_at hat hp hlt) (hsound.seek _) ⟨rfl, rfl⟩
  | bool =>
    intro owner h p e hT hsound hp
    obtain ⟨hat, rfl⟩ := stored_leaf (by decide) hT
    refine Run.of_ok ?_ (hsound.seek (p + 1 : ℕ)) ⟨rfl, rfl⟩
    change rBool s h = _
    rw [rBool, nonshare, bind_ok (rd_of_at (at_cons.1 hat).1 hp)]
    cases v <;> rfl
  | string =>
    intro owner h p e hT hsound hp
    have hlt : s.length < fuel := by
      have := (treeOf .string v).size_pos
      omega
    exact rString_run hmax hlt hT hsound hp
  | intinf =>
    intro owner h p e hT hsound hp
    have hlt : s.length < fuel := by
      have := (treeOf .intinf v).size_pos
      omega
    refine Run.bind (rString_run hmax hlt hT hsound hp) fun owner' h' x _ hsound' hx => ?_
    rw [hx.2, intInfFromString_toString]
    exact Run.of_ok rfl hsound' ⟨hx.1, rfl⟩
  | list t ih =>
    refine rList_run hmax hfuel fun a ha => ih a ?_
    have : (treeOf t a).size ≤ (treeOf (.list t) v).size := size_le_listTree ha
    omega
  | option t ih =>
    intro owner h p e hT hsound hp
    have hlt : s.length < fuel := by
      have := (treeOf (.option t) v).size_pos
      omega
    have htree : TreeFor (.option t) (treeOf (.option t) v) v := Or.inl rfl
    cases v with
    | none =>
      refine (share_run (shares_map (.option t)) hmax hlt (by decide) hT hsound hp ?_).mono
        fun owner' h' x _ hx => ⟨hx.1, hx.2.agree htree⟩
      intro h' q e' hsound' hpos _ harg
      cases harg
      exact Run.of_ok rfl hsound' ⟨hpos, none, htree, .none⟩
    | some v =>
      refine (share_run (shares_map (.option t)) hmax hlt (by decide) hT hsound hp ?_).mono
        fun owner' h' x _ hx => ⟨hx.1, hx.2.agree htree⟩
      intro h' q e' hsound' hpos _ harg
      have hv : (treeOf t v).size + s.length ≤ fuel := by
        change (treeOf t v).size + 1 + s.length ≤ fuel at hfuel
        omega
      refine Run.bind (ih v hv harg hsound' hpos) fun owner₁ h₁ x _ hsound₁ hx => ?_
      exact Run.of_ok rfl hsound₁ ⟨hx.1, some v, htree, .some hx.2⟩
  | pair t u iht ihu =>
    intro owner h p e hT hsound hp
    obtain ⟨v, w⟩ := v
    have hlt : s.length < fuel := by
      have := (treeOf (.pair t u) (v, w)).size_pos
      omega
    have htree : TreeFor (.pair t u) (treeOf (.pair t u) (v, w)) (v, w) := Or.inl rfl
    change (treeOf t v).size + (treeOf u w).size + 1 + s.length ≤ fuel at hfuel
    refine (share_run (shares_map (.pair t u)) hmax hlt (by decide) hT hsound hp ?_).mono
      fun owner' h' x _ hx => ⟨hx.1, hx.2.agree htree⟩
    intro h' q e' hsound' hpos _ harg
    cases harg with
    | and left right =>
      refine Run.bind (iht v (by omega) left hsound' hpos) fun owner₁ h₁ x _ hsound₁ hx => ?_
      refine Run.bind (ihu w (by omega) right hsound₁ hx.1) fun owner₂ h₂ y hle hsound₂ hy => ?_
      exact Run.of_ok rfl hsound₂ ⟨hy.1, (v, w), htree, hx.2.mono hle, hy.2⟩
  | lazy t ih => exact rLazy_run hmax hfuel
  | shared t ih => exact ih v hfuel

theorem force_thunk {c : ℕ} {start : ℤ} {x : Got t} (hmemo : h.memos t c = some (.thunk start))
    (hok : reader s fuel t { h with pos := start } = .ok (x, h')) :
    force s fuel t c h = .ok (x, { h' with
      pos := h.pos
      memos := Function.update h'.memos t
        (Function.update (h'.memos t) c (some (.value x))) }) := by
  rw [force, bind_ok (show (get : Reader Heap) h = .ok (h, h) from rfl)]
  simp only [hmemo]
  change (reader s fuel t >>= fun v => (do
    seek h.pos
    modify fun h =>
      { h with
        memos := Function.update h.memos t (Function.update (h.memos t) c (some (.value v))) }
    return v : Reader (Got t))) { h with pos := start } = _
  rw [bind_ok hok]
  rfl

/-- **Forcing a thunk** yields its value. -/
theorem force_run (hmax : s.length ≤ maxSize) {c : ℕ} (hsound : Sound s M Θ fuel owner h)
    (hc : owner.Holds t c v) :
    Run s M Θ fuel owner h (force s fuel t c) fun owner' h' x =>
      h'.pos = h.pos ∧ Agree owner'.Holds t x v := by
  obtain ⟨memo, hmemo, hg⟩ := hsound.memos hc
  cases memo with
  | value x =>
    refine Run.of_ok (?_ : _ = Except.ok (x, h)) hsound ⟨rfl, hg⟩
    rw [force, bind_ok (show (get : Reader Heap) h = .ok (h, h) from rfl)]
    simp only [hmemo]
    rfl
  | thunk start =>
    obtain ⟨n, q, rfl, hT, hfuel⟩ := hg
    obtain ⟨x, h₁, owner₁, hok, hle, hsound₁, _, hx⟩ :=
      reader_run hmax t v hfuel hT (hsound.seek (n : ℕ)) rfl
    refine ⟨x, { h₁ with
      pos := h.pos
      memos := Function.update h₁.memos t (Function.update (h₁.memos t) c (some (.value x))) },
      owner₁, ?_, hle, ⟨hsound₁.state, hsound₁.maps, ?_, hsound₁.cells⟩, rfl, hx⟩
    · exact force_thunk hmemo hok
    · intro u c' w hw
      by_cases hu : u = t
      · subst hu
        by_cases hc' : c' = c
        · subst hc'
          have heq : w = v := Option.some.inj (hw.symm.trans (hle _ _ _ hc))
          subst heq
          exact ⟨.value x, by simp, hx⟩
        · obtain ⟨memo, hmemo', hg'⟩ := hsound₁.memos hw
          refine ⟨memo, ?_, hg'⟩
          simp only [Function.update_self, Function.update_of_ne hc']
          exact hmemo'
      · obtain ⟨memo, hmemo', hg'⟩ := hsound₁.memos hw
        refine ⟨memo, ?_, hg'⟩
        simp only [Function.update_of_ne hu]
        exact hmemo'

end Heap

end SmlNj.PickleUtil
