import SmlNj.Library.PickleUtil

/-!
# The types and trees of pickled values

The types that the combinators build, with a marker for the places where a
pickler is wrapped in ad-hoc sharing.  A value of a thunk is a function for the
pickler; the unpickler returns a cell in its place.

The untyped tree that is behind a pickled value, and what it means that a text
holds a tree.  A node is a constructor of a type, with its text.  The picklers
identify nodes by their shape, in which thunks have disappeared; the readers do
not skip the sizes of thunks that they do not expect.  So a value is read back
when nodes of one shape are one tree.

Flattening goes through the concatenation tree from its end and marks the
strings at the positions that are shared.  It yields the text in which every
string is marked exactly when its position is shared, provided that every
shared position is the position of a string.

## Main definitions

* `Ty`, `Value`, `Val` — the types and their values.
* `pickler` — the pickler of a type.
* `Tree`, `treeOf` — the trees, and the tree of a value.
* `Shape`, `Tree.shapes` — what the codes of a pickle identify.
* `Tree.Coherent` — nodes with one shape are equal.
* `Stored` — a text holds a tree from one position to another, where a node may
  be replaced by a reference to a marked node.
* `render` — the text of a concatenation tree with its marks.
* `ChunkAt` — a string of the tree begins at a position.

## Main results

* `pr2s_eq` — flattening yields `render`.
-/

namespace SmlNj.PickleUtil

/-- The types of the combinators.  `shared t` is `t` with ad-hoc sharing around its pickler. -/
inductive Ty
  | int
  | word
  | bool
  | string
  | intinf
  | list (t : Ty)
  | option (t : Ty)
  | pair (t u : Ty)
  | lazy (t : Ty)
  | shared (t : Ty)
  deriving DecidableEq

/-- The values of a type, where `θ` represents thunks. -/
abbrev Value (θ : Type → Type) : Ty → Type
  | .int => Int63
  | .word => Word63
  | .bool => Bool
  | .string => Str
  | .intinf => ℤ
  | .list t => List (Value θ t)
  | .option t => Option (Value θ t)
  | .pair t u => Value θ t × Value θ u
  | .lazy t => θ (Value θ t)
  | .shared t => Value θ t

abbrev Val : Ty → Type := Value (Unit → ·)

variable {ahm : Type}

/-- The pickler of a type, with the user's map at each type. -/
def pickler (sh : ∀ t, AdHoc ahm (Val t)) : ∀ t, Val t → Pickle ahm
  | .int, i => wInt i
  | .word, w => wWord w
  | .bool, b => wBool b
  | .string, s => wString s
  | .intinf, n => wIntinf n
  | .list t, l => wList (pickler sh t) l
  | .option t, v => wOption (pickler sh t) v
  | .pair t u, v => wPair (pickler sh t) (pickler sh u) v
  | .lazy t, thunk => wLazy (pickler sh t) thunk
  | .shared t, v => ahShare (sh t) (pickler sh t) v

/-- The types whose readers expect a reference in the place of a value. -/
def Ty.isNode : Ty → Bool
  | .string | .intinf | .list _ | .option _ | .pair _ _ => true
  | .int | .word | .bool | .lazy _ | .shared _ => false

/-- The values under ad-hoc sharing at a type whose reader expects no reference. -/
@[grind =] def bare : ∀ t, Val t → List (Σ t, Val t)
  | .int, _ => []
  | .word, _ => []
  | .bool, _ => []
  | .string, _ => []
  | .intinf, _ => []
  | .list t, l => l.flatMap (bare t)
  | .option _, none => []
  | .option t, some v => bare t v
  | .pair t u, (v, w) => bare t v ++ bare u w
  | .lazy t, v => bare t (v ())
  | .shared t, v => (if t.isNode then [] else [⟨t, v⟩]) ++ bare t v

theorem isNode_of_mem_bare {t : Ty} {v : Val t} {x : Σ t, Val t} (h : x ∈ bare t v) :
    x.1.isNode = false := by
  induction t with
  | int | word | bool | string | intinf => exact absurd h List.not_mem_nil
  | list t ih =>
    obtain ⟨v, _, hx⟩ := List.mem_flatMap.1 h
    exact ih hx
  | option t ih =>
    cases v with
    | none => exact absurd h List.not_mem_nil
    | some v => exact ih h
  | pair t u iht ihu =>
    rcases List.mem_append.1 h with h | h
    · exact iht h
    · exact ihu h
  | lazy t ih => exact ih h
  | shared t ih =>
    rcases List.mem_append.1 h with h | h
    · cases ht : t.isNode
      · rw [ht] at h
        rw [List.mem_singleton.1 h]
        exact ht
      · rw [ht] at h
        exact absurd h List.not_mem_nil
    · exact ih h

/-- The user's maps are maps: what is found is what was inserted for the same value. -/
structure Lawful (sh : ∀ t, AdHoc ahm (Val t)) (emptyMap : ahm) : Prop where
  find_empty : ∀ t v, (sh t).find emptyMap v = none
  find_insert : ∀ {t u : Ty} {m : ahm} {v : Val t} {w : Val u} {i j : ℕ},
    (sh u).find ((sh t).insert m v i) w = some j →
      (⟨u, w⟩ : Σ t, Val t) = ⟨t, v⟩ ∧ j = i ∨ (sh u).find m w = some j

end SmlNj.PickleUtil

/-! ## The trees of pickled values -/

namespace SmlNj.PickleUtil

/-! ### Trees -/

/-- The tree of a pickle: sequences of pickles, thunks and nodes. -/
inductive Tree
  | nil
  | and (T U : Tree)
  | thunk (T : Tree)
  | node (ti : ℤ) (c : Str) (arg : Tree)
  deriving DecidableEq

/-- A node without its thunks. -/
inductive Shape
  | node (ti : ℤ) (c : Str) (args : List Shape)

mutual

def Shape.decEq : ∀ s s' : Shape, Decidable (s = s')
  | .node ti c args, .node ti' c' args' =>
    if h : ti = ti' ∧ c = c' then
      match Shape.decEqAll args args' with
      | isTrue h' => isTrue (by rw [h.1, h.2, h'])
      | isFalse h' => isFalse fun heq => h' (Shape.node.inj heq).2.2
    else isFalse fun heq => h ⟨(Shape.node.inj heq).1, (Shape.node.inj heq).2.1⟩

def Shape.decEqAll : ∀ l l' : List Shape, Decidable (l = l')
  | [], [] => isTrue rfl
  | [], _ :: _ => isFalse (List.cons_ne_nil _ _).symm
  | _ :: _, [] => isFalse (List.cons_ne_nil _ _)
  | s :: l, s' :: l' =>
    match Shape.decEq s s', Shape.decEqAll l l' with
    | isTrue h, isTrue h' => isTrue (by rw [h, h'])
    | isFalse h, _ => isFalse fun heq => h (List.cons.inj heq).1
    | _, isFalse h' => isFalse fun heq => h' (List.cons.inj heq).2

end

instance : DecidableEq Shape := Shape.decEq

namespace Tree

/-- The shapes that a tree is a sequence of. -/
def shapes : Tree → List Shape
  | nil => []
  | and T U => T.shapes ++ U.shapes
  | thunk T => T.shapes
  | node ti c arg => [.node ti c arg.shapes]

/-- All nodes of a tree. -/
def nodes : Tree → List Tree
  | nil => []
  | and T U => T.nodes ++ U.nodes
  | thunk T => T.nodes
  | node ti c arg => node ti c arg :: arg.nodes

/-- The number of constructors of a tree. -/
def size : Tree → ℕ
  | nil => 1
  | and T U => T.size + U.size
  | thunk T => T.size + 1
  | node _ _ arg => arg.size + 1

theorem size_pos : ∀ T : Tree, 0 < T.size
  | nil => Nat.one_pos
  | and T _ => Nat.add_pos_left (size_pos T) _
  | thunk _ => Nat.succ_pos _
  | node _ _ _ => Nat.succ_pos _

theorem size_le_of_mem_nodes {a : Tree} : ∀ {T : Tree}, a ∈ T.nodes → a.size ≤ T.size
  | nil, h => absurd h List.not_mem_nil
  | and T U, h => by
    rcases List.mem_append.1 h with h | h
    · exact (size_le_of_mem_nodes h).trans (Nat.le_add_right _ _)
    · exact (size_le_of_mem_nodes h).trans (Nat.le_add_left _ _)
  | thunk T, h => (size_le_of_mem_nodes (T := T) h).trans (Nat.le_succ _)
  | node ti c arg, h => by
    rcases List.mem_cons.1 h with rfl | h
    · exact le_rfl
    · exact (size_le_of_mem_nodes h).trans (Nat.le_succ _)

theorem not_mem_nodes_arg {ti : ℤ} {c : Str} {arg : Tree} : node ti c arg ∉ arg.nodes := fun h =>
  absurd (size_le_of_mem_nodes h) (Nat.not_succ_le_self _)

def CoherentOn (U : List Tree) : Prop := ∀ a ∈ U, ∀ b ∈ U, a.shapes = b.shapes → a = b

/-- **Coherence**: two nodes that differ only in where their thunks are do not occur. -/
def Coherent (T : Tree) : Prop := CoherentOn T.nodes

instance (T : Tree) : Decidable T.Coherent :=
  inferInstanceAs (Decidable (∀ a ∈ T.nodes, ∀ b ∈ T.nodes, a.shapes = b.shapes → a = b))

def seq : List Tree → Tree
  | [] => nil
  | [T] => T
  | T :: U :: r => and T (seq (U :: r))

end Tree

def chopsTree {α : Type} (f : α → Tree) : List (Five α) → Tree
  | [] => .node tiL ['N'] .nil
  | (a, b, c, d, e) :: r =>
    .node tiL ['C'] (.seq [f a, f b, f c, f d, f e, chopsTree f r])

/-- The constructor of a list, by the number of elements in front of the fives and whether there
are any fives. -/
def listChar (n : ℕ) (fives : Bool) : Char := Char.ofNat (48 + n + if fives then 5 else 0)

def listTree {α : Type} (f : α → Tree) (l : List α) : Tree :=
  let (hd, cl) := chop5 l
  .node tiL [listChar hd.length !cl.isEmpty]
    (.seq (hd.map f ++ if cl.isEmpty then [] else [chopsTree f cl]))

def stringTree (s : Str) : Tree := .node tiS (quoted s) .nil

/-- The tree of a value. -/
def treeOf : ∀ t, Val t → Tree
  | .int, i => .node tiI (intEncode i.1) .nil
  | .word, w => .node tiW (wordEncode w.1) .nil
  | .bool, b => .node tiB [if b then 't' else 'f'] .nil
  | .string, s => stringTree s
  | .intinf, n => stringTree (intInfToString n)
  | .list t, l => listTree (treeOf t) l
  | .option _, none => .node tiO ['n'] .nil
  | .option t, some v => .node tiO ['s'] (treeOf t v)
  | .pair t u, (v, w) => .node tiP ['p'] (.and (treeOf t v) (treeOf u w))
  | .lazy t, v => .thunk (treeOf t (v ()))
  | .shared t, v => treeOf t v

section Lists

variable {α β : Type}

def fives : List (Five α) → List α
  | [] => []
  | (a, b, c, d, e) :: r => a :: b :: c :: d :: e :: fives r

theorem chop5Loop_spec : ∀ (l : List α) (cl : List (Five α)), ∃ hd cl',
    chop5Loop l cl = (hd, cl') ∧ l.reverse ++ fives cl = hd ++ fives cl' ∧ hd.length ≤ 4
  | a :: b :: c :: d :: e :: r, cl => by
    obtain ⟨hd, cl', h, happ, hlen⟩ := chop5Loop_spec r ((e, d, c, b, a) :: cl)
    refine ⟨hd, cl', by rw [chop5Loop, h], ?_, hlen⟩
    rw [← happ]
    simp [fives]
  | [], cl => ⟨_, _, rfl, rfl, Nat.zero_le 4⟩
  | [_], cl => ⟨_, _, rfl, rfl, by simp⟩
  | [_, _], cl => ⟨_, _, rfl, rfl, by simp⟩
  | [_, _, _], cl => ⟨_, _, rfl, rfl, by simp⟩
  | [_, _, _, _], cl => ⟨_, _, rfl, rfl, by simp⟩

theorem chop5_spec (l : List α) :
    ∃ hd cl, chop5 l = (hd, cl) ∧ l = hd ++ fives cl ∧ hd.length ≤ 4 := by
  obtain ⟨hd, cl, h, happ, hlen⟩ := chop5Loop_spec l.reverse []
  rw [List.reverse_reverse, fives, List.append_nil] at happ
  exact ⟨hd, cl, h, happ, hlen⟩

end Lists

/-! ### What a text holds -/

def At (text : Str) (p : ℕ) (s : Str) : Prop := s <+: text.drop p

theorem at_append {text s s' : Str} {p : ℕ} :
    At text p (s ++ s') ↔ At text p s ∧ At text (p + s.length) s' := by
  rw [At, At, At, ← List.drop_drop]
  constructor
  · rintro ⟨r, hr⟩
    rw [← hr, List.append_assoc, List.drop_left]
    exact ⟨List.prefix_append _ _, List.prefix_append _ _⟩
  · rintro ⟨⟨r, hr⟩, hs'⟩
    rw [← hr, List.drop_left] at hs'
    rw [← hr]
    exact (List.prefix_append_right_inj s).2 hs'

theorem at_cons {text s : Str} {c : Char} {p : ℕ} :
    At text p (c :: s) ↔ text[p]? = some c ∧ At text (p + 1) s := by
  rw [← List.singleton_append, at_append]
  refine and_congr_left fun _ => ?_
  rw [At, List.cons_prefix_iff, ← List.head?_drop]
  constructor
  · rintro ⟨r, hr, _⟩
    rw [hr]
    rfl
  · intro h
    obtain ⟨r, hr⟩ := List.head?_eq_some_iff.1 h
    exact ⟨r, hr, List.nil_prefix⟩

theorem At.length_le {text s : Str} {p : ℕ} (h : At text p s) (hs : s ≠ []) :
    p + s.length ≤ text.length := by
  have hle : s.length ≤ (text.drop p).length := List.IsPrefix.length_le h
  have hpos := List.length_pos_of_ne_nil hs
  rw [List.length_drop] at hle
  omega

def markAt (M : Finset ℕ) (p : ℕ) : Str → Str
  | [] => []
  | c :: s => (if p ∈ M then Char.ofNat (ord c + 128) else c) :: s

@[simp] theorem length_markAt (M : Finset ℕ) (p : ℕ) (s : Str) :
    (markAt M p s).length = s.length := by
  cases s <;> rfl

theorem markAt_of_not_mem {M : Finset ℕ} {p : ℕ} (h : p ∉ M) (s : Str) : markAt M p s = s := by
  cases s with
  | nil => rfl
  | cons c s => rw [markAt, if_neg h]

/-- The types whose readers expect back references and marks: lists, options, pairs and
strings. -/
def SharedTi (ti : ℤ) : Prop := ti = tiL ∨ ti = tiO ∨ ti = tiP ∨ ti = tiS

instance (ti : ℤ) : Decidable (SharedTi ti) := inferInstanceAs (Decidable (_ ∨ _ ∨ _ ∨ _))

def Sharable (ti : ℤ) (c : Str) : Prop := SharedTi ti ∧ ∃ d s, c = d :: s ∧ ord d < 127

/-- **What a text holds.**  The text has a tree from one position to another, where the
positions of `M` are marked and `Θ` has the node at a marked position with its end. -/
inductive Stored (text : Str) (M : Finset ℕ) (Θ : ℕ → Tree × ℕ) : Tree → ℕ → ℕ → Prop
  | nil {p} : Stored text M Θ .nil p p
  | and {T U p q r} (left : Stored text M Θ T p q) (right : Stored text M Θ U q r) :
      Stored text M Θ (.and T U) p r
  /-- A thunk is stored behind the size of its value, which is padded with zeros. -/
  | thunk {T p q k} {sz : ℕ} (hsize : At text p (List.replicate k (Char.ofNat 0) ++ intEncode sz))
      (hq : q = p + k + (intEncode sz).length) (hpos : 0 < sz)
      (value : Stored text M Θ T q (q + sz)) : Stored text M Θ (.thunk T) p (q + sz)
  | node {ti c arg p q} (hc : At text p (markAt M p c))
      (hM : p ∈ M → Sharable ti c ∧ Θ p = (.node ti c arg, q))
      (args : Stored text M Θ arg (p + c.length) q) : Stored text M Θ (.node ti c arg) p q
  /-- A reference to a node at a marked position. -/
  | back {ti c arg p} {i e : ℕ} (href : At text p (backrefChar :: intEncode i)) (hi : i ∈ M)
      (hM : Sharable ti c ∧ Θ i = (.node ti c arg, e)) (hc : At text i (markAt M i c))
      (args : Stored text M Θ arg (i + c.length) e) :
      Stored text M Θ (.node ti c arg) p (p + 1 + (intEncode i).length)

end SmlNj.PickleUtil

/-! ## Flattening a pickle -/

namespace SmlNj.PickleUtil

/-- The text of a concatenation tree from position `p` on, marked at the positions of `M`. -/
@[grind =] def render (M : Finset ℕ) : ℕ → PreResult → Str
  | p, .string s => markAt M p s
  | p, .concat x y => render M p x ++ render M (p + preSize x) y

/-- A string that is not empty begins at `q`, in the tree that begins at `p`. -/
def ChunkAt : PreResult → ℕ → ℕ → Str → Prop
  | .string s, p, q, c => q = p ∧ s = c ∧ c ≠ []
  | .concat x y, p, q, c => ChunkAt x p q c ∨ ChunkAt y (p + preSize x) q c

variable {M : Finset ℕ} {p q : ℕ} {c : Str}

@[simp] theorem length_render (M : Finset ℕ) : ∀ p pr, (render M p pr).length = preSize pr
  | p, .string s => length_markAt M p s
  | p, .concat x y => by
    rw [render, List.length_append, length_render M p x, length_render M _ y, preSize]

theorem ChunkAt.bounds : ∀ {pr : PreResult} {p : ℕ}, ChunkAt pr p q c →
    p ≤ q ∧ q + c.length ≤ p + preSize pr ∧ c ≠ []
  | .string s, p, h => by
    obtain ⟨rfl, rfl, hne⟩ := h
    exact ⟨le_rfl, le_rfl, hne⟩
  | .concat x y, p, h => by
    rcases h with h | h
    · obtain ⟨h₁, h₂, hne⟩ := h.bounds
      exact ⟨h₁, h₂.trans (by rw [preSize]; omega), hne⟩
    · obtain ⟨h₁, h₂, hne⟩ := h.bounds
      exact ⟨by omega, h₂.trans (by rw [preSize]; omega), hne⟩

theorem ChunkAt.lt {pr : PreResult} (h : ChunkAt pr p q c) : q < p + preSize pr := by
  obtain ⟨_, h₂, hne⟩ := h.bounds
  have := List.length_pos_of_ne_nil hne
  omega

theorem render_congr {M' : Finset ℕ} : ∀ {pr : PreResult} {p : ℕ},
    (∀ q, p ≤ q → q < p + preSize pr → (q ∈ M ↔ q ∈ M')) → render M p pr = render M' p pr
  | .string [], _, _ => rfl
  | .string (c :: s), p, h => by
    have hp := h p le_rfl (Nat.lt_add_of_pos_right (Nat.succ_pos _))
    rw [render, render, markAt, markAt]
    simp [hp]
  | .concat x y, p, h => by
    rw [render]
    refine congrArg₂ _ (render_congr fun q h₁ h₂ => h q h₁ ?_)
      (render_congr fun q h₁ h₂ => h q ?_ ?_)
    all_goals simp only [preSize] at *; omega

theorem render_string_append (s : Str) (pr : PreResult) :
    render M p (.concat (.string s) pr) = markAt M p s ++ render M (p + s.length) pr := rfl

theorem render_assoc (p : ℕ) (x y z : PreResult) :
    render M p (.concat (.concat x y) z) = render M p (.concat x (.concat y z)) := by
  simp [render, preSize, Nat.add_assoc]

theorem chunkAt_assoc {p : ℕ} {x y z : PreResult} :
    ChunkAt (.concat (.concat x y) z) p q c ↔ ChunkAt (.concat x (.concat y z)) p q c := by
  simp [ChunkAt, preSize, or_assoc, Nat.add_assoc]

/-! ### Flattening -/

theorem fflat_eq : ∀ (p : ℕ) (x : PreResult) (l : List Str),
    (fflat x l).flatten = render ∅ p x ++ l.flatten
  | p, .string s, l => by
    rw [fflat, List.flatten_cons, render, markAt_of_not_mem (Finset.notMem_empty p)]
  | p, .concat x (.string s), l => by
    rw [fflat, fflat_eq p x, List.flatten_cons, render, render,
      markAt_of_not_mem (Finset.notMem_empty _), List.append_assoc]
  | p, .concat x (.concat y z), l => by
    rw [fflat, fflat_eq p, render_assoc]
termination_by _ x => weight x
decreasing_by
  · simp only [weight]
    omega
  · have := weight_pos z
    simp only [weight]
    omega

theorem chr_mark {c : Char} (h : ord c < 128) :
    chr (ord c + 128) = .ok (Char.ofNat (ord c + 128)) := by
  rw [chr, if_pos (by omega)]
  rfl

def Markable (pr : PreResult) (m : ℕ) : Prop :=
  ∃ c s, ChunkAt pr 0 m (c :: s) ∧ ord c < 128

theorem flat_eq : ∀ (x : PreResult) (hs : List ℕ) (l : List Str),
    hs.Pairwise (· > ·) → (∀ h ∈ hs, Markable x h) →
    ∃ out, flat x (preSize x, hs, l) = .ok out ∧
      out.flatten = render hs.toFinset 0 x ++ l.flatten
  | x, [], l, _, _ => ⟨_, by rw [flat], fflat_eq 0 x l⟩
  | .string s, h :: t, l, hsort, hmark => by
    obtain ⟨c, s, ⟨rfl, rfl, _⟩, hc⟩ := hmark h List.mem_cons_self
    refine ⟨[Char.ofNat (ord c + 128)] :: (if s.length + 1 > 1 then s :: l else l), ?_, ?_⟩
    · rw [flat, add, preSize, List.length_cons, if_pos (Nat.sub_self _), chr_mark hc]
      split_ifs <;> rfl
    · have hmem : 0 ∈ (0 :: t).toFinset := List.mem_toFinset.2 List.mem_cons_self
      rw [render, markAt, if_pos hmem]
      cases s with
      | nil => rfl
      | cons d s => rfl
  | .concat x (.string []), h :: t, l, hsort, hmark => by
    have hmark' : ∀ g ∈ h :: t, Markable x g := by
      intro g hg
      obtain ⟨c, s, hchunk | ⟨_, hnil, _⟩, hc⟩ := hmark g hg
      · exact ⟨c, s, hchunk, hc⟩
      · exact absurd hnil (List.cons_ne_nil c s).symm
    obtain ⟨out, hout, hflat⟩ := flat_eq x (h :: t) l hsort hmark'
    refine ⟨out, ?_, ?_⟩
    · rw [flat]
      exact hout
    · rw [hflat, render, render, markAt, List.append_nil]
  | .concat x (.string (d :: s)), h :: t, l, hsort, hmark => by
    have hsub : preSize (.concat x (.string (d :: s))) - (s.length + 1) = preSize x := by
      simp only [preSize, List.length_cons]
      omega
    obtain ⟨hlt, hsort'⟩ := List.pairwise_cons.1 hsort
    by_cases hx : preSize x = h
    · -- the last string is shared
      obtain ⟨c, s', hchunk | ⟨_, heq, _⟩, hc⟩ := hmark h List.mem_cons_self
      · have := hchunk.lt
        omega
      obtain ⟨rfl, rfl⟩ := List.cons.inj heq
      have hmark' : ∀ g ∈ t, Markable x g := by
        intro g hg
        obtain ⟨c, s, hchunk | ⟨hpos, _, _⟩, hc⟩ := hmark g (List.mem_cons_of_mem h hg)
        · exact ⟨c, s, hchunk, hc⟩
        · have := hlt g hg
          omega
      obtain ⟨out, hout, hflat⟩ := flat_eq x t
        ([Char.ofNat (ord d + 128)] :: (if s.length + 1 > 1 then s :: l else l)) hsort' hmark'
      refine ⟨out, ?_, ?_⟩
      · rw [flat, add, hsub, chr_mark hc]
        split_ifs at hout ⊢ <;> exact hout
      · have hmem : 0 + preSize x ∈ (h :: t).toFinset := by
          rw [Nat.zero_add, List.mem_toFinset, hx]
          exact List.mem_cons_self
        have hcongr : render t.toFinset 0 x = render (h :: t).toFinset 0 x := by
          refine render_congr fun q _ hq => ?_
          rw [List.mem_toFinset, List.mem_toFinset, List.mem_cons, or_iff_right]
          omega
        rw [hflat, hcongr, render, render, markAt, if_pos hmem, List.append_assoc]
        cases s with
        | nil => rfl
        | cons d' s => rfl
    · -- it is not, and neither is it the string at any lower position
      have hmark' : ∀ g ∈ h :: t, Markable x g ∧ g < preSize x := by
        have hfirst : h < preSize x := by
          obtain ⟨c, s, hchunk | ⟨hpos, _, _⟩, hc⟩ := hmark h List.mem_cons_self
          · have := hchunk.lt
            omega
          · omega
        intro g hg
        have hle : g < preSize x := by
          rcases List.mem_cons.1 hg with rfl | hg
          · exact hfirst
          · exact (hlt g hg).trans hfirst
        obtain ⟨c, s, hchunk | ⟨hpos, _, _⟩, hc⟩ := hmark g hg
        · exact ⟨⟨c, s, hchunk, hc⟩, hle⟩
        · omega
      obtain ⟨out, hout, hflat⟩ :=
        flat_eq x (h :: t) ((d :: s) :: l) hsort fun g hg => (hmark' g hg).1
      refine ⟨out, ?_, ?_⟩
      · rw [flat, add, hsub, if_neg hx]
        exact hout
      · have hmem : 0 + preSize x ∉ (h :: t).toFinset := by
          rw [Nat.zero_add, List.mem_toFinset]
          exact fun hg => Nat.lt_irrefl _ (hmark' _ hg).2
        rw [hflat, render, render, markAt_of_not_mem hmem, List.append_assoc]
        rfl
  | .concat x (.concat y z), h :: t, l, hsort, hmark => by
    have hmark' : ∀ g ∈ h :: t, Markable (.concat (.concat x y) z) g := by
      intro g hg
      obtain ⟨c, s, hchunk, hc⟩ := hmark g hg
      exact ⟨c, s, chunkAt_assoc.2 hchunk, hc⟩
    obtain ⟨out, hout, hflat⟩ := flat_eq _ (h :: t) l hsort hmark'
    refine ⟨out, ?_, ?_⟩
    · have hsize : preSize (.concat (.concat x y) z) = preSize (.concat x (.concat y z)) := by
        simp [preSize, Nat.add_assoc]
      rw [flat, ← hsize]
      exact hout
    · rw [hflat, render_assoc]
termination_by x => weight x
decreasing_by
  all_goals simp only [weight]
  · omega
  · omega
  · omega
  · have := weight_pos z
    omega

/-- **Flattening** yields the text with its marks, unless it is too long for a string. -/
theorem pr2s_eq {pr : PreResult} (hM : ∀ m ∈ M, Markable pr m) :
    pr2s pr (preSize pr) M =
      if preSize pr ≤ maxSize then .ok (render M 0 pr) else .error .size := by
  have hsort : (M.sort (· ≤ ·)).reverse.Pairwise (· > ·) :=
    List.pairwise_reverse.2 (Finset.sortedLT_sort M).pairwise
  have hmark : ∀ h ∈ (M.sort (· ≤ ·)).reverse, Markable pr h := fun h hh =>
    hM h ((Finset.mem_sort _).1 (List.mem_reverse.1 hh))
  obtain ⟨out, hout, hflat⟩ := flat_eq pr _ [] hsort hmark
  have htext : out.flatten = render M 0 pr := by
    rw [hflat, List.flatten_nil, List.append_nil]
    refine render_congr fun q _ _ => ?_
    rw [List.mem_toFinset, List.mem_reverse, Finset.mem_sort]
  rw [pr2s, hout]
  change concatStrings out = _
  rw [concatStrings, htext, length_render]

end SmlNj.PickleUtil
