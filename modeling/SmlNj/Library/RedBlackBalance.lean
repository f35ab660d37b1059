import SmlNj.Library.RedBlackTree

/-!
# The red and black invariants

A tree is balanced when the children of red nodes are black and every path has the same number of
black nodes.  The operations keep the trees balanced, with black roots, and the cases that the
code deems impossible are so.

## Main definitions

* `Balanced` — the red and the black invariant.
* `Zipper.Balanced` — what is above a subtree of a balanced tree.

## Main results

* `balanced_insert`, `balanced_del`, `balanced_linkAll` — the operations keep the invariants.
* `del_ne_error` — a deletion raises no exception.
-/

namespace SmlNj.RedBlack

open Color RedBlack.Tree Zipper

variable {α : Type*}

/-- **The red and the black invariant**: the tree has the black height, the children of its red
nodes are black, and its own root is black when the bound on its colour is so. -/
inductive Balanced : Tree α → Color → ℕ → Prop
  | leaf {c : Color} : Balanced E c 0
  | black {c : Color} {n : ℕ} {a b : Tree α} {y : α} :
    Balanced a R n → Balanced b R n → Balanced (T B a y b) c (n + 1)
  | red {n : ℕ} {a b : Tree α} {y : α} :
    Balanced a B n → Balanced b B n → Balanced (T R a y b) R n

namespace Balanced

variable {a b t : Tree α} {y : α} {c : Color} {n : ℕ}

theorem any (h : Balanced t B n) : Balanced t c n := by
  cases h with
  | leaf => exact leaf
  | black ha hb => exact black ha hb

theorem of_black (h : Balanced (T B a y b) c n) :
    ∃ m, n = m + 1 ∧ Balanced a R m ∧ Balanced b R m := by
  cases h with
  | black ha hb => exact ⟨_, rfl, ha, hb⟩

theorem of_red (h : Balanced (T R a y b) c n) : c = R ∧ Balanced a B n ∧ Balanced b B n := by
  cases h with
  | red ha hb => exact ⟨rfl, ha, hb⟩

theorem of_root {color : Color} (h : Balanced (T color a y b) B n) :
    color = B ∧ ∃ m, n = m + 1 ∧ Balanced a R m ∧ Balanced b R m := by
  cases h with
  | black ha hb => exact ⟨rfl, _, rfl, ha, hb⟩

theorem of_black_succ (h : Balanced (T B a y b) c (n + 1)) : Balanced a R n ∧ Balanced b R n := by
  cases h with
  | black ha hb => exact ⟨ha, hb⟩

theorem of_root_succ {color : Color} (h : Balanced (T color a y b) B (n + 1)) :
    color = B ∧ Balanced a R n ∧ Balanced b R n := by
  cases h with
  | black ha hb => exact ⟨rfl, ha, hb⟩

theorem black_of_ne_red (h : Balanced t c n) (ht : ∀ a y b, t ≠ T R a y b) : Balanced t B n := by
  cases h with
  | leaf => exact leaf
  | black ha hb => exact black ha hb
  | red => exact absurd rfl (ht _ _ _)

end Balanced

/-! ### Insertion -/

section Insert

variable {κ : Type*} [LinearOrder κ] {key : α → κ} {x : α} {upd : α → α} {nItems : ℕ}

/-- The insertion into a tree with a black root keeps the invariants and the black height, and
may make the root red. -/
theorem balanced_ins {t : Tree α} {m n : ℕ} (h : Balanced t B n) :
    Balanced (ins key x upd nItems t m).1 R n := by
  fun_induction ins key x upd nItems t m generalizing n with
  | case1 =>
    cases h
    exact .red .leaf .leaf
  | case2 color y b m hy c z d hz e w f m' hins ih =>
    obtain ⟨rfl, n, rfl, ha, hb⟩ := h.of_root
    obtain ⟨-, hc, hd⟩ := ha.of_red
    rw [hins] at ih
    obtain ⟨-, he, hf⟩ := (ih hc).of_red
    exact .red (.black he.any hf.any) (.black hd.any hb)
  | case3 color y b m hy c z d hz c' m' hne hins ih =>
    obtain ⟨rfl, n, rfl, ha, hb⟩ := h.of_root
    obtain ⟨-, hc, hd⟩ := ha.of_red
    rw [hins] at ih
    exact .black (.red ((ih hc).black_of_ne_red hne) hd) hb
  | case4 color y b m hy c z d hz =>
    obtain ⟨rfl, n, rfl, ha, hb⟩ := h.of_root
    obtain ⟨-, hc, hd⟩ := ha.of_red
    exact .black (.red hc hd) hb
  | case5 color y b m hy c z d hz e w f m' hins ih =>
    obtain ⟨rfl, n, rfl, ha, hb⟩ := h.of_root
    obtain ⟨-, hc, hd⟩ := ha.of_red
    rw [hins] at ih
    obtain ⟨-, he, hf⟩ := (ih hd).of_red
    exact .red (.black hc.any he.any) (.black hf.any hb)
  | case6 color y b m hy c z d hz d' m' hne hins ih =>
    obtain ⟨rfl, n, rfl, ha, hb⟩ := h.of_root
    obtain ⟨-, hc, hd⟩ := ha.of_red
    rw [hins] at ih
    exact .black (.red hc ((ih hd).black_of_ne_red hne)) hb
  | case7 color y b m hy a hne a' m' hins ih =>
    obtain ⟨rfl, n, rfl, ha, hb⟩ := h.of_root
    rw [hins] at ih
    exact .black (ih (ha.black_of_ne_red hne)) hb
  | case8 color a y b m hy =>
    obtain ⟨rfl, n, rfl, ha, hb⟩ := h.of_root
    exact .black ha hb
  | case9 color a y m hy c z d hz e w f m' hins ih =>
    obtain ⟨rfl, n, rfl, ha, hb⟩ := h.of_root
    obtain ⟨-, hc, hd⟩ := hb.of_red
    rw [hins] at ih
    obtain ⟨-, he, hf⟩ := (ih hc).of_red
    exact .red (.black ha he.any) (.black hf.any hd.any)
  | case10 color a y m hy c z d hz c' m' hne hins ih =>
    obtain ⟨rfl, n, rfl, ha, hb⟩ := h.of_root
    obtain ⟨-, hc, hd⟩ := hb.of_red
    rw [hins] at ih
    exact .black ha (.red ((ih hc).black_of_ne_red hne) hd)
  | case11 color a y m hy c z d hz =>
    obtain ⟨rfl, n, rfl, ha, hb⟩ := h.of_root
    obtain ⟨-, hc, hd⟩ := hb.of_red
    exact .black ha (.red hc hd)
  | case12 color a y m hy c z d hz e w f m' hins ih =>
    obtain ⟨rfl, n, rfl, ha, hb⟩ := h.of_root
    obtain ⟨-, hc, hd⟩ := hb.of_red
    rw [hins] at ih
    obtain ⟨-, he, hf⟩ := (ih hd).of_red
    exact .red (.black ha hc.any) (.black he.any hf.any)
  | case13 color a y m hy c z d hz d' m' hne hins ih =>
    obtain ⟨rfl, n, rfl, ha, hb⟩ := h.of_root
    obtain ⟨-, hc, hd⟩ := hb.of_red
    rw [hins] at ih
    exact .black ha (.red hc ((ih hd).black_of_ne_red hne))
  | case14 color a y m hy b hne b' m' hins ih =>
    obtain ⟨rfl, n, rfl, ha, hb⟩ := h.of_root
    rw [hins] at ih
    exact .black ha (ih (hb.black_of_ne_red hne))

theorem ins_ne_leaf (t : Tree α) (m : ℕ) : (ins key x upd nItems t m).1 ≠ E := by
  fun_induction ins key x upd nItems t m <;> simp

/-- **The insertion has a result**, whose root is black. -/
theorem balanced_insert {t : Tree α} {n : ℕ} (h : Balanced t B n) :
    ∃ color a y b, (ins key x upd nItems t nItems).1 = T color a y b ∧
      insert key x upd nItems t = .ok ((ins key x upd nItems t nItems).2, T B a y b) ∧
      ∃ n', Balanced (T B a y b) B n' := by
  have hbal : Balanced (ins key x upd nItems t nItems).1 R n := balanced_ins h
  rcases hins : ins key x upd nItems t nItems with ⟨_ | ⟨color, a, y, b⟩, m⟩
  · exact absurd (congrArg Prod.fst hins) (ins_ne_leaf t nItems)
  refine ⟨color, a, y, b, rfl, by simp [insert, hins], ?_⟩
  rw [hins] at hbal
  cases hbal with
  | black ha hb => exact ⟨_, .black ha hb⟩
  | red ha hb => exact ⟨_, .black ha.any hb.any⟩

end Insert

/-! ### Deletion -/

/-- What is above a subtree: a subtree of the colour bound and the black height there makes up a
tree of the bound `c₀` and the height `n₀`. -/
inductive Zipper.Balanced (c₀ : Color) (n₀ : ℕ) : Zipper α → Color → ℕ → Prop
  | top : Zipper.Balanced c₀ n₀ TOP c₀ n₀
  | leftBlack {c c' : Color} {n : ℕ} {x : α} {b : Tree α} {p : Zipper α} :
    RedBlack.Balanced b R n → Zipper.Balanced c₀ n₀ p c (n + 1) →
      Zipper.Balanced c₀ n₀ (LEFT B x b p) c' n
  | leftRed {n : ℕ} {x : α} {b : Tree α} {p : Zipper α} :
    RedBlack.Balanced b B n → Zipper.Balanced c₀ n₀ p R n →
      Zipper.Balanced c₀ n₀ (LEFT R x b p) B n
  | rightBlack {c c' : Color} {n : ℕ} {x : α} {a : Tree α} {p : Zipper α} :
    RedBlack.Balanced a R n → Zipper.Balanced c₀ n₀ p c (n + 1) →
      Zipper.Balanced c₀ n₀ (RIGHT B a x p) c' n
  | rightRed {n : ℕ} {x : α} {a : Tree α} {p : Zipper α} :
    RedBlack.Balanced a B n → Zipper.Balanced c₀ n₀ p R n →
      Zipper.Balanced c₀ n₀ (RIGHT R a x p) B n

section Delete

variable {c₀ c : Color} {n₀ n : ℕ} {z : Zipper α} {t : Tree α}

theorem balanced_zip (hz : z.Balanced c₀ n₀ c n) (ht : Balanced t c n) :
    Balanced (zip z t) c₀ n₀ := by
  induction hz generalizing t with
  | top => exact ht
  | @leftBlack c c' n x b p hb hp ih =>
    have ht' : Balanced t R n := by
      cases c'
      · exact ht
      · exact ht.any
    exact ih (.black ht' hb)
  | leftRed hb _ ih => exact ih (.red ht hb)
  | @rightBlack c c' n x a p ha hp ih =>
    have ht' : Balanced t R n := by
      cases c'
      · exact ht
      · exact ht.any
    exact ih (.black ha ht')
  | rightRed ha _ ih => exact ih (.red ha ht)

theorem Zipper.Balanced.of_left {color : Color} {x : α} {b : Tree α}
    (hz : (LEFT color x b z).Balanced c₀ n₀ c n) : ∃ c' n' cs, z.Balanced c₀ n₀ c' n' ∧
      RedBlack.Balanced b cs n ∧ ∀ {l r : Tree α} {y}, RedBlack.Balanced l B n → RedBlack.Balanced r B n →
        RedBlack.Balanced (T color l y r) c' n' := by
  cases hz with
  | leftBlack hb hp => exact ⟨_, _, _, hp, hb, fun hl hr => .black hl.any hr.any⟩
  | leftRed hb hp => exact ⟨_, _, _, hp, hb, fun hl hr => .red hl hr⟩

theorem Zipper.Balanced.of_right {color : Color} {x : α} {a : Tree α}
    (hz : (RIGHT color a x z).Balanced c₀ n₀ c n) : ∃ c' n' cs, z.Balanced c₀ n₀ c' n' ∧
      RedBlack.Balanced a cs n ∧ ∀ {l r : Tree α} {y}, RedBlack.Balanced l B n → RedBlack.Balanced r B n →
        RedBlack.Balanced (T color l y r) c' n' := by
  cases hz with
  | rightBlack ha hp => exact ⟨_, _, _, hp, ha, fun hl hr => .black hl.any hr.any⟩
  | rightRed ha hp => exact ⟨_, _, _, hp, ha, fun hl hr => .red hl hr⟩

/-- The outcome of a repair: the deficit is resolved on the way up, or it is left over at the top,
where the tree has a black root. -/
inductive Repaired (c₀ : Color) (n₀ : ℕ) : Except Exn (Bool × Tree α) → Prop
  | resolved {t : Tree α} : Balanced t c₀ n₀ → Repaired c₀ n₀ (.ok (false, t))
  | leftOver {t : Tree α} {m : ℕ} : n₀ = m + 1 → Balanced t B m → Repaired c₀ n₀ (.ok (true, t))

theorem repaired_zip (hz : z.Balanced c₀ n₀ c n) (ht : Balanced t c n) :
    Repaired c₀ n₀ (.ok (false, zip z t)) :=
  .resolved (balanced_zip hz ht)

/-- **The repair of a black deficit** raises no exception. -/
theorem repaired_fixupZip (hz : z.Balanced c₀ n₀ c (n + 1)) (ht : Balanced t B n) :
    Repaired c₀ n₀ (fixupZip z t) := by
  induction z, t using fixupZip.induct generalizing c n with
  | case1 t =>
    rw [fixupZip]
    cases hz
    exact .leftOver rfl ht
  | case2 x y b p t color a11 w a12 z a2 =>
    rw [fixupZip]
    cases hz with
    | leftBlack hs hp =>
      obtain ⟨-, ha, hb⟩ := hs.of_red
      obtain ⟨rfl, h1, h2⟩ := ha.of_root_succ
      obtain ⟨-, h11, h12⟩ := h1.of_red
      exact repaired_zip hp (.black (.red (.black ht.any h11.any) (.black h12.any h2)) hb.any)
  | case3 x y b p t color a1 z a21 w a22 hne =>
    rw [fixupZip]
    · cases hz with
      | leftBlack hs hp =>
        obtain ⟨-, ha, hb⟩ := hs.of_red
        obtain ⟨rfl, h1, h2⟩ := ha.of_root_succ
        obtain ⟨-, h21, h22⟩ := h2.of_red
        exact repaired_zip hp (.black (.red (.black ht.any h1) (.black h21.any h22.any)) hb.any)
    all_goals assumption
  | case4 x y b p t color a1 z a2 hne1 hne2 =>
    rw [fixupZip]
    · cases hz with
      | leftBlack hs hp =>
        obtain ⟨-, ha, hb⟩ := hs.of_red
        obtain ⟨rfl, h1, h2⟩ := ha.of_root_succ
        have hred := Balanced.red (y := z) (h1.black_of_ne_red hne1) (h2.black_of_ne_red hne2)
        exact repaired_zip hp (.black (.black ht.any hred) hb.any)
    all_goals assumption
  | case5 x y b p t a _ _ hne ih =>
    rw [fixupZip]
    · -- the sibling's children have a positive black height
      cases hz with
      | leftBlack hs hp =>
        obtain ⟨-, ha, -⟩ := hs.of_red
        rcases a with _ | ⟨color, a1, z, a2⟩
        · exact nomatch ha
        · exact absurd rfl (hne color a1 z a2)
    all_goals assumption
  | case6 a x y p t color b1 z b21 w b22 =>
    rw [fixupZip]
    cases hz with
    | rightBlack hs hp =>
      obtain ⟨-, ha, hb⟩ := hs.of_red
      obtain ⟨rfl, h1, h2⟩ := hb.of_root_succ
      obtain ⟨-, h21, h22⟩ := h2.of_red
      exact repaired_zip hp (.black ha.any (.red (.black h1 h21.any) (.black h22.any ht.any)))
  | case7 a x y p t color b11 w b12 z b2 hne =>
    rw [fixupZip]
    · cases hz with
      | rightBlack hs hp =>
        obtain ⟨-, ha, hb⟩ := hs.of_red
        obtain ⟨rfl, h1, h2⟩ := hb.of_root_succ
        obtain ⟨-, h11, h12⟩ := h1.of_red
        exact repaired_zip hp (.black ha.any (.red (.black h11.any h12.any) (.black h2 ht.any)))
    all_goals assumption
  | case8 a x y p t color b1 z b2 hne2 hne1 =>
    rw [fixupZip]
    · cases hz with
      | rightBlack hs hp =>
        obtain ⟨-, ha, hb⟩ := hs.of_red
        obtain ⟨rfl, h1, h2⟩ := hb.of_root_succ
        have hred := Balanced.red (y := z) (h1.black_of_ne_red hne1) (h2.black_of_ne_red hne2)
        exact repaired_zip hp (.black ha.any (.black hred ht.any))
    all_goals assumption
  | case9 a x y p t b _ _ hne ih =>
    rw [fixupZip]
    · cases hz with
      | rightBlack hs hp =>
        obtain ⟨-, -, hb⟩ := hs.of_red
        rcases b with _ | ⟨color, b1, z, b2⟩
        · exact nomatch hb
        · exact absurd rfl (hne color b1 z b2)
    all_goals assumption
  | case10 color x a1 y a2 z b p t =>
    rw [fixupZip]
    obtain ⟨c', n', cs, hp, hs, hparent⟩ := hz.of_left
    obtain ⟨ha, hb⟩ := hs.of_black_succ
    obtain ⟨-, h1, h2⟩ := ha.of_red
    exact repaired_zip hp (hparent (.black ht.any h1.any) (.black h2.any hb))
  | case11 color a x b1 y b2 z p t =>
    rw [fixupZip]
    obtain ⟨c', n', cs, hp, hs, hparent⟩ := hz.of_right
    obtain ⟨ha, hb⟩ := hs.of_black_succ
    obtain ⟨-, h1, h2⟩ := hb.of_red
    exact repaired_zip hp (hparent (.black ha h1.any) (.black h2.any ht.any))
  | case12 color x a y b1 z b2 p t hne =>
    rw [fixupZip]
    · obtain ⟨c', n', cs, hp, hs, hparent⟩ := hz.of_left
      obtain ⟨ha, hb⟩ := hs.of_black_succ
      obtain ⟨-, h1, h2⟩ := hb.of_red
      exact repaired_zip hp (hparent (.black ht.any ha) (.black h1.any h2.any))
    all_goals assumption
  | case13 color a1 z a2 x b y p t hne =>
    rw [fixupZip]
    · obtain ⟨c', n', cs, hp, hs, hparent⟩ := hz.of_right
      obtain ⟨ha, hb⟩ := hs.of_black_succ
      obtain ⟨-, h1, h2⟩ := ha.of_red
      exact repaired_zip hp (hparent (.black h1.any h2.any) (.black hb ht.any))
    all_goals assumption
  | case14 x a y b p t hne1 hne2 =>
    rw [fixupZip]
    · cases hz with
      | leftRed hs hp =>
        obtain ⟨ha, hb⟩ := hs.of_black_succ
        exact repaired_zip hp
          (.black ht.any (.red (ha.black_of_ne_red hne1) (hb.black_of_ne_red hne2)))
    all_goals assumption
  | case15 x a y b p t hne1 hne2 ih =>
    rw [fixupZip]
    · cases hz with
      | leftBlack hs hp =>
        obtain ⟨ha, hb⟩ := hs.of_black_succ
        exact ih hp (.black ht.any (.red (ha.black_of_ne_red hne1) (hb.black_of_ne_red hne2)))
    all_goals assumption
  | case16 a x b y p t hne1 hne2 =>
    rw [fixupZip]
    · cases hz with
      | rightRed hs hp =>
        obtain ⟨ha, hb⟩ := hs.of_black_succ
        exact repaired_zip hp
          (.black (.red (ha.black_of_ne_red hne2) (hb.black_of_ne_red hne1)) ht.any)
    all_goals assumption
  | case17 a x b y p t hne1 hne2 ih =>
    rw [fixupZip]
    · cases hz with
      | rightBlack hs hp =>
        obtain ⟨ha, hb⟩ := hs.of_black_succ
        exact ih hp (.black (.red (ha.black_of_ne_red hne2) (hb.black_of_ne_red hne1)) ht.any)
    all_goals assumption
  | case18 color y p t ih =>
    rw [fixupZip]
    -- the sibling of a deficit has a positive black height
    obtain ⟨c', n', cs, -, hs, -⟩ := hz.of_left
    exact nomatch hs
  | case19 color y p t ih =>
    rw [fixupZip]
    obtain ⟨c', n', cs, -, hs, -⟩ := hz.of_right
    exact nomatch hs
  | case20 z t h1 h2 h3 h4 h5 h6 h7 h8 h9 h10 h11 h12 h13 =>
    rw [fixupZip]
    · -- a sibling of positive black height is a black node, or a red one below a black one
      cases hz with
      | top => exact (h1 rfl).elim
      | leftBlack hs hp =>
        cases hs with
        | black => exact (h9 _ _ _ _ _ rfl).elim
        | red => exact (h2 _ _ _ _ _ rfl).elim
      | leftRed hs hp =>
        cases hs with
        | black => exact (h8 _ _ _ _ _ rfl).elim
      | rightBlack hs hp =>
        cases hs with
        | black => exact (h11 _ _ _ _ _ rfl).elim
        | red => exact (h3 _ _ _ _ _ rfl).elim
      | rightRed hs hp =>
        cases hs with
        | black => exact (h10 _ _ _ _ _ rfl).elim
    all_goals assumption

theorem Balanced.of_zero {color : Color} {a b : Tree α} {y : α}
    (h : Balanced (T color a y b) c 0) : color = R ∧ c = R ∧ a = E ∧ b = E := by
  cases h with
  | red ha hb =>
    cases ha
    cases hb
    exact ⟨rfl, rfl, rfl, rfl⟩

/-- **The deletion of the least item** raises no exception, and leaves a tree that is balanced or
has a black deficit. -/
theorem delMin_spec (hz : z.Balanced c₀ n₀ c n) (ht : Balanced t c n) (hne : t ≠ E) :
    ∃ y r, delMin t z = .ok (y, r) ∧ Repaired c₀ n₀ (.ok r) := by
  fun_induction delMin t z generalizing c n with
  | case1 y b p =>
    obtain ⟨rfl, ha, hb⟩ := ht.of_red
    exact ⟨y, _, rfl, repaired_zip hz hb.any⟩
  | case2 y a' y' b' p =>
    obtain ⟨m, rfl, ha, hb⟩ := ht.of_black
    obtain ⟨-, ha', hb'⟩ := hb.of_red
    exact ⟨y, _, rfl, repaired_zip hz (.black ha'.any hb'.any)⟩
  | case3 y p =>
    obtain ⟨m, rfl, ha, -⟩ := ht.of_black
    cases ha
    have hfix := repaired_fixupZip hz (Balanced.leaf (α := α))
    rcases hr : fixupZip p E with e | r
    · rw [hr] at hfix
      exact nomatch hfix
    · rw [hr] at hfix
      exact ⟨y, r, rfl, hfix⟩
  | case4 color a y b p h1 h2 h3 ih =>
    cases ht with
    | black ha hb =>
      refine ih (.leftBlack hb hz) ha ?_
      rintro rfl
      -- the least item of a black node without a left child
      cases ha
      cases hb with
      | leaf => exact h3 rfl rfl rfl
      | red => exact h2 _ _ _ rfl rfl rfl
    | red ha hb =>
      refine ih (.leftRed hb hz) ha ?_
      rintro rfl
      exact h1 rfl rfl
  | case5 p => exact absurd rfl hne

section Del

variable {κ : Type*} [LinearOrder κ] {key : α → κ} {k : κ}

/-- What a deletion leaves: a tree that is balanced, or has a black deficit below its top. -/
def Left (c₀ : Color) (n₀ : ℕ) (t : Tree α) : Prop :=
  Balanced t c₀ n₀ ∨ ∃ m, n₀ = m + 1 ∧ Balanced t B m

theorem Repaired.exists_ok {r : Except Exn (Bool × Tree α)} (h : Repaired c₀ n₀ r) :
    ∃ r', r = .ok r' ∧ Left c₀ n₀ r'.2 := by
  cases h with
  | resolved h => exact ⟨_, rfl, .inl h⟩
  | leftOver hm h => exact ⟨_, rfl, .inr ⟨_, hm, h⟩⟩

theorem Zipper.Balanced.left {color : Color} {a b : Tree α} {y : α} (hz : z.Balanced c₀ n₀ c n)
    (ht : RedBlack.Balanced (T color a y b) c n) :
    ∃ c' n', (LEFT color y b z).Balanced c₀ n₀ c' n' ∧ RedBlack.Balanced a c' n' := by
  cases ht with
  | black ha hb => exact ⟨_, _, .leftBlack hb hz, ha⟩
  | red ha hb => exact ⟨_, _, .leftRed hb hz, ha⟩

theorem Zipper.Balanced.right {color : Color} {a b : Tree α} {y : α}
    (hz : z.Balanced c₀ n₀ c n) (ht : RedBlack.Balanced (T color a y b) c n) :
    ∃ c' n', (∀ x, (RIGHT color a x z).Balanced c₀ n₀ c' n') ∧ RedBlack.Balanced b c' n' ∧
      ∀ x b', RedBlack.Balanced b' c' n' → RedBlack.Balanced (T color a x b') c n := by
  cases ht with
  | black ha hb => exact ⟨_, _, fun x => .rightBlack ha hz, hb, fun x b' hb' => .black ha hb'⟩
  | red ha hb => exact ⟨_, _, fun x => .rightRed ha hz, hb, fun x b' hb' => .red ha hb'⟩

/-- **A deletion raises no exception**, and what it leaves is balanced. -/
theorem del_spec (hz : z.Balanced c₀ n₀ c n) (ht : Balanced t c n) :
    ∃ o, del key k t z = .ok o ∧ ∀ r, o = some r → Left c₀ n₀ r.2 := by
  fun_induction del key k t z generalizing c n with
  | case1 p => exact ⟨none, rfl, fun r h => nomatch h⟩
  | case2 color a y b p hk ih =>
    obtain ⟨c', n', hz', ha⟩ := hz.left ht
    exact ih hz' ha
  | case3 y p hk =>
    obtain ⟨rfl, ha, -⟩ := ht.of_red
    refine ⟨_, rfl, fun r hr => ?_⟩
    obtain rfl := Option.some.inj hr
    exact .inl (balanced_zip hz ha.any)
  | case4 y p hk =>
    obtain ⟨m, rfl, ha, -⟩ := ht.of_black
    cases ha
    obtain ⟨r, hr, hleft⟩ := (repaired_fixupZip hz (Balanced.leaf (α := α))).exists_ok
    refine ⟨some (y, r.2), by rw [hr]; rfl, fun r' hr' => ?_⟩
    obtain rfl := Option.some.inj hr'
    exact hleft
  | case5 color y p hk color' a' y' b' =>
    refine ⟨_, rfl, fun r hr => ?_⟩
    obtain rfl := Option.some.inj hr
    -- the node is black, and its left child a red leaf
    cases ht with
    | black ha hb =>
      cases hb
      obtain ⟨rfl, -, rfl, rfl⟩ := ha.of_zero
      exact .inl (balanced_zip hz (.black .leaf .leaf))
    | red ha hb =>
      cases hb
      exact nomatch ha
  | case6 color y p hk color' a' y' b' =>
    refine ⟨_, rfl, fun r hr => ?_⟩
    obtain rfl := Option.some.inj hr
    cases ht with
    | black ha hb =>
      cases ha
      obtain ⟨rfl, -, rfl, rfl⟩ := hb.of_zero
      exact .inl (balanced_zip hz (.black .leaf .leaf))
    | red ha hb =>
      cases ha
      exact nomatch hb
  | case7 color a y b p hk h1 h2 h3 h4 =>
    have hne : b ≠ E := by
      rintro rfl
      rcases a with _ | ⟨color', a', y', b'⟩
      · cases color
        · exact h3 rfl rfl rfl
        · exact h4 rfl rfl rfl
      · exact h1 _ _ _ _ rfl rfl
    obtain ⟨c', n', hz', hb, hrebuild⟩ := hz.right ht
    obtain ⟨m, r, hr, hrep⟩ := delMin_spec (Zipper.Balanced.top) hb hne
    rw [hr]
    cases hrep with
    | resolved hb' =>
      refine ⟨_, rfl, fun r hr => ?_⟩
      obtain rfl := Option.some.inj hr
      exact .inl (balanced_zip hz (hrebuild _ _ hb'))
    | leftOver hn hb' =>
      subst hn
      obtain ⟨r', hr', hleft⟩ := (repaired_fixupZip (hz' m) hb').exists_ok
      refine ⟨some (y, r'.2), ?_, fun r hr => ?_⟩
      · simp only [bind, Except.bind, hr']
        rfl
      · obtain rfl := Option.some.inj hr
        exact hleft
  | case8 color a y b p hk ih =>
    obtain ⟨c', n', hz', hb, -⟩ := hz.right ht
    exact ih (hz' y) hb

theorem blacken_eq_self {m : ℕ} (h : Balanced t B m) : blacken t = t := by
  cases h with
  | leaf => rfl
  | black => rfl

theorem del_top_spec (ht : Balanced t B n) :
    ∃ o, del key k t TOP = .ok o ∧
      ∀ r, o = some r → blacken r.2 = r.2 ∧ ∃ m, Balanced r.2 B m := by
  obtain ⟨o, ho, hleft⟩ : ∃ o, del key k t TOP = .ok o ∧ ∀ r, o = some r → Left B n r.2 :=
    del_spec .top ht
  refine ⟨o, ho, fun r hr => ?_⟩
  have hbal : ∃ m, Balanced r.2 B m := by
    rcases hleft r hr with h | ⟨m, -, h⟩
    · exact ⟨n, h⟩
    · exact ⟨m, h⟩
  obtain ⟨m, h⟩ := hbal
  exact ⟨blacken_eq_self h, m, h⟩

end Del

end Delete

section Construct

open Digit

/-- The trees of the digits have the black heights of the digits' ranks, and black roots. -/
def Digit.Balanced : ℕ → Digit α → Prop
  | _, ZERO => True
  | n, ONE _ t r => RedBlack.Balanced t B n ∧ Digit.Balanced (n + 1) r
  | n, TWO _ t1 _ t2 r =>
    RedBlack.Balanced t1 B n ∧ RedBlack.Balanced t2 B n ∧ Digit.Balanced (n + 1) r

theorem balanced_incr {a : α} {t : Tree α} {l : Digit α} {n : ℕ} (ht : Balanced t B n)
    (hl : l.Balanced n) : (addItem.incr a t l).Balanced n := by
  fun_induction addItem.incr a t l generalizing n with
  | case1 => exact ⟨ht, trivial⟩
  | case2 a t a2 t2 r => exact ⟨ht, hl.1, hl.2⟩
  | case3 a t a2 t2 a3 t3 r ih =>
    obtain ⟨h2, h3, hr⟩ := hl
    exact ⟨ht, ih (.black h3.any h2.any) hr⟩

theorem balanced_addItem {l : Digit α} (hl : l.Balanced 0) (a : α) : (addItem a l).Balanced 0 :=
  balanced_incr .leaf hl

theorem balanced_link {t : Tree α} {l : Digit α} {n : ℕ} (ht : Balanced t B n)
    (hl : l.Balanced n) : ∃ m, Balanced (linkAll.link t l) B m := by
  fun_induction linkAll.link t l generalizing n with
  | case1 t => exact ⟨n, ht⟩
  | case2 t a t2 r ih => exact ih (.black hl.1.any ht.any) hl.2
  | case3 t a1 t1 a2 t2 r ih => exact ih (.black (.red hl.2.1 hl.1) ht.any) hl.2.2

/-- **Digits are linked into a balanced tree** with a black root. -/
theorem balanced_linkAll {l : Digit α} (hl : l.Balanced 0) : ∃ m, Balanced (linkAll l) B m :=
  balanced_link .leaf hl

end Construct

end SmlNj.RedBlack
