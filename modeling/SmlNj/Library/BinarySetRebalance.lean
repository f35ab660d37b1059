import SmlNj.Library.BinarySet
import Mathlib.Tactic

/-!
# The rebalancing constructor

`T'` joins two trees and an element between them without an exception, and keeps the
counts.  What it returns is in balance under a condition on the sizes of its
arguments, which is the condition that the rotation it chooses puts trees side by
side that are.

## Main definitions

* `BinarySet.Counted` — every `cnt` field is the number of elements of its tree.
* `BinarySet.Balanced` — the criterion of bounded balance, at every node.
* `BinarySet.Restores` — a call of `T'` restores the criterion.

## Main results

* `BinarySet.T'_spec` — the elements, the counts and the balance of the result.
-/

namespace SmlNj.BinarySet

open BinarySet.Tree

variable {α : Type}

def elems : Tree α → List α
  | E => []
  | T elt _ left right => elems left ++ elt :: elems right

def size : Tree α → ℕ
  | E => 0
  | T _ _ left right => size left + size right + 1

/-- Every `cnt` field is the number of elements of its tree. -/
def Counted : Tree α → Prop
  | E => True
  | T _ cnt left right => cnt = size left + size right + 1 ∧ Counted left ∧ Counted right

/-- Two sizes are in balance: neither is more than three times the other, and beside
an empty tree there are two elements at most. -/
def OkSizes (a b : ℕ) : Prop :=
  (a = 0 → b ≤ 2) ∧ (b = 0 → a ≤ 2) ∧ (a ≠ 0 → b ≠ 0 → a ≤ 3 * b ∧ b ≤ 3 * a)

def Balanced : Tree α → Prop
  | E => True
  | T _ _ left right => OkSizes (size left) (size right) ∧ Balanced left ∧ Balanced right

@[simp] theorem elems_E : elems (E : Tree α) = [] := rfl

@[simp] theorem elems_T (v : α) (n : ℕ) (l r : Tree α) :
    elems (T v n l r) = elems l ++ v :: elems r := rfl

@[simp] theorem size_E : size (E : Tree α) = 0 := rfl

@[simp] theorem size_T (v : α) (n : ℕ) (l r : Tree α) :
    size (T v n l r) = size l + size r + 1 := rfl

@[simp] theorem counted_E : Counted (E : Tree α) := trivial

variable {v w : α} {n : ℕ} {l r rr ll : Tree α}

@[simp] theorem counted_T :
    Counted (T v n l r) ↔ n = size l + size r + 1 ∧ Counted l ∧ Counted r := Iff.rfl

@[simp] theorem balanced_E : Balanced (E : Tree α) := trivial

@[simp] theorem balanced_T :
    Balanced (T v n l r) ↔ OkSizes (size l) (size r) ∧ Balanced l ∧ Balanced r := Iff.rfl

theorem length_elems (t : Tree α) : (elems t).length = size t := by
  induction t with
  | E => rfl
  | T v n l r ihl ihr =>
    rw [elems_T, size_T, List.length_append, List.length_cons, ihl, ihr]
    omega

theorem numItems_eq {t : Tree α} (h : Counted t) : numItems t = size t := by
  cases t with
  | E => rfl
  | T v n l r => exact h.1

theorem size_eq_zero {t : Tree α} : size t = 0 ↔ t = E := by
  cases t with
  | E => simp
  | T v n l r => simp

theorem N_eq (hl : Counted l) (hr : Counted r) : N v l r = T v (size l + size r + 1) l r := by
  rw [← numItems_eq hl, ← numItems_eq hr]
  cases l <;> cases r <;> simp [N, mkT, numItems]

/-! ### Which rotations restore the balance -/

/-- A single rotation puts the tree `a` beside the inner tree. -/
def SingleOk (a : ℕ) (inner : Tree α) : Prop := OkSizes a (size inner)

/-- A double rotation takes the inner tree apart, beside the trees `a` and `b`. -/
def DoubleOk (a : ℕ) (inner : Tree α) (b : ℕ) : Prop :=
  match inner with
  | E => True
  | T _ _ x y =>
      OkSizes a (size x) ∧ OkSizes (size y) b ∧ OkSizes (a + size x + 1) (size y + b + 1)

/-- The rotation to the left that `T'` chooses. -/
def RestoresLeft (l rl rr : Tree α) : Prop :=
  if size rl < size rr then SingleOk (size l) rl else DoubleOk (size l) rl (size rr)

/-- The rotation to the right that `T'` chooses. -/
def RestoresRight (ll lr r : Tree α) : Prop :=
  if size lr < size ll then SingleOk (size r) lr else DoubleOk (size ll) lr (size r)

/-- A call of `T'` restores the criterion. -/
def Restores (c : Call α) : Prop :=
  match c.left, c.right with
  | E, E => True
  | E, T _ _ rl rr => RestoresLeft E rl rr
  | T _ _ ll lr, E => RestoresRight ll lr E
  | l@(T _ _ ll lr), r@(T _ _ rl rr) =>
      if 3 * size l ≤ size r then RestoresLeft l rl rr
      else if 3 * size r ≤ size l then RestoresRight ll lr r
      else True

/-- What a rotation has to return. -/
structure Rebalanced (v : α) (l r : Tree α) (ok : Prop) (m : Except Exn (Tree α)) : Prop where
  /-- It returns a tree with the right elements and counts, in balance when `ok`. -/
  returns : ∃ t, m = .ok t ∧ Counted t ∧ elems t = elems l ++ v :: elems r ∧
    (Balanced l → Balanced r → (Balanced t ↔ ok))

theorem okSizes_comm {a b : ℕ} : OkSizes a b ↔ OkSizes b a := by
  unfold OkSizes
  omega

theorem single_sizes {a x z : ℕ} (hxz : OkSizes x z) (hlt : x < z)
    (hbig : 3 * a ≤ x + z + 1) : OkSizes a x → OkSizes (a + x + 1) z := by
  unfold OkSizes at *
  omega

theorem single_L_spec (hl : Counted l) (hr : Counted r) {rl : Tree α} (hrT : r = T w n rl rr)
    (hlt : size rl < size rr) (hbig : 3 * size l ≤ size r) :
    Rebalanced v l r (SingleOk (size l) rl) (single_L v l r) := by
  subst hrT
  obtain ⟨_, hrl, hrr⟩ := hr
  have hN : N v l rl = T v (size l + size rl + 1) l rl := N_eq hl hrl
  have hNC : Counted (N v l rl) := by
    rw [hN]
    exact ⟨rfl, hl, hrl⟩
  have hout : N w (N v l rl) rr = T w (size l + size rl + 1 + size rr + 1) (N v l rl) rr := by
    rw [N_eq hNC hrr, hN, size_T]
  refine ⟨N w (N v l rl) rr, rfl, ?_, ?_, ?_⟩
  · rw [hout]
    exact ⟨by rw [hN, size_T], hNC, hrr⟩
  · rw [hout, hN]
    simp
  · rintro hbl ⟨hok, hbrl, hbrr⟩
    have hsize := single_sizes hok hlt (a := size l) (by simpa using hbig)
    rw [hout, hN]
    simp only [balanced_T, size_T, SingleOk]
    tauto

theorem single_R_spec (hl : Counted l) (hr : Counted r) {lr : Tree α} (hlT : l = T w n ll lr)
    (hlt : size lr < size ll) (hbig : 3 * size r ≤ size l) :
    Rebalanced v l r (SingleOk (size r) lr) (single_R v l r) := by
  subst hlT
  obtain ⟨_, hll, hlr⟩ := hl
  have hN : N v lr r = T v (size lr + size r + 1) lr r := N_eq hlr hr
  have hNC : Counted (N v lr r) := by
    rw [hN]
    exact ⟨rfl, hlr, hr⟩
  have hout : N w ll (N v lr r) = T w (size ll + (size lr + size r + 1) + 1) ll (N v lr r) := by
    rw [N_eq hll hNC, hN, size_T]
  refine ⟨N w ll (N v lr r), rfl, ?_, ?_, ?_⟩
  · rw [hout]
    exact ⟨by rw [hN, size_T], hll, hNC⟩
  · rw [hout, hN]
    simp
  · rintro ⟨hok, hbll, hblr⟩ hbr
    have hsize := single_sizes (okSizes_comm.mp hok) hlt (a := size r)
      (by simp only [size_T] at hbig; omega)
    have hswap : OkSizes (size ll) (size lr + size r + 1) ↔
        OkSizes (size r + size lr + 1) (size ll) := by
      rw [okSizes_comm, Nat.add_comm (size lr)]
    rw [hout, hN]
    simp only [balanced_T, size_T, SingleOk]
    rw [hswap, okSizes_comm (a := size lr)]
    tauto

theorem double_L_spec (hl : Counted l) (hr : Counted r) {u : α} {m : ℕ} {x y : Tree α}
    (hrT : r = T w n (T u m x y) rr) :
    Rebalanced v l r (DoubleOk (size l) (T u m x y) (size rr)) (double_L v l r) := by
  subst hrT
  obtain ⟨_, ⟨_, hx, hy⟩, hrr⟩ := hr
  have hN1 : N v l x = T v (size l + size x + 1) l x := N_eq hl hx
  have hN2 : N w y rr = T w (size y + size rr + 1) y rr := N_eq hy hrr
  have hC1 : Counted (N v l x) := by
    rw [hN1]
    exact ⟨rfl, hl, hx⟩
  have hC2 : Counted (N w y rr) := by
    rw [hN2]
    exact ⟨rfl, hy, hrr⟩
  refine ⟨N u (N v l x) (N w y rr), rfl, ?_, ?_, ?_⟩
  · rw [N_eq hC1 hC2]
    exact ⟨rfl, hC1, hC2⟩
  · rw [N_eq hC1 hC2, hN1, hN2]
    simp
  · rintro hbl ⟨_, ⟨_, hbx, hby⟩, hbrr⟩
    rw [N_eq hC1 hC2, hN1, hN2]
    simp only [balanced_T, size_T, DoubleOk]
    tauto

theorem double_R_spec (hl : Counted l) (hr : Counted r) {u : α} {m : ℕ} {x y : Tree α}
    (hlT : l = T w n ll (T u m x y)) :
    Rebalanced v l r (DoubleOk (size ll) (T u m x y) (size r)) (double_R v l r) := by
  subst hlT
  obtain ⟨_, hll, _, hx, hy⟩ := hl
  have hN1 : N w ll x = T w (size ll + size x + 1) ll x := N_eq hll hx
  have hN2 : N v y r = T v (size y + size r + 1) y r := N_eq hy hr
  have hC1 : Counted (N w ll x) := by
    rw [hN1]
    exact ⟨rfl, hll, hx⟩
  have hC2 : Counted (N v y r) := by
    rw [hN2]
    exact ⟨rfl, hy, hr⟩
  refine ⟨N u (N w ll x) (N v y r), rfl, ?_, ?_, ?_⟩
  · rw [N_eq hC1 hC2]
    exact ⟨rfl, hC1, hC2⟩
  · rw [N_eq hC1 hC2, hN1, hN2]
    simp
  · rintro ⟨_, hbll, _, hbx, hby⟩ hbr
    rw [N_eq hC1 hC2, hN1, hN2]
    simp only [balanced_T, size_T, DoubleOk]
    tauto

/-- The rotation to the left that `T'` chooses; the inner tree is not empty when it is
the larger one. -/
theorem rotate_left_spec (hl : Counted l) (hr : Counted r) {rl : Tree α} (hrT : r = T w n rl rr)
    (hbig : 3 * size l ≤ size r) (hne : size rr ≤ size rl → rl ≠ E) :
    Rebalanced v l r (RestoresLeft l rl rr)
      (if size rl < size rr then single_L v l r else double_L v l r) := by
  unfold RestoresLeft
  by_cases hlt : size rl < size rr
  · rw [if_pos hlt, if_pos hlt]
    exact single_L_spec hl hr hrT hlt hbig
  · rw [if_neg hlt, if_neg hlt]
    cases rl with
    | E => exact absurd rfl (hne (by omega))
    | T u m x y => exact double_L_spec hl hr hrT

theorem rotate_right_spec (hl : Counted l) (hr : Counted r) {lr : Tree α} (hlT : l = T w n ll lr)
    (hbig : 3 * size r ≤ size l) (hne : size ll ≤ size lr → lr ≠ E) :
    Rebalanced v l r (RestoresRight ll lr r)
      (if size lr < size ll then single_R v l r else double_R v l r) := by
  unfold RestoresRight
  by_cases hlt : size lr < size ll
  · rw [if_pos hlt, if_pos hlt]
    exact single_R_spec hl hr hlT hlt hbig
  · rw [if_neg hlt, if_neg hlt]
    cases lr with
    | E => exact absurd rfl (hne (by omega))
    | T u m x y => exact double_R_spec hl hr hlT

theorem wt_eq (i : ℕ) : wt i = 3 * i := by
  unfold wt
  omega

theorem keep_spec (hl : Counted l) (hr : Counted r) (hn : n = size l + size r + 1) {ok : Prop}
    (hok : OkSizes (size l) (size r) ↔ ok) : Rebalanced v l r ok (.ok (mkT v n l r)) := by
  refine ⟨mkT v n l r, rfl, ⟨hn, hl, hr⟩, rfl, ?_⟩
  intro hbl hbr
  unfold mkT
  rw [balanced_T]
  tauto

/-- **The rebalancing constructor** returns the tree of the elements, with the right
counts, and in balance exactly when the call restores it. -/
theorem T'_spec (v : α) (hl : Counted l) (hr : Counted r) :
    Rebalanced v l r (Restores ⟨v, l, r⟩) (T' v l r) := by
  unfold T'
  split
  · exact keep_spec hl hr rfl (iff_of_true (by simp [OkSizes]) trivial)
  · refine keep_spec hl hr (by simp) (iff_of_true (by simp [OkSizes]) ?_)
    simp [Restores, RestoresLeft, DoubleOk]
  · refine keep_spec hl hr (by simp) (iff_of_true (by simp [OkSizes]) ?_)
    simp [Restores, RestoresRight, DoubleOk]
  · -- an inner tree alone
    have := rotate_left_spec (v := v) hl hr rfl (by simp) (fun _ => by simp)
    rw [if_neg (by simp)] at this
    exact this
  · have := rotate_right_spec (v := v) hl hr rfl (by simp) (fun _ => by simp)
    rw [if_neg (by simp)] at this
    exact this
  · rename_i w n a ln a1 a2 b rn b1 b2
    have hln : ln = size (T a ln a1 a2) := hr.2.1.1
    have hrn : rn = size (T b rn b1 b2) := hr.2.2.1
    have := rotate_left_spec (v := v) hl hr rfl (by simp) (fun _ => by simp)
    rw [← hln, ← hrn] at this
    exact this
  · rename_i w n a ln a1 a2 b rn b1 b2
    have hln : ln = size (T a ln a1 a2) := hl.2.1.1
    have hrn : rn = size (T b rn b1 b2) := hl.2.2.1
    have := rotate_right_spec (v := v) hl hr rfl (by simp) (fun _ => by simp)
    rw [← hln, ← hrn] at this
    exact this
  · rename_i w n rr hne
    have hpos : 0 < size rr := by
      have := size_eq_zero.not.mpr hne
      omega
    have := rotate_left_spec (v := v) hl hr rfl (by simp) (fun h => absurd h (by simp; omega))
    rw [if_pos (by simpa using hpos)] at this
    exact this
  · rename_i w n ll hne
    have hpos : 0 < size ll := by
      have := size_eq_zero.not.mpr hne
      omega
    have := rotate_right_spec (v := v) hl hr rfl (by simp) (fun h => absurd h (by simp; omega))
    rw [if_pos (by simpa using hpos)] at this
    exact this
  · rename_i lw ln ll lr rw rn rl rr
    have hln : ln = size (T lw ln ll lr) := hl.1
    have hrn : rn = size (T rw rn rl rr) := hr.1
    dsimp only
    rw [wt_eq, wt_eq, numItems_eq hl.2.1, numItems_eq hl.2.2, numItems_eq hr.2.1,
      numItems_eq hr.2.2]
    have hres : Restores ⟨v, T lw ln ll lr, T rw rn rl rr⟩ =
        if 3 * ln ≤ rn then RestoresLeft (T lw ln ll lr) rl rr
        else if 3 * rn ≤ ln then RestoresRight ll lr (T rw rn rl rr)
        else True := by
      unfold Restores
      dsimp only
      rw [← hln, ← hrn]
    rw [hres]
    by_cases hbig : 3 * ln ≤ rn
    · rw [if_pos hbig, if_pos hbig]
      refine rotate_left_spec hl hr rfl (by rw [← hln, ← hrn]; exact hbig) ?_
      -- The other tree has an element, so the right one has three.
      rintro hle rfl
      rw [size_T] at hln hrn
      rw [size_E] at hle hrn
      omega
    · rw [if_neg hbig, if_neg hbig]
      by_cases hbig' : 3 * rn ≤ ln
      · rw [if_pos hbig', if_pos hbig']
        refine rotate_right_spec hl hr rfl (by rw [← hln, ← hrn]; exact hbig') ?_
        rintro hle rfl
        rw [size_T] at hln hrn
        rw [size_E] at hle hln
        omega
      · rw [if_neg hbig', if_neg hbig']
        refine keep_spec hl hr (by rw [← hln, ← hrn]) (iff_of_true ?_ trivial)
        rw [← hln, ← hrn]
        rw [size_T] at hln hrn
        unfold OkSizes
        omega

end SmlNj.BinarySet
