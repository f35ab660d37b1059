import Mathlib.Tactic.Ring
import SmlNj.Lib.TotalRun

/-!
# The distance of strings by edits

The costs of aligning the prefixes of two strings are computed in one array, with accesses that are
not checked.  Here an access out of bounds is a fault, and so is to read a cell that still has its
first contents, so that a run without a fault is one in which every access is in order.  There is
no bound on the length of an array.

## Main definitions

* `distance` — the computation.
* `Edits` — the alignments of two strings, with the number of their edits.
* `cost` — the least number of edits for two prefixes, by recursion.

## Main results

* `cost_isLeast` — the recursion is optimal.
* `distance_correct` — the computation returns the least number of edits.
-/

namespace SmlNj.EditDistance

open TotalRun

/-- What is wrong with an access: there is no such cell, or nothing was computed for it. -/
inductive Fault
  | bounds
  | unset
  deriving DecidableEq

abbrev Str := List UInt8

abbrev Prog := Run Fault (Array ℤ)

/-- `Array.array` -/
def array (n : ℕ) (x : ℤ) : Prog Unit := ExceptT.mk fun _ => some (.ok (), Array.replicate n x)

def item {α : Type} (s : List α) (i : ℤ) : Option α := if 0 ≤ i then s[i.toNat]? else none

/-- `Unsafe.CharVector.sub` -/
def stringSub (s : Str) (i : ℤ) : Prog UInt8 :=
  match item s i with
  | some c => pure c
  | none => throw .bounds

/-- `Unsafe.Array.sub` -/
def arraySub (i : ℤ) : Prog ℤ := ExceptT.mk fun d =>
  match item d.toList i with
  | some x => some (if x = -1 then .error .unset else .ok x, d)
  | none => some (.error .bounds, d)

/-- `Unsafe.Array.update` -/
def arrayUpdate (i x : ℤ) : Prog Unit := ExceptT.mk fun d =>
  if 0 ≤ i ∧ i < d.size then some (.ok (), d.setIfInBounds i.toNat x) else some (.error .bounds, d)

def min3 (a b c : ℤ) : ℤ :=
  if a ≤ b then if a ≤ c then a else c else if b ≤ c then b else c

section Loops

variable (a b : Str)

def get (i j : ℤ) : Prog ℤ := arraySub (i * (b.length + 1) + j)

def set (i j k : ℤ) : Prog Unit := arrayUpdate (i * (b.length + 1) + j) k

/-- The least cost for a cell, where `cost` is the cost of a replacement. -/
def editCost (i j cost : ℤ) : Prog ℤ := do
  return min3 ((← get b (i - 1) j) + 1) ((← get b i (j - 1)) + 1) ((← get b (i - 1) (j - 1)) + cost)

def init1 (i : ℕ) : Prog Unit :=
  if i ≤ a.length then do
    set b i 0 i
    init1 (i + 1)
  else pure ()
termination_by a.length + 1 - i

def init2 (j : ℕ) : Prog Unit :=
  if j ≤ b.length then do
    set b 0 j j
    init2 (j + 1)
  else pure ()
termination_by b.length + 1 - j

def update (i j cost : ℤ) : Prog Unit := do
  set b i j (← editCost b i j cost)

/-- The row of the first character. -/
def lp1 (a1 : UInt8) (j : ℕ) : Prog Unit :=
  if j ≤ b.length then do
    let bj ← stringSub b (j - 1)
    (if a1 = bj then update b 1 j 0 else update b 1 j 1) >>= fun _ => lp1 a1 (j + 1)
  else pure ()
termination_by b.length + 1 - j

/-- The column of the first character. -/
def lp2 (b1 : UInt8) (i : ℕ) : Prog Unit :=
  if i ≤ a.length then do
    let ai ← stringSub a (i - 1)
    (if ai = b1 then update b i 1 0 else update b i 1 1) >>= fun _ => lp2 b1 (i + 1)
  else pure ()
termination_by a.length + 1 - i

/-- The cell of the characters `ai` and `bj`, which come after `aim1` and `bjm1`. -/
def body (i j : ℤ) (ai aim1 bj bjm1 : UInt8) (cost : ℤ) : Prog Unit := do
  let dij ← editCost b i j cost
  if aim1 = bj ∧ bjm1 = ai then set b i j (min dij ((← get b (i - 2) (j - 2)) + 1))
  else set b i j dij

def lpj (i : ℕ) (ai aim1 : UInt8) (j : ℕ) (bjm1 : UInt8) : Prog Unit :=
  if j ≤ b.length then do
    let bj ← stringSub b (j - 1)
    (if ai = bj then body b i j ai aim1 bj bjm1 0 else body b i j ai aim1 bj bjm1 1) >>= fun _ =>
      lpj i ai aim1 (j + 1) bj
  else pure ()
termination_by b.length + 1 - j

/-- The rows from the second one on. -/
def lpi (b1 : UInt8) (i : ℕ) (aim1 : UInt8) : Prog Unit :=
  if i ≤ a.length then do
    let ai ← stringSub a (i - 1)
    lpj b i ai aim1 2 b1
    lpi b1 (i + 1) ai
  else pure ()
termination_by a.length + 1 - i

end Loops

/-- **The distance of two strings.** -/
def distance (a b : Str) : Prog ℤ :=
  if a = [] then pure b.length
  else if b = [] then pure a.length
  else do
    array ((a.length + 1) * (b.length + 1)) (-1)
    init1 a b 0
    init2 b 0
    let a1 ← stringSub a 0
    let b1 ← stringSub b 0
    lp1 b a1 1
    lp2 a b b1 1
    lpi a b b1 2 a1
    get b a.length b.length

/-! ### Alignments -/

section Spec

variable {α : Type*} {a b : List α} {n : ℕ}

/-- **The alignments.**  The strings are turned into one another from left to right; what has been
edited is not looked at again, so that no part of a string is edited twice. -/
inductive Edits : List α → List α → ℕ → Prop
  | nil : Edits [] [] 0
  | keep (x) {a b n} : Edits a b n → Edits (x :: a) (x :: b) n
  | delete (x) {a b n} : Edits a b n → Edits (x :: a) b (n + 1)
  | insert (y) {a b n} : Edits a b n → Edits a (y :: b) (n + 1)
  | replace (x y) {a b n} : Edits a b n → Edits (x :: a) (y :: b) (n + 1)
  | transpose (x y) {a b n} : Edits a b n → Edits (x :: y :: a) (y :: x :: b) (n + 1)

theorem Edits.symm (h : Edits a b n) : Edits b a n := by
  induction h with
  | nil => exact .nil
  | keep x _ ih => exact .keep x ih
  | delete x _ ih => exact .insert x ih
  | insert y _ ih => exact .delete y ih
  | replace x y _ ih => exact .replace y x ih
  | transpose x y _ ih => exact .transpose y x ih

theorem Edits.append {a' b' : List α} {m : ℕ} (h : Edits a b n) (h' : Edits a' b' m) :
    Edits (a ++ a') (b ++ b') (n + m) := by
  induction h with
  | nil => rwa [Nat.zero_add]
  | keep x _ ih => exact .keep x ih
  | delete x _ ih => rw [Nat.add_right_comm]; exact .delete x ih
  | insert y _ ih => rw [Nat.add_right_comm]; exact .insert y ih
  | replace x y _ ih => rw [Nat.add_right_comm]; exact .replace x y ih
  | transpose x y _ ih => rw [Nat.add_right_comm]; exact .transpose x y ih

theorem Edits.reverse (h : Edits a b n) : Edits a.reverse b.reverse n := by
  induction h with
  | nil => exact .nil
  | keep x _ ih => simpa using ih.append (.keep x .nil)
  | delete x _ ih => simpa using ih.append (.delete x .nil)
  | insert y _ ih => simpa using ih.append (.insert y .nil)
  | replace x y _ ih => simpa using ih.append (.replace x y .nil)
  | transpose x y _ ih => simpa using ih.append (.transpose y x .nil)

theorem edits_zero_iff : Edits a b 0 ↔ a = b := by
  constructor
  · generalize hn : 0 = n
    intro h
    induction h with
    | nil => rfl
    | keep x _ ih => rw [ih hn]
    | _ => cases hn
  · rintro rfl
    induction a with
    | nil => exact .nil
    | cons x a ih => exact .keep x ih

theorem Edits.min {m : ℕ} (h : Edits a b m) (h' : Edits a b n) : Edits a b (min m n) := by
  rcases min_choice m n with e | e
  · rwa [e]
  · rwa [e]

variable [DecidableEq α]

/-- The least number of edits, for strings that are read backwards. -/
@[grind =] def cost : List α → List α → ℕ
  | [], ys => ys.length
  | x :: xs, [] => (x :: xs).length
  | x :: xs, y :: ys =>
    let c := min (cost xs (y :: ys) + 1)
      (min (cost (x :: xs) ys + 1) (cost xs ys + if x = y then 0 else 1))
    match xs, ys with
    | x' :: xs', y' :: ys' => if x' = y ∧ y' = x then min c (cost xs' ys' + 1) else c
    | _, _ => c
termination_by xs ys => xs.length + ys.length

theorem cost_cons_cons (x y : α) (xs ys : List α) :
    cost (x :: xs) (y :: ys) =
      let c := min (cost xs (y :: ys) + 1)
        (min (cost (x :: xs) ys + 1) (cost xs ys + if x = y then 0 else 1))
      match xs, ys with
      | x' :: xs', y' :: ys' => if x' = y ∧ y' = x then min c (cost xs' ys' + 1) else c
      | _, _ => c := by
  rw [cost.eq_def]

theorem cost_nil_right (xs : List α) : cost xs [] = xs.length := by
  cases xs with
  | nil => rw [cost]
  | cons x xs => rw [cost]

theorem cost_le (x y : α) (xs ys : List α) :
    cost (x :: xs) (y :: ys) ≤ min (cost xs (y :: ys) + 1)
      (min (cost (x :: xs) ys + 1) (cost xs ys + if x = y then 0 else 1)) := by
  rw [cost_cons_cons]
  dsimp only
  split
  · split
    · exact min_le_left _ _
    · exact le_rfl
  · exact le_rfl

theorem cost_delete_le (x : α) (a b : List α) : cost (x :: a) b ≤ cost a b + 1 := by
  cases b with
  | nil => rw [cost_nil_right, cost_nil_right, List.length_cons]
  | cons y b => exact (cost_le x y a b).trans (min_le_left _ _)

theorem cost_insert_le (y : α) (a b : List α) : cost a (y :: b) ≤ cost a b + 1 := by
  cases a with
  | nil => rw [cost, cost, List.length_cons]
  | cons x a => exact (cost_le x y a b).trans ((min_le_right _ _).trans (min_le_left _ _))

theorem cost_replace_le (x y : α) (a b : List α) :
    cost (x :: a) (y :: b) ≤ cost a b + if x = y then 0 else 1 :=
  (cost_le x y a b).trans ((min_le_right _ _).trans (min_le_right _ _))

theorem Edits.cost_le (h : Edits a b n) : cost a b ≤ n := by
  induction h with
  | nil => rw [cost]; rfl
  | @keep x a b n _ ih =>
    have := cost_replace_le x x a b
    rw [if_pos rfl] at this
    omega
  | @delete x a b n _ ih => exact (cost_delete_le x a b).trans (Nat.succ_le_succ ih)
  | @insert y a b n _ ih => exact (cost_insert_le y a b).trans (Nat.succ_le_succ ih)
  | @replace x y a b n _ ih =>
    have := cost_replace_le x y a b
    split at this <;> omega
  | @transpose x y a b n _ ih =>
    rw [cost_cons_cons]
    dsimp only
    rw [if_pos ⟨rfl, rfl⟩]
    exact (min_le_right _ _).trans (Nat.succ_le_succ ih)

theorem edits_cost (a b : List α) : Edits a b (cost a b) := by
  induction hn : a.length + b.length using Nat.strong_induction_on generalizing a b with
  | _ n ih =>
  subst hn
  match a, b with
  | [], b =>
    rw [cost]
    clear ih
    induction b with
    | nil => exact .nil
    | cons y b ihb => exact .insert y ihb
  | a, [] =>
    rw [cost_nil_right]
    clear ih
    induction a with
    | nil => exact .nil
    | cons x a iha => exact .delete x iha
  | x :: xs, y :: ys =>
    have hsub : Edits (x :: xs) (y :: ys) (cost xs ys + if x = y then 0 else 1) := by
      have h := ih _ (by simp; omega) xs ys rfl
      split
      · next heq => subst heq; exact .keep x h
      · exact .replace x y h
    have hc := Edits.min (.delete x (ih _ (by simp) xs (y :: ys) rfl))
      (.min (.insert y (ih _ (by simp) (x :: xs) ys rfl)) hsub)
    rw [cost_cons_cons]
    dsimp only
    split
    · next x' xs' y' ys' =>
      split
      · next h =>
        obtain ⟨rfl, rfl⟩ := h
        exact hc.min (.transpose y' x' (ih _ (by simp; omega) xs' ys' rfl))
      · exact hc
    · exact hc

/-- **The recursion is optimal.** -/
theorem cost_isLeast (a b : List α) : IsLeast {n | Edits a b n} (cost a b) :=
  ⟨edits_cost a b, fun _ h => h.cost_le⟩

end Spec

/-! ### The table -/

section Table

variable {a b : Str} {d : Array ℤ} {F : ℕ → ℕ → Prop} {i j : ℕ}

theorem min3_eq (x y z : ℤ) : min3 x y z = min x (min y z) := by
  unfold min3
  split_ifs <;> omega

/-- The least number of edits for the first `i` and the first `j` characters. -/
def best (a b : Str) (i j : ℕ) : ℕ := cost (a.take i).reverse (b.take j).reverse

theorem best_zero_left (hj : j ≤ b.length) : best a b 0 j = j := by
  rw [best, List.take_zero, List.reverse_nil, cost, List.length_reverse, List.length_take_of_le hj]

theorem best_zero_right (hi : i ≤ a.length) : best a b i 0 = i := by
  rw [best, List.take_zero, List.reverse_nil, cost_nil_right, List.length_reverse,
    List.length_take_of_le hi]

theorem reverse_take_succ (hi : i < a.length) :
    (a.take (i + 1)).reverse = a[i] :: (a.take i).reverse := by
  rw [List.take_succ_eq_append_getElem hi, List.reverse_append, List.reverse_singleton,
    List.singleton_append]

def step (a b : Str) (i j : ℕ) (c : ℤ) : ℤ :=
  min3 (best a b i (j + 1) + 1) (best a b (i + 1) j + 1) (best a b i j + c)

theorem best_border (hi : i < a.length) (hj : j < b.length) (h : i = 0 ∨ j = 0) :
    (best a b (i + 1) (j + 1) : ℤ) = step a b i j (if a[i] = b[j] then 0 else 1) := by
  have hcost : best a b (i + 1) (j + 1) = min (best a b i (j + 1) + 1)
      (min (best a b (i + 1) j + 1) (best a b i j + if a[i] = b[j] then 0 else 1)) := by
    simp only [best, reverse_take_succ hi, reverse_take_succ hj, cost_cons_cons]
    rcases h with rfl | rfl
    · rfl
    · cases (a.take i).reverse <;> rfl
  rw [step, min3_eq, hcost]
  split <;> omega

theorem best_inner (hi : i + 1 < a.length) (hj : j + 1 < b.length) :
    (best a b (i + 2) (j + 2) : ℤ) =
      let c := step a b (i + 1) (j + 1) (if a[i + 1] = b[j + 1] then 0 else 1)
      if a[i] = b[j + 1] ∧ b[j] = a[i + 1] then min c (best a b i j + 1) else c := by
  have hcost : best a b (i + 2) (j + 2) =
      let c := min (best a b (i + 1) (j + 1 + 1) + 1) (min (best a b (i + 1 + 1) (j + 1) + 1)
        (best a b (i + 1) (j + 1) + if a[i + 1] = b[j + 1] then 0 else 1))
      if a[i] = b[j + 1] ∧ b[j] = a[i + 1] then min c (best a b i j + 1) else c := by
    have ha := reverse_take_succ (show i < a.length by omega)
    have hb := reverse_take_succ (show j < b.length by omega)
    simp only [best, reverse_take_succ hi, reverse_take_succ hj]
    rw [cost_cons_cons, ha, hb]
  rw [hcost]
  dsimp [step]
  rw [min3_eq]
  split <;> split <;> omega

/-- **The invariant**: the array has the right size, and the cells of a set are right. -/
structure Filled (a b : Str) (F : ℕ → ℕ → Prop) (d : Array ℤ) : Prop where
  size : d.size = (a.length + 1) * (b.length + 1)
  cell : ∀ {i j}, i ≤ a.length → j ≤ b.length → F i j →
    d[i * (b.length + 1) + j]? = some (best a b i j : ℤ)

theorem Filled.mono {F' : ℕ → ℕ → Prop} (h : Filled a b F d)
    (hF : ∀ i j, i ≤ a.length → j ≤ b.length → F' i j → F i j) : Filled a b F' d :=
  ⟨h.size, fun hi hj hf => h.cell hi hj (hF _ _ hi hj hf)⟩

theorem get_spec (h : Filled a b F d) (hi : i ≤ a.length) (hj : j ≤ b.length) (hF : F i j) :
    Returns (get b i j) d fun x d' => x = best a b i j ∧ d' = d := by
  have hk : (i * (b.length + 1) + j : ℤ) = (i * (b.length + 1) + j : ℕ) := by push_cast; rfl
  have hitem : item d.toList (i * (b.length + 1) + j) = some (best a b i j : ℤ) := by
    rw [hk, item, if_pos (Int.natCast_nonneg _), Int.toNat_natCast, Array.getElem?_toList,
      h.cell hi hj hF]
  refine ⟨best a b i j, d, ?_, rfl, rfl⟩
  simp only [get, arraySub, ExceptT.run_mk, StateT.run, hitem]
  rw [if_neg (by omega)]

theorem set_spec (h : Filled a b F d) (hi : i ≤ a.length) (hj : j ≤ b.length) :
    Returns (set b i j (best a b i j)) d fun _ d' =>
      Filled a b (fun i' j' => F i' j' ∨ i' = i ∧ j' = j) d' := by
  have hk : (i * (b.length + 1) + j : ℤ) = (i * (b.length + 1) + j : ℕ) := by push_cast; rfl
  have hlt : i * (b.length + 1) + j < d.size := by
    have := Nat.mul_le_mul_right (b.length + 1) hi
    rw [h.size, Nat.add_mul]
    omega
  refine ⟨(), d.setIfInBounds (i * (b.length + 1) + j) (best a b i j), ?_, ?_, ?_⟩
  · change (if (0 : ℤ) ≤ i * (b.length + 1) + j ∧ (i * (b.length + 1) + j : ℤ) < d.size then _
      else _) = _
    rw [hk, if_pos ⟨Int.natCast_nonneg _, by exact_mod_cast hlt⟩, Int.toNat_natCast]
  · rw [Array.size_setIfInBounds, h.size]
  · intro i' j' hi' hj' hF
    rw [Array.getElem?_setIfInBounds]
    split
    · next heq =>
      -- rows do not overlap, so that this is the cell itself
      have hdiv := congrArg (· / (b.length + 1)) heq
      have hmod := congrArg (· % (b.length + 1)) heq
      simp only [Nat.mul_comm _ (b.length + 1), Nat.mul_add_div, Nat.mul_add_mod,
        Nat.div_eq_of_lt (Nat.lt_succ_of_le hj), Nat.div_eq_of_lt (Nat.lt_succ_of_le hj'),
        Nat.mod_eq_of_lt (Nat.lt_succ_of_le hj), Nat.mod_eq_of_lt (Nat.lt_succ_of_le hj'),
        Nat.succ_pos, Nat.add_zero] at hdiv hmod
      rw [hdiv, hmod]
    · next hne =>
      refine h.cell hi' hj' (hF.resolve_right ?_)
      rintro ⟨rfl, rfl⟩
      exact hne rfl

theorem cast_sub_one (k : ℕ) : ((k + 1 : ℕ) : ℤ) - 1 = k := by omega

theorem editCost_spec (h : Filled a b F d) (hi : i < a.length) (hj : j < b.length) (c : ℤ)
    (h₁ : F i (j + 1)) (h₂ : F (i + 1) j) (h₃ : F i j) :
    Returns (editCost b (i + 1 : ℕ) (j + 1 : ℕ) c) d fun x d' => x = step a b i j c ∧ d' = d := by
  unfold editCost
  rw [cast_sub_one, cast_sub_one]
  refine returns_bind_of (get_spec h hi.le hj h₁) ?_
  rintro x _ ⟨rfl, rfl⟩
  refine returns_bind_of (get_spec h hi hj.le h₂) ?_
  rintro y _ ⟨rfl, rfl⟩
  refine returns_bind_of (get_spec h hi.le hj.le h₃) ?_
  rintro z _ ⟨rfl, rfl⟩
  exact returns_pure ⟨rfl, rfl⟩

theorem stringSub_spec {s : Str} (hi : i < s.length) :
    Returns (stringSub s i) d fun c d' => c = s[i] ∧ d' = d := by
  have hitem : item s i = some s[i] := by
    rw [item, if_pos (Int.natCast_nonneg _), Int.toNat_natCast, List.getElem?_eq_getElem hi]
  unfold stringSub
  rw [hitem]
  exact returns_pure ⟨rfl, rfl⟩

theorem update_spec (h : Filled a b F d) (hi : i < a.length) (hj : j < b.length)
    (hzero : i = 0 ∨ j = 0) (h₁ : F i (j + 1)) (h₂ : F (i + 1) j) (h₃ : F i j) :
    Returns (update b (i + 1 : ℕ) (j + 1 : ℕ) (if a[i] = b[j] then 0 else 1)) d fun _ d' =>
      Filled a b (fun i' j' => F i' j' ∨ i' = i + 1 ∧ j' = j + 1) d' := by
  refine returns_bind_of (editCost_spec h hi hj _ h₁ h₂ h₃) ?_
  rintro x _ ⟨rfl, rfl⟩
  rw [← best_border hi hj hzero]
  exact set_spec h hi hj

theorem body_spec (h : Filled a b F d) (hi : i + 1 < a.length) (hj : j + 1 < b.length)
    (h₁ : F (i + 1) (j + 2)) (h₂ : F (i + 2) (j + 1)) (h₃ : F (i + 1) (j + 1)) (h₄ : F i j) :
    Returns (body b (i + 2 : ℕ) (j + 2 : ℕ) a[i + 1] a[i] b[j + 1] b[j]
      (if a[i + 1] = b[j + 1] then 0 else 1)) d fun _ d' =>
      Filled a b (fun i' j' => F i' j' ∨ i' = i + 2 ∧ j' = j + 2) d' := by
  have hbest := best_inner hi hj
  refine returns_bind_of (editCost_spec h hi hj _ h₁ h₂ h₃) ?_
  rintro _ _ ⟨rfl, rfl⟩
  rw [show ((j + 2 : ℕ) : ℤ) - 2 = j by omega, show ((i + 2 : ℕ) : ℤ) - 2 = i by omega]
  split
  · next hswap =>
    refine returns_bind_of (get_spec h (by omega) (by omega) h₄) ?_
    rintro _ _ ⟨rfl, rfl⟩
    rw [if_pos hswap] at hbest
    rw [← hbest]
    exact set_spec h hi hj
  · next hswap =>
    rw [if_neg hswap] at hbest
    rw [← hbest]
    exact set_spec h hi hj

/-! ### The loops -/

theorem loop_spec {δ : Type} {n k : ℕ} (loop : ℕ → δ → Prog Unit) (Inv : ℕ → δ → Array ℤ → Prop)
    {Q : Unit → Array ℤ → Prop} {c : δ} (hend : ∀ c, loop n c = pure ())
    (hQ : ∀ c d, Inv n c d → Q () d)
    (hstep : ∀ i c d, i < n → Inv i c d →
      (∀ c' d', Inv (i + 1) c' d' → Returns (loop (i + 1) c') d' Q) → Returns (loop i c) d Q)
    (hk : k ≤ n) (h : Inv k c d) : Returns (loop k c) d Q := by
  induction hk using Nat.decreasingInduction generalizing c d with
  | of_succ i hi ih => exact hstep i c d hi h fun c' d' h' => ih h'
  | self =>
    rw [hend]
    exact returns_pure (hQ c d h)

theorem init1_spec (h : Filled a b (fun _ _ => False) d) :
    Returns (init1 a b 0) d fun _ d' => Filled a b (fun _ j => j = 0) d' := by
  refine loop_spec (fun i (_ : Unit) => init1 a b i) (n := a.length + 1) (c := ())
    (fun k _ => Filled a b fun i j => j = 0 ∧ i < k) (fun _ => by rw [init1, if_neg (by omega)])
    (fun _ d h => h.mono fun i j _ _ h => by omega) ?_ (Nat.zero_le _) (h.mono (by simp))
  intro i _ d hi h ih
  have hset := set_spec h (Nat.le_of_lt_succ hi) (Nat.zero_le _)
  rw [best_zero_right (Nat.le_of_lt_succ hi)] at hset
  rw [init1, if_pos (Nat.le_of_lt_succ hi)]
  exact returns_bind_of hset fun _ d' h => ih () d' (h.mono fun i' j' _ _ h => by omega)

theorem init2_spec (h : Filled a b (fun _ j => j = 0) d) :
    Returns (init2 b 0) d fun _ d' => Filled a b (fun i j => i = 0 ∨ j = 0) d' := by
  refine loop_spec (fun j (_ : Unit) => init2 b j) (n := b.length + 1) (c := ())
    (fun k _ => Filled a b fun i j => j = 0 ∨ i = 0 ∧ j < k)
    (fun _ => by rw [init2, if_neg (by omega)]) (fun _ d h => h.mono fun i j _ _ h => by omega) ?_
    (Nat.zero_le _) (h.mono (by simp))
  intro j _ d hj h ih
  have hset := set_spec h (Nat.zero_le _) (Nat.le_of_lt_succ hj)
  rw [best_zero_left (Nat.le_of_lt_succ hj)] at hset
  rw [init2, if_pos (Nat.le_of_lt_succ hj)]
  exact returns_bind_of hset fun _ d' h => ih () d' (h.mono fun i' j' _ _ h => by omega)

theorem lp1_spec (ha : 0 < a.length) (h : Filled a b (fun i j => i = 0 ∨ j = 0) d) :
    Returns (lp1 b a[0] 1) d fun _ d' => Filled a b (fun i j => i ≤ 1 ∨ j = 0) d' := by
  refine loop_spec (fun j (_ : Unit) => lp1 b a[0] (j + 1)) (n := b.length) (c := ())
    (fun k _ => Filled a b fun i j => (i = 0 ∨ j = 0) ∨ i = 1 ∧ j < k + 1)
    (fun _ => by rw [lp1, if_neg (by omega)]) (fun _ d h => h.mono fun i j _ _ h => by omega) ?_
    (Nat.zero_le _) (h.mono fun i j _ _ h => by omega)
  intro j _ d hj h ih
  rw [lp1, if_pos (Nat.succ_le_of_lt hj), cast_sub_one]
  refine returns_bind_of (stringSub_spec hj) ?_
  rintro _ _ ⟨rfl, rfl⟩
  rw [← apply_ite (update b 1 (j + 1 : ℕ))]
  refine returns_bind_of (update_spec h ha hj (.inl rfl) (.inl (.inl rfl)) (by omega)
    (.inl (.inl rfl))) fun _ d' h => ih () d' (h.mono fun i' j' _ _ h => by omega)

theorem lp2_spec (hb : 0 < b.length) (h : Filled a b (fun i j => i ≤ 1 ∨ j = 0) d) :
    Returns (lp2 a b b[0] 1) d fun _ d' => Filled a b (fun i j => i ≤ 1 ∨ j ≤ 1) d' := by
  refine loop_spec (fun i (_ : Unit) => lp2 a b b[0] (i + 1)) (n := a.length) (c := ())
    (fun k _ => Filled a b fun i j => (i ≤ 1 ∨ j = 0) ∨ j = 1 ∧ i < k + 1)
    (fun _ => by rw [lp2, if_neg (by omega)]) (fun _ d h => h.mono fun i j _ _ h => by omega) ?_
    (Nat.zero_le _) (h.mono fun i j _ _ h => by omega)
  intro i _ d hi h ih
  rw [lp2, if_pos (Nat.succ_le_of_lt hi), cast_sub_one]
  refine returns_bind_of (stringSub_spec hi) ?_
  rintro _ _ ⟨rfl, rfl⟩
  rw [← apply_ite (update b (i + 1 : ℕ) 1)]
  refine returns_bind_of (update_spec h hi hb (.inr rfl) (by omega) (by omega) (by omega))
    fun _ d' h => ih () d' (h.mono fun i' j' _ _ h => by omega)

theorem lpj_spec (hi : i + 1 < a.length) (hb : 0 < b.length)
    (h : Filled a b (fun i' j => i' < i + 2 ∨ j ≤ 1) d) :
    Returns (lpj b (i + 2) a[i + 1] a[i] 2 b[0]) d fun _ d' =>
      Filled a b (fun i' j => i' < i + 3 ∨ j ≤ 1) d' := by
  refine loop_spec (fun j c => lpj b (i + 2) a[i + 1] a[i] (j + 2) c) (n := b.length - 1)
    (fun k c d => b[k]? = some c ∧
      Filled a b (fun i' j => (i' < i + 2 ∨ j ≤ 1) ∨ i' = i + 2 ∧ j < k + 2) d)
    (fun _ => by rw [lpj, if_neg (by omega)]) (fun _ d h => h.2.mono fun i j _ _ h => by omega) ?_
    (Nat.zero_le _) ⟨List.getElem?_eq_getElem hb, h.mono fun i' j _ _ h => by omega⟩
  rintro j c d hj ⟨hc, h⟩ ih
  have hj : j + 1 < b.length := by omega
  obtain rfl : b[j] = c := Option.some.inj ((List.getElem?_eq_getElem _).symm.trans hc)
  rw [lpj, if_pos (Nat.succ_le_of_lt hj), cast_sub_one (j + 1)]
  refine returns_bind_of (stringSub_spec hj) ?_
  rintro _ _ ⟨rfl, rfl⟩
  rw [← apply_ite (body b (i + 2 : ℕ) (j + 2 : ℕ) a[i + 1] a[i] b[j + 1] b[j])]
  refine returns_bind_of (body_spec h hi hj (by omega) (by omega) (by omega) (by omega))
    fun _ d' h => ih _ d' ⟨List.getElem?_eq_getElem hj, h.mono fun i' j' _ _ h => by omega⟩

theorem lpi_spec (ha : 0 < a.length) (hb : 0 < b.length)
    (h : Filled a b (fun i j => i ≤ 1 ∨ j ≤ 1) d) :
    Returns (lpi a b b[0] 2 a[0]) d fun _ d' => Filled a b (fun _ _ => True) d' := by
  refine loop_spec (fun i c => lpi a b b[0] (i + 2) c) (n := a.length - 1)
    (fun k c d => a[k]? = some c ∧ Filled a b (fun i j => i < k + 2 ∨ j ≤ 1) d)
    (fun _ => by rw [lpi, if_neg (by omega)]) (fun _ d h => h.2.mono fun i j _ _ h => by omega) ?_
    (Nat.zero_le _) ⟨List.getElem?_eq_getElem ha, h.mono fun i j _ _ h => by omega⟩
  rintro i c d hi ⟨hc, h⟩ ih
  have hi : i + 1 < a.length := by omega
  obtain rfl : a[i] = c := Option.some.inj ((List.getElem?_eq_getElem _).symm.trans hc)
  rw [lpi, if_pos (Nat.succ_le_of_lt hi), cast_sub_one (i + 1)]
  refine returns_bind_of (stringSub_spec hi) ?_
  rintro _ _ ⟨rfl, rfl⟩
  exact returns_bind_of (lpj_spec hi hb h) fun _ d' h' =>
    ih _ d' ⟨List.getElem?_eq_getElem hi, h'⟩

theorem distance_spec (a b : Str) (d : Array ℤ) :
    Returns (distance a b) d fun x _ => x = cost a.reverse b.reverse := by
  unfold distance
  split_ifs with ha hb
  · subst ha
    exact returns_pure (by rw [List.reverse_nil, cost, List.length_reverse])
  · subst hb
    exact returns_pure (by rw [List.reverse_nil, cost_nil_right, List.length_reverse])
  have ha := List.length_pos_iff.2 ha
  have hb := List.length_pos_iff.2 hb
  refine returns_bind_of (P := fun _ => Filled a b fun _ _ => False) ⟨(), _, rfl, ?_, ?_⟩ ?_
  · exact Array.size_replicate
  · exact fun _ _ h => h.elim
  intro _ d h
  refine returns_bind_of (init1_spec h) fun _ d h => ?_
  refine returns_bind_of (init2_spec h) fun _ d h => ?_
  refine returns_bind_of (stringSub_spec (i := 0) ha) ?_
  rintro _ _ ⟨rfl, rfl⟩
  refine returns_bind_of (stringSub_spec (i := 0) hb) ?_
  rintro _ _ ⟨rfl, rfl⟩
  refine returns_bind_of (lp1_spec ha h) fun _ d h => ?_
  refine returns_bind_of (lp2_spec hb h) fun _ d h => ?_
  refine returns_bind_of (lpi_spec ha hb h) fun _ d h => ?_
  refine (get_spec h le_rfl le_rfl trivial).mono ?_
  rintro _ _ ⟨rfl, -⟩
  rw [best, List.take_length, List.take_length]

end Table

/-- **The distance is that of optimal string alignment.**  For all strings the computation ends
without a fault, so every access is in bounds and reads a cell that was computed before, and it
returns the least number of edits that turn the one string into the other.  The distance is
symmetric, and zero exactly for equal strings. -/
theorem distance_correct (a b : Str) (d d' : Array ℤ) :
    ∃ n : ℕ, Returns (distance a b) d (fun x _ => x = n) ∧ IsLeast {n | Edits a b n} n ∧
      Returns (distance b a) d' (fun x _ => x = n) ∧ (n = 0 ↔ a = b) := by
  have hrev : ∀ {x y : Str} {n}, Edits x.reverse y.reverse n ↔ Edits x y n := by
    refine ⟨fun h => ?_, Edits.reverse⟩
    have h := h.reverse
    rwa [List.reverse_reverse, List.reverse_reverse] at h
  have hleast := cost_isLeast a.reverse b.reverse
  simp only [hrev] at hleast
  refine ⟨_, distance_spec a b d, hleast, ?_, ?_⟩
  · have hsymm : cost b.reverse a.reverse = cost a.reverse b.reverse :=
      le_antisymm (edits_cost _ _).symm.cost_le (edits_cost _ _).symm.cost_le
    rw [← hsymm]
    exact distance_spec b a d'
  · rw [← edits_zero_iff]
    constructor
    · intro h
      exact h ▸ hleast.1
    · exact fun h => Nat.le_zero.1 (hleast.2 h)

end SmlNj.EditDistance
