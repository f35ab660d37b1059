import SmlNj.CPS.Semantics
import SmlNj.Lib.TwosComplement

/-!
# Comparing terms up to the names of their variables

The contraction of CPS terms drops a two-way branch when its arms are equal up to alpha.  The
comparison walks over both terms with a list of the pairs of variables that they bind.

## Main definitions

* `equalUptoAlpha` — the comparison.
* `Apart` — two terms of a program whose variables are bound once.
* `sameProtocols` — the raw C calls of two terms have the same protocols.

## Main results

* `equalUptoAlpha_sound` — terms that are equal up to alpha have the same meaning, if their raw C
  calls have the same protocols.
-/

namespace SmlNj.CPS

mutual

/-- Equality of types. -/
@[grind =] def Cty.beq : Cty → Cty → Bool
  | .numt a, .numt b => a = b
  | .enumt, .enumt => true
  | .ptrt a, .ptrt b => a = b
  | .funt, .funt => true
  | .fltt a, .fltt b => a = b
  | .cntt as, .cntt bs => Cty.beqs as bs
  | _, _ => false

@[grind =] def Cty.beqs : List Cty → List Cty → Bool
  | [], [] => true
  | a :: as, b :: bs => Cty.beq a b && Cty.beqs as bs
  | _, _ => false

end

mutual

theorem Cty.beq_iff : ∀ a b : Cty, a.beq b = true ↔ a = b
  | .numt _, b | .ptrt _, b | .fltt _, b => by cases b <;> simp [Cty.beq]
  | .enumt, b | .funt, b => by cases b <;> simp [Cty.beq]
  | .cntt as, b => by
    cases b with
    | cntt bs => rw [Cty.beq, Cty.beqs_iff as bs, Cty.cntt.injEq]
    | _ => simp [Cty.beq]

theorem Cty.beqs_iff : ∀ as bs : List Cty, Cty.beqs as bs = true ↔ as = bs
  | [], bs => by cases bs <;> simp [Cty.beqs]
  | a :: as, bs => by
    cases bs with
    | nil => simp [Cty.beqs]
    | cons b bs =>
      rw [Cty.beqs, Bool.and_eq_true, Cty.beq_iff a b, Cty.beqs_iff as bs, List.cons.injEq]

end

instance : DecidableEq Cty := fun a b => decidable_of_iff _ (Cty.beq_iff a b)

deriving instance DecidableEq for P.Setter

namespace EqualUptoAlpha

/-! ### The comparison -/

def look (a b : Lvar) : List (Lvar × Lvar) → Bool
  | (x, y) :: rest => (a = x && b = y) || look a b rest
  | [] => false

/-- Operands that are the same. -/
@[grind =] def same (pairs : List (Lvar × Lvar)) : Value → Value → Bool
  | .var a, .var b => a = b || look a b pairs
  | .label a, .label b => a = b || look a b pairs
  | .num i, .num j => i.ty = j.ty && i.ival = j.ival
  | .enum i, .enum j => i = j
  | .real a, .real b => a.ty = b.ty && a.rval = b.rval
  | .string a, .string b => a = b
  | _, _ => false

def sameField (pairs : List (Lvar × Lvar)) (f g : Value × AccessPath) : Bool :=
  f.2 = g.2 && same pairs f.1 g.1

@[grind =] def all2 {α : Type} (f : α → α → Bool) : List α → List α → Bool
  | e :: r, e' :: r' => f e e' && all2 f r r'
  | [], [] => true
  | _, _ => false

mutual

/-- **The comparison of terms** under the pairs of variables that they bound so far. -/
def equ (pairs : List (Lvar × Lvar)) : Cexp → Cexp → Bool
  | .select i v w _ e, .select i' v' w' _ e' =>
    i = i' && same pairs v v' && equ ((w, w') :: pairs) e e'
  | .record k vl w e, .record k' vl' w' e' =>
    k = k' && all2 (sameField pairs) vl vl' && equ ((w, w') :: pairs) e e'
  | .offset i v w e, .offset i' v' w' e' =>
    i = i' && same pairs v v' && equ ((w, w') :: pairs) e e'
  | .switch v c el, .switch v' c' el' => same pairs v v' && equs ((c, c') :: pairs) el el'
  | .app f vl, .app f' vl' => same pairs f f' && all2 (same pairs) vl vl'
  | .fix _ _, .fix _ _ => false
  | .branch i vl c e1 e2, .branch i' vl' c' e1' e2' =>
    i = i' && all2 (same pairs) vl vl' && equ ((c, c') :: pairs) e1 e1' &&
      equ ((c, c') :: pairs) e2 e2'
  | .looker i vl w _ e, .looker i' vl' w' _ e' =>
    i = i' && all2 (same pairs) vl vl' && equ ((w, w') :: pairs) e e'
  | .setter i vl e, .setter i' vl' e' => i = i' && all2 (same pairs) vl vl' && equ pairs e e'
  | .arith i vl w _ e, .arith i' vl' w' _ e' =>
    i = i' && all2 (same pairs) vl vl' && equ ((w, w') :: pairs) e e'
  | .pure i vl w _ e, .pure i' vl' w' _ e' =>
    i = i' && all2 (same pairs) vl vl' && equ ((w, w') :: pairs) e e'
  | .rcc k l _ vl wtl e, .rcc k' l' _ vl' wtl' e' =>
    k = k' && l = l' && all2 (same pairs) vl vl' &&
      equ ((wtl.map Prod.fst).zip (wtl'.map Prod.fst) ++ pairs) e e'
  | _, _ => false

/-- The comparison of the cases of a `SWITCH`. -/
@[grind =] def equs (pairs : List (Lvar × Lvar)) : List Cexp → List Cexp → Bool
  | e :: r, e' :: r' => equ pairs e e' && equs pairs r r'
  | [], [] => true
  | _, _ => false

end

/-- **Are two terms equal up to alpha?** -/
def equalUptoAlpha (ce1 ce2 : Cexp) : Bool := equ [] ce1 ce2

/-! ### Bound variables and operands -/

mutual

/-- The variables that a term binds, and those that name its branches and switches. -/
def bound : Cexp → List Lvar
  | .record _ _ x e | .select _ _ x _ e | .offset _ _ x e => x :: bound e
  | .app _ _ => []
  | .fix fns e => fns.map Function.name ++ boundFns fns ++ bound e
  | .switch _ c cases => c :: bounds cases
  | .branch _ _ c e1 e2 => c :: (bound e1 ++ bound e2)
  | .setter _ _ e => bound e
  | .looker _ _ x _ e | .arith _ _ x _ e | .pure _ _ x _ e => x :: bound e
  | .rcc _ _ _ _ results e => results.map Prod.fst ++ bound e

/-- The variables that the cases of a `SWITCH` bind. -/
def bounds : List Cexp → List Lvar
  | [] => []
  | e :: es => bound e ++ bounds es

/-- The variables that functions bind in their parameters and bodies. -/
def boundFns : List Function → List Lvar
  | [] => []
  | f :: fs => boundFn f ++ boundFns fs

/-- The variables that a function binds in its parameters and body. -/
def boundFn : Function → List Lvar
  | .mk _ _ xs _ e => xs ++ bound e

end

mutual

/-- The operands of a term. -/
@[grind =] def operands : Cexp → List Value
  | .record _ fields _ e => fields.map Prod.fst ++ operands e
  | .select _ v _ _ e | .offset _ v _ e => v :: operands e
  | .app f args => f :: args
  | .fix fns e => operandsFns fns ++ operands e
  | .switch v _ cases => v :: operandsAll cases
  | .branch _ args _ e1 e2 => args ++ (operands e1 ++ operands e2)
  | .setter _ args e | .looker _ args _ _ e | .arith _ args _ _ e | .pure _ args _ _ e
  | .rcc _ _ _ args _ e => args ++ operands e

/-- The operands of the cases of a `SWITCH`. -/
def operandsAll : List Cexp → List Value
  | [] => []
  | e :: es => operands e ++ operandsAll es

def operandsFns : List Function → List Value
  | [] => []
  | f :: fs => operandsFn f ++ operandsFns fs

def operandsFn : Function → List Value
  | .mk _ _ _ _ e => operands e

end

mutual

/-- **The corresponding raw C calls of two terms have the same protocols** and as many results. -/
def sameProtocols : Cexp → Cexp → Prop
  | .rcc _ _ p _ wtl e, .rcc _ _ p' _ wtl' e' =>
    p = p' ∧ wtl.length = wtl'.length ∧ sameProtocols e e'
  | .select _ _ _ _ e, .select _ _ _ _ e' | .record _ _ _ e, .record _ _ _ e'
  | .offset _ _ _ e, .offset _ _ _ e' | .looker _ _ _ _ e, .looker _ _ _ _ e'
  | .setter _ _ e, .setter _ _ e' | .arith _ _ _ _ e, .arith _ _ _ _ e'
  | .pure _ _ _ _ e, .pure _ _ _ _ e' => sameProtocols e e'
  | .switch _ _ el, .switch _ _ el' => allSameProtocols el el'
  | .branch _ _ _ e1 e2, .branch _ _ _ e1' e2' => sameProtocols e1 e1' ∧ sameProtocols e2 e2'
  | _, _ => True

/-- The same of the cases of a `SWITCH`. -/
def allSameProtocols : List Cexp → List Cexp → Prop
  | e :: r, e' :: r' => sameProtocols e e' ∧ allSameProtocols r r'
  | _, _ => True

end

/-! ### Environments that agree -/

section

variable {D W : Type} {I : Interp D W}

/-- Environments of two terms, which bind the pairs of variables: corresponding variables have the
same value, and so have the variables that are not bound by one of the terms.  The variables that a
term is going to bind are new, and those that the other term binds do not occur in it. -/
structure Agrees (pairs : List (Lvar × Lvar)) (env₁ env₂ : Env D) (bs₁ bs₂ : List Lvar)
    (os₁ os₂ : List Value) : Prop where
  fresh₁ : Fresh bs₁ env₁
  fresh₂ : Fresh bs₂ env₂
  pairs_eq : ∀ p ∈ pairs, env₁ p.1 = env₂ p.2
  outside : ∀ z, z ∉ pairs.map Prod.fst → z ∉ pairs.map Prod.snd → env₁ z = env₂ z
  new₁ : ∀ x ∈ bs₁, x ∉ pairs.map Prod.fst
  new₂ : ∀ x ∈ bs₂, x ∉ pairs.map Prod.snd
  cross₁ : ∀ x, Value.var x ∈ os₁ → x ∉ pairs.map Prod.snd ∧ x ∉ bs₂
  cross₂ : ∀ x, Value.var x ∈ os₂ → x ∉ pairs.map Prod.fst ∧ x ∉ bs₁
  labels : ∀ l, Value.label l ∈ os₁ → l ∉ pairs.map Prod.fst ∧ l ∉ bs₁

theorem mem_of_look {a b : Lvar} {pairs : List (Lvar × Lvar)} (h : look a b pairs = true) :
    (a, b) ∈ pairs := by
  induction pairs with
  | nil => cases h
  | cons p pairs ih =>
    rw [look, Bool.or_eq_true, Bool.and_eq_true, decide_eq_true_eq, decide_eq_true_eq] at h
    rcases h with ⟨rfl, rfl⟩ | h
    · exact List.mem_cons_self
    · exact List.mem_cons_of_mem _ (ih h)

namespace Agrees

variable {pairs : List (Lvar × Lvar)} {env₁ env₂ : Env D} {bs₁ bs₂ bs₁' bs₂' : List Lvar}
  {os₁ os₂ os₁' os₂' : List Value}

theorem mono (h : Agrees pairs env₁ env₂ bs₁ bs₂ os₁ os₂) (hb₁ : bs₁'.Sublist bs₁)
    (hb₂ : bs₂'.Sublist bs₂) (ho₁ : os₁' ⊆ os₁) (ho₂ : os₂' ⊆ os₂) :
    Agrees pairs env₁ env₂ bs₁' bs₂' os₁' os₂' where
  fresh₁ := ⟨h.fresh₁.nodup.sublist hb₁, fun x hx => h.fresh₁.unbound x (hb₁.subset hx)⟩
  fresh₂ := ⟨h.fresh₂.nodup.sublist hb₂, fun x hx => h.fresh₂.unbound x (hb₂.subset hx)⟩
  pairs_eq := h.pairs_eq
  outside := h.outside
  new₁ x hx := h.new₁ x (hb₁.subset hx)
  new₂ x hx := h.new₂ x (hb₂.subset hx)
  cross₁ x hx := ⟨(h.cross₁ x (ho₁ hx)).1, fun hb => (h.cross₁ x (ho₁ hx)).2 (hb₂.subset hb)⟩
  cross₂ x hx := ⟨(h.cross₂ x (ho₂ hx)).1, fun hb => (h.cross₂ x (ho₂ hx)).2 (hb₁.subset hb)⟩
  labels l hl := ⟨(h.labels l (ho₁ hl)).1, fun hb => (h.labels l (ho₁ hl)).2 (hb₁.subset hb)⟩

theorem tail (vs vs' : List Value)
    (h : Agrees pairs env₁ env₂ bs₁ bs₂ (vs ++ os₁) (vs' ++ os₂)) :
    Agrees pairs env₁ env₂ bs₁ bs₂ os₁ os₂ :=
  h.mono (.refl _) (.refl _) (List.subset_append_right _ _) (List.subset_append_right _ _)

theorem perm {pairs' : List (Lvar × Lvar)} (h : Agrees pairs env₁ env₂ bs₁ bs₂ os₁ os₂)
    (hp : pairs.Perm pairs') : Agrees pairs' env₁ env₂ bs₁ bs₂ os₁ os₂ := by
  have h₁ : ∀ x, x ∈ pairs'.map Prod.fst ↔ x ∈ pairs.map Prod.fst := fun x =>
    ((hp.map Prod.fst).mem_iff).symm
  have h₂ : ∀ x, x ∈ pairs'.map Prod.snd ↔ x ∈ pairs.map Prod.snd := fun x =>
    ((hp.map Prod.snd).mem_iff).symm
  refine ⟨h.fresh₁, h.fresh₂, fun p hp' => h.pairs_eq p (hp.mem_iff.mpr hp'), fun z hz₁ hz₂ => ?_,
    fun x hx => ?_, fun x hx => ?_, fun x hx => ?_, fun x hx => ?_, fun x hx => ?_⟩
  · exact h.outside z ((h₁ z).not.mp hz₁) ((h₂ z).not.mp hz₂)
  · exact (h₁ x).not.mpr (h.new₁ x hx)
  · exact (h₂ x).not.mpr (h.new₂ x hx)
  · exact ⟨(h₂ x).not.mpr (h.cross₁ x hx).1, (h.cross₁ x hx).2⟩
  · exact ⟨(h₁ x).not.mpr (h.cross₂ x hx).1, (h.cross₂ x hx).2⟩
  · exact ⟨(h₁ x).not.mpr (h.labels x hx).1, (h.labels x hx).2⟩

theorem name {c c' : Lvar} (h : Agrees pairs env₁ env₂ (c :: bs₁) (c' :: bs₂) os₁ os₂) :
    Agrees ((c, c') :: pairs) env₁ env₂ bs₁ bs₂ os₁ os₂ := by
  obtain ⟨hc, hn₁⟩ := List.nodup_cons.mp h.fresh₁.nodup
  obtain ⟨hc', hn₂⟩ := List.nodup_cons.mp h.fresh₂.nodup
  refine ⟨⟨hn₁, fun x hx => h.fresh₁.unbound x (List.mem_cons_of_mem _ hx)⟩,
    ⟨hn₂, fun x hx => h.fresh₂.unbound x (List.mem_cons_of_mem _ hx)⟩, fun p hp => ?_,
    fun z hz₁ hz₂ => ?_, fun x hx => ?_, fun x hx => ?_, fun x hx => ?_, fun x hx => ?_,
    fun l hl => ?_⟩
  · rcases List.mem_cons.mp hp with rfl | hp
    · exact h.fresh₁.head.trans h.fresh₂.head.symm
    · exact h.pairs_eq p hp
  · exact h.outside z (fun hz => hz₁ (List.mem_cons_of_mem _ hz))
      fun hz => hz₂ (List.mem_cons_of_mem _ hz)
  · exact List.not_mem_cons_of_ne_of_not_mem (fun he : x = c => hc (he ▸ hx))
      (h.new₁ x (List.mem_cons_of_mem _ hx))
  · exact List.not_mem_cons_of_ne_of_not_mem (fun he : x = c' => hc' (he ▸ hx))
      (h.new₂ x (List.mem_cons_of_mem _ hx))
  · obtain ⟨hp, hb⟩ := h.cross₁ x hx
    obtain ⟨hne, hb⟩ := List.ne_and_not_mem_of_not_mem_cons hb
    exact ⟨List.not_mem_cons_of_ne_of_not_mem hne hp, hb⟩
  · obtain ⟨hp, hb⟩ := h.cross₂ x hx
    obtain ⟨hne, hb⟩ := List.ne_and_not_mem_of_not_mem_cons hb
    exact ⟨List.not_mem_cons_of_ne_of_not_mem hne hp, hb⟩
  · obtain ⟨hp, hb⟩ := h.labels l hl
    obtain ⟨hne, hb⟩ := List.ne_and_not_mem_of_not_mem_cons hb
    exact ⟨List.not_mem_cons_of_ne_of_not_mem hne hp, hb⟩

theorem set {x y : Lvar} (h : Agrees ((x, y) :: pairs) env₁ env₂ bs₁ bs₂ os₁ os₂)
    (hx : x ∉ pairs.map Prod.fst) (hy : y ∉ pairs.map Prod.snd) (d : D) :
    Agrees ((x, y) :: pairs) (env₁.set x d) (env₂.set y d) bs₁ bs₂ os₁ os₂ := by
  have hne₁ : ∀ z ∈ bs₁, z ≠ x := fun z hz he =>
    h.new₁ z hz (he ▸ (List.mem_cons_self : x ∈ x :: pairs.map Prod.fst))
  have hne₂ : ∀ z ∈ bs₂, z ≠ y := fun z hz he =>
    h.new₂ z hz (he ▸ (List.mem_cons_self : y ∈ y :: pairs.map Prod.snd))
  refine ⟨⟨h.fresh₁.nodup, fun z hz => ?_⟩, ⟨h.fresh₂.nodup, fun z hz => ?_⟩, fun p hp => ?_,
    fun z hz₁ hz₂ => ?_, h.new₁, h.new₂, h.cross₁, h.cross₂, h.labels⟩
  · rw [Env.set_of_ne env₁ d (hne₁ z hz)]
    exact h.fresh₁.unbound z hz
  · rw [Env.set_of_ne env₂ d (hne₂ z hz)]
    exact h.fresh₂.unbound z hz
  · rcases List.mem_cons.mp hp with rfl | hp'
    · rw [Env.set_self, Env.set_self]
    · have h₁ : p.1 ≠ x := fun he => hx (he ▸ List.mem_map_of_mem hp')
      have h₂ : p.2 ≠ y := fun he => hy (he ▸ List.mem_map_of_mem hp')
      rw [Env.set_of_ne env₁ d h₁, Env.set_of_ne env₂ d h₂]
      exact h.pairs_eq p hp
  · rw [Env.set_of_ne env₁ d (List.ne_of_not_mem_cons hz₁),
      Env.set_of_ne env₂ d (List.ne_of_not_mem_cons hz₂)]
    exact h.outside z hz₁ hz₂

/-- **Two variables are bound to the same value.** -/
theorem bind {x y : Lvar} (h : Agrees pairs env₁ env₂ (x :: bs₁) (y :: bs₂) os₁ os₂) (d : D) :
    Agrees ((x, y) :: pairs) (env₁.set x d) (env₂.set y d) bs₁ bs₂ os₁ os₂ :=
  h.name.set (h.new₁ x List.mem_cons_self) (h.new₂ y List.mem_cons_self) d

/-- **Variables are bound to the same values.** -/
theorem binds {xs ys : List Lvar} (h : Agrees pairs env₁ env₂ (xs ++ bs₁) (ys ++ bs₂) os₁ os₂)
    (hlen : xs.length = ys.length) (ds : List D) :
    (env₁.bind xs ds = none ∧ env₂.bind ys ds = none) ∨
      ∃ env₁' env₂', env₁.bind xs ds = some env₁' ∧ env₂.bind ys ds = some env₂' ∧
        Agrees (xs.zip ys ++ pairs) env₁' env₂' bs₁ bs₂ os₁ os₂ := by
  induction xs generalizing pairs env₁ env₂ ys ds with
  | nil =>
    obtain rfl : ys = [] := List.length_eq_zero_iff.mp hlen.symm
    cases ds with
    | nil => exact .inr ⟨env₁, env₂, rfl, rfl, h⟩
    | cons d ds => exact .inl ⟨rfl, rfl⟩
  | cons x xs ih =>
    cases ys with
    | nil => cases hlen
    | cons y ys =>
      cases ds with
      | nil => exact .inl ⟨rfl, rfl⟩
      | cons d ds =>
        rcases ih (h.bind d) (Nat.succ.inj hlen) ds with hno | ⟨env₁', env₂', h₁, h₂, h'⟩
        · exact .inl hno
        · exact .inr ⟨env₁', env₂', h₁, h₂, h'.perm List.perm_middle⟩

/-! ### The values of operands -/

/-- **Operands that are the same have the same value.** -/
theorem val_eq (h : Agrees pairs env₁ env₂ bs₁ bs₂ os₁ os₂) {v v' : Value}
    (hs : same pairs v v' = true) (hv : v ∈ os₁) (hv' : v' ∈ os₂) :
    val I env₁ v = val I env₂ v' := by
  cases v <;> cases v' <;> first | cases hs | skip
  case var.var a b =>
    rw [same, Bool.or_eq_true, decide_eq_true_eq] at hs
    rcases hs with rfl | hs
    · -- neither term binds the variable
      exact h.outside a (h.cross₂ a hv').1 (h.cross₁ a hv).1
    · exact h.pairs_eq (a, b) (mem_of_look hs)
  case label.label a b =>
    rw [same, Bool.or_eq_true, decide_eq_true_eq] at hs
    rcases hs with rfl | hs
    · rfl
    · exact absurd (List.mem_map_of_mem (mem_of_look hs)) (h.labels a hv).1
  case num.num i j =>
    obtain ⟨ival, ty⟩ := i
    rw [same, Bool.and_eq_true, decide_eq_true_eq, decide_eq_true_eq] at hs
    obtain ⟨rfl, rfl⟩ := hs
    rfl
  case enum.enum i j =>
    rw [same, decide_eq_true_eq] at hs
    rw [hs]
    rfl
  case real.real a b =>
    obtain ⟨rval, ty⟩ := a
    rw [same, Bool.and_eq_true, decide_eq_true_eq, decide_eq_true_eq] at hs
    obtain ⟨rfl, rfl⟩ := hs
    rfl
  case string.string a b =>
    rw [same, decide_eq_true_eq] at hs
    rw [hs]
    rfl

theorem mapM_eq {α : Type} {f : α → α → Bool} {g g' : α → Option D} {as as' : List α}
    (hf : ∀ a ∈ as, ∀ a' ∈ as', f a a' = true → g a = g' a') (h : all2 f as as' = true) :
    as.mapM g = as'.mapM g' := by
  induction as generalizing as' with
  | nil =>
    cases as' with
    | nil => rfl
    | cons a' as' => cases h
  | cons a as ih =>
    cases as' with
    | nil => cases h
    | cons a' as' =>
      rw [all2, Bool.and_eq_true] at h
      rw [List.mapM_cons, List.mapM_cons, hf a List.mem_cons_self a' List.mem_cons_self h.1,
        ih (fun b hb b' hb' => hf b (List.mem_cons_of_mem _ hb) b' (List.mem_cons_of_mem _ hb')) h.2]

theorem vals_eq (h : Agrees pairs env₁ env₂ bs₁ bs₂ os₁ os₂) {vs vs' : List Value}
    (hs : all2 (same pairs) vs vs' = true) (hv : vs ⊆ os₁) (hv' : vs' ⊆ os₂) :
    vals I env₁ vs = vals I env₂ vs' :=
  mapM_eq (fun _ ha _ ha' hs => h.val_eq hs (hv ha) (hv' ha')) hs

theorem val_head {v v' : Value} (h : Agrees pairs env₁ env₂ bs₁ bs₂ (v :: os₁) (v' :: os₂))
    (hs : same pairs v v' = true) : val I env₁ v = val I env₂ v' :=
  h.val_eq hs List.mem_cons_self List.mem_cons_self

theorem vals_left {vs vs' : List Value}
    (h : Agrees pairs env₁ env₂ bs₁ bs₂ (vs ++ os₁) (vs' ++ os₂))
    (hs : all2 (same pairs) vs vs' = true) : vals I env₁ vs = vals I env₂ vs' :=
  h.vals_eq hs (List.subset_append_left _ _) (List.subset_append_left _ _)

theorem fieldVals_eq (h : Agrees pairs env₁ env₂ bs₁ bs₂ os₁ os₂)
    {fs fs' : List (Value × AccessPath)} (hs : all2 (sameField pairs) fs fs' = true)
    (hv : fs.map Prod.fst ⊆ os₁) (hv' : fs'.map Prod.fst ⊆ os₂) :
    fieldVals I env₁ fs = fieldVals I env₂ fs' := by
  refine mapM_eq (fun f hf f' hf' hs => ?_) hs
  rw [sameField, Bool.and_eq_true, decide_eq_true_eq] at hs
  rw [h.val_eq hs.2 (hv (List.mem_map_of_mem hf)) (hv' (List.mem_map_of_mem hf')), hs.1]

end Agrees

/-! ### The meaning of equal terms -/

variable (I)

def SameMeaning (env₁ env₂ : Env D) (e₁ e₂ : Cexp) : Prop :=
  ∀ st w, exec I st env₁ w e₁ = exec I st env₂ w e₂

variable {I}

theorem of_decide_and_and {p : Prop} [Decidable p] {b c : Bool} (h : (p && b && c) = true) :
    (p ∧ b = true) ∧ c = true := by
  simpa using h

mutual

/-- **Terms that are equal up to alpha mean the same**, where their environments agree. -/
theorem equ_sound : ∀ (e₁ e₂ : Cexp) {pairs : List (Lvar × Lvar)} {env₁ env₂ : Env D},
    equ pairs e₁ e₂ = true → sameProtocols e₁ e₂ →
    Agrees pairs env₁ env₂ (bound e₁) (bound e₂) (operands e₁) (operands e₂) →
    SameMeaning I env₁ env₂ e₁ e₂
  | .select i v x _ e, e₂, pairs, env₁, env₂, h, hp, ha => by
    cases e₂ <;> first | cases h | skip
    case select i' v' x' _ e' =>
      obtain ⟨⟨rfl, hv⟩, he⟩ := of_decide_and_and h
      intro st w
      rw [exec, exec, ha.val_head (I := I) hv]
      refine bind_congr fun d => ?_
      refine bind_congr fun d => ?_
      exact equ_sound e e' he hp ((ha.bind d).tail [v] [v']) st w
  | .record k vl x e, e₂, pairs, env₁, env₂, h, hp, ha => by
    cases e₂ <;> first | cases h | skip
    case record k' vl' x' e' =>
      obtain ⟨⟨rfl, hv⟩, he⟩ := of_decide_and_and h
      intro st w
      rw [exec, exec, ha.fieldVals_eq (I := I) hv (List.subset_append_left _ _)
        (List.subset_append_left _ _)]
      refine bind_congr fun ds => ?_
      refine bind_congr fun d => ?_
      exact equ_sound e e' he hp ((ha.bind d).tail _ _) st w
  | .offset i v x e, e₂, pairs, env₁, env₂, h, hp, ha => by
    cases e₂ <;> first | cases h | skip
    case offset i' v' x' e' =>
      obtain ⟨⟨rfl, hv⟩, he⟩ := of_decide_and_and h
      intro st w
      rw [exec, exec, ha.val_head (I := I) hv]
      refine bind_congr fun d => ?_
      refine bind_congr fun d => ?_
      exact equ_sound e e' he hp ((ha.bind d).tail [v] [v']) st w
  | .switch v c el, e₂, pairs, env₁, env₂, h, hp, ha => by
    cases e₂ <;> first | cases h | skip
    case switch v' c' el' =>
      obtain ⟨hv, hel⟩ := Bool.and_eq_true_iff.1 h
      intro st w
      rw [exec, exec, ha.val_head (I := I) hv]
      refine bind_congr fun d => ?_
      refine bind_congr fun i => ?_
      exact equs_sound el el' hel hp (ha.name.tail [v] [v']) st w i
  | .app f vl, e₂, pairs, env₁, env₂, h, hp, ha => by
    cases e₂ <;> first | cases h | skip
    case app f' vl' =>
      obtain ⟨hf, hv⟩ := Bool.and_eq_true_iff.1 h
      intro st w
      rw [exec, exec, ha.val_head (I := I) hf,
        ha.vals_eq (I := I) hv (List.subset_cons_self _ _) (List.subset_cons_self _ _)]
  | .fix _ _, e₂, pairs, env₁, env₂, h, hp, ha => by
    cases e₂ <;> cases h
  | .branch p vl c e1 e2, e₂, pairs, env₁, env₂, h, hp, ha => by
    cases e₂ <;> first | cases h | skip
    case branch p' vl' c' e1' e2' =>
      change (_ && _ && _ && _) = true at h
      simp only [Bool.and_eq_true, decide_eq_true_eq] at h
      obtain ⟨⟨⟨rfl, hv⟩, h1⟩, h2⟩ := h
      intro st w
      rw [exec, exec, ha.vals_left (I := I) hv]
      have harms := ha.name.tail vl vl'
      refine bind_congr fun ds => ?_
      refine bind_congr fun b => ?_
      cases b with
      | true =>
        exact equ_sound e1 e1' h1 hp.1 (harms.mono (List.sublist_append_left _ _)
          (List.sublist_append_left _ _) (List.subset_append_left _ _)
          (List.subset_append_left _ _)) st w
      | false =>
        exact equ_sound e2 e2' h2 hp.2 (harms.mono (List.sublist_append_right _ _)
          (List.sublist_append_right _ _) (List.subset_append_right _ _)
          (List.subset_append_right _ _)) st w
  | .looker p vl x _ e, e₂, pairs, env₁, env₂, h, hp, ha => by
    cases e₂ <;> first | cases h | skip
    case looker p' vl' x' _ e' =>
      obtain ⟨⟨rfl, hv⟩, he⟩ := of_decide_and_and h
      intro st w
      rw [exec, exec, ha.vals_left (I := I) hv]
      refine bind_congr fun ds => ?_
      refine bind_congr fun r => ?_
      exact equ_sound e e' he hp ((ha.bind r.1).tail _ _) st r.2
  | .setter p vl e, e₂, pairs, env₁, env₂, h, hp, ha => by
    cases e₂ <;> first | cases h | skip
    case setter p' vl' e' =>
      obtain ⟨⟨rfl, hv⟩, he⟩ := of_decide_and_and h
      intro st w
      rw [exec, exec, ha.vals_left (I := I) hv]
      refine bind_congr fun ds => ?_
      refine bind_congr fun w' => ?_
      exact equ_sound e e' he hp (ha.tail _ _) st w'
  | .arith p vl x _ e, e₂, pairs, env₁, env₂, h, hp, ha => by
    cases e₂ <;> first | cases h | skip
    case arith p' vl' x' _ e' =>
      obtain ⟨⟨rfl, hv⟩, he⟩ := of_decide_and_and h
      intro st w
      rw [exec, exec, ha.vals_left (I := I) hv]
      refine bind_congr fun ds => ?_
      refine bind_congr fun r => ?_
      cases r with
      | none => rfl
      | some d => exact equ_sound e e' he hp ((ha.bind d).tail _ _) st w
  | .pure p vl x _ e, e₂, pairs, env₁, env₂, h, hp, ha => by
    cases e₂ <;> first | cases h | skip
    case pure p' vl' x' _ e' =>
      obtain ⟨⟨rfl, hv⟩, he⟩ := of_decide_and_and h
      intro st w
      rw [exec, exec, ha.vals_left (I := I) hv]
      refine bind_congr fun ds => ?_
      cases p.allocates with
      | true =>
        refine bind_congr fun r => ?_
        exact equ_sound e e' he hp ((ha.bind r.1).tail _ _) st r.2
      | false =>
        refine bind_congr fun d => ?_
        exact equ_sound e e' he hp ((ha.bind d).tail _ _) st w
  | .rcc k l p vl wtl e, e₂, pairs, env₁, env₂, h, hp, ha => by
    cases e₂ <;> first | cases h | skip
    case rcc k' l' p' vl' wtl' e' =>
      change (_ && _ && _ && _) = true at h
      simp only [Bool.and_eq_true, decide_eq_true_eq] at h
      obtain ⟨⟨⟨rfl, rfl⟩, hv⟩, he⟩ := h
      -- the protocols are not compared
      obtain ⟨rfl, hlen, hp⟩ := hp
      intro st w
      rw [exec, exec, ha.vals_left (I := I) hv]
      refine bind_congr fun ds => ?_
      refine bind_congr fun r => ?_
      have hlen' : (wtl.map Prod.fst).length = (wtl'.map Prod.fst).length := by
        rw [List.length_map, List.length_map, hlen]
      rcases ha.binds hlen' r.1 with ⟨h₁, h₂⟩ | ⟨env₁', env₂', h₁, h₂, ha'⟩
      · simp only [h₁, h₂]
        rfl
      · simp only [h₁, h₂]
        exact equ_sound e e' he hp (ha'.tail _ _) st r.2

theorem equs_sound : ∀ (es₁ es₂ : List Cexp) {pairs : List (Lvar × Lvar)} {env₁ env₂ : Env D},
    equs pairs es₁ es₂ = true → allSameProtocols es₁ es₂ →
    Agrees pairs env₁ env₂ (bounds es₁) (bounds es₂) (operandsAll es₁) (operandsAll es₂) →
    ∀ st w i, execNth I st env₁ w es₁ i = execNth I st env₂ w es₂ i
  | [], es₂, _, _, _, h, _, _ => by
    cases es₂ with
    | nil => exact fun _ _ _ => rfl
    | cons e' es' => cases h
  | e :: es, es₂, _, _, _, h, hp, ha => by
    cases es₂ with
    | nil => cases h
    | cons e' es' =>
      rw [equs, Bool.and_eq_true] at h
      intro st w i
      cases i with
      | zero =>
        exact equ_sound e e' h.1 hp.1 (ha.mono (List.sublist_append_left _ _)
          (List.sublist_append_left _ _) (List.subset_append_left _ _)
          (List.subset_append_left _ _)) st w
      | succ i =>
        exact equs_sound es es' h.2 hp.2 (ha.mono (List.sublist_append_right _ _)
          (List.sublist_append_right _ _) (List.subset_append_right _ _)
          (List.subset_append_right _ _)) st w i

end

/-- **Two terms of a program whose variables are bound once**: the variables that they bind are
distinct and not in scope, and those of one of them do not occur in the other.  Labels are not bound
by terms. -/
structure Apart (env : Env D) (e₁ e₂ : Cexp) : Prop where
  fresh : Fresh (bound e₁ ++ bound e₂) env
  left : ∀ x, Value.var x ∈ operands e₁ → x ∉ bound e₂
  right : ∀ x, Value.var x ∈ operands e₂ → x ∉ bound e₁
  labels : ∀ l, Value.label l ∈ operands e₁ → l ∉ bound e₁

theorem Apart.agrees {env : Env D} {e₁ e₂ : Cexp} (h : Apart env e₁ e₂) :
    Agrees [] env env (bound e₁) (bound e₂) (operands e₁) (operands e₂) where
  fresh₁ := h.fresh.left
  fresh₂ := h.fresh.right
  pairs_eq _ hp := nomatch hp
  outside _ _ _ := rfl
  new₁ _ _ := List.not_mem_nil
  new₂ _ _ := List.not_mem_nil
  cross₁ x hx := ⟨List.not_mem_nil, h.left x hx⟩
  cross₂ x hx := ⟨List.not_mem_nil, h.right x hx⟩
  labels l hl := ⟨List.not_mem_nil, h.labels l hl⟩

/-- A two-way branch, where the folding of branches is enabled or not: the contraction goes on with
one of the arms if they are equal. -/
def foldBranch (branchfold : Bool) (rator : P.Branch) (vl : List Value) (c : Lvar)
    (e1 e2 : Cexp) : Cexp :=
  if branchfold && equalUptoAlpha e1 e2 then e1 else .branch rator vl c e1 e2

/-- **The comparison is sound.**  In a program whose variables are bound once, terms that are equal
up to alpha have the same meaning in every environment and store, if the corresponding raw C calls
have the same protocols; and a branch may be replaced by one of its arms. -/
theorem equalUptoAlpha_sound (I : Interp D W) {env : Env D} {e₁ e₂ : Cexp}
    (ha : Apart env e₁ e₂) (hp : sameProtocols e₁ e₂) (h : equalUptoAlpha e₁ e₂ = true) :
    (∀ st w, exec I st env w e₁ = exec I st env w e₂) ∧
    ∀ st w branchfold rator vl c r, exec I st env w (.branch rator vl c e₁ e₂) = some r →
      exec I st env w (foldBranch branchfold rator vl c e₁ e₂) = some r := by
  have hsound := equ_sound (I := I) e₁ e₂ h hp ha.agrees
  refine ⟨hsound, fun st w branchfold rator vl c r hr => ?_⟩
  rw [foldBranch, h]
  cases branchfold with
  | false => exact hr
  | true =>
    obtain ⟨ds, _, hr⟩ := Option.bind_eq_some_iff.mp hr
    obtain ⟨b, _, hr⟩ := Option.bind_eq_some_iff.mp hr
    cases b with
    | true => exact hr
    | false => exact (hsound st w).trans hr

end

/-! ### A C function with two prototypes -/

/-- An interpretation with a C function that returns its argument as a 16-bit number. -/
def shortInterp : Interp ℤ Unit where
  fn n := n
  unfn _ := none
  lit _ := 0
  path _ d := some d
  record _ _ := none
  select i d := some (d + i)
  offset _ _ := none
  switch _ := none
  branch _ _ := none
  arith _ _ := none
  pure _ _ := none
  alloc _ _ _ := none
  setter _ _ _ := none
  looker _ _ _ := none
  overflow _ := none
  rcc _ _ proto ds w :=
    match proto.retTy, ds with
    | .unsigned .short, [d] => some ([d % 2 ^ 16], w)
    | .signed .short, [d] => some ([TwosComplement.signed 16 d], w)
    | _, _ => none

def callShort (retTy : CTypes.CType) (x : Lvar) : Cexp :=
  .rcc false [] ⟨[], retTy, []⟩ [.var 1] [(x, .numt ⟨32, false⟩)] (.app (.var 2) [.var x])

/-- **Calls with different prototypes are taken to be equal**, since protocols are not compared. -/
theorem equalUptoAlpha_protocols :
    ¬ ∀ (D W : Type) (I : Interp D W) (env : Env D) (e₁ e₂ : Cexp), Apart env e₁ e₂ →
      equalUptoAlpha e₁ e₂ = true → ∀ st w, exec I st env w e₁ = exec I st env w e₂ := by
  intro h
  let env : Env ℤ := fun x => if x = 1 ∨ x = 2 then some 65535 else none
  have hapart : Apart env (callShort (.signed .short) 3) (callShort (.unsigned .short) 4) := by
    refine ⟨⟨by decide, by decide⟩, fun x hx => ?_, fun x hx => ?_, fun l hl => ?_⟩
    · simp only [callShort, operands, List.cons_append, List.nil_append, List.mem_cons,
        List.not_mem_nil, Value.var.injEq, or_false] at hx
      rcases hx with rfl | rfl | rfl <;> decide
    · simp only [callShort, operands, List.cons_append, List.nil_append, List.mem_cons,
        List.not_mem_nil, Value.var.injEq, or_false] at hx
      rcases hx with rfl | rfl | rfl <;> decide
    · simp only [callShort, operands, List.cons_append, List.nil_append, List.mem_cons,
        List.not_mem_nil, reduceCtorEq, or_false] at hl
  have hexec := h ℤ Unit shortInterp env _ _ hapart (by decide) [] ()
  have hargs := congrArg (Option.map Call.args) hexec
  revert hargs
  decide

/-- `let x = #0 y in k x`, where `y` and `k` are the variables 1 and 2. -/
def firstField (x : Lvar) : Cexp := .select 0 (.var 1) x .enumt (.app (.var 2) [.var x])

/-- Selections whose results have different names. -/
theorem equalUptoAlpha_sound_select :
    exec shortInterp [] (fun x => if x = 1 ∨ x = 2 then some x else none) () (firstField 3) =
      exec shortInterp [] (fun x => if x = 1 ∨ x = 2 then some x else none) () (firstField 4) := by
  have hapart : Apart (fun x => if x = 1 ∨ x = 2 then some (x : ℤ) else none) (firstField 3)
      (firstField 4) := by
    refine ⟨⟨by decide, by decide⟩, fun x hx => ?_, fun x hx => ?_, fun l hl => ?_⟩
    · simp only [firstField, operands, List.mem_cons, List.not_mem_nil, Value.var.injEq,
        or_false] at hx
      rcases hx with rfl | rfl | rfl <;> decide
    · simp only [firstField, operands, List.mem_cons, List.not_mem_nil, Value.var.injEq,
        or_false] at hx
      rcases hx with rfl | rfl | rfl <;> decide
    · simp only [firstField, operands, List.mem_cons, List.not_mem_nil, reduceCtorEq,
        or_false] at hl
  have hprotocols : sameProtocols (firstField 3) (firstField 4) := trivial
  exact (equalUptoAlpha_sound shortInterp hapart hprotocols (by decide)).1 [] ()

end EqualUptoAlpha

end SmlNj.CPS
