import SmlNj.Elaborator.MatchComp.ProtoAndorSound

/-!
# And-or trees

The second pass gives every choice its path from the root, and its default rules:
those that may still match there and have no constant.

The second pass keeps what the proto-and-or tree says of the rules, now about the
values at the paths of the choices.  Of the rules that are live at a choice each
stands at one case or is a default, and below a case a default does not stand.

## Main definitions

* `Path` — where in a value; `valAt` — the value there.
* `Andor` — the tree; `OrNode` — a choice.
* `makeAndor` — the tree of a proto-and-or tree.
* `Stands` — a rule stands at some case of a tree.
* `Sat` — a tree holds of a rule and a value.
* `Covers` — the cases and the defaults of every choice share the live rules.
* `Typed` — a tree at a path for values of a type.

## Main results

* `makeAndor_spec` — the second pass.
-/

namespace SmlNj.MatchComp

open ExceptList

/-- A step into a value: to a field, to an element, or to the argument of a constructor. -/
inductive Link
  | pi (n : ℕ)
  | vi (n : ℕ)
  | dc (con : Con)
  deriving DecidableEq

abbrev Path := List Link

/-- **The value at a path.** -/
@[grind =] def valAt : Value → Path → Option Value
  | v, [] => some v
  | .record vs, .pi n :: path => vs[n]?.bind fun w => valAt w path
  | .vector vs, .vi n :: path => vs[n]?.bind fun w => valAt w path
  | .app rep w, .dc con :: path => if conMatches con (.app rep w) then valAt w path else none
  | _, _ => none

/-! ### The tree -/

/-- A choice. -/
structure OrNode (α : Type) where
  path : Path
  sign : Consig
  cases : List (Con × Ruleset × Subcase α)
  defaults : Ruleset

/-- **And-or trees.** -/
inductive Andor
  | and (children : List Andor)
  | or (node : OrNode Andor)
  | var
  | wc

abbrev Variant := Con × Ruleset × Subcase Andor

/-- Default rules: the rules live at a choice that are at no case. -/
def defaultsOf (live : Ruleset) (cases : List ProtoVariant) : Ruleset :=
  cases.foldl (fun defaults pcase => defaults \ pcase.2.1) live

mutual

/-- **The tree below a reversed path**, where the rules `live` may match. -/
@[grind =] def translateAndor (live : Ruleset) (rpath : Path) : ProtoAndor → Except Exn Andor
  | .and _ children => do return .and (← translateChildren live rpath .pi 0 children [])
  | .or _ sign cases => do
    let defaults := defaultsOf live cases
    return .or ⟨rpath.reverse, sign, ← translateCases defaults live rpath cases, defaults⟩
  | .var _ => .ok .var
  | .wc => .ok .wc

/-- The trees of children, from the `n`th on, in front of those done: the last comes first. -/
def translateChildren (live : Ruleset) (rpath : Path) (link : ℕ → Link) (n : ℕ) :
    List ProtoAndor → List Andor → Except Exn (List Andor)
  | [], andors => .ok andors
  | pandor :: pandors, andors => do
    translateChildren live rpath link (n + 1) pandors
      ((← translateAndor live (link n :: rpath) pandor) :: andors)

/-- The cases of a choice. -/
def translateCases (defaults live : Ruleset) (rpath : Path) :
    List (Con × Ruleset × Subcase ProtoAndor) → Except Exn (List Variant)
  | [] => .ok []
  | (con, caserules, subcase) :: cases => do
    let caseLive := caserules ∩ live
    let stillLive := caseLive ∪ defaults
    return (con, caseLive, ← translateSubcase stillLive live rpath con subcase) ::
      (← translateCases defaults live rpath cases)

/-- What is below a case.  The rules live below a constructor are those of the case and the
defaults, but below a vector length they are those live at the choice. -/
@[grind =] def translateSubcase (stillLive live : Ruleset) (rpath : Path) (con : Con) :
    Subcase ProtoAndor → Except Exn (Subcase Andor)
  | .const => .ok .const
  | .dcarg pandor =>
    match con with
    | .data _ => do return .dcarg (← translateAndor stillLive (.dc con :: rpath) pandor)
    | _ => .error .impossible
  | .velems elements =>
    match con with
    | .vlen _ => do return .velems (← translateChildren live rpath .vi 0 elements [])
    | _ => .error .impossible

end

/-- **The tree of a proto-and-or tree.** -/
def makeAndor (protoAndor : ProtoAndor) (allRules : Ruleset) : Except Exn Andor :=
  translateAndor allRules [] protoAndor

attribute [simp] translateAndor translateChildren translateCases translateSubcase

/-! ### Values at paths -/

section Paths

theorem valAt_append (v : Value) (p q : Path) :
    valAt v (p ++ q) = (valAt v p).bind fun u => valAt u q := by
  induction p generalizing v with
  | nil => simp [valAt]
  | cons l p ih =>
    cases v <;> cases l <;> simp only [List.cons_append, valAt, Option.bind_none]
    · next vs n => cases vs[n]? <;> simp [ih]
    · next vs n => cases vs[n]? <;> simp [ih]
    · split
      · exact ih _
      · rfl

variable {v u : Value} {p : Path}

theorem valAt_pi {vs : List Value} (h : valAt v p = some (.record vs)) (n : ℕ) :
    valAt v (p ++ [.pi n]) = vs[n]? := by
  rw [valAt_append, h]
  cases hn : vs[n]? <;> simp [valAt, hn]

theorem valAt_vi {vs : List Value} (h : valAt v p = some (.vector vs)) (n : ℕ) :
    valAt v (p ++ [.vi n]) = vs[n]? := by
  rw [valAt_append, h]
  cases hn : vs[n]? <;> simp [valAt, hn]

theorem valAt_dc {rep : Conrep} {w : Value} {con : Con} (h : valAt v p = some (.app rep w))
    (hc : conMatches con (.app rep w)) : valAt v (p ++ [.dc con]) = some w := by
  rw [valAt_append, h]
  simp only [valAt, Option.bind_some, hc, if_true]

end Paths

/-! ## What an and-or tree says of its rules -/

open ExceptList

mutual

def Stands (r : ℕ) : Andor → Prop
  | .and children => StandsAny r children
  | .or ⟨_, _, cases, _⟩ => StandsCases r cases
  | .var | .wc => False

def StandsAny (r : ℕ) : List Andor → Prop
  | [] => False
  | a :: as => Stands r a ∨ StandsAny r as

def StandsCases (r : ℕ) : List (Con × Ruleset × Subcase Andor) → Prop
  | [] => False
  | (_, rules, subcase) :: cases => r ∈ rules ∨ StandsSub r subcase ∨ StandsCases r cases

def StandsSub (r : ℕ) : Subcase Andor → Prop
  | .const => False
  | .dcarg a => Stands r a
  | .velems as => StandsAny r as

end

attribute [simp] Stands StandsAny StandsCases StandsSub

mutual

/-- **Does a tree hold of a rule and a value?**  Wherever the rule stands at a case, the value at the
path of the choice is made by the constant of the case. -/
def Sat (v : Value) (r : ℕ) : Andor → Prop
  | .and children => SatAll v r children
  | .or ⟨path, _, cases, _⟩ => SatCases v r path cases
  | .var | .wc => True

def SatAll (v : Value) (r : ℕ) : List Andor → Prop
  | [] => True
  | a :: as => Sat v r a ∧ SatAll v r as

def SatCases (v : Value) (r : ℕ) (path : Path) : List (Con × Ruleset × Subcase Andor) → Prop
  | [] => True
  | (con, rules, subcase) :: cases =>
    (r ∈ rules → (∃ u, valAt v path = some u ∧ conMatches con u) ∧ SatSub v r subcase) ∧
      SatCases v r path cases

def SatSub (v : Value) (r : ℕ) : Subcase Andor → Prop
  | .const => True
  | .dcarg a => Sat v r a
  | .velems as => SatAll v r as

end

attribute [simp] Sat SatAll SatCases SatSub

mutual

/-- **Is each of the rules `live` at a case or a default, wherever there is a choice?**  The cases
have different constants and different rules, and below a case only its rules stand. -/
def Covers (live : Ruleset) : Andor → Prop
  | .and children => CoversAll live children
  | .or ⟨_, _, cases, defaults⟩ =>
    (∀ r ∈ live, r ∈ defaults ∨ ∃ c ∈ cases, r ∈ c.2.1) ∧ CoversCases defaults cases ∧
      cases.Pairwise Apart
  | .var | .wc => True

def CoversAll (live : Ruleset) : List Andor → Prop
  | [] => True
  | a :: as => Covers live a ∧ CoversAll live as

def CoversCases (defaults : Ruleset) : List (Con × Ruleset × Subcase Andor) → Prop
  | [] => True
  | (_, rules, subcase) :: cases =>
    (Disjoint defaults rules ∧ (∀ r, StandsSub r subcase → r ∈ rules) ∧
      CoversSub (rules ∪ defaults) subcase) ∧ CoversCases defaults cases

def CoversSub (live : Ruleset) : Subcase Andor → Prop
  | .const => True
  | .dcarg a => Covers live a
  | .velems as => CoversAll live as

end

attribute [simp] Covers CoversAll CoversCases CoversSub

section Typed

variable {T : Type} (E : TypeEnv T)

mutual

/-- **A tree at a path, for values of a type.**  Children come last first. -/
def Typed (path : Path) : Andor → T → Prop
  | .and children, t => ∃ ts, E.view t = .record ts ∧ TypedAll path .pi children ts.reverse
  | .or ⟨p, sign, cases, _⟩, t =>
    p = path ∧ (E.view t).sign? = some sign ∧ TypedCases path cases t
  | .var, _ | .wc, _ => True

@[grind =] def TypedAll (path : Path) (link : ℕ → Link) : List Andor → List T → Prop
  | [], [] => True
  | a :: as, t :: ts => Typed (path ++ [link as.length]) a t ∧ TypedAll path link as ts
  | _, _ => False

def TypedCases (path : Path) : List (Con × Ruleset × Subcase Andor) → T → Prop
  | [], _ => True
  | (con, _, subcase) :: cases, t =>
    (ConTy E con t ∧ TypedSub path con subcase t) ∧ TypedCases path cases t

@[grind =] def TypedSub (path : Path) (con : Con) : Subcase Andor → T → Prop
  | .const, t => conArg E con t = some none
  | .dcarg a, t => ∃ t', conArg E con t = some (some t') ∧ Typed (path ++ [.dc con]) a t'
  | .velems as, t => ∃ t', con = .vlen as.length ∧ E.view t = .vector t' ∧
      TypedAll path .vi as (List.replicate as.length t')

end

end Typed

attribute [simp] Typed TypedAll TypedCases TypedSub

section Lists

variable {v : Value} {r : ℕ} {live : Ruleset}

theorem satAll_iff {as : List Andor} : SatAll v r as ↔ ∀ a ∈ as, Sat v r a := by
  induction as with
  | nil => simp
  | cons a as ih => simp [ih]

theorem coversAll_iff {as : List Andor} : CoversAll live as ↔ ∀ a ∈ as, Covers live a := by
  induction as with
  | nil => simp
  | cons a as ih => simp [ih]

theorem standsAny_iff {as : List Andor} : StandsAny r as ↔ ∃ a ∈ as, Stands r a := by
  induction as with
  | nil => simp
  | cons a as ih => simp [ih]

theorem satCases_iff {path : Path} {cases : List Variant} :
    SatCases v r path cases ↔ ∀ c ∈ cases, r ∈ c.2.1 →
      (∃ u, valAt v path = some u ∧ conMatches c.1 u) ∧ SatSub v r c.2.2 := by
  induction cases with
  | nil => simp
  | cons c cases ih =>
    simp [ih]

theorem coversCases_iff {defaults : Ruleset} {cases : List Variant} :
    CoversCases defaults cases ↔ ∀ c ∈ cases, Disjoint defaults c.2.1 ∧
      (∀ r, StandsSub r c.2.2 → r ∈ c.2.1) ∧ CoversSub (c.2.1 ∪ defaults) c.2.2 := by
  induction cases with
  | nil => simp
  | cons c cases ih =>
    simp [ih]

variable {T : Type} {E : TypeEnv T}

theorem typedCases_iff {path : Path} {t : T} {cases : List Variant} :
    TypedCases E path cases t ↔ ∀ c ∈ cases, ConTy E c.1 t ∧ TypedSub E path c.1 c.2.2 t := by
  induction cases with
  | nil => simp
  | cons c cases ih =>
    simp [ih]

theorem TypedAll.length_eq {path : Path} {link : ℕ → Link} : ∀ {as : List Andor} {ts : List T},
    TypedAll E path link as ts → as.length = ts.length
  | [], [], _ => rfl
  | [], _ :: _, h | _ :: _, [], h => h.elim
  | a :: as, t :: ts, h => by rw [List.length_cons, TypedAll.length_eq h.2, List.length_cons]

end Lists

mutual

theorem sat_of_not_stands {r : ℕ} {v : Value} : ∀ {a : Andor}, ¬ Stands r a → Sat v r a
  | .and children, h => by simpa using satAll_of_not_stands (by simpa using h)
  | .or ⟨path, sign, cases, defaults⟩, h => by
    have : SatCases v r path cases := satCases_of_not_stands (by simpa using h)
    simpa using this
  | .var, _ | .wc, _ => trivial

theorem satAll_of_not_stands {r : ℕ} {v : Value} : ∀ {as : List Andor},
    ¬ StandsAny r as → SatAll v r as
  | [], _ => trivial
  | _ :: _, h => ⟨sat_of_not_stands fun ha => h (.inl ha), satAll_of_not_stands fun ha => h (.inr ha)⟩

theorem satCases_of_not_stands {r : ℕ} {v : Value} {path : Path} :
    ∀ {cases : List (Con × Ruleset × Subcase Andor)}, ¬ StandsCases r cases →
      SatCases v r path cases
  | [], _ => trivial
  | _ :: _, h =>
    ⟨fun hr => absurd (.inl hr) h, satCases_of_not_stands fun hc => h (.inr (.inr hc))⟩

end

theorem satSub_of_not_stands {r : ℕ} {v : Value} {s : Subcase Andor} (h : ¬ StandsSub r s) :
    SatSub v r s := by
  cases s with
  | const => trivial
  | dcarg a => exact sat_of_not_stands h
  | velems as => exact satAll_of_not_stands h

mutual

theorem Covers.mono {live live' : Ruleset} (hle : live' ⊆ live) : ∀ {a : Andor},
    Covers live a → Covers live' a
  | .and children, h => by simpa using CoversAll.mono hle (by simpa using h)
  | .or ⟨path, sign, cases, defaults⟩, h => ⟨fun r hr => h.1 r (hle hr), h.2⟩
  | .var, _ | .wc, _ => trivial

theorem CoversAll.mono {live live' : Ruleset} (hle : live' ⊆ live) : ∀ {as : List Andor},
    CoversAll live as → CoversAll live' as
  | [], _ => trivial
  | _ :: _, h => ⟨Covers.mono hle h.1, CoversAll.mono hle h.2⟩

end

/-! ### The second pass -/

section Translation

variable {T : Type} {E : TypeEnv T} {chars : Set ℤ}

theorem mem_defaultsOf {live : Ruleset} {cases : List ProtoVariant} {r : ℕ} :
    r ∈ defaultsOf live cases ↔ r ∈ live ∧ ∀ c ∈ cases, r ∉ c.2.1 := by
  unfold defaultsOf
  induction cases generalizing live with
  | nil => simp
  | cons c cases ih => simp [ih, and_assoc]

/-- A tree and its translation below a reversed path. -/
structure Translated (E : TypeEnv T) (chars : Set ℤ) (live : Ruleset) (rpath : Path) (t : T)
    (a : ProtoAndor) (a' : Andor) : Prop where
  typed : Typed E rpath.reverse a' t
  covers : Covers live a'
  stands : ∀ r, Stands r a' → HasRule r a
  sat : ∀ v u, valAt v rpath.reverse = some u → HasTy E chars u t →
    ∀ r, Sat v r a' ↔ Holds r a u

/-- Trees and their translations, from the `n`th on. -/
inductive TranslatedAll (E : TypeEnv T) (chars : Set ℤ) (live : Ruleset) (rpath : Path)
    (link : ℕ → Link) : ℕ → List T → List ProtoAndor → List Andor → Prop
  | nil {n} : TranslatedAll E chars live rpath link n [] [] []
  | cons {n t ts a as a' as'} (h : Translated E chars live (link n :: rpath) t a a')
      (hs : TranslatedAll E chars live rpath link (n + 1) ts as as') :
      TranslatedAll E chars live rpath link n (t :: ts) (a :: as) (a' :: as')

variable {live : Ruleset} {rpath : Path} {link : ℕ → Link}

theorem TranslatedAll.typed {n : ℕ} {ts accTs : List T} {as : List ProtoAndor}
    {as' acc : List Andor} (h : TranslatedAll E chars live rpath link n ts as as')
    (hacc : TypedAll E rpath.reverse link acc accTs) (hn : acc.length = n) :
    TypedAll E rpath.reverse link (as'.reverse ++ acc) (ts.reverse ++ accTs) := by
  induction h generalizing acc accTs with
  | nil => simpa using hacc
  | @cons n t ts a as a' as' h hs ih =>
    have hacc' : TypedAll E rpath.reverse link (a' :: acc) (t :: accTs) := by
      refine ⟨?_, hacc⟩
      rw [hn]
      simpa using h.typed
    simpa using ih hacc' (by simp [hn])

theorem TranslatedAll.covers {n : ℕ} {ts : List T} {as : List ProtoAndor} {as' : List Andor}
    (h : TranslatedAll E chars live rpath link n ts as as') : ∀ a' ∈ as', Covers live a' := by
  induction h with
  | nil => simp
  | cons h _ ih => exact List.forall_mem_cons.mpr ⟨h.covers, ih⟩

theorem TranslatedAll.stands {n : ℕ} {ts : List T} {as : List ProtoAndor} {as' : List Andor}
    (h : TranslatedAll E chars live rpath link n ts as as') :
    ∀ a' ∈ as', ∀ r, Stands r a' → HasRuleAny r as := by
  induction h with
  | nil => simp
  | cons h _ ih =>
    exact List.forall_mem_cons.mpr
      ⟨fun r hr => .inl (h.stands r hr), fun a' ha' r hr => .inr (ih a' ha' r hr)⟩

theorem TranslatedAll.sat {n : ℕ} {ts : List T} {as : List ProtoAndor} {as' : List Andor}
    (h : TranslatedAll E chars live rpath link n ts as as') {v : Value} {us : List Value}
    (hus : HasTys E chars us ts)
    (hat : ∀ i u, us[i]? = some u → valAt v (rpath.reverse ++ [link (n + i)]) = some u) (r : ℕ) :
    (∀ a' ∈ as', Sat v r a') ↔ HoldsAll r as us := by
  induction h generalizing us with
  | nil => cases us <;> simp
  | @cons n t ts a as a' as' h _ ih =>
    cases us with
    | nil => exact hus.elim
    | cons u us =>
      have hu : valAt v (link n :: rpath).reverse = some u := by
        simpa using hat 0 u rfl
      have hrest := ih hus.2 fun i w hw => by
        have := hat (i + 1) w (by simpa using hw)
        rwa [show n + (i + 1) = n + 1 + i by omega] at this
      rw [List.forall_mem_cons, HoldsAll, h.sat v u hu hus.1 r, hrest]

theorem TranslatedAll.length_eq {n : ℕ} {ts : List T} {as : List ProtoAndor} {as' : List Andor}
    (h : TranslatedAll E chars live rpath link n ts as as') : as'.length = as.length := by
  induction h with
  | nil => rfl
  | cons _ _ ih => simp [ih]

/-- What is below a case, and its translation. -/
structure TranslatedSub (E : TypeEnv T) (chars : Set ℤ) (live : Ruleset) (rpath : Path) (con : Con)
    (t : T) (s : Subcase ProtoAndor) (s' : Subcase Andor) : Prop where
  typed : TypedSub E rpath.reverse con s' t
  covers : CoversSub live s'
  stands : ∀ r, StandsSub r s' → HasRuleSub r s
  sat : ∀ v u, valAt v rpath.reverse = some u → HasTy E chars u t → conMatches con u →
    ∀ r, SatSub v r s' ↔ HoldsSub r s u

/-- Cases and their translations. -/
structure TranslatedCases (E : TypeEnv T) (chars : Set ℤ) (defaults : Ruleset) (rpath : Path)
    (t : T) (cases : List ProtoVariant) (cases' : List Variant) : Prop where
  typed : TypedCases E rpath.reverse cases' t
  covers : CoversCases defaults cases'
  /-- The translation changes only what is below the cases. -/
  same : List.Forall₂ (fun c c' => c.1 = c'.1 ∧ c.2.1 = c'.2.1) cases cases'
  stands : ∀ r, StandsCases r cases' → HasRuleCases r cases
  sat : ∀ v u, valAt v rpath.reverse = some u → HasTy E chars u t →
    ∀ r, SatCases v r rpath.reverse cases' ↔ HoldsCases r cases u

theorem Translated.and {t : T} {ts : List T} {as : List ProtoAndor} {as' : List Andor}
    (ht : E.view t = .record ts) (h : TranslatedAll E chars live rpath .pi 0 ts as as')
    (varRules : Ruleset) :
    Translated E chars live rpath t (.and varRules as) (.and as'.reverse) where
  typed := ⟨ts, ht, by simpa using h.typed (show TypedAll E _ _ [] [] from trivial) rfl⟩
  covers := coversAll_iff.mpr fun a' ha' => h.covers a' (List.mem_reverse.mp ha')
  stands r hr := by
    obtain ⟨a', ha', hr⟩ := standsAny_iff.mp hr
    exact h.stands a' (List.mem_reverse.mp ha') r hr
  sat v u hu hty r := by
    cases u with
    | record us =>
      obtain ⟨ts', ht', hus⟩ := hty
      obtain rfl : ts = ts' := by simpa [ht] using ht'
      rw [Holds, ← h.sat hus (fun i w hw => by rw [Nat.zero_add, valAt_pi hu, hw]) r, Sat,
        satAll_iff]
      simp
    | num n => simp [ht] at hty
    | string n => simp [ht] at hty
    | vector n => simp [ht] at hty
    | con n => simp [ht] at hty
    | app n => simp [ht] at hty

theorem TranslatedAll.velems {t t' : T} {as : List ProtoAndor} {as' : List Andor}
    (ht : E.view t = .vector t')
    (h : TranslatedAll E chars live rpath .vi 0 (List.replicate as.length t') as as')
    {live' : Ruleset} (hle : live' ⊆ live) :
    TranslatedSub E chars live' rpath (.vlen as.length) t (.velems as) (.velems as'.reverse) where
  typed := by
    have := h.typed (show TypedAll E _ _ [] [] from trivial) rfl
    exact ⟨t', by rw [List.length_reverse, h.length_eq], ht, by simpa [h.length_eq] using this⟩
  covers := CoversAll.mono hle
    (coversAll_iff.mpr fun a' ha' => h.covers a' (List.mem_reverse.mp ha'))
  stands r hr := by
    obtain ⟨a', ha', hr⟩ := standsAny_iff.mp hr
    exact h.stands a' (List.mem_reverse.mp ha') r hr
  sat v u hu hty hm r := by
    obtain ⟨us, rfl, hus⟩ := exists_vector ht hty hm
    rw [HoldsSub, ← h.sat hus (fun i w hw => by rw [Nat.zero_add, valAt_vi hu, hw]) r, SatSub,
      satAll_iff]
    simp

theorem Translated.dcarg {k : Datacon} {t t' : T} {a : ProtoAndor} {a' : Andor}
    (harg : conArg E (.data k) t = some (some t'))
    (h : Translated E chars live (.dc (.data k) :: rpath) t' a a') :
    TranslatedSub E chars live rpath (.data k) t (.dcarg a) (.dcarg a') where
  typed := ⟨t', harg, by simpa using h.typed⟩
  covers := h.covers
  stands := h.stands
  sat v u hu hty hm r := by
    obtain ⟨w, rfl, hw⟩ := exists_app harg hty hm
    exact h.sat v w (by simpa using valAt_dc hu hm) hw r

theorem TranslatedCases.nil {defaults : Ruleset} {t : T} :
    TranslatedCases E chars defaults rpath t [] [] :=
  ⟨trivial, trivial, .nil, fun _ h => h, fun _ _ _ _ _ => Iff.rfl⟩

theorem TranslatedCases.cons {defaults rules : Ruleset} {con : Con} {t : T}
    {s : Subcase ProtoAndor} {s' : Subcase Andor} {cases : List ProtoVariant}
    {cases' : List Variant} (hcon : ConTy E con t) (hdisj : Disjoint defaults rules)
    (hnest : ∀ r, HasRuleSub r s → r ∈ rules)
    (hs : TranslatedSub E chars (rules ∪ defaults) rpath con t s s')
    (h : TranslatedCases E chars defaults rpath t cases cases') :
    TranslatedCases E chars defaults rpath t ((con, rules, s) :: cases)
      ((con, rules, s') :: cases') where
  typed := ⟨⟨hcon, hs.typed⟩, h.typed⟩
  covers := ⟨⟨hdisj, fun r hr => hnest r (hs.stands r hr), hs.covers⟩, h.covers⟩
  same := .cons ⟨rfl, rfl⟩ h.same
  stands r hr := hr.imp id fun hr => hr.imp (hs.stands r) (h.stands r)
  sat v u hu hty r := by
    rw [SatCases, h.sat v u hu hty r, hu]
    refine and_congr_left fun _ => imp_congr_right fun _ => ?_
    simp only [Option.some.injEq, exists_eq_left']
    exact and_congr_right fun hm => hs.sat v u hu hty hm r

theorem pairwise_apart {α β : Type} {cases : List (Con × Ruleset × α)}
    {cases' : List (Con × Ruleset × β)}
    (h : List.Forall₂ (fun c c' => c.1 = c'.1 ∧ c.2.1 = c'.2.1) cases cases')
    (hpw : cases.Pairwise Apart) : cases'.Pairwise Apart := by
  induction h with
  | nil => simp
  | @cons c c' cases cases' hc hs ih =>
    obtain ⟨hapart, hpw⟩ := List.pairwise_cons.mp hpw
    refine List.pairwise_cons.mpr ⟨fun d' hd' => ?_, ih hpw⟩
    obtain ⟨d, hd, hdd⟩ := forall₂_mem_right hs hd'
    obtain ⟨hne, hdisj⟩ := hapart d hd
    rw [Apart, ← hc.1, ← hc.2, ← hdd.1, ← hdd.2]
    exact ⟨hne, hdisj⟩

theorem TranslatedCases.or {t : T} {sign : Consig} {cases : List ProtoVariant}
    {cases' : List Variant} (hsign : (E.view t).sign? = some sign) (hpw : cases.Pairwise Apart)
    (h : TranslatedCases E chars (defaultsOf live cases) rpath t cases cases')
    (varRules : Ruleset) :
    Translated E chars live rpath t (.or varRules sign cases)
      (.or ⟨rpath.reverse, sign, cases', defaultsOf live cases⟩) where
  typed := ⟨rfl, hsign, h.typed⟩
  covers := by
    refine ⟨fun r hr => ?_, h.covers, pairwise_apart h.same hpw⟩
    by_cases hd : r ∈ defaultsOf live cases
    · exact .inl hd
    · rw [mem_defaultsOf, not_and] at hd
      have hex : ∃ c ∈ cases, r ∈ c.2.1 := by
        by_contra hnone
        exact hd hr fun c hc hrc => hnone ⟨c, hc, hrc⟩
      obtain ⟨c, hc, hrc⟩ := hex
      obtain ⟨c', hc', -, hrules⟩ := forall₂_mem_left h.same hc
      exact .inr ⟨c', hc', by rwa [← hrules]⟩
  stands := h.stands
  sat := h.sat

mutual

/-- **The second pass**, on a tree. -/
theorem translate_spec : ∀ {a : ProtoAndor} {t : T} {live : Ruleset} (rpath : Path),
    TreeOk E a t → (∀ r, HasRule r a → r ∈ live) →
      ∃ a', translateAndor live rpath a = .ok a' ∧ Translated E chars live rpath t a a'
  | .and varRules as, t, live, rpath, ⟨ts, ht, has⟩, hlive => by
    obtain ⟨as', has', h⟩ := translateChildren_spec rpath .pi 0 [] has hlive
    exact ⟨.and as'.reverse, by simp only [translateAndor, has', ok_bind, List.append_nil]; rfl,
      Translated.and ht h varRules⟩
  | .or varRules sign cases, t, live, rpath, ⟨hsign, hok, hpw⟩, hlive => by
    obtain ⟨cases', hcases', h⟩ := translateCases_spec rpath hok hlive
      (fun c hc => Finset.disjoint_left.mpr fun r hr => (mem_defaultsOf.mp hr).2 c hc)
      (fun r hr => (mem_defaultsOf.mp hr).1)
    exact ⟨_, by simp only [translateAndor, hcases', ok_bind]; rfl, h.or hsign hpw varRules⟩
  | .var _, t, live, rpath, _, _ =>
    ⟨.var, rfl, trivial, trivial, fun _ h => h, fun _ _ _ _ _ => by simp⟩
  | .wc, t, live, rpath, _, _ =>
    ⟨.wc, rfl, trivial, trivial, fun _ h => h, fun _ _ _ _ _ => by simp⟩

theorem translateChildren_spec : ∀ {as : List ProtoAndor} {ts : List T} {live : Ruleset}
    (rpath : Path) (link : ℕ → Link) (n : ℕ) (acc : List Andor),
    TreesOk E as ts → (∀ r, HasRuleAny r as → r ∈ live) →
      ∃ as', translateChildren live rpath link n as acc = .ok (as'.reverse ++ acc) ∧
        TranslatedAll E chars live rpath link n ts as as'
  | [], [], live, rpath, link, n, acc, _, _ => ⟨[], rfl, .nil⟩
  | [], _ :: _, _, _, _, _, _, h, _ | _ :: _, [], _, _, _, _, _, h, _ => h.elim
  | a :: as, t :: ts, live, rpath, link, n, acc, h, hlive => by
    obtain ⟨a', ha', hm⟩ := translate_spec (link n :: rpath) h.1 fun r hr => hlive r (.inl hr)
    obtain ⟨as', has', hms⟩ := translateChildren_spec rpath link (n + 1) (a' :: acc) h.2
      fun r hr => hlive r (.inr hr)
    exact ⟨a' :: as', by simp [ha', ok_bind, has'], .cons hm hms⟩

theorem translateCases_spec : ∀ {cases : List (Con × Ruleset × Subcase ProtoAndor)} {t : T}
    {defaults live : Ruleset} (rpath : Path), CasesOk E cases t →
    (∀ r, HasRuleCases r cases → r ∈ live) → (∀ c ∈ cases, Disjoint defaults c.2.1) →
    defaults ⊆ live → ∃ cases', translateCases defaults live rpath cases = .ok cases' ∧
      TranslatedCases E chars defaults rpath t cases cases'
  | [], t, defaults, live, rpath, _, _, _, _ => ⟨[], rfl, .nil⟩
  | (con, rules, s) :: cases, t, defaults, live, rpath, ⟨⟨hcon, hs, hnest⟩, hok⟩, hlive, hdisj,
      hdef => by
    have hinter : rules ∩ live = rules :=
      Finset.inter_eq_left.mpr fun r hr => hlive r (.inl hr)
    obtain ⟨cases', hcases', h⟩ := translateCases_spec rpath hok
      (fun r hr => hlive r (.inr (.inr hr))) (fun c hc => hdisj c (List.mem_cons_of_mem _ hc)) hdef
    have hsub : ∃ s', translateSubcase (rules ∪ defaults) live rpath con s = .ok s' ∧
        TranslatedSub E chars (rules ∪ defaults) rpath con t s s' :=
      translateSubcase_spec rpath hs hnest
        (Finset.union_subset (fun r hr => hlive r (.inl hr)) hdef)
    obtain ⟨s', hs', hsub⟩ := hsub
    refine ⟨(con, rules, s') :: cases', ?_,
      .cons hcon (hdisj _ List.mem_cons_self) hnest hsub h⟩
    simp only [translateCases, hinter, hs', hcases', ok_bind]
    rfl

theorem translateSubcase_spec : ∀ {s : Subcase ProtoAndor} {con : Con} {t : T}
    {rules defaults live : Ruleset} (rpath : Path), SubcaseOk E s con t →
    (∀ r, HasRuleSub r s → r ∈ rules) → rules ∪ defaults ⊆ live →
    ∃ s', translateSubcase (rules ∪ defaults) live rpath con s = .ok s' ∧
      TranslatedSub E chars (rules ∪ defaults) rpath con t s s'
  | .const, con, t, rules, defaults, live, rpath, h, _, _ =>
    ⟨.const, rfl, h, trivial, fun _ h => h, fun _ _ _ _ _ _ => by simp⟩
  | .dcarg a, con, t, rules, defaults, live, rpath, ⟨t', harg, ha⟩, hnest, _ => by
    cases con with
    | data k =>
      have hlive : ∀ r, HasRule r a → r ∈ rules ∪ defaults := fun r hr =>
        Finset.mem_union_left _ (hnest r hr)
      obtain ⟨a', ha', h⟩ := translate_spec (.dc (.data k) :: rpath) ha hlive
      exact ⟨.dcarg a', by simp only [translateSubcase, ha', ok_bind]; rfl, h.dcarg harg⟩
    | _ => simp [conArg] at harg
  | .velems as, con, t, rules, defaults, live, rpath, ⟨t', hcon, ht, has⟩, hnest, hle => by
    obtain ⟨as', has', h⟩ := translateChildren_spec rpath .vi 0 [] (treesOk_replicate.mpr has)
      fun r hr => hle (Finset.mem_union_left _ (hnest r hr))
    subst hcon
    exact ⟨.velems as'.reverse,
      by simp only [translateSubcase, has', ok_bind, List.append_nil]; rfl, h.velems ht hle⟩

end

/-- **The second pass** on the tree of the rules. -/
theorem makeAndor_spec {t : T} {pats : List Pat} {a : ProtoAndor} (h : TreeOf E chars t pats a) :
    ∃ a', makeAndor a (Finset.range pats.length) = .ok a' ∧ Typed E [] a' t ∧
      Covers (Finset.range pats.length) a' ∧
      ∀ v, HasTy E chars v t → ∀ r p, pats[r]? = some p → (Sat v r a' ↔ accepts p v) := by
  obtain ⟨a', ha', hm⟩ := @translate_spec T E chars a t (Finset.range pats.length) [] h.ok
    fun r hr => Finset.mem_range.mpr (h.rules r hr)
  refine ⟨a', ha', hm.typed, hm.covers, fun v hv r p hp => ?_⟩
  rw [hm.sat v v rfl hv r, h.holds r p hp v hv]

end Translation

end SmlNj.MatchComp
