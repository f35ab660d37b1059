import SmlNj.Basics.LambdaVar

/-!
# Patterns, and which values they accept

The patterns of a match as the match compiler sees them, after elaboration: the
fields of a record are in order and complete, and types are kept only where the
compiler looks at them.

What a match means, independently of how it is compiled.  Types are an arbitrary
type `T` with a view that shows the outermost structure of each, so that
datatypes may be recursive and polymorphic ones have all their instances.

## Main definitions

* `Pat` — patterns; `Con` — what a case distinguishes.
* `eqCon` — when two of these are the same.
* `stripPatMarks` — a pattern without its source marks.
* `TypeEnv` — types and their constructors; a datatype has as many of these as its
  signature says.
* `HasTy`, `PatTy`, `ConTy` — values, patterns and constants of a type.
* `accepts` — does a pattern accept a value?
* `conMatches` — is a value made by a constant?

## Main results

* `ConTy.eqCon_iff` — constants of one type that make the same value are the same.
-/

namespace SmlNj.MatchComp

/-- The representation of a data constructor. -/
inductive Conrep
  | untagged
  | tagged (i : ℕ)
  | transparent
  | constant (i : ℕ)
  | ref
  | exn (acc : ℕ)
  | susp (acc : Option (ℕ × ℕ))
  | listcons
  | listnil
  deriving DecidableEq

/-- The numbers of constant and of value-carrying constructors of a datatype; there is no such
signature for other types, nor for exceptions. -/
inductive Consig
  | csig (i j : ℕ)
  | cnil
  deriving DecidableEq

/-- A data constructor. -/
structure Datacon where
  rep : Conrep
  sign : Consig
  deriving DecidableEq

/-- Equality of constructors of one datatype: no two of them have the same representation. -/
def eqDatacon (d1 d2 : Datacon) : Bool := d1.rep == d2.rep

/-- The types of numeric literals. -/
inductive NumTy
  | int | int32 | int64 | intinf | word | word8 | word32 | word64
  deriving DecidableEq

/-- Patterns. -/
inductive Pat
  | wild
  | var (v : ℕ)
  | num (ival : ℤ) (ty : NumTy)
  | string (s : SmlString)
  | char (c : UInt8)
  | con (k : Datacon)
  | record (fields : List Pat)
  | app (k : Datacon) (pat : Pat)
  | constraint (pat : Pat)
  | layered (lpat bpat : Pat)
  | or (pat1 pat2 : Pat)
  | vector (pats : List Pat)
  | mark (pat : Pat)
  deriving Inhabited

/-- What a case distinguishes: a data constructor, a constant or a vector length. -/
inductive Con
  | data (d : Datacon)
  | int (ival : ℤ) (ty : ℕ)
  | word (ival : ℤ) (ty : ℕ)
  | string (s : SmlString)
  | vlen (n : ℕ)
  deriving DecidableEq

/-- Are two constants the same?  Their types are assumed compatible. -/
def eqCon : Con → Con → Bool
  | .data d1, .data d2 => eqDatacon d1 d2
  | .int n _, .int n' _ => n == n'
  | .word n _, .word n' _ => n == n'
  | .string s, .string s' => s == s'
  | .vlen n, .vlen n' => n == n'
  | _, _ => false

/-- The constant of a numeric literal. -/
def numToCon (v : ℤ) : NumTy → Con
  | .int => .int v Target.defaultIntSz
  | .int32 => .int v 32
  | .int64 => .int v 64
  | .intinf => .int v 0
  | .word => .word v Target.defaultIntSz
  | .word8 => .word v Target.defaultIntSz
  | .word32 => .word v 32
  | .word64 => .word v 64

def intCon (n : ℕ) : Con := .int n Target.defaultIntSz

/-- Pattern constant for a character literal, promoted to an integer. -/
def charCon (c : UInt8) : Con := intCon c.toNat

mutual

/-- A pattern without its source marks. -/
@[grind =] def stripPatMarks : Pat → Pat
  | .mark p => stripPatMarks p
  | .record fields => .record (stripPatMarksList fields)
  | .app dc p => .app dc (stripPatMarks p)
  | .constraint p => .constraint (stripPatMarks p)
  | .layered pat1 pat2 => .layered (stripPatMarks pat1) (stripPatMarks pat2)
  | .or pat1 pat2 => .or (stripPatMarks pat1) (stripPatMarks pat2)
  | .vector pats => .vector (stripPatMarksList pats)
  | p => p

def stripPatMarksList : List Pat → List Pat
  | [] => []
  | p :: ps => stripPatMarks p :: stripPatMarksList ps

end

@[grind =] def stripConstraints : Pat → Pat
  | .constraint lpat => stripConstraints lpat
  | lpat => lpat

attribute [simp] stripPatMarks stripPatMarksList stripConstraints

/-! ## Types, values, and which values a pattern accepts -/

/-- Values.  Characters are numbers, as they are at run time. -/
inductive Value
  | num (n : ℤ)
  | string (s : SmlString)
  | record (fields : List Value)
  | vector (elems : List Value)
  | con (rep : Conrep)
  | app (rep : Conrep) (arg : Value)
  deriving Inhabited

/-- The outermost structure of a type.  A datatype has a signature, and says of a representation
whether it is that of a constructor and of what the constructor takes. -/
inductive TyView (T : Type)
  | num (ty : NumTy)
  | string
  | char
  | record (tys : List T)
  | vector (ty : T)
  | data (sign : Consig) (arg : Conrep → Option (Option T))

def TyView.sign {T : Type} : TyView T → Consig
  | .data sign _ => sign
  | _ => .cnil

/-- **Types.** -/
structure TypeEnv (T : Type) where
  view : T → TyView T
  /-- A datatype has as many constructors as its signature says. -/
  card_csig : ∀ {t i j arg}, view t = .data (.csig i j) arg →
    ∃ reps : Finset Conrep, reps.card = i + j ∧ ∀ rep, rep ∈ reps ↔ (arg rep).isSome

variable {T : Type} (E : TypeEnv T) (chars : Set ℤ)

mutual

/-- **Values of a type**, where `chars` are the values of type `char`. -/
def HasTy : Value → T → Prop
  | .num n, t => (∃ nt, E.view t = .num nt) ∨ E.view t = .char ∧ n ∈ chars
  | .string _, t => E.view t = .string
  | .record vs, t => ∃ ts, E.view t = .record ts ∧ HasTys vs ts
  | .vector vs, t => ∃ t', E.view t = .vector t' ∧ AllHaveTy vs t'
  | .con rep, t => ∃ sign arg, E.view t = .data sign arg ∧ arg rep = some none
  | .app rep v, t => ∃ sign arg t', E.view t = .data sign arg ∧ arg rep = some (some t') ∧
      HasTy v t'

@[grind =] def HasTys : List Value → List T → Prop
  | [], [] => True
  | v :: vs, t :: ts => HasTy v t ∧ HasTys vs ts
  | _, _ => False

def AllHaveTy : List Value → T → Prop
  | [], _ => True
  | v :: vs, t => HasTy v t ∧ AllHaveTy vs t

end

attribute [simp] HasTy HasTys AllHaveTy

def charRange : Set ℤ := {n | 0 ≤ n ∧ n < 256}

@[grind =] def isVar : Pat → Bool
  | .var _ => true
  | .constraint p | .mark p => isVar p
  | _ => false

mutual

/-- **Patterns of a type.**  A layered pattern begins with a variable. -/
@[grind =] def PatTy : Pat → T → Prop
  | .wild, _ | .var _, _ => True
  | .num _ nt, t => E.view t = .num nt
  | .string _, t => E.view t = .string
  | .char _, t => E.view t = .char
  | .con k, t => ∃ arg, E.view t = .data k.sign arg ∧ arg k.rep = some none
  | .record ps, t => ∃ ts, E.view t = .record ts ∧ PatTys ps ts
  | .app k p, t => ∃ arg t', E.view t = .data k.sign arg ∧ arg k.rep = some (some t') ∧ PatTy p t'
  | .constraint p, t => PatTy p t
  | .layered l b, t => isVar l ∧ PatTy b t
  | .or p q, t => PatTy p t ∧ PatTy q t
  | .vector ps, t => ∃ t', E.view t = .vector t' ∧ AllPatTy ps t'
  | .mark p, t => PatTy p t

@[grind =] def PatTys : List Pat → List T → Prop
  | [], [] => True
  | p :: ps, t :: ts => PatTy p t ∧ PatTys ps ts
  | _, _ => False

def AllPatTy : List Pat → T → Prop
  | [], _ => True
  | p :: ps, t => PatTy p t ∧ AllPatTy ps t

end

attribute [simp] isVar PatTy PatTys AllPatTy

mutual

/-- **Does a pattern accept a value?** -/
@[grind =] def accepts : Pat → Value → Bool
  | .wild, _ | .var _, _ => true
  | .num n _, .num m => n == m
  | .string s, .string s' => s == s'
  | .char c, .num m => (c.toNat : ℤ) == m
  | .con k, .con rep => k.rep == rep
  | .record ps, .record vs => acceptsAll ps vs
  | .app k p, .app rep v => k.rep == rep && accepts p v
  | .constraint p, v => accepts p v
  | .layered l b, v => accepts l v && accepts b v
  | .or p q, v => accepts p v || accepts q v
  | .vector ps, .vector vs => acceptsAll ps vs
  | .mark p, v => accepts p v
  | _, _ => false

@[grind =] def acceptsAll : List Pat → List Value → Bool
  | [], [] => true
  | p :: ps, v :: vs => accepts p v && acceptsAll ps vs
  | _, _ => false

end

attribute [simp] accepts acceptsAll

/-! ### Constants -/

/-- Is a value made by a constant? -/
def conMatches : Con → Value → Bool
  | .data d, .con rep | .data d, .app rep _ => d.rep == rep
  | .int n _, .num m | .word n _, .num m => n == m
  | .string s, .string s' => s == s'
  | .vlen n, .vector vs => n == vs.length
  | _, _ => false

attribute [simp] conMatches

/-- Constants of a type. -/
def ConTy (c : Con) (t : T) : Prop :=
  match E.view t with
  | .num nt => ∃ n, c = numToCon n nt
  | .string => ∃ s, c = .string s
  | .char => ∃ n, c = .int n Target.defaultIntSz
  | .record _ => False
  | .vector _ => ∃ n, c = .vlen n
  | .data sign arg => ∃ d, c = .data d ∧ d.sign = sign ∧ (arg d.rep).isSome

variable {E chars}

theorem conMatches_numToCon (n : ℤ) (nt : NumTy) (v : Value) :
    conMatches (numToCon n nt) v = accepts (.num n nt) v := by
  cases nt <;> cases v <;> rfl

theorem eqCon_numToCon (n m : ℤ) (nt : NumTy) : eqCon (numToCon n nt) (numToCon m nt) = (n == m) := by
  cases nt <;> rfl

/-- **Constants of one type that make the same value are the same.** -/
theorem ConTy.eqCon_iff {c c' : Con} {t : T} {v : Value} (hc : ConTy E c t) (hc' : ConTy E c' t)
    (h : conMatches c v) : eqCon c' c ↔ conMatches c' v := by
  unfold ConTy at hc hc'
  cases hv : E.view t with
  | num nt =>
    rw [hv] at hc hc'
    obtain ⟨n, rfl⟩ := hc
    obtain ⟨m, rfl⟩ := hc'
    rw [conMatches_numToCon] at h ⊢
    rw [eqCon_numToCon]
    cases v <;> simp_all
  | string =>
    rw [hv] at hc hc'
    obtain ⟨s, rfl⟩ := hc
    obtain ⟨s', rfl⟩ := hc'
    cases v <;> simp_all [eqCon]
  | char =>
    rw [hv] at hc hc'
    obtain ⟨n, rfl⟩ := hc
    obtain ⟨m, rfl⟩ := hc'
    cases v <;> simp_all [eqCon]
  | record _ => rw [hv] at hc; exact hc.elim
  | vector _ =>
    rw [hv] at hc hc'
    obtain ⟨n, rfl⟩ := hc
    obtain ⟨m, rfl⟩ := hc'
    cases v <;> simp_all [eqCon]
  | data sign arg =>
    rw [hv] at hc hc'
    obtain ⟨d, rfl, -, -⟩ := hc
    obtain ⟨d', rfl, -, -⟩ := hc'
    cases v <;> simp_all [eqCon, eqDatacon]

theorem eqCon_comm (c c' : Con) : eqCon c c' = eqCon c' c := by
  cases c <;> cases c' <;> simp [eqCon, eqDatacon, Bool.beq_comm]

end SmlNj.MatchComp
