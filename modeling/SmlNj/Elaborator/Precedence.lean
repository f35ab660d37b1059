import SmlNj.Lib.OperatorPrecedence
import SmlNj.Lib.TotalRun

/-!
# The parsing of infix expressions and patterns

The grammar leaves an expression with infix identifiers as a list of items, which is resolved with
the fixities that are in scope.  An item of the stack is an operand or an operator with its right
binding power.  Nothing is assumed about the expressions, so that patterns are parsed as well.

## Main definitions

* `parse` — the parser.
* `Operator.Before` — the operator that takes the operand between two of them.
* `Stands` — the stacks of the parser that stand for those of the machine on trees.

## Main results

* `parseStep_spec`, `finish_spec`, `loop_spec` — the parser does what the machine does.
* `parse_correct` — **the parser resolves infix expressions.**
-/

namespace SmlNj.Precedence

open TotalRun OperatorPrecedence

structure Symbol where
  number : ℕ
  name : String

abbrev Region := ℤ × ℤ

structure FixItem (α : Type) where
  item : α
  fixity : Option Symbol
  region : Region

inductive Fixity
  | nonFix
  | inFix (lbp rbp : ℤ)

def infixLeft (n : ℤ) : Fixity := .inFix (n + n) (n + n + 1)

def infixRight (n : ℤ) : Fixity := .inFix (n + n + 1) (n + n)

abbrev StaticEnv := Symbol → Option Fixity

def lookFix (env : StaticEnv) (sym : Symbol) : Fixity := (env sym).getD .nonFix

inductive Severity
  | warn
  | complain
  deriving DecidableEq

structure Report where
  region : Region
  severity : Severity
  message : String

/-- The state is what was reported, and an exception is a message of the compiler's own errors. -/
abbrev Prog := Run String (List Report)

def err (region : Region) (severity : Severity) (message : String) : Prog Unit :=
  ExceptT.mk fun log => some (.ok (), log ++ [⟨region, severity, message⟩])

def impossible {β : Type} (message : String) : Prog β := throw message

inductive PrecStack (α : Type)
  | inf (sym : Symbol) (bp : ℤ) (e : α) (p : PrecStack α)
  | nonf (e : α) (p : PrecStack α)
  | nil

structure Token (α : Type) where
  item : α
  fixity : Fixity
  sym : Option Symbol
  region : Region

variable {α : Type}

def PrecStack.depth : PrecStack α → ℕ
  | .inf _ _ _ p => p.depth + 1
  | .nonf _ p => p.depth + 1
  | .nil => 0

def ensureNONf : Token α → PrecStack α → Prog (PrecStack α)
  | ⟨e, .nonFix, _, _⟩, p => pure (.nonf e p)
  | ⟨e, .inFix _ _, some sym, region⟩, p => do
    err region .complain
      ("expression or pattern begins with infix identifier \"" ++ sym.name ++ "\"")
    return .nonf e p
  | _, _ => impossible "precedence:ensureNONf"

def getfix (env : StaticEnv) (i : FixItem α) : Token α where
  item := i.item
  fixity := match i.fixity with
    | none => .nonFix
    | some sym => lookFix env sym
  sym := i.fixity
  region := i.region

def endloc : List (FixItem α) → Prog Region
  | [i] => pure (i.region.2, i.region.2)
  | _ :: a => endloc a
  | [] => impossible "precedence:endloc"

section Parse

variable (apply pair : α → α → α)

/-- A token is parsed. -/
@[grind =] def parseStep : PrecStack α → Token α → Prog (PrecStack α)
  | .nonf e r, ⟨e', .nonFix, _, _⟩ => pure (.nonf (apply e e') r)
  | .inf sym bp e p, token => ensureNONf token (.inf sym bp e p)
  | .nonf e1 (.inf sym' bp e2 (.nonf e3 r)), ⟨e4, .inFix lbp rbp, some sym, region⟩ =>
    if lbp > bp then pure (.inf sym rbp e4 (.nonf e1 (.inf sym' bp e2 (.nonf e3 r))))
    else
      (if lbp = bp then
        err region .warn "mixed left- and right-associative operators of same precedence"
      else pure ()) >>= fun _ =>
        parseStep (.nonf (apply e2 (pair e3 e1)) r) ⟨e4, .inFix lbp rbp, some sym, region⟩
  | .nonf e p, ⟨e', .inFix _ rbp, some sym, _⟩ => pure (.inf sym rbp e' (.nonf e p))
  | _, _ => impossible "Precedence.parse"
termination_by p => p.depth
decreasing_by simp [PrecStack.depth]

/-- The stack is cleaned up. -/
@[grind =] def finish : PrecStack α → Region → Prog α
  | .nonf e1 (.inf _ _ e2 (.nonf e3 r)), region =>
    finish (.nonf (apply e2 (pair e3 e1)) r) region
  | .nonf e1 .nil, _ => pure e1
  | .inf sym _ e1 (.nonf e2 p), region => do
    err region .complain
      ("expression or pattern ends with infix identifier \"" ++ sym.name ++ "\"")
    finish (.nonf (apply e2 e1) p) region
  | .nil, _ => impossible "Corelang.finish NILf"
  | _, _ => impossible "Corelang.finish"
termination_by p => p.depth
decreasing_by all_goals simp [PrecStack.depth]

def loop (env : StaticEnv) (items : List (FixItem α)) : PrecStack α → List (FixItem α) → Prog α
  | state, a :: rest => do loop env items (← parseStep apply pair state (getfix env a)) rest
  | state, [] => do finish apply pair state (← endloc items)

/-- **The parser.** -/
def parse (items : List (FixItem α)) (env : StaticEnv) : Prog α :=
  match items with
  | item1 :: items' => do
    loop apply pair env items (← ensureNONf (getfix env item1) .nil) items'
  | [] => impossible "precedence:parse"

end Parse

/-! ### Precedence and associativity -/

structure Operator where
  prec : ℤ
  right : Bool

def Operator.fixity (a : Operator) : Fixity :=
  if a.right then infixRight a.prec else infixLeft a.prec

/-- The earlier of two operators takes the operand between them, if it has the higher precedence, or
both have the same one and do not both associate to the right. -/
def Operator.Before (a b : Operator) : Prop :=
  b.prec < a.prec ∨ a.prec = b.prec ∧ ¬ (a.right ∧ b.right)

theorem Operator.exists_fixity (a : Operator) : ∃ lbp rbp, a.fixity = .inFix lbp rbp := by
  unfold Operator.fixity
  split
  · exact ⟨_, _, rfl⟩
  · exact ⟨_, _, rfl⟩

theorem Operator.before_iff {a b : Operator} {l r l' r' : ℤ} (ha : a.fixity = .inFix l r)
    (hb : b.fixity = .inFix l' r') : a.Before b ↔ l' ≤ r := by
  obtain ⟨n, right⟩ := a
  obtain ⟨m, right'⟩ := b
  cases right <;> cases right' <;>
    simp [Operator.fixity, infixLeft, infixRight, Operator.Before] at ha hb ⊢ <;> omega

variable (ops : Symbol → Option Operator)

def declare : StaticEnv := fun sym => (ops sym).map Operator.fixity

def operator (i : FixItem α) : Option Operator := i.fixity.bind ops

def IsInfix (i : FixItem α) : Prop := (operator ops i).isSome

def Before (i j : FixItem α) : Prop := ∃ a b, operator ops i = some a ∧ operator ops j = some b ∧
  a.Before b

/-- The trees of items, which Mathlib's binary trees are not. -/
abbrev Tree := OperatorPrecedence.Tree

def eval (apply pair : α → α → α) : Tree (FixItem α) → α
  | .item i => i.item
  | .app f x => apply (eval apply pair f) (eval apply pair x)
  | .op o l r => apply o.item (pair (eval apply pair l) (eval apply pair r))

def Complained (log : List Report) : Prop := ∃ r ∈ log, r.severity = .complain

/-! ### The stack -/

open Classical

variable {ops} {apply pair : α → α → α} {fs : Frames (FixItem α)} {p s : PrecStack α}
  {i o : FixItem α} {a : Operator} {t : Tree (FixItem α)} {log : List Report}
  {st : State (FixItem α)} {lbp rbp : ℤ}

/-- The stacks of the parser for those of the machine. -/
inductive Stands (ops : Symbol → Option Operator) (apply pair : α → α → α) :
    Frames (FixItem α) → PrecStack α → Prop
  | nil : Stands ops apply pair [] .nil
  | cons {fs p o a l lbp rbp} (sym) : operator ops o = some a → a.fixity = .inFix lbp rbp →
      Stands ops apply pair fs p →
      Stands ops apply pair ((l, o) :: fs) (.inf sym rbp o.item (.nonf (eval apply pair l) p))

def Represents (ops : Symbol → Option Operator) (apply pair : α → α → α) :
    State (FixItem α) → PrecStack α → Prop
  | .wanted fs, s => Stands ops apply pair fs s ∧ fs ≠ []
  | .found fs t, s => ∃ p, s = .nonf (eval apply pair t) p ∧ Stands ops apply pair fs p

theorem complained_append {r : Report} :
    Complained (log ++ [r]) ↔ Complained log ∨ r.severity = .complain := by
  simp [Complained, or_and_right, exists_or]

theorem returns_err {region : Region} {severity : Severity} {message : String} :
    Returns (err region severity message) log fun _ log' =>
      (Complained log' ↔ Complained log ∨ severity = .complain) :=
  ⟨(), _, rfl, complained_append⟩

theorem getfix_of_none (h : operator ops i = none) :
    getfix (declare ops) i = ⟨i.item, .nonFix, i.fixity, i.region⟩ := by
  unfold getfix
  cases hi : i.fixity with
  | none => rfl
  | some sym =>
    rw [operator, hi, Option.bind_some] at h
    simp [lookFix, declare, h]

theorem getfix_of_some (h : operator ops i = some a) :
    ∃ sym, getfix (declare ops) i = ⟨i.item, a.fixity, some sym, i.region⟩ := by
  obtain ⟨sym, hi, ha⟩ := Option.bind_eq_some_iff.1 h
  refine ⟨sym, ?_⟩
  simp [getfix, hi, lookFix, declare, ha]

theorem ensureNONf_spec : Returns (ensureNONf (getfix (declare ops) i) p) log fun s log' =>
    s = .nonf i.item p ∧ (Complained log' ↔ Complained log ∨ IsInfix ops i) := by
  cases hi : operator ops i with
  | none =>
    rw [getfix_of_none hi]
    exact returns_pure ⟨rfl, by simp [IsInfix, hi]⟩
  | some a =>
    obtain ⟨sym, hget⟩ := getfix_of_some hi
    obtain ⟨lbp, rbp, ha⟩ := a.exists_fixity
    rw [hget, ha]
    refine returns_bind_of returns_err fun _ log' hlog => returns_pure ⟨rfl, ?_⟩
    simpa [IsInfix, hi] using hlog

theorem parseStep_binary (hfs : Stands ops apply pair fs p) (hi : operator ops i = some a)
    (ha : a.fixity = .inFix lbp rbp) (sym : Symbol) (t : Tree (FixItem α)) :
    Returns (parseStep apply pair (.nonf (eval apply pair t) p)
      ⟨i.item, .inFix lbp rbp, some sym, i.region⟩) log fun s log' =>
      Represents ops apply pair (.wanted (push (Before ops) fs t i)) s ∧
        (Complained log' ↔ Complained log) := by
  induction hfs generalizing t log with
  | nil =>
    rw [parseStep]
    · exact returns_pure ⟨⟨.cons sym hi ha .nil, List.cons_ne_nil _ _⟩, Iff.rfl⟩
    · simp
  | @cons fs p o b l lbp' bp sym' ho hb hfs ih =>
    have hbefore : Before ops o i ↔ lbp ≤ bp := by
      rw [← Operator.before_iff hb ha]
      simp [Before, ho, hi]
    have hwarn : Returns (if lbp = bp then
        err i.region .warn "mixed left- and right-associative operators of same precedence"
        else pure ()) log fun _ log' => (Complained log' ↔ Complained log) := by
      split
      · exact returns_err.mono fun _ _ h => h.trans (by simp)
      · exact returns_pure Iff.rfl
    rw [parseStep, push]
    split
    · next hlt =>
      rw [if_neg fun h => Int.not_le.2 hlt (hbefore.1 h)]
      exact returns_pure ⟨⟨.cons sym hi ha (.cons sym' ho hb hfs), List.cons_ne_nil _ _⟩, Iff.rfl⟩
    · next hlt =>
      rw [if_pos (hbefore.2 (Int.not_lt.1 hlt))]
      exact returns_bind_of hwarn fun _ log' hlog => (ih (.op o l t)).mono fun s log'' h =>
        ⟨h.1, h.2.trans hlog⟩

theorem parseStep_spec (hs : Represents ops apply pair st s) :
    Returns (parseStep apply pair s (getfix (declare ops) i)) log fun s' log' =>
      Represents ops apply pair (step (IsInfix ops) (Before ops) st i) s' ∧
        (Complained log' ↔ Complained log ∨ st.Wanted ∧ IsInfix ops i) := by
  cases st with
  | wanted fs =>
    obtain ⟨hfs, hne⟩ := hs
    cases hfs with
    | nil => exact absurd rfl hne
    | cons sym ho hb hfs =>
      rw [parseStep]
      refine ensureNONf_spec.mono ?_
      rintro _ log' ⟨rfl, hlog⟩
      exact ⟨⟨_, rfl, .cons sym ho hb hfs⟩, by simpa [State.Wanted] using hlog⟩
  | found fs t =>
    obtain ⟨p, rfl, hfs⟩ := hs
    cases hi : operator ops i with
    | none =>
      have hop : ¬ IsInfix ops i := by simp [IsInfix, hi]
      rw [getfix_of_none hi, parseStep, step, if_neg hop]
      exact returns_pure ⟨⟨p, rfl, hfs⟩, by simp [hop]⟩
    | some a =>
      have hop : IsInfix ops i := by simp [IsInfix, hi]
      obtain ⟨sym, hget⟩ := getfix_of_some hi
      obtain ⟨lbp, rbp, ha⟩ := a.exists_fixity
      rw [hget, ha, step, if_pos hop]
      exact (parseStep_binary hfs hi ha sym t).mono fun s' log' h =>
        ⟨h.1, by simpa [State.Wanted] using h.2⟩

theorem finish_found (hfs : Stands ops apply pair fs p) (t : Tree (FixItem α)) (region : Region) :
    Returns (finish apply pair (.nonf (eval apply pair t) p) region) log fun e log' =>
      e = eval apply pair (close fs t) ∧ log' = log := by
  induction hfs generalizing t with
  | nil =>
    rw [finish]
    exact returns_pure ⟨rfl, rfl⟩
  | cons sym ho hb hfs ih =>
    rw [finish]
    exact ih (.op _ _ t)

theorem finish_spec (hs : Represents ops apply pair st s) (region : Region) :
    Returns (finish apply pair s region) log fun e log' =>
      ∃ t, OperatorPrecedence.finish st = some t ∧ e = eval apply pair t ∧
        (Complained log' ↔ Complained log ∨ st.Wanted) := by
  cases st with
  | wanted fs =>
    obtain ⟨hfs, hne⟩ := hs
    cases hfs with
    | nil => exact absurd rfl hne
    | cons sym ho hb hfs =>
      rw [finish]
      refine returns_bind_of returns_err fun _ log' hlog => ?_
      refine (finish_found hfs (.app _ (.item _)) region).mono ?_
      rintro _ _ ⟨rfl, rfl⟩
      exact ⟨_, rfl, rfl, by simpa [State.Wanted] using hlog⟩
  | found fs t =>
    obtain ⟨p, rfl, hfs⟩ := hs
    refine (finish_found hfs t region).mono ?_
    rintro _ _ ⟨rfl, rfl⟩
    exact ⟨_, rfl, rfl, by simp [State.Wanted]⟩

theorem endloc_spec {items : List (FixItem α)} (hne : items ≠ []) :
    Returns (endloc items) log fun _ log' => log' = log := by
  induction items with
  | nil => exact absurd rfl hne
  | cons i items ih =>
    cases items with
    | nil => exact returns_pure rfl
    | cons j items => exact ih (List.cons_ne_nil _ _)

/-- **The parser does what the machine does**, and complains of each operator where an operand is
wanted. -/
theorem loop_spec {items : List (FixItem α)} (hne : items ≠ []) (rest : List (FixItem α))
    (hs : Represents ops apply pair st s) :
    Returns (loop apply pair (declare ops) items s rest) log fun e log' =>
      ∃ t, OperatorPrecedence.finish (rest.foldl (step (IsInfix ops) (Before ops)) st) = some t ∧
        e = eval apply pair t ∧
        (Complained log' ↔ Complained log ∨ ¬ Fits (IsInfix ops) st.Wanted rest) := by
  induction rest generalizing st s log with
  | nil =>
    rw [loop]
    refine returns_bind_of (endloc_spec hne) ?_
    rintro region _ rfl
    simpa [Fits] using finish_spec hs region
  | cons i rest ih =>
    rw [loop]
    refine returns_bind_of (parseStep_spec hs) ?_
    rintro s' log' ⟨hs', hlog⟩
    refine (ih hs').mono ?_
    rintro e log'' ⟨t, ht, rfl, hlog'⟩
    refine ⟨t, ht, rfl, ?_⟩
    rw [hlog', hlog, Fits]
    by_cases hi : st.Wanted ∧ IsInfix ops i
    · simp [hi]
    · rw [wanted_step hi]
      tauto

/-- **The parser resolves infix expressions.**  For every list of items but the empty one, and all
precedences and associativities, it returns without an error of its own the expression for a tree
with these items from left to right, and it complains exactly when an operator begins or ends the
list or two are adjacent.  Otherwise the tree is the only one that is grouped as the operators
say. -/
theorem parse_correct (apply pair : α → α → α) (ops : Symbol → Option Operator)
    (items : List (FixItem α)) (hne : items ≠ []) :
    Returns (parse apply pair items (declare ops)) [] fun e log => ∃ t : Tree (FixItem α),
      e = eval apply pair t ∧ t.items = items ∧
      (Complained log ↔ ¬ WellFormed (IsInfix ops) items) ∧
      (WellFormed (IsInfix ops) items →
        ∀ t', Grouped (IsInfix ops) (Before ops) t' ∧ t'.items = items ↔ t' = t) := by
  obtain ⟨i, rest, rfl⟩ := List.exists_cons_of_ne_nil hne
  unfold parse
  refine returns_bind_of ensureNONf_spec ?_
  rintro _ log ⟨rfl, hlog⟩
  have hstart : Represents ops apply pair (.found [] (.item i)) _ := ⟨_, rfl, .nil⟩
  refine (loop_spec hne rest hstart).mono ?_
  rintro e log' ⟨t, ht, rfl, hlog'⟩
  have hresolve : resolve (IsInfix ops) (Before ops) (i :: rest) = some t := ht
  refine ⟨t, rfl, items_resolve hresolve, ?_, fun hw t' => ?_⟩
  · rw [hlog', hlog, ← fits_true_iff _ hne, Fits]
    by_cases hi : IsInfix ops i
    · simp [hi]
    · simp [hi, Complained, State.Wanted]
  · have hgroup : ∃ t', resolve (IsInfix ops) (Before ops) (i :: rest) = some t' ∧
        Grouped (IsInfix ops) (Before ops) t' := grouped_resolve hne hw
    obtain ⟨t'', ht'', hgrouped⟩ := hgroup
    obtain rfl : t = t'' := Option.some.inj (hresolve.symm.trans ht'')
    constructor
    · rintro ⟨h, hitems⟩
      have h := resolve_items h
      rw [hitems, hresolve] at h
      exact (Option.some.inj h).symm
    · rintro rfl
      exact ⟨hgrouped, items_resolve hresolve⟩

def sample : List (FixItem String) :=
  [⟨"x", none, (1, 2)⟩, ⟨"+", some ⟨43, "+"⟩, (3, 4)⟩, ⟨"y", none, (5, 6)⟩]

theorem parse_correct_sample : sample ≠ [] ∧
    Returns (parse (· ++ ·) (· ++ ·) sample (declare fun _ => some ⟨6, false⟩)) [] fun e _ =>
      ∃ t : Tree (FixItem String), e = eval (· ++ ·) (· ++ ·) t ∧ t.items = sample := by
  refine ⟨by simp [sample], ?_⟩
  refine (parse_correct (· ++ ·) (· ++ ·) (fun _ => some ⟨6, false⟩) sample
    (by simp [sample])).mono ?_
  rintro e log ⟨t, he, hitems, -⟩
  exact ⟨t, he, hitems⟩

end SmlNj.Precedence
