import SmlNj.CPS.Syntax

/-!
# The target, the exceptions and the variables of the compiler

The sizes of the generic 64-bit target, and the exceptions that the modelled
functions raise.

The state that `LambdaVar.mkLvar` updates, threaded through the functions that build code.
-/

namespace SmlNj

/-- Exceptions of the compiler's own code. -/
inductive Exn
  /-- `Overflow`. -/
  | overflow
  /-- `Div`. -/
  | div
  /-- `Subscript`. -/
  | subscript
  /-- `Fail`. -/
  | fail
  /-- `Match`, a case without a branch. -/
  | nomatch
  /-- `Bind`, a declaration whose pattern does not match. -/
  | bind
  /-- `Empty`, of the head of a list. -/
  | empty
  /-- `UnequalLengths` of two lists. -/
  | unequalLengths
  /-- `ErrorMsg.impossible`, the compiler bug. -/
  | impossible
  deriving DecidableEq, Inhabited

namespace Target

def mlValueSz : ℕ := 64

def defaultIntSz : ℕ := 63

def pointerSz : ℕ := 64

def alignInBytes : ℕ := 8

end Target

/-! ## The supply of fresh variables -/

namespace LambdaVar

/-- Building with fresh variables: the next variable is the state, and the compiler's exceptions
may be raised. -/
abbrev Supply := StateT Lvar (Except Exn)

def mkLvar : Supply Lvar := fun n => .ok (n, n + 1)

def impossible {α : Type} : Supply α := fun _ => .error .impossible

theorem mkLvar_bind {α : Type} (f : Lvar → Supply α) (n : Lvar) :
    (mkLvar >>= f) n = f n (n + 1) := rfl

theorem lift_bind {α β : Type} {m : Except Exn α} {a : α} (h : m = .ok a) (f : α → Supply β)
    (n : Lvar) : ((liftM m : Supply α) >>= f) n = f a n := by
  subst h
  rfl

theorem run_bind {α β : Type} {m : Supply α} {a : α} {n n' : Lvar} (h : m n = .ok (a, n'))
    (f : α → Supply β) : (m >>= f) n = f a n' := by
  change (m n >>= fun q => f q.1 q.2) = _
  rw [h]
  rfl

end LambdaVar

end SmlNj
