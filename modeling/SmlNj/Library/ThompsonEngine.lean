import SmlNj.Library.RegExpSyntax

/-!
# The engine of Thompson

The compilation of regular expressions into nondeterministic automata, whose fragments have dangling
outputs that are patched, and the simulation of the automata, which keeps sets of states by time
stamps.

## Main definitions

* `reComp`, `compile` — the compilation.  References are kept in a heap.
* `add`, `scan`, `find'`, `prefix'` — the simulation.
-/

namespace SmlNj.RegExp.ThompsonEngine

/-! ### Compilation -/

/-- The kinds of the states of the compilation; an output is a reference to a state. -/
inductive Kind'
  | CHR' (c : Char) (out : ℕ)
  | CSET' (set : Finset Char) (out : ℕ)
  | NCSET' (set : Finset Char) (out : ℕ)
  | SPLIT' (out1 out2 : ℕ)
  | BOL' (out : ℕ)
  | EOL' (out : ℕ)
  | FINAL'
  deriving DecidableEq

/-- The states of the compilation. -/
structure State' where
  id : ℕ
  kind : Kind'
  deriving DecidableEq

/-- A fragment of an automaton: its start state and its dangling outputs. -/
structure Frag where
  start : State'
  /-- The references that are to be set to the state that follows. -/
  out : List ℕ

def final : State' := { id := 0, kind := .FINAL' }

/-- The states of the automaton. -/
inductive State
  | CHR (c : Char) (out : ℕ)
  | CSET (set : Finset Char) (out : ℕ)
  | NCSET (set : Finset Char) (out : ℕ)
  | SPLIT (out1 out2 : ℕ)
  | BOL (out : ℕ)
  | EOL (out : ℕ)
  | FINAL
  deriving DecidableEq

/-- The state of the compilation. -/
structure Compiler where
  nStates : ℕ
  states : List State'
  heap : List State'

/-- Steps of the compilation, which may fail because the expression cannot be compiled. -/
abbrev M := StateT Compiler Option

def cannotCompile {α : Type} : M α := fun _ => none

def new (kind : Kind') : M State' := fun σ =>
  let s := { id := σ.nStates, kind := kind }
  some (s, { σ with states := s :: σ.states, nStates := σ.nStates + 1 })

def ref (s : State') : M ℕ := fun σ => some (σ.heap.length, { σ with heap := σ.heap ++ [s] })

def setOuts (f : Frag) (s : State') : M Unit := fun σ =>
  some ((), { σ with heap := f.out.foldl (fun heap r => heap.set r s) σ.heap })

/-- One expression after the other. -/
def cat (c1 c2 : M Frag) : M Frag := do
  let f1 ← c1
  let f2 ← c2
  setOuts f1 f2.start
  return { start := f1.start, out := f2.out }

/-- An expression or nothing. -/
def option (c : M Frag) : M Frag := do
  let f ← c
  let out ← ref final
  let s ← new (.SPLIT' (← ref f.start) out)
  return { start := s, out := out :: f.out }

/-- An expression any number of times. -/
def closureComp (c : M Frag) : M Frag := do
  let f ← c
  let out ← ref final
  let s ← new (.SPLIT' (← ref f.start) out)
  setOuts f s
  return { start := s, out := [out] }

/-- An expression at least once. -/
def posClosureComp (c : M Frag) : M Frag := do
  let f ← c
  let out ← ref final
  let s ← new (.SPLIT' (← ref f.start) out)
  setOuts f s
  return { start := f.start, out := [out] }

/-- The iterations after the least number, with one reference for all exits. -/
def mkSuffix (c : M Frag) (out : ℕ) : ℕ → M Frag
  -- there is at least one iteration
  | 0 => cannotCompile
  | 1 => c
  | i + 2 => do
    let f ← c
    let f' ← mkSuffix c out (i + 1)
    let s ← new (.SPLIT' out (← ref f.start))
    setOuts f f'.start
    return { start := s, out := out :: f'.out }

/-- The least number of iterations, followed by the suffix if there is one. -/
def mkPrefix (c : M Frag) (suffixOpt : Option Frag) : ℕ → M Frag
  | 0 =>
    match suffixOpt with
    | none => cannotCompile
    | some suffix => return suffix
  | 1 => do
    let f ← c
    match suffixOpt with
    | none => return f
    | some suffix =>
      setOuts f suffix.start
      return { start := f.start, out := suffix.out }
  | i + 2 => do
    let f ← c
    let f' ← mkPrefix c suffixOpt (i + 1)
    setOuts f f'.start
    return { start := f.start, out := f'.out }

/-- The suffix of an interval. -/
def suffixOpt (c : M Frag) (min : ℕ) : Option ℕ → M (Option Frag)
  | none => do return some (← closureComp c)
  | some m => do
    if m < min then cannotCompile
    else if m = min then return none
    else
      let out ← ref final
      return some (← mkSuffix c out (m - min))

/-- An expression whose number of iterations is in an interval. -/
def interval (c : M Frag) : ℕ → Option ℕ → M Frag
  | 0, some 1 => option c
  | 0, none => closureComp c
  | 1, none => posClosureComp c
  | min, optMax => do mkPrefix c (← suffixOpt c min optMax) min

def single (kind : ℕ → Kind') : M Frag := do
  let out ← ref final
  let s ← new (kind out)
  return { start := s, out := [out] }

mutual

/-- The compilation of an expression. -/
def reComp : Syntax → M Frag
  | .Group re => reComp re
  | .Alt l => altComp l
  | .Concat l => concatComp l
  | .Interval re min optMax => interval (reComp re) min optMax
  | .MatchSet cset => single (.CSET' cset)
  | .NonmatchSet cset => single (.NCSET' cset)
  | .Char c => single (.CHR' c)
  | .Begin => single .BOL'
  | .End => single .EOL'

/-- The compilation of alternatives. -/
@[grind =] def altComp : List Syntax → M Frag
  | [] => cannotCompile
  | [re] => reComp re
  | re :: rest => do
    let f1 ← reComp re
    let f2 ← altComp rest
    let s ← new (.SPLIT' (← ref f1.start) (← ref f2.start))
    return { start := s, out := f1.out ++ f2.out }

def concatComp : List Syntax → M Frag
  | [] => cannotCompile
  | [re] => reComp re
  | re :: rest => cat (reComp re) (concatComp rest)

end

def deref (heap : List State') (r : ℕ) : ℕ := (heap.getD r final).id

/-- The state of the automaton for a state of the compilation. -/
def cvtState (heap : List State') (s : State') : State :=
  match s.kind with
  | .CHR' c out => .CHR c (deref heap out)
  | .CSET' cset out => .CSET cset (deref heap out)
  | .NCSET' cset out => .NCSET cset (deref heap out)
  | .SPLIT' out1 out2 => .SPLIT (deref heap out1) (deref heap out2)
  | .BOL' out => .BOL (deref heap out)
  | .EOL' out => .EOL (deref heap out)
  | .FINAL' => .FINAL

/-- An automaton: the number of its start state, and its states by their numbers. -/
structure RE where
  start : ℕ
  /-- The states; the first one is accepting. -/
  states : List State
  deriving DecidableEq

/-- The state of the compilation at its start: there is the accepting state. -/
def Compiler.init : Compiler := { nStates := 1, states := [final], heap := [] }

/-- **The compilation**. -/
def compile (re : Syntax) : Option RE := do
  let (frag, σ) ← reComp re .init
  let ((), σ) ← setOuts frag final σ
  return { start := frag.start.id, states := (σ.states.map (cvtState σ.heap)).reverse }

/-! ### Simulation -/

def isEOL : List Char → Bool
  | [] => true
  | c :: _ => c == '\n'

section Scan

variable (nfa : RE)

def RE.sub (id : ℕ) : State := nfa.states.getD id .FINAL

/-- The closure of a state without reading is added to a list of states, unless the state has been
stamped.  The stamps are those of the last set that each state was added to.  The recursion stamps
a state before it goes on, so that the number of states bounds its depth. -/
def add (isFirst : Bool) (strm : List Char) (stamp' : ℕ) :
    ℕ → List ℕ × List State → ℕ → List ℕ × List State
  | 0, acc, _ => acc
  | fuel + 1, (lastStamp, stateList), id =>
    if lastStamp.getD id 0 = stamp' then (lastStamp, stateList)
    else
      let lastStamp := lastStamp.set id stamp'
      match nfa.sub id with
      | .SPLIT out1 out2 =>
        add isFirst strm stamp' fuel (add isFirst strm stamp' fuel (lastStamp, stateList) out1) out2
      | .BOL out =>
        if isFirst then add isFirst strm stamp' fuel (lastStamp, stateList) out
        else (lastStamp, stateList)
      | .EOL out =>
        if isEOL strm then add isFirst strm stamp' fuel (lastStamp, stateList) out
        else (lastStamp, stateList)
      | state => (lastStamp, state :: stateList)

def addState (isFirst : Bool) (strm : List Char) (stamp' : ℕ) (acc : List ℕ × List State)
    (id : ℕ) : List ℕ × List State :=
  add nfa isFirst strm stamp' nfa.states.length acc id

/-- The states after a character from those before it. -/
def test (isFirst : Bool) (strm' : List Char) (stamp' : ℕ) (c : Char) :
    List State → List ℕ × List State → List ℕ × List State
  | [], acc => acc
  | s :: r, acc =>
    match s with
    | .CHR c' out =>
      if c = c' then test isFirst strm' stamp' c r (addState nfa isFirst strm' stamp' acc out)
      else test isFirst strm' stamp' c r acc
    | .CSET cset out =>
      if c ∈ cset then test isFirst strm' stamp' c r (addState nfa isFirst strm' stamp' acc out)
      else test isFirst strm' stamp' c r acc
    | .NCSET cset out =>
      if c ∈ cset then test isFirst strm' stamp' c r acc
      else test isFirst strm' stamp' c r (addState nfa isFirst strm' stamp' acc out)
    | _ => test isFirst strm' stamp' c r acc

def isMatch (lastStamp : List ℕ) (stamp : ℕ) : Bool := lastStamp.getD 0 0 == stamp

/-- The scan of the input after `n` characters, with the last stamp and the states of its set. -/
def scan : Bool → ℕ → List Char → ℕ → List ℕ → List State → Option (ℕ × List Char) →
    Option (ℕ × List Char)
  | _, _, [], _, _, _, lastMatch => lastMatch
  | isFirst, n, c :: strm', stamp, lastStamp, nfaStates, lastMatch =>
    let stamp' := stamp + 1
    match test nfa isFirst strm' stamp' c nfaStates (lastStamp, []) with
    | (_, []) => lastMatch
    | (lastStamp, next) =>
      let lastMatch := if isMatch lastStamp stamp' then some (n + 1, strm') else lastMatch
      scan (c == '\n') (n + 1) strm' stamp' lastStamp next lastMatch

/-- The attempt to match at a position of the stream: the length of the match and the rest. -/
def find' (isFirst : Bool) (strm : List Char) : Option (ℕ × List Char) :=
  let stamp' := 1 + 1
  let (lastStamp, nfaStart) :=
    addState nfa isFirst strm stamp' (List.replicate nfa.states.length 0, []) nfa.start
  let lastMatch := if isMatch lastStamp stamp' then some (0, strm) else none
  scan nfa isFirst 0 strm stamp' lastStamp nfaStart lastMatch

/-- **The match at the start of the input**. -/
def prefix' (strm : List Char) : Option (ℕ × List Char) := find' nfa true strm

end Scan

end SmlNj.RegExp.ThompsonEngine
