import SmlNj.Library.ListSet
import SmlNj.Library.RegExpSyntax
import Mathlib.Data.Char
import Mathlib.Data.Finset.Sort
import Mathlib.Data.Prod.Lex

/-!
# Finite-state machines of regular expressions

The nondeterministic automata that are built from regular expressions, with moves that read nothing,
and the deterministic automata that are built from them by the subset construction.  A character of
the source has a code below 256, which is an index into the tables.

## Main definitions

* `Nfa`, `Nfa.build'`, `Nfa.buildPattern` — the nondeterministic automata.
* `Nfa.closure`, `Nfa.move` — the states that are reached.
* `Dfa`, `Dfa.build'` — the deterministic automata.
-/

namespace SmlNj.RegExp

/-- A move from one state to another, which reads a character or nothing. -/
structure Move where
  src : ℕ
  char : Option Char
  dst : ℕ
  deriving DecidableEq

namespace Move

/-- Moves are compared by their source, their character and their destination; no character is less
than any. -/
def key (m : Move) : ℕ ×ₗ (WithBot Char ×ₗ ℕ) := toLex (m.src, toLex (m.char, m.dst))

theorem key_injective : Function.Injective key := by
  rintro ⟨i, c, j⟩ ⟨i', c', j'⟩ h
  obtain ⟨rfl, h⟩ := Prod.mk.inj (toLex.injective h)
  obtain ⟨rfl, rfl⟩ := Prod.mk.inj (toLex.injective h)
  rfl

instance : LinearOrder Move := LinearOrder.lift' key key_injective

end Move

def allChars : Finset Char := (Finset.range 256).image Char.ofNat

/-- A nondeterministic automaton; an accepting state comes with the number of its pattern. -/
structure Nfa where
  states : ListSet ℕ
  moves : ListSet Move
  accepting : ListSet (ℕ ×ₗ ℕ)

namespace Nfa

/-! ### Construction -/

def nullAccept (n : ℕ) : Nfa where
  states := ListSet.empty.addList [0, 1]
  moves := ListSet.empty.add ⟨0, none, 1⟩
  accepting := .singleton (toLex (1, n))

def nullRefuse (n : ℕ) : Nfa where
  states := ListSet.empty.addList [0, 1]
  moves := .empty
  accepting := .singleton (toLex (1, n))

def renumber (n st : ℕ) : ℕ := n + st

def renumberMove (n : ℕ) (m : Move) : Move := ⟨renumber n m.src, m.char, renumber n m.dst⟩

def renumberAcc (n : ℕ) (acc : ℕ ×ₗ ℕ) : ℕ ×ₗ ℕ := toLex (n + (ofLex acc).1, (ofLex acc).2)

/-- A choice between two automata. -/
def altStep (n : ℕ) (nfa1 nfa2 : Nfa) : Nfa :=
  let k1 := nfa1.states.numItems
  let k2 := nfa2.states.numItems
  let s1' := nfa1.states.map (renumber 1)
  let s2' := nfa2.states.map (renumber (k1 + 1))
  let m1' := nfa1.moves.map (renumberMove 1)
  let m2' := nfa2.moves.map (renumberMove (k1 + 1))
  { states := (s1'.union s2').addList [0, k1 + k2 + 1]
    moves := (m1'.union m2').addList
      [⟨0, none, 1⟩, ⟨0, none, k1 + 1⟩, ⟨k1, none, k1 + k2 + 1⟩, ⟨k1 + k2, none, k1 + k2 + 1⟩]
    accepting := .singleton (toLex (k1 + k2 + 1, n)) }

def alt (n : ℕ) (l : List Nfa) : Nfa := l.foldr (altStep n) (nullRefuse n)

/-- Two automata one after the other: the accepting state of the first is the start of the
second. -/
def concatStep (nfa1 nfa2 : Nfa) : Nfa :=
  let k := nfa1.states.numItems - 1
  let s2' := nfa2.states.map (renumber k)
  let m2' := nfa2.moves.map (renumberMove k)
  let accepting' := nfa2.accepting.map (renumberAcc k)
  { states := nfa1.states.union s2', moves := nfa1.moves.union m2', accepting := accepting' }

def concat (n : ℕ) (l : List Nfa) : Nfa := l.foldr concatStep (nullAccept n)

/-- An automaton at least once. -/
def repeated (n : ℕ) (nfa : Nfa) : Nfa :=
  let m := nfa.states.numItems
  { states := nfa.states.add m
    moves := nfa.moves.addList [⟨m - 1, none, m⟩, ⟨m - 1, none, 0⟩]
    accepting := .singleton (toLex (m, n)) }

def oneOf (n : ℕ) (s : Finset Char) : Nfa where
  states := ListSet.empty.addList [0, 1]
  moves := (s.sort (· ≤ ·)).foldl (fun moveSet c => moveSet.add ⟨0, some c, 1⟩) .empty
  accepting := .singleton (toLex (1, n))

mutual

/-- **The automaton of an expression**, for the pattern of a number.  Other intervals and the anchors
are not handled. -/
def build' (n : ℕ) : Syntax → Option Nfa
  | .Group e => build' n e
  | .Alt l => (buildList n l).map (alt n)
  | .Concat l => (buildList n l).map (concat n)
  -- an expression that is optional is an alternative to the empty one
  | .Interval e 0 (some 1) => (build' n e).map fun nfa => alt n [concat n [], nfa]
  | .Interval e 0 none => (build' n e).map fun nfa => alt n [concat n [], repeated n nfa]
  | .Interval e 1 none => (build' n e).map (repeated n)
  | .Interval _ _ _ => none
  | .MatchSet s => some (if s = ∅ then nullAccept n else oneOf n s)
  | .NonmatchSet s => some (oneOf n (allChars \ s))
  | .Char c => some
      { states := ListSet.empty.addList [0, 1], moves := .singleton ⟨0, some c, 1⟩
        accepting := .singleton (toLex (1, n)) }
  | .Begin => none
  | .End => none

def buildList (n : ℕ) : List Syntax → Option (List Nfa)
  | [] => some []
  | e :: l => do
      let nfa ← build' n e
      let nfas ← buildList n l
      some (nfa :: nfas)

end

def build (r : Syntax) (n : ℕ) : Option Nfa := build' n r

/-- The automata of some patterns, which are numbered. -/
def buildAll : List Syntax → ℕ → Option (List Nfa)
  | [], _ => some []
  | r :: rs, n => do
      let nfa ← build r n
      let nfas ← buildAll rs (n + 1)
      some (nfa :: nfas)

/-- What is added to the numbers of the states of some automata, after a new start state. -/
def renums (rs' : List Nfa) : List ℕ :=
  rs'.foldr (fun nfa acc => 1 :: acc.map fun k => k + nfa.states.numItems) []

def renumberNfa (nfa : Nfa) (renum : ℕ) : Nfa where
  states := nfa.states.map (renumber renum)
  moves := nfa.moves.map (renumberMove renum)
  accepting := nfa.accepting.map (renumberAcc renum)

/-- **The automaton of some patterns.** -/
def buildPattern (rs : List Syntax) : Option Nfa := do
  let rs' ← buildAll rs 0
  let news := List.zipWith renumberNfa rs' (renums rs')
  some <| news.foldl
    (fun acc nfa =>
      { states := nfa.states.union acc.states, moves := nfa.moves.union acc.moves
        accepting := nfa.accepting.union acc.accepting })
    { states := .singleton 0
      moves := ListSet.empty.addList ((renums rs').map fun k => ⟨0, none, k⟩)
      accepting := .empty }

/-! ### The states that are reached -/

variable (nfa : Nfa)

def accepted (state : ℕ) : Option ℕ :=
  (nfa.accepting.items.find? fun p => (ofLex p).1 = state).map fun p => (ofLex p).2

/-- The states that are reached from a state by one move with a character. -/
def oneMove (orig : ℕ) (char : Char) : ListSet ℕ :=
  nfa.moves.items.foldr
    (fun m set =>
      match m.char with
      | none => set
      | some c => if c = char ∧ m.src = orig then set.add m.dst else set)
    .empty

/-- Add the destination of a move that reads nothing, when its source is there. -/
def addState (m : Move) (acc : Bool × ListSet ℕ) : Bool × ListSet ℕ :=
  match m.char with
  | none =>
      if acc.2.member m.src && !acc.2.member m.dst then (true, acc.2.add m.dst) else acc
  | some _ => acc

/-- Rounds through the moves that read nothing, until one changes nothing.  Each other round adds the
destination of some move, so there are not more of them than moves. -/
def closureLoop : ℕ → ListSet ℕ → Option (ListSet ℕ)
  | 0, _ => none
  | fuel + 1, states =>
      let new := nfa.moves.items.foldr addState (false, states)
      if new.1 then closureLoop fuel new.2 else some new.2

/-- The states that are reached from some states without reading. -/
def closure (origSet : ListSet ℕ) : Option (ListSet ℕ) :=
  closureLoop nfa (nfa.moves.numItems + 1) origSet

def move (state : ℕ) (c : Char) : Option (ListSet ℕ) := closure nfa (oneMove nfa state c)

def start : Option (ListSet ℕ) := closure nfa (.singleton 0)

/-- The characters that a state reads. -/
def chars (state : ℕ) : List Char :=
  (nfa.moves.items.foldl
    (fun s m =>
      match m.char with
      | none => s
      | some c => if m.src = state then s.add c else s)
    (ListSet.empty : ListSet Char)).items

end Nfa

/-- A deterministic automaton, with the tables of its moves, of what its states accept and of the
characters that it starts with. -/
structure Dfa where
  states : ListSet ℕ
  moves : ListSet Move
  accepting : ListSet (ℕ ×ₗ ℕ)
  table : List (List (Option ℕ))
  accTable : List (Option ℕ)
  startTable : List Bool

namespace Dfa

def move' (moves : ListSet Move) (i : ℕ) (c : Char) : Option ℕ :=
  (moves.items.find? fun m => m.src = i ∧ m.char = some c).map Move.dst

/-- The move in the table.  The state has a row, and the character has a column. -/
def move (dfa : Dfa) (i : ℕ) (c : Char) : Option ℕ := (dfa.table.getD i []).getD c.toNat none

def accepting' (accepting : ListSet (ℕ ×ₗ ℕ)) (i : ℕ) : Option ℕ :=
  accepting.items.foldr
    (fun p acc => if (ofLex p).1 = i then some (ofLex p).2 else acc) none

def accepted (dfa : Dfa) (i : ℕ) : Option ℕ := dfa.accTable.getD i none

def canStart (dfa : Dfa) (c : Char) : Bool := dfa.startTable.getD c.toNat false

section Build

variable (nfa : Nfa)

def getAllChars (ps : ListSet ℕ) : ListSet Char :=
  ps.items.foldl (fun cs s => cs.addList (nfa.chars s)) .empty

def getAllStates (ps : ListSet ℕ) (c : Char) : Option (ListSet ℕ) :=
  ps.items.foldlM (fun ss s => (nfa.move s c).map ss.union) .empty

abbrev SetMove := ListSet ℕ × Char × ListSet ℕ

/-- The moves of a set of states with some characters, and the sets among their destinations that
are new: as a stack and as a set. -/
def visit (x : ListSet ℕ) (set : ListSet (ListSet ℕ)) (cl : List Char) :
    Option (List (ListSet ℕ) × ListSet (ListSet ℕ) × List SetMove) :=
  cl.foldlM
    (fun (ns, sd, ml) c => do
      let u ← getAllStates nfa x c
      if !set.member u && !sd.member u then some (u :: ns, sd.add u, (x, c, u) :: ml)
      else some (ns, sd, (x, c, u) :: ml))
    ([], .empty, [])

/-- The sets of states that are reached from those on a stack, and the moves between them.  Every
set is on the stack once. -/
def loop : ℕ → List (ListSet ℕ) → ListSet (ListSet ℕ) → List SetMove →
    Option (ListSet (ListSet ℕ) × List SetMove)
  | _, [], set, moves => some (set, moves)
  | 0, _ :: _, _, _ => none
  | fuel + 1, x :: xs, set, moves => do
      let (nstack, sdu, ml) ← visit nfa x set (getAllChars nfa x).items
      loop fuel (nstack ++ xs) (set.union sdu) (ml ++ moves)

/-- The map from sets of states to their numbers; a set is never inserted twice. -/
abbrev NumMap := List (ListSet ℕ × ℕ)

def NumMap.find (map : NumMap) (is : ListSet ℕ) : Option ℕ := List.lookup is map

/-- The sets of states other than the start are numbered from 1; this is the map and the next
number. -/
def numberSets (start : ListSet ℕ) (sSet' : ListSet (ListSet ℕ)) : NumMap × ℕ :=
  sSet'.items.foldl (fun (map, num) is => ((is, num) :: map, num + 1)) ([(start, 0)], 1)

/-- The least number of a pattern that some accepting states accept. -/
def minPattern (accSet : ListSet ℕ) : Option ℕ := do
  match ← accSet.items.mapM nfa.accepted with
  | [] => none
  | hd :: tl => some (tl.foldl (fun min n => if n < min then n else min) hd)

/-- The accepting states with the numbers of their patterns. -/
def acceptSets (sMap : NumMap) (sSet : ListSet (ListSet ℕ)) : Option (ListSet (ℕ ×ₗ ℕ)) :=
  sSet.items.foldlM
    (fun cis is =>
      let items := is.filter fun k => (nfa.accepted k).isSome
      if items.isEmpty then some cis
      else do
        let i ← sMap.find is
        let n ← minPattern nfa items
        some (cis.add (toLex (i, n))))
    .empty

/-- The automaton of some moves, with its tables. -/
def tabulate (num : ℕ) (moves : ListSet Move) (accept : ListSet (ℕ ×ₗ ℕ))
    (initChars : ListSet Char) : Dfa where
  states := ListSet.empty.addList (List.range num)
  moves := moves
  accepting := accept
  table := (List.range num).map fun s =>
    (List.range 256).map fun c => move' moves s (Char.ofNat c)
  accTable := (List.range num).map (accepting' accept)
  startTable := (List.range 256).map fun c => initChars.member (Char.ofNat c)

/-- **The subset construction.** -/
def build' : Option Dfa := do
  let start ← nfa.start
  let initChars := getAllChars nfa start
  let (sSet, mList) ← loop nfa (2 ^ nfa.states.numItems + 1) [start] (.singleton start) []
  let sSet' ← sSet.delete start
  let (sMap, num) := numberSets start sSet'
  let mvs ← mList.mapM fun (is1, c, is2) => do
    let i ← sMap.find is1
    let j ← sMap.find is2
    some (⟨i, some c, j⟩ : Move)
  let moves := ListSet.empty.addList mvs
  let accept ← acceptSets nfa sMap sSet
  some (tabulate num moves accept initChars)

def build (r : Syntax) : Option Dfa := do build' (← Nfa.build r 0)

def buildPattern (rs : List Syntax) : Option Dfa := do build' (← Nfa.buildPattern rs)

end Build

end Dfa

end SmlNj.RegExp
