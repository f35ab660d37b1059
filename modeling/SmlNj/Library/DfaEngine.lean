import SmlNj.Library.DfaBuild
import SmlNj.Library.ThompsonScan

/-!
# The engine with deterministic automata

The engine builds the deterministic automaton of some patterns and runs it on the input.  It keeps
the last prefix with which the automaton was in an accepting state; when there is no move, no longer
prefix is in the language of a pattern.

## Main definitions

* `loop`, `scan`, `find` — the engine.
* `Scans`, `Finds` — what the engine is for: the longest prefix that is matched by a pattern, and
  the leftmost position with such a prefix.

## Main results

* `loop_longest` — the run of the automaton.
* `scan_scans`, `find_finds` — the engine with the automaton of some languages.
* `dfaEngine_correct` — the engine with the automaton of some expressions.
-/

namespace SmlNj.RegExp.DfaEngine

open Nfa Dfa ThompsonEngine

/-! ### The engine -/

/-- A match: the stream where it starts, and its length. -/
structure Match where
  pos : List Char
  len : ℕ
  deriving DecidableEq

/-- The moves of the automaton on a stream.  The result is the position after the longest prefix
that is accepted, the stream there, and the number of the pattern. -/
def loop (dfa : Dfa) : ℕ → ℕ → List Char → Option (ℕ × List Char × ℕ) →
    Option (ℕ × List Char × ℕ)
  | _, _, [], lastAccepting => lastAccepting
  | state, p, c :: s', lastAccepting =>
    match dfa.move state c with
    | none => lastAccepting
    | some new =>
      match dfa.accepted new with
      | some n => loop dfa new (p + 1) s' (some (p + 1, s', n))
      | none => loop dfa new (p + 1) s' lastAccepting

def try0 (dfa : Dfa) (stream : List Char) : Option (ℕ × Match × List Char) :=
  match dfa.accepted 0 with
  | some n => some (n, ⟨stream, 0⟩, stream)
  | none => none

/-- **The match at the start of a stream**, with the number of the pattern and the rest of the
stream. -/
def scan (dfa : Dfa) (p : ℕ) (stream : List Char) : Option (ℕ × Match × List Char) :=
  match stream with
  | [] => try0 dfa stream
  | _ :: _ =>
    match loop dfa 0 p stream none with
    | none => try0 dfa stream
    | some (last, cs, n) => some (n, ⟨stream, last - p⟩, cs)

def findLoop (dfa : Dfa) : ℕ → List Char → Option (Match × List Char)
  | p, s =>
    match scan dfa p s with
    | none =>
      match s with
      | _ :: s' => findLoop dfa (p + 1) s'
      | [] => none
    | some (_, m, cs) => some (m, cs)

/-- **The first match in a stream**, with the rest of the stream. -/
def find (dfa : Dfa) (stream : List Char) : Option (Match × List Char) := findLoop dfa 0 stream

variable {nfa : Nfa} {dfa : Dfa} {all : List (ListSet ℕ)} {Ls : ℕ → Language Char}
  {stream w : List Char} {i p : ℕ}

def anyLang (Ls : ℕ → Language Char) : Language Char := {w | ∃ i, w ∈ Ls i}

/-- **The match at the start of a stream**: the longest prefix that is in one of some languages,
and the least number of a language that it is in. -/
def Scans (Ls : ℕ → Language Char) (stream : List Char) : Option (ℕ × Match × List Char) → Prop
  | some (n, m, rest) => m.pos = stream ∧
      LongestPrefix (anyLang Ls) stream (some (m.len, rest)) ∧
      IsLeast {i | stream.take m.len ∈ Ls i} n
  | none => LongestPrefix (anyLang Ls) stream none

/-- **The leftmost match in a stream**: there is none at the positions before it. -/
def Finds (Ls : ℕ → Language Char) (stream : List Char) : Option (Match × List Char) → Prop
  | some (m, rest) => ∃ k ≤ stream.length, m.pos = stream.drop k ∧
      LongestPrefix (anyLang Ls) (stream.drop k) (some (m.len, rest)) ∧
      ∀ j < k, LongestPrefix (anyLang Ls) (stream.drop j) none
  | none => ∀ k ≤ stream.length, LongestPrefix (anyLang Ls) (stream.drop k) none

/-! ### The run of the automaton -/

def Reached (nfa : Nfa) (all : List (ListSet ℕ)) (i : ℕ) (w : List Char) : Prop :=
  ∃ x, all[i]? = some x ∧ toSet x = nfa.toεNFA.eval w

theorem Reached.accepted_iff (h : Reached nfa all i w) (hnfa : Recognizes nfa Ls)
    (hdfa : Determinizes nfa dfa all) (hw : IsWord w) (n : ℕ) :
    dfa.accepted i = some n ↔ IsLeast {j | w ∈ Ls j} n := by
  obtain ⟨x, hx, hset⟩ := h
  have hpatterns : patterns nfa x = {j | w ∈ Ls j} := by
    ext j
    rw [Set.mem_ofPred_eq, ← hnfa.words w hw j, ← hset]
    constructor
    · rintro ⟨q, hq, hacc⟩
      exact ⟨q, hacc, hq⟩
    · rintro ⟨q, hacc, hq⟩
      exact ⟨q, hq, hacc⟩
  rw [hdfa.accepted i x hx n, hpatterns]

theorem Reached.accepted_isSome (h : Reached nfa all i w) (hnfa : Recognizes nfa Ls)
    (hdfa : Determinizes nfa dfa all) (hw : IsWord w) :
    (dfa.accepted i).isSome = true ↔ w ∈ anyLang Ls := by
  rw [Option.isSome_iff_exists]
  constructor
  · rintro ⟨n, hn⟩
    exact ⟨n, ((h.accepted_iff hnfa hdfa hw n).1 hn).1⟩
  · rintro ⟨j, hj⟩
    have hmem : ∃ j, w ∈ Ls j := ⟨j, hj⟩
    classical
    exact ⟨Nat.find hmem, (h.accepted_iff hnfa hdfa hw _).2
      ⟨Nat.find_spec hmem, fun m hm => Nat.find_min' hmem hm⟩⟩

theorem Reached.move {c : Char} {j : ℕ} (h : Reached nfa all i w) (hdfa : Determinizes nfa dfa all)
    (hc : c ∈ allChars) (hj : dfa.move i c = some j) : Reached nfa all j (w ++ [c]) := by
  obtain ⟨x, hx, hset⟩ := h
  rcases hdfa.move i x c hx hc with ⟨hnone, -⟩ | ⟨j', u, hj', hu, hset'⟩
  · rw [hj] at hnone
    cases hnone
  · obtain rfl := Option.some.inj (hj.symm.trans hj')
    refine ⟨u, hu, ?_⟩
    rw [hset', hset, εNFA.eval_append_singleton]

theorem Reached.not_mem {c : Char} (h : Reached nfa all i w) (hnfa : Recognizes nfa Ls)
    (hdfa : Determinizes nfa dfa all) {v : List Char} (hw : IsWord (w ++ c :: v))
    (hmove : dfa.move i c = none) : w ++ c :: v ∉ anyLang Ls := by
  rintro ⟨n, hn⟩
  obtain ⟨q, -, hq⟩ := (hnfa.words _ hw n).2 hn
  obtain ⟨x, hx, hset⟩ := h
  have hc : c ∈ allChars := hw c (List.mem_append_right _ List.mem_cons_self)
  rcases hdfa.move i x c hx hc with ⟨-, hempty⟩ | ⟨j, u, hj, -⟩
  · have heval : nfa.toεNFA.eval (w ++ c :: v) = ∅ := by
      rw [hset] at hempty
      rw [εNFA.eval, εNFA.evalFrom, List.foldl_append, List.foldl_cons]
      change List.foldl nfa.toεNFA.stepSet (nfa.toεNFA.stepSet (nfa.toεNFA.eval w) c) v = ∅
      rw [hempty]
      have hnil := nfa.toεNFA.evalFrom_empty v
      rwa [εNFA.evalFrom, εNFA.εClosure_empty] at hnil
    rw [heval] at hq
    exact hq
  · rw [hmove] at hj
    cases hj

/-- The words other than the empty one: the engine tries the empty prefix last. -/
def nonempty (L : Language Char) : Language Char := {w | w ≠ [] ∧ w ∈ L}

/-- The length of a prefix that ends at a position, and the rest. -/
def lastPrefix (p : ℕ) (o : Option (ℕ × List Char × ℕ)) : Option (ℕ × List Char) :=
  o.map fun (last, cs, _) => (last - p, cs)

def Numbered (Ls : ℕ → Language Char) (stream : List Char) (p : ℕ)
    (o : Option (ℕ × List Char × ℕ)) : Prop :=
  ∀ last cs n, o = some (last, cs, n) → IsLeast {j | stream.take (last - p) ∈ Ls j} n

/-- **The run of the automaton** finds the longest prefix that is not empty. -/
theorem loop_longest (hnfa : Recognizes nfa Ls) (hdfa : Determinizes nfa dfa all)
    (hword : IsWord stream) (p : ℕ) :
    ∀ (s w : List Char) (i : ℕ) (lastAccepting : Option (ℕ × List Char × ℕ)), stream = w ++ s →
      Reached nfa all i w →
      LongestSoFar (nonempty (anyLang Ls)) stream w.length (lastPrefix p lastAccepting) →
      Numbered Ls stream p lastAccepting →
      LongestPrefix (nonempty (anyLang Ls)) stream
          (lastPrefix p (loop dfa i (p + w.length) s lastAccepting)) ∧
        Numbered Ls stream p (loop dfa i (p + w.length) s lastAccepting) := by
  intro s
  induction s with
  | nil =>
    intro w i lastAccepting hin _ hlast hnum
    rw [List.append_nil] at hin
    subst hin
    exact ⟨longestPrefix_of_soFar hlast le_rfl fun m hlt hle => absurd hle hlt.not_ge, hnum⟩
  | cons c s ih =>
    intro w i lastAccepting hin hi hlast hnum
    have hin' : stream = (w ++ [c]) ++ s := by rw [hin, List.append_assoc]; rfl
    have hlen : (w ++ [c]).length = w.length + 1 := by simp
    have htake : stream.take (w.length + 1) = w ++ [c] := by rw [hin', ← hlen, List.take_left]
    have hdrop : stream.drop (w.length + 1) = s := by rw [hin', ← hlen, List.drop_left]
    have hc : c ∈ allChars := hword c (by simp [hin])
    rw [loop]
    rcases hmove : dfa.move i c with _ | new
    · -- there is no move: the longest prefix so far is the longest one
      refine ⟨longestPrefix_of_soFar hlast (by simp [hin]) fun m hlt hle hmem => ?_, hnum⟩
      have hm : stream.take m = w ++ c :: s.take (m - (w.length + 1)) := by
        rw [hin', List.take_append, hlen, List.take_of_length_le (by omega), List.append_assoc]
        rfl
      refine hi.not_mem hnfa hdfa (fun a ha => ?_) hmove (hm ▸ hmem.2)
      exact hword a (List.mem_of_mem_take (hm ▸ ha))
    · dsimp only
      have hnew := hi.move hdfa hc hmove
      have hw' : IsWord (w ++ [c]) := fun a ha =>
        hword a (hin' ▸ List.mem_append_left s ha)
      have haccept := hnew.accepted_isSome hnfa hdfa hw'
      have hmem : (dfa.accepted new).isSome = true ↔
          stream.take (w.length + 1) ∈ nonempty (anyLang Ls) := by
        rw [htake, haccept]
        exact (and_iff_right (by simp)).symm
      have hsucc := hlast.succ hmem
      have hstep := ih (w ++ [c]) new
      rw [hlen] at hstep
      rcases hacc : dfa.accepted new with _ | n
      · rw [hacc] at hsucc
        exact hstep lastAccepting hin' hnew hsucc hnum
      · rw [hacc, hdrop] at hsucc
        refine hstep (some (p + w.length + 1, s, n)) hin' hnew ?_ fun last cs n' heq => ?_
        · have hsub : p + w.length + 1 - p = w.length + 1 := by omega
          rw [lastPrefix, Option.map_some]
          dsimp only
          rw [hsub]
          exact hsucc
        · cases heq
          have hsub : p + w.length + 1 - p = w.length + 1 := by omega
          rw [hsub, htake]
          exact (hnew.accepted_iff hnfa hdfa hw' n).1 hacc

/-! ### The engine with an automaton -/

theorem reached_nil (hdfa : Determinizes nfa dfa all) : Reached nfa all 0 [] := hdfa.start

theorem try0_scans (hnfa : Recognizes nfa Ls) (hdfa : Determinizes nfa dfa all)
    (h : LongestPrefix (nonempty (anyLang Ls)) stream none) :
    Scans Ls stream (try0 dfa stream) := by
  have hnil : IsWord [] := nofun
  have hnone : ∀ m ≤ stream.length, stream.take m ∈ anyLang Ls → stream.take m = [] := by
    intro m hm hmem
    by_contra hne
    exact h m hm ⟨hne, hmem⟩
  rw [try0]
  rcases hacc : dfa.accepted 0 with _ | n
  · intro m hm hmem
    rw [hnone m hm hmem, ← (reached_nil hdfa).accepted_isSome hnfa hdfa hnil, hacc] at hmem
    cases hmem
  · have hleast := ((reached_nil hdfa).accepted_iff hnfa hdfa hnil n).1 hacc
    refine ⟨rfl, ⟨Nat.zero_le _, rfl, ⟨n, hleast.1⟩, fun m hm hmem => ?_⟩, hleast⟩
    have htake := hnone m hm hmem
    rcases List.take_eq_nil_iff.1 htake with rfl | rfl
    · exact le_rfl
    · exact hm

/-- **The match at the start of a stream** with the automaton of some languages. -/
theorem scan_scans (hnfa : Recognizes nfa Ls) (hdfa : Determinizes nfa dfa all)
    (hword : IsWord stream) (p : ℕ) : Scans Ls stream (scan dfa p stream) := by
  rcases stream with _ | ⟨c, s⟩
  · refine try0_scans hnfa hdfa fun m hm hmem => hmem.1 ?_
    exact List.take_nil
  · have hfirst : LongestSoFar (nonempty (anyLang Ls)) (c :: s) 0 none := by
      intro m hm hmem
      rw [Nat.le_zero.1 hm] at hmem
      exact hmem.1 rfl
    have hloop := loop_longest hnfa hdfa hword p (c :: s) [] 0 none rfl (reached_nil hdfa) hfirst
      nofun
    rw [scan]
    rw [List.length_nil, Nat.add_zero] at hloop
    obtain ⟨hlong, hnum⟩ := hloop
    rcases hres : loop dfa 0 p (c :: s) none with _ | ⟨last, cs, n⟩
    · rw [hres] at hlong
      exact try0_scans hnfa hdfa hlong
    · rw [hres] at hlong
      obtain ⟨hle, hrest, hmem, hmax⟩ := hlong
      refine ⟨rfl, ⟨hle, hrest, hmem.2, fun m hm hm' => ?_⟩, hnum last cs n hres⟩
      by_cases hne : (c :: s).take m = []
      · rcases List.take_eq_nil_iff.1 hne with rfl | hnil
        · exact Nat.zero_le _
        · cases hnil
      · exact hmax m hm ⟨hne, hm'⟩

/-- **The first match in a stream** with the automaton of some languages. -/
theorem findLoop_finds (hnfa : Recognizes nfa Ls) (hdfa : Determinizes nfa dfa all)
    (hword : IsWord stream) (p : ℕ) : Finds Ls stream (findLoop dfa p stream) := by
  induction stream generalizing p with
  | nil =>
    have hscan := scan_scans hnfa hdfa hword p
    rw [findLoop]
    rcases hres : scan dfa p [] with _ | ⟨n, m, cs⟩
    · rw [hres] at hscan
      intro k _
      rw [List.drop_nil]
      exact hscan
    · rw [hres] at hscan
      exact ⟨0, le_rfl, hscan.1, hscan.2.1, nofun⟩
  | cons c s ih =>
    have hscan := scan_scans hnfa hdfa hword p
    rw [findLoop]
    rcases hres : scan dfa p (c :: s) with _ | ⟨n, m, cs⟩
    · rw [hres] at hscan
      have hrest := ih (fun a ha => hword a (List.mem_cons_of_mem _ ha)) (p + 1)
      change Finds Ls (c :: s) (findLoop dfa (p + 1) s)
      rcases hfind : findLoop dfa (p + 1) s with _ | ⟨m, rest⟩
      · rw [hfind] at hrest
        intro k hk
        rcases k with _ | k
        · exact hscan
        · exact hrest k (Nat.le_of_succ_le_succ hk)
      · rw [hfind] at hrest
        obtain ⟨k, hk, hpos, hlong, hleft⟩ := hrest
        refine ⟨k + 1, Nat.succ_le_succ hk, hpos, hlong, fun j hj => ?_⟩
        rcases j with _ | j
        · exact hscan
        · exact hleft j (Nat.lt_of_succ_lt_succ hj)
    · rw [hres] at hscan
      exact ⟨0, Nat.zero_le _, hscan.1, hscan.2.1, nofun⟩

theorem find_finds (hnfa : Recognizes nfa Ls) (hdfa : Determinizes nfa dfa all)
    (hword : IsWord stream) : Finds Ls stream (find dfa stream) :=
  findLoop_finds hnfa hdfa hword 0

/-- **The engine is right**: the automaton of some expressions finds the longest prefix that one of
them matches, with the first one that matches it, and the leftmost position with such a prefix. -/
theorem dfaEngine_correct {rs : List Syntax} {nfa : Nfa} (hne : ∀ re ∈ rs, nonemptySets re)
    (h : Nfa.buildPattern rs = some nfa) :
    ∃ dfa, Dfa.build' nfa = some dfa ∧ ∀ stream, IsWord stream →
      (∀ p, Scans (patternLang rs) stream (scan dfa p stream)) ∧
        Finds (patternLang rs) stream (find dfa stream) := by
  have hnfa := recognizes_buildPattern hne h
  obtain ⟨dfa, all, hbuild, hdfa⟩ := build'_determinizes hnfa
  exact ⟨dfa, hbuild, fun stream hword =>
    ⟨fun p => scan_scans hnfa hdfa hword p, find_finds hnfa hdfa hword⟩⟩

theorem dfaEngine_correct_char :
    ∃ nfa dfa, Nfa.buildPattern [.Char 'a', .Interval (.Char 'a') 0 none] = some nfa ∧
      Dfa.build' nfa = some dfa ∧
      Scans (patternLang [.Char 'a', .Interval (.Char 'a') 0 none]) ['a', 'a'] (scan dfa 0 ['a', 'a']) := by
  have hsome : (Nfa.buildPattern [.Char 'a', .Interval (.Char 'a') 0 none]).isSome = true := by decide
  obtain ⟨nfa, hnfa⟩ := Option.isSome_iff_exists.1 hsome
  have hne : ∀ re ∈ [Syntax.Char 'a', .Interval (.Char 'a') 0 none], nonemptySets re := by
    intro re hre
    rcases List.mem_pair.1 hre with rfl | rfl <;> simp [nonemptySets]
  obtain ⟨dfa, hdfa, hcorrect⟩ := dfaEngine_correct hne hnfa
  exact ⟨nfa, dfa, hnfa, hdfa, (hcorrect ['a', 'a'] (by simp [IsWord, mem_allChars])).1 0⟩

end SmlNj.RegExp.DfaEngine
