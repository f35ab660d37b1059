import SmlNj.CPS.Execution
import SmlNj.Lib.ByteWords

/-!
# Lowering string equality

The test whether a string is equal to a literal of the same length is expanded to comparisons of
machine words.  The literal is packed into words in the byte order of the target.

## Main definitions

* `Machine` — the word size and the byte order of the target.
* `strEql` — the expansion.
* `Strings` — the interpretations in which the data of strings are words.

## Main results

* `strEql_correct` — the expansion compares the strings.
-/

namespace SmlNj.CPS.StrEqlCnv

open LambdaVar

/-- The parameters of the target. -/
structure Machine where
  is64 : Bool
  bigEndian : Bool
  deriving DecidableEq

variable (T : Machine)

def mlValueSz : ℕ := if T.is64 then 64 else 32

def wordSzInBytes : ℕ := if T.is64 then 8 else 4

def bytesToWords (n : ℕ) : ℕ := if T.is64 then (n + 7) >>> 3 else (n + 3) >>> 2

def wordTy : Cty := .numt ⟨mlValueSz T, false⟩

def neqTest : P.Branch := .cmp .neq (.uint (mlValueSz T))

def num (n : ℕ) : Value := .num ⟨n, ⟨mlValueSz T, false⟩⟩

def getByte (c : UInt8) (n : ℕ) : ℕ := n <<< 8 + c.toNat

/-- A word-sized substring as a number, in the byte order of the target. -/
def cvsToWord (s : List UInt8) : ℕ :=
  if T.bigEndian then s.foldl (fun n c => getByte c n) 0 else s.foldr getByte 0

/-- `CharVectorSlice.slice`. -/
def slice (s : List UInt8) (i n : ℕ) : Except Exn (List UInt8) :=
  if i + n ≤ s.length then .ok ((s.drop i).take n) else .error .subscript

/-- The `i`th word of a string. -/
def getWord (s : List UInt8) (i : ℕ) : Except Exn ℕ := do
  return cvsToWord T (← slice s (wordSzInBytes T * i) (wordSzInBytes T))

def getWords (s : List UInt8) (nw : ℕ) : Except Exn (List ℕ) := (List.range nw).mapM (getWord T s)

/-- `StringCvt.padRight`. -/
def padRight (c : UInt8) (n : ℕ) (s : List UInt8) : List UInt8 :=
  s ++ List.replicate (n - s.length) c

/-- The test of the `i`th word. -/
def mkTest (dp : Lvar) (falseExp : Cexp) (i w : ℕ) (k : Cexp) : Supply Cexp := do
  let tmp ← mkLvar
  let id ← mkLvar
  return .select i (.var dp) tmp (wordTy T)
    (.branch (neqTest T) [.var tmp, num T w] id falseExp k)

/-- The tests of the words from the `i`th one on, built from the last one. -/
def mkTests (dp : Lvar) (falseExp e1 : Cexp) : ℕ → List ℕ → Supply Cexp
  | _, [] => return e1
  | i, w :: ws => do mkTest T dp falseExp i w (← mkTests dp falseExp e1 (i + 1) ws)

/-- **The expansion of `STREQL`.** -/
def strEql (s : Value) (lit : SmlString) (e1 e2 : Cexp) : Supply Cexp :=
  let nw := bytesToWords T lit.length
  let lit := padRight 0 (wordSzInBytes T * nw) lit
  do
    let dp ← mkLvar
    let withStrData (exp : Cexp) : Cexp := .pure .getseqdata [s] dp ptrTy exp
    if 1 < nw then
      let words ← getWords T lit nw
      -- there are several jumps to the code for `false`
      let kFalse ← mkLvar
      let tests ← mkTests T dp (.app (.var kFalse) []) e1 0 words
      return .fix [.mk .cont kFalse [] [] e2] (withStrData tests)
    else if nw = 1 then
      return withStrData (← mkTest T dp e2 0 (← getWord T lit 0) e1)
    else impossible

variable {T}

/-- The `i`th word of a string in memory, where its last word is padded with zeros. -/
def memWord (T : Machine) (s : SmlString) (i : ℕ) : ℕ :=
  ByteWords.value T.bigEndian (ByteWords.chunk (wordSzInBytes T) s i)

/-- **An interpretation has the strings of the target** if the data of a string are its words. -/
structure Strings {D W : Type} (T : Machine) (I : Interp D W) where
  str : SmlString → D
  data : SmlString → D
  word : ℕ → D
  unfn (n : ℕ) : I.unfn (I.fn n) = some n
  lit (n : ℕ) (h : n < 2 ^ mlValueSz T) : I.lit (num T n) = word n
  getseqdata (s : SmlString) : I.pure .getseqdata [str s] = some (data s)
  select (s : SmlString) (i : ℕ) (h : i < bytesToWords T s.length) :
    I.select i (data s) = some (word (memWord T s i))
  neq (a b : ℕ) (ha : a < 2 ^ mlValueSz T) (hb : b < 2 ^ mlValueSz T) :
    I.branch (neqTest T) [word a, word b] = some (decide (a ≠ b))

/-! ### Packing the literal -/

theorem wordSz_pos (T : Machine) : 0 < wordSzInBytes T := by
  unfold wordSzInBytes
  split <;> decide

theorem mlValueSz_eq (T : Machine) : mlValueSz T = 8 * wordSzInBytes T := by
  unfold mlValueSz wordSzInBytes
  split <;> rfl

theorem bytesToWords_eq (T : Machine) (n : ℕ) :
    bytesToWords T n = (n + wordSzInBytes T - 1) / wordSzInBytes T := by
  unfold bytesToWords wordSzInBytes
  split <;> rw [Nat.shiftRight_eq_div_pow] <;> rfl

theorem le_words (T : Machine) (n : ℕ) : n ≤ wordSzInBytes T * bytesToWords T n := by
  have hmod := Nat.mod_lt (n + wordSzInBytes T - 1) (wordSz_pos T)
  have hdiv := Nat.div_add_mod (n + wordSzInBytes T - 1) (wordSzInBytes T)
  have hpos := wordSz_pos T
  rw [bytesToWords_eq]
  omega

theorem bytesToWords_pos {n : ℕ} (hn : 0 < n) : 0 < bytesToWords T n := by
  have hle := le_words T n
  refine Nat.pos_of_ne_zero fun h0 => ?_
  rw [h0, mul_zero] at hle
  omega

theorem memWord_lt (s : SmlString) (i : ℕ) : memWord T s i < 2 ^ mlValueSz T := by
  have h := ByteWords.value_lt T.bigEndian (ByteWords.chunk (wordSzInBytes T) s i)
  rw [ByteWords.length_chunk] at h
  rw [mlValueSz_eq, pow_mul]
  exact h

theorem cvsToWord_eq (s : List UInt8) : cvsToWord T s = ByteWords.value T.bigEndian s := by
  have hbyte : ∀ c n, getByte c n = n * 256 + c.toNat := by
    intro c n
    rw [getByte, Nat.shiftLeft_eq]
  unfold cvsToWord
  simp only [funext fun c => funext (hbyte c)]
  cases T.bigEndian with
  | true => exact ByteWords.foldl_eq s
  | false => exact ByteWords.foldr_eq s

theorem getWord_eq {lit : SmlString} {i : ℕ} (hi : i < bytesToWords T lit.length) :
    getWord T (padRight 0 (wordSzInBytes T * bytesToWords T lit.length) lit) i =
      .ok (memWord T lit i) := by
  have hle := le_words T lit.length
  have hslice : slice (padRight 0 (wordSzInBytes T * bytesToWords T lit.length) lit)
      (wordSzInBytes T * i) (wordSzInBytes T) =
      .ok (ByteWords.chunk (wordSzInBytes T) lit i) := by
    rw [← ByteWords.take_drop_eq_chunk hi hle]
    refine if_pos ?_
    have hend : wordSzInBytes T * i + wordSzInBytes T ≤
        wordSzInBytes T * bytesToWords T lit.length := by
      rw [← Nat.mul_succ]
      exact Nat.mul_le_mul_left _ hi
    rw [padRight, List.length_append, List.length_replicate]
    omega
  unfold getWord
  rw [hslice]
  exact congrArg Except.ok (cvsToWord_eq _)

theorem getWords_eq (lit : SmlString) :
    getWords T (padRight 0 (wordSzInBytes T * bytesToWords T lit.length) lit)
        (bytesToWords T lit.length) =
      .ok ((List.range (bytesToWords T lit.length)).map (memWord T lit)) := by
  have hall : ∀ is : List ℕ, (∀ i ∈ is, i < bytesToWords T lit.length) →
      is.mapM (getWord T (padRight 0 (wordSzInBytes T * bytesToWords T lit.length) lit)) =
        .ok (is.map (memWord T lit)) := by
    intro is his
    induction is with
    | nil => rfl
    | cons i is ih =>
      rw [List.mapM_cons, getWord_eq (his i List.mem_cons_self),
        ih fun j hj => his j (List.mem_cons_of_mem i hj)]
      rfl
  exact hall _ fun i hi => List.mem_range.1 hi

/-! ### Executing the expansion -/

section Sound

variable {D W : Type} {I : Interp D W} (S : Strings T I) {st : List (Closure D)} {env : Env D}
  {m dp : Lvar} {bs lit : SmlString} {e1 e2 falseExp : Cexp}

/-- The words of the string from the `i`th one on are these. -/
def HasWords (T : Machine) (bs : SmlString) : ℕ → List ℕ → Prop
  | _, [] => True
  | i, w :: ws => memWord T bs i = w ∧ HasWords T bs (i + 1) ws

instance (T : Machine) (bs : SmlString) (i : ℕ) (ws : List ℕ) :
    Decidable (HasWords T bs i ws) := by
  induction ws generalizing i with
  | nil => exact .isTrue trivial
  | cons w ws ih => exact inferInstanceAs (Decidable (_ ∧ _))

theorem leads_test {i w : ℕ} {tmp id : Lvar} {k : Cexp} {c : Config D}
    (hdp : env dp = some (S.data bs)) (hi : i < bytesToWords T bs.length)
    (hw : w < 2 ^ mlValueSz T)
    (h : Leads I ⟨st, env.set tmp (S.word (memWord T bs i)),
      if memWord T bs i = w then k else falseExp⟩ c) :
    Leads I ⟨st, env, .select i (.var dp) tmp (wordTy T)
      (.branch (neqTest T) [.var tmp, num T w] id falseExp k)⟩ c := by
  have hlit : val I (env.set tmp (S.word (memWord T bs i))) (num T w) = some (S.word w) :=
    congrArg some (S.lit w hw)
  refine .select hdp (S.select bs i hi) ?_
  refine .branch (vals_two (val_set _ _ _) hlit) (S.neq _ w (memWord_lt bs i) hw) ?_
  by_cases heq : memWord T bs i = w
  · rw [if_pos heq] at h
    rw [decide_eq_false (fun hne => hne heq)]
    exact h
  · rw [if_neg heq] at h
    rw [decide_eq_true heq]
    exact h

/-- **The tests lead to the code for `true` if all words are right**, and to the code for `false`
if one of them is wrong. -/
theorem leads_tests (st : List (Closure D)) (falseExp e1 : Cexp) (c : Config D) (ws : List ℕ)
    (hdp : dp < m)
    (hws : ∀ w ∈ ws, w < 2 ^ mlValueSz T) (i : ℕ)
    (hi : i + ws.length ≤ bytesToWords T bs.length) :
    ∃ e n, mkTests T dp falseExp e1 i ws m = .ok (e, n) ∧ m ≤ n ∧
      ∀ env, env dp = some (S.data bs) →
        (∀ env', AgreeBelow m env env' → Leads I ⟨st, env', falseExp⟩ c) →
        ∃ env', AgreeBelow m env env' ∧
          Leads I ⟨st, env, e⟩ (if HasWords T bs i ws then ⟨st, env', e1⟩ else c) := by
  induction ws generalizing i with
  | nil => exact ⟨e1, m, rfl, le_rfl, fun env _ _ => ⟨env, .refl m env, .refl _⟩⟩
  | cons w ws ih =>
    rw [List.length_cons] at hi
    obtain ⟨k, n, hk, hmn, hrun⟩ := ih (fun w' hw' => hws w' (List.mem_cons_of_mem w hw')) (i + 1)
      (by omega)
    refine ⟨.select i (.var dp) n (wordTy T)
      (.branch (neqTest T) [.var n, num T w] (n + 1) falseExp k), n + 2, ?_, ?_, ?_⟩
    · exact congrArg (· >>= fun q : Cexp × Lvar => mkTest T dp falseExp i w q.1 q.2) hk
    · exact le_trans hmn (Nat.le_add_right n 2)
    · intro env hdata hfalse
      let env₁ := env.set n (S.word (memWord T bs i))
      have hagree : AgreeBelow m env env₁ := (AgreeBelow.refl m env).set hmn _
      have hdata₁ : env₁ dp = some (S.data bs) := (hagree dp hdp).trans hdata
      obtain ⟨env₂, hagree₂, hleads⟩ := hrun env₁ hdata₁ fun env' h => hfalse env' (hagree.trans h)
      refine ⟨env₂, hagree.trans hagree₂, ?_⟩
      refine leads_test S hdata (by omega) (hws w List.mem_cons_self) ?_
      by_cases hword : memWord T bs i = w
      · have hrest : HasWords T bs i (w :: ws) ↔ HasWords T bs (i + 1) ws := and_iff_right hword
        rw [if_pos hword, if_congr hrest rfl rfl]
        exact hleads
      · have hrest : ¬HasWords T bs i (w :: ws) := fun h => hword h.1
        rw [if_neg hword, if_neg hrest]
        exact hfalse env₁ hagree

theorem hasWords_iff (hlen : bs.length = lit.length) :
    HasWords T bs 0 ((List.range (bytesToWords T lit.length)).map (memWord T lit)) ↔ bs = lit := by
  have hlist : ∀ n i, HasWords T bs i ((List.range' i n).map (memWord T lit)) ↔
      ∀ j < n, memWord T bs (i + j) = memWord T lit (i + j) := by
    intro n
    induction n with
    | zero => exact fun i => iff_of_true trivial fun j hj => absurd hj (Nat.not_lt_zero j)
    | succ n ih =>
      intro i
      rw [List.range'_succ, List.map_cons, HasWords, ih, Nat.forall_lt_succ_left]
      simp [Nat.add_assoc, Nat.add_comm 1]
  rw [List.range_eq_range', hlist]
  simp only [zero_add]
  exact (ByteWords.eq_iff_words (wordSz_pos T) hlen (hlen ▸ le_words T lit.length)).symm

theorem strEql_eq_many {s : Value} (hnw : 1 < bytesToWords T lit.length) {e : Cexp} {n : Lvar}
    (he : mkTests T m (.app (.var (m + 1)) []) e1 0
      ((List.range (bytesToWords T lit.length)).map (memWord T lit)) (m + 2) = .ok (e, n)) :
    strEql T s lit e1 e2 m =
      .ok (.fix [.mk .cont (m + 1) [] [] e2] (.pure .getseqdata [s] m ptrTy e), n) := by
  unfold strEql
  rw [mkLvar_bind, if_pos hnw, lift_bind (getWords_eq lit), mkLvar_bind]
  exact congrArg (· >>= fun q : Cexp × Lvar => Except.ok
    (Cexp.fix [.mk .cont (m + 1) [] [] e2] (.pure .getseqdata [s] m ptrTy q.1), q.2)) he

theorem strEql_eq_one {s : Value} (hnw : bytesToWords T lit.length = 1) :
    strEql T s lit e1 e2 m =
      .ok (.pure .getseqdata [s] m ptrTy (.select 0 (.var m) (m + 1) (wordTy T)
        (.branch (neqTest T) [.var (m + 1), num T (memWord T lit 0)] (m + 2) e2 e1)), m + 3) := by
  have hword : getWord T (padRight 0 (wordSzInBytes T * bytesToWords T lit.length) lit) 0 =
      .ok (memWord T lit 0) := getWord_eq (by omega)
  unfold strEql
  rw [mkLvar_bind, if_neg (by omega), if_pos hnw, lift_bind hword]
  rfl

/-- **Strings are compared word by word**, with a literal that is not empty, for both word sizes
and both byte orders. -/
theorem strEql_correct {s : Value} (hlit : lit ≠ []) (hlen : bs.length = lit.length)
    (hs : Holds I env m s (S.str bs)) :
    ∃ e n, strEql T s lit e1 e2 m = .ok (e, n) ∧ ∃ st' env', AgreeBelow m env env' ∧
      Leads I ⟨st, env, e⟩ ⟨st ++ st', env', if bs = lit then e1 else e2⟩ := by
  have hpos : 0 < bytesToWords T lit.length := bytesToWords_pos (List.length_pos_iff.2 hlit)
  have hdata := S.getseqdata bs
  rcases Nat.lt_or_ge 1 (bytesToWords T lit.length) with hmany | hone
  · -- the continuation for `false`, then the pointer to the data
    let env₁ := env.set (m + 1) (I.fn st.length)
    let clo : Closure D := ⟨.mk .cont (m + 1) [] [] e2, env₁⟩
    let env₂ := env₁.set m (S.data bs)
    have hagree₁ : AgreeBelow m env env₁ := (AgreeBelow.refl m env).set m.le_succ _
    have hagree₂ : AgreeBelow m env env₂ := hagree₁.set le_rfl _
    have hlen' : 0 + ((List.range (bytesToWords T lit.length)).map (memWord T lit)).length ≤
        bytesToWords T bs.length := by
      rw [List.length_map, List.length_range, hlen, zero_add]
    have hbounds : ∀ w ∈ (List.range (bytesToWords T lit.length)).map (memWord T lit),
        w < 2 ^ mlValueSz T := by
      intro w hw
      obtain ⟨i, -, rfl⟩ := List.mem_map.1 hw
      exact memWord_lt lit i
    obtain ⟨e, n, he, -, hrun⟩ := leads_tests S (st ++ [clo]) (.app (.var (m + 1)) []) e1
      ⟨st ++ [clo], env₁, e2⟩ _ (lt_trans m.lt_succ_self (Nat.lt_succ_self (m + 1))) hbounds 0
      hlen'
    have hfalse : ∀ env', AgreeBelow (m + 2) env₂ env' →
        Leads I ⟨st ++ [clo], env', .app (.var (m + 1)) []⟩ ⟨st ++ [clo], env₁, e2⟩ := by
      intro env' hagree
      have hkFalse : env' (m + 1) = some (I.fn st.length) :=
        (hagree (m + 1) (Nat.lt_succ_self (m + 1))).trans
          ((Env.set_of_ne env₁ _ (Nat.succ_ne_self m)).trans (Env.set_self env (m + 1) _))
      exact .appZero S.unfn hkFalse List.getElem?_concat_length (.refl _)
    obtain ⟨env₃, hagree₃, hleads⟩ := hrun env₂ (Env.set_self env₁ m _) hfalse
    have hall : Leads I ⟨st, env, .fix [.mk .cont (m + 1) [] [] e2]
        (.pure .getseqdata [s] m ptrTy e)⟩ _ :=
      .fixOne (.pure rfl (vals_one (hs.mono le_rfl hagree₁).val) hdata hleads)
    refine ⟨_, n, strEql_eq_many hmany he, [clo], ?_⟩
    rw [if_congr (hasWords_iff hlen) rfl rfl] at hall
    by_cases heq : bs = lit
    · rw [if_pos heq] at hall ⊢
      exact ⟨env₃, hagree₂.trans (hagree₃.mono (Nat.le_add_right m 2)), hall⟩
    · rw [if_neg heq] at hall ⊢
      exact ⟨env₁, hagree₁, hall⟩
  · have hnw : bytesToWords T lit.length = 1 := le_antisymm hone hpos
    let env₁ := env.set m (S.data bs)
    let env₂ := env₁.set (m + 1) (S.word (memWord T bs 0))
    have hagree : AgreeBelow m env env₂ :=
      ((AgreeBelow.refl m env).set le_rfl _).set m.le_succ _
    have hword : memWord T bs 0 = memWord T lit 0 ↔ bs = lit := by
      have h := hasWords_iff (T := T) hlen
      rw [hnw] at h
      exact (and_iff_left trivial).symm.trans h
    refine ⟨_, m + 3, strEql_eq_one hnw, [], env₂, hagree, ?_⟩
    rw [List.append_nil]
    refine .pure rfl (vals_one hs.val) hdata ?_
    refine leads_test S (Env.set_self env m _) ?_ (memWord_lt lit 0) ?_
    · rw [hlen, hnw]
      exact Nat.one_pos
    · rw [if_congr hword rfl rfl]
      exact .refl _

end Sound

/-! ### An interpretation with strings -/

/-- Strings, pointers to their data, machine words, functions, and one more value. -/
inductive StrVal
  | str (s : SmlString) | data (s : SmlString) | word (n : ℕ) | fn (n : ℕ) | other

/-- An interpretation that has strings and functions only. -/
def strInterp (T : Machine) : Interp StrVal Unit where
  fn := .fn
  unfn
    | .fn n => some n
    | _ => none
  lit
    | .num c => .word c.ival.toNat
    | .string s => .str s
    | _ => .other
  path _ _ := none
  record _ _ := none
  select
    | i, .data s => if i < bytesToWords T s.length then some (.word (memWord T s i)) else none
    | _, _ => none
  offset _ _ := none
  switch _ := none
  branch
    | .cmp .neq (.uint _), [.word a, .word b] => some (decide (a ≠ b))
    | _, _ => none
  arith _ _ := none
  pure
    | .getseqdata, [.str s] => some (.data s)
    | _, _ => none
  alloc _ _ _ := none
  setter _ _ _ := none
  looker _ _ _ := none
  overflow _ := none
  rcc _ _ _ _ _ := none

/-- It has the strings of the target. -/
def strInterpStrings (T : Machine) : Strings T (strInterp T) where
  str := .str
  data := .data
  word := .word
  unfn _ := rfl
  lit _ _ := rfl
  getseqdata _ := rfl
  select _ _ h := if_pos h
  neq _ _ _ _ := rfl

def hello : Env StrVal := Env.set (fun _ => none) 0 (.str [104, 101, 108, 108, 111])

/-- The string is compared with a literal in two words of a big-endian target. -/
theorem strEql_correct_hello :
    ∃ e n, strEql ⟨false, true⟩ (.var 0) [104, 101, 108, 108, 111] (.app (.label 1) [])
        (.app (.label 2) []) 10 = .ok (e, n) ∧
      ∃ st' env', AgreeBelow 10 hello env' ∧
        Leads (strInterp ⟨false, true⟩) ⟨[], hello, e⟩ ⟨[] ++ st', env', .app (.label 1) []⟩ := by
  have hs : Holds (strInterp ⟨false, true⟩) hello 10 (.var 0)
      (.str [104, 101, 108, 108, 111]) := ⟨show 0 < 10 by decide, rfl⟩
  exact strEql_correct (strInterpStrings ⟨false, true⟩) (List.cons_ne_nil _ _) rfl hs

/-- A comparison with the empty string is a compiler bug. -/
theorem strEql_empty :
    ¬∃ e n, strEql ⟨true, false⟩ (.var 0) [] (.app (.label 1) []) (.app (.label 2) []) 10 =
      .ok (e, n) := by
  rintro ⟨e, n, h⟩
  cases h

end SmlNj.CPS.StrEqlCnv
