import SmlNj.CPS.Convert.SwitchChunks
import SmlNj.CPS.Semantics
import SmlNj.Lib.TwosComplement

/-!
# The switch on tagged numbers selects the right action

The term that a switch is translated to executes, from an argument of a tagged type, the
action of the case with that label, or the default.

## Main definitions

* `Reaches` — the execution of a term up to a part of it.
* `TaggedKind`, `Holds` — the tagged types and their values.
* `TaggedWords` — the meaning of the operators on tagged words.

## Main results

* `gen_selects` — the binary search.
* `taggedNumSwitchWith_correct` — the switch.
-/

namespace SmlNj.CPS.Switch

/-! ### Execution of a part of a term -/

variable {e e' : Cexp} {lo hi i lb ub : ℤ} {m : Build Cexp} {f : Cexp → Build Cexp}
  {cases : List (ℤ × Cexp)}

section Reaches

variable {D W : Type} {I : Interp D W}

/-- The execution of a term gets to a part of it, by branches, pure operations and dispatches
through tables, each with an index inside its table. -/
inductive Reaches (I : Interp D W) : Env D → Cexp → Env D → Cexp → Prop
  | refl (env : Env D) (e : Cexp) : Reaches I env e env e
  | branch {env env' : Env D} {p : P.Branch} {args : List Value} {id : Lvar} {e1 e2 e' : Cexp}
      {ds : List D} {b : Bool} : vals I env args = some ds → I.branch p ds = some b →
      Reaches I env (if b then e1 else e2) env' e' →
      Reaches I env (.branch p args id e1 e2) env' e'
  | pure {env env' : Env D} {p : P.Pure} {args : List Value} {x : Lvar} {ty : Cty} {e e' : Cexp}
      {ds : List D} {d : D} : p.allocates = false → vals I env args = some ds →
      I.pure p ds = some d → Reaches I (env.set x d) e env' e' →
      Reaches I env (.pure p args x ty e) env' e'
  | switch {env env' : Env D} {v : Value} {id : Lvar} {cases : List Cexp} {e e' : Cexp} {d : D}
      {i : ℕ} : val I env v = some d → I.switch d = some i → cases[i]? = some e →
      Reaches I env e env' e' → Reaches I env (.switch v id cases) env' e'

theorem execNth_eq (store : List (Closure D)) (env : Env D) (w : W) {cases : List Cexp} {i : ℕ}
    (h : cases[i]? = some e) : execNth I store env w cases i = exec I store env w e := by
  induction cases generalizing i with
  | nil => cases h
  | cons c cs ih =>
    cases i with
    | zero =>
      cases h
      rfl
    | succ i => exact ih h

theorem Reaches.exec_eq {env env' : Env D} (h : Reaches I env e env' e') (store : List (Closure D))
    (w : W) : exec I store env w e = exec I store env' w e' := by
  induction h with
  | refl => rfl
  | branch hv hb _ ih =>
    rw [← ih]
    split <;> simp_all
  | pure hp hv hd _ ih =>
    rw [← ih]
    simp [hv, hp, hd]
  | switch hv hi hc _ ih =>
    rw [← ih]
    simp only [exec, hv, hi, Option.bind_eq_bind, Option.bind_some]
    exact execNth_eq store _ w hc

theorem Reaches.trans {env env' env'' : Env D} {e'' : Cexp} (h : Reaches I env e env' e')
    (h' : Reaches I env' e' env'' e'') : Reaches I env e env'' e'' := by
  induction h with
  | refl => exact h'
  | branch hv hb _ ih => exact .branch hv hb (ih h')
  | pure hp hv hd _ ih => exact .pure hp hv hd (ih h')
  | switch hv hi hc _ ih => exact .switch hv hi hc (ih h')

/-- A table that is reached on the way has an index inside its bounds. -/
theorem Reaches.switch_in_bounds {env env' env1 : Env D} {v : Value} {id : Lvar} {cases : List Cexp}
    (h : Reaches I env e env' e') (h1 : Reaches I env e env1 (.switch v id cases)) :
    Reaches I env' e' env1 (.switch v id cases) ∨
      ∃ d i, val I env1 v = some d ∧ I.switch d = some i ∧ i < cases.length := by
  induction h with
  | refl => exact .inl h1
  | branch hv hb _ ih =>
    cases h1 with
    | branch hv1 hb1 hr1 =>
      rw [hv] at hv1
      cases hv1
      rw [hb] at hb1
      cases hb1
      exact ih hr1
  | pure _ hv hd _ ih =>
    cases h1 with
    | pure _ hv1 hd1 hr1 =>
      rw [hv] at hv1
      cases hv1
      rw [hd] at hd1
      cases hd1
      exact ih hr1
  | switch hv hi hc _ ih =>
    cases h1 with
    | refl =>
      obtain ⟨hlt, -⟩ := List.getElem?_eq_some_iff.1 hc
      exact .inr ⟨_, _, hv, hi, hlt⟩
    | switch hv1 hi1 hc1 hr1 =>
      rw [hv] at hv1
      cases hv1
      rw [hi] at hi1
      cases hi1
      rw [hc] at hc1
      cases hc1
      exact ih hr1

end Reaches

/-! ### Tagged numbers -/

/-- The types of tagged numbers. -/
inductive TaggedKind
  | int | word | enum
  deriving DecidableEq

def TaggedKind.tagType : TaggedKind → TagType
  | .int => ⟨tagNum, tagIntKind⟩
  | .word => ⟨tagNum, tagWordKind⟩
  | .enum => ⟨tagEnum, .enum⟩

/-- The values of a type; the tag of a constructor is a non-negative `int`. -/
def TaggedKind.Holds : TaggedKind → ℤ → Prop
  | .int, v => -2 ^ 62 ≤ v ∧ v < 2 ^ 62
  | .word, v => 0 ≤ v ∧ v < 2 ^ 63
  | .enum, v => 0 ≤ v ∧ v < 2 ^ 62

instance (k : TaggedKind) (v : ℤ) : Decidable (k.Holds v) := by
  cases k <;> exact inferInstanceAs (Decidable (_ ∧ _))

theorem TaggedKind.Holds.between {k : TaggedKind} {v : ℤ} (hlo : k.Holds lo) (hhi : k.Holds hi)
    (h1 : lo ≤ v) (h2 : v ≤ hi) : k.Holds v := by
  cases k <;> exact ⟨by have := hlo.1; omega, by have := hhi.2; omega⟩

def bits (v : ℤ) : ℕ := (v % 2 ^ Target.defaultIntSz).toNat

/-- **The meaning of tagged words.**  A tagged number is a pattern of `defaultIntSz` bits, which
the comparisons read as signed or unsigned, and which a subtraction takes modulo its size. -/
structure TaggedWords {D W : Type} (I : Interp D W) (word : ℕ → D) : Prop where
  num : ∀ v : ℤ, I.lit (.num ⟨v, ⟨Target.defaultIntSz, true⟩⟩) = word (bits v)
  enum : ∀ v : ℤ, I.lit (.enum v) = word (bits v)
  eql : ∀ (k : TaggedKind) (a b : ℕ), a < 2 ^ 63 → b < 2 ^ 63 →
    I.branch (.cmp .eql k.tagType.kind) [word a, word b] = some (decide (a = b))
  lt_signed : ∀ a b : ℕ, a < 2 ^ 63 → b < 2 ^ 63 →
    I.branch (.cmp .lt tagIntKind) [word a, word b]
      = some (decide (TwosComplement.signed 63 a < TwosComplement.signed 63 b))
  lt_unsigned : ∀ kind ∈ [tagWordKind, .enum], ∀ a b : ℕ, a < 2 ^ 63 → b < 2 ^ 63 →
    I.branch (.cmp .lt kind) [word a, word b] = some (decide (a < b))
  sub : ∀ kind ∈ [tagIntKind, tagWordKind], ∀ a b : ℕ, a < 2 ^ 63 → b < 2 ^ 63 →
    I.pure (.pureArith .sub kind) [word a, word b] = some (word ((a + (2 ^ 63 - b)) % 2 ^ 63))
  cast : ∀ a : ℕ, a < 2 ^ 63 → I.pure .cast [word a] = some (word a)
  switch : ∀ a : ℕ, a < 2 ^ 63 → I.switch (word a) = some a

theorem bits_lt (v : ℤ) : bits v < 2 ^ 63 := by
  rw [bits, Target.defaultIntSz]
  omega

theorem signed_bits {v : ℤ} (h : TaggedKind.int.Holds v) :
    TwosComplement.signed 63 (bits v) = v := by
  obtain ⟨h1, h2⟩ := h
  rw [bits, Target.defaultIntSz, TwosComplement.signed]
  rw [Int.bmod_def]
  split
  · omega
  · omega

theorem bits_of_nonneg {v : ℤ} (h1 : 0 ≤ v) (h2 : v < 2 ^ 63) : bits v = v.toNat := by
  rw [bits, Target.defaultIntSz]
  omega

section Words

variable {D W : Type} {I : Interp D W} {word : ℕ → D} (hI : TaggedWords I word)

include hI

theorem lit_tagValue (k : TaggedKind) (env : Env D) (v : ℤ) :
    val I env (k.tagType.tagValue v) = some (word (bits v)) := by
  cases k with
  | int => exact congrArg some (hI.num v)
  | word => exact congrArg some (hI.num v)
  | enum => exact congrArg some (hI.enum v)

theorem branch_eql {k : TaggedKind} {v w : ℤ} (hv : k.Holds v) (hw : k.Holds w) :
    I.branch (.cmp .eql k.tagType.kind) [word (bits v), word (bits w)]
      = some (decide (v = w)) := by
  rw [hI.eql k _ _ (bits_lt v) (bits_lt w)]
  congr 1
  rw [decide_eq_decide, bits, bits, Target.defaultIntSz]
  cases k <;> simp only [TaggedKind.Holds] at hv hw <;> omega

theorem branch_lt {k : TaggedKind} {v w : ℤ} (hv : k.Holds v) (hw : k.Holds w) :
    I.branch (.cmp .lt k.tagType.kind) [word (bits v), word (bits w)]
      = some (decide (v < w)) := by
  cases k with
  | int =>
    refine (hI.lt_signed _ _ (bits_lt v) (bits_lt w)).trans ?_
    rw [signed_bits hv, signed_bits hw]
  | word =>
    refine (hI.lt_unsigned tagWordKind (by simp) _ _ (bits_lt v) (bits_lt w)).trans ?_
    obtain ⟨h1, h2⟩ := hv
    obtain ⟨h3, h4⟩ := hw
    rw [bits_of_nonneg h1 h2, bits_of_nonneg h3 h4]
    congr 1
    rw [decide_eq_decide]
    omega
  | enum =>
    refine (hI.lt_unsigned .enum (by simp) _ _ (bits_lt v) (bits_lt w)).trans ?_
    obtain ⟨h1, h2⟩ := hv
    obtain ⟨h3, h4⟩ := hw
    rw [bits_of_nonneg h1 (by omega), bits_of_nonneg h3 (by omega)]
    congr 1
    rw [decide_eq_decide]
    omega

theorem pure_sub {kind : P.NumKind} (hk : kind ∈ [tagIntKind, tagWordKind]) (v w : ℤ) :
    I.pure (.pureArith .sub kind) [word (bits v), word (bits w)] = some (word (bits (v - w))) := by
  rw [hI.sub kind hk _ _ (bits_lt v) (bits_lt w)]
  congr 2
  rw [bits, bits, bits, Target.defaultIntSz]
  omega

end Words

/-! ### Builders of terms -/

/-- The builder returns a term, and takes fresh variables from the supply. -/
def Builds (m : Build Cexp) : Prop := ∀ n, ∃ e n', m n = .ok (e, n') ∧ n ≤ n'

/-- The builder returns a term whose execution gets to the action; only variables from the
supply change on the way. -/
def Selects {D W : Type} (I : Interp D W) (env : Env D) (act : Cexp) (m : Build Cexp) : Prop :=
  ∀ n, ∃ e n' env', m n = .ok (e, n') ∧ n ≤ n' ∧ Reaches I env e env' act ∧
    ∀ x < n, env' x = env x

theorem bind_run {α β : Type} {m : Build α} {f : α → Build β} {n n' : Lvar} {a : α}
    (h : m n = .ok (a, n')) : (m >>= f) n = f a n' := by
  change (m n >>= fun p => f p.1 p.2) = _
  rw [h]
  rfl

theorem builds_return (e : Cexp) : Builds (return e) := fun n => ⟨e, n, rfl, le_rfl⟩

theorem Builds.bind (hm : Builds m) (hf : ∀ e, Builds (f e)) : Builds (m >>= f) := by
  intro n
  obtain ⟨e, n1, h1, hle1⟩ := hm n
  obtain ⟨e', n2, h2, hle2⟩ := hf e n1
  exact ⟨e', n2, (bind_run h1).trans h2, hle1.trans hle2⟩

theorem builds_ifeq (ty : TagType) (arg : Value) (i : ℤ) (tr fl : Cexp) :
    Builds (ifeq ty arg i tr fl) := fun n => ⟨_, n + 1, rfl, Nat.le_succ n⟩

theorem builds_ifless (ty : TagType) (a b : Value) (tr fl : Cexp) :
    Builds (ifless ty a b tr fl) := fun n => ⟨_, n + 1, rfl, Nat.le_succ n⟩

theorem builds_lowerCheck (ty : TagType) (arg : Value) (default : Cexp) (lo lb : ℤ)
    (exp : Cexp) : Builds (lowerCheck ty arg default lo lb exp) := by
  rw [lowerCheck]
  split
  · exact builds_ifless _ _ _ _ _
  · exact builds_return _

theorem builds_upperCheck (ty : TagType) (arg : Value) (default : Cexp) (ub hi : ℤ)
    (exp : Cexp) : Builds (upperCheck ty arg default ub hi exp) := by
  rw [upperCheck]
  split
  · exact builds_ifless _ _ _ _ _
  · exact builds_return _

section Selects

variable {D W : Type} {I : Interp D W} {env : Env D} {act : Cexp}

theorem Selects.builds (h : Selects I env act m) : Builds m := by
  intro n
  obtain ⟨e, n', -, hm, hle, -⟩ := h n
  exact ⟨e, n', hm, hle⟩

theorem selects_return : Selects I env act (return act) :=
  fun n => ⟨act, n, env, rfl, le_rfl, .refl _ _, fun _ _ => rfl⟩

/-- What is made of a term goes on to the term, if that gets to the action. -/
def Keeps (I : Interp D W) (env : Env D) (act : Cexp) (f : Cexp → Build Cexp) : Prop :=
  ∀ e n, ∃ e' n', f e n = .ok (e', n') ∧ n ≤ n' ∧
    ∀ env', Reaches I env e env' act → Reaches I env e' env' act

theorem Keeps.comp {g : Cexp → Build Cexp} (hf : Keeps I env act f) (hg : Keeps I env act g) :
    Keeps I env act fun e => f e >>= g := by
  intro e n
  obtain ⟨e1, n1, h1, hle1, hr1⟩ := hf e n
  obtain ⟨e2, n2, h2, hle2, hr2⟩ := hg e1 n1
  exact ⟨e2, n2, (bind_run h1).trans h2, hle1.trans hle2, fun env' h => hr2 env' (hr1 env' h)⟩

theorem Selects.bind (hm : Selects I env act m) (hf : Keeps I env act f) :
    Selects I env act (m >>= f) := by
  intro n
  obtain ⟨e, n1, env', h1, hle1, hr, hout⟩ := hm n
  obtain ⟨e', n2, h2, hle2, hr'⟩ := hf e n1
  exact ⟨e', n2, env', (bind_run h1).trans h2, hle1.trans hle2, hr' env' hr, hout⟩

theorem Selects.bind_right (hm : Builds m) (hf : ∀ e, Selects I env act (f e)) :
    Selects I env act (m >>= f) := by
  intro n
  obtain ⟨e, n1, h1, hle1⟩ := hm n
  obtain ⟨e', n2, env', h2, hle2, hr, hout⟩ := hf e n1
  exact ⟨e', n2, env', (bind_run h1).trans h2, hle1.trans hle2, hr,
    fun x hx => hout x (lt_of_lt_of_le hx hle1)⟩

end Selects

/-! ### The parts of a switch -/

section Parts

variable {D W : Type} {I : Interp D W} {word : ℕ → D} (hI : TaggedWords I word) {k : TaggedKind}
  {env : Env D} {arg : Value} {default : Cexp} {v : ℤ} (hv : k.Holds v)
  (harg : val I env arg = some (word (bits v)))

include hI hv harg

theorem reaches_ifeq (hi : k.Holds i) (tr fl : Cexp) (n : Lvar) :
    ∃ e, ifeq k.tagType arg i tr fl n = .ok (e, n + 1) ∧
      ∀ env' e', Reaches I env (if v = i then tr else fl) env' e' → Reaches I env e env' e' := by
  refine ⟨_, rfl, ?_⟩
  intro env' e' hr
  have hvals : vals I env [arg, k.tagType.tagValue i] = some [word (bits v), word (bits i)] := by
    simp [vals, harg, lit_tagValue hI k env i]
  exact Reaches.branch hvals (branch_eql hI hv hi) (by simpa using hr)

theorem reaches_ifless_label (hi : k.Holds i) (tr fl : Cexp) (n : Lvar) :
    ∃ e, ifless k.tagType arg (k.tagType.tagValue i) tr fl n = .ok (e, n + 1) ∧
      ∀ env' e', Reaches I env (if v < i then tr else fl) env' e' → Reaches I env e env' e' := by
  refine ⟨_, rfl, ?_⟩
  intro env' e' hr
  have hvals : vals I env [arg, k.tagType.tagValue i] = some [word (bits v), word (bits i)] := by
    simp [vals, harg, lit_tagValue hI k env i]
  exact Reaches.branch hvals (branch_lt hI hv hi) (by simpa using hr)

theorem reaches_label_ifless (hi : k.Holds i) (tr fl : Cexp) (n : Lvar) :
    ∃ e, ifless k.tagType (k.tagType.tagValue i) arg tr fl n = .ok (e, n + 1) ∧
      ∀ env' e', Reaches I env (if i < v then tr else fl) env' e' → Reaches I env e env' e' := by
  refine ⟨_, rfl, ?_⟩
  intro env' e' hr
  have hvals : vals I env [k.tagType.tagValue i, arg] = some [word (bits i), word (bits v)] := by
    simp [vals, harg, lit_tagValue hI k env i]
  exact Reaches.branch hvals (branch_lt hI hi hv) (by simpa using hr)

/-- The dispatch through a table, from an argument inside the bounds of the table. -/
theorem selects_table {actions : List Cexp} {act : Cexp} (hlb : k.Holds lb) (hle : lb ≤ v)
    (hact : actions[(v - lb).toNat]? = some act) :
    Selects I env act (table k.tagType arg lb actions) := by
  have hlt : v < 2 ^ 63 ∧ -2 ^ 62 ≤ lb := by
    cases k <;> simp only [TaggedKind.Holds] at hv hlb <;> omega
  intro n
  rw [table]
  by_cases h0 : lb = 0
  · subst h0
    refine ⟨_, n + 1, env, rfl, Nat.le_succ n, ?_, fun _ _ => rfl⟩
    rw [Int.sub_zero] at hact
    refine Reaches.switch harg (hI.switch _ (bits_lt v)) ?_ (.refl _ _)
    rw [bits_of_nonneg hle hlt.1]
    exact hact
  · rw [if_neg h0]
    -- the difference is an index into the table
    have hidx : v - lb < 2 ^ 63 := by
      cases k <;> simp only [TaggedKind.Holds] at hv hlb <;> omega
    have hswitch {env' : Env D} {x id : Lvar} (hx : env' x = some (word (bits (v - lb)))) :
        Reaches I env' (.switch (.var x) id actions) env' act := by
      refine Reaches.switch hx (hI.switch _ (bits_lt _)) ?_ (.refl _ _)
      rw [bits_of_nonneg (by omega) hidx]
      exact hact
    have hlit (env' : Env D) : val I env' (tagNum lb) = some (word (bits lb)) :=
      congrArg some (hI.num lb)
    have hvals {a : Value} {env' : Env D} (ha : val I env' a = some (word (bits v))) :
        vals I env' [a, tagNum lb] = some [word (bits v), word (bits lb)] := by
      simp [vals, ha, hlit]
    have hout (env' : Env D) (d : D) : ∀ x < n, env'.set n d x = env' x :=
      fun x hx => Env.set_of_ne env' d (Nat.ne_of_lt hx)
    have hint : tagIntKind ∈ [tagIntKind, tagWordKind] := List.mem_cons_self
    have hword : tagWordKind ∈ [tagIntKind, tagWordKind] := by simp
    cases k with
    | int =>
      refine ⟨_, n + 2, env.set n (word (bits (v - lb))), rfl, Nat.le_add_right n 2, ?_, hout _ _⟩
      exact Reaches.pure rfl (hvals harg) (pure_sub hI hint v lb) (hswitch (Env.set_self _ _ _))
    | word =>
      refine ⟨_, n + 2, env.set n (word (bits (v - lb))), rfl, Nat.le_add_right n 2, ?_, hout _ _⟩
      exact Reaches.pure rfl (hvals harg) (pure_sub hI hword v lb) (hswitch (Env.set_self _ _ _))
    | enum =>
      refine ⟨_, n + 3, (env.set n (word (bits v))).set (n + 1) (word (bits (v - lb))), rfl,
        Nat.le_add_right n 3, ?_, ?_⟩
      · have hcast : vals I env [arg] = some [word (bits v)] := by
          simp [vals, harg]
        refine Reaches.pure rfl hcast (hI.cast _ (bits_lt v)) ?_
        exact Reaches.pure rfl (hvals (Env.set_self _ _ _)) (pure_sub hI hword v lb)
          (hswitch (Env.set_self _ _ _))
      · intro x hx
        rw [Env.set_of_ne _ _ (Nat.ne_of_lt (Nat.lt_succ_of_lt hx)), hout env _ x hx]

end Parts

theorem builds_table (k : TaggedKind) (arg : Value) (lb : ℤ) (actions : List Cexp) :
    Builds (table k.tagType arg lb actions) := by
  intro n
  rw [table]
  split
  · exact ⟨_, n + 1, rfl, Nat.le_add_right n 1⟩
  · cases k with
    | int => exact ⟨_, n + 2, rfl, Nat.le_add_right n 2⟩
    | word => exact ⟨_, n + 2, rfl, Nat.le_add_right n 2⟩
    | enum => exact ⟨_, n + 3, rfl, Nat.le_add_right n 3⟩

/-! ### The binary search -/

section Gen

variable (ty : TagType) (arg : Value) (default : Cexp)

theorem gen_singleton (lb ub : ℤ) (n : ℕ) (i : ℤ) (act : Cexp) (lo hi : ℤ) :
    gen ty arg default [⟨lb, ub, n, [(i, act)]⟩] lo hi
      = if lo = i ∧ hi = i then return act else ifeq ty arg i act default := by
  rw [gen]

theorem gen_chunk {n : ℕ} (h : cases.length ≠ 1) (lo hi : ℤ) :
    gen ty arg default [⟨lb, ub, n, cases⟩] lo hi = (do
      let exp ← table ty arg lb (cases.map Prod.snd)
      let exp ← lowerCheck ty arg default lo lb exp
      upperCheck ty arg default ub hi exp) := by
  rw [gen]
  rintro i act rfl
  exact h rfl

/-- Two chunks or more are split in two. -/
theorem gen_split {chunks : List Chunk} (h : 2 ≤ chunks.length) (lo hi : ℤ) :
    ∃ c1 c c2, chunks = c1 ++ c :: c2 ∧ c1 ≠ [] ∧ c1.length < chunks.length ∧
      (c :: c2).length < chunks.length ∧
      gen ty arg default chunks lo hi = (do
        let tr ← gen ty arg default c1 lo (c.lb - 1)
        let fl ← gen ty arg default (c :: c2) c.lb hi
        ifless ty arg (ty.tagValue c.lb) tr fl) := by
  obtain ⟨a, b, cs, rfl⟩ : ∃ a b cs, chunks = a :: b :: cs := by
    match chunks, h with
    | a :: b :: cs, _ => exact ⟨a, b, cs, rfl⟩
  obtain ⟨m, hm⟩ : ∃ m, (a :: b :: cs).length / 2 = m := ⟨_, rfl⟩
  rw [List.length_cons, List.length_cons] at hm
  obtain ⟨c, c2, hdrop⟩ : ∃ c c2, (a :: b :: cs).drop m = c :: c2 := by
    apply List.exists_cons_of_ne_nil
    rw [Ne, List.drop_eq_nil_iff, List.length_cons, List.length_cons]
    omega
  have hlen := congrArg List.length hdrop
  rw [List.length_drop, List.length_cons, List.length_cons, List.length_cons] at hlen
  refine ⟨(a :: b :: cs).take m, c, c2, ?_, ?_, ?_, ?_, ?_⟩
  · rw [← hdrop, List.take_append_drop]
  · rw [Ne, List.take_eq_nil_iff]
    rintro (h0 | h0)
    · omega
    · cases h0
  · rw [List.length_take, List.length_cons, List.length_cons]
    omega
  · rw [List.length_cons, List.length_cons, List.length_cons]
    omega
  · rw [gen]
    subst hm
    split
    · next h0 =>
      rw [List.length_cons, List.length_cons, hdrop] at h0
      cases h0
    · next h0 =>
      rw [List.length_cons, List.length_cons, hdrop] at h0
      cases h0
      rfl

end Gen

theorem gen_builds (k : TaggedKind) (arg : Value) (default : Cexp) (chunks : List Chunk)
    (lo hi : ℤ) (hne : chunks ≠ []) : Builds (gen k.tagType arg default chunks lo hi) := by
  induction hn : chunks.length using Nat.strong_induction_on generalizing chunks lo hi with
  | _ n ih =>
    subst hn
    by_cases h2 : 2 ≤ chunks.length
    · obtain ⟨c1, c, c2, -, hne1, hlt1, hlt2, hgen⟩ := gen_split k.tagType arg default h2 lo hi
      rw [hgen]
      apply (ih _ hlt1 c1 _ _ hne1 rfl).bind
      intro tr
      apply (ih _ hlt2 (c :: c2) _ _ (List.cons_ne_nil _ _) rfl).bind
      intro fl
      exact builds_ifless _ _ _ _ _
    · match chunks, hne with
      | [⟨lb, ub, n, cases⟩], _ =>
        by_cases h1 : cases.length = 1
        · obtain ⟨⟨i, act⟩, rfl⟩ := List.length_eq_one_iff.1 h1
          rw [gen_singleton]
          split
          · exact builds_return _
          · exact builds_ifeq _ _ _ _ _
        · rw [gen_chunk _ _ _ h1]
          apply (builds_table k arg lb _).bind
          intro exp
          apply (builds_lowerCheck _ _ _ _ _ exp).bind
          intro exp
          exact builds_upperCheck _ _ _ _ _ exp
      | a :: b :: cs, _ =>
        rw [List.length_cons, List.length_cons] at h2
        omega

section GenSelects

variable {D W : Type} {I : Interp D W} {word : ℕ → D} (hI : TaggedWords I word) {k : TaggedKind}
  {env : Env D} {arg : Value} {default : Cexp} {v : ℤ} (hv : k.Holds v)
  (harg : val I env arg = some (word (bits v)))

include hI hv harg

theorem ifless_lower_keeps (hlb : k.Holds lb) (hle : lb ≤ v) (act tr : Cexp) :
    Keeps I env act (ifless k.tagType arg (k.tagType.tagValue lb) tr) := by
  intro exp n
  obtain ⟨e, he, hr⟩ := reaches_ifless_label hI hv harg hlb tr exp n
  refine ⟨e, n + 1, he, Nat.le_succ n, ?_⟩
  intro env' h
  apply hr
  rwa [if_neg (Int.not_lt.2 hle)]

theorem ifless_upper_keeps (hub : k.Holds ub) (hle : v ≤ ub) (act tr : Cexp) :
    Keeps I env act (ifless k.tagType (k.tagType.tagValue ub) arg tr) := by
  intro exp n
  obtain ⟨e, he, hr⟩ := reaches_label_ifless hI hv harg hub tr exp n
  refine ⟨e, n + 1, he, Nat.le_succ n, ?_⟩
  intro env' h
  apply hr
  rwa [if_neg (Int.not_lt.2 hle)]

theorem ifeq_keeps (hi : k.Holds i) (hne : v ≠ i) (act tr : Cexp) :
    Keeps I env act (ifeq k.tagType arg i tr) := by
  intro exp n
  obtain ⟨e, he, hr⟩ := reaches_ifeq hI hv harg hi tr exp n
  refine ⟨e, n + 1, he, Nat.le_succ n, ?_⟩
  intro env' h
  apply hr
  rwa [if_neg hne]

theorem ifless_lower_selects (hlb : k.Holds lb) (hlt : v < lb) (tr fl : Cexp) :
    Selects I env tr (ifless k.tagType arg (k.tagType.tagValue lb) tr fl) := by
  intro n
  obtain ⟨e, he, hr⟩ := reaches_ifless_label hI hv harg hlb tr fl n
  refine ⟨e, n + 1, env, he, Nat.le_succ n, hr env tr ?_, fun _ _ => rfl⟩
  rw [if_pos hlt]
  exact .refl _ _

theorem ifless_upper_selects (hub : k.Holds ub) (hlt : ub < v) (tr fl : Cexp) :
    Selects I env tr (ifless k.tagType (k.tagType.tagValue ub) arg tr fl) := by
  intro n
  obtain ⟨e, he, hr⟩ := reaches_label_ifless hI hv harg hub tr fl n
  refine ⟨e, n + 1, env, he, Nat.le_succ n, hr env tr ?_, fun _ _ => rfl⟩
  rw [if_pos hlt]
  exact .refl _ _

theorem lowerCheck_keeps (hlb : k.Holds lb) (hle : lb ≤ v) (act : Cexp) :
    Keeps I env act (lowerCheck k.tagType arg default lo lb) := by
  intro exp n
  rw [lowerCheck]
  split
  · exact ifless_lower_keeps hI hv harg hlb hle act default exp n
  · exact ⟨exp, n, rfl, le_rfl, fun _ h => h⟩

theorem upperCheck_keeps (hub : k.Holds ub) (hle : v ≤ ub) (act : Cexp) :
    Keeps I env act (upperCheck k.tagType arg default ub hi) := by
  intro exp n
  rw [upperCheck]
  split
  · exact ifless_upper_keeps hI hv harg hub hle act default exp n
  · exact ⟨exp, n, rfl, le_rfl, fun _ h => h⟩

theorem lowerCheck_default (hlb : k.Holds lb) (hlo : lo ≤ v) (hlt : v < lb) (exp : Cexp) :
    Selects I env default (lowerCheck k.tagType arg default lo lb exp) := by
  rw [lowerCheck, if_pos (by omega)]
  exact ifless_lower_selects hI hv harg hlb hlt default exp

theorem upperCheck_default (hub : k.Holds ub) (hhi : v ≤ hi) (hlt : ub < v) (exp : Cexp) :
    Selects I env default (upperCheck k.tagType arg default ub hi exp) := by
  rw [upperCheck, if_pos (by omega)]
  exact ifless_upper_selects hI hv harg hub hlt default exp

theorem selects_ifeq (hi : k.Holds i) (tr fl : Cexp) :
    Selects I env (if v = i then tr else fl) (ifeq k.tagType arg i tr fl) := by
  intro n
  obtain ⟨e, he, hr⟩ := reaches_ifeq hI hv harg hi tr fl n
  exact ⟨e, n + 1, env, he, Nat.le_succ n, hr _ _ (.refl _ _), fun _ _ => rfl⟩

/-- The switch for one chunk. -/
theorem gen_chunk_selects {c : Chunk} (hd : c.Dense) (hlb : k.Holds c.lb) (hub : k.Holds c.ub)
    (hlo : lo ≤ v) (hhi : v ≤ hi) :
    Selects I env (select default c.cases v) (gen k.tagType arg default [c] lo hi) := by
  obtain ⟨lb, ub, n, cases⟩ := c
  have hle := hd.lb_le_ub
  have hub' := hd.ub_eq
  simp only at hle hub' hlb hub ⊢
  by_cases h1 : cases.length = 1
  · obtain ⟨⟨i, act⟩, rfl⟩ := List.length_eq_one_iff.1 h1
    obtain ⟨rfl, -⟩ := hd.consecutive
    have hsel : select default [(i, act)] v = if v = i then act else default := by
      rw [select, select]
      simp [eq_comm]
    rw [gen_singleton, hsel]
    by_cases h : lo = i ∧ hi = i
    · -- the range leaves no other value
      rw [if_pos h, if_pos (by omega)]
      exact selects_return
    · rw [if_neg h]
      exact selects_ifeq hI hv harg hlb act default
  · rw [gen_chunk _ _ _ h1]
    rcases lt_or_ge v lb with hlt | hge
    · have hsel : select default cases v = default := by
        apply select_of_not_mem
        rw [hd.mem_labels]
        simp only
        omega
      rw [hsel]
      apply Selects.bind_right (builds_table k arg lb _)
      intro exp
      apply (lowerCheck_default hI hv harg hlb hlo hlt exp).bind
      exact upperCheck_keeps hI hv harg hub (by omega) default
    · rcases lt_or_ge ub v with hgt | hle'
      · have hsel : select default cases v = default := by
          apply select_of_not_mem
          rw [hd.mem_labels]
          simp only
          omega
        rw [hsel]
        apply Selects.bind_right (builds_table k arg lb _)
        intro exp
        apply Selects.bind_right (builds_lowerCheck _ _ _ _ _ exp)
        intro exp
        exact upperCheck_default hI hv harg hub hhi hgt exp
      · have hact := @Consecutive.getElem? default _ v _ hd.consecutive hge (by simp only; omega)
        apply (selects_table hI hv harg hlb hge hact).bind
        exact (lowerCheck_keeps hI hv harg hlb hge _).comp (upperCheck_keeps hI hv harg hub hle' _)

/-- **The binary search.** -/
theorem gen_selects {chunks : List Chunk} {lo0 hi0 : ℤ} (hne : chunks ≠ []) (hcs : Chunks chunks)
    (hin : Within lo0 hi0 chunks) (hlo0 : k.Holds lo0) (hhi0 : k.Holds hi0) (hlo : lo ≤ v)
    (hhi : v ≤ hi) :
    Selects I env (select default (allCases chunks) v)
      (gen k.tagType arg default chunks lo hi) := by
  -- the bounds of the chunks are values of the type
  have hbounds {c : Chunk} (hc : c ∈ chunks) : k.Holds c.lb ∧ k.Holds c.ub := by
    have hle := (hcs.dense c hc).lb_le_ub
    obtain ⟨h1, h2⟩ := hin c hc
    exact ⟨hlo0.between hhi0 h1 (hle.trans h2), hlo0.between hhi0 (h1.trans hle) h2⟩
  induction hn : chunks.length using Nat.strong_induction_on generalizing chunks lo hi with
  | _ n ih =>
    subst hn
    by_cases h2 : 2 ≤ chunks.length
    · obtain ⟨c1, c, c2, rfl, hne1, hlt1, hlt2, hgen⟩ := gen_split k.tagType arg default h2 lo hi
      have hc : c ∈ c1 ++ c :: c2 := List.mem_append_right _ List.mem_cons_self
      obtain ⟨ho1, ho2, ho12⟩ := List.pairwise_append.1 hcs.ordered
      have hcs1 : Chunks c1 := ⟨fun d hd => hcs.dense d (List.mem_append_left _ hd), ho1⟩
      have hcs2 : Chunks (c :: c2) := ⟨fun d hd => hcs.dense d (List.mem_append_right _ hd), ho2⟩
      have hin1 : Within lo0 hi0 c1 := fun d hd => hin d (List.mem_append_left _ hd)
      have hin2 : Within lo0 hi0 (c :: c2) := fun d hd => hin d (List.mem_append_right _ hd)
      rw [hgen, allCases_append]
      rcases lt_or_ge v c.lb with hlt | hge
      · -- below the least label of the right half
        have hright : v ∉ labels (allCases (c :: c2)) := by
          rw [mem_labels_allCases hcs2.dense]
          rintro ⟨d, hd, hle, -⟩
          rcases List.mem_cons.1 hd with rfl | hd
          · omega
          · have h1 := (List.pairwise_cons.1 ho2).1 d hd
            have h3 := (hcs2.dense c List.mem_cons_self).lb_le_ub
            omega
        have hsel : select default (allCases c1 ++ allCases (c :: c2)) v
            = select default (allCases c1) v := by
          by_cases hmem : v ∈ labels (allCases c1)
          · exact select_append_left _ hmem
          · rw [select_append_right _ hmem, select_of_not_mem hright, select_of_not_mem hmem]
        rw [hsel]
        apply (ih _ hlt1 hne1 hcs1 hin1 hlo (by omega)
          (fun hd => hbounds (List.mem_append_left _ hd)) rfl).bind
        intro tr n
        obtain ⟨fl, n1, hfl, hle1⟩ :=
          gen_builds k arg default (c :: c2) c.lb hi (List.cons_ne_nil _ _) n
        obtain ⟨e, he, hr⟩ := reaches_ifless_label hI hv harg (hbounds hc).1 tr fl n1
        refine ⟨e, n1 + 1, (bind_run hfl).trans he, hle1.trans (Nat.le_succ _), ?_⟩
        intro env' h
        apply hr
        rwa [if_pos hlt]
      · have hleft : v ∉ labels (allCases c1) := by
          rw [mem_labels_allCases hcs1.dense]
          rintro ⟨d, hd, -, hle⟩
          have h1 := ho12 d hd c List.mem_cons_self
          omega
        rw [select_append_right _ hleft]
        apply Selects.bind_right (gen_builds k arg default c1 lo _ hne1)
        intro tr
        apply (ih _ hlt2 (List.cons_ne_nil _ _) hcs2 hin2 hge hhi
          (fun hd => hbounds (List.mem_append_right _ hd)) rfl).bind
        exact ifless_lower_keeps hI hv harg (hbounds hc).1 hge _ tr
    · match chunks, hne with
      | [c], _ =>
        obtain ⟨h1, h3⟩ := hbounds List.mem_cons_self
        rw [allCases_cons, allCases_nil, List.append_nil]
        exact gen_chunk_selects hI hv harg (hcs.dense c List.mem_cons_self) h1 h3 hlo hhi
      | a :: b :: cs, _ =>
        rw [List.length_cons, List.length_cons] at h2
        omega

theorem ifelseWDefault_selects (hlab : ∀ c ∈ cases, k.Holds c.1) :
    Selects I env (select default cases v) (ifelseWDefault k.tagType arg default cases) := by
  induction cases with
  | nil => exact selects_return
  | cons c r ih =>
    obtain ⟨i, act⟩ := c
    have hi : k.Holds i := hlab _ List.mem_cons_self
    have hr := ih fun c hc => hlab c (List.mem_cons_of_mem _ hc)
    rw [select]
    split
    · next heq =>
      apply Selects.bind_right hr.builds
      intro fl
      have h := selects_ifeq hI hv harg hi act fl
      rwa [if_pos heq.symm] at h
    · next hne =>
      exact hr.bind (ifeq_keeps hI hv harg hi (Ne.symm hne) _ act)

/-- Branches without a default, for an argument that some case has as its label. -/
theorem ifelse_selects (hlab : ∀ c ∈ cases, k.Holds c.1) (hmem : v ∈ labels cases) :
    Selects I env (select default cases v) (ifelse k.tagType arg cases) := by
  have builds (cs : List (ℤ × Cexp)) (hne : cs ≠ []) : Builds (ifelse k.tagType arg cs) := by
    induction cs with
    | nil => exact absurd rfl hne
    | cons c r ih =>
      cases r with
      | nil => exact builds_return _
      | cons c' r =>
        apply (ih (List.cons_ne_nil _ _)).bind
        intro fl
        exact builds_ifeq _ _ _ _ _
  induction cases with
  | nil => cases hmem
  | cons c r ih =>
    obtain ⟨i, act⟩ := c
    rw [labels, List.map_cons, List.mem_cons] at hmem
    cases r with
    | nil =>
      have hv' : v = i := hmem.resolve_right List.not_mem_nil
      rw [select, if_pos hv'.symm]
      exact selects_return
    | cons c' r =>
      have hi : k.Holds i := hlab _ List.mem_cons_self
      rw [select]
      split
      · next heq =>
        apply Selects.bind_right (builds _ (List.cons_ne_nil _ _))
        intro fl
        have h := selects_ifeq hI hv harg hi act fl
        rwa [if_pos heq.symm] at h
      · next hne =>
        have hr := ih (fun c hc => hlab c (List.mem_cons_of_mem _ hc))
          (hmem.resolve_left (Ne.symm hne))
        exact hr.bind (ifeq_keeps hI hv harg hi (Ne.symm hne) _ act)

end GenSelects

theorem numSort_perm (cases : List (ℤ × Cexp)) : (numSort cases).Perm cases :=
  List.mergeSort_perm _ _

theorem numSort_sorted (hnd : (labels cases).Nodup) :
    (numSort cases).Pairwise fun c c' => c.1 < c'.1 := by
  have hle : (numSort cases).Pairwise fun c c' => decide (c.1 ≤ c'.1) = true := by
    apply List.pairwise_mergeSort
    · intro a b c hab hbc
      simp only [decide_eq_true_eq] at hab hbc ⊢
      omega
    · intro a b
      simp only [Bool.or_eq_true, decide_eq_true_eq]
      omega
  have hne : (numSort cases).Pairwise fun c c' => c.1 ≠ c'.1 := by
    have h : (labels (numSort cases)).Nodup := ((numSort_perm cases).map _).nodup_iff.2 hnd
    exact List.pairwise_map.1 h
  apply (hle.and hne).imp
  intro c c' h
  simp only [decide_eq_true_eq] at h
  omega

theorem sorted_bounds {act : Cexp} {r : List (ℤ × Cexp)}
    (hs : ((i, act) :: r).Pairwise fun c c' => c.1 < c'.1) {c : ℤ × Cexp} (hc : c ∈ (i, act) :: r) :
    i ≤ c.1 ∧ c.1 ≤ (((i, act) :: r).getLast (List.cons_ne_nil _ _)).1 := by
  constructor
  · rcases List.mem_cons.1 hc with rfl | hc
    · exact le_refl _
    · exact ((List.pairwise_cons.1 hs).1 c hc).le
  · rw [← List.dropLast_append_getLast (List.cons_ne_nil (i, act) r)] at hc hs
    rcases List.mem_append.1 hc with hc | hc
    · exact ((List.pairwise_append.1 hs).2.2 c hc _ (List.mem_singleton_self _)).le
    · rw [List.mem_singleton] at hc
      rw [hc]

theorem mem_labels_of_exhaustive (hnd : (labels cases).Nodup) {n v : ℤ}
    (hin : ∀ c ∈ cases, 0 ≤ c.1 ∧ c.1 ≤ n) (hlen : ¬ (cases.length : ℤ) ≤ n) (h0 : 0 ≤ v)
    (hn : v ≤ n) : v ∈ labels cases := by
  have hsub : (labels cases).toFinset ⊆ Finset.Icc 0 n := by
    intro i hi
    obtain ⟨c, hc, rfl⟩ := List.mem_map.1 (List.mem_toFinset.1 hi)
    exact Finset.mem_Icc.2 (hin c hc)
  have hcard : (Finset.Icc 0 n).card ≤ (labels cases).toFinset.card := by
    rw [Int.card_Icc, List.toFinset_card_of_nodup hnd, List.length_map]
    omega
  have heq := Finset.eq_of_subset_of_card_le hsub hcard
  rw [← List.mem_toFinset, heq, Finset.mem_Icc]
  exact ⟨h0, hn⟩

/-! ### The switch -/

/-- What is known of a switch: the argument is a value of its type, the cases have distinct
labels of the type, and a declared range covers the argument and the labels. -/
structure SwitchOn (k : TaggedKind) (cases : List (ℤ × Cexp)) (optRange : Option ℤ) (v : ℤ) :
    Prop where
  holds : k.Holds v
  nodup : (labels cases).Nodup
  labels_hold : ∀ c ∈ cases, k.Holds c.1
  range : ∀ n, optRange = some n → (0 ≤ v ∧ v ≤ n) ∧ ∀ c ∈ cases, 0 ≤ c.1 ∧ c.1 ≤ n

section Main

variable {D W : Type} {I : Interp D W} {word : ℕ → D} (hI : TaggedWords I word) {k : TaggedKind}
  {env : Env D} {arg : Value} {default : Cexp} {v : ℤ}
  (harg : val I env arg = some (word (bits v)))

include hI harg

theorem switch'_selects (hv : k.Holds v) (hne : cases ≠ [])
    (hs : cases.Pairwise fun c c' => c.1 < c'.1) (hlab : ∀ c ∈ cases, k.Holds c.1) (hlo : lo ≤ v)
    (hhi : v ≤ hi) :
    Selects I env (select default cases v) (switch' k.tagType arg default cases lo hi) := by
  obtain ⟨hcs, hsel⟩ := @groupCases_spec default _ hs
  obtain ⟨⟨i, act⟩, r, rfl⟩ := List.exists_cons_of_ne_nil hne
  rw [← hsel v]
  -- the first and the last label bound the chunks
  exact gen_selects hI hv harg (groupCases_ne_nil hs hne) hcs
    (groupCases_within hs fun c hc => sorted_bounds hs hc)
    (hlab _ List.mem_cons_self) (hlab _ (List.getLast_mem hne)) hlo hhi

/-- Without a declared range the switch tests the bounds itself. -/
theorem unbounded_selects (hv : k.Holds v) {act : Cexp} {r : List (ℤ × Cexp)}
    (hs : ((lo, act) :: r).Pairwise fun c c' => c.1 < c'.1)
    (hlab : ∀ c ∈ (lo, act) :: r, k.Holds c.1)
    (hhi : hi = (((lo, act) :: r).getLast (List.cons_ne_nil _ _)).1) :
    Selects I env (select default ((lo, act) :: r) v) (do
      let exp ← ifless k.tagType (k.tagType.tagValue hi) arg default
        (← switch' k.tagType arg default ((lo, act) :: r) lo hi)
      if unsigned k.tagType.kind ∧ lo = 0 then return exp
      else ifless k.tagType arg (k.tagType.tagValue lo) default exp) := by
  have hlo : k.Holds lo := hlab _ List.mem_cons_self
  have hhi' : k.Holds hi := hhi ▸ hlab _ (List.getLast_mem _)
  have hbounds (c : ℤ × Cexp) (hc : c ∈ (lo, act) :: r) : lo ≤ c.1 ∧ c.1 ≤ hi := by
    rw [hhi]
    exact sorted_bounds hs hc
  have hdefault (h : v < lo ∨ hi < v) : select default ((lo, act) :: r) v = default := by
    apply select_of_not_mem
    intro hmem
    obtain ⟨c, hc, rfl⟩ := List.mem_map.1 hmem
    have := hbounds c hc
    omega
  have hkeeps (hge : lo ≤ v) (act' : Cexp) : Keeps I env act' fun exp =>
      if unsigned k.tagType.kind ∧ lo = 0 then return exp
      else ifless k.tagType arg (k.tagType.tagValue lo) default exp := by
    intro exp n
    split
    · exact ⟨exp, n, rfl, le_rfl, fun _ h => h⟩
    · exact ifless_lower_keeps hI hv harg hlo hge act' default exp n
  have hgroup : groupCases ((lo, act) :: r) default ≠ [] :=
    groupCases_ne_nil hs (List.cons_ne_nil _ _)
  rcases lt_or_ge v lo with hlt | hge
  · -- below the least label; the test is there, as an unsigned number is not below zero
    rw [hdefault (.inl hlt)]
    apply Selects.bind_right (gen_builds k arg default _ _ _ hgroup)
    intro exp
    apply Selects.bind_right (builds_ifless _ _ _ _ _)
    intro exp
    have htest : ¬ (unsigned k.tagType.kind ∧ lo = 0) := by
      rintro ⟨hu, rfl⟩
      cases k with
      | int => cases hu
      | word => exact absurd hv.1 (by omega)
      | enum => exact absurd hv.1 (by omega)
    rw [if_neg htest]
    exact ifless_lower_selects hI hv harg hlo hlt default exp
  · rcases lt_or_ge hi v with hgt | hle'
    · rw [hdefault (.inr hgt)]
      apply Selects.bind_right (gen_builds k arg default _ _ _ hgroup)
      intro exp
      exact (ifless_upper_selects hI hv harg hhi' hgt default exp).bind (hkeeps hge default)
    · apply (switch'_selects hI harg hv (List.cons_ne_nil _ _) hs hlab hge hle').bind
      exact (ifless_upper_keeps hI hv harg hhi' hle' _ default).comp (hkeeps hge _)

theorem taggedNumSwitchWith_selects {cases : List (ℤ × Cexp)} {optRange : Option ℤ}
    (h : SwitchOn k cases optRange v) :
    Selects I env (select default cases v)
      (taggedNumSwitchWith k.tagType arg cases default optRange) := by
  match hcases : cases with
  | [] => exact selects_return
  | c :: r =>
    rw [← hcases] at h ⊢
    have hne : cases ≠ [] := hcases ▸ List.cons_ne_nil _ _
    have hperm := numSort_perm cases
    have hs := numSort_sorted h.nodup
    have hlab (c : ℤ × Cexp) (hc : c ∈ numSort cases) : k.Holds c.1 :=
      h.labels_hold c (hperm.mem_iff.1 hc)
    have hnd : (labels (numSort cases)).Nodup := ((hperm.map Prod.fst).nodup_iff).2 h.nodup
    have hsel : select default (numSort cases) v = select default cases v :=
      select_perm hperm hnd v
    have hne' : numSort cases ≠ [] := by
      intro h0
      rw [h0] at hperm
      exact hne hperm.symm.eq_nil
    have hdef : taggedNumSwitchWith k.tagType arg cases default optRange
        = taggedNumSwitchWith k.tagType arg (c :: r) default optRange := by rw [hcases]
    rw [hdef, taggedNumSwitchWith.eq_def]
    simp only []
    rw [← hcases, ← hsel]
    by_cases hfew : cases.length < switchLimit
    · rw [decide_eq_true hfew]
      cases hopt : optRange with
      | none => exact ifelseWDefault_selects hI h.holds harg hlab
      | some n =>
        obtain ⟨⟨h0, hn⟩, hin⟩ := h.range n hopt
        simp only []
        split
        · exact ifelseWDefault_selects hI h.holds harg hlab
        · next hlen =>
          -- every value of the range has a case
          apply ifelse_selects hI h.holds harg hlab
          rw [(hperm.map Prod.fst).mem_iff]
          exact mem_labels_of_exhaustive h.nodup hin hlen h0 hn
    · rw [decide_eq_false hfew]
      cases hopt : optRange with
      | none =>
        simp only []
        split
        · next h0 => exact absurd h0 hne'
        · next lo act r' h0 =>
          rw [h0] at hs hlab ⊢
          exact unbounded_selects hI harg h.holds hs hlab rfl
      | some n =>
        obtain ⟨⟨h0, hn⟩, -⟩ := h.range n hopt
        exact switch'_selects hI harg h.holds hne' hs hlab h0 hn

/-- **The switch on tagged numbers.**  The switch is built, and its execution gets to the action
of the case with the label that the argument has, or to the default; only variables from the
supply change on the way, and a table that is reached before the action has an index inside its
bounds. -/
theorem taggedNumSwitchWith_correct {cases : List (ℤ × Cexp)} {optRange : Option ℤ}
    (h : SwitchOn k cases optRange v) (n : Lvar) :
    ∃ e n' env', taggedNumSwitchWith k.tagType arg cases default optRange n = .ok (e, n') ∧
      Reaches I env e env' (select default cases v) ∧ (∀ x < n, env' x = env x) ∧
      (∀ store w, exec I store env w e = exec I store env' w (select default cases v)) ∧
      ∀ env1 u id actions, Reaches I env e env1 (.switch u id actions) →
        Reaches I env' (select default cases v) env1 (.switch u id actions) ∨
          ∃ d i, val I env1 u = some d ∧ I.switch d = some i ∧ i < actions.length := by
  obtain ⟨e, n', env', he, -, hr, hout⟩ := taggedNumSwitchWith_selects hI harg h n
  exact ⟨e, n', env', he, hr, hout, hr.exec_eq, fun _ _ _ _ h1 => hr.switch_in_bounds h1⟩

end Main

/-- An interpretation in which tagged words are their own values. -/
def tagInterp : Interp ℕ Unit where
  fn := id
  unfn := some
  lit
    | .num n => bits n.ival
    | .enum i => bits i
    | _ => 0
  path _ d := some d
  record _ _ := none
  select _ _ := none
  offset _ _ := none
  switch := some
  branch
    | .cmp .eql _, [a, b] => some (decide (a = b))
    | .cmp .lt (.int _), [a, b] =>
      some (decide (TwosComplement.signed 63 a < TwosComplement.signed 63 b))
    | .cmp .lt _, [a, b] => some (decide (a < b))
    | _, _ => none
  arith _ _ := none
  pure
    | .cast, [a] => some a
    | .pureArith .sub _, [a, b] => some ((a + (2 ^ 63 - b)) % 2 ^ 63)
    | _, _ => none
  alloc _ _ _ := none
  setter _ _ _ := none
  looker _ _ _ := none
  overflow _ := none
  rcc _ _ _ _ _ := none

theorem tagInterp_taggedWords : TaggedWords tagInterp id where
  num := fun _ => rfl
  enum := fun _ => rfl
  eql := fun _ _ _ _ _ => rfl
  lt_signed := fun _ _ _ _ => rfl
  lt_unsigned := by
    intro kind hkind a b _ _
    rcases List.mem_cons.1 hkind with rfl | hkind
    · rfl
    · rw [List.mem_singleton] at hkind
      subst hkind
      rfl
  sub := fun _ _ _ _ _ _ => rfl
  cast := fun _ _ => rfl
  switch := fun _ _ => rfl

/-- Five cases of type `int`, one of them negative, on a number between two labels. -/
theorem taggedNumSwitchWith_correct_five :
    ∃ e n' env',
      taggedNumSwitchWith TaggedKind.int.tagType (.var 0)
          ([-1, 0, 1, 2, 4].map fun i => (i, .app (.label 7) [tagNum i])) (.app (.label 8) [])
          none 9 = .ok (e, n') ∧
        Reaches tagInterp (Env.set (fun _ => none) 0 3) e env' (.app (.label 8) []) := by
  have h : SwitchOn .int ([-1, 0, 1, 2, 4].map fun i => (i, Cexp.app (.label 7) [tagNum i])) none
      3 := by
    refine ⟨by decide, by decide, ?_, fun n hn => by cases hn⟩
    intro c hc
    rw [List.mem_map] at hc
    obtain ⟨i, hi, rfl⟩ := hc
    fin_cases hi <;> decide
  obtain ⟨e, n', env', he, hr, -⟩ := @taggedNumSwitchWith_correct ℕ Unit tagInterp id
    tagInterp_taggedWords .int (Env.set (fun _ => none) 0 3) (.var 0) (.app (.label 8) []) 3 rfl
    _ none h 9
  exact ⟨e, n', env', he, hr⟩

end SmlNj.CPS.Switch
