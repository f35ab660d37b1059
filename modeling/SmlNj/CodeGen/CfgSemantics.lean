import SmlNj.CodeGen.Cfg
import SmlNj.CPS.Numbers

/-!
# The meaning of control-flow graphs

The evaluation of expressions and the steps of the statements of a fragment, up to the jump that
leaves it.  The meaning is parametrised by an interpretation: the values, a world for what the
primitives read and write, and the operators as functions.  What the operators do on machine words
is fixed here, for the interpretations that have them.

What an operator yields may depend on the memory, also if the operator is one of those that are
called pure: an element of a numeric sequence is fetched by `PURE_RAW_SUBSCRIPT` even if the sequence
is mutable.  A machine is an interpretation for each state of its memory.

Numbers of fewer bits than a machine word are words: a number is stored by its low bits, and is
extended by zeros where it is fetched.

## Main definitions

* `Interp` — an interpretation of the primitive operations.
* `eval` — the value of an expression.
* `step`, `Leads`, `Traps` — the execution of a statement.
* `execPure`, `execArith` — what the operators do on the patterns of machine words.
* `Words` — the interpretations with machine words.
* `Machine` — machine words, their conversions to fewer bits and back, records.
* `Sequences` — the elements of numeric sequences.
* `SpecialObjects` — objects with a descriptor that can be changed.
* `cells` — a machine whose memory is a table of cells.
-/

namespace SmlNj.CFG

open TwosComplement

/-- An interpretation of the primitive operations over values `V` and worlds `W`.  Operators are
partial; an arithmetic operator may also trap, which yields `some none`. -/
structure Interp (V W : Type) where
  num : ℤ → ℕ → V
  label : Lvar → V
  pure : Prim.Pure → List V → Option V
  looker : Prim.Looker → List V → W → Option V
  select : ℕ → V → W → Option V
  alloc : Prim.Alloc → List V → W → Option (V × W)
  arith : Prim.Arith → List V → Option (Option V)
  branch : Prim.Branch → List V → Option Bool
  switch : V → Option ℕ
  setter : Prim.Setter → List V → W → Option W
  /-- A garbage collection: the new roots. -/
  callgc : List V → W → Option (List V × W)

abbrev Env (V : Type) := CPS.Env V

section Exec

variable {V W : Type} (I : Interp V W)

mutual

/-- **The value of an expression.** -/
def eval (env : Env V) (w : W) : Exp → Option V
  | .var x => env x
  | .label l => some (I.label l)
  | .num iv sz => some (I.num iv sz)
  | .looker oper args => (evals env w args).bind fun vs => I.looker oper vs w
  | .pure oper args => (evals env w args).bind fun vs => I.pure oper vs
  | .select idx arg => (eval env w arg).bind fun v => I.select idx v w

def evals (env : Env V) (w : W) : List Exp → Option (List V)
  | [] => some []
  | e :: es => (eval env w e).bind fun v => (evals env w es).map (v :: ·)

end

attribute [simp] eval evals

/-- A statement that is about to be executed. -/
structure State (V W : Type) where
  env : Env V
  world : W
  stm : Stm

/-- **One step of a fragment**: the next state, or `some none` for a trap.  A jump leaves the
fragment, and a call of a C function is not modelled. -/
def step (s : State V W) : Option (Option (State V W)) :=
  match s.stm with
  | .letE e x k => do
      let v ← eval I s.env s.world e
      some (some ⟨s.env.set x.name v, s.world, k⟩)
  | .alloc p args x k => do
      let vs ← evals I s.env s.world args
      let (v, w) ← I.alloc p vs s.world
      some (some ⟨s.env.set x v, w, k⟩)
  | .switch e cases => do
      let v ← eval I s.env s.world e
      let i ← I.switch v
      let k ← cases[i]?
      some (some ⟨s.env, s.world, k⟩)
  | .branch p args _ k1 k2 => do
      let vs ← evals I s.env s.world args
      let b ← I.branch p vs
      some (some ⟨s.env, s.world, if b then k1 else k2⟩)
  | .arith p args x k => do
      let vs ← evals I s.env s.world args
      match ← I.arith p vs with
      | some v => some (some ⟨s.env.set x.name v, s.world, k⟩)
      | none => some none
  | .setter p args k => do
      let vs ← evals I s.env s.world args
      let w ← I.setter p vs s.world
      some (some ⟨s.env, w, k⟩)
  | .callgc roots newRoots k => do
      let vs ← evals I s.env s.world roots
      let (vs, w) ← I.callgc vs s.world
      let env ← s.env.bind newRoots vs
      some (some ⟨env, w, k⟩)
  | .apply .. | .throw .. | .goto .. | .rcc .. => none

def Leads : State V W → State V W → Prop :=
  Relation.ReflTransGen fun s s' => step I s = some (some s')

def Traps (s : State V W) : Prop := ∃ s', Leads I s s' ∧ step I s' = some none

variable {I} {env : Env V} {w : W}

variable {x : Param} {k : Stm} {v : V} {args : List Exp} {vs : List V}

theorem Leads.letE {e : Exp} (h : eval I env w e = some v) :
    Leads I ⟨env, w, .letE e x k⟩ ⟨env.set x.name v, w, k⟩ := by
  refine Relation.ReflTransGen.single ?_
  simp [step, h]

theorem Leads.arith {p : Prim.Arith} (h : evals I env w args = some vs)
    (hp : I.arith p vs = some (some v)) :
    Leads I ⟨env, w, .arith p args x k⟩ ⟨env.set x.name v, w, k⟩ := by
  refine Relation.ReflTransGen.single ?_
  simp [step, h, hp]

theorem Traps.arith {p : Prim.Arith} (h : evals I env w args = some vs)
    (hp : I.arith p vs = some none) : Traps I ⟨env, w, .arith p args x k⟩ := by
  refine ⟨_, Relation.ReflTransGen.refl, ?_⟩
  simp [step, h, hp]

theorem Leads.branch {p : Prim.Branch} {args : List Exp} {prob : Probability} {k1 k2 : Stm}
    {vs : List V} {b : Bool} (h : evals I env w args = some vs) (hp : I.branch p vs = some b) :
    Leads I ⟨env, w, .branch p args prob k1 k2⟩ ⟨env, w, if b then k1 else k2⟩ := by
  refine Relation.ReflTransGen.single ?_
  simp [step, h, hp]

theorem Leads.alloc {p : Prim.Alloc} {x : Lvar} {w' : W} (h : evals I env w args = some vs)
    (hp : I.alloc p vs w = some (v, w')) :
    Leads I ⟨env, w, .alloc p args x k⟩ ⟨env.set x v, w', k⟩ := by
  refine Relation.ReflTransGen.single ?_
  simp [step, h, hp]

theorem Leads.callgc {roots : List Exp} {newRoots : List Lvar} {vs' : List V} {w' : W}
    {env' : Env V} (h : evals I env w roots = some vs) (hp : I.callgc vs w = some (vs', w'))
    (hb : env.bind newRoots vs' = some env') :
    Leads I ⟨env, w, .callgc roots newRoots k⟩ ⟨env', w', k⟩ := by
  refine Relation.ReflTransGen.single ?_
  simp [step, h, hp, hb]

theorem Leads.traps {s s' : State V W} (h : Leads I s s') (h' : Traps I s') : Traps I s := by
  obtain ⟨s'', hs, ht⟩ := h'
  exact ⟨s'', h.trans hs, ht⟩

end Exec

/-! ### Machine words -/

/-- What an operator does on the patterns of `sz`-bit words.  A shift by the size of the word or
more has no meaning, nor has a division by zero. -/
def execPure : Prim.PureOp → ℕ → List ℤ → Option ℤ
  | .add, sz, [a, b] => some (unsigned sz (a + b))
  | .sub, sz, [a, b] => some (unsigned sz (a - b))
  | .mul, sz, [a, b] => some (unsigned sz (a * b))
  | .sdiv, sz, [a, b] =>
    if b = 0 then none else some (unsigned sz ((signed sz a).tdiv (signed sz b)))
  | .srem, sz, [a, b] =>
    if b = 0 then none else some (unsigned sz ((signed sz a).tmod (signed sz b)))
  | .udiv, _, [a, b] => if b = 0 then none else some (a / b)
  | .urem, _, [a, b] => if b = 0 then none else some (a % b)
  | .shl, sz, [a, k] => if k < sz then some (unsigned sz (a * 2 ^ k.toNat)) else none
  | .ashr, sz, [a, k] => if k < sz then some (unsigned sz (signed sz a / 2 ^ k.toNat)) else none
  | .lshr, sz, [a, k] => if k < sz then some (a / 2 ^ k.toNat) else none
  | .orb, _, [a, b] => some (Int.lor a b)
  | .xorb, _, [a, b] => some (Int.xor a b)
  | .andb, _, [a, b] => some (Int.land a b)
  | .cntpop, sz, [a] => some (BitCount.popCount sz a.toNat)
  | .cntlz, sz, [a] => some (BitCount.leadingZeros sz a.toNat)
  | .cnttz, sz, [a] => some (BitCount.trailingZeros sz a.toNat)
  | .rotl, sz, [a, k] => some (Rotation.rotate sz (k.toNat % sz) a)
  | .rotr, sz, [a, k] => some (Rotation.rotate sz (sz - k.toNat % sz) a)
  | _, _, _ => none

section

variable (sz : ℕ) (a b k : ℤ)

theorem execPure_add : execPure .add sz [a, b] = some (unsigned sz (a + b)) := rfl

theorem execPure_sub : execPure .sub sz [a, b] = some (unsigned sz (a - b)) := rfl

theorem execPure_sdiv : execPure .sdiv sz [a, b] =
    if b = 0 then none else some (unsigned sz ((signed sz a).tdiv (signed sz b))) := rfl

theorem execPure_srem : execPure .srem sz [a, b] =
    if b = 0 then none else some (unsigned sz ((signed sz a).tmod (signed sz b))) := rfl

theorem execPure_shl : execPure .shl sz [a, k] =
    if k < sz then some (unsigned sz (a * 2 ^ k.toNat)) else none := rfl

theorem execPure_ashr : execPure .ashr sz [a, k] =
    if k < sz then some (unsigned sz (signed sz a / 2 ^ k.toNat)) else none := rfl

theorem execPure_lshr : execPure .lshr sz [a, k] =
    if k < sz then some (a / 2 ^ k.toNat) else none := rfl

theorem execPure_orb : execPure .orb sz [a, b] = some (Int.lor a b) := rfl

end

/-- The signed number that a trapping operator computes. -/
def execSigned : Prim.Arithop → List ℤ → Option ℤ
  | .iadd, [x, y] => some (x + y)
  | .isub, [x, y] => some (x - y)
  | .imul, [x, y] => some (x * y)
  | .idiv, [x, y] => if y = 0 then none else some (x.tdiv y)
  | .irem, [x, y] => if y = 0 then none else some (x.tmod y)
  | _, _ => none

def checked (sz : ℕ) (x : ℤ) : Option ℤ :=
  if -2 ^ (sz - 1) ≤ x ∧ x < 2 ^ (sz - 1) then some (unsigned sz x) else none

/-- What a trapping operator does on the patterns of `sz`-bit words: a word, or a trap. -/
def execArith (oper : Prim.Arithop) (sz : ℕ) (ds : List ℤ) : Option (Option ℤ) :=
  (execSigned oper (ds.map (signed sz))).map (checked sz)

/-- A comparison of `sz`-bit words. -/
def execCmp (oper : CPS.P.CmpOp) (isSigned : Bool) (sz : ℕ) (a b : ℤ) : Bool :=
  if isSigned then CPS.compareNum oper (signed sz a) (signed sz b) else CPS.compareNum oper a b

/-- **An interpretation has machine words** if its operators on 64-bit numbers are those of the
machine. -/
structure Words {V W : Type} (I : Interp V W) where
  word : ℤ → V
  injective {a b : ℤ} (ha : Pattern 64 a) (hb : Pattern 64 b) (h : word a = word b) : a = b
  num (i : ℤ) : I.num i 64 = word (unsigned 64 i)
  pure (oper : Prim.PureOp) (ds : List ℤ) {d : ℤ} (h : execPure oper 64 ds = some d) :
    I.pure (.pureArith oper 64) (ds.map word) = some (word d)
  arith (oper : Prim.Arithop) (ds : List ℤ) {r : Option ℤ} (h : execArith oper 64 ds = some r) :
    I.arith (.arith oper 64) (ds.map word) = some (r.map word)
  branch (oper : CPS.P.CmpOp) (isSigned : Bool) (a b : ℤ) :
    I.branch (.cmp oper isSigned 64) [word a, word b] = some (execCmp oper isSigned 64 a b)

namespace Words

variable {V W : Type} {I : Interp V W} (M : Words I) {env : Env V} {w : W}

theorem eval_num (i : ℤ) : eval I env w (.num i 64) = some (M.word (unsigned 64 i)) := by
  rw [eval, M.num]

theorem eval_pure₁ {oper : Prim.PureOp} {e : Exp} {a d : ℤ}
    (he : eval I env w e = some (M.word a)) (h : execPure oper 64 [a] = some d) :
    eval I env w (.pure (.pureArith oper 64) [e]) = some (M.word d) := by
  have hp := M.pure oper [a] h
  simp only [eval, evals, he, Option.bind_some, Option.map_some]
  exact hp

theorem eval_pure₂ {oper : Prim.PureOp} {e₁ e₂ : Exp} {a b d : ℤ}
    (he₁ : eval I env w e₁ = some (M.word a)) (he₂ : eval I env w e₂ = some (M.word b))
    (h : execPure oper 64 [a, b] = some d) :
    eval I env w (.pure (.pureArith oper 64) [e₁, e₂]) = some (M.word d) := by
  have hp := M.pure oper [a, b] h
  simp only [eval, evals, he₁, he₂, Option.bind_some, Option.map_some]
  exact hp

end Words

/-- An interpretation that has machine words and nothing else. -/
def wordInterp : Interp ℤ Unit where
  num i sz := unsigned sz i
  label l := l
  pure
    | .pureArith oper sz, ds => execPure oper sz ds
    | _, _ => none
  looker _ _ _ := none
  select _ _ _ := none
  alloc _ _ _ := none
  arith
    | .arith oper sz, ds => execArith oper sz ds
    | _, _ => none
  branch
    | .cmp oper isSigned sz, [a, b] => some (execCmp oper isSigned sz a b)
    | _, _ => none
  switch _ := none
  setter _ _ _ := none
  callgc _ _ := none

/-- It has machine words. -/
def wordInterpWords : Words wordInterp where
  word := id
  injective _ _ h := h
  num _ := rfl
  pure oper ds d h := by
    rw [List.map_id]
    exact h
  arith oper ds r h := by
    rw [List.map_id]
    exact h.trans (congrArg some (Option.map_id_apply).symm)
  branch _ _ _ _ := rfl

/-! ## Machines with a memory -/

open TwosComplement

/-- **A machine**, as an interpretation for each state of its memory. -/
structure Machine {V W : Type} (J : W → Interp V W) where
  word : ℤ → V
  injective {a b : ℤ} (ha : Pattern 64 a) (hb : Pattern 64 b) (h : word a = word b) : a = b
  num {sz : ℕ} (hsz : sz ≤ 64) (i : ℤ) (w : W) : (J w).num i sz = word (unsigned sz i)
  pure (w : W) (oper : Prim.PureOp) (ds : List ℤ) {d : ℤ} (h : execPure oper 64 ds = some d) :
    (J w).pure (.pureArith oper 64) (ds.map word) = some (word d)
  arith (w : W) (oper : Prim.Arithop) (ds : List ℤ) {r : Option ℤ}
    (h : execArith oper 64 ds = some r) :
    (J w).arith (.arith oper 64) (ds.map word) = some (r.map word)
  branch (w : W) (oper : CPS.P.CmpOp) (isSigned : Bool) (a b : ℤ) :
    (J w).branch (.cmp oper isSigned 64) [word a, word b] = some (execCmp oper isSigned 64 a b)
  trunc {sz : ℕ} (hsz : sz ≤ 64) (p : ℤ) (w : W) :
    (J w).pure (.trunc 64 sz) [word p] = some (word (unsigned sz p))
  signExtend {sz : ℕ} (hsz : sz ≤ 64) (p : ℤ) (w : W) :
    (J w).pure (.extend true sz 64) [word p] = some (word (unsigned 64 (signed sz p)))
  zeroExtend {sz : ℕ} (hsz : sz ≤ 64) (p : ℤ) (w : W) :
    (J w).pure (.extend false sz 64) [word p] = some (word (unsigned sz p))
  /-- A field can be fetched by its number, or by an index. -/
  subscript (v : V) {i : ℕ} (hi : Pattern 64 i) (w : W) :
    (J w).pure .pureSubscript [v, word i] = (J w).select i v w

/-- It has machine words in each state of the memory. -/
def Machine.words {V W : Type} {J : W → Interp V W} (M : Machine J) (w : W) : Words (J w) where
  word := M.word
  injective := M.injective
  num i := M.num le_rfl i w
  pure := M.pure w
  arith := M.arith w
  branch := M.branch w

/-- The size of the cells of a numeric sequence; one of tagged integers uses the next largest
size. -/
def cellSize (sz : ℕ) : ℕ :=
  if sz ≤ 8 then 8 else if sz ≤ 16 then 16 else if sz ≤ 32 then 32 else 64

/-- **Numeric sequences.**  Where a number of `sz` bits has been stored, one of at least `sz` bits in
the same cell can be fetched, and has these low bits. -/
structure Sequences {V W : Type} {J : W → Interp V W} (M : Machine J) where
  /-- The sequence with these data has an element of this kind and size at an index. -/
  HasElem : Prim.Numkind → ℕ → V → ℤ → W → Prop
  /-- The floating-point numbers of a size. -/
  IsFloat : ℕ → V → Prop
  update_int {sz : ℕ} {b : V} {i : ℤ} {w : W} (h : HasElem .int sz b i w) (p : ℤ) :
    ∃ w', (J w).setter (.rawUpdate .int sz) [b, M.word (unsigned 64 i), M.word p] w = some w' ∧
      ∀ sz', sz ≤ sz' → cellSize sz' = cellSize sz →
        ∃ q, (J w').pure (.pureRawSubscript .int sz') [b, M.word (unsigned 64 i)] =
            some (M.word q) ∧ Pattern sz' q ∧ unsigned sz q = unsigned sz p
  update_float {sz : ℕ} {b : V} {i : ℤ} {w : W} (h : HasElem .flt sz b i w) {x : V}
    (hx : IsFloat sz x) :
    ∃ w', (J w).setter (.rawUpdate .flt sz) [b, M.word (unsigned 64 i), x] w = some w' ∧
      (J w').pure (.pureRawSubscript .flt sz) [b, M.word (unsigned 64 i)] = some x

/-- **Special objects.**  The descriptor stands below the object. -/
structure SpecialObjects {V W : Type} {J : W → Interp V W} (M : Machine J) where
  Special : V → W → Prop
  alloc (w : W) (d : ℤ) (v : V) (hd : Pattern 64 d) :
    ∃ a w', (J w).alloc .special [M.word d, v] w = some (a, w') ∧ Special a w' ∧
      (J w').looker (.rawLoad .int 64) [a, M.word (unsigned 64 (-8))] w' = some (M.word d)
  store {w : W} {a : V} (h : Special a w) (d : ℤ) (hd : Pattern 64 d) :
    ∃ w', (J w).setter (.rawStore .int 64) [a, M.word (unsigned 64 (-8)), M.word d] w = some w' ∧
      Special a w' ∧
      (J w').looker (.rawLoad .int 64) [a, M.word (unsigned 64 (-8))] w' = some (M.word d)

/-! ### A table of cells -/

/-- A memory: the next address, and what is stored at a base and an offset. -/
structure Cells where
  next : ℤ
  cell : ℤ → ℤ → ℤ

namespace Cells

def set (m : Cells) (b i d : ℤ) : Cells :=
  { m with cell := fun b' i' => if b' = b ∧ i' = i then d else m.cell b' i' }

@[simp] theorem cell_set (m : Cells) (b i d : ℤ) : (m.set b i d).cell b i = d :=
  if_pos ⟨rfl, rfl⟩

theorem cell_set_of_ne (m : Cells) {b i i' d : ℤ} (h : i' ≠ i) :
    (m.set b i d).cell b i' = m.cell b i' :=
  if_neg fun h' => h h'.2

end Cells

/-- A machine whose values are words. -/
def cellsInterp (m : Cells) : Interp ℤ Cells where
  num i sz := unsigned sz i
  label l := l
  pure
    | .pureArith oper sz, ds => execPure oper sz ds
    | .trunc 64 sz, [p] => some (unsigned sz p)
    | .extend true sz 64, [p] => some (unsigned 64 (signed sz p))
    | .extend false sz 64, [p] => some (unsigned sz p)
    | .pureSubscript, [b, i] => some (m.cell b i)
    | .pureRawSubscript .int sz, [b, i] => some (unsigned sz (m.cell b i))
    | .pureRawSubscript .flt _, [b, i] => some (m.cell b i)
    | _, _ => none
  looker
    | .rawLoad .int sz, [b, i], m => some (unsigned sz (m.cell b i))
    | _, _, _ => none
  select i b m := some (m.cell b i)
  alloc
    | .special, [d, v], m =>
      some (m.next, { (m.set m.next (unsigned 64 (-8)) d).set m.next 0 v with next := m.next + 1 })
    | _, _, _ => none
  arith
    | .arith oper sz, ds => execArith oper sz ds
    | _, _ => none
  branch
    | .cmp oper isSigned sz, [a, b] => some (execCmp oper isSigned sz a b)
    | _, _ => none
  switch d := some d.toNat
  setter
    | .rawUpdate .int sz, [b, i, p], m => some (m.set b i (unsigned sz p))
    | .rawUpdate .flt _, [b, i, x], m => some (m.set b i x)
    | .rawStore .int sz, [b, i, p], m => some (m.set b i (unsigned sz p))
    | _, _, _ => none
  callgc _ _ := none

/-- Its words. -/
def cells : Machine cellsInterp where
  word := id
  injective _ _ h := h
  num _ _ _ := rfl
  pure w oper ds d h := by
    rw [List.map_id]
    exact h
  arith w oper ds r h := by
    rw [List.map_id]
    exact h.trans (congrArg some (Option.map_id_apply).symm)
  branch _ _ _ _ _ := rfl
  trunc _ _ _ := rfl
  signExtend _ _ _ := rfl
  zeroExtend _ _ _ := rfl
  subscript _ _ _ _ := rfl

/-- Its sequences: all cells are elements. -/
def cellsSequences : Sequences cells where
  HasElem _ _ _ _ _ := True
  IsFloat _ _ := True
  update_int {sz b i w} _ p := by
    refine ⟨w.set b (unsigned 64 i) (unsigned sz p), rfl, fun sz' hle _ => ⟨unsigned sz p, ?_, ?_, ?_⟩⟩
    · change some (unsigned sz' ((w.set b (unsigned 64 i) (unsigned sz p)).cell b (unsigned 64 i))) =
        some (unsigned sz p)
      rw [Cells.cell_set, unsigned_of_pattern ((pattern_unsigned sz p).mono hle)]
    · exact (pattern_unsigned sz p).mono hle
    · exact unsigned_of_pattern (pattern_unsigned sz p)
  update_float {sz b i w} _ x _ := by
    refine ⟨w.set b (unsigned 64 i) x, rfl, ?_⟩
    exact congrArg some (Cells.cell_set w b (unsigned 64 i) x)

/-- Its special objects. -/
def cellsSpecial : SpecialObjects cells where
  Special _ _ := True
  alloc w d v hd := by
    refine ⟨_, _, rfl, trivial, ?_⟩
    have hne : unsigned 64 (-8) ≠ 0 := by decide
    change some (unsigned 64 (((w.set w.next (unsigned 64 (-8)) d).set w.next 0 v).cell w.next
      (unsigned 64 (-8)))) = some d
    rw [Cells.cell_set_of_ne _ hne, Cells.cell_set, unsigned_of_pattern hd]
  store {w a} _ d hd := by
    refine ⟨_, rfl, trivial, ?_⟩
    have hcell := Cells.cell_set w a (unsigned 64 (-8)) (unsigned 64 d)
    rw [unsigned_of_pattern hd] at hcell
    change some (unsigned 64 ((w.set a (unsigned 64 (-8)) (unsigned 64 d)).cell a
      (unsigned 64 (-8)))) = some d
    rw [unsigned_of_pattern hd, hcell, unsigned_of_pattern hd]

end SmlNj.CFG
