import SmlNj.CPS.Opt.TrappingFoldingSound

/-!
# Where the decision of tests is sound

A test is decided before the program runs from the literals among its operands and from what is
known about its variables.  Here a variable is bound to a number, by its bit pattern, or to a
pointer; the tests of tagged numbers and of pointers are those of machine words.

## Main definitions

* `outcome` — the outcome of a test under a valuation of the variables.
* `Consistent` — the valuations that agree with the known definitions.
* `Misdecided` — the tests that are decided the other way.

## Main results

* `branch_sound_iff` — the decision of a test is right exactly off `Misdecided`.
* `not_branch_sound` — a power of two, as a signed literal, is taken for none.
-/

namespace SmlNj.ContractPrim

open CPS TwosComplement IntBitwise

/-- What a variable is bound to: a number, tagged or not, or a pointer. -/
inductive Datum
  | word (tag : Bool) (a : ℤ)
  | pointer (a : ℕ)
  deriving DecidableEq

def Datum.pattern : Datum → ℤ
  | .word _ a => a
  | .pointer _ => 0

section

variable (ρ : Lvar → Datum) (addr : SmlString → ℕ)

def patterns (x : Lvar) : ℤ := (ρ x).pattern

/-- What an operand stands for, where `addr` gives the addresses of strings. -/
@[grind =] def datum : Value → Option Datum
  | .var x => some (ρ x)
  | .num n => some (.word n.ty.tag (unsigned n.ty.sz n.ival))
  | .enum i => some (.word true (unsigned Target.defaultIntSz i))
  | .string s => some (.pointer (addr s))
  | _ => none

/-- The number of size `sz` that an operand stands for. -/
@[grind =] def number (sz : ℕ) : Value → Option ℤ
  | .var x =>
    match ρ x with
    | .word _ a => some a
    | .pointer _ => none
  | .num n => some (unsigned sz n.ival)
  | .enum i => some (unsigned sz i)
  | _ => none

/-- A comparison in a linear order. -/
def relation {α : Type*} [LinearOrder α] : P.CmpOp → α → α → Bool
  | .gt, x, y => y < x
  | .gte, x, y => y ≤ x
  | .lt, x, y => x < y
  | .lte, x, y => x ≤ y
  | .eql, x, y => x = y
  | .neq, x, y => x ≠ y

/-- A comparison of reals, `none` being no number: only the inequality holds of it. -/
@[grind =] def realRelation {α : Type*} [LinearOrder α] (oper : P.CmpOp) : Option α → Option α → Bool
  | some x, some y => relation oper x y
  | _, _ => oper = .neq

/-- Whether a value is a pointer, if it is a tagged number or a pointer. -/
def Datum.boxity : Datum → Option Bool
  | .word true _ => some false
  | .word false _ => none
  | .pointer _ => some true

/-- Whether two values are the same machine word. -/
def sameWord : Datum → Datum → Option Bool
  | .word t a, .word t' b => if t = t' then some (a = b) else none
  | .pointer a, .pointer b => some (a = b)
  | .word true _, .pointer _ | .pointer _, .word true _ => some false
  | _, _ => none

variable {α : Type*} [LinearOrder α] (real : ℕ → ℤ → Option α)

/-- **The outcome of a test**, where `real` gives the numbers that patterns stand for as reals. -/
def outcome : P.Branch → List Value → Option Bool
  | .cmp oper (.int sz), [v, w] =>
    Option.map₂ (fun a b => relation oper (signed sz a) (signed sz b)) (number ρ sz v)
      (number ρ sz w)
  | .cmp oper (.uint sz), [v, w] =>
    Option.map₂ (relation oper) (number ρ sz v) (number ρ sz w)
  | .cmp oper .enum, [v, w] =>
    Option.map₂ (relation oper) (number ρ Target.defaultIntSz v) (number ρ Target.defaultIntSz w)
  | .cmp oper (.float sz), [v, w] =>
    Option.map₂ (fun a b => realRelation oper (real sz a) (real sz b)) (number ρ sz v)
      (number ρ sz w)
  | .isPow2 sz, [v] => (number ρ sz v).map fun a => (log2 a).isSome
  | .boxed, [v] => (datum ρ addr v).bind Datum.boxity
  | .unboxed, [v] => ((datum ρ addr v).bind Datum.boxity).map not
  | .peql, [v, w] => (datum ρ addr v).bind fun d => (datum ρ addr w).bind (sameWord d)
  | .pneq, [v, w] => ((datum ρ addr v).bind fun d => (datum ρ addr w).bind (sameWord d)).map not
  | _, _ => none

/-! ### The known definitions -/

def IsTagged : P.NumKind → Prop
  | .int sz => sz ≤ Target.defaultIntSz
  | .enum => True
  | _ => False

instance : DecidablePred IsTagged := fun k => by
  cases k <;> unfold IsTagged <;> infer_instance

/-- A value agrees with the definition of its variable. -/
def Meets : Info → Datum → Prop
  | .recInfo _ _, d => ∃ a, d = .pointer a
  | .pureInfo .mkspecial _, d => ∃ a, d = .pointer a
  | .pureInfo .box [v], d => datum ρ addr v = some d
  | .pureInfo (.wrap kind) [v], d =>
    if IsTagged kind then datum ρ addr v = some d else ∃ a, d = .pointer a
  | .pureInfo p args, d =>
    ∀ szs sz, sizes p = some (szs, sz) → List.Forall₂ (Operand (patterns ρ)) szs args ∧
      ∀ e, exec (patterns ρ) p args = some e → ∃ t, d = .word t e
  | _, _ => True

/-- **A valuation is consistent** with the known definitions. -/
def Consistent (get : GetInfo) : Prop := ∀ x, Meets ρ addr (get x) (ρ x)

/-- A constant of the size of a machine word or of a tagged number. -/
def Constant : Value → Prop
  | .num n => n.ty.sz = (if n.ty.tag then Target.defaultIntSz else Target.pointerSz) ∧
      Literal n.ty.sz n.ival
  | .enum i => Pattern Target.defaultIntSz i
  | _ => True

/-- The operands with which a test is used. -/
def WellFormedTest : P.Branch → List Value → Prop
  | .cmp _ (.int sz), args | .cmp _ (.uint sz), args | .isPow2 sz, args =>
    0 < sz ∧ ∀ v ∈ args, Operand (patterns ρ) sz v
  | .cmp _ .enum, args | .peql, args | .pneq, args => ∀ v ∈ args, Constant v
  | _, _ => True

/-- A decision is right: when the test has an outcome, it is the one decided. -/
def Sound (decision result : Option Bool) : Prop :=
  ∀ b, decision = some b → ∀ c, result = some c → c = b

@[grind =] def IsWrapper : Info → Prop
  | .pureInfo .box _ => True
  | .pureInfo (.wrap _) _ => True
  | _ => False

/-- **The tests that are decided the other way.** -/
def Misdecided (get : GetInfo) : P.Branch → List Value → Prop
  | .isPow2 sz, [.num i] => i.ival = -2 ^ (sz - 1)
  | .boxed, [.var x] | .unboxed, [.var x] => IsWrapper (get x) ∧ ∃ a, ρ x = .word true a
  | .peql, [.num i, .num j] | .pneq, [.num i, .num j] =>
    -- the literals of one tagged number, signed and unsigned
    i.ty.tag = true ∧ j.ty.tag = true ∧ |i.ival - j.ival| = 2 ^ Target.defaultIntSz
  | .cmp .lte (.float sz), [.var x, .var y] | .cmp .gte (.float sz), [.var x, .var y] =>
    x = y ∧ ∃ t a, ρ x = .word t a ∧ real sz a = none
  | _, _ => False

end

section

variable {ρ : Lvar → Datum} {addr : SmlString → ℕ} {α : Type*} [LinearOrder α]
  {real : ℕ → ℤ → Option α} {get : GetInfo} {args : List Value}

omit [LinearOrder α] in
theorem misdecided_lte_self {x : Lvar} :
    Misdecided ρ real get (.cmp .lte (.float sz)) [.var x, .var x] ↔
      ∃ t a, ρ x = .word t a ∧ real sz a = none := and_iff_right rfl

omit [LinearOrder α] in
theorem misdecided_gte_self {x : Lvar} :
    Misdecided ρ real get (.cmp .gte (.float sz)) [.var x, .var x] ↔
      ∃ t a, ρ x = .word t a ∧ real sz a = none := and_iff_right rfl

omit [LinearOrder α] in
theorem not_misdecided_float (h : ∀ x, args ≠ [.var x, .var x]) :
    ¬Misdecided ρ real get (.cmp .lte (.float sz)) args ∧
      ¬Misdecided ρ real get (.cmp .gte (.float sz)) args := by
  rcases args with - | ⟨v, - | ⟨w, - | ⟨u, rest⟩⟩⟩
  · exact ⟨id, id⟩
  · cases v <;> exact ⟨id, id⟩
  · cases v with
    | var x =>
      cases w with
      | var y => exact ⟨fun hmis => h x (by rw [hmis.1]), fun hmis => h x (by rw [hmis.1])⟩
      | _ => exact ⟨id, id⟩
    | _ => exact ⟨id, id⟩
  · cases v <;> cases w <;> exact ⟨id, id⟩

theorem sound_none (result : Option Bool) : Sound none result := by
  intro b hb
  cases hb

theorem sound_some_iff {b c : Bool} : Sound (some b) (some c) ↔ c = b := by
  constructor
  · intro h
    exact h b rfl c rfl
  · rintro rfl b hb c hc
    cases hb
    cases hc
    rfl

theorem sound_of_none (decision : Option Bool) : Sound decision none := by
  intro b _ c hc
  cases hc

/-- **A test and its negation** are decided right together. -/
theorem sound_map_not {decision result : Option Bool} :
    Sound (decision.map not) (result.map not) ↔ Sound decision result := by
  rcases decision with - | b
  · exact iff_of_true (sound_none _) (sound_none _)
  · rcases result with - | c
    · exact iff_of_true (sound_of_none _) (sound_of_none _)
    · rw [Option.map_some, Option.map_some, sound_some_iff, sound_some_iff]
      exact Bool.not_inj_iff

/-! ### Boxity -/

variable {x : Lvar} {sz : ℕ} {i j : ℤ} {kind : P.NumKind} {oper : P.CmpOp} {v : Value}

theorem boxed_var_iff :
    Sound (some true) (outcome ρ addr real .boxed [.var x]) ↔ ¬∃ a, ρ x = .word true a := by
  change Sound (some true) (ρ x).boxity ↔ _
  rcases hx : ρ x with ⟨tag, a⟩ | a
  · cases tag with
    | true => exact iff_of_false (fun h => nomatch sound_some_iff.1 h) (fun h => h ⟨a, rfl⟩)
    | false => exact iff_of_true (sound_of_none _) (by simp)
  · exact iff_of_true (sound_some_iff.2 rfl) (by simp)

theorem boxed_of_pointer (h : ∃ a, ρ x = .pointer a) :
    Sound (some true) (outcome ρ addr real .boxed [.var x]) := by
  obtain ⟨a, ha⟩ := h
  rw [boxed_var_iff, ha]
  rintro ⟨b, hb⟩
  cases hb

theorem boxed_sound_iff (hc : Consistent ρ addr get) :
    Sound (boxed get args) (outcome ρ addr real .boxed args) ↔
      ¬Misdecided ρ real get .boxed args := by
  fun_cases boxed get args with
  | case1 i =>
    refine iff_of_true ?_ id
    simp only [outcome.eq_def, datum]
    cases i.ty.tag with
    | true => exact sound_some_iff.2 rfl
    | false => exact sound_of_none _
  | case2 i => exact iff_of_true (sound_some_iff.2 rfl) id
  | case3 s => exact iff_of_true (sound_some_iff.2 rfl) id
  | case4 x rk fields hx =>
    have hmeets := hc x
    rw [hx] at hmeets
    refine iff_of_true (boxed_of_pointer hmeets) ?_
    simp [Misdecided.eq_def, IsWrapper, hx]
  | case5 x args hx =>
    have hmeets := hc x
    rw [hx] at hmeets
    refine iff_of_true (boxed_of_pointer hmeets) ?_
    simp [Misdecided.eq_def, IsWrapper, hx]
  | case6 x args hx =>
    rw [boxed_var_iff]
    simp [Misdecided.eq_def, IsWrapper, hx]
  | case7 x kind args hx =>
    rw [boxed_var_iff]
    simp [Misdecided.eq_def, IsWrapper, hx]
  | case8 x hrec hspecial hbox hwrap =>
    refine iff_of_true (sound_none _) ?_
    rintro ⟨h, -⟩
    unfold IsWrapper at h
    split at h
    · next hx => exact hbox _ hx
    · next hx => exact hwrap _ _ hx
    · exact h
  | case9 args hnum henum hstring hvar =>
    refine iff_of_true (sound_none _) ?_
    rcases args with - | ⟨v, - | ⟨w, rest⟩⟩
    · exact id
    · cases v with
      | var x => exact (hvar _ rfl).elim
      | _ => exact id
    · cases v <;> exact id

theorem log2_isSome_iff {n : ℤ} : (log2 n).isSome ↔ ∃ k : ℕ, n = 2 ^ k := by
  constructor
  · intro h
    obtain ⟨k, hk⟩ := Option.isSome_iff_exists.1 h
    exact ⟨k, exponent_eq hk⟩
  · rintro ⟨k, rfl⟩
    rw [log2_two_pow]
    rfl

theorem exists_unsigned_eq_two_pow_iff (hsz : 0 < sz) (hi : Literal sz i) (hneg : i < 0) :
    (∃ k : ℕ, unsigned sz i = 2 ^ k) ↔ i = -2 ^ (sz - 1) := by
  have hd := two_pow_eq_double hsz
  have hlo := hi.1
  rw [unsigned_of_neg (hi.neg_bounds hsz).2 hneg]
  constructor
  · rintro ⟨k, hk⟩
    have hlt : (2 : ℤ) ^ k < 2 ^ sz := by omega
    have hk' : k < sz := (pow_lt_pow_iff_right₀ (by norm_num)).1 hlt
    have hle := two_pow_le (show k ≤ sz - 1 by omega)
    omega
  · rintro rfl
    exact ⟨sz - 1, by omega⟩

theorem isPow2_sound_iff (h : WellFormedTest ρ (.isPow2 sz) args) :
    Sound (isPow2 args) (outcome ρ addr real (.isPow2 sz) args) ↔
      ¬Misdecided ρ real get (.isPow2 sz) args := by
  unfold isPow2
  split
  case h_1 i =>
    have hsz : 0 < sz := h.1
    have hi : Literal sz i.ival := h.2 (.num i) (by simp)
    simp only [outcome.eq_def]
    rw [number, Option.map_some, sound_some_iff, Bool.eq_iff_iff, log2_isSome_iff,
      decide_eq_true_eq, land_sub_one_eq_zero_iff]
    change _ ↔ i.ival ≠ _
    rcases le_or_gt 0 i.ival with hnn | hneg
    · have hpow := pow_pos' (sz - 1)
      rw [unsigned_of_nonneg hi hnn]
      exact iff_of_true Iff.rfl (by omega)
    · have hnot : ¬∃ k : ℕ, i.ival = 2 ^ k := by
        rintro ⟨k, hk⟩
        have := pow_pos' k
        omega
      rw [exists_unsigned_eq_two_pow_iff hsz hi hneg]
      simp [hnot]
  case h_2 hnum =>
    refine iff_of_true (sound_none _) ?_
    rcases args with - | ⟨v, - | ⟨w, rest⟩⟩
    · exact id
    · cases v with
      | num i => exact (hnum _ rfl).elim
      | _ => exact id
    · cases v <;> exact id

/-! ### Comparisons -/

theorem toSigned_literal (hsz : 0 < sz) (hi : Literal sz i) :
    ConstArith.toSigned sz i = signed sz i := by
  rw [ConstArith.toSigned, ConstArith.pow2, ConstArith.pow2]
  split_ifs with hlt
  · rw [signed_of_bounds hsz hi.1 hlt]
  · rw [signed_eq_sub (not_lt.1 hlt) hi.2 hsz]

theorem sound_self (oper : P.CmpOp) (v : Value) (hkind : ∀ sz, kind ≠ .float sz) :
    Sound (some (relation oper 0 0)) (outcome ρ addr real (.cmp oper kind) [v, v]) := by
  have hrefl : ∀ a : ℤ, relation oper a a = relation oper 0 0 := by
    cases oper <;> simp [relation]
  have hself : ∀ (n : ℕ) (f : ℤ → ℤ), Sound (some (relation oper 0 0))
      (Option.map₂ (fun a b => relation oper (f a) (f b)) (number ρ n v) (number ρ n v)) := by
    intro n f
    rcases number ρ n v with - | a
    · exact sound_of_none _
    · exact sound_some_iff.2 (hrefl (f a))
  cases kind with
  | int sz => exact hself sz _
  | uint sz => exact hself sz id
  | float sz => exact absurd rfl (hkind sz)
  | enum => exact hself _ id

theorem outcome_int {i j : IntConst} (hsz : 0 < sz) (hi : Literal sz i.ival)
    (hj : Literal sz j.ival) :
    outcome ρ addr real (.cmp oper (.int sz)) [.num i, .num j] =
      some (relation oper (ConstArith.toSigned sz i.ival) (ConstArith.toSigned sz j.ival)) := by
  simp only [outcome.eq_def]
  rw [number, number, Option.map₂_some_some, signed_emod, signed_emod,
    toSigned_literal hsz hi, toSigned_literal hsz hj]

theorem outcome_uint {i j : IntConst} :
    outcome ρ addr real (.cmp oper (.uint sz)) [.num i, .num j] =
      some (relation oper (ConstArith.toUnsigned sz i.ival)
        (ConstArith.toUnsigned sz j.ival)) := by
  simp only [outcome.eq_def]
  rw [number, number, Option.map₂_some_some, ConstArith.toUnsigned, uNarrow_eq,
    ConstArith.toUnsigned, uNarrow_eq]

theorem outcome_enum (hi : Pattern Target.defaultIntSz i) (hj : Pattern Target.defaultIntSz j) :
    outcome ρ addr real (.cmp oper .enum) [.enum i, .enum j] = some (relation oper i j) := by
  simp only [outcome.eq_def]
  rw [number, number, Option.map₂_some_some, unsigned_of_pattern hi,
    unsigned_of_pattern hj]

theorem outcome_float_self :
    outcome ρ addr real (.cmp oper (.float sz)) [.var x, .var x] =
      (number ρ sz (.var x)).map fun a => realRelation oper (real sz a) (real sz a) := by
  simp only [outcome.eq_def]
  rcases number ρ sz (.var x) with - | a <;> rfl

theorem less_var_sound :
    Sound (some false) (outcome ρ addr real (.cmp .lt kind) [.var x, .var x]) := by
  cases kind with
  | float sz =>
    rw [outcome_float_self]
    rcases number ρ sz (.var x) with - | a
    · exact sound_of_none _
    · refine sound_some_iff.2 ?_
      change realRelation .lt (real sz a) (real sz a) = false
      rcases real sz a with - | r
      · rfl
      · simp [realRelation, relation]
  | _ => exact sound_self .lt (.var x) (by simp)

theorem pattern_number {a : ℤ} (h : Operand (patterns ρ) sz v) (ha : number ρ sz v = some a) :
    Pattern sz a := by
  cases v with
  | var x =>
    rw [Operand, patterns] at h
    rw [number] at ha
    split at ha
    · next hx =>
      rw [hx] at h
      exact Option.some.inj ha ▸ h
    · cases ha
  | num n => exact Option.some.inj ha ▸ pattern_unsigned sz n.ival
  | _ => exact h.elim

theorem sound_zero_right {ty : IntTy} (h : Operand (patterns ρ) sz v) :
    Sound (some false) (outcome ρ addr real (.cmp .lt (.uint sz)) [v, .num ⟨0, ty⟩]) := by
  simp only [outcome.eq_def]
  rcases ha : number ρ sz v with - | a
  · exact sound_of_none _
  · have hnn := (pattern_number h ha).1
    rw [number, unsigned_zero]
    refine sound_some_iff.2 ?_
    simpa [relation] using hnn

theorem sound_zero_left {ty : IntTy} (h : Operand (patterns ρ) sz v) :
    Sound (some true) (outcome ρ addr real (.cmp .lte (.uint sz)) [.num ⟨0, ty⟩, v]) := by
  simp only [outcome.eq_def]
  rcases ha : number ρ sz v with - | a
  · rw [Option.map₂_none_right]
    exact sound_of_none _
  · have hnn := (pattern_number h ha).1
    rw [number, unsigned_zero]
    refine sound_some_iff.2 ?_
    simpa [relation] using hnn

theorem number_lt_of_copy {p : ℕ} {u : Value} {a : ℤ} (hc : Consistent ρ addr get)
    (hx : get x = .pureInfo (.copy 8 p) [u]) (ha : number ρ sz (.var x) = some a) : a < 256 := by
  have hmeets := hc x
  rw [hx] at hmeets
  obtain ⟨hops, hval⟩ := hmeets [8] p rfl
  have hu := pattern_value (List.forall₂_cons.1 hops).1
  obtain ⟨t, ht⟩ := hval _ rfl
  rw [number, ht] at ha
  obtain rfl := Option.some.inj ha
  exact (emod_le_self hu.1 (pow_pos' p)).trans_lt hu.2

theorem less_sound (hc : Consistent ρ addr get) (h : WellFormedTest ρ (.cmp .lt kind) args) :
    Sound (less get kind args) (outcome ρ addr real (.cmp .lt kind) args) := by
  unfold less
  split
  case h_1 x y =>
    split
    · next hxy =>
      subst hxy
      exact less_var_sound
    · exact sound_none _
  case h_2 sz i j =>
    rw [outcome_int h.1 (h.2 (.num i) (by simp)) (h.2 (.num j) (by simp))]
    exact sound_some_iff.2 rfl
  case h_3 sz i j =>
    rw [outcome_uint]
    exact sound_some_iff.2 rfl
  case h_4 i j =>
    rw [outcome_enum (h (.enum i) (by simp)) (h (.enum j) (by simp))]
    exact sound_some_iff.2 rfl
  case h_5 sz v ty hnum => exact sound_zero_right (h.2 v (by simp))
  case h_6 sz x ty =>
    split
    · next p u hx =>
      split
      · next hp =>
        have hlit : Literal sz 256 := h.2 (.num ⟨256, ty⟩) (by simp)
        simp only [outcome.eq_def]
        rcases ha : number ρ sz (.var x) with - | a
        · exact sound_of_none _
        · have hlt := number_lt_of_copy hc hx ha
          rw [number, unsigned_of_nonneg hlit (by decide)]
          refine sound_some_iff.2 ?_
          simpa [relation] using hlt
      · exact sound_none _
    · exact sound_none _
  case h_7 => exact sound_none _

theorem real_self_iff (oper : P.CmpOp) (hne : oper ≠ .neq)
    (hrefl : ∀ r : α, relation oper r r = true) :
    Sound (some true) (outcome ρ addr real (.cmp oper (.float sz)) [.var x, .var x]) ↔
      ¬∃ t a, ρ x = .word t a ∧ real sz a = none := by
  rw [outcome_float_self, number]
  rcases hx : ρ x with ⟨t, a⟩ | a
  · rw [Option.map_some, sound_some_iff]
    rcases hreal : real sz a with - | r
    · refine iff_of_false ?_ fun h => h ⟨t, a, rfl, hreal⟩
      simp [realRelation, hne]
    · refine iff_of_true (hrefl r) ?_
      rintro ⟨t', b, hb, hnone⟩
      cases hb
      rw [hreal] at hnone
      cases hnone
  · refine iff_of_true (sound_of_none _) ?_
    rintro ⟨t, b, hb, -⟩
    cases hb

theorem lessEq_sound_iff (h : WellFormedTest ρ (.cmp .lte kind) args) :
    Sound (lessEq kind args) (outcome ρ addr real (.cmp .lte kind) args) ↔
      ¬Misdecided ρ real get (.cmp .lte kind) args := by
  unfold lessEq
  split
  case h_1 x y =>
    split
    · next hxy =>
      subst hxy
      cases kind with
      | float sz =>
        exact (real_self_iff .lte (by decide) (by simp [relation])).trans
          (not_congr misdecided_lte_self.symm)
      | _ => exact iff_of_true (sound_self .lte (.var x) (by simp)) id
    · next hne =>
      refine iff_of_true (sound_none _) ?_
      cases kind with
      | float sz => exact fun h => hne h.1
      | _ => exact id
  case h_2 sz i j =>
    rw [outcome_int h.1 (h.2 (.num i) (by simp)) (h.2 (.num j) (by simp))]
    exact iff_of_true (sound_some_iff.2 rfl) id
  case h_3 sz i j =>
    rw [outcome_uint]
    exact iff_of_true (sound_some_iff.2 rfl) id
  case h_4 i j =>
    rw [outcome_enum (h (.enum i) (by simp)) (h (.enum j) (by simp))]
    exact iff_of_true (sound_some_iff.2 rfl) id
  case h_5 sz ty v hnum => exact iff_of_true (sound_zero_left (h.2 v (by simp))) id
  case h_6 hvar _ _ _ _ =>
    refine iff_of_true (sound_none _) ?_
    cases kind with
    | float sz => exact (not_misdecided_float fun x => hvar x x).1
    | _ => exact id

theorem signed_eq_iff : signed sz i = signed sz j ↔ unsigned sz i = unsigned sz j := by
  constructor
  · intro h
    rw [← unsigned_signed le_rfl i, h, unsigned_signed le_rfl]
  · intro h
    rw [← signed_emod, h, signed_emod]

theorem uEq_iff : ConstArith.uEq sz i j = true ↔ unsigned sz i = unsigned sz j := by
  rw [ConstArith.uEq, decide_eq_true_iff, ConstArith.toUnsigned, uNarrow_eq,
    ConstArith.toUnsigned, uNarrow_eq]

theorem equal_sound (h : WellFormedTest ρ (.cmp .eql kind) args) :
    Sound (equal kind args) (outcome ρ addr real (.cmp .eql kind) args) := by
  unfold equal
  split
  case h_2 x y hkind =>
    split
    · next hxy =>
      subst hxy
      exact sound_self .eql (.var x) hkind
    · exact sound_none _
  case h_3 k i j =>
    have hi : Literal k i.ival := h.2 (.num i) (by simp)
    have hj : Literal k j.ival := h.2 (.num j) (by simp)
    rw [outcome_int h.1 hi hj, toSigned_literal h.1 hi, toSigned_literal h.1 hj, sound_some_iff,
      Bool.eq_iff_iff]
    exact decide_eq_true_iff.trans (signed_eq_iff.trans (uEq_iff).symm)
  case h_4 k i j =>
    rw [outcome_uint]
    exact sound_some_iff.2 rfl
  case h_5 i j =>
    rw [outcome_enum (h (.enum i) (by simp)) (h (.enum j) (by simp))]
    exact sound_some_iff.2 rfl
  all_goals exact sound_none _

/-! ### Pointers -/

theorem unsigned_eq_iff_of_literal (hi : Literal Target.defaultIntSz i)
    (hj : Literal Target.defaultIntSz j) :
    (unsigned Target.defaultIntSz i = unsigned Target.defaultIntSz j ↔
        unsigned Target.pointerSz i = unsigned Target.pointerSz j) ↔
      |i - j| ≠ 2 ^ Target.defaultIntSz := by
  rw [Literal, Target.defaultIntSz] at hi hj
  have hword : unsigned 64 i = unsigned 64 j ↔ i = j := by
    rw [← signed_eq_iff, signed_of_bounds (by decide) (by omega) (by omega),
      signed_of_bounds (by decide) (by omega) (by omega)]
  have htag : unsigned 63 i = unsigned 63 j ↔ i = j ∨ |i - j| = 2 ^ 63 := by
    rw [unsigned, unsigned, Int.emod_eq_emod_iff_emod_sub_eq_zero, ← Int.dvd_iff_emod_eq_zero,
      abs_eq (by decide)]
    constructor
    · rintro ⟨k, hk⟩
      omega
    · rintro (rfl | h | h)
      · rw [sub_self]
        exact dvd_zero _
      · exact ⟨1, by omega⟩
      · exact ⟨-1, by omega⟩
  have hne : i = j → |i - j| ≠ 2 ^ 63 := by
    rintro rfl
    rw [sub_self]
    decide
  tauto

theorem ptrEqual_sound_iff (h : ∀ v ∈ args, Constant v) :
    Sound (ptrEqual args) (outcome ρ addr real .peql args) ↔
      ¬Misdecided ρ real get .peql args := by
  unfold ptrEqual
  split
  case h_1 i j =>
    have hi : Constant (.num i) := h _ (by simp)
    have hj : Constant (.num j) := h _ (by simp)
    rw [Constant] at hi hj
    simp only [outcome.eq_def]
    rw [datum, datum, Option.bind_some, Option.bind_some, sameWord]
    simp only [Misdecided.eq_def]
    cases hit : i.ty.tag <;> cases hjt : j.ty.tag
    · simp only [hit, hjt] at hi hj
      rw [if_pos rfl, hi.1, hj.1, sound_some_iff, Bool.eq_iff_iff, decide_eq_true_iff, uEq_iff]
      exact iff_of_true Iff.rfl (by simp)
    · exact iff_of_true (sound_of_none _) (by simp)
    · exact iff_of_true (sound_of_none _) (by simp)
    · simp only [hit, hjt, if_true] at hi hj
      obtain ⟨hsi, hli⟩ := hi
      obtain ⟨hsj, hlj⟩ := hj
      rw [hsi] at hli
      rw [hsj] at hlj
      rw [if_pos rfl, hsi, hsj, sound_some_iff, Bool.eq_iff_iff, decide_eq_true_iff, uEq_iff,
        unsigned_eq_iff_of_literal hli hlj]
      simp
  case h_2 i j =>
    have hi : Pattern Target.defaultIntSz i := h (.enum i) (by simp)
    have hj : Pattern Target.defaultIntSz j := h (.enum j) (by simp)
    refine iff_of_true ?_ id
    simp only [outcome.eq_def]
    rw [datum, datum,
      unsigned_of_pattern hi, unsigned_of_pattern hj]
    exact sound_some_iff.2 rfl
  case h_3 hnum henum =>
    refine iff_of_true (sound_none _) ?_
    rcases args with - | ⟨v, - | ⟨w, - | ⟨u, rest⟩⟩⟩
    · exact id
    · cases v <;> exact id
    · cases v with
      | num i =>
        cases w with
        | num j => exact (hnum _ _ rfl).elim
        | _ => exact id
      | _ => exact id
    · cases v <;> cases w <;> exact id

/-! ### The decision -/

theorem outcome_gt {w : Value} :
    outcome ρ addr real (.cmp .gt kind) [w, v] = outcome ρ addr real (.cmp .lt kind) [v, w] := by
  have hreal : ∀ x y : Option α, realRelation .gt x y = realRelation .lt y x := by
    intro x y
    rcases x with - | x <;> rcases y with - | y <;> rfl
  cases kind with
  | float sz =>
    simp only [outcome.eq_def]
    rw [Option.map₂_swap]
    simp [hreal]
  | _ =>
    simp only [outcome.eq_def]
    rw [Option.map₂_swap]
    rfl

theorem outcome_neq :
    outcome ρ addr real (.cmp .neq kind) args =
      (outcome ρ addr real (.cmp .eql kind) args).map not := by
  have hrel : ∀ x y : ℤ, relation .neq x y = !relation .eql x y := fun x y => by
    simp [relation]
  have hreal : ∀ x y : Option α, realRelation .neq x y = !realRelation .eql x y := by
    intro x y
    rcases x with - | x <;> rcases y with - | y <;> simp [realRelation, relation]
  rcases args with - | ⟨v, - | ⟨w, - | ⟨u, rest⟩⟩⟩
  · cases kind <;> rfl
  · cases kind <;> rfl
  · cases kind with
    | float sz =>
      simp only [outcome.eq_def, Option.map_map₂]
      simp [hreal]
    | _ =>
      simp only [outcome.eq_def, Option.map_map₂]
      exact congrArg (fun f => Option.map₂ f _ _) (funext₂ fun a b => hrel _ _)
  · cases kind <;> rfl

theorem outcome_gte (hkind : ∀ sz, kind ≠ .float sz) :
    outcome ρ addr real (.cmp .gte kind) args =
      (outcome ρ addr real (.cmp .lt kind) args).map not := by
  have hrel : ∀ x y : ℤ, relation .gte x y = !relation .lt x y := fun x y => by
    simp [relation, ← decide_not]
  rcases args with - | ⟨v, - | ⟨w, - | ⟨u, rest⟩⟩⟩
  · cases kind <;> rfl
  · cases kind <;> rfl
  · cases kind with
    | float sz => exact absurd rfl (hkind sz)
    | _ =>
      simp only [outcome.eq_def, Option.map_map₂]
      exact congrArg (fun f => Option.map₂ f _ _) (funext₂ fun a b => hrel _ _)
  · cases kind <;> rfl

theorem outcome_unboxed :
    outcome ρ addr real .unboxed args = (outcome ρ addr real .boxed args).map not := by
  rcases args with - | ⟨v, - | ⟨w, rest⟩⟩ <;> rfl

theorem outcome_pneq :
    outcome ρ addr real .pneq args = (outcome ρ addr real .peql args).map not := by
  rcases args with - | ⟨v, - | ⟨w, - | ⟨u, rest⟩⟩⟩ <;> rfl

omit [LinearOrder α] in
theorem misdecided_unboxed :
    Misdecided ρ real get .unboxed args ↔ Misdecided ρ real get .boxed args := by
  rcases args with - | ⟨v, - | ⟨w, rest⟩⟩
  · exact Iff.rfl
  · cases v <;> exact Iff.rfl
  · cases v <;> exact Iff.rfl

omit [LinearOrder α] in
theorem misdecided_pneq :
    Misdecided ρ real get .pneq args ↔ Misdecided ρ real get .peql args := by
  rcases args with - | ⟨v, - | ⟨w, - | ⟨u, rest⟩⟩⟩
  · exact Iff.rfl
  · cases v <;> exact Iff.rfl
  · cases v <;> cases w <;> exact Iff.rfl
  · cases v <;> cases w <;> exact Iff.rfl

theorem less_float (get : GetInfo) (sz : ℕ) (args : List Value) :
    (∃ x, args = [.var x, .var x]) ∧ less get (.float sz) args = some false ∨
      (∀ x, args ≠ [.var x, .var x]) ∧ less get (.float sz) args = none := by
  generalize hkind : P.NumKind.float sz = kind
  unfold less
  split
  case h_1 x y =>
    split
    · next hxy => exact Or.inl ⟨⟨x, by rw [hxy]⟩, rfl⟩
    · next hne =>
      refine Or.inr ⟨fun z hz => ?_, rfl⟩
      cases hz
      exact hne rfl
  case h_7 hvar _ _ _ _ _ => exact Or.inr ⟨fun z => hvar z z, rfl⟩
  all_goals cases hkind

theorem WellFormedTest.cmp {oper' : P.CmpOp} (h : WellFormedTest ρ (.cmp oper kind) args) :
    WellFormedTest ρ (.cmp oper' kind) args := by
  cases kind <;> exact h

theorem WellFormedTest.swap {w : Value} (h : WellFormedTest ρ (.cmp oper kind) [w, v]) :
    WellFormedTest ρ (.cmp oper kind) [v, w] := by
  have hmem : ∀ u ∈ [v, w], u ∈ [w, v] := by
    intro u hu
    rwa [(List.Perm.swap w v []).mem_iff] at hu
  cases kind with
  | int sz => exact ⟨h.1, fun u hu => h.2 u (hmem u hu)⟩
  | uint sz => exact ⟨h.1, fun u hu => h.2 u (hmem u hu)⟩
  | float sz => trivial
  | enum => exact fun u hu => h u (hmem u hu)

theorem gte_sound_iff (hc : Consistent ρ addr get) (h : WellFormedTest ρ (.cmp .gte kind) args) :
    Sound ((less get kind args).map not) (outcome ρ addr real (.cmp .gte kind) args) ↔
      ¬Misdecided ρ real get (.cmp .gte kind) args := by
  cases kind with
  | float sz =>
    rcases less_float get sz args with ⟨⟨x, rfl⟩, hless⟩ | ⟨hvar, hless⟩
    · rw [hless]
      exact (real_self_iff .gte (by decide) (by simp [relation])).trans
        (not_congr misdecided_gte_self.symm)
    · rw [hless]
      exact iff_of_true (sound_none _) (not_misdecided_float hvar).2
  | int sz =>
    rw [outcome_gte (by simp), sound_map_not]
    exact iff_of_true (less_sound hc h) id
  | uint sz =>
    rw [outcome_gte (by simp), sound_map_not]
    exact iff_of_true (less_sound hc h) id
  | enum =>
    rw [outcome_gte (by simp), sound_map_not]
    exact iff_of_true (less_sound hc h) id

end

end SmlNj.ContractPrim
