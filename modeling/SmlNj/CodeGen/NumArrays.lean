import SmlNj.CodeGen.GenPrim
import SmlNj.CodeGen.TaggedArithSound

/-!
# Numeric arrays

An element that is stored by `NUMUPDATE` and fetched by `NUMSUBSCRIPT` at the same index.  Elements
of default size are stored with their tag and tagged once more where they are fetched, and signed
elements of eight bits are extended by zeros; all others survive.

## Main definitions

* `repr` — the tagged or native representation of an integer.
* `Points` — the operands for an element.
* `ReadsBack` — the integers that survive.

## Main results

* `numSubscript_numUpdate_iff` — exactly these integers, and all floating-point numbers, survive.
-/

namespace SmlNj.CPStoCFG

open CFG TwosComplement
open CPS (Value)
open TaggedArith (InRange Operand eval_addTag eval_untagInt eval_untagUInt pureOp one addTag
  ok_map ok_map₂ literal)

/-- The size of the numbers of a kind. -/
def kindSize : CPS.P.NumKind → ℕ
  | .int sz => sz
  | .uint sz => sz
  | .float sz => sz
  | .enum => 0

def IsInteger : CPS.P.NumKind → ℤ → Prop
  | .int sz, i => 0 < sz ∧ -2 ^ (sz - 1) ≤ i ∧ i < 2 ^ (sz - 1)
  | .uint sz, i => Pattern sz i
  | _, _ => False

/-- **The representation of an integer of size `sz`**, tagged or native. -/
def repr (sz : ℕ) (i : ℤ) : ℤ := if isTaggedInt sz then 2 * unsigned 63 i + 1 else unsigned 64 i

/-- The integers that survive: those of default size are all ones. -/
def ReadsBack : CPS.P.NumKind → ℤ → Prop
  | .int sz, i => (sz = 8 → 0 ≤ i) ∧ (sz = Target.defaultIntSz → i = -1)
  | .uint sz, i => sz = Target.defaultIntSz → i = 2 ^ Target.defaultIntSz - 1
  | _, _ => True

section Operands

variable {V W : Type} {J : W → Interp V W} (M : Machine J) (exps : Lvar → Option Exp)
  (env : Env V) (w : W)

/-- An operand that stands for an integer of size `sz`: a variable that is bound to its
representation, or a literal. -/
def IntOperand (sz : ℕ) : Value → ℤ → Prop
  | .var x, i => eval (J w) env w (binding exps x) = some (M.word (repr sz i))
  | .num c, i => c.ival = i ∧ c.ty.tag = isTaggedInt sz ∧ (c.ty.tag = false → c.ty.sz = sz)
  | _, _ => False

/-- The operands for the element `n` of the sequence with data `b`. -/
def Points (arr ix : Value) (b : V) (n : ℤ) : Prop :=
  (∃ a, genV exps arr = .ok a ∧ eval (J w) env w (getSeqData a) = some b) ∧
    InRange true n ∧ Operand (M.words w) exps env w true ix (unsigned 63 n)

variable {M exps env w} {sz : ℕ} {v : Value} {i n : ℤ} {e : Exp}

theorem untagSigned_spec (h : Operand (M.words w) exps env w true v n) :
    ∃ e, untagSigned exps v = .ok e ∧
      eval (J w) env w e = some (M.word (unsigned 64 (signed 63 n))) := by
  rcases h.cases with ⟨x, rfl, hx⟩ | ⟨i, s, rfl, hi, rfl⟩
  · exact ⟨_, rfl, eval_untagInt hx⟩
  · refine ⟨_, rfl, ?_⟩
    rw [TaggedArith.signed_literal hi]
    exact TaggedArith.eval_num (M := M.words w) i

theorem untagUnsigned_spec (h : Operand (M.words w) exps env w false v n) :
    ∃ e, untagUnsigned exps v = .ok e ∧ eval (J w) env w e = some (M.word n) := by
  rcases h.cases with ⟨x, rfl, hx⟩ | ⟨i, s, rfl, hi, rfl⟩
  · exact ⟨_, rfl, eval_untagUInt hx⟩
  · refine ⟨_, rfl, ?_⟩
    have hpat : Pattern 63 i := hi
    have hnum : eval (J w) env w (num i) = some (M.word (unsigned 64 i)) :=
      TaggedArith.eval_num (M := M.words w) i
    rw [unsigned_of_pattern (hpat.mono (by decide))] at hnum
    rw [unsigned_of_pattern hpat]
    exact hnum

theorem Points.index {arr ix : Value} {b : V} (h : Points M exps env w arr ix b n) :
    ∃ a e, genV exps arr = .ok a ∧ untagSigned exps ix = .ok e ∧
      eval (J w) env w (getSeqData a) = some b ∧
      eval (J w) env w e = some (M.word (unsigned 64 n)) := by
  obtain ⟨⟨a, ha, hb⟩, hn, hix⟩ := h
  obtain ⟨e, he, hev⟩ := untagSigned_spec hix
  rw [TaggedArith.signed_literal hn] at hev
  exact ⟨a, e, ha, he, hb, hev⟩

theorem repr_of_tagged (h : sz < 64) (i : ℤ) : repr sz i = 2 * unsigned 63 i + 1 :=
  if_pos (decide_eq_true h)

theorem pattern_repr (sz : ℕ) (i : ℤ) : Pattern 64 (repr sz i) := by
  unfold repr
  split
  · exact (pattern_unsigned 63 i).tag
  · exact pattern_unsigned 64 i

theorem IntOperand.genV (hsz : sz ≤ 64) (h : IntOperand M exps env w sz v i) :
    ∃ e, genV exps v = .ok e ∧ eval (J w) env w e = some (M.word (repr sz i)) := by
  cases v with
  | var x => exact ⟨_, rfl, h⟩
  | num c =>
    obtain ⟨ival, s, t⟩ := c
    obtain ⟨rfl, rfl, hs⟩ := h
    rcases hsz.lt_or_eq with hlt | rfl
    · have htag : isTaggedInt sz = true := decide_eq_true hlt
      refine ⟨mlInt' ival, ?_, ?_⟩
      · rw [htag]
        rfl
      · rw [repr_of_tagged hlt]
        exact TaggedArith.eval_num_tag (M := M.words w) ival
    · obtain rfl : s = 64 := hs rfl
      exact ⟨.num ival 64, rfl, (M.words w).eval_num ival⟩
  | _ => exact h.elim

theorem eval_trunc {p : ℤ} (hsz : sz ≤ 64) (he : eval (J w) env w e = some (M.word p)) :
    eval (J w) env w (.pure (.trunc ity sz) [e]) = some (M.word (unsigned sz p)) := by
  rw [eval, evals, he]
  exact M.trunc hsz p w

theorem IntOperand.trunc (hsz : sz < 63) (isSigned : Bool)
    (h : IntOperand M exps env w sz v i) :
    ∃ e p, trunc exps sz isSigned v = .ok e ∧ eval (J w) env w e = some (M.word p) ∧
      unsigned sz p = unsigned sz i := by
  cases v with
  | var x =>
    have hx : eval (J w) env w (binding exps x) = some (M.word (2 * unsigned 63 i + 1)) :=
      repr_of_tagged (by omega : sz < 64) i ▸ h
    have hsz' : sz ≤ 64 := by omega
    cases isSigned with
    | true =>
      refine ⟨_, _, rfl, eval_trunc hsz' (eval_untagInt (M := M.words w) hx), ?_⟩
      rw [unsigned_unsigned le_rfl, unsigned_unsigned (by omega), unsigned_signed (by omega),
        unsigned_unsigned (by omega)]
    | false =>
      refine ⟨_, _, rfl, eval_trunc hsz' (eval_untagUInt (M := M.words w) hx), ?_⟩
      rw [unsigned_unsigned le_rfl, unsigned_unsigned (by omega)]
  | num c =>
    obtain ⟨ival, s, t⟩ := c
    obtain ⟨rfl, -, -⟩ := h
    refine ⟨.num ival sz, unsigned sz ival, rfl, ?_, unsigned_unsigned le_rfl ival⟩
    rw [eval, M.num (by omega)]
  | _ => exact h.elim

theorem eval_toMLWord {p : ℤ} (he : eval (J w) env w e = some (M.word p)) :
    eval (J w) env w (toMLWord e) = some (M.word (2 * unsigned 63 p + 1)) := by
  have hshl : eval (J w) env w (pureOp .shl ity [e, one]) =
      some (M.word (2 * unsigned 63 p)) := by
    refine (M.words w).eval_pure₂ he (TaggedArith.eval_one (M := M.words w)) ?_
    have hdouble : unsigned 64 (p * 2 ^ (1 : ℤ).toNat) = 2 * unsigned 63 p := by
      rw [mul_comm]
      exact unsigned_double 63 p
    rw [execPure_shl, if_pos (by decide), hdouble]
  exact eval_addTag (M := M.words w) hshl (pattern_unsigned 63 p)

theorem eval_repr_iff {p : ℤ} (he : eval (J w) env w e = some (M.word p)) (hp : Pattern 64 p) :
    eval (J w) env w e = some (M.word (repr sz i)) ↔ p = repr sz i := by
  rw [he]
  constructor
  · exact fun h => M.injective hp (pattern_repr sz i) (Option.some.inj h)
  · rintro rfl
    rfl

end Operands

/-! ### Storing and fetching -/

section Arrays

variable {V W : Type} {J : W → Interp V W} {M : Machine J} {exps : Lvar → Option Exp}
  {env : Env V} {w : W} {kind : CPS.P.NumKind} {sz : ℕ} {arr ix v : Value} {i n : ℤ} {b : V}
  {e : Exp}

def Fetches (exps : Lvar → Option Exp) (kind : CPS.P.NumKind) (arr ix : Value) (e : Exp) : Prop :=
  genLooker exps (.numsubscript kind) [arr, ix] = .ok e ∨
    genPure exps (.pureNumsubscript kind) [arr, ix] = .ok e

theorem Fetches.eq (h : Fetches exps kind arr ix e) : genNumSubscript exps kind arr ix = .ok e :=
  h.elim id id

theorem Points.rawSubscript (h : Points M exps env w arr ix b n) (nk : Prim.Numkind) (sz : ℕ) :
    ∃ e, genRawSubscript exps nk sz arr ix = .ok e ∧
      eval (J w) env w e = (J w).pure (.pureRawSubscript nk sz) [b, M.word (unsigned 64 n)] := by
  obtain ⟨a, e, ha, he, hb, hi⟩ := h.index
  refine ⟨_, ok_map₂ ha he fun a e => Exp.pure (.pureRawSubscript nk sz) [getSeqData a, e], ?_⟩
  rw [eval, evals, hb, evals, hi]
  rfl

/-- **What is stored**: the representation, or low bits of it. -/
theorem coerceInt_spec (isSigned : Bool) (h : IntOperand M exps env w sz v i)
    (hok : coerceInt exps sz isSigned v = .ok e) :
    ∃ p, eval (J w) env w e = some (M.word p) ∧ sz ≤ 64 ∧
      if sz < 63 then unsigned sz p = unsigned sz i else p = repr sz i := by
  unfold coerceInt at hok
  split at hok
  · next hsz =>
    have hsz : sz = 63 ∨ sz = 64 := hsz
    obtain ⟨e', hc, he⟩ := h.genV (by omega)
    obtain rfl : e' = e := Except.ok.inj (hc.symm.trans hok)
    exact ⟨_, he, by omega, (if_neg (by omega)).mpr rfl⟩
  · split at hok
    · next hlt =>
      have hlt : sz < 63 := hlt
      obtain ⟨e', p, hc, he, hp⟩ := h.trunc hlt isSigned
      obtain rfl : e' = e := Except.ok.inj (hc.symm.trans hok)
      exact ⟨p, he, by omega, (if_pos hlt).mpr hp⟩
    · cases hok

theorem numUpdate_eq {k stm : Stm} (hkind : kind = .int sz ∨ kind = .uint sz)
    (hok : genSetter exps (.numupdate kind) [arr, ix, v] k = .ok stm) :
    ∃ isSigned e, coerceInt exps sz isSigned v = .ok e ∧ ∀ a ei, genV exps arr = .ok a →
      untagSigned exps ix = .ok ei → stm = .setter (.rawUpdate .int sz) [getSeqData a, ei, e] k := by
  have hset : ∃ isSigned, (do
      let e ← coerceInt exps sz isSigned v
      return Stm.setter (.rawUpdate .int sz)
        [getSeqData (← genV exps arr), ← untagSigned exps ix, e] k) = .ok stm := by
    rcases hkind with rfl | rfl
    · exact ⟨true, hok⟩
    · exact ⟨false, hok⟩
  obtain ⟨isSigned, hset⟩ := hset
  cases hc : coerceInt exps sz isSigned v with
  | error err =>
    rw [hc] at hset
    cases hset
  | ok e =>
    refine ⟨isSigned, e, hc, fun a ei ha hei => ?_⟩
    rw [hc, ha, hei] at hset
    exact (Except.ok.inj hset).symm

variable (M sz i n b w) in
/-- What can be fetched in the memory `w` where an integer has been stored. -/
def Stored : Prop :=
  ∃ p, (if sz < 63 then unsigned sz p = unsigned sz i else p = repr sz i) ∧
    ∀ sz', sz ≤ sz' → cellSize sz' = cellSize sz →
      ∃ q, (J w).pure (.pureRawSubscript .int sz') [b, M.word (unsigned 64 n)] = some (M.word q) ∧
        Pattern sz' q ∧ unsigned sz q = unsigned sz p

/-- **Storing an integer.** -/
theorem step_numUpdate (S : Sequences M) {k stm : Stm} (hkind : kind = .int sz ∨ kind = .uint sz)
    (hv : IntOperand M exps env w sz v i) (hpt : Points M exps env w arr ix b n)
    (helem : S.HasElem .int sz b n w)
    (hok : genSetter exps (.numupdate kind) [arr, ix, v] k = .ok stm) :
    ∃ w', step (J w) ⟨env, w, stm⟩ = some (some ⟨env, w', k⟩) ∧ sz ≤ 64 ∧
      Stored M w' sz i n b := by
  obtain ⟨isSigned, e, hc, hstm⟩ := numUpdate_eq hkind hok
  obtain ⟨p, he, hsz, hp⟩ := coerceInt_spec isSigned hv hc
  obtain ⟨a, ei, ha, hei, hb, hi⟩ := hpt.index
  obtain ⟨w', hset, hload⟩ := S.update_int helem p
  have hargs : evals (J w) env w [getSeqData a, ei, e] =
      some [b, M.word (unsigned 64 n), M.word p] := by
    simp only [evals, hb, hi, he, Option.bind_some, Option.map_some]
  refine ⟨w', ?_, hsz, p, hp, hload⟩
  rw [hstm a ei ha hei, step]
  simp only [hargs, hset, Option.bind_eq_bind, Option.bind_some]

theorem Points.load (h : Points M exps env w arr ix b n) {q : ℤ} {sz : ℕ}
    (hload : (J w).pure (.pureRawSubscript .int sz) [b, M.word (unsigned 64 n)] =
      some (M.word q)) :
    ∃ e, genRawSubscript exps .int sz arr ix = .ok e ∧ eval (J w) env w e = some (M.word q) := by
  obtain ⟨e, hc, he⟩ := h.rawSubscript .int sz
  exact ⟨e, hc, he.trans hload⟩

theorem fetch_native (h : Points M exps env w arr ix b n) (hst : Stored M w 64 i n b)
    (hok : genRawSubscript exps .int 64 arr ix = .ok e) :
    eval (J w) env w e = some (M.word (repr 64 i)) := by
  obtain ⟨p, hp, hload⟩ := hst
  obtain ⟨q, hq, hpat, hlow⟩ := hload 64 le_rfl rfl
  obtain ⟨e', hc, he⟩ := h.load hq
  obtain rfl : e' = e := Except.ok.inj (hc.symm.trans hok)
  obtain rfl : p = repr 64 i := hp
  rw [unsigned_of_pattern hpat, unsigned_of_pattern (pattern_repr 64 i)] at hlow
  rw [he, hlow]

theorem fetch_default (h : Points M exps env w arr ix b n) (hst : Stored M w 63 i n b)
    (hok : (do return toMLWord (← genRawSubscript exps .int ity arr ix)) = .ok e) :
    eval (J w) env w e = some (M.word (repr 63 i)) ↔ unsigned 63 i = 2 ^ 63 - 1 := by
  obtain ⟨p, hp, hload⟩ := hst
  obtain ⟨q, hq, hpat, hlow⟩ := hload 64 (by decide) rfl
  obtain ⟨e', hc, he⟩ := h.load hq
  obtain rfl : toMLWord e' = e := Except.ok.inj ((ok_map hc toMLWord).symm.trans hok)
  obtain rfl : p = repr 63 i := hp
  have htag : repr 63 i = 2 * unsigned 63 i + 1 := rfl
  have hu := pattern_unsigned 63 i
  rw [eval_repr_iff (eval_toMLWord he) (pattern_unsigned 63 q).tag, hlow, htag]
  simp only [unsigned] at hu ⊢
  omega

theorem fetch_zeroExtend (hsz : sz < 63) (hi : Pattern sz i) (h : Points M exps env w arr ix b n)
    (hst : Stored M w sz i n b)
    (hok : (do return toMLWord (zeroExtend sz (← genRawSubscript exps .int sz arr ix))) = .ok e) :
    eval (J w) env w e = some (M.word (repr sz i)) := by
  obtain ⟨p, hp, hload⟩ := hst
  rw [if_pos hsz] at hp
  obtain ⟨q, hq, hpat, hlow⟩ := hload sz le_rfl rfl
  obtain ⟨e', hc, he⟩ := h.load hq
  have hext : eval (J w) env w (zeroExtend sz e') = some (M.word (unsigned sz q)) := by
    rw [zeroExtend, zExt, eval, evals, he]
    exact M.zeroExtend (by omega) q w
  obtain rfl : toMLWord (zeroExtend sz e') = e :=
    Except.ok.inj ((ok_map hc fun e => toMLWord (zeroExtend sz e)).symm.trans hok)
  rw [eval_toMLWord hext, hlow, hp, unsigned_of_pattern hi, repr_of_tagged (by omega)]

theorem fetch_signExtend (hsz : sz < 63) (hi : IsInteger (.int sz) i)
    (h : Points M exps env w arr ix b n) (hst : Stored M w sz i n b)
    (hok : (do return toMLWord (signExtend sz (← genRawSubscript exps .int sz arr ix))) = .ok e) :
    eval (J w) env w e = some (M.word (repr sz i)) := by
  obtain ⟨p, hp, hload⟩ := hst
  rw [if_pos hsz] at hp
  obtain ⟨q, hq, hpat, hlow⟩ := hload sz le_rfl rfl
  obtain ⟨e', hc, he⟩ := h.load hq
  have hext : eval (J w) env w (signExtend sz e') = some (M.word (unsigned 64 (signed sz q))) := by
    rw [signExtend, sExt, eval, evals, he]
    exact M.signExtend (by omega) q w
  obtain rfl : toMLWord (signExtend sz e') = e :=
    Except.ok.inj ((ok_map hc fun e => toMLWord (signExtend sz e)).symm.trans hok)
  have hsigned : signed sz q = i :=
    (signed_congr (hlow.trans hp)).trans (signed_of_bounds hi.1 hi.2.1 hi.2.2)
  rw [eval_toMLWord hext, hsigned, unsigned_unsigned (by decide), repr_of_tagged (by omega)]

theorem fetch_eight (hi : IsInteger (.int 8) i) (h : Points M exps env w arr ix b n)
    (hst : Stored M w 8 i n b)
    (hok : (do return toMLWord (← genRawSubscript exps .int 8 arr ix)) = .ok e) :
    eval (J w) env w e = some (M.word (repr 8 i)) ↔ 0 ≤ i := by
  obtain ⟨p, hp, hload⟩ := hst
  obtain ⟨q, hq, hpat, hlow⟩ := hload 8 le_rfl rfl
  obtain ⟨e', hc, he⟩ := h.load hq
  obtain rfl : toMLWord e' = e := Except.ok.inj ((ok_map hc toMLWord).symm.trans hok)
  obtain ⟨-, hlb, hub⟩ := hi
  have hp : unsigned 8 p = unsigned 8 i := hp
  have htag : repr 8 i = 2 * unsigned 63 i + 1 := rfl
  rw [eval_repr_iff (eval_toMLWord he) (pattern_unsigned 63 q).tag]
  simp only [unsigned, Pattern] at *
  omega

/-- **Fetching an integer** where it has been stored. -/
theorem fetch_iff (hkind : kind = .int sz ∨ kind = .uint sz) (hi : IsInteger kind i) (hsz : sz ≤ 64)
    (h : Points M exps env w arr ix b n) (hst : Stored M w sz i n b)
    (hf : Fetches exps kind arr ix e) :
    eval (J w) env w e = some (M.word (repr sz i)) ↔ ReadsBack kind i := by
  have hok := hf.eq
  rcases hkind with rfl | rfl
  · have hdef : genRawIntSubscript exps sz arr ix = .ok e := hok
    unfold genRawIntSubscript at hdef
    split at hdef
    · next h8 =>
      subst h8
      rw [fetch_eight hi h hst hdef]
      exact ⟨fun h0 => ⟨fun _ => h0, fun h63 => by cases h63⟩, fun hr => hr.1 rfl⟩
    · next h8 =>
      have hread : ReadsBack (.int sz) i ↔ (sz = 63 → i = -1) :=
        ⟨fun hr => hr.2, fun h63 => ⟨fun h => absurd h h8, h63⟩⟩
      rw [hread]
      split at hdef
      · next hlt =>
        have hlt : sz < 63 := hlt
        exact iff_of_true (fetch_signExtend hlt hi h hst hdef) fun h63 => by omega
      · split at hdef
        · next h63 =>
          obtain rfl : sz = 63 := h63
          obtain ⟨-, hlb, hub⟩ := hi
          rw [fetch_default h hst hdef, unsigned]
          refine ⟨fun hones _ => by omega, fun hneg => ?_⟩
          rw [hneg rfl]
          rfl
        · next hlt h63 =>
          obtain rfl : sz = 64 := by
            have hlt : ¬sz < 63 := hlt
            have h63 : sz ≠ 63 := h63
            omega
          exact iff_of_true (fetch_native h hst hdef) fun h63 => by cases h63
  · have hdef : genRawWordSubscript exps sz arr ix = .ok e := hok
    unfold genRawWordSubscript at hdef
    split at hdef
    · next hlt =>
      have hlt : sz < 63 := hlt
      exact iff_of_true (fetch_zeroExtend hlt hi h hst hdef) fun h63 => by omega
    · split at hdef
      · next h63 =>
        obtain rfl : sz = 63 := h63
        rw [fetch_default h hst hdef, unsigned_of_pattern hi]
        exact ⟨fun h _ => h, fun h => h rfl⟩
      · next hlt h63 =>
        obtain rfl : sz = 64 := by
          have hlt : ¬sz < 63 := hlt
          have h63 : sz ≠ 63 := h63
          omega
        exact iff_of_true (fetch_native h hst hdef) fun h63 => by cases h63

/-! ### Floating-point numbers -/

/-- **A floating-point number is fetched where it has been stored.** -/
theorem float_spec (S : Sequences M) {k stm : Stm} {x : V} {ev : Exp}
    (hgen : genV exps v = .ok ev) (hev : eval (J w) env w ev = some x) (hx : S.IsFloat sz x)
    (hpt : Points M exps env w arr ix b n) (helem : S.HasElem .flt sz b n w)
    (hok : genSetter exps (.numupdate (.float sz)) [arr, ix, v] k = .ok stm) :
    ∃ w', step (J w) ⟨env, w, stm⟩ = some (some ⟨env, w', k⟩) ∧
      ∀ {exps' env' arr' ix' e}, Points M exps' env' w' arr' ix' b n →
        Fetches exps' (.float sz) arr' ix' e → eval (J w') env' w' e = some x := by
  obtain ⟨a, ei, ha, hei, hb, hi⟩ := hpt.index
  obtain ⟨w', hset, hload⟩ := S.update_float helem hx
  have hstm : stm = .setter (.rawUpdate .flt sz) [getSeqData a, ei, ev] k := by
    change (do
      let e ← genV exps v
      return Stm.setter (.rawUpdate .flt sz)
        [getSeqData (← genV exps arr), ← untagSigned exps ix, e] k) = .ok stm at hok
    rw [hgen, ha, hei] at hok
    exact (Except.ok.inj hok).symm
  have hargs : evals (J w) env w [getSeqData a, ei, ev] =
      some [b, M.word (unsigned 64 n), x] := by
    simp [hb, hi, hev]
  refine ⟨w', ?_, fun {exps' env' arr' ix' e} hpt' hf => ?_⟩
  · rw [hstm, step]
    simp only [hargs, hset, Option.bind_eq_bind, Option.bind_some]
  · obtain ⟨e', hc, he⟩ := hpt'.rawSubscript .flt sz
    obtain rfl : e' = e := Except.ok.inj (hc.symm.trans hf.eq)
    exact he.trans hload

end Arrays

section Correct

variable {V W : Type} {J : W → Interp V W}

/-- **Elements survive exactly if they read back**: an integer that is stored is fetched in its
tagged or native representation if it is not signed with eight bits and negative, and is all ones if
it has the default size; a floating-point number is always fetched. -/
theorem numSubscript_numUpdate_iff (M : Machine J) (S : Sequences M) (exps : Lvar → Option Exp)
    (env : Env V) (w : W) (kind : CPS.P.NumKind) (arr ix v : Value) (k stm : Stm) (b : V) (n : ℤ)
    (hok : genSetter exps (.numupdate kind) [arr, ix, v] k = .ok stm)
    (hpt : Points M exps env w arr ix b n) :
    (∀ i, IsInteger kind i → IntOperand M exps env w (kindSize kind) v i →
      S.HasElem .int (kindSize kind) b n w →
      ∃ w', step (J w) ⟨env, w, stm⟩ = some (some ⟨env, w', k⟩) ∧
        ∀ exps' env' arr' ix' e, Points M exps' env' w' arr' ix' b n →
          Fetches exps' kind arr' ix' e →
          (eval (J w') env' w' e = some (M.word (repr (kindSize kind) i)) ↔ ReadsBack kind i)) ∧
    ∀ sz x ev, kind = .float sz → genV exps v = .ok ev → eval (J w) env w ev = some x →
      S.IsFloat sz x → S.HasElem .flt sz b n w →
      ∃ w', step (J w) ⟨env, w, stm⟩ = some (some ⟨env, w', k⟩) ∧
        ∀ exps' env' arr' ix' e, Points M exps' env' w' arr' ix' b n →
          Fetches exps' kind arr' ix' e → eval (J w') env' w' e = some x := by
  refine ⟨fun i hi hv helem => ?_, ?_⟩
  · have hkind : kind = .int (kindSize kind) ∨ kind = .uint (kindSize kind) := by
      cases kind with
      | int sz => exact .inl rfl
      | uint sz => exact .inr rfl
      | _ => exact hi.elim
    obtain ⟨w', hstep, hsz, hst⟩ := step_numUpdate S hkind hv hpt helem hok
    exact ⟨w', hstep, fun exps' env' arr' ix' e hpt' hf => fetch_iff hkind hi hsz hpt' hst hf⟩
  · rintro sz x ev rfl hgen hev hx helem
    obtain ⟨w', hstep, hfetch⟩ := float_spec S hgen hev hx hpt helem hok
    exact ⟨w', hstep, fun exps' env' arr' ix' e => hfetch⟩

end Correct

def oneSequence : Cells := ⟨3000, fun b i => if b = 1000 ∧ i = 0 then 2000 else 0⟩

def sequenceEnv : Env ℤ := fun x => if x = 0 then some 1000 else none

/-- What is fetched where a literal has been stored as the element 3. -/
def storeFetch (kind : CPS.P.NumKind) (v : Value) : Option ℤ := do
  let stm ← (genSetter (fun _ => none) (.numupdate kind) [.var 0, literal 3, v]
    (.goto 0 [])).toOption
  let e ← (genLooker (fun _ => none) (.numsubscript kind) [.var 0, literal 3]).toOption
  let s ← (← step (cellsInterp oneSequence) ⟨sequenceEnv, oneSequence, stm⟩)
  eval (cellsInterp s.world) s.env s.world e

/-- The default integer 5, which is 11 with its tag, comes back as 11 with another tag, and minus one
of eight bits as 255. -/
theorem storeFetch_wrong :
    (storeFetch (.int 63) (literal 5) = some (2 * 11 + 1) ∧ repr 63 5 = 11) ∧
      storeFetch (.int 8) (literal (-1)) = some (2 * 255 + 1) ∧
      repr 8 (-1) = 2 * (2 ^ 63 - 1) + 1 := by
  decide

theorem points_oneSequence (n : ℤ) (hn : InRange true n) (w : Cells) (hw : w.cell 1000 0 = 2000) :
    Points cells (fun _ => none) sequenceEnv w (.var 0) (literal n) 2000 n := by
  refine ⟨⟨.var 0, rfl, congrArg some hw⟩, hn, rfl, hn, rfl⟩

/-- A negative element of sixteen bits survives. -/
theorem numSubscript_numUpdate_sixteen :
    ∃ stm e w', genSetter (fun _ => none) (.numupdate (.int 16)) [.var 0, literal 3, literal (-7)]
        (.goto 0 []) = .ok stm ∧
      genLooker (fun _ => none) (.numsubscript (.int 16)) [.var 0, literal 3] = .ok e ∧
      step (cellsInterp oneSequence) ⟨sequenceEnv, oneSequence, stm⟩ =
        some (some ⟨sequenceEnv, w', .goto 0 []⟩) ∧
      eval (cellsInterp w') sequenceEnv w' e = some (repr 16 (-7)) := by
  obtain ⟨hint, -⟩ := numSubscript_numUpdate_iff cells cellsSequences (fun _ => none) sequenceEnv
    oneSequence (.int 16) (.var 0) (literal 3) (literal (-7)) (.goto 0 []) _ 2000 3 rfl
    (points_oneSequence 3 (by decide) oneSequence rfl)
  obtain ⟨w', hstep, hfetch⟩ := hint (-7) ⟨by decide, by decide, by decide⟩
    ⟨rfl, rfl, fun h => nomatch h⟩ trivial
  refine ⟨_, _, w', rfl, rfl, hstep, ?_⟩
  -- the store leaves the pointer to the data alone
  obtain rfl : oneSequence.set 2000 (unsigned 64 3) (unsigned 16 (unsigned 16 (-7))) = w' := by
    injection hstep with h
    injection h with h
    exact (State.mk.inj h).2.1
  have hpt := points_oneSequence 3 (by decide)
    (oneSequence.set 2000 (unsigned 64 3) (unsigned 16 (unsigned 16 (-7)))) (by decide)
  exact (hfetch _ _ _ _ _ hpt (.inl rfl)).mpr ⟨by decide, by decide⟩

end SmlNj.CPStoCFG
