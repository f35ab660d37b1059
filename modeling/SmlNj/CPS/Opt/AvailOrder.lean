import Mathlib
import SmlNj.CPS.Opt.AvailMap

/-!
# The order of the keys of the available-value map

The comparison of available expressions is lexicographic all the way down.  Each thing that is
compared has a code, a list of integers no code of its kind is a proper prefix of, and the
comparison is that of the codes.  So it is a strict total order, but for the records of mixed
layout, which it does not expect.

## Main definitions

* `StrictTotalOn` — a comparison that is a strict total order.
* `Encodes` — two things are compared as their codes are.
* `Comparable` — the expressions that can be compared.

## Main results

* `cmpAvailVal_strictTotalOn` — the comparison is a strict total order on them.
-/

namespace SmlNj.ValueNumbering

open CPS

/-- **A strict total order**: the comparison of any two things of the kind `P` succeeds, is reversed
with its arguments, is transitive, and answers `EQUAL` for identical things only. -/
structure StrictTotalOn {α : Type} (cmp : α → α → Except Exn Ordering) (P : α → Prop) : Prop where
  total : ∀ a b, P a → P b → ∃ o, cmp a b = .ok o ∧ cmp b a = .ok o.swap
  trans : ∀ a b c, P a → P b → P c → cmp a b = .ok .lt → cmp b c = .ok .lt → cmp a c = .ok .lt
  eq_iff : ∀ a b, P a → P b → (cmp a b = .ok .eq ↔ a = b)

/-! ### Codes -/

def lex : List ℤ → List ℤ → Ordering := List.compareLex compare

instance : Std.TransCmp lex := inferInstanceAs (Std.TransCmp (List.compareLex compare))

/-- **A comparison is that of the codes `c` and `d`**, whatever follows them. -/
def Encodes (r : Except Exn Ordering) (c d : List ℤ) : Prop :=
  ∃ o, r = .ok o ∧ ∀ s t, lex (c ++ s) (d ++ t) = o.then (lex s t)

theorem lex_cons (i j : ℤ) (s t : List ℤ) : lex (i :: s) (j :: t) = (compare i j).then (lex s t) :=
  List.compareLex_cons_cons

namespace Encodes

variable {r r' : Except Exn Ordering} {c c' d d' : List ℤ} {i j : ℤ}

theorem same (c : List ℤ) : Encodes (.ok .eq) c c := by
  refine ⟨.eq, rfl, fun s t => ?_⟩
  induction c with
  | nil => rfl
  | cons i c ih =>
    rw [List.cons_append, List.cons_append, lex_cons, compare_eq_iff_eq.2 rfl, ih]
    rfl

theorem andThen (h : Encodes r c d) (h' : Encodes r' c' d') :
    Encodes (ValueNumbering.andThen r r') (c ++ c') (d ++ d') := by
  obtain ⟨o, rfl, ho⟩ := h
  obtain ⟨o', rfl, ho'⟩ := h'
  refine ⟨o.then o', by cases o <;> rfl, fun s t => ?_⟩
  rw [List.append_assoc, List.append_assoc, ho, ho']
  cases o <;> rfl

theorem ofCompare (i j : ℤ) : Encodes (.ok (compare i j)) [i] [j] :=
  ⟨_, rfl, lex_cons i j⟩

theorem ofCode (m n : ℕ) : Encodes (cmpCode m n) [(m : ℤ)] [(n : ℤ)] := by
  have h : compare (m : ℤ) n = compare m n := by
    rcases lt_trichotomy m n with h | rfl | h
    · rw [compare_lt_iff_lt.2 h, compare_lt_iff_lt.2 (Int.ofNat_lt.2 h)]
    · rw [compare_eq_iff_eq.2 rfl, compare_eq_iff_eq.2 rfl]
    · rw [compare_gt_iff_gt.2 h, compare_gt_iff_gt.2 (Int.ofNat_lt.2 h)]
  rw [cmpCode, ← h]
  exact ofCompare m n

theorem lt (h : i < j) : Encodes (.ok .lt) (i :: c) (j :: d) := by
  refine ⟨.lt, rfl, fun s t => ?_⟩
  rw [List.cons_append, List.cons_append, lex_cons, compare_lt_iff_lt.2 h]
  rfl

theorem gt (h : j < i) : Encodes (.ok .gt) (i :: c) (j :: d) := by
  refine ⟨.gt, rfl, fun s t => ?_⟩
  rw [List.cons_append, List.cons_append, lex_cons, compare_gt_iff_gt.2 h]
  rfl

theorem rank (i : ℤ) (h : Encodes r c d) : Encodes r (i :: c) (i :: d) := by
  obtain ⟨o, rfl, ho⟩ := h
  refine ⟨o, rfl, fun s t => ?_⟩
  rw [List.cons_append, List.cons_append, lex_cons, compare_eq_iff_eq.2 rfl, ho]
  rfl

/-- Unequal codes may be continued. -/
theorem extend (h : Encodes r c d) (hne : r ≠ .ok .eq) (c' d' : List ℤ) :
    Encodes r (c ++ c') (d ++ d') := by
  obtain ⟨o, rfl, ho⟩ := h
  refine ⟨o, rfl, fun s t => ?_⟩
  rw [List.append_assoc, List.append_assoc, ho]
  cases o with
  | eq => exact absurd rfl hne
  | _ => rfl

end Encodes

/-- The code of a list: a one before each element, and a zero at the end. -/
def listCode {α : Type} (code : α → List ℤ) : List α → List ℤ
  | [] => [0]
  | x :: xs => 1 :: (code x ++ listCode code xs)

theorem encodes_cmpList {α : Type} {cmp : α → α → Except Exn Ordering} {code : α → List ℤ}
    {xs ys : List α} (h : ∀ x ∈ xs, ∀ y ∈ ys, Encodes (cmp x y) (code x) (code y)) :
    Encodes (cmpList cmp xs ys) (listCode code xs) (listCode code ys) := by
  induction xs generalizing ys with
  | nil =>
    cases ys with
    | nil => exact .same [0]
    | cons y ys => exact .lt one_pos
  | cons x xs ih =>
    cases ys with
    | nil => exact .gt one_pos
    | cons y ys =>
      refine .rank 1 (.andThen (h x List.mem_cons_self y List.mem_cons_self) (ih ?_))
      exact fun x hx y hy => h x (.tail _ hx) y (.tail _ hy)

def codes (l : List ℕ) : List ℤ := listCode (fun n : ℕ => [(n : ℤ)]) l

theorem encodes_cmpCodes (l m : List ℕ) : Encodes (cmpCodes l m) (codes l) (codes m) := by
  exact encodes_cmpList fun m _ n _ => .ofCode m n

/-! ### The codes of operators -/

def recordKindNum (rk : RecordKind) : ℕ := (recordKindCode rk).toOption.getD 0

theorem encodes_cmpRecordKind {rk1 rk2 : RecordKind} (h1 : ∀ rep, rk1 ≠ .mixed rep)
    (h2 : ∀ rep, rk2 ≠ .mixed rep) :
    Encodes (cmpRecordKind rk1 rk2) [(recordKindNum rk1 : ℤ)] [(recordKindNum rk2 : ℤ)] := by
  have hcode : ∀ rk, (∀ rep, rk ≠ .mixed rep) → recordKindCode rk = .ok (recordKindNum rk) := by
    intro rk h
    cases rk with
    | mixed rep => exact absurd rfl (h rep)
    | _ => rfl
  rw [cmpRecordKind, hcode rk1 h1, hcode rk2 h2]
  exact .ofCode _ _

def pureCode (p : P.Pure) : List ℤ :=
  codes (pureCodes p) ++ match p with
    | .rawrecord (some rk) => [(recordKindNum rk : ℤ)]
    | _ => []

theorem cmpPure_cases (p q : P.Pure) :
    (∃ rk1 rk2, p = .rawrecord (some rk1) ∧ q = .rawrecord (some rk2)) ∨
      cmpPure p q = cmpCodes (pureCodes p) (pureCodes q) := by
  unfold cmpPure
  split
  · exact .inl ⟨_, _, rfl, rfl⟩
  · exact .inr rfl

theorem encodes_cmpPure {p q : P.Pure} (hp : ∀ rep, p ≠ .rawrecord (some (.mixed rep)))
    (hq : ∀ rep, q ≠ .rawrecord (some (.mixed rep))) :
    Encodes (cmpPure p q) (pureCode p) (pureCode q) := by
  by_cases heq : cmpPure p q = .ok .eq
  · obtain rfl := separates_cmpPure p q heq
    rw [heq]
    exact .same _
  · rcases cmpPure_cases p q with ⟨rk1, rk2, rfl, rfl⟩ | h
    · have h1 : ∀ rep, rk1 ≠ .mixed rep := fun rep h => hp rep (congrArg _ (congrArg _ h))
      have h2 : ∀ rep, rk2 ≠ .mixed rep := fun rep h => hq rep (congrArg _ (congrArg _ h))
      exact .rank 1 (.rank 29 (.rank 0 (encodes_cmpRecordKind h1 h2)))
    · rw [h] at heq ⊢
      exact (encodes_cmpCodes _ _).extend heq _ _

/-! ### The codes of operands -/

def accessCode : AccessPath → List ℤ
  | .offp n => [0, (n : ℤ)]
  | .selp n ap => 1 :: (n : ℤ) :: accessCode ap

theorem encodes_cmpAccess (ap1 ap2 : AccessPath) :
    Encodes (cmpAccess ap1 ap2) (accessCode ap1) (accessCode ap2) := by
  induction ap1 generalizing ap2 with
  | offp n =>
    cases ap2 with
    | offp m => exact .rank 0 (.ofCode n m)
    | selp m ap2 => exact .lt one_pos
  | selp n ap1 ih =>
    cases ap2 with
    | offp m => exact .gt one_pos
    | selp m ap2 => exact .rank 1 ((Encodes.ofCode n m).andThen (ih ap2))

/-- A real literal: the negative numbers are before the positive ones. -/
def realLitCode : RealLit → List ℤ
  | .negInf => [0]
  | .posInf => [1]
  | .qNaN => [2]
  | .flt isNeg ds e => 3 :: (if isNeg then 0 else 1) :: e :: listCode (fun d => [d]) ds

theorem encodes_compareRealLit (r1 r2 : RealLit) :
    Encodes (.ok (RealLit.compare r1 r2)) (realLitCode r1) (realLitCode r2) := by
  have hint : ∀ i j : ℤ, compareOfLessAndEq i j = compare i j := fun i j =>
    (LinearOrder.compare_eq_compareOfLessAndEq i j).symm
  have hdigits : ∀ ds es : List ℤ,
      .ok (RealLit.cmpDigits ds es) = cmpList (fun d e : ℤ => .ok (compare d e)) ds es := by
    intro ds
    induction ds with
    | nil => intro es; cases es <;> rfl
    | cons d ds ih =>
      intro es
      cases es with
      | nil => rfl
      | cons e es =>
        rw [RealLit.cmpDigits, hint, cmpList, ← ih]
        cases compare d e <;> rfl
  cases r1 with
  | negInf =>
    cases r2 with
    | negInf => exact .same [0]
    | _ => exact .lt (by decide)
  | posInf =>
    cases r2 with
    | negInf => exact .gt (by decide)
    | posInf => exact .same [1]
    | _ => exact .lt (by decide)
  | qNaN =>
    cases r2 with
    | qNaN => exact .same [2]
    | flt => exact .lt (by decide)
    | _ => exact .gt (by decide)
  | flt n1 ds1 e1 =>
    cases r2 with
    | flt n2 ds2 e2 =>
      have hrest : Encodes (.ok ((compareOfLessAndEq e1 e2).then (RealLit.cmpDigits ds1 ds2)))
          (e1 :: listCode (fun d => [d]) ds1) (e2 :: listCode (fun d => [d]) ds2) := by
        rw [hint]
        have h := (Encodes.ofCompare e1 e2).andThen
          (encodes_cmpList fun d (_ : d ∈ ds1) e (_ : e ∈ ds2) => .ofCompare d e)
        rw [← hdigits] at h
        cases hc : compare e1 e2 <;> rwa [hc] at h
      cases n1 <;> cases n2
      · exact .rank 3 (.rank 1 hrest)
      · exact .rank 3 (.gt one_pos)
      · exact .rank 3 (.lt one_pos)
      · exact .rank 3 (.rank 0 hrest)
    | _ => exact .gt (by decide)

/-- The operands that the comparison expects. -/
def Ordered : Value → Prop
  | .label _ | .void => False
  | _ => True

def valueCode : Value → List ℤ
  | .var x => [0, (x : ℤ)]
  | .num n => [1, n.ival, (n.ty.tag.toNat : ℤ), (n.ty.sz : ℤ)]
  | .enum i => [2, i]
  | .real r => 3 :: (realLitCode r.rval ++ [(r.ty : ℤ)])
  | .string s => 4 :: codes (s.map UInt8.toNat)
  | _ => []

theorem encodes_cmpTy (ty1 ty2 : IntTy) :
    Encodes (cmpTy ty1 ty2) [(ty1.tag.toNat : ℤ), (ty1.sz : ℤ)]
      [(ty2.tag.toNat : ℤ), (ty2.sz : ℤ)] := by
  obtain ⟨n1, t1⟩ := ty1
  obtain ⟨n2, t2⟩ := ty2
  cases t1 <;> cases t2
  · exact .rank 0 (.ofCode n1 n2)
  · exact .lt one_pos
  · exact .gt one_pos
  · exact .rank 1 (.ofCode n1 n2)

theorem encodes_cmpValue {v w : Value} (hv : Ordered v) (hw : Ordered w) :
    Encodes (cmpValue v w) (valueCode v) (valueCode w) := by
  cases v with
  | label | void => exact hv.elim
  | var x =>
    cases w with
    | label | void => exact hw.elim
    | var y => exact .rank 0 (.ofCode x y)
    | _ => exact .lt (by decide)
  | num n =>
    cases w with
    | label | void => exact hw.elim
    | var y => exact .gt (by decide)
    | num m => exact .rank 1 ((Encodes.ofCompare n.ival m.ival).andThen (encodes_cmpTy n.ty m.ty))
    | _ => exact .lt (by decide)
  | enum i =>
    cases w with
    | label | void => exact hw.elim
    | var | num => exact .gt (by decide)
    | enum j => exact .rank 2 (.ofCompare i j)
    | _ => exact .lt (by decide)
  | real r =>
    cases w with
    | label | void => exact hw.elim
    | var | num | enum => exact .gt (by decide)
    | real s => exact .rank 3 ((encodes_compareRealLit r.rval s.rval).andThen (.ofCode r.ty s.ty))
    | string => exact .lt (by decide)
  | string s =>
    cases w with
    | label | void => exact hw.elim
    | string t => exact .rank 4 (encodes_cmpCodes _ _)
    | _ => exact .gt (by decide)

/-! ### Available expressions -/

/-- The operands of an expression. -/
def AvailValue.operands : AvailValue → List Value
  | .record _ flds => flds.map Prod.fst
  | .select _ v => [v]
  | .arith _ vs | .pure _ vs => vs

/-- Is the expression a record of mixed layout? -/
def AvailValue.IsMixed : AvailValue → Prop
  | .record (.mixed _) _ | .pure (.rawrecord (some (.mixed _))) _ => True
  | _ => False

/-- The expressions that can be compared. -/
def Comparable (av : AvailValue) : Prop := (∀ v ∈ av.operands, Ordered v) ∧ ¬av.IsMixed

def availCode : AvailValue → List ℤ
  | .record rk flds =>
    0 :: (recordKindNum rk : ℤ) :: listCode (fun f => valueCode f.1 ++ accessCode f.2) flds
  | .select i v => 1 :: (i : ℤ) :: valueCode v
  | .arith p vs => 2 :: (codes (arithCodes p) ++ listCode valueCode vs)
  | .pure p vs => 3 :: (pureCode p ++ listCode valueCode vs)

theorem encodes_cmpAvailVal {a b : AvailValue} (ha : Comparable a) (hb : Comparable b) :
    Encodes (cmpAvailVal a b) (availCode a) (availCode b) := by
  obtain ⟨ha, hma⟩ := ha
  obtain ⟨hb, hmb⟩ := hb
  cases a with
  | record rk1 flds1 =>
    cases b with
    | record rk2 flds2 =>
      have hrk := encodes_cmpRecordKind (fun rep (h : rk1 = _) => hma (by rw [h]; trivial))
        fun rep (h : rk2 = _) => hmb (by rw [h]; trivial)
      refine .rank 0 (hrk.andThen (encodes_cmpList fun f hf g hg => ?_))
      exact (encodes_cmpValue (ha _ (List.mem_map_of_mem hf))
        (hb _ (List.mem_map_of_mem hg))).andThen (encodes_cmpAccess f.2 g.2)
    | _ => exact .lt (by decide)
  | select i1 v1 =>
    cases b with
    | record => exact .gt (by decide)
    | select i2 v2 =>
      exact .rank 1 ((Encodes.ofCode i1 i2).andThen
        (encodes_cmpValue (ha v1 (.head _)) (hb v2 (.head _))))
    | _ => exact .lt (by decide)
  | arith p1 vs1 =>
    cases b with
    | record | select => exact .gt (by decide)
    | arith p2 vs2 =>
      exact .rank 2 ((encodes_cmpCodes _ _).andThen
        (encodes_cmpList fun v hv w hw => encodes_cmpValue (ha v hv) (hb w hw)))
    | pure => exact .lt (by decide)
  | pure p1 vs1 =>
    cases b with
    | pure p2 vs2 =>
      have hp := encodes_cmpPure (fun rep (h : p1 = _) => hma (by rw [h]; trivial))
        fun rep (h : p2 = _) => hmb (by rw [h]; trivial)
      exact .rank 3 (hp.andThen
        (encodes_cmpList fun v hv w hw => encodes_cmpValue (ha v hv) (hb w hw)))
    | _ => exact .gt (by decide)

/-- **Expressions that can be compared are compared as their codes are.** -/
theorem cmpAvailVal_eq_lex {a b : AvailValue} (ha : Comparable a) (hb : Comparable b) :
    cmpAvailVal a b = .ok (lex (availCode a) (availCode b)) := by
  obtain ⟨o, ho, h⟩ := encodes_cmpAvailVal ha hb
  have hlex := h [] []
  rw [List.append_nil, List.append_nil] at hlex
  rw [ho, hlex]
  cases o <;> rfl

/-- **The comparison is a strict total order** on expressions without labels, unless they are
records of mixed layout. -/
theorem cmpAvailVal_strictTotalOn : StrictTotalOn cmpAvailVal Comparable where
  total a b ha hb := by
    refine ⟨_, cmpAvailVal_eq_lex ha hb, ?_⟩
    have hswap : lex (availCode b) (availCode a) = (lex (availCode a) (availCode b)).swap :=
      Std.OrientedCmp.eq_swap
    rw [cmpAvailVal_eq_lex hb ha, hswap]
  trans a b c ha hb hc hab hbc := by
    rw [cmpAvailVal_eq_lex ha hb] at hab
    rw [cmpAvailVal_eq_lex hb hc] at hbc
    rw [cmpAvailVal_eq_lex ha hc]
    exact congrArg _ (Std.TransCmp.lt_trans (Except.ok.inj hab) (Except.ok.inj hbc))
  eq_iff a b ha hb := by
    constructor
    · exact eq_of_cmpAvailVal a b
    · rintro rfl
      have hself : lex (availCode a) (availCode a) = .eq := Std.ReflCmp.compare_self
      rw [cmpAvailVal_eq_lex ha ha, hself]

/-- A record of mixed layout is not even equal to itself: the comparison fails. -/
theorem cmpAvailVal_mixed :
    ¬StrictTotalOn cmpAvailVal fun av => ∀ v ∈ av.operands, Ordered v := by
  intro h
  have heq := (h.eq_iff (.record (.mixed default) []) (.record (.mixed default) [])
    (by simp [AvailValue.operands]) (by simp [AvailValue.operands])).2 rfl
  cases heq

end SmlNj.ValueNumbering
