import SmlNj.CPS.Opt.ValueNumbering

/-!
# The keys of the available-value map

Expressions that the ordering of the available-value map does not distinguish are
equal, so a lookup only ever answers with a variable that was entered for the
same expression.

The codes by which operators are compared are read back by the functions
`*OfCodes`, which shows that no two operators share their codes.

## Main results

* `eq_of_cmpAvailVal` — expressions that compare equal are equal.
* `AVMap.mem_of_find` — what a lookup finds was entered for the expression.
* `AVMap.mem_insert` — an insertion adds no other entry.
-/

namespace SmlNj.ValueNumbering

open CPS

def Separates {α : Type} (cmp : α → α → Except Exn Ordering) : Prop :=
  ∀ a b, cmp a b = .ok .eq → a = b

theorem andThen_eq {o f : Except Exn Ordering} :
    andThen o f = .ok .eq ↔ o = .ok .eq ∧ f = .ok .eq := by
  rcases o with e | o
  · simp [andThen]
  · cases o <;> simp [andThen]

theorem separates_cmpList {α : Type} {cmp : α → α → Except Exn Ordering} (h : Separates cmp) :
    Separates (cmpList cmp) := by
  intro xs
  induction xs with
  | nil =>
    intro ys he
    cases ys with
    | nil => rfl
    | cons y ys => simp [cmpList] at he
  | cons x xs ih =>
    intro ys he
    cases ys with
    | nil => simp [cmpList] at he
    | cons y ys =>
      obtain ⟨hxy, hl⟩ := andThen_eq.mp he
      rw [h x y hxy, ih ys hl]

theorem separates_cmpCode : Separates cmpCode := by
  intro a b h
  exact Nat.compare_eq_eq.mp (Except.ok.inj h)

theorem separates_cmpCodes : Separates cmpCodes := separates_cmpList separates_cmpCode

/-! ### Codes are read back -/

def numKindOfCodes : List ℕ → Option P.NumKind
  | [0, n] => some (.int n)
  | [1, n] => some (.uint n)
  | [2, n] => some (.float n)
  | [3] => some .enum
  | _ => none

def arithOpOfCode : ℕ → Option P.ArithOp
  | 0 => some .iadd
  | 1 => some .isub
  | 2 => some .imul
  | 3 => some .idiv
  | 4 => some .imod
  | 5 => some .iquot
  | 6 => some .irem
  | 7 => some .ineg
  | _ => none

def arithOfCodes : List ℕ → Option P.Arith
  | [0, o, sz] => (arithOpOfCode o).map fun oper => .iarith oper sz
  | [1, n, p] => some (.test n p)
  | [2, n, p] => some (.testu n p)
  | [3, p] => some (.testInf p)
  | [4, b, n, p] => some (.realToInt (b == 1) n p)
  | _ => none

theorem arithOfCodes_codes (p : P.Arith) : arithOfCodes (arithCodes p) = some p := by
  cases p with
  | iarith oper sz => cases oper <;> rfl
  | realToInt floor n p => cases floor <;> rfl
  | _ => rfl

theorem separates_cmpArith : Separates cmpArith := by
  intro p q h
  have hc := separates_cmpCodes _ _ h
  exact Option.some.inj (by rw [← arithOfCodes_codes p, hc, arithOfCodes_codes])

def pureOpOfCode : ℕ → Option P.PureOp
  | 0 => some .add
  | 1 => some .sub
  | 2 => some .mul
  | 3 => some .quot
  | 4 => some .rem
  | 5 => some .neg
  | 6 => some .lshift
  | 7 => some .rshift
  | 8 => some .rshiftl
  | 9 => some .orb
  | 10 => some .xorb
  | 11 => some .andb
  | 12 => some .notb
  | 13 => some .cntpop
  | 14 => some .cntlz
  | 15 => some .cnttz
  | 17 => some .rotl
  | 18 => some .rotr
  | 19 => some .fdiv
  | 20 => some .fabs
  | 21 => some .fsqrt
  | 22 => some .fceil
  | 23 => some .ffloor
  | 24 => some .fround
  | 25 => some .ftrunc
  | _ => none

def pureOfCodes : List ℕ → Option P.Pure
  | 0 :: o :: k =>
      (pureOpOfCode o).bind fun oper => (numKindOfCodes k).map fun kind => .pureArith oper kind
  | 1 :: k => (numKindOfCodes k).map .pureNumsubscript
  | [2] => some .length
  | [3] => some .objlength
  | [4] => some .makeref
  | [5, n, p] => some (.copy n p)
  | [6, n, p] => some (.extend n p)
  | [7, n, p] => some (.trunc n p)
  | [8, n] => some (.copyInf n)
  | [9, n] => some (.extendInf n)
  | [10, n] => some (.truncInf n)
  | [11, n, p] => some (.intToReal n p)
  | [12, sz] => some (.bitsToReal sz)
  | [13, sz] => some (.realToBits sz)
  | [14] => some .subscriptv
  | [15] => some .gettag
  | [16] => some .mkspecial
  | [17] => some .cast
  | [18] => some .getcon
  | [19] => some .getexn
  | [20] => some .box
  | [21] => some .unbox
  | 22 :: k => (numKindOfCodes k).map .wrap
  | 23 :: k => (numKindOfCodes k).map .unwrap
  | [24] => some .getseqdata
  | [25] => some .recsubscript
  | [26] => some .raw64subscript
  | [27] => some .newarray0
  | [28] => some (.rawrecord none)
  | _ => none

theorem pureOfCodes_codes (p : P.Pure) :
    pureOfCodes (pureCodes p) = some p ∨ ∃ rk, p = .rawrecord (some rk) := by
  cases p with
  | pureArith oper kind => left; cases oper <;> cases kind <;> rfl
  | pureNumsubscript kind | wrap kind | unwrap kind => left; cases kind <;> rfl
  | rawrecord rk =>
    cases rk with
    | none => exact .inl rfl
    | some rk => exact .inr ⟨rk, rfl⟩
  | _ => exact .inl rfl

theorem separates_cmpRecordKind : Separates cmpRecordKind := by
  intro rk1 rk2 h
  cases rk1 <;> cases rk2 <;> first | rfl | cases h

theorem separates_cmpPure : Separates cmpPure := by
  intro p q h
  unfold cmpPure at h
  split at h
  · rw [separates_cmpRecordKind _ _ h]
  · next hne =>
    have hc := separates_cmpCodes _ _ h
    rcases pureOfCodes_codes p with hp | ⟨rk, rfl⟩
    · rcases pureOfCodes_codes q with hq | ⟨rk, rfl⟩
      · exact Option.some.inj (by rw [← hp, hc, hq])
      · rw [hc] at hp
        cases hp
    · rcases pureOfCodes_codes q with hq | ⟨rk', rfl⟩
      · rw [← hc] at hq
        cases hq
      · exact absurd rfl (fun hr => hne rk rk' rfl hr)

/-! ### Operands and expressions -/

theorem separates_cmpTy : Separates cmpTy := by
  intro ⟨sz1, t1⟩ ⟨sz2, t2⟩ h
  unfold cmpTy at h
  split at h
  · next ht => rw [show t1 = t2 from ht, separates_cmpCode sz1 sz2 h]
  · split at h <;> cases h

theorem separates_cmpValue : Separates cmpValue := by
  intro v w h
  cases v with
  | var x =>
    cases w with
    | var y => rw [separates_cmpCode x y h]
    | _ => cases h
  | num n =>
    cases w with
    | num m =>
      obtain ⟨hi, ht⟩ := andThen_eq.mp h
      have hival : n.ival = m.ival := compare_eq_iff_eq.mp (Except.ok.inj hi)
      have hty : n.ty = m.ty := separates_cmpTy _ _ ht
      obtain ⟨i, t⟩ := n
      obtain ⟨j, s⟩ := m
      rw [show i = j from hival, show t = s from hty]
    | _ => cases h
  | enum i =>
    cases w with
    | enum j => rw [show i = j from compare_eq_iff_eq.mp (Except.ok.inj h)]
    | _ => cases h
  | real r =>
    cases w with
    | real s =>
      obtain ⟨hr, ht⟩ := andThen_eq.mp h
      have hrval : r.rval = s.rval := RealLit.compare_eq_iff.mp (Except.ok.inj hr)
      have hty : r.ty = s.ty := separates_cmpCode _ _ ht
      obtain ⟨a, b⟩ := r
      obtain ⟨c, d⟩ := s
      rw [show a = c from hrval, show b = d from hty]
    | _ => cases h
  | string s =>
    cases w with
    | string t =>
      have hst := separates_cmpCodes _ _ h
      rw [List.map_injective_iff.mpr (fun _ _ => UInt8.toNat_inj.mp) hst]
    | _ => cases h
  | label l | void => cases w <;> cases h

theorem separates_cmpAccess : Separates cmpAccess := by
  intro p
  induction p with
  | offp n =>
    intro q h
    cases q with
    | offp m => rw [separates_cmpCode n m h]
    | selp m q => cases h
  | selp n p ih =>
    intro q h
    cases q with
    | offp m => cases h
    | selp m q =>
      obtain ⟨hn, hp⟩ := andThen_eq.mp h
      rw [separates_cmpCode n m hn, ih q hp]

theorem separates_cmpField : Separates cmpField := by
  intro f g h
  obtain ⟨hv, hp⟩ := andThen_eq.mp h
  exact Prod.ext (separates_cmpValue _ _ hv) (separates_cmpAccess _ _ hp)

/-- **Expressions that compare equal are equal.** -/
theorem eq_of_cmpAvailVal : Separates cmpAvailVal := by
  intro a b h
  cases a with
  | record rk1 flds1 =>
    cases b with
    | record rk2 flds2 =>
      obtain ⟨hk, hf⟩ := andThen_eq.mp h
      rw [separates_cmpRecordKind _ _ hk, separates_cmpList separates_cmpField _ _ hf]
    | _ => cases h
  | select i1 v1 =>
    cases b with
    | select i2 v2 =>
      obtain ⟨hi, hv⟩ := andThen_eq.mp h
      rw [separates_cmpCode _ _ hi, separates_cmpValue _ _ hv]
    | _ => cases h
  | arith p1 vs1 =>
    cases b with
    | arith p2 vs2 =>
      obtain ⟨hp, hv⟩ := andThen_eq.mp h
      rw [separates_cmpArith _ _ hp, separates_cmpList separates_cmpValue _ _ hv]
    | _ => cases h
  | pure p1 vs1 =>
    cases b with
    | pure p2 vs2 =>
      obtain ⟨hp, hv⟩ := andThen_eq.mp h
      rw [separates_cmpPure _ _ hp, separates_cmpList separates_cmpValue _ _ hv]
    | _ => cases h

theorem eq_of_sameValue {v w : Value} (h : sameValue v w = true) : v = w := by
  cases v with
  | var x =>
    cases w with
    | var y => rw [beq_iff_eq.mp h]
    | _ => cases h
  | label l =>
    cases w with
    | label m => rw [beq_iff_eq.mp h]
    | _ => cases h
  | num n =>
    cases w with
    | num m =>
      obtain ⟨i, s, t⟩ := n
      obtain ⟨j, s', t'⟩ := m
      simp only [sameValue, Bool.and_eq_true, beq_iff_eq] at h
      obtain ⟨⟨rfl, rfl⟩, rfl⟩ := h
      rfl
    | _ => cases h
  | enum i =>
    cases w with
    | enum j => rw [beq_iff_eq.mp h]
    | _ => cases h
  | real r =>
    cases w with
    | real s =>
      obtain ⟨a, b⟩ := r
      obtain ⟨c, d⟩ := s
      simp only [sameValue, Bool.and_eq_true, beq_iff_eq] at h
      obtain ⟨rfl, hr⟩ := h
      rw [RealLit.same_iff.mp hr]
    | _ => cases h
  | string s =>
    cases w with
    | string t => rw [beq_iff_eq.mp h]
    | _ => cases h
  | void => cases w <;> cases h

theorem eq_of_allEq {vs ws : List Value} (h : allEq vs ws = true) : vs = ws := by
  induction vs generalizing ws with
  | nil => cases ws <;> first | rfl | cases h
  | cons v vs ih =>
    cases ws with
    | nil => cases h
    | cons w ws =>
      obtain ⟨h1, h2⟩ := Bool.and_eq_true_iff.mp h
      rw [eq_of_sameValue h1, ih h2]

theorem AVMap.mem_of_find {m : AVMap} {av : AvailValue} {y : Lvar}
    (h : m.find av = .ok (some y)) : (av, y) ∈ m := by
  induction m with
  | nil => cases h
  | cons e m ih =>
    obtain ⟨k, z⟩ := e
    unfold AVMap.find at h
    split at h
    · next heq =>
      cases h
      rw [eq_of_cmpAvailVal _ _ heq]
      exact List.mem_cons_self
    · exact List.mem_cons_of_mem _ (ih h)
    · cases h

theorem AVMap.mem_insert {m m' : AVMap} {av : AvailValue} {x : Lvar}
    (h : m.insert av x = .ok m') {e : AvailValue × Lvar} (he : e ∈ m') : e = (av, x) ∨ e ∈ m := by
  induction m generalizing m' with
  | nil =>
    cases h
    exact .inl (List.mem_singleton.mp he)
  | cons e' m ih =>
    obtain ⟨k, z⟩ := e'
    unfold AVMap.insert at h
    split at h
    · cases h
      exact (List.mem_cons.mp he).imp id (List.mem_cons_of_mem _)
    · cases hm : AVMap.insert m av x with
      | error ex =>
        rw [hm] at h
        cases h
      | ok m'' =>
        rw [hm] at h
        cases h
        rcases List.mem_cons.mp he with rfl | he'
        · exact .inr List.mem_cons_self
        · exact (ih hm he').imp id (List.mem_cons_of_mem _)
    · cases h

end SmlNj.ValueNumbering
