import SmlNj.CPS.Opt.PureFoldingArith

/-!
# Where the contraction of pure operations is faithful

The operators that contraction reduces by the bits of the literals, and the conversions of
literals.  `pure_faithful_iff` puts all operators together.

## Main results

* `rshift_faithful_iff`, `rshiftl_faithful_iff`, … — the operators.
* `pure_faithful_iff` — the contraction of a numeric operation is faithful exactly off `Misfolded`.
-/

namespace SmlNj.ContractPrim

open CPS TwosComplement IntBitwise Rotation

section

variable {ρ : Lvar → ℤ} {sz : ℕ} {u v w : Value}

variable {kind : P.NumKind} {args : List Value} {oper : P.PureOp} {j : IntConst} {ty : IntTy}
  {i a : ℤ} {n p : ℕ} {get : GetInfo}

theorem neg_faithful (h : WellFormed ρ (.pureArith .neg kind) args) :
    Faithful ρ (.pureArith .neg kind) args (neg kind args) := by
  unfold neg
  split
  case h_1 sz i =>
    refine faithful_fold (b := false) fun d hd => ?_
    have hneg : unsigned sz (Int.xor (2 ^ sz - 1) i.ival + 1) = unsigned sz (-i.ival) := by
      rw [unsigned, Int.add_emod, mask_xor_emod, ← Int.add_emod]
      ring_nf
      rfl
    rw [← Option.some_inj.1 hd, ConstArith.uNeg, land_comm, ConstArith.pow2, land_two_pow_sub_one]
    change unsigned sz (unsigned sz _) = _
    rw [unsigned_idem, hneg]
    exact ((Int.mod_modEq i.ival (2 ^ sz)).neg).symm
  case h_2 _ => exact faithful_none

theorem exec_notb (b : Bool) (v : Value) :
    exec ρ (.pureArith .notb (kindOf b sz)) [v] = some (2 ^ sz - 1 - value ρ sz v) := by
  cases b <;> rfl

theorem notb_faithful (h : WellFormed ρ (.pureArith .notb kind) args) :
    Faithful ρ (.pureArith .notb kind) args (notb kind args) := by
  unfold notb
  split
  case h_1 i =>
    obtain ⟨b, sz, rfl⟩ := h.exists_kind
    have hfold : fold ((sizeOfKind (kindOf b sz)).map fun sz => ConstArith.bNot sz i.ival) i.ty =
        .ok (.val (.num ⟨ConstArith.bNot sz i.ival, i.ty⟩)) := by
      cases b <;> rfl
    rw [hfold]
    refine faithful_fold fun d hd => ?_
    rw [exec_notb] at hd
    have hpat := pattern_unsigned sz i.ival
    have hlow := hpat.1
    have hhigh := hpat.2
    have hcompl : unsigned sz (2 ^ sz - 1 - unsigned sz i.ival) = (-1 - i.ival) % 2 ^ sz := by
      rw [unsigned, unsigned, Int.sub_emod, mask_emod, Int.emod_emod, ← Int.sub_emod]
    rw [← Option.some_inj.1 hd, ConstArith.bNot, narrow_eq, unsigned_idem, unsigned,
      ConstArith.pow2, xor_mask_emod, ← hcompl]
    exact unsigned_of_pattern ⟨by omega, by omega⟩
  case h_2 _ => exact faithful_none

/-! ### Bitwise operations -/

theorem unsigned_bitwise {f : Bool → Bool → Bool} (hf : f false false = false) (x y : ℤ) :
    unsigned sz (Int.bitwise f (unsigned sz x) (unsigned sz y)) =
      unsigned sz (Int.bitwise f x y) :=
  bitwise_emod hf x y sz

theorem orLike_faithful {f : Bool → Bool → Bool} {g : ℕ → ℤ → ℤ → ℤ}
    (hs : ∀ sz, argSizes sz oper = [sz, sz])
    (hexec : ∀ b sz x y, execSized oper b sz [x, y] = some (unsigned sz (Int.bitwise f x y)))
    (hg : ∀ sz x y, g sz x y = unsigned sz (Int.bitwise f x y)) (hleft : ∀ x, Int.bitwise f 0 x = x)
    (hright : ∀ x, Int.bitwise f x 0 = x) (hf : f false false = false)
    (h : WellFormed ρ (.pureArith oper kind) args) :
    Faithful ρ (.pureArith oper kind) args (orLike g kind args) := by
  unfold orLike
  split
  case h_1 ty v =>
    obtain ⟨b, sz, rfl⟩ := h.exists_kind
    have hb := h.binary b (hs sz)
    refine faithful_of_exec ?_
    rw [hb.exec, hexec, value_num, unsigned_zero, hleft, unsigned_value hb.right]
  case h_2 v ty _ =>
    obtain ⟨b, sz, rfl⟩ := h.exists_kind
    have hb := h.binary b (hs sz)
    refine faithful_of_exec ?_
    rw [hb.exec, hexec, value_num, unsigned_zero, hright, unsigned_value hb.left]
  case h_3 i j _ _ =>
    obtain ⟨b, sz, rfl⟩ := h.exists_kind
    have hb := h.binary b (hs sz)
    have hfold : fold ((sizeOfKind (kindOf b sz)).map fun sz => g sz i.ival j.ival) i.ty =
        .ok (.val (.num ⟨g sz i.ival j.ival, i.ty⟩)) := by
      cases b <;> rfl
    rw [hfold]
    refine faithful_fold fun d hd => ?_
    rw [hb.exec, hexec, value_num, value_num, unsigned_bitwise hf] at hd
    rw [hg, unsigned_idem]
    exact Option.some_inj.1 hd
  case h_4 _ _ _ => exact faithful_none

theorem orb_faithful (h : WellFormed ρ (.pureArith .orb kind) args) :
    Faithful ρ (.pureArith .orb kind) args (orb kind args) := by
  refine orLike_faithful (f := or) (fun _ => rfl) ?_ ?_ ?_ ?_ rfl h
  · intro b sz x y
    rw [Int.bitwise_or]
    rfl
  · intro sz x y
    rw [Int.bitwise_or]
    exact narrow_eq sz _
  · intro x
    rw [Int.bitwise_or, zero_lor]
  · intro x
    rw [Int.bitwise_or, lor_zero]

theorem xorb_faithful (h : WellFormed ρ (.pureArith .xorb kind) args) :
    Faithful ρ (.pureArith .xorb kind) args (xorb kind args) := by
  refine orLike_faithful (f := xor) (fun _ => rfl) ?_ ?_ ?_ ?_ rfl h
  · intro b sz x y
    rw [Int.bitwise_xor]
    rfl
  · intro sz x y
    rw [Int.bitwise_xor]
    exact narrow_eq sz _
  · intro x
    rw [Int.bitwise_xor, zero_xor]
  · intro x
    rw [Int.bitwise_xor, xor_zero]

theorem andb_faithful (h : WellFormed ρ (.pureArith .andb kind) args) :
    Faithful ρ (.pureArith .andb kind) args (andbOp kind args) := by
  unfold andbOp
  split
  case h_1 ty w =>
    obtain ⟨b, sz, rfl⟩ := h.exists_kind
    have hb := h.binary b rfl
    refine faithful_of_exec ?_
    rw [hb.exec, execSized_andb, value_num, unsigned_zero, land_comm, land_zero, unsigned_zero]
  case h_2 v ty _ =>
    obtain ⟨b, sz, rfl⟩ := h.exists_kind
    have hb := h.binary b rfl
    refine faithful_of_exec ?_
    rw [hb.exec, execSized_andb, value_num, unsigned_zero, land_zero, unsigned_zero]
  case h_3 i j _ _ =>
    obtain ⟨b, sz, rfl⟩ := h.exists_kind
    have hb := h.binary b rfl
    have hfold : fold ((sizeOfKind (kindOf b sz)).map fun sz => ConstArith.bAnd sz i.ival j.ival)
        i.ty = .ok (.val (.num ⟨ConstArith.bAnd sz i.ival j.ival, i.ty⟩)) := by
      cases b <;> rfl
    rw [hfold]
    refine faithful_fold fun d hd => ?_
    rw [hb.exec, execSized_andb, value_num, value_num, ← Int.bitwise_and, unsigned_bitwise rfl,
      Int.bitwise_and] at hd
    rw [ConstArith.bAnd, narrow_eq, unsigned_idem]
    exact Option.some_inj.1 hd
  case h_4 _ _ _ => exact faithful_none

/-! ### Shifts -/

theorem amount_eq {j : ℤ} (hj : Literal Target.defaultIntSz j)
    (hsz : sz < 2 ^ (Target.defaultIntSz - 1)) (h : unsigned Target.defaultIntSz j < sz) :
    unsigned Target.defaultIntSz j = j ∧ 0 ≤ j ∧ j < sz := by
  have hd := hj.neg_bounds (by decide)
  rcases le_or_gt 0 j with h0 | h0
  · rw [unsigned_of_nonneg hj h0] at h ⊢
    exact ⟨rfl, h0, h⟩
  · rw [unsigned_of_neg hd.2 h0] at h
    have hsz' : (sz : ℤ) < 2 ^ (Target.defaultIntSz - 1) := by exact_mod_cast hsz
    have := two_pow_eq_double (show 0 < Target.defaultIntSz by decide)
    omega

theorem shiftAmt_eq {j : ℤ} (h0 : 0 ≤ j) (h : j < sz) (hsz : sz < 2 ^ (Target.defaultIntSz - 1)) :
    ConstArith.shiftAmt j = j.toNat := by
  have hsz' : (sz : ℤ) < 2 ^ (Target.defaultIntSz - 1) := by exact_mod_cast hsz
  have hle := two_pow_le (Nat.sub_le Target.defaultIntSz 1)
  rw [ConstArith.shiftAmt, Int.emod_eq_of_lt h0 (by omega)]

theorem Binary.amount {b : Bool} (hb : Binary ρ oper b sz Target.defaultIntSz v (.num j))
    (h : value ρ Target.defaultIntSz (.num j) < sz) :
    value ρ Target.defaultIntSz (.num j) = j.ival ∧ 0 ≤ j.ival ∧ j.ival < sz ∧
      ConstArith.shiftAmt j.ival = j.ival.toNat := by
  obtain ⟨heq, h0, hlt⟩ := amount_eq hb.right hb.lt h
  exact ⟨heq, h0, hlt, shiftAmt_eq h0 hlt hb.lt⟩

theorem shift_zero_faithful (hs : ∀ sz, argSizes sz oper = [sz, Target.defaultIntSz])
    (hexec : ∀ b sz k d, execSized oper b sz [0, k] = some d → d = 0)
    (h : WellFormed ρ (.pureArith oper kind) [.num ⟨0, ty⟩, w]) :
    Faithful ρ (.pureArith oper kind) [.num ⟨0, ty⟩, w] (.ok (.val (.num ⟨0, ty⟩))) := by
  obtain ⟨b, sz, rfl⟩ := h.exists_kind
  have hb := h.binary b (hs sz)
  refine faithful_val fun d hd => ?_
  rw [hb.exec] at hd
  exact (hexec b sz _ d hd).symm

theorem shift_by_zero_faithful (hs : ∀ sz, argSizes sz oper = [sz, Target.defaultIntSz])
    (hexec : ∀ b sz a d, Pattern sz a → execSized oper b sz [a, 0] = some d → d = a)
    (h : WellFormed ρ (.pureArith oper kind) [v, .num ⟨0, ty⟩]) :
    Faithful ρ (.pureArith oper kind) [v, .num ⟨0, ty⟩] (.ok (.val v)) := by
  obtain ⟨b, sz, rfl⟩ := h.exists_kind
  have hb := h.binary b (hs sz)
  refine faithful_val fun d hd => ?_
  rw [hb.exec] at hd
  exact (hexec b sz _ d (pattern_value hb.left) hd).symm

theorem unsigned_shift (x : ℤ) (k : ℕ) :
    unsigned sz (unsigned sz x * 2 ^ k) = unsigned sz (x * 2 ^ k) :=
  (Int.mod_modEq x (2 ^ sz)).mul_right (2 ^ k)

theorem sShL_eq {j n : ℤ} (hamt : ConstArith.shiftAmt j = j.toNat)
    (h : ConstArith.sShL sz i j = .ok n) : n = i * 2 ^ j.toNat := by
  unfold ConstArith.sShL at h
  split_ifs at h with hi
  · cases h
    rw [hi, zero_mul]
  · rw [hamt, ConstArith.sNarrow] at h
    split_ifs at h
    exact (Except.ok.inj h).symm

theorem shift_fold_iff {b : Bool} {r : Except Exn ℤ} (f : ℕ → ℤ)
    (hb : Binary ρ oper b sz Target.defaultIntSz v (.num j))
    (hexec : ∀ k, execSized oper b sz [value ρ sz v, k] =
      if k < sz then some (f k.toNat) else Option.none) :
    Faithful ρ (.pureArith oper (kindOf b sz)) [v, .num j] (fold r ty) ↔
      (0 ≤ j.ival → j.ival < sz → ∀ x, r = .ok x → unsigned sz x = f j.ival.toNat) := by
  have hvalue := hb.exec
  rw [hexec] at hvalue
  constructor
  · rintro hf h0 hj x rfl
    have hamt : value ρ Target.defaultIntSz (.num j) = j.ival := unsigned_of_nonneg hb.right h0
    rw [hamt, if_pos hj] at hvalue
    exact (faithful_fold_iff hvalue).1 hf
  · intro hx
    rcases r with e | x
    · exact faithful_error
    refine faithful_fold fun d hd => ?_
    rw [hvalue, Option.ite_none_right_eq_some] at hd
    obtain ⟨hlt, hd⟩ := hd
    obtain ⟨heq, h0, hj, -⟩ := hb.amount hlt
    rw [heq] at hd
    rw [hx h0 hj x rfl]
    exact Option.some_inj.1 hd

theorem lshift_faithful (h : WellFormed ρ (.pureArith .lshift kind) args) :
    Faithful ρ (.pureArith .lshift kind) args (lshiftOp kind args) := by
  unfold lshiftOp
  split
  case h_1 ty w =>
    refine shift_zero_faithful (fun _ => rfl) (fun b sz k d hd => ?_) h
    simp only [execSized_lshift, zero_mul, Option.ite_none_right_eq_some] at hd
    exact (Option.some_inj.1 hd.2).symm
  case h_2 v ty _ =>
    refine shift_by_zero_faithful (fun _ => rfl) (fun b sz a d ha hd => ?_) h
    simp only [execSized_lshift, Int.toNat_zero, pow_zero, mul_one, unsigned_of_pattern ha,
      Option.ite_none_right_eq_some] at hd
    exact (Option.some_inj.1 hd.2).symm
  case h_3 sz i j _ _ =>
    have hb := h.binary true rfl
    rcases hshift : ConstArith.sShL sz i.ival j.ival with e | n
    · -- a shift that overflows is left to the machine
      cases e with
      | overflow => exact faithful_none
      | _ => exact faithful_error
    · refine (shift_fold_iff (b := true) (r := .ok n)
        (fun k => unsigned sz (i.ival * 2 ^ k)) hb ?_).2 ?_
      · intro k
        rw [execSized_lshift, value_num, unsigned_shift]
      · rintro h0 hj _ ⟨⟩
        rw [sShL_eq (shiftAmt_eq h0 hj hb.lt) hshift]
  case h_4 sz i j _ _ =>
    have hb := h.binary false rfl
    refine (shift_fold_iff (b := false) (fun k => unsigned sz (i.ival * 2 ^ k)) hb ?_).2 ?_
    · intro k
      rw [execSized_lshift, value_num, unsigned_shift]
    · rintro h0 hj _ ⟨⟩
      rw [ConstArith.uShL, if_neg (not_le.2 hj), shiftAmt_eq h0 hj hb.lt, uNarrow_eq, unsigned_idem]
  case h_5 _ _ _ _ => exact faithful_none

theorem ediv_two_pow_bounds {x B : ℤ} (hB : 0 < B) (h : -B ≤ x) (h' : x < B) (k : ℕ) :
    -B ≤ x / 2 ^ k ∧ x / 2 ^ k < B := by
  have hpow := pow_pos' k
  constructor
  · rw [Int.le_ediv_iff_mul_le hpow]
    nlinarith
  · rw [Int.ediv_lt_iff_lt_mul hpow]
    nlinarith

theorem sShR_of_bounds {x j : ℤ} (h : -2 ^ (sz - 1) ≤ x) (h' : x < 2 ^ (sz - 1)) (hj : j < sz)
    (hamt : ConstArith.shiftAmt j = j.toNat) :
    ConstArith.sShR sz x j = .ok (x / 2 ^ j.toNat) := by
  obtain ⟨hlow, hhigh⟩ := ediv_two_pow_bounds (pow_pos' (sz - 1)) h h' j.toNat
  rw [ConstArith.sShR, min_eq_left hj.le, hamt, ConstArith.sNarrow, if_neg]
  rintro (hlt | hge)
  · exact absurd hlow (not_le.2 hlt)
  · exact absurd hhigh (not_lt.2 hge)

theorem sShR_of_unsigned {j : ℤ} (hsz : 0 < sz) (h : 2 ^ (sz - 1) ≤ i) (h' : i < 2 ^ sz)
    (h0 : 0 < j) (hj : j < sz) (hlt : sz < 2 ^ (Target.defaultIntSz - 1)) :
    ConstArith.sShR sz i j = .ok (i / 2 ^ j.toNat) := by
  have hd := two_pow_eq_double hsz
  have hpow := pow_pos' j.toNat
  have htwo : (2 : ℤ) ^ 1 ≤ 2 ^ j.toNat := two_pow_le (by omega)
  have hnn : 0 ≤ i / 2 ^ j.toNat := Int.ediv_nonneg (by omega) hpow.le
  have hhalf : i / 2 ^ j.toNat < 2 ^ (sz - 1) := by
    rw [Int.ediv_lt_iff_lt_mul hpow]
    nlinarith
  rw [ConstArith.sShR, min_eq_left hj.le, shiftAmt_eq h0.le hj hlt, ConstArith.sNarrow,
    ConstArith.pow2, if_neg]
  omega

theorem toSigned_eq (hsz : 0 < sz) (h : Literal sz i) : ConstArith.toSigned sz i = signed sz i := by
  rw [ConstArith.toSigned, ConstArith.pow2, ConstArith.pow2]
  rcases lt_or_ge i (2 ^ (sz - 1)) with hlt | hge
  · rw [if_pos hlt, signed_of_bounds hsz h.1 hlt]
  · rw [if_neg (not_lt.2 hge), signed_eq_sub hge h.2 hsz]

theorem two_pow_sub_toNat {j : ℤ} (hj : 0 < j) (hj' : j < sz) :
    (2 : ℤ) ^ sz = 2 ^ (sz - j.toNat) * 2 ^ j.toNat ∧ (2 : ℤ) ^ (sz - j.toNat) < 2 ^ sz := by
  refine ⟨two_pow_split (by omega), ?_⟩
  exact pow_lt_pow_right₀ (by decide) (by omega)

theorem not_faithful_rshift {j : ℤ} (hsz : 0 < sz) (h : 2 ^ (sz - 1) ≤ i) (h' : i < 2 ^ sz)
    (hj : 0 < j) (hj' : j < sz) :
    unsigned sz (i / 2 ^ j.toNat) ≠ unsigned sz (signed sz i / 2 ^ j.toNat) := by
  obtain ⟨hsplit, hlt⟩ := two_pow_sub_toNat hj hj'
  have hpow := pow_pos' j.toNat
  have hdiv : signed sz i / 2 ^ j.toNat = i / 2 ^ j.toNat - 2 ^ (sz - j.toNat) := by
    rw [signed_eq_sub h h' hsz, hsplit, Int.sub_mul_ediv_right _ _ hpow.ne']
  rw [hdiv]
  intro heq
  have hmod := Int.emod_eq_emod_iff_emod_sub_eq_zero.1 heq
  rw [sub_sub_cancel, Int.emod_eq_of_lt (pow_pos' _).le hlt] at hmod
  exact (pow_pos' (sz - j.toNat)).ne' hmod

theorem not_faithful_rshiftl {j : ℤ} (hsz : 0 < sz) (h : Literal sz i) (hi : i < 0) (hj : 0 < j)
    (hj' : j < sz) : unsigned sz (i / 2 ^ j.toNat) ≠ unsigned sz i / 2 ^ j.toNat := by
  obtain ⟨hsplit, hlt⟩ := two_pow_sub_toNat hj hj'
  have hpow := pow_pos' j.toNat
  have hlow := (ediv_two_pow_bounds (pow_pos' (sz - 1)) h.1 (hi.trans (pow_pos' _)) j.toNat).1
  have hneg : i / 2 ^ j.toNat < 0 := Int.ediv_neg_of_neg_of_pos hi hpow
  have hd := two_pow_eq_double hsz
  rw [unsigned_of_neg (by omega) hneg, unsigned_of_neg (h.neg_bounds hsz).2 hi]
  nth_rewrite 2 [hsplit]
  rw [Int.add_mul_ediv_right _ _ hpow.ne']
  omega

theorem signed_zero (sz : ℕ) : signed sz 0 = 0 := Int.zero_bmod

theorem not_misfolded_zero (w : Value) :
    ¬Misfolded ρ (.pureArith .rshift kind) [.num ⟨0, ty⟩, w] ∧
      ¬Misfolded ρ (.pureArith .rshiftl kind) [.num ⟨0, ty⟩, w] := by
  constructor
  · cases kind <;> cases w <;> try exact id
    rintro ⟨h, -⟩
    exact absurd h (not_le.2 (pow_pos' _))
  · cases kind <;> cases w <;> try exact id
    rintro ⟨h, -⟩
    exact absurd h (lt_irrefl _)

theorem not_misfolded_by_zero (v : Value) :
    ¬Misfolded ρ (.pureArith .rshift kind) [v, .num ⟨0, ty⟩] ∧
      ¬Misfolded ρ (.pureArith .rshiftl kind) [v, .num ⟨0, ty⟩] := by
  constructor
  · cases kind <;> cases v <;> try exact id
    rintro ⟨-, h, -⟩
    exact absurd h (lt_irrefl _)
  · cases kind <;> cases v <;> try exact id
    rintro ⟨-, h, -⟩
    exact absurd h (lt_irrefl _)

theorem rshift_faithful_iff (h : WellFormed ρ (.pureArith .rshift kind) args) :
    Faithful ρ (.pureArith .rshift kind) args (rshiftOp kind args) ↔
      ¬Misfolded ρ (.pureArith .rshift kind) args := by
  unfold rshiftOp
  split
  case h_1 ty w =>
    refine iff_of_true ?_ (not_misfolded_zero w).1
    refine shift_zero_faithful (fun _ => rfl) (fun b sz k d hd => ?_) h
    simp only [execSized_rshift, signed_zero, Int.zero_ediv,
      Option.ite_none_right_eq_some] at hd
    exact (Option.some_inj.1 hd.2).symm
  case h_2 v ty _ =>
    refine iff_of_true ?_ (not_misfolded_by_zero v).1
    refine shift_by_zero_faithful (fun _ => rfl) (fun b sz a d ha hd => ?_) h
    simp only [execSized_rshift, Int.toNat_zero, pow_zero, Int.ediv_one, unsigned_signed le_rfl,
      unsigned_of_pattern ha, Option.ite_none_right_eq_some] at hd
    exact (Option.some_inj.1 hd.2).symm
  case h_3 sz i j hi hj =>
    have hb := h.binary true rfl
    have hj' : j.ival ≠ 0 := fun h => hj j.ty (by rw [← h])
    refine (shift_fold_iff (b := true)
      (fun k => unsigned sz (signed sz i.ival / 2 ^ k)) hb ?_).trans ?_
    · intro k
      rw [execSized_rshift, value_num, signed_emod]
    · rcases lt_or_ge i.ival (2 ^ (sz - 1)) with hlt | hge
      · refine iff_of_true (fun h0 hj x hx => ?_) fun hmis => absurd hlt (not_lt.2 hmis.1)
        rw [sShR_of_bounds hb.left.1 hlt hj (shiftAmt_eq h0 hj hb.lt)] at hx
        rw [← Except.ok.inj hx, signed_of_bounds hb.pos hb.left.1 hlt]
      · constructor
        · rintro hfold ⟨-, h0, hlt⟩
          exact not_faithful_rshift hb.pos hge hb.left.2 h0 hlt
            (hfold h0.le hlt _ (sShR_of_unsigned hb.pos hge hb.left.2 h0 hlt hb.lt))
        · intro hmis h0 hlt
          exact absurd ⟨hge, by omega, hlt⟩ hmis
  case h_4 sz i j hi hj =>
    have hb := h.binary false rfl
    have hbounds := signed_bounds hb.pos i.ival
    refine iff_of_true ?_ id
    refine (shift_fold_iff (b := false)
      (fun k => unsigned sz (signed sz i.ival / 2 ^ k)) hb ?_).2 fun h0 hlt x hx => ?_
    · intro k
      rw [execSized_rshift, value_num, signed_emod]
    · rw [toSigned_eq hb.pos hb.left,
        sShR_of_bounds hbounds.1 hbounds.2 hlt (shiftAmt_eq h0 hlt hb.lt)] at hx
      rw [← Except.ok.inj hx, ConstArith.toUnsigned, uNarrow_eq, unsigned_idem]
  case h_5 hleft hright hint huint =>
    refine iff_of_true faithful_none ?_
    obtain ⟨v, w, rfl⟩ := h.exists_pair fun _ => rfl
    cases kind with
    | int sz =>
      cases v with
      | num i =>
        cases w with
        | num j => exact (hint _ _ _ rfl rfl).elim
        | _ => exact id
      | _ => exact id
    | _ => exact id

theorem rshiftl_faithful_iff (h : WellFormed ρ (.pureArith .rshiftl kind) args) :
    Faithful ρ (.pureArith .rshiftl kind) args (rshiftlOp kind args) ↔
      ¬Misfolded ρ (.pureArith .rshiftl kind) args := by
  unfold rshiftlOp
  split
  case h_1 ty w =>
    refine iff_of_true ?_ (not_misfolded_zero w).2
    refine shift_zero_faithful (fun _ => rfl) (fun b sz k d hd => ?_) h
    simp only [execSized_rshiftl, Int.zero_ediv, Option.ite_none_right_eq_some] at hd
    exact (Option.some_inj.1 hd.2).symm
  case h_2 v ty _ =>
    refine iff_of_true ?_ (not_misfolded_by_zero v).2
    refine shift_by_zero_faithful (fun _ => rfl) (fun b sz a d ha hd => ?_) h
    simp only [execSized_rshiftl, Int.toNat_zero, pow_zero, Int.ediv_one,
      Option.ite_none_right_eq_some] at hd
    exact (Option.some_inj.1 hd.2).symm
  case h_3 sz i j hi hj =>
    have hb := h.binary false rfl
    have hj' : j.ival ≠ 0 := fun h => hj j.ty (by rw [← h])
    refine (shift_fold_iff (b := false)
      (fun k => unsigned sz i.ival / 2 ^ k) hb fun k => rfl).trans ?_
    have hfold : ∀ x, 0 ≤ j.ival → j.ival < sz → Except.ok (ConstArith.uShR sz i.ival j.ival) =
        (Except.ok x : Except Exn ℤ) → x = unsigned sz (i.ival / 2 ^ j.ival.toNat) := by
      rintro x h0 hlt ⟨⟩
      rw [ConstArith.uShR, if_neg (not_le.2 hlt), shiftAmt_eq h0 hlt hb.lt, uNarrow_eq]
    constructor
    · rintro hx ⟨hneg, h0, hlt⟩
      have heq := hx h0.le hlt _ rfl
      rw [hfold _ h0.le hlt rfl, unsigned_idem] at heq
      exact not_faithful_rshiftl hb.pos hb.left hneg h0 hlt heq
    · intro hmis h0 hlt x hx
      have hnn : 0 ≤ i.ival := by
        by_contra hneg
        exact hmis ⟨not_le.1 hneg, by omega, hlt⟩
      rw [hfold x h0 hlt hx, unsigned_idem, unsigned_of_nonneg hb.left hnn]
      exact unsigned_of_pattern ⟨Int.ediv_nonneg hnn (pow_pos' _).le,
        (Int.ediv_le_self _ hnn).trans_lt hb.left.2⟩
  case h_4 hleft hright huint =>
    refine iff_of_true faithful_none ?_
    obtain ⟨v, w, rfl⟩ := h.exists_pair fun _ => rfl
    cases kind with
    | uint sz =>
      cases v with
      | num i =>
        cases w with
        | num j => exact (huint _ _ _ rfl rfl).elim
        | _ => exact id
      | _ => exact id
    | _ => exact id

/-! ### Rotations -/

theorem amount_mod {j : ℤ} (hsz : 0 < sz) :
    0 ≤ j % sz ∧ j % sz < sz ∧ ((j % sz).toNat : ℤ) = j % sz := by
  have hpos : (0 : ℤ) < sz := by exact_mod_cast hsz
  have hnn := Int.emod_nonneg j hpos.ne'
  exact ⟨hnn, Int.emod_lt_of_pos j hpos, Int.toNat_of_nonneg hnn⟩

theorem shiftAmt_mod {j : ℤ} (hsz : 0 < sz) (hlt : sz < 2 ^ (Target.defaultIntSz - 1)) :
    ConstArith.shiftAmt (j % sz) = (j % sz).toNat :=
  shiftAmt_eq (amount_mod hsz).1 (amount_mod hsz).2.1 hlt

theorem word_amount_mod {j : ℤ} (hsz : 0 < sz) (hj : Literal Target.defaultIntSz j) :
    (unsigned Target.defaultIntSz j).toNat % sz =
      if 0 ≤ j then (j % sz).toNat % sz
      else ((j % sz).toNat + 2 ^ Target.defaultIntSz) % sz := by
  obtain ⟨h0, hlt, hcast⟩ := amount_mod (j := j) hsz
  zify
  split
  · next hnn =>
    rw [unsigned_of_nonneg hj hnn, Int.toNat_of_nonneg hnn, hcast, Int.emod_emod]
  · next hneg =>
    have hlow := (hj.neg_bounds (by decide)).2
    rw [unsigned_of_neg hlow (not_le.1 hneg), Int.toNat_of_nonneg (by omega)]
    rw [hcast, Int.emod_add_emod]

theorem rotl_amount_iff {j : ℤ} (hsz : 0 < sz) (hj : Literal Target.defaultIntSz j)
    (ha : Pattern sz a) :
    rotate sz (j % sz).toNat a = rotate sz ((unsigned Target.defaultIntSz j).toNat % sz) a ↔
      ¬Misrotated sz a j := by
  have hmod : (j % sz).toNat % sz = (j % sz).toNat := by
    have := amount_mod (j := j) hsz
    exact Nat.mod_eq_of_lt (by omega)
  rw [word_amount_mod hsz hj, Misrotated]
  split
  · next hnn =>
    rw [hmod]
    exact iff_of_true rfl fun hmis => absurd hmis.1 (not_lt.2 hnn)
  · next hneg =>
    have hiff := rotate_mod_eq_iff hsz (j % sz).toNat (2 ^ Target.defaultIntSz) ha.1 ha.2
    rw [hmod] at hiff
    rw [hiff]
    simp [not_le.1 hneg]

theorem rotr_amount_iff {j : ℤ} (hsz : 0 < sz) (hj : Literal Target.defaultIntSz j)
    (ha : Pattern sz a) :
    rotate sz (sz - (j % sz).toNat) a =
        rotate sz (sz - (unsigned Target.defaultIntSz j).toNat % sz) a ↔ ¬Misrotated sz a j := by
  have hmod : (j % sz).toNat % sz = (j % sz).toNat := by
    have := amount_mod (j := j) hsz
    exact Nat.mod_eq_of_lt (by omega)
  rw [word_amount_mod hsz hj, Misrotated]
  split
  · next hnn =>
    rw [hmod]
    exact iff_of_true rfl fun hmis => absurd hmis.1 (not_lt.2 hnn)
  · next hneg =>
    have hiff := rotate_sub_mod_eq_iff hsz (j % sz).toNat (2 ^ Target.defaultIntSz) ha.1 ha.2
    rw [hmod] at hiff
    rw [hiff]
    simp [not_le.1 hneg]

theorem lor_rotate {r : ℕ} (hr : r ≤ sz) (ha : Pattern sz a) :
    ConstArith.narrow sz (Int.lor (a * 2 ^ r) (a / 2 ^ (sz - r))) = rotate sz r a := by
  have hpos := pow_pos' (sz - r)
  have hhigh : a / 2 ^ (sz - r) < 2 ^ r := by
    rw [Int.ediv_lt_iff_lt_mul hpos, mul_comm, ← two_pow_split hr]
    exact ha.2
  have hb := rotate_bounds hr ha.1 ha.2
  rw [narrow_eq, lor_mul_two_pow (Int.ediv_nonneg ha.1 hpos.le) hhigh]
  rw [← unsigned_of_pattern hb]
  -- the bits that leave the word on the left come in on the right
  refine Int.ModEq.add_right _ (Int.modEq_iff_dvd.2 ⟨-(a / 2 ^ (sz - r)), ?_⟩)
  have hsplit := Int.emod_add_mul_ediv a (2 ^ (sz - r))
  rw [two_pow_split hr]
  linear_combination 2 ^ r * hsplit

theorem narrow_literal (h : Literal sz i) :
    (if i < 0 then ConstArith.narrow sz i else i) = unsigned sz i := by
  split
  · exact narrow_eq sz i
  · next hnn => exact (unsigned_of_nonneg h (not_lt.1 hnn)).symm

theorem bRotateL_eq {j : ℤ} (hsz : 0 < sz) (hlt : sz < 2 ^ (Target.defaultIntSz - 1))
    (hi : Literal sz i) :
    ConstArith.bRotateL sz i j = rotate sz (j % sz).toNat (unsigned sz i) := by
  have hpat := pattern_unsigned sz i
  have hamt := amount_mod (j := j) hsz
  rw [ConstArith.bRotateL, narrow_literal hi, shiftAmt_mod hsz hlt]
  split
  · next hzero => rw [hzero, rotate_zero hpat.1 hpat.2]
  · exact lor_rotate (by omega) hpat

theorem bRotateR_eq {j : ℤ} (hsz : 0 < sz) (hlt : sz < 2 ^ (Target.defaultIntSz - 1))
    (hi : Literal sz i) :
    ConstArith.bRotateR sz i j = rotate sz (sz - (j % sz).toNat) (unsigned sz i) := by
  have hpat := pattern_unsigned sz i
  have hamt := amount_mod (j := j) hsz
  rw [ConstArith.bRotateR, narrow_literal hi, shiftAmt_mod hsz hlt]
  split
  · next hzero => rw [hzero, Nat.sub_zero, rotate_self]
  · have hsub : sz - (sz - (j % sz).toNat) = (j % sz).toNat := by omega
    nth_rewrite 2 [← hsub]
    exact lor_rotate (Nat.sub_le _ _) hpat

theorem rotate_literal_zero (hs : ∀ sz, argSizes sz oper = [sz, Target.defaultIntSz])
    (hexec : ∀ b sz k, 0 < sz → execSized oper b sz [0, k] = some 0)
    (h : WellFormed ρ (.pureArith oper kind) [.num ⟨0, ty⟩, w]) :
    Faithful ρ (.pureArith oper kind) [.num ⟨0, ty⟩, w] (.ok (.val (.num ⟨0, ty⟩))) := by
  obtain ⟨b, sz, rfl⟩ := h.exists_kind
  have hb := h.binary b (hs sz)
  refine faithful_val fun d hd => ?_
  rw [hb.exec, value_num, unsigned_zero, hexec b sz _ hb.pos] at hd
  exact Option.some_inj.1 hd

/-- A rotation by a literal amount, which is reduced modulo the size. -/
theorem rotateBy_faithful_iff {f : ℕ → ℕ} (hs : argSizes sz oper = [sz, Target.defaultIntSz])
    (hexec : ∀ a k, execSized oper false sz [a, k] = some (rotate sz (f (k.toNat % sz)) a))
    (hzero : ∀ a, Pattern sz a → rotate sz (f 0) a = a)
    (hb : Binary ρ oper false sz Target.defaultIntSz v (.num j)) :
    Faithful ρ (.pureArith oper (.uint sz)) [v, .num j] (rotateBy oper sz v j.ival) ↔
      rotate sz (f (j.ival % sz).toNat) (value ρ sz v) =
        rotate sz (f ((unsigned Target.defaultIntSz j.ival).toNat % sz)) (value ρ sz v) := by
  have hvalue : exec ρ (.pureArith oper (.uint sz)) [v, .num j] = _ := hb.exec
  rw [hexec] at hvalue
  have hamt := amount_mod (j := j.ival) hb.pos
  fun_cases rotateBy oper sz v j.ival with
  | case1 hsz => exact absurd hsz hb.pos.ne'
  | case2 hsz n hn =>
    rw [faithful_iff hvalue]
    change j.ival % sz = 0 at hn
    rw [hn, Int.toNat_zero, hzero _ (pattern_value hb.left)]
    exact Option.some_inj
  | case3 hsz n hn hne =>
    have hcomp : exec ρ (.pureArith oper (.uint sz)) [v, tagInt (j.ival % sz)] =
        some (rotate sz (f (j.ival % sz).toNat) (value ρ sz v)) := by
      have hlt : (j.ival % sz).toNat < sz := by omega
      have htag : value ρ Target.defaultIntSz (tagInt (j.ival % sz)) = j.ival % sz := by
        rw [← hamt.2.2]
        exact value_tagInt hlt hb.lt
      simp only [ContractPrim.exec, sizes, hs]
      change execSized oper false sz [value ρ sz v, value ρ Target.defaultIntSz _] = _
      rw [hexec, htag, Nat.mod_eq_of_lt hlt]
    rw [faithful_iff hvalue]
    exact (Eq.congr_left hcomp).trans Option.some_inj
  | case4 hsz n hn hne =>
    omega

theorem not_misrotated_zero {j : ℤ} (ha : a = 0) : ¬Misrotated sz a j := by
  rintro ⟨-, hrot⟩
  refine hrot ?_
  rcases Nat.eq_zero_or_pos sz with rfl | hsz
  · rw [ha, rotate, Int.zero_emod, Int.zero_ediv, zero_mul, zero_add]
  · exact rotate_const (Nat.mod_lt _ hsz).le (Or.inl ha)

theorem rotl_faithful_iff (h : WellFormed ρ (.pureArith .rotl kind) args) :
    Faithful ρ (.pureArith .rotl kind) args (rotl kind args) ↔
      ¬Misfolded ρ (.pureArith .rotl kind) args := by
  unfold rotl
  split
  case h_1 n m =>
    obtain ⟨b, sz, rfl⟩ := h.exists_kind
    have hb := h.binary b rfl
    have hfold : fold ((sizeOfKind (kindOf b sz)).map fun sz =>
        ConstArith.bRotateL sz n.ival m.ival) n.ty =
        .ok (.val (.num ⟨ConstArith.bRotateL sz n.ival m.ival, n.ty⟩)) := by
      cases b <;> rfl
    have hpat := pattern_unsigned sz n.ival
    have hamt := amount_mod (j := m.ival) hb.pos
    have hrot : Pattern sz (rotate sz (m.ival % sz).toNat (unsigned sz n.ival)) :=
      rotate_bounds (by omega) hpat.1 hpat.2
    rw [hfold]
    refine (faithful_fold_iff hb.exec).trans ?_
    rw [bRotateL_eq hb.pos hb.lt hb.left, unsigned_of_pattern hrot]
    refine (rotl_amount_iff hb.pos hb.right hpat).trans ?_
    cases b <;> rfl
  case h_2 ty w hw =>
    refine iff_of_true ?_ ?_
    · refine rotate_literal_zero (fun _ => rfl) (fun b sz k hsz => ?_) h
      rw [execSized_rotl, rotate_const (Nat.mod_lt _ hsz).le (Or.inl rfl)]
    · cases w with
      | num m => exact (hw m rfl).elim
      | _ => cases kind <;> exact id
  case h_3 sz v j hnum =>
    have hb := h.binary false rfl
    exact (rotateBy_faithful_iff (f := id) rfl (fun _ _ => rfl)
      (fun _ ha => rotate_zero ha.1 ha.2) hb).trans
        (rotl_amount_iff hb.pos hb.right (pattern_value hb.left))
  case h_4 hnum hzero huint =>
    refine iff_of_true faithful_none ?_
    obtain ⟨v, w, rfl⟩ := h.exists_pair fun _ => rfl
    cases kind with
    | uint sz =>
      cases w with
      | num j => exact (huint _ _ _ rfl rfl).elim
      | _ => exact id
    | int sz =>
      cases v with
      | num i =>
        cases w with
        | num j => exact (hnum _ _ rfl).elim
        | _ => exact id
      | _ => exact id
    | _ => exact id

theorem rotr_faithful_iff (h : WellFormed ρ (.pureArith .rotr kind) args) :
    Faithful ρ (.pureArith .rotr kind) args (rotr kind args) ↔
      ¬Misfolded ρ (.pureArith .rotr kind) args := by
  unfold rotr
  split
  case h_1 ty w =>
    refine iff_of_true ?_ ?_
    · refine rotate_literal_zero (fun _ => rfl) (fun b sz k hsz => ?_) h
      rw [execSized_rotr, rotate_const (Nat.sub_le _ _) (Or.inl rfl)]
    · cases kind <;> cases w <;> try exact id
      all_goals exact not_misrotated_zero (unsigned_zero _)
  case h_2 sz v j hzero =>
    have hb := h.binary false rfl
    exact (rotateBy_faithful_iff (f := fun r => sz - r) rfl (fun _ _ => rfl)
      (fun a _ => rotate_self sz a) hb).trans
        (rotr_amount_iff hb.pos hb.right (pattern_value hb.left))
  case h_3 n m hzero huint =>
    obtain ⟨b, sz, rfl⟩ := h.exists_kind
    have hb := h.binary b rfl
    have hfold : fold ((sizeOfKind (kindOf b sz)).map fun sz =>
        ConstArith.bRotateR sz n.ival m.ival) n.ty =
        .ok (.val (.num ⟨ConstArith.bRotateR sz n.ival m.ival, n.ty⟩)) := by
      cases b <;> rfl
    have hpat := pattern_unsigned sz n.ival
    have hrot : Pattern sz (rotate sz (sz - (m.ival % sz).toNat) (unsigned sz n.ival)) :=
      rotate_bounds (Nat.sub_le _ _) hpat.1 hpat.2
    rw [hfold]
    refine (faithful_fold_iff hb.exec).trans ?_
    rw [bRotateR_eq hb.pos hb.lt hb.left, unsigned_of_pattern hrot]
    refine (rotr_amount_iff hb.pos hb.right hpat).trans ?_
    cases b <;> rfl
  case h_4 hzero hnum huint =>
    refine iff_of_true faithful_none ?_
    obtain ⟨v, w, rfl⟩ := h.exists_pair fun _ => rfl
    cases kind with
    | uint sz =>
      cases w with
      | num j => exact (huint _ _ _ rfl rfl).elim
      | _ => exact id
    | int sz =>
      cases v with
      | num i =>
        cases w with
        | num j => exact (hnum _ _ rfl).elim
        | _ => exact id
      | _ => exact id
    | _ => exact id

/-! ### Conversions of literals -/

theorem value_mkNum (x : ℤ) : value ρ sz (mkNum sz x) = unsigned sz x := by
  unfold mkNum
  split <;> rfl

theorem unsigned_eq_unsigned_iff (hn : 0 < n) (hnp : n ≤ p) (hi : Literal n i) :
    unsigned p i = unsigned n i ↔ ¬(n < p ∧ i < 0) := by
  have hle := two_pow_le hnp
  have hlow := (hi.neg_bounds hn).2
  rcases lt_or_ge i 0 with hneg | hnn
  · rw [unsigned_of_neg hlow hneg, unsigned_of_neg (by omega) hneg]
    rcases hnp.eq_or_lt with rfl | hlt
    · simp
    · have := pow_lt_pow_right₀ (show (1 : ℤ) < 2 by decide) hlt
      refine iff_of_false (by omega) (not_not.2 ⟨hlt, hneg⟩)
  · rw [unsigned_of_nonneg hi hnn, unsigned_of_pattern ⟨hnn, lt_of_lt_of_le hi.2 hle⟩]
    exact iff_of_true rfl fun h => absurd h.2 (not_lt.2 hnn)

theorem copy_faithful_iff (h : WellFormed ρ (.copy n p) args) :
    Faithful ρ (.copy n p) args (copy get n p args) ↔ ¬Misfolded ρ (.copy n p) args := by
  match args, h with
  | [.num i], ⟨hn, hnp, hi⟩ =>
    have hexec : exec ρ (.copy n p) [.num i] = some (unsigned n i.ival) :=
      congrArg some (unsigned_of_pattern ((pattern_unsigned n i.ival).mono hnp))
    have hcomp : ∃ w, copy get n p [.num i] = .ok (.val w) ∧ value ρ p w = unsigned p i.ival := by
      unfold copy
      split_ifs with heq
      · exact ⟨_, rfl, rfl⟩
      · exact ⟨_, rfl, value_mkNum i.ival⟩
    obtain ⟨w, hw, hval⟩ := hcomp
    rw [hw, faithful_iff hexec]
    refine Option.some_inj.trans ((Eq.congr_left hval).trans ?_)
    exact unsigned_eq_unsigned_iff hn hnp hi

theorem extend_faithful (h : WellFormed ρ (.extend n p) args) :
    Faithful ρ (.extend n p) args (extend get n p args) := by
  match args, h with
  | [.num i], ⟨hn, hnp, hi⟩ =>
    have hexec : exec ρ (.extend n p) [.num i] = some (unsigned p (signed n i.ival)) := by
      rw [← signed_emod]
      rfl
    have hpos := pow_pos' (n - 1)
    have hsucc : n - 1 + 1 = n := Nat.sub_add_cancel hn
    unfold extend
    dsimp only
    split_ifs with heq hbit
    · refine (faithful_iff hexec).2 (congrArg some ?_)
      rw [heq, unsigned_signed le_rfl]
      rfl
    · -- a literal with the sign bit
      have hge := (two_pow_land_ne_zero_iff hbit.1.le (hsucc ▸ hi.2)).1 hbit.2
      refine (faithful_iff hexec).2 (congrArg some ?_)
      rw [signed_eq_sub hge hi.2 hn]
      exact value_mkNum _
    · have hlt : i.ival < 2 ^ (n - 1) := by
        by_contra hge
        exact hbit ⟨by omega, (two_pow_land_ne_zero_iff (by omega) (hsucc ▸ hi.2)).2 (not_lt.1 hge)⟩
      refine (faithful_iff hexec).2 (congrArg some ?_)
      rw [signed_of_bounds hn hi.1 hlt]
      exact value_mkNum _

theorem trunc_faithful (h : WellFormed ρ (.trunc n p) args) :
    Faithful ρ (.trunc n p) args (trunc get n p args) := by
  match args, h with
  | [.num i], ⟨hp, hpn, hi⟩ =>
    have hexec : exec ρ (.trunc n p) [.num i] = some (unsigned p i.ival) :=
      congrArg some (unsigned_unsigned hpn i.ival)
    unfold trunc
    split_ifs with heq
    · exact (faithful_iff hexec).2 rfl
    · refine (faithful_iff hexec).2 (congrArg some ?_)
      refine (value_mkNum _).trans ?_
      rw [land_comm, land_two_pow_sub_one]
      exact unsigned_idem p i.ival

end

end SmlNj.ContractPrim
