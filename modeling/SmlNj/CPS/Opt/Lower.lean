import SmlNj.CPS.Execution

/-!
# Lowering rotations of tagged words

The expansion of a rotation of a word that is narrower than the machine word to shifts.  A shift by
the size of the word is no problem, since the container is wider; a constant amount is expected to
be at most the size, which contraction provides for.

## Main definitions

* `rotl`, `rotr` — the expansions.

## Main results

* `rotate_correct` — the expansions rotate.
-/

namespace SmlNj.CPS.LowerCPS

open LambdaVar TwosComplement

def ity : ℕ := Target.mlValueSz

/-- `Word.fromInt`. -/
def wordFromInt (i : ℤ) : ℤ := unsigned 63 i

/-- `Word.<<`. -/
def wordShl (w k : ℤ) : ℤ := if k < 63 then unsigned 63 (w * 2 ^ k.toNat) else 0

/-- `Word.-`. -/
def wordSub (w w' : ℤ) : ℤ := unsigned 63 (w - w')

/-- `IntInf.toInt`. -/
def toInt (i : ℤ) : Except Exn ℤ :=
  if -2 ^ 62 ≤ i ∧ i < 2 ^ 62 then .ok i else .error .overflow

/-- A pure operation on words, whose result goes to the rest of the term. -/
def letPure (oper : P.PureOp) (sz : ℕ) (args : List Value) (k : Value → Supply Cexp) :
    Supply Cexp := do
  let x ← mkLvar
  return .pure (.pureArith oper (.uint sz)) args x (.numt ⟨sz, sz < ity⟩) (← k (.var x))

def num (i : ℤ) (sz : ℕ) : Value := .num ⟨i, ⟨sz, sz < ity⟩⟩

section Rotate

variable (sz : ℕ) (v1 : Value) (x : Lvar) (t : Cty) (e : Supply Cexp)

/-- `(v1 >> n) | ((v1 & m) << k)`. -/
def shifts (n m k : Value) : Supply Cexp :=
  letPure .rshiftl sz [v1, n] fun lo =>
  letPure .andb sz [v1, m] fun tmp =>
  letPure .lshift sz [tmp, k] fun hi => do
    return .pure (.pureArith .orb (.uint sz)) [lo, hi] x t (← e)

/-- **A rotation to the left** of a tagged word; rotations of native words are left to the
hardware. -/
def rotl (v2 : Value) : Supply Cexp :=
  if sz < ity then
    let rot (n k m : Value) := shifts sz v1 x t e k m n
    match v2 with
    | .num c => do
      -- contraction guarantees `0 < v2 < sz`
      let k := wordFromInt (sz - (← toInt c.ival))
      let m := wordSub (wordShl 1 k) 1
      rot v2 (num k sz) (num m sz)
    | _ =>
      letPure .rem sz [v2, num sz sz] fun n =>
      letPure .sub sz [num sz sz, n] fun k =>
      letPure .lshift sz [num 1 sz, k] fun tmp =>
      letPure .sub sz [tmp, num 1 sz] fun m =>
      rot n k m
  else do
    return .pure (.pureArith .rotl (.uint sz)) [v1, v2] x t (← e)

/-- **A rotation to the right.** -/
def rotr (v2 : Value) : Supply Cexp :=
  if sz < ity then
    let rot (n k m : Value) := shifts sz v1 x t e n m k
    match v2 with
    | .num c => do
      -- contraction guarantees `0 < v2 < sz`
      let n' ← toInt c.ival
      let k := wordFromInt (sz - n')
      let m := wordSub (wordShl 1 (wordFromInt n')) 1
      rot v2 (num k sz) (num m sz)
    | _ =>
      letPure .rem sz [v2, num sz sz] fun n =>
      letPure .sub sz [num sz sz, n] fun k =>
      letPure .lshift sz [num 1 sz, n] fun tmp =>
      letPure .sub sz [tmp, num 1 sz] fun m =>
      rot n k m
  else do
    return .pure (.pureArith .rotr (.uint sz)) [v1, v2] x t (← e)

end Rotate

section Sound

variable {D W : Type} {I : Interp D W} (N : Numbers I) {st : List (Closure D)} {env : Env D}
  {sz : ℕ} {m : Lvar}

theorem letPure_expands {oper : P.PureOp} {v v' : Value} {a b d : ℤ} (k : Value → Supply Cexp)
    (hsz : sz < 64) (hv : Holds I env m v (N.num (.tagged a)))
    (hv' : Holds I env m v' (N.num (.tagged b))) (hd : execTagged oper false sz [a, b] = some d) :
    Expands I (letPure oper sz [v, v'] k) m st env (k (.var m)) (m + 1) st
      (env.set m (N.num (.tagged d))) := by
  intro e n he
  have hexec : execPureNum (.pureArith oper (.uint sz)) [.tagged a, .tagged b] =
      some (.tagged d) := by
    rw [execPureNum, execPureArith, if_pos (by exact hsz), hd]
    rfl
  refine ⟨.pure (.pureArith oper (.uint sz)) [v, v'] m (.numt ⟨sz, sz < ity⟩) e, ?_,
    .pure rfl (vals_two hv.val hv'.val) (N.pure _ _ hexec) (.refl _)⟩
  exact congrArg (· >>= fun p => Except.ok
    (Cexp.pure (.pureArith oper (.uint sz)) [v, v'] m (.numt ⟨sz, sz < ity⟩) p.1, p.2)) he

variable (env m) in
theorem holds_num (hsz : sz < 64) (i : ℤ) :
    Holds I env m (num i sz) (N.num (.tagged (unsigned 63 i))) := by
  refine ⟨trivial, ?_⟩
  have htag : decide (sz < ity) = true := decide_eq_true hsz
  rw [num, htag]
  exact congrArg some (N.lit ⟨i, ⟨sz, true⟩⟩)

theorem orb_expands {v v' : Value} {a b : ℤ} (x : Lvar) (t : Cty) (e : Supply Cexp) (hsz : sz < 64)
    (hv : Holds I env m v (N.num (.tagged a))) (hv' : Holds I env m v' (N.num (.tagged b))) :
    Expands I (do return .pure (.pureArith .orb (.uint sz)) [v, v'] x t (← e)) m st env e m st
      (env.set x (N.num (.tagged (unsigned 63 (Int.lor a b))))) := by
  intro e' n he
  have hexec : execPureNum (.pureArith .orb (.uint sz)) [.tagged a, .tagged b] =
      some (.tagged (unsigned 63 (Int.lor a b))) := by
    rw [execPureNum, execPureArith, if_pos (by exact hsz)]
    rfl
  refine ⟨.pure (.pureArith .orb (.uint sz)) [v, v'] x t e', ?_,
    .pure rfl (vals_two hv.val hv'.val) (N.pure _ _ hexec) (.refl _)⟩
  exact congrArg (· >>= fun p => Except.ok
    (Cexp.pure (.pureArith .orb (.uint sz)) [v, v'] x t p.1, p.2)) he

/-! ### The arithmetic of a rotation -/

theorem lor_eq_rotate {a : ℤ} {s : ℕ} (ha : Pattern sz a) (hs : s ≤ sz) :
    Int.lor (a / 2 ^ s) (a % 2 ^ s * 2 ^ (sz - s)) = Rotation.rotate sz (sz - s) a := by
  have hlow : a / 2 ^ s < 2 ^ (sz - s) := by
    rw [Int.ediv_lt_iff_lt_mul (by positivity), ← pow_add, Nat.sub_add_cancel hs]
    exact ha.2
  have hnn : 0 ≤ a / 2 ^ s := Int.ediv_nonneg ha.1 (by positivity)
  rw [IntBitwise.lor_comm, IntBitwise.lor_mul_two_pow hnn hlow, Rotation.rotate,
    Nat.sub_sub_self hs]

theorem pattern_high {s : ℕ} (a : ℤ) (hs : s ≤ sz) : Pattern sz (a % 2 ^ s * 2 ^ (sz - s)) := by
  have hnn := Int.emod_nonneg a (show (2 ^ s : ℤ) ≠ 0 by positivity)
  have hlt := Int.emod_lt_of_pos a (show (0 : ℤ) < 2 ^ s by positivity)
  refine ⟨by positivity, ?_⟩
  rw [← Nat.add_sub_cancel' hs, pow_add, Nat.add_sub_cancel_left]
  exact mul_lt_mul_of_pos_right hlt (by positivity)

variable (st) in
/-- **The shifts rotate the word.** -/
theorem shifts_expands {v1 n mask k : Value} {a : ℤ} {s : ℕ} (x : Lvar) (t : Cty)
    (e : Supply Cexp) (hsz : sz < 64) (ha : Pattern sz a) (hs : s ≤ sz)
    (hv : Holds I env m v1 (N.num (.tagged a))) (hn : Holds I env m n (N.num (.tagged s)))
    (hmask : Holds I env m mask (N.num (.tagged (2 ^ s - 1))))
    (hk : Holds I env m k (N.num (.tagged (sz - s : ℕ)))) :
    ∃ env', AgreeBelow m env env' ∧ Expands I (shifts sz v1 x t e n mask k) m st env e (m + 3) st
      (env'.set x (N.num (.tagged (Rotation.rotate sz (sz - s) a)))) := by
  have hmono : ∀ {y : ℤ}, Pattern sz y → unsigned 63 y = y := fun hy =>
    unsigned_of_pattern (hy.mono (by omega))
  have hlo : execTagged .rshiftl false sz [a, (s : ℤ)] = some (a / 2 ^ s) := by
    rw [execTagged, if_pos (show (s : ℤ) < (Target.mlValueSz : ℕ) by
      exact_mod_cast lt_of_le_of_lt hs hsz), Int.toNat_natCast]
  have htmp : execTagged .andb false sz [a, 2 ^ s - 1] = some (a % 2 ^ s) := by
    have hpat : Pattern sz (a % 2 ^ s) :=
      ⟨Int.emod_nonneg a (by positivity), lt_of_lt_of_le
        (Int.emod_lt_of_pos a (by positivity)) (two_pow_le hs)⟩
    refine congrArg some ?_
    rw [IntBitwise.land_two_pow_sub_one]
    exact hmono hpat
  have hhi : execTagged .lshift false sz [a % 2 ^ s, ((sz - s : ℕ) : ℤ)] =
      some (a % 2 ^ s * 2 ^ (sz - s)) := by
    rw [execTagged, if_pos (show ((sz - s : ℕ) : ℤ) < (Target.mlValueSz : ℕ) by
      exact_mod_cast lt_of_le_of_lt (Nat.sub_le sz s) hsz)]
    exact congrArg some (hmono (pattern_high a hs))
  have hor : unsigned 63 (Int.lor (a / 2 ^ s) (a % 2 ^ s * 2 ^ (sz - s))) =
      Rotation.rotate sz (sz - s) a := by
    rw [lor_eq_rotate ha hs]
    exact hmono (Rotation.rotate_bounds (Nat.sub_le sz s) ha.1 ha.2)
  -- the fresh variables for the low part, the masked word and the high part
  let env₁ := env.set m (N.num (.tagged (a / 2 ^ s)))
  let env₂ := env₁.set (m + 1) (N.num (.tagged (a % 2 ^ s)))
  let env₃ := env₂.set (m + 2) (N.num (.tagged (a % 2 ^ s * 2 ^ (sz - s))))
  have hagree : AgreeBelow m env env₃ :=
    (((AgreeBelow.refl m env).set le_rfl _).set (Nat.le_add_right m 1) _).set
      (Nat.le_add_right m 2) _
  have hlov : Holds I env₃ (m + 3) (.var m) (N.num (.tagged (a / 2 ^ s))) :=
    ((Holds.fresh env m _).set _).set _
  refine ⟨env₃, hagree, ?_⟩
  rw [← hor]
  refine Expands.trans (letPure_expands N _ hsz hv hn hlo) ?_
  refine Expands.trans (letPure_expands N _ hsz (hv.set _) (hmask.set _) htmp) ?_
  refine Expands.trans (letPure_expands N _ hsz (Holds.fresh env₁ (m + 1) _) ((hk.set _).set _)
    hhi) ?_
  exact orb_expands N x t e hsz hlov (Holds.fresh env₂ (m + 2) _)

theorem unsigned_small {i : ℤ} (h : 0 ≤ i) (h' : i ≤ 63) : unsigned 63 i = i :=
  unsigned_of_pattern ⟨h, by omega⟩

variable (st) in
theorem amounts_expands {v2 : Value} {n : ℕ} (F : Value → Value → Supply Cexp) (hpos : 0 < sz)
    (hsz : sz < 64) (hv : Holds I env m v2 (N.num (.tagged n))) :
    ∃ env', AgreeBelow m env env' ∧
      Holds I env' (m + 2) (.var m) (N.num (.tagged (n % sz : ℕ))) ∧
      Holds I env' (m + 2) (.var (m + 1)) (N.num (.tagged (sz - n % sz : ℕ))) ∧
      Expands I (letPure .rem sz [v2, num sz sz] fun n => letPure .sub sz [num sz sz, n] fun k =>
        F n k) m st env (F (.var m) (.var (m + 1))) (m + 2) st env' := by
  have hlt := Nat.mod_lt n hpos
  have hsize : unsigned 63 (sz : ℤ) = sz := unsigned_small (by omega) (by omega)
  have hnum : ∀ (env : Env D) (m : Lvar), Holds I env m (num sz sz) (N.num (.tagged sz)) := by
    intro env m
    have h := holds_num N env m hsz sz
    rwa [hsize] at h
  have hrem : execTagged .rem false sz [(n : ℤ), sz] = some ((n % sz : ℕ) : ℤ) := by
    refine (if_neg (by exact_mod_cast hpos.ne')).trans ?_
    rw [Int.natCast_emod]
  have hsub : execTagged .sub false sz [(sz : ℤ), (n % sz : ℕ)] =
      some ((sz - n % sz : ℕ) : ℤ) := by
    refine congrArg some ?_
    rw [Nat.cast_sub hlt.le]
    exact unsigned_small (by omega) (by omega)
  refine ⟨_, ?_, ?_, ?_, (letPure_expands N _ hsz hv (hnum env m) hrem).trans
    (letPure_expands N _ hsz (hnum _ (m + 1)) (Holds.fresh env m _) hsub)⟩
  · exact ((AgreeBelow.refl m env).set le_rfl _).set m.le_succ _
  · exact (Holds.fresh env m _).set _
  · exact Holds.fresh _ (m + 1) _

variable (st) in
theorem mask_expands {v : Value} {s : ℕ} (F : Value → Supply Cexp) (hsz : sz < 64) (hs : s ≤ sz)
    (hv : Holds I env m v (N.num (.tagged s))) :
    ∃ env', AgreeBelow m env env' ∧
      Holds I env' (m + 2) (.var (m + 1)) (N.num (.tagged (2 ^ s - 1))) ∧
      Expands I (letPure .lshift sz [num 1 sz, v] fun tmp => letPure .sub sz [tmp, num 1 sz] F) m
        st env (F (.var (m + 1))) (m + 2) st env' := by
  have hnum : ∀ (env : Env D) (m : Lvar), Holds I env m (num 1 sz) (N.num (.tagged 1)) :=
    fun env m => holds_num N env m hsz 1
  have hshl : execTagged .lshift false sz [1, (s : ℤ)] = some (unsigned 63 (2 ^ s)) := by
    rw [execTagged, if_pos (show (s : ℤ) < (Target.mlValueSz : ℕ) by
      exact_mod_cast lt_of_le_of_lt hs hsz), one_mul]
    rfl
  have hsub : execTagged .sub false sz [unsigned 63 (2 ^ s), 1] = some (2 ^ s - 1) := by
    have hpow : (2 : ℤ) ^ s ≤ 2 ^ 63 := two_pow_le (by omega)
    have hpos : (0 : ℤ) < 2 ^ s := by positivity
    have hmod : unsigned 63 (unsigned 63 (2 ^ s) - 1) = unsigned 63 (2 ^ s - 1) :=
      Int.emod_sub_cancel_right 1 |>.2 (Int.emod_emod _ _)
    exact congrArg some (hmod.trans (unsigned_of_pattern ⟨by omega, by omega⟩))
  refine ⟨_, ?_, ?_, (letPure_expands N _ hsz (hnum env m) hv hshl).trans
    (letPure_expands N _ hsz (Holds.fresh env m _) (hnum _ (m + 1)) hsub)⟩
  · exact ((AgreeBelow.refl m env).set le_rfl _).set m.le_succ _
  · exact Holds.fresh _ (m + 1) _

/-! ### Rotations -/

variable (I st env m) in
/-- The expansion leads to the rest of the term with the number `d` in the variable `x`; nothing
else that is in use has changed. -/
def Yields (build e : Supply Cexp) (x : Lvar) (d : D) : Prop :=
  ∃ m' env', m ≤ m' ∧ AgreeBelow m env env' ∧ Expands I build m st env e m' st (env'.set x d)

variable {v1 v2 : Value} {a : ℤ} {n : ℕ} (x : Lvar) (t : Cty) (e : Supply Cexp)

def IsNum : Value → Prop
  | .num _ => True
  | _ => False

instance : DecidablePred IsNum := fun v => by
  cases v <;> unfold IsNum <;> infer_instance

theorem masked_expands {lo hi : Value} {s : ℕ} (hsz : sz < 64) (ha : Pattern sz a) (hs : s ≤ sz)
    (hv1 : Holds I env m v1 (N.num (.tagged a))) (hlo : Holds I env m lo (N.num (.tagged s)))
    (hhi : Holds I env m hi (N.num (.tagged (sz - s : ℕ)))) :
    Yields I st env m (letPure .lshift sz [num 1 sz, lo] fun tmp =>
      letPure .sub sz [tmp, num 1 sz] fun mask => shifts sz v1 x t e lo mask hi) e x
      (N.num (.tagged (Rotation.rotate sz (sz - s) a))) := by
  obtain ⟨env₁, hagree₁, hmask, h₁⟩ := mask_expands N st
    (fun mask => shifts sz v1 x t e lo mask hi) hsz hs hlo
  have hle := Nat.le_add_right m 2
  obtain ⟨env₂, hagree₂, h₂⟩ := shifts_expands N st x t e hsz ha hs (hv1.mono hle hagree₁)
    (hlo.mono hle hagree₁) hmask (hhi.mono hle hagree₁)
  exact ⟨_, env₂, Nat.le_add_right m 5, hagree₁.trans (hagree₂.mono hle), h₁.trans h₂⟩

theorem rotl_variable (hpos : 0 < sz) (hsz : sz < 64) (ha : Pattern sz a) (hnum : ¬IsNum v2)
    (hv1 : Holds I env m v1 (N.num (.tagged a))) (hv2 : Holds I env m v2 (N.num (.tagged n))) :
    Yields I st env m (rotl sz v1 x t e v2) e x
      (N.num (.tagged (Rotation.rotate sz (n % sz) a))) := by
  have hexpand : rotl sz v1 x t e v2 = letPure .rem sz [v2, num sz sz] fun n =>
      letPure .sub sz [num sz sz, n] fun k => letPure .lshift sz [num 1 sz, k] fun tmp =>
      letPure .sub sz [tmp, num 1 sz] fun mask => shifts sz v1 x t e k mask n := by
    unfold rotl
    rw [if_pos (by exact hsz)]
    cases v2 with
    | num c => exact absurd trivial hnum
    | _ => rfl
  obtain ⟨env₁, hagree₁, hn, hk, h₁⟩ := amounts_expands N st (fun n k =>
    letPure .lshift sz [num 1 sz, k] fun tmp => letPure .sub sz [tmp, num 1 sz] fun mask =>
      shifts sz v1 x t e k mask n) hpos hsz hv2
  have hle := Nat.le_add_right m 2
  rw [← Nat.sub_sub_self (Nat.mod_lt n hpos).le] at hn ⊢
  obtain ⟨m', env₂, hm, hagree₂, h₂⟩ := masked_expands N x t e hsz ha (Nat.sub_le sz (n % sz))
    (hv1.mono hle hagree₁) hk hn
  rw [hexpand]
  exact ⟨m', env₂, hle.trans hm, hagree₁.trans (hagree₂.mono hle), h₁.trans h₂⟩

theorem rotr_variable (hpos : 0 < sz) (hsz : sz < 64) (ha : Pattern sz a) (hnum : ¬IsNum v2)
    (hv1 : Holds I env m v1 (N.num (.tagged a))) (hv2 : Holds I env m v2 (N.num (.tagged n))) :
    Yields I st env m (rotr sz v1 x t e v2) e x
      (N.num (.tagged (Rotation.rotate sz (sz - n % sz) a))) := by
  have hexpand : rotr sz v1 x t e v2 = letPure .rem sz [v2, num sz sz] fun n =>
      letPure .sub sz [num sz sz, n] fun k => letPure .lshift sz [num 1 sz, n] fun tmp =>
      letPure .sub sz [tmp, num 1 sz] fun mask => shifts sz v1 x t e n mask k := by
    unfold rotr
    rw [if_pos (by exact hsz)]
    cases v2 with
    | num c => exact absurd trivial hnum
    | _ => rfl
  obtain ⟨env₁, hagree₁, hn, hk, h₁⟩ := amounts_expands N st (fun n k =>
    letPure .lshift sz [num 1 sz, n] fun tmp => letPure .sub sz [tmp, num 1 sz] fun mask =>
      shifts sz v1 x t e n mask k) hpos hsz hv2
  have hle := Nat.le_add_right m 2
  obtain ⟨m', env₂, hm, hagree₂, h₂⟩ := masked_expands N x t e hsz ha (Nat.mod_lt n hpos).le
    (hv1.mono hle hagree₁) hn hk
  rw [hexpand]
  exact ⟨m', env₂, hle.trans hm, hagree₁.trans (hagree₂.mono hle), h₁.trans h₂⟩

/-! ### Constant amounts -/

theorem host_mask {s : ℕ} (hs : s ≤ 63) : wordSub (wordShl 1 s) 1 = 2 ^ s - 1 := by
  have hpos : (0 : ℤ) < 2 ^ s := by positivity
  unfold wordSub wordShl
  split
  · next hlt =>
    have hlt' : s < 63 := by exact_mod_cast hlt
    have hpow : (2 : ℤ) ^ s < 2 ^ 63 := pow_lt_pow_right₀ (by norm_num) hlt'
    rw [Int.toNat_natCast, one_mul, unsigned_of_pattern (n := 63) ⟨hpos.le, hpow⟩]
    exact unsigned_of_pattern ⟨by omega, by omega⟩
  · next hge =>
    obtain rfl : s = 63 := by
      omega
    rfl

variable (env m) in
theorem holds_mask {s : ℕ} (hsz : sz < 64) (hs : s ≤ sz) :
    Holds I env m (num (wordSub (wordShl 1 s) 1) sz) (N.num (.tagged (2 ^ s - 1))) := by
  have hpow : (2 : ℤ) ^ s ≤ 2 ^ 63 := two_pow_le (by omega)
  have hpos : (0 : ℤ) < 2 ^ s := by positivity
  have h := holds_num N env m hsz (2 ^ s - 1)
  rw [unsigned_of_pattern ⟨by omega, by omega⟩] at h
  rwa [host_mask (hs.trans (by omega))]

variable (env m) in
theorem holds_left (hsz : sz < 64) (hn : n ≤ sz) :
    wordFromInt (sz - n) = (sz - n : ℕ) ∧
      Holds I env m (num (wordFromInt (sz - n)) sz) (N.num (.tagged (sz - n : ℕ))) := by
  have hleft : wordFromInt (sz - n) = (sz - n : ℕ) := by
    rw [Nat.cast_sub hn]
    exact unsigned_small (by omega) (by omega)
  have h := holds_num N env m hsz (wordFromInt (sz - n))
  rw [hleft, unsigned_small (by omega) (by omega)] at h
  refine ⟨hleft, ?_⟩
  rwa [hleft]

theorem toInt_of_le (hsz : sz < 64) (hn : n ≤ sz) : toInt (n : ℤ) = .ok (n : ℤ) :=
  if_pos ⟨by omega, by omega⟩

theorem rotate_mod (hpos : 0 < sz) (hn : n ≤ sz) (ha : Pattern sz a) :
    Rotation.rotate sz (n % sz) a = Rotation.rotate sz n a ∧
      Rotation.rotate sz (sz - n % sz) a = Rotation.rotate sz (sz - n) a := by
  rcases lt_or_eq_of_le hn with hlt | rfl
  · rw [Nat.mod_eq_of_lt hlt]
    exact ⟨rfl, rfl⟩
  · rw [Nat.mod_self, Nat.sub_zero, Nat.sub_self, Rotation.rotate_self,
      Rotation.rotate_zero ha.1 ha.2]
    exact ⟨rfl, rfl⟩

/-- **A rotation to the left by a constant amount** that is at most the size. -/
theorem rotl_constant {c : IntConst} (hpos : 0 < sz) (hsz : sz < 64) (ha : Pattern sz a)
    (hc : c.ival = n) (hn : n ≤ sz) (hv1 : Holds I env m v1 (N.num (.tagged a)))
    (hv2 : Holds I env m (.num c) (N.num (.tagged n))) :
    Yields I st env m (rotl sz v1 x t e (.num c)) e x
      (N.num (.tagged (Rotation.rotate sz (n % sz) a))) := by
  obtain ⟨hleft, hk⟩ := holds_left N env m hsz hn
  have htoInt : toInt c.ival = .ok (n : ℤ) := by
    rw [hc]
    exact toInt_of_le hsz hn
  have hexpand : rotl sz v1 x t e (.num c) = shifts sz v1 x t e (num (wordFromInt (sz - n)) sz)
      (num (wordSub (wordShl 1 (wordFromInt (sz - n))) 1) sz) (.num c) := by
    unfold rotl
    rw [if_pos (by exact hsz)]
    funext m
    exact lift_bind htoInt (fun i => shifts sz v1 x t e (num (wordFromInt (sz - i)) sz)
      (num (wordSub (wordShl 1 (wordFromInt (sz - i))) 1) sz) (.num c)) m
  have hmask := holds_mask N env m hsz (Nat.sub_le sz n)
  rw [← hleft] at hmask
  rw [← Nat.sub_sub_self hn] at hv2
  obtain ⟨env₁, hagree, h⟩ := shifts_expands N st x t e hsz ha (Nat.sub_le sz n) hv1 hk
    hmask hv2
  rw [Nat.sub_sub_self hn] at h
  rw [hexpand, (rotate_mod hpos hn ha).1]
  exact ⟨_, env₁, Nat.le_add_right m 3, hagree, h⟩

/-- **A rotation to the right by a constant amount** that is at most the size. -/
theorem rotr_constant {c : IntConst} (hpos : 0 < sz) (hsz : sz < 64) (ha : Pattern sz a)
    (hc : c.ival = n) (hn : n ≤ sz) (hv1 : Holds I env m v1 (N.num (.tagged a)))
    (hv2 : Holds I env m (.num c) (N.num (.tagged n))) :
    Yields I st env m (rotr sz v1 x t e (.num c)) e x
      (N.num (.tagged (Rotation.rotate sz (sz - n % sz) a))) := by
  obtain ⟨-, hk⟩ := holds_left N env m hsz hn
  have hword : wordFromInt (n : ℤ) = n := unsigned_small (by omega) (by omega)
  have htoInt : toInt c.ival = .ok (n : ℤ) := by
    rw [hc]
    exact toInt_of_le hsz hn
  have hexpand : rotr sz v1 x t e (.num c) = shifts sz v1 x t e (.num c)
      (num (wordSub (wordShl 1 n) 1) sz) (num (wordFromInt (sz - n)) sz) := by
    unfold rotr
    rw [if_pos (by exact hsz)]
    funext m
    refine (lift_bind htoInt (fun i => shifts sz v1 x t e (.num c)
      (num (wordSub (wordShl 1 (wordFromInt i)) 1) sz) (num (wordFromInt (sz - i)) sz)) m).trans ?_
    rw [hword]
  obtain ⟨env₁, hagree, h⟩ := shifts_expands N st x t e hsz ha hn hv1 hv2
    (holds_mask N env m hsz hn) hk
  rw [hexpand, (rotate_mod hpos hn ha).2]
  exact ⟨_, env₁, Nat.le_add_right m 3, hagree, h⟩

/-- **Rotations of tagged words are expanded correctly**, for every variable amount and for the
constant ones that are at most the size. -/
theorem rotate_correct (hpos : 0 < sz) (hsz : sz < 64) (ha : Pattern sz a)
    (hv1 : Holds I env m v1 (N.num (.tagged a))) (hv2 : Holds I env m v2 (N.num (.tagged n)))
    (hconst : ∀ c, v2 = .num c → c.ival = n ∧ n ≤ sz) :
    Yields I st env m (rotl sz v1 x t e v2) e x
        (N.num (.tagged (Rotation.rotate sz (n % sz) a))) ∧
      Yields I st env m (rotr sz v1 x t e v2) e x
        (N.num (.tagged (Rotation.rotate sz (sz - n % sz) a))) := by
  by_cases hnum : IsNum v2
  · cases v2 with
    | num c =>
      obtain ⟨hc, hn⟩ := hconst c rfl
      exact ⟨rotl_constant N x t e hpos hsz ha hc hn hv1 hv2,
        rotr_constant N x t e hpos hsz ha hc hn hv1 hv2⟩
    | _ => exact hnum.elim
  · exact ⟨rotl_variable N x t e hpos hsz ha hnum hv1 hv2,
      rotr_variable N x t e hpos hsz ha hnum hv1 hv2⟩

end Sound

def oneByte : Env NumVal := Env.set (fun _ => none) 0 (.num (.tagged 1))

def callWith (x : Lvar) : Supply Cexp := fun m => .ok (.app (.label 0) [.var x], m)

/-- A rotation by a constant that is greater than the size gets stuck at a shift. -/
theorem rotl_beyond :
    ¬Yields numInterp [] oneByte 10
      (rotl 8 (.var 0) 1 (.numt ⟨8, true⟩) (callWith 1) (.num ⟨9, ⟨63, true⟩⟩)) (callWith 1) 1
      (.num (.tagged (Rotation.rotate 8 (9 % 8) 1))) := by
  rintro ⟨m', env', -, -, hexpand⟩
  obtain ⟨s, hs, hleads⟩ := hexpand _ _ rfl
  obtain ⟨n, hrun⟩ := hleads.run_eq
  have hstuck : Config.run numInterp (0 + n) ⟨[], oneByte, s⟩ () = .stuck := by
    cases hs
    cases n <;> rfl
  rw [hrun 0 ()] at hstuck
  cases hstuck

/-- Rotating a byte by ten, which a variable holds. -/
theorem rotate_correct_byte :
    Yields numInterp [] (oneByte.set 2 (.num (.tagged (10 : ℕ)))) 10
        (rotl 8 (.var 0) 1 (.numt ⟨8, true⟩) (callWith 1) (.var 2)) (callWith 1) 1
        (.num (.tagged (Rotation.rotate 8 (10 % 8) 1))) ∧
      Yields numInterp [] (oneByte.set 2 (.num (.tagged (10 : ℕ)))) 10
        (rotr 8 (.var 0) 1 (.numt ⟨8, true⟩) (callWith 1) (.var 2)) (callWith 1) 1
        (.num (.tagged (Rotation.rotate 8 (8 - 10 % 8) 1))) :=
  rotate_correct numInterpNumbers 1 (.numt ⟨8, true⟩) (callWith 1) (by decide) (by decide)
    (by decide) ⟨show 0 < 10 by decide, rfl⟩ ⟨show 2 < 10 by decide, rfl⟩ (by rintro c ⟨⟩)

end SmlNj.CPS.LowerCPS
