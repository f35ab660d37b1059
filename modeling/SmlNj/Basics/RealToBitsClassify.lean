import SmlNj.Basics.RealToBitsLayout
import SmlNj.Lib.ExceptList

/-!
# The class of a real literal and of its bits

`classify` and `toBits` begin with the same computation, and so agree on everything
but two things.  A fraction of a subnormal number that is rounded up to the next
power of two can reach into the exponent of the representation, so that its bits are
those of the least normal number while both functions speak of a subnormal one.  And
a power of ten that cannot be computed leaves another one in its place in the table,
so that a second conversion of the same literal ends in another way than the first.

## Main definitions

* `FloatParams.CarriesOut` — the first defect, as a condition on the literal.
* `FloatParams.TableLit` — the second: every power that is needed can be computed.

## Main results

* `FloatParams.classify_agrees_iff` — after any conversions that stay in the tables,
  the functions agree exactly on the literals without the first defect.
-/

namespace SmlNj

namespace FloatParams

open RealToBits

variable (P : FloatParams)

/-! ### Conversions without the tables -/

/-- `toBinary` without the tables. -/
def binary (digits : List ℤ) (exp : ℤ) : Except RealToBits.Exn RealToBits.Float := do
  let (frac, exp) := decimal digits exp
  let exp_10 ← toInt exp
  let start ← RealToBits.round { frac := frac, exp := 0 } P.precision
  let flt ← P.rescale start exp_10
  let flt ← RealToBits.round flt (P.significant + 1)
  let bits ← numBitsForInt flt.frac
  let exp ← toInt (flt.exp + bits)
  let exp ← toInt (exp - 1)
  return { frac := flt.frac, exp := exp }

/-- What `classify` makes of the binary float. -/
def classPart (flt : RealToBits.Float) : Except RealToBits.Exn FloatClass :=
  if flt.exp < P.minExp then do
    let diff ← toInt (P.minExp - flt.exp)
    let frac := flt.frac >>> diff.toNat
    if 0 < frac then return .subnormal else return .zero
  else if P.maxExp < flt.exp then return .inf
  else return .normal

/-- What `toBits` makes of the binary float. -/
def bitsPart (isNeg : Bool) (flt : RealToBits.Float) :
    Except RealToBits.Exn (List (BitVec 8) × FloatClass) :=
  if flt.exp < P.minExp then do
    let diff ← toInt (P.minExp - flt.exp)
    let frac := flt.frac >>> diff.toNat
    if 0 < frac then return (← P.packSpecial isNeg 0 frac, .subnormal)
    else return (← P.zero isNeg, .zero)
  else if P.maxExp < flt.exp then .error .overflow
  else do
    let biased ← toInt (flt.exp + P.maxExp)
    return (← P.pack isNeg (BitVec.ofInt 63 biased) flt.frac, .normal)

def handleOverflow : RealToBits.Exn → Except RealToBits.Exn FloatClass
  | .overflow => .ok .inf
  | x => .error x

/-- `classify` without the tables. -/
def pureClassify : RealLit → Except RealToBits.Exn FloatClass
  | .posInf => .ok .inf
  | .negInf => .ok .inf
  | .qNaN => .ok .nan
  | .flt _ [] _ => .ok .zero
  | .flt _ digits exp => tryCatch (P.binary digits exp >>= P.classPart) handleOverflow

/-- `toBits` without the tables. -/
def pureToBits : RealLit → Except RealToBits.Exn (List (BitVec 8) × FloatClass)
  | .posInf => do return (← P.posInf, .inf)
  | .negInf => do return (← P.negInf, .inf)
  | .qNaN => do return (← P.quietNaN, .nan)
  | .flt isNeg [] _ => do return (← P.zero isNeg, .zero)
  | .flt isNeg digits exp => P.binary digits exp >>= P.bitsPart isNeg

/-- Every power of ten that the conversion of the literal needs can be computed. -/
def TableLit : RealLit → Prop
  | .flt _ digits exp => ∀ e, toInt (decimal digits exp).2 = .ok e → P.InTable e
  | _ => True

variable {digits : List ℤ} {exp : ℤ} {flt : RealToBits.Float}

theorem toBinary_transparent (h : ∀ e, toInt (decimal digits exp).2 = .ok e → P.InTable e) :
    P.Transparent (P.toBinary digits exp) (P.binary digits exp) := by
  refine (P.transparent_lift _).bind fun e he => ?_
  refine (P.transparent_lift _).bind fun start _ => ?_
  refine (P.raiseToPower_transparent start (h e he)).bind fun flt _ => ?_
  refine (P.transparent_lift _).bind fun flt _ => ?_
  refine (P.transparent_lift _).bind fun bits _ => ?_
  refine (P.transparent_lift _).bind fun e₁ _ => ?_
  refine (P.transparent_lift _).bind fun e₂ _ => ?_
  exact P.transparent_pure _

theorem classifyFlt_transparent (h : ∀ e, toInt (decimal digits exp).2 = .ok e → P.InTable e) :
    P.Transparent (P.classifyFlt digits exp) (P.binary digits exp >>= P.classPart) := by
  refine (P.toBinary_transparent h).bind fun flt _ => ?_
  unfold classPart
  split
  · refine (P.transparent_lift _).bind fun diff _ => ?_
    dsimp only
    split
    · exact P.transparent_pure _
    · exact P.transparent_pure _
  · split
    · exact P.transparent_pure _
    · exact P.transparent_pure _

theorem toBitsFlt_transparent (isNeg : Bool)
    (h : ∀ e, toInt (decimal digits exp).2 = .ok e → P.InTable e) :
    P.Transparent (P.toBitsFlt isNeg digits exp)
      (P.binary digits exp >>= P.bitsPart isNeg) := by
  refine (P.toBinary_transparent h).bind fun flt _ => ?_
  unfold bitsPart
  split
  · refine (P.transparent_lift _).bind fun diff _ => ?_
    dsimp only
    split
    · refine (P.transparent_lift _).bind fun bytes _ => ?_
      exact P.transparent_pure _
    · refine (P.transparent_lift _).bind fun bytes _ => ?_
      exact P.transparent_pure _
  · split
    · exact P.transparent_throw _
    · refine (P.transparent_lift _).bind fun biased _ => ?_
      refine (P.transparent_lift _).bind fun bytes _ => ?_
      exact P.transparent_pure _

theorem handler_transparent (x : RealToBits.Exn) :
    P.Transparent (match x with
      | .overflow => return .inf
      | x => throw x : M FloatClass) (handleOverflow x) := by
  cases x with
  | overflow => exact P.transparent_pure _
  | domain => exact P.transparent_throw _
  | subscript => exact P.transparent_throw _

theorem classify_transparent {lit : RealLit} (h : P.TableLit lit) :
    P.Transparent (P.classify lit) (P.pureClassify lit) := by
  cases lit with
  | flt isNeg digits exp =>
    cases digits with
    | nil => exact P.transparent_pure _
    | cons d ds =>
      exact (P.classifyFlt_transparent h).tryCatch fun x _ => P.handler_transparent x
  | _ => exact P.transparent_pure _

theorem toBits_transparent {lit : RealLit} (h : P.TableLit lit) :
    P.Transparent (P.toBits lit) (P.pureToBits lit) := by
  have constant : ∀ (x : Except RealToBits.Exn (List (BitVec 8))) (k : FloatClass),
      P.Transparent (do return (← x, k) : M (List (BitVec 8) × FloatClass))
        (do return (← x, k)) := by
    intro x k
    refine (P.transparent_lift x).bind fun bytes _ => ?_
    exact P.transparent_pure _
  cases lit with
  | flt isNeg digits exp =>
    cases digits with
    | nil => exact constant (P.zero isNeg) .zero
    | cons d ds => exact P.toBitsFlt_transparent isNeg h
  | posInf => exact constant P.posInf .inf
  | negInf => exact constant P.negInf .inf
  | qNaN => exact constant P.quietNaN .nan

/-! ### The rounded fraction -/

theorem toInt_ok {n m : ℤ} (h : toInt n = .ok m) : m = n ∧ -2 ^ 62 ≤ n ∧ n < 2 ^ 62 := by
  unfold toInt at h
  split at h
  · next hr =>
    cases h
    exact ⟨rfl, hr⟩
  · cases h

theorem numBitsForInt_ok {n b : ℤ} (h : numBitsForInt n = .ok b) :
    0 < n ∧ 0 ≤ b ∧ n < 2 ^ b.toNat := by
  obtain ⟨l, hl, hb⟩ := ExceptList.bind_eq_ok.mp h
  unfold log2 at hl
  by_cases hn : n ≤ 0
  · rw [if_pos hn] at hl
    cases hl
  · rw [if_neg hn] at hl
    obtain ⟨rfl, _⟩ := toInt_ok hl
    obtain ⟨rfl, _⟩ := toInt_ok hb
    have hlt : n.toNat < 2 ^ (Nat.log2 n.toNat + 1) := Nat.lt_log2_self
    refine ⟨by omega, by omega, ?_⟩
    have hnat : (n.toNat : ℤ) = n := Int.toNat_of_nonneg (by omega)
    rw [← hnat]
    exact_mod_cast hlt

theorem round_le {f g : RealToBits.Float} {m : ℕ} (h : RealToBits.round f (m + 1) = .ok g) :
    g.frac ≤ 2 ^ m := by
  obtain ⟨bits, hbits, h⟩ := ExceptList.bind_eq_ok.mp h
  obtain ⟨bits₁, hb₁, h⟩ := ExceptList.bind_eq_ok.mp h
  obtain ⟨shift, hs, h⟩ := ExceptList.bind_eq_ok.mp h
  obtain ⟨rfl, _⟩ := toInt_ok hb₁
  obtain ⟨rfl, _⟩ := toInt_ok hs
  obtain ⟨hpos, hb0, hlt⟩ := numBitsForInt_ok hbits
  by_cases hle : bits + 1 - (m + 1) ≤ 0
  · rw [if_pos hle] at h
    cases h
    calc f.frac ≤ 2 ^ bits.toNat := hlt.le
      _ ≤ 2 ^ m := pow_le_pow_right₀ (by norm_num) (by omega)
  · rw [if_neg hle] at h
    obtain ⟨e, _, h⟩ := ExceptList.bind_eq_ok.mp h
    cases h
    -- The shift leaves `m` bits.
    have hshift : f.frac >>> (bits + 1 - (m + 1)).toNat < 2 ^ m := by
      rw [Int.shiftRight_eq_div_pow]
      apply Int.ediv_lt_of_lt_mul (by positivity)
      push_cast
      rw [← pow_add, show m + (bits + 1 - (m + 1)).toNat = bits.toNat by omega]
      exact hlt
    dsimp only
    split
    · exact hshift.le
    · omega

theorem binary_ok (h : P.binary digits exp = .ok flt) :
    0 < flt.frac ∧ flt.frac ≤ 2 ^ P.significant ∧ ∃ s, numBitsForInt flt.frac = .ok s := by
  obtain ⟨_, _, h⟩ := ExceptList.bind_eq_ok.mp h
  obtain ⟨_, _, h⟩ := ExceptList.bind_eq_ok.mp h
  obtain ⟨_, _, h⟩ := ExceptList.bind_eq_ok.mp h
  obtain ⟨_, hround, h⟩ := ExceptList.bind_eq_ok.mp h
  obtain ⟨s, hs, h⟩ := ExceptList.bind_eq_ok.mp h
  obtain ⟨_, _, h⟩ := ExceptList.bind_eq_ok.mp h
  obtain ⟨_, _, h⟩ := ExceptList.bind_eq_ok.mp h
  cases h
  have hle := round_le hround
  exact ⟨(numBitsForInt_ok hs).1, hle, s, hs⟩

/-! ### Agreement -/

/-- A class and the bits, or the exception, fit together: a class that is not that of
a NaN is reported exactly when the bits encode a number of it, and infinity also when
there are no bits. -/
def Agrees (c : Except RealToBits.Exn FloatClass)
    (b : Except RealToBits.Exn (List (BitVec 8) × FloatClass)) : Prop :=
  ∀ k, k ≠ .nan →
    (c = .ok k ↔ (∃ bytes cls, b = .ok (bytes, cls) ∧ P.classOf bytes = k) ∨
      (k = .inf ∧ b = .error .overflow))

/-- Rounding carries out of a subnormal fraction, to the power of two below the least
normal number. -/
def CarriesOut : RealLit → Prop
  | .flt _ [] _ => False
  | .flt _ digits exp =>
      P.binary digits exp = .ok { frac := 2 ^ P.significant, exp := P.minExp - 1 }
  | _ => False

/-- The biased exponent of a normal number is an `int`. -/
def FitsBiased : RealLit → Prop
  | .flt _ [] _ => True
  | .flt _ digits exp => ∀ flt, P.binary digits exp = .ok flt →
      P.minExp ≤ flt.exp → flt.exp ≤ P.maxExp → flt.exp + P.maxExp < 2 ^ 62
  | _ => True

variable {P}

theorem agrees_ok {k cls : FloatClass} {bytes : List (BitVec 8)} :
    P.Agrees (.ok k) (.ok (bytes, cls)) ↔
      (k = P.classOf bytes ∨ (k = .nan ∧ P.classOf bytes = .nan)) := by
  constructor
  · intro h
    by_cases hk : k = .nan
    · by_cases hb : P.classOf bytes = .nan
      · exact .inr ⟨hk, hb⟩
      · have := (h _ hb).mpr (.inl ⟨bytes, cls, rfl, rfl⟩)
        cases this
        exact .inl rfl
    · rcases (h k hk).mp rfl with ⟨_, _, heq, hcls⟩ | ⟨_, heq⟩
      · cases heq
        exact .inl hcls.symm
      · cases heq
  · intro h k' hk'
    have hkb : k = P.classOf bytes := h.elim id fun h => h.1.trans h.2.symm
    subst hkb
    constructor
    · intro heq
      cases heq
      exact .inl ⟨bytes, cls, rfl, rfl⟩
    · rintro (⟨_, _, heq, hcls⟩ | ⟨_, heq⟩)
      · cases heq
        rw [hcls]
      · cases heq

theorem agrees_overflow {k : FloatClass} :
    P.Agrees (.ok k) (.error .overflow) ↔ k = .inf := by
  constructor
  · intro h
    have := (h .inf (by decide)).mpr (.inr ⟨rfl, rfl⟩)
    cases this
    rfl
  · rintro rfl k' _
    constructor
    · intro heq
      cases heq
      exact .inr ⟨rfl, rfl⟩
    · rintro (⟨_, _, heq, _⟩ | ⟨rfl, _⟩)
      · cases heq
      · rfl

theorem agrees_error {x : RealToBits.Exn} (hx : x ≠ .overflow) :
    P.Agrees (.error x) (.error x) := by
  intro k _
  constructor
  · intro h
    cases h
  · rintro (⟨_, _, heq, _⟩ | ⟨_, heq⟩)
    · cases heq
    · cases heq
      exact absurd rfl hx

variable (P)

/-- A float below the normal range. -/
theorem agrees_subnormal (isNeg : Bool) (hpos : 0 < flt.frac) (hle : flt.frac ≤ 2 ^ P.significant)
    (hlow : flt.exp < P.minExp) :
    P.Agrees (tryCatch (P.classPart flt) handleOverflow) (P.bitsPart isNeg flt) ↔
      ¬ (flt.frac = 2 ^ P.significant ∧ flt.exp = P.minExp - 1) := by
  have hsig := P.significant_ok
  unfold classPart bitsPart
  rw [if_pos hlow, if_pos hlow]
  cases hd : toInt (P.minExp - flt.exp) with
  | error x =>
    have hx : x = .overflow := by
      unfold toInt at hd
      split at hd <;> cases hd
      rfl
    subst hx
    have hno : ¬ (flt.frac = 2 ^ P.significant ∧ flt.exp = P.minExp - 1) := by
      rintro ⟨_, he⟩
      unfold toInt at hd
      rw [if_pos (by omega)] at hd
      cases hd
    exact iff_of_true (agrees_overflow.mpr rfl) hno
  | ok diff =>
    obtain ⟨rfl, _⟩ := toInt_ok hd
    obtain ⟨n, hn⟩ := Int.eq_ofNat_of_zero_le hpos.le
    have hdiff : 1 ≤ (P.minExp - flt.exp).toNat := by omega
    -- The mantissa as a natural number.
    have hshift : flt.frac >>> (P.minExp - flt.exp).toNat =
        ((n / 2 ^ (P.minExp - flt.exp).toNat : ℕ) : ℤ) := by
      rw [hn, Int.shiftRight_eq_div_pow]
      norm_cast
    have hn2 : n ≤ 2 ^ P.significant := by
      rw [hn] at hle
      exact_mod_cast hle
    have hpow : 2 ^ P.significant = 2 * 2 ^ (P.significant - 1) := by
      rw [← pow_succ']
      congr 1
      omega
    have hpow1 : (2 : ℕ) ^ 1 ≤ 2 ^ (P.minExp - flt.exp).toNat :=
      Nat.pow_le_pow_right (by norm_num) hdiff
    change P.Agrees (tryCatch (if 0 < flt.frac >>> (P.minExp - flt.exp).toNat then .ok .subnormal
        else .ok .zero) handleOverflow)
      (if 0 < flt.frac >>> (P.minExp - flt.exp).toNat then
        (do return (← P.packSpecial isNeg 0 (flt.frac >>> (P.minExp - flt.exp).toNat), .subnormal))
        else (do return (← P.zero isNeg, .zero))) ↔ _
    rw [hshift]
    generalize hq : n / 2 ^ (P.minExp - flt.exp).toNat = q
    have hqle : 2 * q ≤ n := by
      calc 2 * q ≤ 2 ^ (P.minExp - flt.exp).toNat * q := Nat.mul_le_mul_right q hpow1
        _ ≤ n := by rw [← hq]; exact Nat.mul_div_le n _
    by_cases h0 : q = 0
    · have hno : ¬ (flt.frac = 2 ^ P.significant ∧ flt.exp = P.minExp - 1) := by
        rintro ⟨hf, he⟩
        have hone : (P.minExp - flt.exp).toNat = 1 := by omega
        have hn' : n = 2 ^ P.significant := by
          rw [hn] at hf
          exact_mod_cast hf
        rw [hone] at hq
        omega
      subst h0
      obtain ⟨bytes, hb, hcls⟩ := P.zero_class isNeg
      refine iff_of_true ?_ hno
      rw [hb]
      exact agrees_ok.mpr (.inl hcls.symm)
    · have hqpos : (0 : ℤ) < q := by omega
      rw [if_pos hqpos, if_pos hqpos]
      by_cases hcarry : q = 2 ^ (P.significant - 1)
      · have hyes : flt.frac = 2 ^ P.significant ∧ flt.exp = P.minExp - 1 := by
          have hn' : n = 2 ^ P.significant := by omega
          refine ⟨by rw [hn]; norm_cast, ?_⟩
          by_contra hne
          -- With a larger shift the quotient would be smaller.
          have h2 : (2 : ℕ) ^ 2 ≤ 2 ^ (P.minExp - flt.exp).toNat :=
            Nat.pow_le_pow_right (by norm_num) (by omega)
          have h4 : 4 * q ≤ n := by
            calc 4 * q ≤ 2 ^ (P.minExp - flt.exp).toNat * q := Nat.mul_le_mul_right q h2
              _ ≤ n := by rw [← hq]; exact Nat.mul_div_le n _
          omega
        obtain ⟨bytes, hb, hcls⟩ := P.packSpecial_carry isNeg
        rw [hcarry, hb]
        refine iff_of_false ?_ (not_not.mpr hyes)
        intro hag
        rcases agrees_ok.mp hag with h | h
        · rw [hcls] at h
          cases h
        · cases h.1
      · have hno : ¬ (flt.frac = 2 ^ P.significant ∧ flt.exp = P.minExp - 1) := by
          rintro ⟨hf, he⟩
          have hone : (P.minExp - flt.exp).toNat = 1 := by omega
          have hn' : n = 2 ^ P.significant := by
            rw [hn] at hf
            exact_mod_cast hf
          rw [hone, hn', hpow, pow_one, Nat.mul_div_cancel_left _ (by norm_num)] at hq
          exact hcarry hq.symm
        obtain ⟨bytes, hb, hcls⟩ := P.packSpecial_subnormal isNeg h0
          (show q < 2 ^ (P.significant - 1) by omega)
        rw [hb]
        exact iff_of_true (agrees_ok.mpr (.inl hcls.symm)) hno

/-- A float in the normal range. -/
theorem agrees_normal (isNeg : Bool) {s : ℤ} (hs : numBitsForInt flt.frac = .ok s)
    (hlow : P.minExp ≤ flt.exp) (hhigh : flt.exp ≤ P.maxExp) :
    P.Agrees (tryCatch (P.classPart flt) handleOverflow) (P.bitsPart isNeg flt) ↔
      flt.exp + P.maxExp < 2 ^ 62 := by
  have hw := P.expWidth_ge
  have hmax := P.maxExp_eq
  have hmin : P.minExp = 1 - P.maxExp := rfl
  unfold classPart bitsPart
  rw [if_neg (by omega), if_neg (by omega), if_neg (by omega), if_neg (by omega)]
  by_cases hfit : flt.exp + P.maxExp < 2 ^ 62
  · have hint : toInt (flt.exp + P.maxExp) = .ok (flt.exp + P.maxExp) := by
      unfold toInt
      rw [if_pos ⟨by omega, hfit⟩]
    have hpow : (2 : ℤ) ^ P.expWidth = 2 * 2 ^ (P.expWidth - 1) := by
      rw [← pow_succ']
      congr 1
      omega
    obtain ⟨e, he⟩ := Int.eq_ofNat_of_zero_le (show 0 ≤ flt.exp + P.maxExp by omega)
    have hlt : e < 2 ^ P.expWidth - 1 := by
      have : (e : ℤ) + 1 < 2 ^ P.expWidth := by omega
      have : e + 1 < 2 ^ P.expWidth := by exact_mod_cast this
      omega
    have hnat : (BitVec.ofInt 63 (flt.exp + P.maxExp)).toNat = e := by
      rw [he, BitVec.ofInt_natCast, BitVec.toNat_ofNat]
      omega
    obtain ⟨bytes, hb, hcls⟩ := P.pack_normal isNeg (BitVec.ofInt 63 (flt.exp + P.maxExp))
      (by rw [hnat]; omega) (by rw [hnat]; exact hlt) hs
    refine iff_of_true ?_ hfit
    rw [hint]
    change P.Agrees (.ok .normal) (do
      return (← P.pack isNeg (BitVec.ofInt 63 (flt.exp + P.maxExp)) flt.frac, .normal))
    rw [hb]
    exact agrees_ok.mpr (.inl hcls.symm)
  · have hint : toInt (flt.exp + P.maxExp) = .error .overflow := by
      unfold toInt
      rw [if_neg fun h => hfit h.2]
    refine iff_of_false ?_ hfit
    rw [hint]
    intro hag
    cases agrees_overflow.mp hag

/-- Without the tables the functions agree exactly on the literals without a carry. -/
theorem pure_agrees_iff (lit : RealLit) :
    P.Agrees (P.pureClassify lit) (P.pureToBits lit) ↔
      ¬ P.CarriesOut lit ∧ P.FitsBiased lit := by
  have hsig := P.significant_ok
  have hpow : 1 < 2 ^ (P.significant - 1) := Nat.one_lt_two_pow (by omega)
  cases lit with
  | posInf =>
    obtain ⟨bytes, hb, hcls⟩ := P.packSpecial_special false 0 (by omega)
    refine iff_of_true ?_ ⟨id, trivial⟩
    change P.Agrees (.ok .inf) (P.packSpecial false P.specialExp ((0 : ℕ) : ℤ) >>= fun b =>
      .ok (b, .inf))
    rw [hb]
    exact agrees_ok.mpr (.inl hcls.symm)
  | negInf =>
    obtain ⟨bytes, hb, hcls⟩ := P.packSpecial_special true 0 (by omega)
    refine iff_of_true ?_ ⟨id, trivial⟩
    change P.Agrees (.ok .inf) (P.packSpecial true P.specialExp ((0 : ℕ) : ℤ) >>= fun b =>
      .ok (b, .inf))
    rw [hb]
    exact agrees_ok.mpr (.inl hcls.symm)
  | qNaN =>
    obtain ⟨bytes, hb, hcls⟩ := P.packSpecial_special false 1 hpow
    refine iff_of_true ?_ ⟨id, trivial⟩
    change P.Agrees (.ok .nan) (P.packSpecial false P.specialExp ((1 : ℕ) : ℤ) >>= fun b =>
      .ok (b, .nan))
    rw [hb]
    exact agrees_ok.mpr (.inl hcls.symm)
  | flt isNeg digits exp =>
    cases digits with
    | nil =>
      obtain ⟨bytes, hb, hcls⟩ := P.zero_class isNeg
      refine iff_of_true ?_ ⟨id, trivial⟩
      change P.Agrees (.ok .zero) (P.zero isNeg >>= fun b => .ok (b, .zero))
      rw [hb]
      exact agrees_ok.mpr (.inl hcls.symm)
    | cons d ds =>
      change P.Agrees (tryCatch (P.binary (d :: ds) exp >>= P.classPart) handleOverflow)
          (P.binary (d :: ds) exp >>= P.bitsPart isNeg) ↔
        ¬ P.binary (d :: ds) exp = .ok { frac := 2 ^ P.significant, exp := P.minExp - 1 } ∧
          ∀ flt, P.binary (d :: ds) exp = .ok flt →
            P.minExp ≤ flt.exp → flt.exp ≤ P.maxExp → flt.exp + P.maxExp < 2 ^ 62
      cases hbin : P.binary (d :: ds) exp with
      | error x =>
        refine iff_of_true ?_ ⟨by simp, by simp⟩
        cases x with
        | overflow => exact agrees_overflow.mpr rfl
        | domain => exact agrees_error (by decide)
        | subscript => exact agrees_error (by decide)
      | ok flt =>
        obtain ⟨hpos, hle, s, hs⟩ := P.binary_ok hbin
        have hcarry : (Except.ok flt : Except RealToBits.Exn _) =
            .ok { frac := 2 ^ P.significant, exp := P.minExp - 1 } ↔
            flt.frac = 2 ^ P.significant ∧ flt.exp = P.minExp - 1 := by
          cases flt
          simp
        have hfits : (∀ flt', (Except.ok flt : Except RealToBits.Exn _) = .ok flt' →
            P.minExp ≤ flt'.exp → flt'.exp ≤ P.maxExp → flt'.exp + P.maxExp < 2 ^ 62) ↔
            (P.minExp ≤ flt.exp → flt.exp ≤ P.maxExp → flt.exp + P.maxExp < 2 ^ 62) := by
          simp
        rw [hcarry, hfits]
        change P.Agrees (tryCatch (P.classPart flt) handleOverflow) (P.bitsPart isNeg flt) ↔ _
        rcases lt_or_ge flt.exp P.minExp with hlow | hlow
        · rw [P.agrees_subnormal isNeg hpos hle hlow]
          exact (and_iff_left (by omega)).symm
        · have hno : ¬ (flt.frac = 2 ^ P.significant ∧ flt.exp = P.minExp - 1) := by omega
          rw [and_iff_right hno]
          rcases lt_or_ge P.maxExp flt.exp with hhigh | hhigh
          · refine iff_of_true ?_ (by omega)
            unfold classPart bitsPart
            rw [if_neg (not_lt.mpr hlow), if_pos hhigh, if_neg (not_lt.mpr hlow), if_pos hhigh]
            exact agrees_overflow.mpr rfl
          · rw [P.agrees_normal isNeg hs hlow hhigh]
            exact ⟨fun h _ _ => h, fun h => h hlow hhigh⟩

/-! ### Runs -/

/-- A call of one of the two functions. -/
inductive Call
  /-- `classify lit`. -/
  | classify (lit : RealLit)
  /-- `toBits lit`. -/
  | toBits (lit : RealLit)

def Call.lit : Call → RealLit
  | .classify lit => lit
  | .toBits lit => lit

def step (c : Caches) : Call → Caches
  | .classify lit => ((P.classify lit).run.run c).2
  | .toBits lit => ((P.toBits lit).run.run c).2

def after (calls : List Call) : Caches := calls.foldl P.step P.initial

theorem step_sound {c : Caches} (hc : P.CachesSound c) {call : Call}
    (h : P.TableLit call.lit) : P.CachesSound (P.step c call) := by
  cases call with
  | classify lit =>
    obtain ⟨c', hrun, hc'⟩ := P.classify_transparent h c hc
    have hstep : P.step c (.classify lit) = c' := congrArg Prod.snd hrun
    rw [hstep]
    exact hc'
  | toBits lit =>
    obtain ⟨c', hrun, hc'⟩ := P.toBits_transparent h c hc
    have hstep : P.step c (.toBits lit) = c' := congrArg Prod.snd hrun
    rw [hstep]
    exact hc'

theorem after_sound {calls : List Call} (h : ∀ call ∈ calls, P.TableLit call.lit) :
    P.CachesSound (P.after calls) := by
  have run : ∀ (calls : List Call) (c : Caches), P.CachesSound c →
      (∀ call ∈ calls, P.TableLit call.lit) → P.CachesSound (calls.foldl P.step c) := by
    intro calls
    induction calls with
    | nil =>
      intro c hc _
      exact hc
    | cons call calls ih =>
      intro c hc h
      exact ih _ (P.step_sound hc (h call List.mem_cons_self))
        fun x hx => h x (List.mem_cons_of_mem call hx)
  exact run calls P.initial P.initial_sound h

theorem fitsBiased_of_expWidth_le (h : P.expWidth ≤ 62) (lit : RealLit) : P.FitsBiased lit := by
  have hmax := P.maxExp_eq
  have hpow : (2 : ℤ) ^ (P.expWidth - 1) ≤ 2 ^ 61 := pow_le_pow_right₀ (by norm_num) (by omega)
  unfold FitsBiased
  split
  · trivial
  · intro flt _ _ hhigh
    omega
  · trivial

end FloatParams

open RealToBits FloatParams

/-- The format of the reals. -/
def IEEEFloat64Params : FloatParams where
  width := 64
  significant := 53
  bias := 1023
  tenth := { frac := 118059162071741130342, exp := -70 }
  width_ok := by decide
  significant_ok := by decide
  bias_ok := by decide
  bias_eq := by decide
  tenth_ok := by decide +kernel

theorem inTable_float64 {e : ℤ} (he : e.natAbs < 2 ^ 61) : IEEEFloat64Params.InTable e := by
  have hten : ∃ v, IEEEFloat64Params.pow ten 60 = .ok v :=
    ⟨{ frac := 109669153617582947136, exp := 3829922337353294461 }, by decide +kernel⟩
  have htenth : ∃ v, IEEEFloat64Params.pow IEEEFloat64Params.tenth 60 = .ok v :=
    ⟨{ frac := 98754684130976216006, exp := -3829922337353294594 }, by decide +kernel⟩
  obtain ⟨v, hten⟩ := hten
  obtain ⟨v', htenth⟩ := htenth
  intro i hi
  have hi60 : i ≤ 60 := by
    by_contra hlt
    have hlow : e.natAbs < 2 ^ i :=
      lt_of_lt_of_le he (Nat.pow_le_pow_right (by norm_num) (by omega))
    rw [Nat.testBit_eq_false_of_lt hlow] at hi
    cases hi
  by_cases hneg : e < 0
  · obtain ⟨w, hw⟩ := IEEEFloat64Params.pow_ok_of_le htenth hi60
    refine ⟨w, ?_⟩
    unfold power
    rw [if_pos hneg, if_neg (by omega), if_neg (by omega),
      show (-(-1 * (1 + (i : ℤ))) - 1).toNat = i by omega]
    exact hw
  · obtain ⟨w, hw⟩ := IEEEFloat64Params.pow_ok_of_le hten hi60
    refine ⟨w, ?_⟩
    unfold power
    rw [if_neg hneg, if_neg (by omega), if_pos (by omega),
      show (1 * (1 + (i : ℤ)) - 1).toNat = i by omega]
    exact hw

theorem tableLit_float64 {isNeg : Bool} {digits : List ℤ} {exp : ℤ}
    (h : (decimal digits exp).2.natAbs < 2 ^ 61) :
    IEEEFloat64Params.TableLit (.flt isNeg digits exp) := by
  intro e he
  obtain ⟨rfl, _⟩ := FloatParams.toInt_ok he
  exact inTable_float64 h

end SmlNj
