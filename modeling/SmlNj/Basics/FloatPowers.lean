import Mathlib.Tactic
import Mathlib.Data.Int.Bitwise

/-!
# Powers of ten for the conversion of real literals

The conversion of a literal to binary multiplies with powers of ten that are
computed once and kept in a table.  Results of type `int` have 63 bits, and an
operation on them that leaves this range raises `Overflow`; what the table holds by
then stays there.

## Main definitions

* `FloatParams` — an application of the functor that passes its checks.
* `FloatParams.round`, `FloatParams.mult` — floats with a bounded fraction.
* `FloatParams.raiseToPower` — multiplication with a power of ten, by the tables.
* `FloatParams.pow`, `FloatParams.rescale` — the same without the tables.

## Main results

* `FloatParams.access_spec` — a sound table answers with the power, and stays sound.
* `FloatParams.raiseToPower_transparent` — so the tables cannot be observed, as long
  as every power that is asked for can be computed.
-/

namespace SmlNj

namespace RealToBits

/-- The exceptions of the conversion. -/
inductive Exn
  /-- An `int` out of range. -/
  | overflow
  /-- The logarithm of a number that is not positive. -/
  | domain
  | subscript
  deriving DecidableEq

/-- A result of type `int`. -/
def toInt (n : ℤ) : Except Exn ℤ :=
  if -2 ^ 62 ≤ n ∧ n < 2 ^ 62 then .ok n else .error .overflow

/-- `IntInf.log2`. -/
def log2 (n : ℤ) : Except Exn ℤ :=
  if n ≤ 0 then .error .domain else toInt (Nat.log2 n.toNat)

def numBitsForInt (n : ℤ) : Except Exn ℤ := do
  let l ← log2 n
  toInt (l + 1)

/-- A whole "fraction" and an exponent base two. -/
structure Float where
  frac : ℤ
  exp : ℤ
  deriving DecidableEq

/-- Round a float to `n` significant binary digits. -/
def round (float : Float) (n : ℤ) : Except Exn Float := do
  let bits ← numBitsForInt float.frac
  let bits ← toInt (bits + 1)
  let shift ← toInt (bits - n)
  if shift ≤ 0 then return float
  else
    let frac :=
      if Int.land float.frac (1 <<< (shift - 1).toNat) = 0 then float.frac >>> shift.toNat
      else float.frac >>> shift.toNat + 1
    let exp ← toInt (float.exp + shift)
    return { frac := frac, exp := exp }

/-- The `mk` of `tenth`: `n` binary digits of one tenth, for `n` from 1 on. -/
def tenth.mk : ℕ → Except Exn Float
  | 0 => .ok { frac := 1, exp := -4 }
  | 1 => .ok { frac := 1, exp := -4 }
  | n + 2 => do
    let float ← tenth.mk (n + 1)
    let tenthBit := match (n + 2) % 4 with
      | 0 => 0
      | 1 => 1
      | 2 => 1
      | _ => 0
    let f := 2 * float.frac + tenthBit
    let e ← toInt (float.exp - 1)
    return { frac := f, exp := e }

/-- One tenth, to `precision` binary digits. -/
def tenthTo (precision : ℕ) : Except Exn Float := do
  let float ← tenth.mk (precision + 1)
  round float precision

/-- The largest exponent: a `Word.word` with `expWidth - 1` ones, as an `int`. -/
def maxExp (expWidth : ℕ) : ℤ := ((1#63 <<< (expWidth - 1)) - 1#63).toInt

end RealToBits

open RealToBits in
/-- The parameters of an application of the functor that passes its checks, and one
tenth as it is computed then. -/
structure FloatParams where
  /-- The total number of bits in the representation. -/
  width : ℕ
  /-- The number of bits in the significand, with the redundant one. -/
  significant : ℕ
  bias : ℤ
  /-- One tenth, to the precision of the conversion. -/
  tenth : RealToBits.Float
  width_ok : 16 ≤ width ∧ width % 8 = 0
  significant_ok : 11 ≤ significant ∧ significant + 5 ≤ width
  bias_ok : bias = maxExp (width - significant)
  /-- What the bias is, by the description of the parameters. -/
  bias_eq : bias = 2 ^ (width - significant - 1) - 1
  tenth_ok : tenthTo (significant + (width - significant) + 4) = .ok tenth

namespace FloatParams

open RealToBits

variable (P : FloatParams)

def expWidth : ℕ := P.width - P.significant

/-- More than the required precision: the significand, the bias, and one additional
decimal digit. -/
def precision : ℤ := P.significant + P.expWidth + 4

def ten : RealToBits.Float := { frac := 5, exp := 1 }

def mult (f1 f2 : RealToBits.Float) : Except Exn RealToBits.Float := do
  let exp ← toInt (f1.exp + f2.exp)
  round { frac := f1.frac * f2.frac, exp := exp } P.precision

/-! ### The tables -/

/-- A table of the powers `f0 ^ (2 ^ n)`. -/
abbrev Cache := List (Option RealToBits.Float)

/-- The table with `f0` itself. -/
def newCache (f0 : RealToBits.Float) : Cache := some f0 :: List.replicate 15 none

/-- More space, for the index `sz` at least. -/
def grow (arr : Cache) (sz : ℕ) : Cache :=
  let sz := max (sz + 1) (2 * arr.length)
  arr ++ List.replicate (sz - arr.length) none

/-- The `get` of `access`, which keeps every power it computes at the index `n`. -/
def access.get (n : ℕ) : ℕ → Cache → Except Exn RealToBits.Float × Cache
  | i, arr =>
    match arr[i]? with
    | none => (.error .subscript, arr)
    | some (some flt) => (.ok flt, arr)
    | some none =>
      match i with
      | 0 => (.error .subscript, arr)
      | i + 1 =>
        match access.get n i arr with
        | (.error x, arr) => (.error x, arr)
        | (.ok prev, arr) =>
          match P.mult prev prev with
          | .error x => (.error x, arr)
          | .ok flt => (.ok flt, arr.set n (some flt))

/-- The power number `n` of a table.  After `grow` there is space for it. -/
def access (n : ℕ) (arr : Cache) : Except Exn RealToBits.Float × Cache :=
  if n < arr.length then access.get P n n arr
  else access.get P n n (grow arr n)

/-- The two tables: `10^2^n` and `10^-2^n`. -/
structure Caches where
  pos10 : Cache
  neg10 : Cache
  deriving DecidableEq

def initial : Caches := { pos10 := newCache ten, neg10 := newCache P.tenth }

abbrev M := ExceptT Exn (StateM Caches)

/-- The power of ten number `n`; the negative numbers are those of one tenth. -/
def pow10_2 (n : ℤ) : M RealToBits.Float :=
  if n = 0 then pure { frac := 1, exp := 0 }
  else if 0 < n then fun c =>
    let (r, arr) := P.access (n - 1).toNat c.pos10
    (r, { c with pos10 := arr })
  else fun c =>
    let (r, arr) := P.access (-n - 1).toNat c.neg10
    (r, { c with neg10 := arr })

/-- The `raisep` of `raiseToPower`: one power for every bit of `e`. -/
def raisep (sign : ℤ) (f : RealToBits.Float) (e : ℕ) (p : ℤ) : M RealToBits.Float :=
  if e = 0 then pure f
  else if e % 2 = 1 then do
    let t ← P.pow10_2 (sign * p)
    let f ← P.mult f t
    raisep sign f (e / 2) (p + 1)
  else raisep sign f (e / 2) (p + 1)
termination_by e

/-- Multiply `f` with the power of ten with the exponent `e`. -/
def raiseToPower (f : RealToBits.Float) (e : ℤ) : M RealToBits.Float :=
  if e = 0 then pure f
  else if e < 0 then do
    let e ← toInt (-e)
    P.raisep (-1) f e.toNat 1
  else P.raisep 1 f e.toNat 1

/-- `f0 ^ (2 ^ n)`, to the correct precision. -/
def pow (f0 : RealToBits.Float) : ℕ → Except Exn RealToBits.Float
  | 0 => .ok f0
  | n + 1 => do
    let prev ← pow f0 n
    P.mult prev prev

/-- What `pow10_2` is for. -/
def power (n : ℤ) : Except Exn RealToBits.Float :=
  if n = 0 then .ok { frac := 1, exp := 0 }
  else if 0 < n then P.pow ten (n - 1).toNat
  else P.pow P.tenth (-n - 1).toNat

/-- `raisep` without the tables. -/
def rescale.raisep (sign : ℤ) (f : RealToBits.Float) (e : ℕ) (p : ℤ) :
    Except Exn RealToBits.Float :=
  if e = 0 then pure f
  else if e % 2 = 1 then do
    let t ← P.power (sign * p)
    let f ← P.mult f t
    rescale.raisep sign f (e / 2) (p + 1)
  else rescale.raisep sign f (e / 2) (p + 1)
termination_by e

/-- `raiseToPower` without the tables. -/
def rescale (f : RealToBits.Float) (e : ℤ) : Except Exn RealToBits.Float :=
  if e = 0 then pure f
  else if e < 0 then do
    let e ← toInt (-e)
    rescale.raisep P (-1) f e.toNat 1
  else rescale.raisep P 1 f e.toNat 1

/-- Every power that is needed for the exponent `e` can be computed. -/
def InTable (e : ℤ) : Prop :=
  ∀ i : ℕ, e.natAbs.testBit i = true →
    ∃ v, P.power ((if e < 0 then -1 else 1) * (1 + (i : ℤ))) = .ok v

/-! ### Sound tables -/

/-- A table that holds powers of `f0`, `f0` among them. -/
structure Sound (f0 : RealToBits.Float) (arr : Cache) : Prop where
  first : arr[0]? = some (some f0)
  entry : ∀ i v, arr[i]? = some (some v) → P.pow f0 i = .ok v

theorem sound_newCache (f0 : RealToBits.Float) : P.Sound f0 (newCache f0) := by
  refine ⟨rfl, ?_⟩
  intro i v h
  cases i with
  | zero =>
    cases h
    rfl
  | succ i =>
    unfold newCache at h
    rw [List.getElem?_cons_succ, List.getElem?_replicate] at h
    split at h <;> cases h

theorem Sound.grow {f0 : RealToBits.Float} {arr : Cache} (h : P.Sound f0 arr) (n : ℕ) :
    P.Sound f0 (grow arr n) := by
  have hne : 0 < arr.length := by
    by_contra h0
    have : arr = [] := List.eq_nil_of_length_eq_zero (by omega)
    simp [this] at h
    exact absurd h.first (by simp)
  unfold FloatParams.grow
  constructor
  · rw [List.getElem?_append_left hne]
    exact h.first
  · intro i v hv
    by_cases hi : i < arr.length
    · rw [List.getElem?_append_left hi] at hv
      exact h.entry i v hv
    · rw [List.getElem?_append_right (by omega), List.getElem?_replicate] at hv
      split at hv <;> cases hv

theorem lt_length_grow (arr : Cache) (n : ℕ) : n < (grow arr n).length := by
  unfold grow
  rw [List.length_append, List.length_replicate]
  omega

variable {f0 v : RealToBits.Float} {n : ℕ} {arr : Cache} {α : Type}

theorem pow_ok_of_le {i : ℕ} (h : P.pow f0 n = .ok v) (hi : i ≤ n) : ∃ w, P.pow f0 i = .ok w := by
  induction n generalizing v with
  | zero =>
    have : i = 0 := by omega
    exact ⟨v, this ▸ h⟩
  | succ n ih =>
    by_cases heq : i = n + 1
    · exact ⟨v, heq ▸ h⟩
    · unfold pow at h
      cases hp : P.pow f0 n with
      | error x =>
        rw [hp] at h
        cases h
      | ok prev => exact ih hp (by omega)

/-- Below the index `n`, `get` finds the powers and changes the entry `n` only. -/
theorem get_spec (h : P.Sound f0 arr) (hn : n < arr.length) (hv : P.pow f0 n = .ok v) : ∀ i, i ≤ n →
    ∃ w arr', access.get P n i arr = (.ok w, arr') ∧ P.pow f0 i = .ok w ∧
      arr'.length = arr.length ∧ (∀ j, j ≠ n → arr'[j]? = arr[j]?) ∧
      (arr'[n]? = arr[n]? ∨ arr'[n]? = some (some w)) := by
  intro i
  induction i with
  | zero =>
    intro _
    refine ⟨f0, arr, ?_, rfl, rfl, fun _ _ => rfl, .inl rfl⟩
    unfold access.get
    rw [h.first]
  | succ i ih =>
    intro hi
    unfold access.get
    have hlt : i + 1 < arr.length := by omega
    rw [List.getElem?_eq_getElem hlt]
    cases harr : arr[i + 1] with
    | some flt =>
      refine ⟨flt, arr, rfl, ?_, rfl, fun _ _ => rfl, .inl rfl⟩
      exact h.entry (i + 1) flt (by rw [List.getElem?_eq_getElem hlt, harr])
    | none =>
      obtain ⟨prev, arr', hget, hprev, hlen, hother, _⟩ := ih (by omega)
      obtain ⟨flt, hflt⟩ := P.pow_ok_of_le hv hi
      have hmult : P.mult prev prev = .ok flt := by
        have := hflt
        unfold pow at this
        rw [hprev] at this
        exact this
      simp only [hget, hmult]
      refine ⟨flt, arr'.set n (some flt), rfl, hflt, ?_, ?_, .inr ?_⟩
      · rw [List.length_set, hlen]
      · intro j hj
        rw [List.getElem?_set_ne hj.symm]
        exact hother j hj
      · rw [List.getElem?_set_self (by omega)]

theorem get_self_sound (h : P.Sound f0 arr) (hn : n < arr.length) (hv : P.pow f0 n = .ok v) :
    ∃ arr', access.get P n n arr = (.ok v, arr') ∧ P.Sound f0 arr' := by
  obtain ⟨w, arr', hget, hw, _, hother, hself⟩ := P.get_spec h hn hv n le_rfl
  have hwv : w = v := by
    rw [hv] at hw
    cases hw
    rfl
  subst hwv
  refine ⟨arr', hget, ?_, ?_⟩
  · by_cases h0 : n = 0
    · subst h0
      rcases hself with hself | hself
      · rw [hself]
        exact h.first
      · rw [hself]
        cases hv
        rfl
    · rw [hother 0 (fun h => h0 h.symm)]
      exact h.first
  · intro j u hu
    by_cases hj : j = n
    · subst hj
      rcases hself with hself | hself
      · exact h.entry j u (hself ▸ hu)
      · rw [hself] at hu
        cases hu
        exact hw
    · exact h.entry j u (hother j hj ▸ hu)

theorem access_spec (h : P.Sound f0 arr) (hv : P.pow f0 n = .ok v) :
    ∃ arr', P.access n arr = (.ok v, arr') ∧ P.Sound f0 arr' := by
  unfold access
  by_cases hn : n < arr.length
  · rw [if_pos hn]
    exact P.get_self_sound h hn hv
  · rw [if_neg hn]
    exact P.get_self_sound (h.grow P n) (lt_length_grow arr n) hv

/-! ### The tables cannot be observed -/

/-- Both tables are sound. -/
structure CachesSound (c : Caches) : Prop where
  pos10 : P.Sound ten c.pos10
  neg10 : P.Sound P.tenth c.neg10

theorem initial_sound : P.CachesSound P.initial :=
  ⟨P.sound_newCache ten, P.sound_newCache P.tenth⟩

/-- With sound tables, the computation ends with `r` and leaves them sound. -/
def Transparent {α : Type} (m : M α) (r : Except Exn α) : Prop :=
  ∀ c, P.CachesSound c → ∃ c', m.run.run c = (r, c') ∧ P.CachesSound c'

variable {P} in
theorem Transparent.bind {β : Type} {m : M α} {r : Except Exn α} {f : α → M β}
    {g : α → Except Exn β} (hm : P.Transparent m r)
    (hf : ∀ a, r = .ok a → P.Transparent (f a) (g a)) : P.Transparent (m >>= f) (r >>= g) := by
  intro c hc
  obtain ⟨c', hrun, hc'⟩ := hm c hc
  have hstep : (m >>= f).run.run c =
      ExceptT.bindCont f (m.run.run c).1 (m.run.run c).2 := rfl
  rw [hstep, hrun]
  cases r with
  | error x => exact ⟨c', rfl, hc'⟩
  | ok a => exact hf a rfl c' hc'

theorem transparent_lift (x : Except Exn α) :
    P.Transparent (liftM x : M α) x := fun c hc => ⟨c, rfl, hc⟩

theorem transparent_pure (a : α) : P.Transparent (pure a : M α) (pure a) :=
  fun c hc => ⟨c, rfl, hc⟩

theorem transparent_throw (x : Exn) :
    P.Transparent (throw x : M α) (.error x) := fun c hc => ⟨c, rfl, hc⟩

variable {P} in
theorem Transparent.tryCatch {α : Type} {m : M α} {r : Except Exn α} {h : Exn → M α}
    {g : Exn → Except Exn α} (hm : P.Transparent m r)
    (hh : ∀ x, r = .error x → P.Transparent (h x) (g x)) :
    P.Transparent (tryCatch m h) (tryCatch r g) := by
  intro c hc
  obtain ⟨c', hrun, hc'⟩ := hm c hc
  cases r with
  | error x =>
    obtain ⟨c'', hrun', hc''⟩ := hh x rfl c' hc'
    refine ⟨c'', ?_, hc''⟩
    change (ExceptT.tryCatch m h).run.run c = _
    unfold ExceptT.tryCatch
    rw [ExceptT.run_mk, StateT.run_bind, show StateT.run m c = _ from hrun]
    exact hrun'
  | ok a =>
    refine ⟨c', ?_, hc'⟩
    change (ExceptT.tryCatch m h).run.run c = _
    unfold ExceptT.tryCatch
    rw [ExceptT.run_mk, StateT.run_bind, show StateT.run m c = _ from hrun]
    rfl

theorem pow10_2_transparent {n : ℤ} (h : P.power n = .ok v) :
    P.Transparent (P.pow10_2 n) (.ok v) := by
  unfold power at h
  unfold pow10_2
  by_cases h0 : n = 0
  · rw [if_pos h0] at h ⊢
    cases h
    exact P.transparent_pure _
  · rw [if_neg h0] at h ⊢
    by_cases hpos : 0 < n
    · rw [if_pos hpos] at h ⊢
      intro c hc
      obtain ⟨arr', hacc, harr⟩ := P.access_spec hc.pos10 h
      refine ⟨{ c with pos10 := arr' }, ?_, harr, hc.neg10⟩
      change (P.access (n - 1).toNat c.pos10 |>.1,
        { c with pos10 := (P.access (n - 1).toNat c.pos10).2 }) = _
      rw [hacc]
    · rw [if_neg hpos] at h ⊢
      intro c hc
      obtain ⟨arr', hacc, harr⟩ := P.access_spec hc.neg10 h
      refine ⟨{ c with neg10 := arr' }, ?_, hc.pos10, harr⟩
      change (P.access (-n - 1).toNat c.neg10 |>.1,
        { c with neg10 := (P.access (-n - 1).toNat c.neg10).2 }) = _
      rw [hacc]

theorem raisep_transparent (sign : ℤ) (e : ℕ) : ∀ (f : RealToBits.Float) (p : ℤ),
    (∀ i : ℕ, e.testBit i = true → ∃ v, P.power (sign * (p + i)) = .ok v) →
    P.Transparent (P.raisep sign f e p) (rescale.raisep P sign f e p) := by
  induction e using Nat.strong_induction_on with
  | _ e ih =>
    intro f p hp
    unfold raisep rescale.raisep
    by_cases h0 : e = 0
    · rw [if_pos h0, if_pos h0]
      exact P.transparent_pure f
    · rw [if_neg h0, if_neg h0]
      -- The bits of `e / 2` are those of `e` after the first.
      have hnext : ∀ i : ℕ, (e / 2).testBit i = true →
          ∃ v, P.power (sign * (p + 1 + i)) = .ok v := by
        intro i hi
        obtain ⟨v, hv⟩ := hp (i + 1) (by rw [Nat.testBit_succ]; exact hi)
        refine ⟨v, ?_⟩
        rw [← hv]
        push_cast
        ring_nf
      by_cases h1 : e % 2 = 1
      · rw [if_pos h1, if_pos h1]
        obtain ⟨v, hv⟩ := hp 0 (by rw [Nat.testBit_zero]; simpa using h1)
        rw [Nat.cast_zero, add_zero] at hv
        rw [hv]
        refine (P.pow10_2_transparent hv).bind fun t _ => ?_
        refine (P.transparent_lift (P.mult f t)).bind fun f' _ => ?_
        exact ih (e / 2) (by omega) f' (p + 1) hnext
      · rw [if_neg h1, if_neg h1]
        exact ih (e / 2) (by omega) f (p + 1) hnext

theorem raiseToPower_transparent (f : RealToBits.Float) {e : ℤ} (he : P.InTable e) :
    P.Transparent (P.raiseToPower f e) (P.rescale f e) := by
  unfold raiseToPower rescale
  by_cases h0 : e = 0
  · rw [if_pos h0, if_pos h0]
    exact P.transparent_pure f
  · rw [if_neg h0, if_neg h0]
    unfold InTable at he
    by_cases hneg : e < 0
    · rw [if_pos hneg] at he
      rw [if_pos hneg, if_pos hneg]
      refine (P.transparent_lift (toInt (-e))).bind fun a ha => ?_
      have hae : a = -e := by
        unfold toInt at ha
        split at ha <;> cases ha
        rfl
      have hnat : a.toNat = e.natAbs := by omega
      rw [hnat]
      exact P.raisep_transparent (-1) e.natAbs f 1 he
    · rw [if_neg hneg] at he
      rw [if_neg hneg, if_neg hneg]
      have hnat : e.toNat = e.natAbs := by omega
      rw [hnat]
      exact P.raisep_transparent 1 e.natAbs f 1 he

end FloatParams

end SmlNj
