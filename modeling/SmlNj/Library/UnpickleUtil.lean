import SmlNj.Library.PickleTree
import SmlNj.System.IntInfRoundTrip

/-!
# Unpickling

The readers that turn a pickled string back into a value.  A session has the
string, the position of the next character, one sharing map for each type,
which has the values that were read at marked positions, and the cells of the
thunks.  The value of a thunk is read when it is forced, from where it starts.

The readers of the characters of a pickle undo the encoders.  They only move
the position of the session.

## Main definitions

* `Heap`, `Reader` — the references of a session and what reads from it.
* `share` — read a node that may be a back reference, or marked as shared.
* `rInt`, `rWord`, `rBool`, `rString`, `rIntinf`, `rList`, `rOption`, `rPair`,
  `rLazy` — the readers.
* `reader`, `force` — the reader of a type, and forcing a thunk.

## Main results

* `rInt_of_at`, `rWord_of_at` — an encoded integer is read back.
* `getSize_of_at` — the size of a thunk is found behind its padding.
* `stringLoop_of_at` — a quoted string is read back.
* `intInfFromString_toString` — large integers survive their decimal text.
-/

namespace SmlNj.PickleUtil

/-- A value that was read at a position, with the position after it. -/
abbrev SharingMap (α : Type) := ℤ → Option (α × ℤ)

/-- The contents of the cell of a thunk. -/
inductive Memo (α : Type)
  | thunk (start : ℤ)
  | value (v : α)

/-- The values that are read, where a thunk is the number of its cell. -/
abbrev Got : Ty → Type := Value fun _ => ℕ

/-- The references of a session. -/
structure Heap where
  pos : ℤ
  state : SharingMap Str
  maps : ∀ t, SharingMap (Got t)
  memos : ∀ t, ℕ → Option (Memo (Got t))
  cells : ℕ

abbrev Reader (α : Type) := StateT Heap (Except Exn) α

/-- A reference to a sharing map. -/
structure MapRef (α : Type) where
  get : Heap → SharingMap α
  set : Heap → SharingMap α → Heap

def stateRef : MapRef Str := ⟨Heap.state, fun h m => { h with state := m }⟩

def mapRef (t : Ty) : MapRef (Got t) :=
  ⟨fun h => h.maps t, fun h m => { h with maps := Function.update h.maps t m }⟩

/-! ### The characters of the string -/

variable {α β : Type}

section Readers

variable (session : Str)

def rd : Reader Char := fun h =>
  if 0 ≤ h.pos then
    match session[h.pos.toNat]? with
    | some c => .ok (c, { h with pos := h.pos + 1 })
    | none => .error .format
  else .error .format

def seek (p : ℤ) : Reader Unit := fun h => .ok ((), { h with pos := p })

def cur : Reader ℤ := fun h => .ok (h.pos, h)

/-- The loop of `f_anyint`. -/
def anyintLoop : ℕ → ℕ → Reader (ℕ × Bool)
  | 0, _ => throw .outOfFuel
  | fuel + 1, n => do
    let w8 := ord (← rd session)
    if w8 &&& 128 = 0 then return ((n * 64 + (w8 &&& 63)) % 2 ^ 64, decide (w8 &&& 64 ≠ 0))
    else anyintLoop fuel ((n * 128 + (w8 &&& 127)) % 2 ^ 64)

/-- `LargeWord.toLargeIntX`. -/
def toLargeIntX (w : ℕ) : ℤ := if w < 2 ^ 63 then w else w - 2 ^ 64

/-- `Int.fromLarge`, whose `Overflow` becomes `Format`. -/
def fromLarge (i : ℤ) : Except Exn Int63 :=
  if h : -2 ^ 62 ≤ i ∧ i < 2 ^ 62 then .ok ⟨i, h⟩ else .error .format

/-- `Word.fromLargeWord`. -/
def fromLargeWord (w : ℕ) : Word63 := ⟨w % 2 ^ 63, Nat.mod_lt _ (by positivity)⟩

def fInt (fuel : ℕ) : Reader Int63 := do
  let (wpos, negative) ← anyintLoop session fuel 0
  let w := if negative then (2 ^ 64 - wpos) % 2 ^ 64 else wpos
  fromLarge (toLargeIntX w)

def fWord (fuel : ℕ) : Reader Word63 := do
  match ← anyintLoop session fuel 0 with
  | (w, false) => return fromLargeWord w
  | _ => throw .format

/-- Read a node at a position where none was read before. -/
def firsttime (m : MapRef α) (r : Char → Reader α) (pos : ℤ) (c : Char) : Reader α := do
  let v ← r (← chr ((ord c : ℤ) - 128))
  let pos' ← cur
  modify fun h => m.set h (Function.update (m.get h) pos (some (v, pos')))
  return v

def share (fuel : ℕ) (m : MapRef α) (r : Char → Reader α) : Reader α := do
  let c ← rd session
  if ord c < 128 then r c
  else if c = backrefChar then do
    let pos ← fInt session fuel
    match m.get (← get) pos with
    | some (v, _) => return v
    | none => do
      let here ← cur
      seek pos
      let v ← firsttime m r pos (← rd session)
      seek here
      return v
  else do
    let pos := (← cur) - 1
    match m.get (← get) pos with
    | some (v, pos') => do
      seek pos'
      return v
    | none => firsttime m r pos c

def nonshare (f : Char → Reader α) : Reader α := do f (← rd session)

/-! ### The readers -/

variable (fuel : ℕ)

def rInt : Reader Int63 := fInt session fuel

def rWord : Reader Word63 := fWord session fuel

/-- The size may have leading zeros because of padding. -/
def getSize : ℕ → Reader Int63
  | 0 => throw .outOfFuel
  | rounds + 1 => do
    let sz ← rInt session fuel
    if sz.1 = 0 then getSize rounds else return sz

/-- The reader of a thunk only makes a cell, which has the position where the value starts. -/
def rLazy (t : Ty) : Reader ℕ := do
  let sz ← getSize session fuel fuel
  let start ← cur
  let cell := (← get).cells
  modify fun h =>
    { h with
      memos := Function.update h.memos t (Function.update (h.memos t) cell (some (.thunk start)))
      cells := cell + 1 }
  seek (start + sz.1)
  return cell

def rChops (m : MapRef (List α)) (r : Reader α) : ℕ → Reader (List α)
  | 0 => throw .outOfFuel
  | rounds + 1 => share session fuel m fun
    | 'N' => return []
    | 'C' => do return (← r) :: (← r) :: (← r) :: (← r) :: (← r) :: (← rChops m r rounds)
    | _ => throw .format

/-- The local `rl` of `r_list`. -/
@[grind =] def rListAt (m : MapRef (List α)) (r : Reader α) : Char → Reader (List α)
  | '0' => return []
  | '1' => do return [← r]
  | '2' => do return [← r, ← r]
  | '3' => do return [← r, ← r, ← r]
  | '4' => do return [← r, ← r, ← r, ← r]
  | '5' => rChops session fuel m r fuel
  | '6' => do return (← r) :: (← rChops session fuel m r fuel)
  | '7' => do return (← r) :: (← r) :: (← rChops session fuel m r fuel)
  | '8' => do return (← r) :: (← r) :: (← r) :: (← rChops session fuel m r fuel)
  | '9' => do return (← r) :: (← r) :: (← r) :: (← r) :: (← rChops session fuel m r fuel)
  | _ => throw .format

def rList (m : MapRef (List α)) (r : Reader α) : Reader (List α) :=
  share session fuel m (rListAt session fuel m r)

def rOption (m : MapRef (Option α)) (r : Reader α) : Reader (Option α) :=
  share session fuel m fun
    | 'n' => return none
    | 's' => do return some (← r)
    | _ => throw .format

def rPair (m : MapRef (α × β)) (ra : Reader α) (rb : Reader β) : Reader (α × β) :=
  share session fuel m fun
    | 'p' => do return (← ra, ← rb)
    | _ => throw .format

def rBool : Reader Bool :=
  nonshare session fun
    | 't' => return true
    | 'f' => return false
    | _ => throw .format

/-- The loop of `r_string`. -/
def stringLoop : ℕ → Str → Char → Reader Str
  | 0, _, _ => throw .outOfFuel
  | rounds + 1, l, c => do
    if c = quote then return l.reverse
    else if c = backslash then do
      let l' := (← rd session) :: l
      stringLoop rounds l' (← rd session)
    else stringLoop rounds (c :: l) (← rd session)

def rString : Reader Str :=
  share session fuel stateRef fun c =>
    if c = quote then do stringLoop session fuel [] (← rd session) else throw .format

/-- `IntInf.fromString`. -/
def intInfFromString (s : Str) : Option ℤ :=
  (IntInf.scanString (IntInf.scan .dec) s).map CoreIntInf.value

def rIntinf : Reader ℤ := do
  match intInfFromString (← rString session fuel) with
  | some n => return n
  | none => throw .format

/-- The reader of a type, with one sharing map for each type. -/
def reader : ∀ t, Reader (Got t)
  | .int => rInt session fuel
  | .word => rWord session fuel
  | .bool => rBool session
  | .string => rString session fuel
  | .intinf => rIntinf session fuel
  | .list t => rList session fuel (mapRef (.list t)) (reader t)
  | .option t => rOption session fuel (mapRef (.option t)) (reader t)
  | .pair t u => rPair session fuel (mapRef (.pair t u)) (reader t) (reader u)
  | .lazy t => rLazy session fuel t
  | .shared t => reader t

/-- Force the thunk of a cell. -/
def force (t : Ty) (cell : ℕ) : Reader (Got t) := do
  match (← get).memos t cell with
  | none => throw .fail
  | some (.value v) => return v
  | some (.thunk start) => do
    let wherever ← cur
    seek start
    let v ← reader session fuel t
    seek wherever
    modify fun h =>
      { h with
        memos := Function.update h.memos t (Function.update (h.memos t) cell (some (.value v))) }
    return v

end Readers

def mkSession : Heap := ⟨0, fun _ => none, fun _ _ => none, fun _ _ => none, 0⟩

end SmlNj.PickleUtil

/-! ## Reading integers and strings back -/

namespace SmlNj.PickleUtil

variable {α β : Type} {s : Str} {p fuel : ℕ} {h h' : Heap}

theorem bind_ok {x : Reader α} {f : α → Reader β} {a : α} (hx : x h = .ok (a, h')) :
    (x >>= f) h = f a h' := by
  change (x h >>= fun y => f y.1 y.2) = _
  rw [hx]
  rfl

theorem rd_of_at {c : Char} (hc : s[p]? = some c) (hp : h.pos = p) :
    rd s h = .ok (c, { h with pos := (p + 1 : ℕ) }) := by
  rw [rd, hp, Int.toNat_natCast, hc]
  rfl

/-- The bytes that are written: a digit that is followed by others, and a last one. -/
theorem byte_spec :
    (∀ m < 256, (Char.ofNat m).toNat = m) ∧
      (∀ x < 128, (x ||| 128) % 256 = x + 128 ∧ (x + 128) &&& 128 ≠ 0 ∧ (x + 128) &&& 127 = x) ∧
      ∀ x < 64, ∀ negative : Bool,
        let b := (if negative then x ||| 64 else x) % 256
        b &&& 128 = 0 ∧ b &&& 63 = x ∧ decide (b &&& 64 ≠ 0) = negative := by
  decide +kernel

theorem ord_ofNat {n : ℕ} (hn : n < 256) : ord (Char.ofNat n) = n := byte_spec.1 n hn

theorem ord_byteChar (n : ℕ) : ord (byteChar n) = n % 256 :=
  ord_ofNat (Nat.mod_lt n (by decide))

theorem ord_digit (x : ℕ) : ord (byteChar (x % 128 ||| 128)) = x % 128 + 128 := by
  rw [ord_byteChar, (byte_spec.2.1 _ (Nat.mod_lt x (by decide))).1]

theorem digit_bits (x : ℕ) :
    (x % 128 + 128) &&& 128 ≠ 0 ∧ (x % 128 + 128) &&& 127 = x % 128 :=
  (byte_spec.2.1 _ (Nat.mod_lt x (by decide))).2

theorem last_bits (x : ℕ) (negative : Bool) :
    let b := ord (byteChar (if negative then x % 64 ||| 64 else x % 64))
    b &&& 128 = 0 ∧ b &&& 63 = x % 64 ∧ decide (b &&& 64 ≠ 0) = negative := by
  intro b
  have hb : b = (if negative then x % 64 ||| 64 else x % 64) % 256 := ord_byteChar _
  rw [hb]
  exact byte_spec.2.2 _ (Nat.mod_lt x (by decide)) negative

/-! ### Integers -/

theorem anyintLoop_digits : ∀ (rounds m : ℕ) (l : Str), m < 128 ^ rounds → m < 2 ^ 58 →
    At s p (anyintDigits rounds m l) →
    ∃ k, (anyintDigits rounds m l).length = k + l.length ∧ At s (p + k) l ∧
      ∀ (fuel : ℕ) (h : Heap), h.pos = p → anyintLoop s (fuel + k) 0 h =
        anyintLoop s fuel m { h with pos := (p + k : ℕ) }
  | 0, m, l, hm, _, hat => by
    have hm0 : m = 0 := by omega
    subst hm0
    exact ⟨0, (Nat.zero_add _).symm, hat, fun fuel h hp => by simp only [Nat.add_zero, ← hp]⟩
  | rounds + 1, m, l, hm, hm', hat => by
    by_cases hm0 : m = 0
    · subst hm0
      rw [anyintDigits] at hat ⊢
      exact ⟨0, (Nat.zero_add _).symm, hat,
        fun fuel h hp => by simp only [Nat.add_zero, ← hp]⟩
    rw [anyintDigits, if_neg hm0] at hat ⊢
    obtain ⟨k, hlen, hat', hloop⟩ := anyintLoop_digits rounds (m / 128) _
      (by rw [pow_succ] at hm; omega) (by omega) hat
    obtain ⟨hc, hat''⟩ := at_cons.1 hat'
    refine ⟨k + 1, by rw [hlen, List.length_cons]; omega, hat'', fun fuel h hp => ?_⟩
    rw [show fuel + (k + 1) = fuel + 1 + k by omega, hloop (fuel + 1) h hp, anyintLoop,
      bind_ok (rd_of_at hc rfl)]
    obtain ⟨hbit, hlow⟩ := digit_bits m
    have hacc : (m / 128 * 128 + m % 128) % 2 ^ 64 = m := by
      rw [Nat.div_add_mod']
      exact Nat.mod_eq_of_lt (hm'.trans (by norm_num))
    simp only [ord_digit, if_neg hbit, hlow, hacc, Nat.add_assoc]

theorem anyintLoop_of_at {n : ℕ} {negative : Bool} (hn : n < 2 ^ 64)
    (hat : At s p (anyintEncode n negative)) (hp : h.pos = p) (hfuel : s.length < fuel) :
    anyintLoop s fuel 0 h =
      .ok ((n, negative), { h with pos := (p + (anyintEncode n negative).length : ℕ) }) := by
  have hle : p + (anyintEncode n negative).length ≤ s.length := by
    refine hat.length_le ?_
    intro hnil
    obtain ⟨k, hlen, _⟩ := anyintLoop_digits 9 (n / 64) _ (by norm_num; omega) (by omega) hat
    rw [← anyintEncode.eq_def, hnil, List.length_nil, List.length_singleton] at hlen
    omega
  obtain ⟨k, hlen, hat', hloop⟩ :=
    anyintLoop_digits 9 (n / 64) _ (by norm_num; omega) (by omega) hat
  rw [← anyintEncode.eq_def] at hlen
  obtain ⟨hc, _⟩ := at_cons.1 hat'
  obtain ⟨h₁, h₂, h₃⟩ := last_bits n negative
  have hacc : (n / 64 * 64 + n % 64) % 2 ^ 64 = n := by
    rw [Nat.div_add_mod']
    exact Nat.mod_eq_of_lt hn
  rw [show fuel = fuel - k - 1 + 1 + k by omega, hloop _ h hp, anyintLoop,
    bind_ok (rd_of_at hc rfl)]
  simp only [h₁, h₂, h₃, hacc, hlen]
  rfl

theorem rInt_of_at {i : ℤ} (hi : -2 ^ 62 ≤ i ∧ i < 2 ^ 62) (hat : At s p (intEncode i))
    (hp : h.pos = p) (hfuel : s.length < fuel) :
    rInt s fuel h = .ok (⟨i, hi⟩, { h with pos := (p + (intEncode i).length : ℕ) }) := by
  rw [rInt, fInt]
  by_cases hneg : i ≥ 0
  · have hword : largeWord i = i.toNat := by
      rw [largeWord, Int.emod_eq_of_lt hneg (by omega)]
    have hcode : intEncode i = anyintEncode i.toNat false := by
      rw [intEncode, largeintEncode, if_pos hneg, hword]
    rw [hcode] at hat ⊢
    rw [bind_ok (anyintLoop_of_at (by omega) hat hp hfuel)]
    have hval : toLargeIntX i.toNat = i := by
      rw [toLargeIntX]
      omega
    simp only [Bool.false_eq_true, if_false, hval, fromLarge, dif_pos hi]
    rfl
  · have hword : (2 ^ 64 - largeWord i) % 2 ^ 64 = (-i).toNat := by
      rw [largeWord]
      omega
    have hcode : intEncode i = anyintEncode (-i).toNat true := by
      rw [intEncode, largeintEncode, if_neg hneg, hword]
    rw [hcode] at hat ⊢
    rw [bind_ok (anyintLoop_of_at (by omega) hat hp hfuel)]
    have hval : toLargeIntX ((2 ^ 64 - (-i).toNat) % 2 ^ 64) = i := by
      rw [toLargeIntX]
      omega
    simp only [if_true, hval, fromLarge, dif_pos hi]
    rfl

theorem rWord_of_at {w : Word63} (hat : At s p (wordEncode w.1)) (hp : h.pos = p)
    (hfuel : s.length < fuel) :
    rWord s fuel h = .ok (w, { h with pos := (p + (wordEncode w.1).length : ℕ) }) := by
  have hw := w.2
  rw [rWord, fWord, bind_ok (anyintLoop_of_at (by omega) hat hp hfuel)]
  have hval : fromLargeWord w.1 = w := Subtype.ext (Nat.mod_eq_of_lt hw)
  simp only [hval]
  rfl

theorem getSize_of_at {sz k : ℕ} (hpos : 0 < sz) (hsz : sz < 2 ^ 62)
    (hat : At s p (List.replicate k (Char.ofNat 0) ++ intEncode sz)) (hp : h.pos = p)
    (hfuel : s.length < fuel) {rounds : ℕ} (hrounds : k < rounds) :
    getSize s fuel rounds h = .ok (⟨sz, by omega, by omega⟩,
      { h with pos := (p + k + (intEncode sz).length : ℕ) }) := by
  induction k generalizing p h rounds with
  | zero =>
    obtain ⟨rounds, rfl⟩ := Nat.exists_eq_add_one.2 hrounds
    have hi : -2 ^ 62 ≤ (sz : ℤ) ∧ (sz : ℤ) < 2 ^ 62 := ⟨by omega, by omega⟩
    rw [getSize, bind_ok (rInt_of_at hi hat hp hfuel)]
    simp only [Nat.cast_eq_zero, hpos.ne']
    rfl
  | succ k ih =>
    obtain ⟨rounds, rfl⟩ := Nat.exists_eq_add_one.2 (Nat.zero_lt_of_lt hrounds)
    have hzero : intEncode 0 = [Char.ofNat 0] := by decide
    have hi : -2 ^ 62 ≤ (0 : ℤ) ∧ (0 : ℤ) < 2 ^ 62 := by decide
    obtain ⟨hhead, htail⟩ := at_cons.1 hat
    have hat0 : At s p (intEncode 0) := by
      exact at_cons.2 ⟨hhead, List.nil_prefix⟩
    rw [getSize, bind_ok (rInt_of_at hi hat0 hp hfuel)]
    simp only [if_true]
    rw [ih htail rfl (Nat.lt_of_succ_lt_succ hrounds)]
    simp [Nat.add_assoc, Nat.add_comm 1 k]

/-- What is between the quotes of a string is read back. -/
theorem stringLoop_of_at (str : Str) {l : Str} {rounds : ℕ}
    (hat : At s p (str.flatMap esc ++ [quote])) (hp : h.pos = p) (hrounds : str.length < rounds) :
    (rd s >>= stringLoop s rounds l) h = .ok (l.reverse ++ str,
      { h with pos := (p + (str.flatMap esc ++ [quote]).length : ℕ) }) := by
  induction str generalizing p h l rounds with
  | nil =>
    obtain ⟨rounds, rfl⟩ := Nat.exists_eq_add_one.2 hrounds
    obtain ⟨hc, _⟩ := at_cons.1 hat
    rw [bind_ok (rd_of_at hc hp), List.append_nil]
    rfl
  | cons c str ih =>
    obtain ⟨rounds, rfl⟩ := Nat.exists_eq_add_one.2 (Nat.zero_lt_of_lt hrounds)
    rw [List.flatMap_cons] at hat ⊢
    have hlt : str.length < rounds := Nat.lt_of_succ_lt_succ hrounds
    have happ : l.reverse ++ c :: str = (c :: l).reverse ++ str := by
      rw [List.reverse_cons, List.append_assoc, List.singleton_append]
    have hquote : backslash ≠ quote := by decide
    -- an escaped character follows a backslash, any other one stands for itself
    by_cases hesc : esc c = [c]
    · rw [hesc] at hat
      obtain ⟨hc, hat'⟩ := at_cons.1 hat
      have hb : c ≠ backslash := by
        rintro rfl
        exact absurd (congrArg List.length hesc) (by decide)
      have hq : c ≠ quote := by
        rintro rfl
        exact absurd (congrArg List.length hesc) (by decide)
      rw [bind_ok (rd_of_at hc hp), stringLoop, if_neg hq, if_neg hb, ih hat' rfl hlt, hesc, happ]
      simp only [List.length_cons, List.length_append, List.length_nil, List.singleton_append]
      rw [show p + 1 + ((List.flatMap esc str).length + (0 + 1)) =
        p + ((List.flatMap esc str).length + (0 + 1) + 1) by omega]
    · have hesc' : esc c = [backslash, c] := by
        rw [esc] at hesc ⊢
        split_ifs at hesc ⊢ with h₁ h₂ h₃
        · rw [h₁]
        · rw [h₂]
        · rw [h₃]
        · exact absurd rfl hesc
      rw [hesc'] at hat
      obtain ⟨hb, hat'⟩ := at_cons.1 hat
      obtain ⟨hc, hat''⟩ := at_cons.1 hat'
      rw [bind_ok (rd_of_at hb hp), stringLoop, if_neg hquote, if_pos rfl,
        bind_ok (rd_of_at hc rfl), ih hat'' rfl hlt, hesc', happ]
      simp only [List.length_cons, List.length_append, List.length_nil, List.cons_append,
        List.nil_append]
      rw [show p + 1 + 1 + ((List.flatMap esc str).length + (0 + 1)) =
        p + ((List.flatMap esc str).length + (0 + 1) + 1 + 1) by omega]

theorem intInfFromString_toString (n : ℤ) : intInfFromString (intInfToString n) = some n := by
  obtain ⟨w, hfmt, hscan⟩ := IntInf.scanString_fmt .dec (le_refl (n.natAbs + 3))
  rw [intInfToString, hfmt, intInfFromString]
  rw [hscan, Option.map_some, CoreIntInf.value_rep]

theorem intInfToString_injective : Function.Injective intInfToString := fun m n h =>
  Option.some.inj (by rw [← intInfFromString_toString, h, intInfFromString_toString])

end SmlNj.PickleUtil
