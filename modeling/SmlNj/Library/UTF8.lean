import Mathlib.Tactic

/-!
# UTF-8

Decoding by a state machine, once for the characters and once to count them, and encoding with masks
and shifts.  Characters of strings are bytes, wide characters are words.

## Main definitions

* `getWC`, `explode` — decoding; the strategy says what is done about bad sequences.
* `eatOneUTF8Char`, `size` — counting.
* `encode'`, `implode` — encoding.
-/

namespace SmlNj.UTF8

abbrev Word := BitVec 63

/-- The exceptions. -/
inductive Exn
  | Incomplete
  | Invalid
  deriving DecidableEq

/-- What to do when there is an incomplete sequence. -/
inductive DecodeStrategy
  | STRICT
  | REPLACE
  deriving DecidableEq

def w2c (w : Word) : UInt8 := UInt8.ofNat w.toNat

def ord (c : UInt8) : Word := BitVec.ofNat 63 c.toNat

def maxCodePoint : Word := 0x0010FFFF
def replacementCodePoint : Word := 0xFFFD

def mask2Byte : Word := 0x1f
def mask3Byte : Word := 0x0f
def mask4Byte : Word := 0x07

/-- Is a word in a range?  The differences are taken modulo the size of the words. -/
def inRange (minB b maxB : Word) : Bool := b - minB ≤ maxB - minB

/-! ### Decoding -/

/-- The bits of a continuation byte are added to the accumulator. -/
def addContBits (accum b : Word) : Word := accum <<< 6 ||| (0x3f &&& b)

section Decode

variable {σ : Type*} (strategy : DecodeStrategy) (getc : σ → Option (UInt8 × σ))

/-- The result of a decoder: a wide character and the rest of the input, or nothing at its end. -/
abbrev Decoded (σ : Type*) := Except Exn (Option (Word × σ))

/-- The next byte of a sequence. -/
def getByte (inS : σ) (k : Word → σ → Decoded σ) : Decoded σ :=
  match getc inS with
  | some (c, inS') => k (ord c) inS'
  | none =>
    match strategy with
    | .STRICT => .error .Incomplete
    | .REPLACE => .ok (some (replacementCodePoint, inS))

def invalid (inS : σ) : Decoded σ :=
  match strategy with
  | .STRICT => .error .Invalid
  | .REPLACE => .ok (some (replacementCodePoint, inS))

def state (minB maxB : Word) (next : σ → Word → Decoded σ) (inS : σ) (accum : Word) :
    Decoded σ :=
  getByte strategy getc inS fun b inS' =>
    if inRange minB b maxB then next inS' (addContBits accum b) else invalid strategy inS

def stateA : σ → Word → Decoded σ :=
  state strategy getc 0x80 0xbf fun inS accum => .ok (some (accum, inS))

/-- The second or third byte of a sequence of three or four bytes. -/
def stateB : σ → Word → Decoded σ := state strategy getc 0x80 0xbf (stateA strategy getc)

def stateC : σ → Word → Decoded σ := state strategy getc 0xa0 0xbf (stateA strategy getc)

def stateD : σ → Word → Decoded σ := state strategy getc 0x80 0x9f (stateA strategy getc)

def stateE : σ → Word → Decoded σ := state strategy getc 0x80 0xbf (stateB strategy getc)

def stateF : σ → Word → Decoded σ := state strategy getc 0x90 0xbf (stateB strategy getc)

def stateG : σ → Word → Decoded σ := state strategy getc 0x80 0x8f (stateB strategy getc)

/-- **The next wide character**. -/
def getWC (inS : σ) : Decoded σ :=
  match getc inS with
  | some (c, inS) =>
    let byte0 := ord c
    if byte0 ≤ 0x7f then .ok (some (byte0, inS))
    else if inRange 0xc2 byte0 0xdf then stateA strategy getc inS (byte0 &&& mask2Byte)
    else if inRange 0xe1 byte0 0xec || inRange 0xee byte0 0xef then
      stateB strategy getc inS (byte0 &&& mask3Byte)
    else if byte0 = 0xe0 then stateC strategy getc inS (byte0 &&& mask3Byte)
    else if byte0 = 0xed then stateD strategy getc inS (byte0 &&& mask3Byte)
    else if inRange 0xf1 byte0 0xf3 then stateE strategy getc inS (byte0 &&& mask4Byte)
    else if byte0 = 0xf0 then stateF strategy getc inS (byte0 &&& mask4Byte)
    else if byte0 = 0xf4 then stateG strategy getc inS (byte0 &&& mask4Byte)
    else invalid strategy inS
  | none => .ok none

def getWCStrict : σ → Decoded σ := getWC .STRICT getc

end Decode

def getc : List UInt8 → Option (UInt8 × List UInt8)
  | [] => none
  | c :: ss => some (c, ss)

def getWCFromSubstring : List UInt8 → Decoded (List UInt8) := getWCStrict getc

def eatState (minB maxB : Word) (next : List UInt8 → Except Exn (List UInt8)) :
    List UInt8 → Except Exn (List UInt8)
  | [] => .error .Incomplete
  | c :: ss => if inRange minB (ord c) maxB then next ss else .error .Invalid

def eatStateA : List UInt8 → Except Exn (List UInt8) := eatState 0x80 0xbf .ok
def eatStateB : List UInt8 → Except Exn (List UInt8) := eatState 0x80 0xbf eatStateA
def eatStateC : List UInt8 → Except Exn (List UInt8) := eatState 0xa0 0xbf eatStateA
def eatStateD : List UInt8 → Except Exn (List UInt8) := eatState 0x80 0x9f eatStateA
def eatStateE : List UInt8 → Except Exn (List UInt8) := eatState 0x80 0xbf eatStateB
def eatStateF : List UInt8 → Except Exn (List UInt8) := eatState 0x90 0xbf eatStateB
def eatStateG : List UInt8 → Except Exn (List UInt8) := eatState 0x80 0x8f eatStateB

/-- One valid character is consumed. -/
def eatOneUTF8Char : List UInt8 → Except Exn (List UInt8)
  | c :: ss =>
    let byte0 := ord c
    if byte0 ≤ 0x7f then .ok ss
    else if inRange 0xc2 byte0 0xdf then eatStateA ss
    else if inRange 0xe1 byte0 0xec || inRange 0xee byte0 0xef then eatStateB ss
    else if byte0 = 0xe0 then eatStateC ss
    else if byte0 = 0xed then eatStateD ss
    else if inRange 0xf1 byte0 0xf3 then eatStateE ss
    else if byte0 = 0xf0 then eatStateF ss
    else if byte0 = 0xf4 then eatStateG ss
    else .error .Invalid
  | [] => .ok []

/-- The encoding of a wide character is put before some characters. -/
def encode' (wc : Word) (chrs : List UInt8) : Except Exn (List UInt8) :=
  if wc ≤ 0x7f then .ok (w2c wc :: chrs)
  else if wc ≤ 0x7ff then
    .ok (w2c ((0xc0 : Word) ||| wc >>> 6) :: w2c ((0x80 : Word) ||| (wc &&& 0x3f)) :: chrs)
  else if wc ≤ 0xffff then
    .ok (w2c ((0xe0 : Word) ||| wc >>> 12) :: w2c ((0x80 : Word) ||| (wc >>> 6 &&& 0x3f)) ::
      w2c ((0x80 : Word) ||| (wc &&& 0x3f)) :: chrs)
  else if wc ≤ maxCodePoint then
    .ok (w2c ((0xf0 : Word) ||| wc >>> 18) :: w2c ((0x80 : Word) ||| (wc >>> 12 &&& 0x3f)) ::
      w2c ((0x80 : Word) ||| (wc >>> 6 &&& 0x3f)) :: w2c ((0x80 : Word) ||| (wc &&& 0x3f)) :: chrs)
  else .error .Invalid

def encode (wc : Word) : Except Exn (List UInt8) := encode' wc []

/-- **The encoding of a list of wide characters**. -/
def implode (wcs : List Word) : Except Exn (List UInt8) :=
  wcs.foldr (fun wc chrs => chrs >>= encode' wc) (.ok [])

/-! ### Whole strings -/

theorem length_lt_of_state {minB maxB : Word} {next : List UInt8 → Word → Decoded (List UInt8)}
    (hnext : ∀ ss accum wc ss', next ss accum = .ok (some (wc, ss')) → ss'.length ≤ ss.length)
    {ss : List UInt8} {accum wc : Word} {ss' : List UInt8}
    (h : state .STRICT getc minB maxB next ss accum = .ok (some (wc, ss'))) :
    ss'.length ≤ ss.length := by
  rcases ss with _ | ⟨c, ss⟩
  · cases h
  · rw [state, getByte, getc] at h
    dsimp only at h
    split at h
    · exact (hnext _ _ _ _ h).trans (Nat.le_succ _)
    · cases h

theorem length_lt_of_getWC {ss ss' : List UInt8} {wc : Word}
    (h : getWCFromSubstring ss = .ok (some (wc, ss'))) : ss'.length < ss.length := by
  have hA : ∀ ss accum wc ss', stateA .STRICT getc ss accum = .ok (some (wc, ss')) →
      ss'.length ≤ ss.length := by
    intro ss accum wc ss'
    refine length_lt_of_state fun ss accum wc ss' h => ?_
    obtain ⟨-, rfl⟩ := Prod.mk.inj (Option.some.inj (Except.ok.inj h))
    exact le_rfl
  have hB : ∀ ss accum wc ss', stateB .STRICT getc ss accum = .ok (some (wc, ss')) →
      ss'.length ≤ ss.length := fun ss accum wc ss' => length_lt_of_state hA
  rcases ss with _ | ⟨c, ss⟩
  · cases h
  · refine Nat.lt_succ_of_le ?_
    rw [getWCFromSubstring, getWCStrict, getWC, getc] at h
    dsimp only at h
    split_ifs at h
    · obtain ⟨-, rfl⟩ := Prod.mk.inj (Option.some.inj (Except.ok.inj h))
      exact le_rfl
    · exact hA _ _ _ _ h
    · exact hB _ _ _ _ h
    · exact length_lt_of_state hA h
    · exact length_lt_of_state hA h
    · exact length_lt_of_state hB h
    · exact length_lt_of_state hB h
    · exact length_lt_of_state hB h
    · cases h

theorem length_le_of_eatState {minB maxB : Word}
    {next : List UInt8 → Except Exn (List UInt8)}
    (hnext : ∀ ss ss', next ss = .ok ss' → ss'.length ≤ ss.length) {ss ss' : List UInt8}
    (h : eatState minB maxB next ss = .ok ss') : ss'.length ≤ ss.length := by
  rcases ss with _ | ⟨c, ss⟩
  · cases h
  · rw [eatState] at h
    split at h
    · exact (hnext _ _ h).trans (Nat.le_succ _)
    · cases h

theorem length_lt_of_eatOneUTF8Char {ss ss' : List UInt8} (hne : ss ≠ [])
    (h : eatOneUTF8Char ss = .ok ss') : ss'.length < ss.length := by
  have hA : ∀ ss ss', eatStateA ss = .ok ss' → ss'.length ≤ ss.length := fun ss ss' =>
    length_le_of_eatState fun ss ss' h => by
      obtain rfl := Except.ok.inj h
      exact le_rfl
  have hB : ∀ ss ss', eatStateB ss = .ok ss' → ss'.length ≤ ss.length := fun ss ss' =>
    length_le_of_eatState hA
  rcases ss with _ | ⟨c, ss⟩
  · exact absurd rfl hne
  · refine Nat.lt_succ_of_le ?_
    rw [eatOneUTF8Char] at h
    split_ifs at h
    · obtain rfl := Except.ok.inj h
      exact le_rfl
    · exact hA _ _ h
    · exact hB _ _ h
    · exact length_le_of_eatState hA h
    · exact length_le_of_eatState hA h
    · exact length_le_of_eatState hB h
    · exact length_le_of_eatState hB h
    · exact length_le_of_eatState hB h

/-- The number of characters of a substring is added to a number. -/
def len (ss : List UInt8) (n : ℕ) : Except Exn ℕ :=
  if hne : ss = [] then .ok n
  else
    match h : eatOneUTF8Char ss with
    | .error e => .error e
    | .ok ss' =>
      have : ss'.length < ss.length := length_lt_of_eatOneUTF8Char hne h
      len ss' (n + 1)
termination_by ss.length

/-- **The number of characters of a string**. -/
def size (s : List UInt8) : Except Exn ℕ := len s 0

/-- The wide characters of a substring are folded, the first one first. -/
def foldf {α : Type*} (f : Word → α → α) (ss : List UInt8) (acc : α) : Except Exn α :=
  match h : getWCFromSubstring ss with
  | .error e => .error e
  | .ok none => .ok acc
  | .ok (some (wc, ss')) =>
    have : ss'.length < ss.length := length_lt_of_getWC h
    foldf f ss' (f wc acc)
termination_by ss.length

def fold {α : Type*} (f : Word → α → α) (init : α) (s : List UInt8) : Except Exn α :=
  foldf f s init

/-- **The wide characters of a string**. -/
def explode (s : List UInt8) : Except Exn (List Word) := List.reverse <$> fold List.cons [] s

end SmlNj.UTF8
