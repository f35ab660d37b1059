import SmlNj.System.IntInfFmt

/-!
# Pickling

The picklers that turn a value into a string.  A pickler runs over a state with
a hash-consing map, which finds a node that has been pickled before, a map of
forwarded positions, the user's map for ad-hoc sharing, the next position of
the output and the set of the positions that are shared.  It yields the codes
that identify its value in the keys of the hash-consing map, and a tree of
strings, which is flattened at the end, when it is known which nodes are to be
marked as shared.

The default integers have 63 bits and `LargeWord` has 64.

## Main definitions

* `intEncode`, `wordEncode` — the code of an integer, seven bits a byte, the
  last of which has the sign and six bits.
* `nullary`, `dollar` — the pickle of a constructor without and with arguments,
  the source's `%` and `$`.
* `ahShare`, `wLazy` — ad-hoc sharing, and thunks behind the size of their
  value.
* `wInt`, `wWord`, `wBool`, `wString`, `wIntinf`, `wList`, `wOption`, `wPair`.
* `pickle` — run a pickle on the empty state and flatten what it yields.
-/

namespace SmlNj.PickleUtil

/-- The exceptions of pickling and unpickling. -/
inductive Exn
  /-- `Chr` of `Char.chr`. -/
  | chr
  /-- `Size`, of a string that is too long. -/
  | size
  /-- `Fail`. -/
  | fail
  /-- `UnpickleUtil.Format`. -/
  | format
  /-- The bound on the rounds of a loop is used up. -/
  | outOfFuel
  deriving DecidableEq

abbrev Str := List Char

def ord (c : Char) : ℕ := c.toNat

/-- `Char.chr`. -/
def chr (i : ℤ) : Except Exn Char :=
  if 0 ≤ i ∧ i ≤ 255 then .ok (Char.ofNat i.toNat) else .error .chr

/-- `String.maxSize`, the greatest length that fits the tag of an object. -/
def maxSize : ℕ := 2 ^ 56 - 1

inductive PreResult
  | string (s : Str)
  | concat (p p' : PreResult)
  deriving DecidableEq

def preSize : PreResult → ℕ
  | .string s => s.length
  | .concat p p' => preSize p + preSize p'

def backrefChar : Char := Char.ofNat 255

def backref : PreResult := .string [backrefChar]

def sizeBackref : ℕ := 1

def nullbytes : PreResult := .string []

def byteChar (n : ℕ) : Char := Char.ofNat (n % 256)

/-- The local `r` of `anyint_encode`.  A word of 58 bits has nine digits at most. -/
def anyintDigits : ℕ → ℕ → Str → Str
  | 0, _, l => l
  | rounds + 1, n, l =>
    if n = 0 then l else anyintDigits rounds (n / 128) (byteChar (n % 128 ||| 128) :: l)

def anyintEncode (n : ℕ) (negative : Bool) : Str :=
  let lastDigit := n % 64
  let lastByte := if negative then lastDigit ||| 64 else lastDigit
  anyintDigits 9 (n / 64) [byteChar lastByte]

/-- `LargeWord.fromLargeInt`. -/
def largeWord (i : ℤ) : ℕ := (i % 2 ^ 64).toNat

def largewordEncode (n : ℕ) : Str := anyintEncode n false

def largeintEncode (i : ℤ) : Str :=
  if i ≥ 0 then anyintEncode (largeWord i) false
  else anyintEncode ((2 ^ 64 - largeWord i) % 2 ^ 64) true

def wordEncode (w : ℕ) : Str := largewordEncode w

def intEncode (i : ℤ) : Str := largeintEncode i

/-! ### Picklers -/

/-- The key of a node: its constructor, its type and the codes of its arguments. -/
abbrev Key := Str × ℤ × List ℕ

structure State (ahm : Type) where
  hcm : Key → Option ℕ
  /-- Positions that are forwarded to the node they refer to. -/
  fwdm : ℕ → Option ℕ
  ahm : ahm
  next : ℕ
  si : Finset ℕ

variable {ahm α β : Type}

abbrev Pickle (ahm : Type) := State ahm → Except Exn (List ℕ × PreResult × State ahm)

/-- The source's `&`. -/
def both (f g : Pickle ahm) : Pickle ahm := fun state => do
  let (fc, fpr, state') ← f state
  let (gc, gpr, state'') ← g state'
  return (fc ++ gc, .concat fpr gpr, state'')

def collapse (h : Pickle ahm) : List (Pickle ahm) → Pickle ahm
  | [] => h
  | ht :: tt => both h (collapse ht tt)

/-- The source's `%`: a constructor without arguments, which is written again each time. -/
def nullary (ti : ℤ) (c : Str) : Pickle ahm := fun st =>
  match st.hcm (c, ti, []) with
  | some i =>
    .ok ([i], .string c,
      { st with fwdm := Function.update st.fwdm st.next (some i), next := st.next + c.length })
  | none =>
    .ok ([st.next], .string c,
      { st with
        hcm := Function.update st.hcm (c, ti, []) (some st.next), next := st.next + c.length })

/-- The source's `$`: a constructor with its arguments.  When the same node has been pickled
before, what its arguments have put into the state is dropped, and a reference is written. -/
def dollar (ti : ℤ) (c : Str) : List (Pickle ahm) → Pickle ahm
  | [] => nullary ti c
  | plh :: plt => fun st => do
    let (codes, pr, st') ← collapse plh plt { st with next := st.next + c.length }
    match st.hcm (c, ti, codes) with
    | some i =>
      let brnum := intEncode i
      return ([i], .concat backref (.string brnum),
        { st with
          fwdm := Function.update st.fwdm st.next (some i)
          next := st.next + sizeBackref + brnum.length
          si := insert i st'.si })
    | none =>
      return ([st.next], .concat (.string c) pr,
        { st' with hcm := Function.update st'.hcm (c, ti, codes) (some st.next) })

/-- The user's map for ad-hoc sharing, as it is used at one type. -/
structure AdHoc (ahm α : Type) where
  find : ahm → α → Option ℕ
  insert : ahm → α → ℕ → ahm

def ahShare (sh : AdHoc ahm α) (w : α → Pickle ahm) (v : α) : Pickle ahm := fun st =>
  match sh.find st.ahm v with
  | some i₀ =>
    let i := (st.fwdm i₀).getD i₀
    let brnum := intEncode i
    .ok ([i], .concat backref (.string brnum),
      { st with next := st.next + sizeBackref + brnum.length, si := insert i st.si })
  | none => w v { st with ahm := sh.insert st.ahm v st.next }

def null : PreResult := .string [Char.ofNat 0]

def pad (pr : PreResult) : ℕ → PreResult
  | 0 => pr
  | n + 1 => pad (.concat null pr) n

/-- The loop of `w_lazy`: write the value behind a size of `ilen` bytes, and start again with
one byte more when that is not enough. -/
def lazyLoop (w : Pickle ahm) (st : State ahm) :
    ℕ → ℕ → ℕ → Except Exn (List ℕ × PreResult × State ahm)
  | 0, _, _ => .error .outOfFuel
  | rounds + 1, nxt, ilen => do
    let (codes, pr, state) ← w { st with next := nxt }
    let sz := preSize pr
    let ie := intEncode sz
    let iesz := ie.length
    if ilen < iesz then lazyLoop w st rounds (nxt + 1) (ilen + 1)
    else return (codes, .concat (pad (.string ie) (ilen - iesz)) pr, state)

def trialStart : ℕ := 3

/-- The size of a value is written in ten bytes at most, which bounds the rounds of the loop. -/
def wLazy (w : α → Pickle ahm) (thunk : Unit → α) : Pickle ahm := fun st =>
  lazyLoop (w (thunk ())) st 8 (st.next + trialStart) trialStart

/-! ### The types -/

abbrev Int63 := { i : ℤ // -2 ^ 62 ≤ i ∧ i < 2 ^ 62 }

abbrev Word63 := { w : ℕ // w < 2 ^ 63 }

/-- The type numbers `I`, `W`, `L`, `O`, `P`, `S` and `B`. -/
def tiI : ℤ := -1

def tiW : ℤ := -2

def tiL : ℤ := -5

def tiO : ℤ := -6

def tiP : ℤ := -7

def tiS : ℤ := -8

def tiB : ℤ := -9

def wInt (i : Int63) : Pickle ahm := nullary tiI (intEncode i)

def wWord (w : Word63) : Pickle ahm := nullary tiW (wordEncode w)

def wBool : Bool → Pickle ahm
  | true => nullary tiB ['t']
  | false => nullary tiB ['f']

abbrev Five (α : Type) := α × α × α × α × α

/-- The local `ch` of `chop5`. -/
@[grind =] def chop5Loop : List α → List (Five α) → List α × List (Five α)
  | a :: b :: c :: d :: e :: r, cl => chop5Loop r ((e, d, c, b, a) :: cl)
  | r, cl => (r.reverse, cl)

def chop5 (l : List α) : List α × List (Five α) := chop5Loop l.reverse []

/-- The local `wc` of `w_list`. -/
def wChops (w : α → Pickle ahm) : List (Five α) → Pickle ahm
  | [] => nullary tiL ['N']
  | (a, b, c, d, e) :: r => dollar tiL ['C'] [w a, w b, w c, w d, w e, wChops w r]

def wList (w : α → Pickle ahm) (l : List α) : Pickle ahm :=
  match chop5 l with
  | ([], []) => nullary tiL ['0']
  | ([a], []) => dollar tiL ['1'] [w a]
  | ([a, b], []) => dollar tiL ['2'] [w a, w b]
  | ([a, b, c], []) => dollar tiL ['3'] [w a, w b, w c]
  | ([a, b, c, d], []) => dollar tiL ['4'] [w a, w b, w c, w d]
  | ([], r) => dollar tiL ['5'] [wChops w r]
  | ([a], r) => dollar tiL ['6'] [w a, wChops w r]
  | ([a, b], r) => dollar tiL ['7'] [w a, w b, wChops w r]
  | ([a, b, c], r) => dollar tiL ['8'] [w a, w b, w c, wChops w r]
  | ([a, b, c, d], r) => dollar tiL ['9'] [w a, w b, w c, w d, wChops w r]
  | _ => fun _ => .error .fail

def wOption (w : α → Pickle ahm) : Option α → Pickle ahm
  | none => nullary tiO ['n']
  | some i => dollar tiO ['s'] [w i]

def wPair (wa : α → Pickle ahm) (wb : β → Pickle ahm) : α × β → Pickle ahm
  | (a, b) => dollar tiP ['p'] [wa a, wb b]

/-- The pickle that makes `$` believe that a string has arguments. -/
def dummyPickle : Pickle ahm := fun state => .ok ([], nullbytes, state)

def backslash : Char := Char.ofNat 92

def quote : Char := Char.ofNat 34

/-- The local `esc` of `w_string`. -/
def esc (c : Char) : Str :=
  if c = backslash then [backslash, backslash]
  else if c = quote then [backslash, quote]
  else if c = backrefChar then [backslash, backrefChar]
  else [c]

def quoted (s : Str) : Str := quote :: (s.flatMap esc ++ [quote])

def wString (s : Str) : Pickle ahm := dollar tiS (quoted s) [dummyPickle]

/-- `IntInf.toString`. -/
def intInfToString (n : ℤ) : Str :=
  match IntInf.fmt (n.natAbs + 3) .dec (CoreIntInf.rep n) with
  | .ok s => s
  | .error _ => []

def wIntinf (n : ℤ) : Pickle ahm := wString (intInfToString n)

/-! ### Flattening -/

/-- Put a string in front of those that follow it, and mark it when it is the next one that is
shared. -/
def add : Str → ℕ → ℕ → List ℕ → List Str → Except Exn (ℕ × List ℕ × List Str)
  | [], p, h, t, l => .ok (p, h :: t, l)
  | c :: s, p, h, t, l =>
    let len := s.length + 1
    let p' := p - len
    if p' = h then do
      let fst ← chr (ord c + 128)
      if len > 1 then return (p', t, [fst] :: s :: l) else return (p', t, [fst] :: l)
    else .ok (p', h :: t, (c :: s) :: l)

/-- A weight that decreases when a concatenation is rotated to the left. -/
def weight : PreResult → ℕ
  | .string _ => 1
  | .concat x y => weight x + 2 * weight y

theorem weight_pos : ∀ pr, 0 < weight pr
  | .string _ => Nat.one_pos
  | .concat x _ => Nat.add_pos_left (weight_pos x) _

/-- Flattening when no shared position is left. -/
def fflat : PreResult → List Str → List Str
  | .string s, l => s :: l
  | .concat x (.string s), l => fflat x (s :: l)
  | .concat x (.concat y z), l => fflat (.concat (.concat x y) z) l
termination_by pr => weight pr
decreasing_by
  · simp only [weight]
    omega
  · have := weight_pos z
    simp only [weight]
    omega

/-- Flattening from the end, with the shared positions from the highest to the lowest. -/
def flat : PreResult → ℕ × List ℕ × List Str → Except Exn (List Str)
  | x, (_, [], l) => .ok (fflat x l)
  | .string s, (p, h :: t, l) => do
    let (_, _, l') ← add s p h t l
    return l'
  | .concat x (.string s), (p, h :: t, l) => do flat x (← add s p h t l)
  | .concat x (.concat y z), (p, h :: t, l) => flat (.concat (.concat x y) z) (p, h :: t, l)
termination_by pr => weight pr
decreasing_by
  · simp only [weight]
    omega
  · have := weight_pos z
    simp only [weight]
    omega

/-- `String.concat`. -/
def concatStrings (l : List Str) : Except Exn Str :=
  if l.flatten.length ≤ maxSize then .ok l.flatten else .error .size

def pr2s (pr : PreResult) (next : ℕ) (si : Finset ℕ) : Except Exn Str := do
  concatStrings (← flat pr (next, (si.sort (· ≤ ·)).reverse, []))

def pickle (emptyMap : ahm) (p : Pickle ahm) : Except Exn Str := do
  let (_, pr, st) ← p ⟨fun _ => none, fun _ => none, emptyMap, 0, ∅⟩
  pr2s pr st.next st.si

end SmlNj.PickleUtil
