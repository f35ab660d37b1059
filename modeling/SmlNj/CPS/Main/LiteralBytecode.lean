import SmlNj.Basics.LambdaVar
import SmlNj.Lib.ByteWords
import SmlNj.Lib.ExceptList

/-!
# The bytecode of literals

Literals are built at load time by a small stack machine.  This is the compiler's
side of it: the symbolic instructions, the analysis that checks a program, bounds
its stack and assigns its save slots, and the encoding into bytes.

Instructions are parametrised by what stands for a real number: a `RealLit` in
the compiler, its bytes in the runtime.

## Main definitions

* `Instr` — the instructions.
* `analyse` — type checking, resource bounds and slot assignment.
* `encode` — the bytes of a program.
-/

namespace SmlNj.LiteralBytecode

open CPS BigEndian

/-- The instructions of the literal machine. -/
inductive Instr (R : Type)
  | int63 (n : ℤ)
  | rawint64 (n : ℤ)
  | str8 (s : SmlString)
  | real64 (r : R)
  | record (n : ℕ)
  | rawblock (n : ℕ)
  | mixed (rep : RecordRep)
  | vec (n : ℕ)
  | save (i : ℕ)
  | load (i : ℕ)
  | ret
  deriving DecidableEq

abbrev Real64Bits := { bs : List UInt8 // bs.length = 8 }

variable {R : Type}

/-! ### Analysis -/

/-- What a stack slot holds. -/
inductive Ty
  | tag | raw | ptr
  deriving DecidableEq

def isUniform : Ty → Bool
  | .raw => false
  | _ => true

def isRaw : Ty → Bool
  | .ptr => false
  | _ => true

/-- The interval of a pseudo-slot, from its `SAVE` to its last `LOAD`. -/
structure SlotInfo where
  first : ℕ
  last : ℕ
  ty : Ty
  deriving DecidableEq

abbrev Tbl := List (ℕ × SlotInfo)

namespace Tbl

def find (tbl : Tbl) (i : ℕ) : Option SlotInfo := List.lookup i tbl

def insert (tbl : Tbl) (i : ℕ) (info : SlotInfo) : Tbl := (i, info) :: tbl

/-- `last := pc` for the slot `i`. -/
def setLast (tbl : Tbl) (i pc : ℕ) : Tbl :=
  tbl.map fun s => if s.1 = i then (s.1, { s.2 with last := pc }) else s

end Tbl

/-- Pop `n` elements off the stack, of depth `d`, while checking that they satisfy a type
predicate. -/
def popn (pred : Ty → Bool) : ℕ → List Ty → ℕ → Except Exn (List Ty × ℕ)
  | 0, stk, d => .ok (stk, d)
  | n + 1, ty :: stk, d => if pred ty then popn pred n stk (d - 1) else .error .impossible
  | _ + 1, [], _ => .error .impossible

/-- The number of instructions and the maximum stack depth of a program, and the table of its
pseudo-slots.  A program that is not well typed is a compiler bug. -/
@[grind =] def pass1 : ℕ → List (Instr R) → List Ty → ℕ → ℕ → Tbl → Except Exn (ℕ × ℕ × Tbl)
  | _, [], _, _, _, _ => .error .impossible
  | pc, opc :: code, stk, d, maxD, tbl =>
      let push ty tbl := pass1 (pc + 1) code (ty :: stk) (d + 1) (max (d + 1) maxD) tbl
      let continue_ stk' d' tbl := pass1 (pc + 1) code stk' d' maxD tbl
      match opc with
      | .int63 _ => push .tag tbl
      | .rawint64 _ => push .raw tbl
      | .str8 _ => push .ptr tbl
      | .real64 _ => push .raw tbl
      | .record n =>
          match popn isUniform n stk d with
          | .ok (stk', d') => continue_ (.ptr :: stk') (d' + 1) tbl
          | .error e => .error e
      | .rawblock n =>
          match popn isRaw n stk d with
          | .ok (stk', d') => continue_ (.ptr :: stk') (d' + 1) tbl
          | .error e => .error e
      | .mixed rep =>
          match popn isRaw rep.rawLen stk d with
          | .ok (stk', d') =>
              match popn isUniform rep.ptrLen stk' d' with
              | .ok (stk'', d'') => continue_ (.ptr :: stk'') (d'' + 1) tbl
              | .error e => .error e
          | .error e => .error e
      | .vec n =>
          match popn isUniform n stk d with
          | .ok (stk', d') => continue_ (.ptr :: stk') (d' + 1) tbl
          | .error e => .error e
      | .save i =>
          match tbl.find i, stk with
          | none, ty :: _ => continue_ stk d (tbl.insert i ⟨pc, pc, ty⟩)
          | _, _ => .error .impossible
      | .load i =>
          match tbl.find i with
          | none => .error .impossible
          | some info => push info.ty (tbl.setLast i pc)
      | .ret =>
          match code, stk with
          | [], [.ptr] => .ok (pc + 1, maxD, tbl)
          | _, _ => .error .impossible

/-! ### Slot assignment -/

/-- An interval of the work list. -/
structure Interval where
  first : ℕ
  last : ℕ
  id : ℕ
  deriving DecidableEq

/-- An active interval. -/
structure Active where
  last : ℕ
  slot : ℕ
  deriving DecidableEq

/-- Insert an interval into the active list, ordered by increasing `last` fields. -/
def addActive (active : List Active) (last slot : ℕ) : List Active :=
  match active with
  | [] => [⟨last, slot⟩]
  | item :: rest =>
      if last < item.last then ⟨last, slot⟩ :: item :: rest
      else item :: addActive rest last slot

/-- Free the slots whose last use precedes `first`. -/
def free (first : ℕ) : List Active → List ℕ → List Active × List ℕ
  | item :: rest, avail =>
      if item.last < first then free first rest (item.slot :: avail) else (item :: rest, avail)
  | [], avail => ([], avail)

/-- The linear scan: the number of slots, and the slot of each pseudo-slot. -/
def linearScan : List Interval → List Active → List ℕ → ℕ → List ℕ → ℕ × List ℕ
  | [], _, _, next, assign => (next, assign)
  | i :: wl, active, avail, next, assign =>
      let freed := free i.first active avail
      match freed.2 with
      | [] =>
          linearScan wl (addActive freed.1 i.last next) [] (next + 1) (assign.set i.id next)
      | slot :: avail =>
          linearScan wl (addActive freed.1 i.last slot) avail next (assign.set i.id slot)

/-- The initial work list; the pseudo-slots must be numbered from 0 without gaps. -/
def worklist (tbl : Tbl) (n : ℕ) : Except Exn (List Interval) :=
  (List.range n).mapM fun i =>
    match tbl.find i with
    | some info => .ok ⟨info.first, info.last, i⟩
    | none => .error .fail

def rewrite (assign : List ℕ) : Instr R → Except Exn (Instr R)
  | .save i => match assign[i]? with | some s => .ok (.save s) | none => .error .subscript
  | .load i => match assign[i]? with | some s => .ok (.load s) | none => .error .subscript
  | opcode => .ok opcode

/-- The bounds that the header announces, and the number of instructions. -/
structure Stats where
  maxDepth : ℕ
  maxSaved : ℕ
  nInstrs : ℕ
  deriving DecidableEq

/-- Slot assignment for the `SAVE` and `LOAD` instructions. -/
def assignSlots (tbl : Tbl) (code : List (Instr R)) : Except Exn (ℕ × List (Instr R)) :=
  let nPseudoSlots := tbl.length
  if nPseudoSlots ≤ 1 then .ok (nPseudoSlots, code)
  else do
    let wl ← worklist tbl nPseudoSlots
    let (maxSaved, assign) := linearScan wl [] [] 0 (List.range nPseudoSlots)
    let code ← code.mapM (rewrite assign)
    .ok (maxSaved, code)

/-- **The analysis of a program**: its bounds, and the program with its slots assigned. -/
def analyse : List (Instr R) → Except Exn (Stats × List (Instr R))
  | [.int63 0, .ret] => .ok (⟨1, 0, 2⟩, [.int63 0, .ret])
  | code => do
      let (nInstrs, maxDepth, tbl) ← pass1 0 code [] 0 0 []
      let (maxSaved, code) ← assignSlots tbl code
      .ok (⟨maxDepth, maxSaved, nInstrs⟩, code)

/-! ### Encoding -/

def magicV3 : ℤ := 0x20260912

def addInt8 (n : ℤ) : List UInt8 := [byteOf n]

def addInt16 (n : ℤ) : List UInt8 := [byteOf (n / 2 ^ 8), byteOf n]

def addInt32 (n : ℤ) : List UInt8 :=
  [byteOf (n / 2 ^ 24), byteOf (n / 2 ^ 16), byteOf (n / 2 ^ 8), byteOf n]

def addInt64 (n : ℤ) : List UInt8 :=
  [byteOf (n / 2 ^ 56), byteOf (n / 2 ^ 48), byteOf (n / 2 ^ 40), byteOf (n / 2 ^ 32)] ++
    addInt32 n

def minInt8 : ℤ := -128
def maxInt8 : ℤ := 127
def minInt16 : ℤ := -32768
def maxInt16 : ℤ := 32767
def minInt32 : ℤ := -2147483648
def maxInt32 : ℤ := 2147483647

/-- The forms of an integer, with the opcodes of one kind of integer: `op0` for zero, `opNeg`
one past minus one, and the opcodes that an 8-, 16-, 32- or 64-bit argument follows. -/
def encInt (op0 opNeg : ℤ) (opb oph opw opl : UInt8) (n : ℤ) : List UInt8 :=
  if 0 ≤ n ∧ n ≤ 31 then [byteOf (op0 + n)]
  else if n < 0 ∧ n ≥ -32 then [byteOf (opNeg + n)]
  else if minInt8 ≤ n ∧ n ≤ maxInt8 then opb :: addInt8 n
  else if minInt16 ≤ n ∧ n ≤ maxInt16 then oph :: addInt16 n
  else if minInt32 ≤ n ∧ n ≤ maxInt32 then opw :: addInt32 n
  else opl :: addInt64 n

def encINT63 : ℤ → List UInt8 := encInt 0 0x40 0x80 0x81 0x82 0x83

def encINT64 : ℤ → List UInt8 := encInt 0x40 0x80 0x9C 0x9D 0x9E 0x9F

def encREAL64 (toBits : R → Real64Bits) (r : R) : List UInt8 := 0x85 :: (toBits r).val

/-- Encode a string; unlike the encoders of sizes below, it has no upper bound. -/
def encSTR8 : SmlString → List UInt8
  | [] => [0x88]
  | s =>
      let len := s.length
      (if len ≤ 255 then 0x89 :: addInt8 len
        else if len < 65535 then 0x8A :: addInt16 len
        else 0x8B :: addInt32 len) ++ s

/-- The forms of a record size: one opcode for the sizes up to 14, starting after `op`, and the
opcodes that an 8- or 16-bit size follows. -/
def encSize (op : ℤ) (opb oph : UInt8) (len : ℕ) : Except Exn (List UInt8) :=
  if len ≤ 14 then .ok [byteOf (op + len)]
  else if len ≤ 255 then .ok (opb :: addInt8 len)
  else if len ≤ 65535 then .ok (oph :: addInt16 len)
  else .error .impossible

def encRECORD : ℕ → Except Exn (List UInt8) := encSize 0x9F 0xAE 0xAF

def encRAW : ℕ → Except Exn (List UInt8) := encSize 0xAF 0xBE 0xBF

/-- Encode the sizes of a mixed record. -/
def encMIXED (rep : RecordRep) : Except Exn (List UInt8) :=
  if rep.ptrLen ≤ 255 ∧ rep.rawLen ≤ 255 then
    .ok (0xC0 :: (addInt8 rep.ptrLen ++ addInt8 rep.rawLen))
  else if rep.ptrLen ≤ 65535 ∧ rep.rawLen ≤ 65535 then
    .ok (0xC1 :: (addInt16 rep.ptrLen ++ addInt16 rep.rawLen))
  else .error .impossible

/-- Encode the length of a vector. -/
def encVEC (len : ℕ) : Except Exn (List UInt8) :=
  if len = 0 then .ok [0xC8]
  else if len ≤ 255 then .ok (0xC9 :: addInt8 len)
  else if len ≤ 65535 then .ok (0xCA :: addInt16 len)
  else .error .impossible

def encSlot (op : ℤ) (oph : UInt8) (slot : ℕ) : List UInt8 :=
  if slot ≤ 6 then [byteOf (op + slot)] else oph :: addInt16 slot

def encSAVE : ℕ → List UInt8 := encSlot 0xE8 0xEF

def encLOAD : ℕ → List UInt8 := encSlot 0xF0 0xF7

/-- Encode an instruction. -/
def encInstr (toBits : R → Real64Bits) : Instr R → Except Exn (List UInt8)
  | .int63 n => .ok (encINT63 n)
  | .rawint64 n => .ok (encINT64 n)
  | .real64 r => .ok (encREAL64 toBits r)
  | .str8 s => .ok (encSTR8 s)
  | .record n => encRECORD n
  | .rawblock n => encRAW n
  | .mixed rep => encMIXED rep
  | .vec n => encVEC n
  | .save i => .ok (encSAVE i)
  | .load i => .ok (encLOAD i)
  | .ret => .ok [0xFF]

def headerToBytes (st : Stats) : List UInt8 :=
  addInt32 magicV3 ++ addInt32 st.maxDepth ++ addInt32 Target.mlValueSz ++ addInt32 st.maxSaved

/-- **The encoding of a program.** -/
def encode (toBits : R → Real64Bits) (code : List (Instr R)) : Except Exn (List UInt8) := do
  let (st, code) ← analyse code
  let parts ← code.mapM (encInstr toBits)
  .ok (headerToBytes st ++ parts.flatten)

end SmlNj.LiteralBytecode
