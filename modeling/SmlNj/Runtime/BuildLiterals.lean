import SmlNj.CPS.Main.LiteralBytecode

/-!
# The runtime's reader and interpreter of literal bytecode

The switch with which the runtime system decodes a literal program.  The reader
keeps its position in a C `int`, which must not overflow; the code size is one as
well.  An instruction is read together with the number of bytes it took.

The loop of the runtime system that runs a literal program.  The C code only asserts that its stack
and its save area are used within the bounds of the header; here every use outside of them is an
error, and so is everything else that keeps a run from its end.

The stack items and what is made of them are parameters: the bounds do not depend on them.

## Main definitions

* `Reader` — the bytes left, and the program counter.
* `fetch` — the switch: the next instruction.
* `decode` — the header and the instructions up to the first return.
* `exec` — what one instruction does to the interpreter state.
* `interpret` — the loop.
* `buildLiterals` — the header and the loop, from the bytes of a program.
-/

namespace SmlNj.BuildLiterals

open LiteralBytecode TwosComplement BigEndian

/-- Why a literal program cannot be read. -/
inductive Fault
  /-- Too few bytes for a header: there are no literals. -/
  | noLiterals
  /-- A header of an older version of the bytecode. -/
  | oldVersion
  | die
  /-- An opcode of the runtime that the compiler has no instruction for. -/
  | unsupported
  | outOfBounds
  /-- Overflow of a C `int`. -/
  | intOverflow
  deriving DecidableEq

/-- The largest C `int`. -/
def INT_MAX : ℕ := 2 ^ 31 - 1

/-- The conversion of a number to a C `int`. -/
def toInt (x : ℤ) : ℤ := signed 32 x

/-- The position of the interpreter in its code. -/
structure Reader where
  pc : ℕ
  rest : List UInt8
  deriving DecidableEq

abbrev Op := Instr (List UInt8)

/-- `code[pc++]`. -/
def getByte (r : Reader) : Except Fault (UInt8 × Reader) :=
  match r.rest with
  | [] => .error .outOfBounds
  | b :: bs => if r.pc < INT_MAX then .ok (b, ⟨r.pc + 1, bs⟩) else .error .intOverflow

/-- Copy `n` bytes from the instruction stream. -/
def getBytes : ℕ → Reader → Except Fault (List UInt8 × Reader)
  | 0, r => .ok ([], r)
  | n + 1, r => do
      let (b, r) ← getByte r
      let (bs, r) ← getBytes n r
      .ok (b :: bs, r)

/-- An unsigned big-endian argument of `n` bytes. -/
def getUArg (n : ℕ) (r : Reader) : Except Fault (ℤ × Reader) := do
  let (bs, r) ← getBytes n r
  .ok (value bs, r)

/-- A signed big-endian argument of `n` bytes. -/
def getIArg (n : ℕ) (r : Reader) : Except Fault (ℤ × Reader) := do
  let (bs, r) ← getBytes n r
  .ok (signed (8 * n) (value bs), r)

def pushTaggedInt (n : ℤ) : Op := .int63 (unsigned 63 n)

def pushRawInt64 (n : ℤ) : Op := .rawint64 (unsigned 64 n)

/-- A string of `len` bytes, which are copied from the code. -/
def pushString (len : ℤ) (r : Reader) : Except Fault (Op × Reader) := do
  let len := toInt len
  if len < 0 then .error .intOverflow
  else
    let (bs, r) ← getBytes len.toNat r
    .ok (.str8 bs, r)

/-- An instruction with one signed argument of `n` bytes. -/
def withIArg (n : ℕ) (push : ℤ → Op) (r : Reader) : Except Fault (Op × Reader) := do
  let (i, r) ← getIArg n r
  .ok (push i, r)

/-- An instruction with one unsigned argument of `n` bytes. -/
def withUArg (n : ℕ) (push : ℕ → Op) (r : Reader) : Except Fault (Op × Reader) := do
  let (i, r) ← getUArg n r
  .ok (push i.toNat, r)

/-- An instruction with two unsigned arguments of `n` bytes. -/
def withUArgs (n : ℕ) (push : ℕ → ℕ → Op) (r : Reader) : Except Fault (Op × Reader) := do
  let (i, r) ← getUArg n r
  let (j, r) ← getUArg n r
  .ok (push i.toNat j.toNat, r)

/-- A string whose length is an unsigned argument of `n` bytes. -/
def withLength (n : ℕ) (r : Reader) : Except Fault (Op × Reader) := do
  let (len, r) ← getUArg n r
  pushString len r

/-- The arms of the switch for the opcodes that stand alone; the others are unused, or reserved
for future use. -/
def switchTable (opcode : ℕ) (r : Reader) : Except Fault (Op × Reader) :=
  match opcode with
  | 0x80 => withIArg 1 pushTaggedInt r
  | 0x81 => withIArg 2 pushTaggedInt r
  | 0x82 => withIArg 4 pushTaggedInt r
  | 0x83 => withIArg 8 pushTaggedInt r
  | 0x84 => .error .unsupported -- `REAL32`
  | 0x85 => do
      let (bs, r) ← getBytes 8 r
      .ok (.real64 bs, r)
  | 0x88 => .ok (.str8 [], r)
  | 0x89 => withLength 1 r
  | 0x8A => withLength 2 r
  | 0x8B => withLength 4 r
  | 0x9C => withIArg 1 pushRawInt64 r
  | 0x9D => withIArg 2 pushRawInt64 r
  | 0x9E => withIArg 4 pushRawInt64 r
  | 0x9F => withIArg 8 pushRawInt64 r
  | 0xAE => withUArg 1 .record r
  | 0xAF => withUArg 2 .record r
  | 0xBE => withUArg 1 .rawblock r
  | 0xBF => withUArg 2 .rawblock r
  | 0xC0 => withUArgs 1 (fun p q => .mixed ⟨p, q⟩) r
  | 0xC1 => withUArgs 2 (fun p q => .mixed ⟨p, q⟩) r
  | 0xC8 => .ok (.vec 0, r)
  | 0xC9 => withUArg 1 .vec r
  | 0xCA => withUArg 2 .vec r
  | 0xEF => withUArg 2 .save r
  | 0xF7 => withUArg 2 .load r
  | 0xFF => .ok (.ret, r)
  | _ => .error .die

/-- The switch: first the opcodes that carry an operand in their low bits. -/
def switch (opcode : ℕ) (r : Reader) : Except Fault (Op × Reader) :=
  if opcode ≤ 0x1F then .ok (pushTaggedInt opcode, r)
  else if opcode ≤ 0x3F then .ok (pushTaggedInt (opcode - 64), r)
  else if opcode ≤ 0x5F then .ok (pushRawInt64 (opcode - 64), r)
  else if opcode ≤ 0x7F then .ok (pushRawInt64 (opcode - 128), r)
  else if 0xA0 ≤ opcode ∧ opcode ≤ 0xAD then .ok (.record ((opcode &&& 0xF) + 1), r)
  else if 0xB0 ≤ opcode ∧ opcode ≤ 0xBD then .ok (.rawblock ((opcode &&& 0xF) + 1), r)
  else if 0xE8 ≤ opcode ∧ opcode ≤ 0xEE then .ok (.save (opcode &&& 0x7), r)
  else if 0xF0 ≤ opcode ∧ opcode ≤ 0xF6 then .ok (.load (opcode &&& 0x7), r)
  else switchTable opcode r

def fetch (r : Reader) : Except Fault (Op × Reader) := do
  let (opcode, r) ← getByte r
  switch opcode.toNat r

/-- The instructions up to the first return, each with the number of bytes it took.  The fuel is
at least the number of bytes left, so it only runs out with them. -/
def decodeInstrs : ℕ → Reader → Except Fault (List (Op × ℕ))
  | 0, _ => .error .outOfBounds
  | fuel + 1, r => do
      let (op, r') ← fetch r
      if op = .ret then .ok [(op, r'.pc - r.pc)]
      else
        let ops ← decodeInstrs fuel r'
        .ok ((op, r'.pc - r.pc) :: ops)

/-- The bounds read from the header. -/
structure Header where
  maxDepth : ℤ
  maxSaved : ℤ
  deriving DecidableEq

def V1_MAGIC : ℤ := 0x19981022
def V2_MAGIC : ℤ := 0x20190921
def V3_MAGIC : ℤ := 0x20260912

/-- The header block. -/
def decodeHeader (r : Reader) : Except Fault (Header × Reader) := do
  let (magic, r) ← getUArg 4 r
  let (maxDepth, r) ← getUArg 4 r
  if magic = V1_MAGIC ∨ magic = V2_MAGIC then .error .oldVersion
  else if magic ≠ V3_MAGIC then .error .die
  else
    let (wordSz, r) ← getUArg 4 r
    if wordSz ≠ 64 then .error .die
    else
      let (maxSaved, r) ← getUArg 4 r
      .ok (⟨toInt maxDepth, toInt maxSaved⟩, r)

/-- **The program that the runtime reads from its bytes.** -/
def decode (code : List UInt8) : Except Fault (Header × List (Op × ℕ)) := do
  if toInt code.length < 4 * 4 + 1 then .error .noLiterals
  else
    let (hdr, r) ← decodeHeader ⟨0, code⟩
    let ops ← decodeInstrs r.rest.length r
    .ok (hdr, ops)

/-! ## The runtime's interpreter of literal bytecode -/

open LiteralBytecode

/-- What goes wrong in a run. -/
inductive Violation
  | read (fault : Fault)
  /-- A push beyond the maximum depth of the stack. -/
  | overflow
  /-- A use of more items than the stack has. -/
  | underflow
  | badSlot
  /-- A load from a slot that has not been saved. -/
  | emptySlot
  | die
  /-- A return with another number of items on the stack than one. -/
  | badReturn
  deriving DecidableEq

/-- The largest object, in words, that is allocated in the nursery. -/
def SMALL_OBJ_SZW : ℕ := 512

/-- The interpreter state: the stack, the top first, and the save area.  A slot that has not been
saved holds the unit value, which is no literal. -/
structure State (V : Type) where
  stk : List V
  saved : ℕ → Option V

def State.init {V : Type} : State V := ⟨[], fun _ => none⟩

section Interpreter

variable {V : Type} (make : Op → List V → V) (hdr : Header)

/-- Push an item; the stack has room for `maxDepth` of them. -/
def push (v : V) (s : State V) : Except Violation (State V) :=
  if (s.stk.length : ℤ) < hdr.maxDepth then .ok ⟨v :: s.stk, s.saved⟩ else .error .overflow

/-- Make an object of the `sz` topmost items, and push it. -/
def pushObj (op : Op) (sz : ℕ) (s : State V) : Except Violation (State V) :=
  if sz ≤ s.stk.length then push hdr (make op (s.stk.take sz)) ⟨s.stk.drop sz, s.saved⟩
  else .error .underflow

/-- Make a vector of the `len` topmost items, and push it. -/
def pushVector (op : Op) (len : ℕ) (s : State V) : Except Violation (State V) :=
  if len > SMALL_OBJ_SZW then .error .die -- not implemented
  else pushObj make hdr op len s

/-- Save the item on the top of the stack. -/
def store (slot : ℕ) (s : State V) : Except Violation (State V) :=
  match s.stk with
  | [] => .error .underflow
  | v :: _ =>
      if (slot : ℤ) < hdr.maxSaved then .ok ⟨s.stk, Function.update s.saved slot (some v)⟩
      else .error .badSlot

/-- Push what has been saved. -/
def load (slot : ℕ) (s : State V) : Except Violation (State V) :=
  if (slot : ℤ) < hdr.maxSaved then
    match s.saved slot with
    | none => .error .emptySlot
    | some v => push hdr v s
  else .error .badSlot

/-- **What an instruction does**; the return is left to the loop. -/
def exec (op : Op) (s : State V) : Except Violation (State V) :=
  match op with
  | .int63 _ | .rawint64 _ | .str8 _ | .real64 _ => push hdr (make op []) s
  | .record sz | .rawblock sz => pushObj make hdr op sz s
  | .mixed rep => pushObj make hdr op (rep.ptrLen + rep.rawLen) s
  | .vec len => pushVector make hdr op len s
  | .save slot => store hdr slot s
  | .load slot => load hdr slot s
  | .ret => .ok s

def result (s : State V) : Except Violation V :=
  match s.stk with
  | [v] => .ok v
  | _ => .error .badReturn

def reading {α : Type} : Except Fault α → Except Violation α
  | .ok a => .ok a
  | .error fault => .error (.read fault)

/-- **The loop**, up to the first return.  The fuel is at least the number of bytes left, so it only
runs out with them. -/
def interpret : ℕ → Reader → State V → Except Violation V
  | 0, _, _ => .error (.read .outOfBounds)
  | fuel + 1, r, s => do
      let (op, r) ← reading (fetch r)
      if op = .ret then result s
      else
        let s ← exec make hdr op s
        interpret fuel r s

end Interpreter

/-- **The run of a literal program.** -/
def buildLiterals {V : Type} (make : Op → List V → V) (code : List UInt8) : Except Violation V := do
  if toInt code.length < 4 * 4 + 1 then .error (.read .noLiterals)
  else
    let (hdr, r) ← reading (decodeHeader ⟨0, code⟩)
    interpret make hdr r.rest.length r .init

end SmlNj.BuildLiterals
