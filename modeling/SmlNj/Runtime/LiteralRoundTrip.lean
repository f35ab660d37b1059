import SmlNj.Runtime.BuildLiterals
import SmlNj.CPS.Main.LiteralAnalysis

/-!
# Reading back a literal program

The runtime's switch undoes the compiler's encoder: every instruction is read
back with its operands, from exactly the bytes that were written for it.  The one
limit is the C `int` in which the runtime keeps its position.

## Main definitions

* `image` — what the runtime reads for an instruction.
* `Fetches part op` — the bytes `part` are read as `op`, wherever they stand.

## Main results

* `fetches_encInstr` — the round trip of one instruction.
* `decode_encode_iff` — the round trip of a program holds exactly when its bytes
  can be counted by a C `int`.
-/

namespace SmlNj.BuildLiterals

open CPS LiteralBytecode TwosComplement BigEndian ExceptList

variable {R : Type}

/-- What the runtime reads for an instruction: tagged integers modulo `2 ^ 63`, raw ones modulo
`2 ^ 64`, and the bytes of a real. -/
def image (toBits : R → Real64Bits) : Instr R → Op
  | .int63 n => .int63 (unsigned 63 n)
  | .rawint64 n => .rawint64 (unsigned 64 n)
  | .str8 s => .str8 s
  | .real64 r => .real64 (toBits r).val
  | .record n => .record n
  | .rawblock n => .rawblock n
  | .mixed rep => .mixed rep
  | .vec n => .vec n
  | .save i => .save i
  | .load i => .load i
  | .ret => .ret

/-- The bytes `part` are read as `op`, wherever they stand in the code. -/
def Fetches (part : List UInt8) (op : Op) : Prop :=
  ∀ pc rest, pc + part.length ≤ INT_MAX →
    fetch ⟨pc, part ++ rest⟩ = .ok (op, ⟨pc + part.length, rest⟩)

/-! ### Arguments -/

theorem addInt8_eq (n : ℤ) : addInt8 n = bytes 1 n := by simp [addInt8]

theorem addInt16_eq (n : ℤ) : addInt16 n = bytes 2 n := by simp [addInt16]

theorem addInt32_eq (n : ℤ) : addInt32 n = bytes 4 n := by simp [addInt32]

theorem addInt64_eq (n : ℤ) : addInt64 n = bytes 8 n := by simp [addInt64, addInt32]

variable {pc n k i : ℕ} {opc oph : UInt8} {op : Op} {push : ℕ → Op} {part : List UInt8}
  {toBits : R → Real64Bits} {code : List (Instr R)} {parts : List (List UInt8)} {α : Type}

theorem getByte_cons {b : UInt8} {rest : List UInt8} (h : pc < INT_MAX) :
    getByte ⟨pc, b :: rest⟩ = .ok (b, ⟨pc + 1, rest⟩) := by
  simp [getByte, h]

theorem getBytes_append (bs rest : List UInt8) (h : pc + bs.length ≤ INT_MAX) :
    getBytes bs.length ⟨pc, bs ++ rest⟩ = .ok (bs, ⟨pc + bs.length, rest⟩) := by
  induction bs generalizing pc with
  | nil => rfl
  | cons b bs ih =>
    rw [List.length_cons] at h ⊢
    rw [getBytes, List.cons_append, getByte_cons (by omega)]
    simp only [ok_bind]
    rw [ih (by omega)]
    simp only [ok_bind, Except.ok.injEq, Prod.mk.injEq, Reader.mk.injEq, and_true, true_and]
    omega

theorem getUArg_bytes (n : ℕ) (x : ℤ) (rest : List UInt8) (h : pc + n ≤ INT_MAX) :
    getUArg n ⟨pc, bytes n x ++ rest⟩ = .ok (unsigned (8 * n) x, ⟨pc + n, rest⟩) := by
  have hb := getBytes_append (bytes n x) rest (by simpa using h : pc + (bytes n x).length ≤ INT_MAX)
  rw [length_bytes] at hb
  simp [getUArg, hb, ok_bind, value_bytes]

theorem getIArg_bytes (n : ℕ) (x : ℤ) (rest : List UInt8) (h : pc + n ≤ INT_MAX) :
    getIArg n ⟨pc, bytes n x ++ rest⟩ = .ok (signed (8 * n) x, ⟨pc + n, rest⟩) := by
  have hb := getBytes_append (bytes n x) rest (by simpa using h : pc + (bytes n x).length ≤ INT_MAX)
  rw [length_bytes] at hb
  simp [getIArg, hb, ok_bind, signed_value_bytes]

theorem toNat_unsigned (h : k < 2 ^ n) : (unsigned n (k : ℤ)).toNat = k := by
  have hp : Pattern n (k : ℤ) := ⟨Int.natCast_nonneg k, by exact_mod_cast h⟩
  rw [unsigned_of_pattern hp, Int.toNat_natCast]

theorem toInt_natCast (h : n ≤ INT_MAX) : toInt (n : ℤ) = n := by
  unfold INT_MAX at h
  refine signed_of_bounds (by decide) ?_ ?_
  · norm_num
  · norm_num
    omega

/-! ### The forms of an instruction

An opcode byte is read, and the switch does the rest. -/

theorem fetches_of_switch {args : List UInt8} (h : ∀ pc rest, pc + args.length ≤ INT_MAX →
      switch opc.toNat ⟨pc, args ++ rest⟩ = .ok (op, ⟨pc + args.length, rest⟩)) :
    Fetches (opc :: args) op := by
  intro pc rest hpc
  rw [List.length_cons] at hpc ⊢
  rw [fetch, List.cons_append, getByte_cons (by omega)]
  simp only [ok_bind]
  rw [h (pc + 1) rest (by omega)]
  simp only [Except.ok.injEq, Prod.mk.injEq, Reader.mk.injEq, and_true, true_and]
  omega

theorem fetches_byte {x : ℤ} (h0 : 0 ≤ x) (h1 : x < 256) (h : ∀ r, switch x.toNat r = .ok (op, r)) :
    Fetches [byteOf x] op := by
  refine fetches_of_switch fun pc rest _ => ?_
  rw [toNat_byteOf_of_lt h0 h1]
  exact h _

theorem fetches_iarg {push : ℤ → Op} {n : ℤ} (h : ∀ r, switch opc.toNat r = withIArg k push r) :
    Fetches (opc :: bytes k n) (push (signed (8 * k) n)) := by
  refine fetches_of_switch fun pc rest hpc => ?_
  rw [length_bytes] at hpc ⊢
  simp [h, withIArg, getIArg_bytes k n rest hpc, ok_bind]

theorem fetches_uarg (hn : n < 2 ^ (8 * k)) (h : ∀ r, switch opc.toNat r = withUArg k push r) :
    Fetches (opc :: bytes k n) (push n) := by
  refine fetches_of_switch fun pc rest hpc => ?_
  rw [length_bytes] at hpc ⊢
  simp [h, withUArg, getUArg_bytes k n rest hpc, ok_bind, toNat_unsigned hn]

theorem fetches_uargs {m : ℕ} {p : ℕ → ℕ → Op} (hm : m < 2 ^ (8 * k)) (hn : n < 2 ^ (8 * k))
    (h : ∀ r, switch opc.toNat r = withUArgs k p r) :
    Fetches (opc :: (bytes k m ++ bytes k n)) (p m n) := by
  refine fetches_of_switch fun pc rest hpc => ?_
  rw [List.length_append, length_bytes, length_bytes] at hpc
  rw [h, withUArgs]
  simp [getUArg_bytes k m (bytes k n ++ rest) (show pc + k ≤ INT_MAX by omega),
    getUArg_bytes k n rest (show pc + k + k ≤ INT_MAX by omega), ok_bind,
    toNat_unsigned hm, toNat_unsigned hn, add_assoc]

/-! ### The round trip of one instruction -/

theorem signed_arg (hn : 0 < n) {x : ℤ} (h : -2 ^ (n - 1) ≤ x ∧ x ≤ 2 ^ (n - 1) - 1) :
    signed n x = x :=
  signed_of_bounds hn h.1 (by omega)

theorem fetches_encInt {op0 opNeg : ℤ} {opb opw opl : UInt8} {push : ℤ → Op} {n : ℤ}
    (hop0 : 0 ≤ op0 ∧ op0 + 31 < 256) (hopNeg : 32 ≤ opNeg ∧ opNeg ≤ 256)
    (h0 : ∀ r, 0 ≤ n → n ≤ 31 → switch (op0 + n).toNat r = .ok (push n, r))
    (hneg : ∀ r, n < 0 → n ≥ -32 → switch (opNeg + n).toNat r = .ok (push n, r))
    (hb : ∀ r, switch opb.toNat r = withIArg 1 push r)
    (hh : ∀ r, switch oph.toNat r = withIArg 2 push r)
    (hw : ∀ r, switch opw.toNat r = withIArg 4 push r)
    (hl : ∀ r, switch opl.toNat r = withIArg 8 push r) (hpush : push (signed 64 n) = push n) :
    Fetches (encInt op0 opNeg opb oph opw opl n) (push n) := by
  unfold encInt
  split_ifs with h1 h2 h3 h4 h5
  · exact fetches_byte (by omega) (by omega) fun r => h0 r h1.1 h1.2
  · exact fetches_byte (by omega) (by omega) fun r => hneg r h2.1 h2.2
  · have hf := fetches_iarg (n := n) hb
    rwa [signed_arg (by decide) h3, ← addInt8_eq] at hf
  · have hf := fetches_iarg (n := n) hh
    rwa [signed_arg (by decide) h4, ← addInt16_eq] at hf
  · have hf := fetches_iarg (n := n) hw
    rwa [signed_arg (by decide) h5, ← addInt32_eq] at hf
  · have hf := fetches_iarg (n := n) hl
    rwa [← addInt64_eq, hpush] at hf

theorem fetches_encINT63 (n : ℤ) : Fetches (encINT63 n) (pushTaggedInt n) := by
  refine fetches_encInt (by decide) (by decide) (fun r h0 h1 => ?_) (fun r h0 h1 => ?_)
    (fun _ => rfl) (fun _ => rfl) (fun _ => rfl) (fun _ => rfl) ?_
  · have hn : ((0 + n).toNat : ℤ) = n := by omega
    rw [switch, if_pos (by omega), hn]
  · have hn : ((0x40 + n).toNat : ℤ) - 64 = n := by omega
    rw [switch, if_neg (by omega), if_pos (by omega), hn]
  · rw [pushTaggedInt, unsigned_signed (by decide), pushTaggedInt]

theorem fetches_encINT64 (n : ℤ) : Fetches (encINT64 n) (pushRawInt64 n) := by
  refine fetches_encInt (by decide) (by decide) (fun r h0 h1 => ?_) (fun r h0 h1 => ?_)
    (fun _ => rfl) (fun _ => rfl) (fun _ => rfl) (fun _ => rfl) ?_
  · have hn : ((0x40 + n).toNat : ℤ) - 64 = n := by omega
    rw [switch, if_neg (by omega), if_neg (by omega), if_pos (by omega), hn]
  · have hn : ((0x80 + n).toNat : ℤ) - 128 = n := by omega
    rw [switch, if_neg (by omega), if_neg (by omega), if_neg (by omega), if_pos (by omega), hn]
  · rw [pushRawInt64, unsigned_signed le_rfl, pushRawInt64]

theorem fetches_encSize {op : ℤ} {opb : UInt8} (hop : 0 ≤ op ∧ op + 14 < 256)
    (h0 : ∀ r, n ≤ 14 → switch (op + n).toNat r = .ok (push n, r))
    (hb : ∀ r, switch opb.toNat r = withUArg 1 push r)
    (hh : ∀ r, switch oph.toNat r = withUArg 2 push r) (henc : encSize op opb oph n = .ok part) :
    Fetches part (push n) := by
  unfold encSize at henc
  split_ifs at henc with h1 h2 h3
  · cases henc
    exact fetches_byte (by omega) (by omega) fun r => h0 r h1
  · cases henc
    rw [addInt8_eq]
    exact fetches_uarg (by omega) hb
  · cases henc
    rw [addInt16_eq]
    exact fetches_uarg (by omega) hh

theorem fetches_encRECORD (hn : 0 < n) (h : encRECORD n = .ok part) : Fetches part (.record n) := by
  refine fetches_encSize (by decide) (fun r h1 => ?_) (fun _ => rfl) (fun _ => rfl) h
  interval_cases n <;> rfl

theorem fetches_encRAW (hn : 0 < n) (h : encRAW n = .ok part) : Fetches part (.rawblock n) := by
  refine fetches_encSize (by decide) (fun r h1 => ?_) (fun _ => rfl) (fun _ => rfl) h
  interval_cases n <;> rfl

theorem fetches_encMIXED {rep : RecordRep} (h : encMIXED rep = .ok part) :
    Fetches part (.mixed rep) := by
  unfold encMIXED at h
  split_ifs at h with h1 h2
  · cases h
    rw [addInt8_eq, addInt8_eq]
    exact fetches_uargs (p := fun m n => .mixed ⟨m, n⟩) (by omega) (by omega) fun _ => rfl
  · cases h
    rw [addInt16_eq, addInt16_eq]
    exact fetches_uargs (p := fun m n => .mixed ⟨m, n⟩) (by omega) (by omega) fun _ => rfl

theorem fetches_encVEC (h : encVEC n = .ok part) : Fetches part (.vec n) := by
  unfold encVEC at h
  split_ifs at h with h0 h1 h2
  · cases h
    subst h0
    exact fetches_of_switch fun _ _ _ => rfl
  · cases h
    rw [addInt8_eq]
    exact fetches_uarg (by omega) fun _ => rfl
  · cases h
    rw [addInt16_eq]
    exact fetches_uarg (by omega) fun _ => rfl

theorem fetches_encSlot {op : ℤ} (hi : i < 65536) (hop : 0 ≤ op ∧ op + 6 < 256)
    (h0 : ∀ r, i ≤ 6 → switch (op + i).toNat r = .ok (push i, r))
    (hh : ∀ r, switch oph.toNat r = withUArg 2 push r) : Fetches (encSlot op oph i) (push i) := by
  unfold encSlot
  split_ifs with h1
  · exact fetches_byte (by omega) (by omega) fun r => h0 r h1
  · rw [addInt16_eq]
    exact fetches_uarg (by omega) hh

theorem fetches_encSAVE (hi : i < 65536) : Fetches (encSAVE i) (.save i) := by
  refine fetches_encSlot hi (by decide) (fun r h => ?_) fun _ => rfl
  interval_cases i <;> rfl

theorem fetches_encLOAD (hi : i < 65536) : Fetches (encLOAD i) (.load i) := by
  refine fetches_encSlot hi (by decide) (fun r h => ?_) fun _ => rfl
  interval_cases i <;> rfl

theorem fetches_encREAL64 (toBits : R → Real64Bits) (r : R) :
    Fetches (encREAL64 toBits r) (.real64 (toBits r).val) := by
  have hlen := (toBits r).property
  refine fetches_of_switch fun pc rest hpc => ?_
  have hb := getBytes_append (toBits r).val rest hpc
  rw [hlen] at hb ⊢
  show (getBytes 8 _ >>= _) = _
  rw [hb]
  rfl

theorem fetches_string {s : SmlString} (hs : s.length ≤ INT_MAX → s.length < 2 ^ (8 * k))
    (h : ∀ r, switch opc.toNat r = withLength k r) :
    Fetches (opc :: (bytes k s.length ++ s)) (.str8 s) := by
  refine fetches_of_switch fun pc rest hpc => ?_
  rw [List.length_append, length_bytes] at hpc
  have hmax : s.length ≤ INT_MAX := by omega
  have hpat : Pattern (8 * k) (s.length : ℤ) :=
    ⟨Int.natCast_nonneg _, by exact_mod_cast hs hmax⟩
  have hint := toInt_natCast hmax
  have harg := getUArg_bytes k s.length (s ++ rest) (show pc + k ≤ INT_MAX by omega)
  have hbs := getBytes_append s rest (show pc + k + s.length ≤ INT_MAX by omega)
  rw [unsigned_of_pattern hpat] at harg
  have hpush : pushString (s.length : ℤ) ⟨pc + k, s ++ rest⟩ =
      .ok (.str8 s, ⟨pc + k + s.length, rest⟩) := by
    have hneg : ¬ (s.length : ℤ) < 0 := by omega
    rw [pushString, hint, if_neg hneg, Int.toNat_natCast, hbs, ok_bind]
  rw [List.append_assoc, h, withLength, harg, ok_bind]
  show pushString _ _ = _
  rw [hpush, List.length_append, length_bytes, add_assoc]

theorem fetches_encSTR8 (s : SmlString) : Fetches (encSTR8 s) (.str8 s) := by
  cases s with
  | nil => exact fetches_of_switch fun _ _ _ => rfl
  | cons b bs =>
    generalize hs : b :: bs = s
    have henc : encSTR8 s = (if s.length ≤ 255 then 0x89 :: addInt8 s.length
        else if s.length < 65535 then 0x8A :: addInt16 s.length
        else 0x8B :: addInt32 s.length) ++ s := by
      rw [← hs]; rfl
    rw [henc]
    split_ifs with h1 h2
    · rw [addInt8_eq]
      exact fetches_string (fun _ => by omega) fun _ => rfl
    · rw [addInt16_eq]
      exact fetches_string (fun _ => by omega) fun _ => rfl
    · rw [addInt32_eq]
      exact fetches_string (fun hm => by rw [INT_MAX] at hm; omega) fun _ => rfl

/-- **The round trip of one instruction.** -/
theorem fetches_encInstr {i : Instr R} (hi : Sized i) (h : encInstr toBits i = .ok part) :
    Fetches part (image toBits i) := by
  cases i with
  | int63 n => cases h; exact fetches_encINT63 n
  | rawint64 n => cases h; exact fetches_encINT64 n
  | str8 s => cases h; exact fetches_encSTR8 s
  | real64 r => cases h; exact fetches_encREAL64 toBits r
  | record n => exact fetches_encRECORD hi h
  | rawblock n => exact fetches_encRAW hi h
  | mixed rep => exact fetches_encMIXED h
  | vec n => exact fetches_encVEC h
  | save i => cases h; exact fetches_encSAVE hi
  | load i => cases h; exact fetches_encLOAD hi
  | ret => cases h; exact fetches_of_switch fun _ _ _ => rfl

/-! ### The round trip of a program -/

theorem Fetches.length_pos (h : Fetches part op) : 0 < part.length := by
  rcases part with _ | ⟨b, bs⟩
  · have := h 0 [] (Nat.zero_le _)
    cases this
  · exact Nat.succ_pos _

theorem image_eq_ret {i : Instr R} : image toBits i = .ret ↔ i = .ret := by
  cases i <;> simp [image]

/-- What the runtime reads for a program whose instructions were written as `parts`. -/
def trace (toBits : R → Real64Bits) (code : List (Instr R)) (parts : List (List UInt8)) :
    List (Op × ℕ) :=
  (code.map (image toBits)).zip (parts.map List.length)

theorem decodeInstrs_flatten (hr : Returns code) (hs : ∀ i ∈ code, Sized i)
    (hp : List.Forall₂ (fun i part => encInstr toBits i = .ok part) code parts) {fuel : ℕ}
    (hpc : pc + parts.flatten.length ≤ INT_MAX) (hfuel : parts.flatten.length ≤ fuel) :
    decodeInstrs fuel ⟨pc, parts.flatten⟩ = .ok (trace toBits code parts) := by
  obtain ⟨init, rfl, hinit⟩ := hr
  induction init generalizing parts pc fuel with
  | nil =>
    obtain ⟨part, parts', hpart, hps, rfl⟩ := List.forall₂_cons_left_iff.mp hp
    rw [List.forall₂_nil_left_iff.mp hps] at *
    have hf := fetches_encInstr (hs .ret (by simp)) hpart
    have hpos := hf.length_pos
    rw [List.flatten_cons, List.flatten_nil] at *
    rw [List.append_nil] at hpc hfuel
    obtain ⟨fuel, rfl⟩ : ∃ k, fuel = k + 1 := ⟨fuel - 1, by omega⟩
    rw [decodeInstrs, hf pc [] hpc, ok_bind]
    simp [image, trace]
  | cons i init ih =>
    obtain ⟨part, parts', hpart, hps, rfl⟩ := List.forall₂_cons_left_iff.mp hp
    have hf := fetches_encInstr (hs i (by simp)) hpart
    have hpos := hf.length_pos
    have hne : image toBits i ≠ .ret := fun h => hinit i (by simp) (image_eq_ret.mp h)
    rw [List.flatten_cons, List.length_append] at hpc hfuel
    obtain ⟨fuel, rfl⟩ : ∃ k, fuel = k + 1 := ⟨fuel - 1, by omega⟩
    have hrest : decodeInstrs fuel ⟨pc + part.length, parts'.flatten⟩ =
        .ok (trace toBits (init ++ [.ret]) parts') :=
      ih (by omega) (by omega) (fun j hj => hinit j (List.mem_cons_of_mem _ hj))
        (fun j hj => hs j (List.mem_cons_of_mem _ hj)) hps
    rw [List.flatten_cons, decodeInstrs, hf pc _ (by omega)]
    simp only [hne, hrest, ok_bind]
    simp [trace]

theorem toInt_unsigned (x : ℤ) : toInt (unsigned 32 x) = toInt x := signed_emod 32 x

theorem length_headerToBytes (st : Stats) : (headerToBytes st).length = 16 := rfl

theorem decodeHeader_headerToBytes (st : Stats) (body : List UInt8) :
    decodeHeader ⟨0, headerToBytes st ++ body⟩ =
      .ok (⟨toInt st.maxDepth, toInt st.maxSaved⟩, ⟨16, body⟩) := by
  have hmax : (16 : ℕ) ≤ INT_MAX := by decide
  have hmagic : unsigned (8 * 4) magicV3 = V3_MAGIC := by decide
  have h64 : unsigned (8 * 4) (Target.mlValueSz : ℤ) = 64 := by decide
  have hbytes : headerToBytes st ++ body = bytes 4 magicV3 ++ (bytes 4 st.maxDepth ++
      (bytes 4 Target.mlValueSz ++ (bytes 4 st.maxSaved ++ body))) := by
    simp [headerToBytes, addInt32_eq]
  rw [hbytes, decodeHeader, getUArg_bytes _ _ _ (by omega), ok_bind]
  simp only
  rw [getUArg_bytes _ _ _ (by omega), ok_bind, hmagic, if_neg (by decide)]
  rw [getUArg_bytes _ _ _ (by omega), ok_bind, h64]
  rw [getUArg_bytes _ _ _ (by omega), ok_bind]
  simp [toInt_unsigned]

/-! ### The program counter stays a C `int` -/

/-- A reader that does not move backwards, or past the largest C `int`. -/
def Advances {α : Type} (f : Reader → Except Fault (α × Reader)) : Prop :=
  ∀ r a r', f r = .ok (a, r') → r.pc ≤ r'.pc ∧ (r.pc ≤ INT_MAX → r'.pc ≤ INT_MAX)

theorem advances_ok (a : α) : Advances fun r => .ok (a, r) := by
  intro r a' r' h
  cases h
  exact ⟨le_rfl, id⟩

theorem advances_error (e : Fault) : Advances fun _ => (.error e : Except Fault (α × Reader)) := by
  intro r a r' h
  cases h

theorem Advances.bind {β : Type} {f : Reader → Except Fault (α × Reader)}
    {g : α → Reader → Except Fault (β × Reader)} (hf : Advances f) (hg : ∀ a, Advances (g a)) :
    Advances fun r => f r >>= fun p => g p.1 p.2 := by
  intro r b r'' h
  obtain ⟨⟨a, r'⟩, ha, hb⟩ := bind_eq_ok.mp h
  obtain ⟨h1, h2⟩ := hf r a r' ha
  obtain ⟨h3, h4⟩ := hg a r' b r'' hb
  exact ⟨h1.trans h3, h4 ∘ h2⟩

theorem advances_getByte : Advances getByte := by
  intro r b r' h
  unfold getByte at h
  split at h
  · cases h
  · split at h
    · next hlt =>
      cases h
      exact ⟨Nat.le_succ _, fun _ => hlt⟩
    · cases h

theorem advances_getBytes (n : ℕ) : Advances (getBytes n) := by
  induction n with
  | zero => exact advances_ok []
  | succ n ih => exact advances_getByte.bind fun b => ih.bind fun bs => advances_ok (b :: bs)

theorem advances_getUArg (n : ℕ) : Advances (getUArg n) :=
  (advances_getBytes n).bind fun bs => advances_ok (value bs)

theorem advances_getIArg (n : ℕ) : Advances (getIArg n) :=
  (advances_getBytes n).bind fun bs => advances_ok (signed (8 * n) (value bs))

theorem advances_pushString (len : ℤ) : Advances (pushString len) := by
  unfold pushString
  by_cases h : toInt len < 0
  · simp only [h]
    exact advances_error _
  · simp only [h]
    exact (advances_getBytes _).bind fun bs => advances_ok (Instr.str8 bs)

theorem advances_withIArg (n : ℕ) (push : ℤ → Op) : Advances (withIArg n push) :=
  (advances_getIArg n).bind fun i => advances_ok (push i)

theorem advances_withUArg (n : ℕ) (push : ℕ → Op) : Advances (withUArg n push) :=
  (advances_getUArg n).bind fun i => advances_ok (push i.toNat)

theorem advances_withUArgs (n : ℕ) (push : ℕ → ℕ → Op) : Advances (withUArgs n push) :=
  (advances_getUArg n).bind fun i => (advances_getUArg n).bind fun j =>
    advances_ok (push i.toNat j.toNat)

theorem advances_withLength (n : ℕ) : Advances (withLength n) :=
  (advances_getUArg n).bind fun len => advances_pushString len

theorem advances_switchTable (opcode : ℕ) : Advances (switchTable opcode) := by
  intro r op r' h
  unfold switchTable at h
  split at h
  all_goals first
    | exact advances_withIArg _ _ _ _ _ h
    | exact advances_withUArg _ _ _ _ _ h
    | exact advances_withUArgs _ _ _ _ _ h
    | exact advances_withLength _ _ _ _ h
    | exact (advances_getBytes 8).bind (fun bs => advances_ok (Instr.real64 bs)) _ _ _ h
    | exact advances_ok _ _ _ _ h
    | exact advances_error _ _ _ _ h

theorem advances_switch (opcode : ℕ) : Advances (switch opcode) := by
  intro r op r' h
  unfold switch at h
  split_ifs at h
  all_goals first
    | exact advances_ok _ _ _ _ h
    | exact advances_switchTable _ _ _ _ h

theorem advances_fetch : Advances fetch :=
  advances_getByte.bind fun b => advances_switch b.toNat

theorem decodeInstrs_count {fuel : ℕ} {r : Reader} {ops : List (Op × ℕ)}
    (h : decodeInstrs fuel r = .ok ops) (hpc : r.pc ≤ INT_MAX) :
    r.pc + (ops.map Prod.snd).sum ≤ INT_MAX := by
  induction fuel generalizing r ops with
  | zero => cases h
  | succ fuel ih =>
    obtain ⟨⟨op, r'⟩, hf, h⟩ := bind_eq_ok.mp h
    obtain ⟨hle, hmax⟩ := advances_fetch r op r' hf
    have hpc' := hmax hpc
    simp only at h
    split at h
    · cases h
      simp only [List.map_cons, List.map_nil, List.sum_cons, List.sum_nil]
      omega
    · obtain ⟨ops', hops, h⟩ := bind_eq_ok.mp h
      cases h
      have := ih hops hpc'
      simp only [List.map_cons, List.sum_cons]
      omega

/-! ### The round trip of encoded programs -/

theorem sum_trace (hlen : code.length = parts.length) :
    ((trace toBits code parts).map Prod.snd).sum = parts.flatten.length := by
  rw [trace, List.map_snd_zip (by simp [hlen]), List.length_flatten]

theorem length_le_of_decode {st : Stats} {hdr : Header} (hlen : code.length = parts.length)
    (h : decode (headerToBytes st ++ parts.flatten) = .ok (hdr, trace toBits code parts)) :
    (headerToBytes st ++ parts.flatten).length ≤ INT_MAX := by
  unfold decode at h
  split at h
  · cases h
  · rw [decodeHeader_headerToBytes, ok_bind] at h
    obtain ⟨ops, hops, h⟩ := bind_eq_ok.mp h
    obtain ⟨-, rfl⟩ := Prod.mk.inj (Except.ok.inj h)
    have hcount := decodeInstrs_count hops (show (16 : ℕ) ≤ INT_MAX by decide)
    rw [sum_trace hlen] at hcount
    rw [List.length_append, length_headerToBytes]
    simpa only using hcount

theorem decode_of_length_le {st : Stats} (hr : Returns code) (hs : ∀ i ∈ code, Sized i)
    (hp : List.Forall₂ (fun i part => encInstr toBits i = .ok part) code parts)
    (hlen : (headerToBytes st ++ parts.flatten).length ≤ INT_MAX) :
    decode (headerToBytes st ++ parts.flatten) =
      .ok (⟨toInt st.maxDepth, toInt st.maxSaved⟩, trace toBits code parts) := by
  have hpos : 0 < parts.flatten.length := by
    obtain ⟨init, rfl, -⟩ := hr
    obtain ⟨part, hmem, hpart⟩ := forall₂_mem_left hp (x := .ret) (by simp)
    have h1 := (fetches_encInstr (hs .ret (by simp)) hpart).length_pos
    have h2 := (List.sublist_flatten_of_mem hmem).length_le
    omega
  have hpc : 16 + parts.flatten.length ≤ INT_MAX := by
    rwa [List.length_append] at hlen
  have h17 : ¬ toInt ((headerToBytes st ++ parts.flatten).length : ℤ) < 4 * 4 + 1 := by
    rw [toInt_natCast hlen, List.length_append, length_headerToBytes]
    omega
  rw [decode, if_neg h17, decodeHeader_headerToBytes, ok_bind]
  simp only
  rw [decodeInstrs_flatten hr hs hp hpc le_rfl, ok_bind]

/-- **The round trip of a program.**  The runtime reads the encoded program back, instruction by
instruction and from the bytes of each, exactly when a C `int` can count those bytes. -/
theorem decode_encode_iff (toBits : RealLit → Real64Bits) (code : List (Instr RealLit))
    (bytes : List UInt8) (hs : ∀ i ∈ code, Sized i) (h : encode toBits code = .ok bytes) :
    ∃ st code' parts, analyse code = .ok (st, code') ∧
      code'.mapM (encInstr toBits) = .ok parts ∧
      bytes = headerToBytes st ++ parts.flatten ∧
      (decode bytes = .ok (⟨toInt st.maxDepth, toInt st.maxSaved⟩, trace toBits code' parts) ↔
        bytes.length < 2 ^ 31) := by
  obtain ⟨⟨st, code'⟩, ha, h⟩ := bind_eq_ok.mp h
  obtain ⟨parts, hp, h⟩ := bind_eq_ok.mp h
  cases h
  obtain ⟨hr, hs'⟩ := analyse_ok ha hs
  have hf := mapM_eq_ok.mp hp
  have hmax : INT_MAX = 2 ^ 31 - 1 := rfl
  refine ⟨st, code', parts, ha, hp, rfl, fun hd => ?_, fun hlen => ?_⟩
  · have := length_le_of_decode hf.length_eq hd
    omega
  · exact decode_of_length_le hr hs' hf (by omega)

/-- The program that only returns the string `s`. -/
def stringProgram (s : SmlString) : List (Instr RealLit) := [.str8 s, .ret]

def zeroBits : RealLit → Real64Bits := fun _ => ⟨List.replicate 8 0, rfl⟩

theorem encode_stringProgram (s : SmlString) :
    encode zeroBits (stringProgram s) =
      .ok (headerToBytes ⟨1, 0, 2⟩ ++ [encSTR8 s, [0xFF]].flatten) := rfl

theorem sized_stringProgram (s : SmlString) : ∀ i ∈ stringProgram s, Sized i := by
  intro i hi
  rcases List.mem_cons.mp hi with rfl | hi
  · trivial
  · rw [List.mem_singleton.mp hi]
    trivial

/-- The program that returns a string of two bytes. -/
theorem decode_encode_iff_short :
    decode (headerToBytes ⟨1, 0, 2⟩ ++ [0x89, 2, 104, 105, 0xFF]) =
      .ok (⟨1, 0⟩, [(.str8 [104, 105], 4), (.ret, 1)]) := by
  obtain ⟨st, code', parts, ha, hp, -, hiff⟩ :=
    decode_encode_iff zeroBits (stringProgram [104, 105])
      (headerToBytes ⟨1, 0, 2⟩ ++ [0x89, 2, 104, 105, 0xFF]) (by decide) rfl
  cases ha
  cases hp
  exact hiff.mpr (by decide)

theorem decode_long_string {s : SmlString} (hs : 2 ^ 31 ≤ s.length) (hdr : Header) :
    decode (headerToBytes ⟨1, 0, 2⟩ ++ [encSTR8 s, [0xFF]].flatten) ≠
      .ok (hdr, trace zeroBits (stringProgram s) [encSTR8 s, [0xFF]]) := by
  intro h
  have hmax : INT_MAX = 2 ^ 31 - 1 := rfl
  have hle := length_le_of_decode (by rfl) h
  have hstr : s.length ≤ (encSTR8 s).length := by
    cases s with
    | nil => exact Nat.zero_le _
    | cons b bs => exact (List.suffix_append _ _).length_le
  rw [List.length_append, List.flatten_cons, List.length_append] at hle
  omega

/-- **A string of `2 ^ 31` bytes is encoded, but not read back.** -/
theorem decode_encode_fails :
    encode zeroBits (stringProgram (List.replicate (2 ^ 31) 97)) =
        .ok (headerToBytes ⟨1, 0, 2⟩ ++
          [encSTR8 (List.replicate (2 ^ 31) 97), [0xFF]].flatten) ∧
      (∀ i ∈ stringProgram (List.replicate (2 ^ 31) 97), Sized i) ∧
      ∀ hdr, decode (headerToBytes ⟨1, 0, 2⟩ ++
          [encSTR8 (List.replicate (2 ^ 31) 97), [0xFF]].flatten) ≠
        .ok (hdr, trace zeroBits (stringProgram (List.replicate (2 ^ 31) 97))
          [encSTR8 (List.replicate (2 ^ 31) 97), [0xFF]]) := by
  refine ⟨encode_stringProgram _, sized_stringProgram _, fun hdr => decode_long_string ?_ hdr⟩
  rw [List.length_replicate]

end SmlNj.BuildLiterals
