import SmlNj.CPS.Main.LiteralMachine
import SmlNj.Runtime.LiteralRoundTrip

/-!
# The bounds of a literal program

The header of a literal program announces the depth of its stack and the number of its save slots,
and the runtime trusts both.  The analysis counts what a literal or a `LOAD` pushes, but not the
object that an instruction of no arguments makes; and it keeps the number of the pseudo-slot when
there is just one.

## Main definitions

* `depth` — the depth of the stack after some instructions.
* `Bounded` — what a program must be like for its bounds to be right.
* `Announced` — what the announced depth counts.
* `Running` — the invariant of a run.

## Main results

* `exec_accepts` — an accepted instruction keeps the bounds.
* `buildLiterals_bounded` — the run of a program that is bounded.
-/

namespace SmlNj.BuildLiterals

open CPS LiteralBytecode TwosComplement BigEndian ExceptList

variable {R : Type}

/-! ### The depth of the stack -/

def pushes : Instr R → Bool
  | .load _ => true
  | opc => (atomTy opc).isSome

def depthStep (d : ℕ) (opc : Instr R) : ℕ :=
  match blockSize opc with
  | some n => d - n + 1
  | none => if pushes opc then d + 1 else d

def depth (code : List (Instr R)) : ℕ := code.foldl depthStep 0

@[simp] theorem depth_concat (code : List (Instr R)) (opc : Instr R) :
    depth (code ++ [opc]) = depthStep (depth code) opc := by
  rw [depth, List.foldl_concat, depth]

theorem depthStep_le (d : ℕ) (opc : Instr R) : depthStep d opc ≤ d + 1 := by
  unfold depthStep
  split
  · omega
  · split <;> omega

theorem depth_le_length (code : List (Instr R)) : depth code ≤ code.length := by
  induction code using List.reverseRecOn with
  | nil => exact Nat.le_refl 0
  | append_singleton code opc ih =>
    rw [depth_concat, List.length_append, List.length_singleton]
    have := depthStep_le (depth code) opc
    omega

variable {opc : Instr R} {n m m' d d' : ℕ} {code : List (Instr R)} {tys' : List Ty}

theorem depthStep_of_pushes (h : pushes opc = true) (d : ℕ) : depthStep d opc = d + 1 := by
  cases opc <;> first | rfl | cases h

theorem depthStep_of_block (h : blockSize opc = some n) (d : ℕ) : depthStep d opc = d - n + 1 := by
  rw [depthStep, h]

theorem pushes_of_atomTy {ty : Ty} (h : atomTy opc = some ty) : pushes opc = true := by
  cases opc <;> first | rfl | cases h

theorem pushes_of_block (h : blockSize opc = some n) : pushes opc = false := by
  cases opc <;> first | rfl | cases h

/-- **What a program must be like for its bounds to be right.** -/
structure Bounded (code : List (Instr R)) : Prop where
  /-- Records and raw blocks are not empty, so that they are encoded. -/
  nonempty : ∀ n, .record n ∈ code ∨ .rawblock n ∈ code → 0 < n
  /-- A vector is small enough to be made in the nursery. -/
  vec : ∀ n, .vec n ∈ code → n ≤ SMALL_OBJ_SZW
  /-- An instruction that makes an object of no arguments does not reach a depth that literals and
  loads do not reach. -/
  empty : ∀ p opc, p ++ [opc] <+: code → blockSize opc = some 0 →
    ∃ p' opc', p' ++ [opc'] <+: code ∧ pushes opc' = true ∧
      depth (p ++ [opc]) ≤ depth (p' ++ [opc'])
  /-- When there is one pseudo-slot, its number is 0. -/
  slot : ∀ i, code.filterMap saved = [i] → i = 0

/-- **What the announced depth counts**: after the instructions `code`, the greatest depth that a
literal or a `LOAD` has reached. -/
structure Announced (code : List (Instr R)) (m : ℕ) : Prop where
  /-- It bounds what has been reached by them. -/
  push : ∀ p opc, p ++ [opc] <+: code → pushes opc = true → depth (p ++ [opc]) ≤ m
  reached : m ≤ code.length
  /-- An instruction that pops arguments does not make the stack deeper. -/
  block : ∀ p opc n, p ++ [opc] <+: code → blockSize opc = some (n + 1) →
    depth (p ++ [opc]) ≤ depth p

theorem announced_nil : Announced ([] : List (Instr R)) 0 := by
  refine ⟨fun p opc h => ?_, le_rfl, fun p opc n h => ?_⟩
  all_goals
    have := h.length_le
    simp at this

theorem prefix_concat_cases {α : Type*} {p code : List α} {a b : α} (h : p ++ [a] <+: code ++ [b]) :
    p = code ∧ a = b ∨ p ++ [a] <+: code := by
  rcases List.prefix_concat_iff.1 h with heq | h
  · obtain ⟨rfl, hab⟩ := List.append_inj' heq rfl
    exact .inl ⟨rfl, List.singleton_inj.1 hab⟩
  · exact .inr h

theorem Announced.concat (h : Announced code m) (hm : m ≤ m') (hreached : m' ≤ code.length + 1)
    (hpush : pushes opc = true → depthStep (depth code) opc ≤ m')
    (hblock : ∀ n, blockSize opc = some (n + 1) → depthStep (depth code) opc ≤ depth code) :
    Announced (code ++ [opc]) m' := by
  refine ⟨fun p opc' hp hpushes => ?_, by simpa using hreached, fun p opc' n hp hsize => ?_⟩
  · rcases prefix_concat_cases hp with ⟨rfl, rfl⟩ | hp
    · rw [depth_concat]
      exact hpush hpushes
    · exact (h.push p opc' hp hpushes).trans hm
  · rcases prefix_concat_cases hp with ⟨rfl, rfl⟩ | hp
    · rw [depth_concat]
      exact hblock n hsize
    · exact h.block p opc' n hp hsize

theorem accepts_depth {tbl : Tbl} {tys : List Ty} (h : Accepts tbl opc tys d m tys' d' m') :
    d' = depthStep d opc := by
  cases h with
  | atom hty => rw [depthStep_of_pushes (pushes_of_atomTy hty)]
  | block hsize => rw [depthStep_of_block hsize]
  | save => rfl
  | load => rfl

theorem accepts_length {tbl : Tbl} {tys : List Ty} (h : Accepts tbl opc tys d m tys' d' m') :
    tys'.length = depthStep tys.length opc := by
  cases h with
  | atom hty => rw [depthStep_of_pushes (pushes_of_atomTy hty), List.length_cons]
  | block hsize => rw [depthStep_of_block hsize, List.length_cons, List.length_drop]
  | save => rfl
  | load => rfl

/-- **The greatest depth after an accepted instruction.** -/
theorem Announced.step {tbl : Tbl} {tys : List Ty} (h : Announced code m)
    (hlen : tys.length = depth code) (hacc : Accepts tbl opc tys (depth code) m tys' d' m') :
    Announced (code ++ [opc]) m' := by
  have hdepth := depth_le_length code
  have hreached := h.reached
  cases hacc with
  | atom hty =>
    have hpush := depthStep_of_pushes (pushes_of_atomTy hty) (depth code)
    refine h.concat (le_max_right _ _) (by omega) (fun _ => ?_) fun n hsize => ?_
    · rw [hpush]
      exact le_max_left _ _
    · have hno := pushes_of_block hsize
      rw [pushes_of_atomTy hty] at hno
      cases hno
  | block hsize hn =>
    refine h.concat le_rfl (by omega) (fun hpushes => ?_) fun n hsize' => ?_
    · rw [pushes_of_block hsize] at hpushes
      cases hpushes
    · obtain rfl := Option.some.inj (hsize.symm.trans hsize')
      rw [depthStep_of_block hsize]
      omega
  | save => exact h.concat le_rfl (by omega) nofun nofun
  | load => exact h.concat (le_max_right _ _) (by omega) (fun _ => le_max_left _ _) nofun

/-- **The depth that the analysis announces.** -/
theorem pass1_announced {pre : List (Instr R)} {tys : List Ty} {tbl : Tbl} {r : ℕ × ℕ × Tbl}
    (h : pass1 pre.length code tys (depth pre) m tbl = .ok r) (hlen : tys.length = depth pre)
    (hm : Announced pre m) : Announced (pre ++ code) r.2.1 := by
  induction code generalizing pre tys m tbl with
  | nil => cases h
  | cons opc code ih =>
    by_cases hret : opc = .ret
    · subst hret
      obtain ⟨rfl, -, rfl⟩ := pass1_ret h
      exact hm.concat le_rfl (hm.reached.trans (Nat.le_succ _)) nofun nofun
    · obtain ⟨tys', d', m', hacc, h'⟩ := pass1_accepts h hret
      have hpre : pre.length + 1 = (pre ++ [opc]).length := by simp
      obtain rfl := accepts_depth hacc
      rw [hpre, ← depth_concat] at h'
      have hlen' : tys'.length = depth (pre ++ [opc]) := by
        rw [accepts_length hacc, hlen, depth_concat]
      have := ih h' hlen' (hm.step hlen hacc)
      rwa [List.append_assoc] at this

/-- **The stack of a bounded program** is nowhere deeper than announced. -/
theorem Announced.depth_le (h : Announced code m) (hb : Bounded code) {p : List (Instr R)}
    (hp : p <+: code) : depth p ≤ m := by
  induction p using List.reverseRecOn with
  | nil => exact Nat.zero_le m
  | append_singleton p opc ih =>
    have hp' := ih ((List.prefix_append p [opc]).trans hp)
    by_cases hpushes : pushes opc = true
    · exact h.push p opc hp hpushes
    · cases hsize : blockSize opc with
      | none =>
        rw [depth_concat, depthStep, hsize]
        simpa [hpushes] using hp'
      | some n =>
        rcases n with _ | n
        · obtain ⟨p', opc', hq, hpushes', hle⟩ := hb.empty p opc hp hsize
          exact hle.trans (h.push p' opc' hq hpushes')
        · exact (h.block p opc n hp hsize).trans hp'

/-! ### The save slots -/

theorem linearScan_count (wl : List Interval) (active : List Active) (avail : List ℕ) (next : ℕ)
    (assign : List ℕ) : (linearScan wl active avail next assign).1 ≤ next + wl.length := by
  induction wl generalizing active avail next assign with
  | nil => exact Nat.le_refl next
  | cons i wl ih =>
    rw [linearScan, List.length_cons]
    split
    · exact (ih _ _ _ _).trans (by omega)
    · exact (ih _ _ _ _).trans (by omega)

theorem lt_of_worklist {tbl : Tbl} {wl : List Interval} (h : worklist tbl tbl.length = .ok wl)
    {i : ℕ} (hi : i ∈ tbl.map Prod.fst) : i < tbl.length := by
  obtain ⟨-, hkeys⟩ := worklist_ok h
  have hsub : List.range tbl.length ⊆ tbl.map Prod.fst := by
    intro j hj
    obtain ⟨s, hs, rfl⟩ := hkeys j (List.mem_range.1 hj)
    exact List.mem_map_of_mem hs
  have hperm : (List.range tbl.length).Perm (tbl.map Prod.fst) :=
    (List.subperm_of_subset List.nodup_range hsub).perm_of_length_le (by simp)
  exact List.mem_range.1 (hperm.mem_iff.2 hi)

/-- **The slots that are assigned** are below the number that is announced. -/
theorem assigned_lt {code' : List (Instr R)} {tbl : Tbl} {maxSaved : ℕ} (ht : Tabled code tbl)
    (hb : Bounded code) (h : assignSlots tbl code = .ok (maxSaved, code')) :
    maxSaved ≤ code.length ∧ ∃ f, code' = code.map (Instr.mapSlot f) ∧
      ∀ i, .save i ∈ code → f i < maxSaved := by
  have hkeys : ∀ {i}, .save i ∈ code → i ∈ tbl.map Prod.fst := by
    intro i hi
    rw [ht.keys, List.mem_reverse, List.mem_filterMap]
    exact ⟨_, hi, rfl⟩
  have hlen : tbl.length = (code.filterMap saved).length := by
    have := congrArg List.length ht.keys
    rwa [List.length_map, List.length_reverse] at this
  have hle := List.length_filterMap_le saved code
  rw [assignSlots] at h
  split at h
  · -- there is at most one pseudo-slot
    obtain ⟨rfl, rfl⟩ := Prod.mk.inj (Except.ok.inj h)
    refine ⟨by omega, fun i => i, (map_mapSlot_id code).symm, fun i hi => ?_⟩
    have hmem : i ∈ code.filterMap saved := List.mem_filterMap.2 ⟨_, hi, rfl⟩
    rcases hsaves : code.filterMap saved with _ | ⟨j, _ | ⟨k, saves⟩⟩
    · rw [hsaves] at hmem
      cases hmem
    · rw [hsaves] at hmem
      rw [List.mem_singleton.1 hmem, hb.slot j hsaves, hlen, hsaves]
      exact Nat.one_pos
    · rw [hsaves] at hlen
      simp only [List.length_cons] at hlen
      omega
  · obtain ⟨wl, hwl, h⟩ := bind_eq_ok.mp h
    obtain ⟨code'', hc, h⟩ := bind_eq_ok.mp h
    obtain ⟨rfl, rfl⟩ := Prod.mk.inj (Except.ok.inj h)
    obtain ⟨hwlen, hget⟩ := worklist_get hwl
    have hcount := linearScan_count wl [] [] 0 (List.range tbl.length)
    have hids : ∀ (i : ℕ) (k : Interval), wl[i]? = some k → k.id = i := by
      intro i k hk
      obtain ⟨hi, -⟩ := List.getElem?_eq_some_iff.1 hk
      obtain ⟨info, -, hwli⟩ := hget i (by omega)
      obtain rfl := Option.some.inj (hk.symm.trans hwli)
      rfl
    have hpair : wl.Pairwise fun i j => i.id ≠ j.id := by
      refine List.pairwise_iff_getElem.2 fun i j hi hj hlt => ?_
      rw [hids i _ (List.getElem?_eq_getElem hi), hids j _ (List.getElem?_eq_getElem hj)]
      omega
    have hrange : ∀ i ∈ wl, i.id < (List.range tbl.length).length := by
      intro k hk
      obtain ⟨i, hi⟩ := List.mem_iff_getElem?.1 hk
      obtain ⟨hi', -⟩ := List.getElem?_eq_some_iff.1 hi
      rw [hids i k hi, List.length_range]
      omega
    have hempty : Scanned [] [] 0 := ⟨.nil, .nil, fun s hs => absurd hs List.not_mem_nil⟩
    refine ⟨by omega, fun i => (linearScan wl [] [] 0 (List.range tbl.length)).2.getD i 0,
      eq_map_mapSlot (mapM_eq_ok.mp hc), fun i hi => ?_⟩
    obtain ⟨info, -, hwli⟩ := hget i (lt_of_worklist hwl (hkeys hi))
    obtain ⟨slot, hlt, hslot⟩ :=
      (linearScan_slot_lt hempty hpair hrange).2 _ (List.mem_of_getElem? hwli)
    change (linearScan wl [] [] 0 (List.range tbl.length)).2.getD i 0 < _
    rw [List.getD_eq_getElem?_getD, hslot]
    exact hlt

def slotImage (i : ℕ) : ℕ := i % 65536

theorem fetches_encSlot_mod {op : ℤ} {oph : UInt8} {push : ℕ → Op} (i : ℕ)
    (hop : 0 ≤ op ∧ op + 6 < 256) (h0 : ∀ r, i ≤ 6 → switch (op + i).toNat r = .ok (push i, r))
    (hh : ∀ r, switch oph.toNat r = withUArg 2 push r) :
    Fetches (encSlot op oph i) (push (slotImage i)) := by
  unfold encSlot
  split_ifs with h1
  · have hi : slotImage i = i := Nat.mod_eq_of_lt (by omega)
    rw [hi]
    exact fetches_byte (by omega) (by omega) fun r => h0 r h1
  · refine fetches_of_switch fun pc rest hpc => ?_
    have hmod : (unsigned (8 * 2) (i : ℤ)).toNat = slotImage i := by
      rw [unsigned, slotImage]
      omega
    rw [addInt16_eq, length_bytes] at hpc ⊢
    rw [hh, withUArg, getUArg_bytes 2 i rest hpc, ok_bind]
    dsimp only
    rw [hmod]

/-- **What is read of an instruction**: its slot number modulo 2^16. -/
theorem fetches_slotImage {toBits : R → Real64Bits} {part : List UInt8}
    (hne : ∀ n, opc = .record n ∨ opc = .rawblock n → 0 < n) (h : encInstr toBits opc = .ok part) :
    Fetches part ((image toBits opc).mapSlot slotImage) := by
  cases opc with
  | save i =>
    obtain rfl := Except.ok.inj h
    refine fetches_encSlot_mod i (by decide) (fun r hi => ?_) fun _ => rfl
    interval_cases i <;> rfl
  | load i =>
    obtain rfl := Except.ok.inj h
    refine fetches_encSlot_mod i (by decide) (fun r hi => ?_) fun _ => rfl
    interval_cases i <;> rfl
  | record n =>
    have hs : Sized (.record n : Instr R) := hne n (.inl rfl)
    exact fetches_encInstr hs h
  | rawblock n =>
    have hs : Sized (.rawblock n : Instr R) := hne n (.inr rfl)
    exact fetches_encInstr hs h
  | int63 n => exact fetches_encInstr (i := .int63 n) trivial h
  | rawint64 n => exact fetches_encInstr (i := .rawint64 n) trivial h
  | str8 s => exact fetches_encInstr (i := .str8 s) trivial h
  | real64 r => exact fetches_encInstr (i := .real64 r) trivial h
  | mixed rep => exact fetches_encInstr (i := .mixed rep) trivial h
  | vec n => exact fetches_encInstr (i := .vec n) trivial h
  | ret => exact fetches_encInstr (i := .ret) trivial h

/-! ### The run -/

section Run

variable {V : Type} {make : Op → List V → V} {hdr : Header} {toBits : R → Real64Bits}
  {g : ℕ → ℕ} {tbl : Tbl} {tys : List Ty} {s : State V}

/-- **The invariant of a run**: the stack is as deep as the analysis says, and the slots of the
pseudo-slots of the table are announced and have been saved. -/
structure Running (hdr : Header) (g : ℕ → ℕ) (tbl : Tbl) (tys : List Ty) (s : State V) :
    Prop where
  depth : s.stk.length = tys.length
  live : ∀ i, tbl.find i ≠ none → (g i : ℤ) < hdr.maxSaved ∧ s.saved (g i) ≠ none

theorem running_init (hdr : Header) (g : ℕ → ℕ) : Running hdr g [] [] (State.init (V := V)) :=
  ⟨rfl, fun _ hi => absurd rfl hi⟩

theorem Running.setStk (h : Running hdr g tbl tys s) {stk : List V}
    (hlen : stk.length = tys'.length) : Running hdr g tbl tys' ⟨stk, s.saved⟩ :=
  ⟨hlen, h.live⟩

theorem push_ok (v : V) (hroom : (s.stk.length : ℤ) + 1 ≤ hdr.maxDepth) :
    push hdr v s = .ok ⟨v :: s.stk, s.saved⟩ :=
  if_pos (by omega)

theorem pushObj_ok (op : Op) {sz : ℕ} (hsz : sz ≤ s.stk.length)
    (hroom : ((s.stk.length - sz + 1 : ℕ) : ℤ) ≤ hdr.maxDepth) :
    pushObj make hdr op sz s = .ok ⟨make op (s.stk.take sz) :: s.stk.drop sz, s.saved⟩ := by
  rw [pushObj, if_pos hsz, push_ok]
  rw [List.length_drop]
  omega

theorem exec_block (hsize : blockSize opc = some n) (hvec : ∀ n, opc = .vec n → n ≤ SMALL_OBJ_SZW)
    (hn : n ≤ s.stk.length) (hroom : ((s.stk.length - n + 1 : ℕ) : ℤ) ≤ hdr.maxDepth) :
    exec make hdr ((image toBits opc).mapSlot g) s = .ok
      ⟨make ((image toBits opc).mapSlot g) (s.stk.take n) :: s.stk.drop n, s.saved⟩ := by
  cases opc with
  | record m | rawblock m =>
    obtain rfl := Option.some.inj hsize
    exact pushObj_ok _ hn hroom
  | mixed rep =>
    obtain rfl := Option.some.inj hsize
    rw [add_comm rep.rawLen] at hn hroom ⊢
    exact pushObj_ok _ hn hroom
  | vec m =>
    obtain rfl := Option.some.inj hsize
    have hle : ¬m > SMALL_OBJ_SZW := not_lt.2 (hvec m rfl)
    change pushVector make hdr _ m s = _
    rw [pushVector, if_neg hle]
    exact pushObj_ok _ hn hroom
  | _ => cases hsize

theorem exec_atom {ty : Ty} (hty : atomTy opc = some ty)
    (hroom : (s.stk.length : ℤ) + 1 ≤ hdr.maxDepth) :
    exec make hdr ((image toBits opc).mapSlot g) s =
      .ok ⟨make ((image toBits opc).mapSlot g) [] :: s.stk, s.saved⟩ := by
  cases opc <;> first | exact push_ok _ hroom | cases hty

variable (make toBits) in
/-- **An accepted instruction keeps the bounds.** -/
theorem exec_accepts (pc : ℕ) (h : Running hdr g tbl tys s)
    (hacc : Accepts tbl opc tys d m tys' d' m') (hroom : (tys'.length : ℤ) ≤ hdr.maxDepth)
    (hslot : ∀ i, opc = .save i → (g i : ℤ) < hdr.maxSaved)
    (hvec : ∀ n, opc = .vec n → n ≤ SMALL_OBJ_SZW) :
    ∃ s', exec make hdr ((image toBits opc).mapSlot g) s = .ok s' ∧
      Running hdr g (tbl.step pc tys opc) tys' s' := by
  have hdepth := h.depth
  cases hacc with
  | @atom _ ty _ _ _ hty =>
    rw [List.length_cons] at hroom
    have htbl : tbl.step pc tys opc = tbl := by
      cases opc <;> first | rfl | cases hty
    rw [htbl]
    refine ⟨_, exec_atom hty (by omega), h.setStk ?_⟩
    rw [List.length_cons, List.length_cons, hdepth]
  | block hsize hn =>
    rw [List.length_cons, List.length_drop] at hroom
    have htbl : tbl.step pc tys opc = tbl := by
      cases opc <;> first | rfl | cases hsize
    rw [htbl]
    refine ⟨_, exec_block hsize hvec (by omega) (by omega), h.setStk ?_⟩
    rw [List.length_cons, List.length_cons, List.length_drop, List.length_drop, hdepth]
  | @save i _ _ _ _ hfind =>
    obtain ⟨stk, saved⟩ := s
    rcases stk with _ | ⟨v, stk⟩
    · cases hdepth
    · have hlt := hslot i rfl
      refine ⟨⟨v :: stk, Function.update saved (g i) (some v)⟩, if_pos hlt, hdepth,
        fun j hj => ?_⟩
      change (tbl.insert i _).find j ≠ none at hj
      dsimp only
      by_cases hji : g j = g i
      · rw [hji, Function.update_self]
        exact ⟨hlt, Option.some_ne_none v⟩
      · rw [Tbl.find_insert, if_neg (fun heq => hji (by rw [heq]))] at hj
        rw [Function.update_of_ne hji]
        exact h.live j hj
  | @load i info _ _ _ hfind =>
    rw [List.length_cons] at hroom
    obtain ⟨hlt, hne⟩ := h.live i (by rw [hfind]; exact Option.some_ne_none info)
    obtain ⟨v, hv⟩ := Option.ne_none_iff_exists'.1 hne
    refine ⟨⟨v :: s.stk, s.saved⟩, ?_, ?_, fun j hj => ?_⟩
    · change load hdr (g i) s = _
      rw [load, if_pos hlt, hv]
      exact push_ok v (by omega)
    · rw [List.length_cons, List.length_cons, hdepth]
    · change (tbl.setLast i pc).find j ≠ none at hj
      rw [Tbl.find_setLast, ne_eq, Option.map_eq_none_iff] at hj
      exact h.live j hj

/-- **The run of an accepted program** returns a value. -/
theorem interpret_flatten {pre : List (Instr R)} {parts : List (List UInt8)} {r : ℕ × ℕ × Tbl}
    (hpass : pass1 pre.length code tys (depth pre) m tbl = .ok r) (hlen : tys.length = depth pre)
    (hrun : Running hdr g tbl tys s) (hroom : ∀ p, p <+: pre ++ code → (depth p : ℤ) ≤ hdr.maxDepth)
    (hslot : ∀ i, .save i ∈ code → (g i : ℤ) < hdr.maxSaved)
    (hvec : ∀ n, .vec n ∈ code → n ≤ SMALL_OBJ_SZW) (hparts : List.Forall₂
      (fun opc part => Fetches part ((image toBits opc).mapSlot g)) code parts) {pc fuel : ℕ}
    (hpc : pc + parts.flatten.length ≤ INT_MAX) (hfuel : parts.flatten.length ≤ fuel) :
    ∃ v, interpret make hdr fuel ⟨pc, parts.flatten⟩ s = .ok v := by
  induction code generalizing pre tys m tbl s parts pc fuel with
  | nil => cases hpass
  | cons opc code ih =>
    obtain ⟨part, parts, hpart, hrest, rfl⟩ := List.forall₂_cons_left_iff.1 hparts
    have hpos := hpart.length_pos
    rw [List.flatten_cons, List.length_append] at hpc hfuel
    obtain ⟨fuel, rfl⟩ : ∃ k, fuel = k + 1 := ⟨fuel - 1, by omega⟩
    have hread := hpart pc parts.flatten (by omega)
    rw [List.flatten_cons, interpret, hread, reading, ok_bind]
    by_cases hret : opc = .ret
    · subst hret
      obtain ⟨rfl, rfl, -⟩ := pass1_ret hpass
      have hone : s.stk.length = 1 := hrun.depth
      obtain ⟨v, hv⟩ := List.length_eq_one_iff.1 hone
      exact ⟨v, by simp [image, Instr.mapSlot, result, hv]⟩
    · obtain ⟨tys', d', m', hacc, hpass'⟩ := pass1_accepts hpass hret
      obtain rfl := accepts_depth hacc
      have hlen' : tys'.length = depth (pre ++ [opc]) := by
        rw [accepts_length hacc, hlen, depth_concat]
      have hprefix : pre ++ [opc] <+: pre ++ opc :: code := by
        rw [List.append_cons pre opc code]
        exact List.prefix_append _ _
      obtain ⟨s', hexec, hrun'⟩ := exec_accepts make toBits pre.length hrun hacc
        (by rw [hlen']; exact hroom _ hprefix) (fun i hi => hslot i (hi ▸ List.mem_cons_self))
        fun n hn => hvec n (hn ▸ List.mem_cons_self)
      have hne : (image toBits opc).mapSlot g ≠ .ret := by
        intro heq
        cases opc <;> first | exact hret rfl | cases heq
      have hpre : pre.length + 1 = (pre ++ [opc]).length := by simp
      rw [hpre, ← depth_concat] at hpass'
      dsimp only
      rw [if_neg hne, hexec]
      refine ih hpass' hlen' hrun' ?_ (fun i hi => hslot i (List.mem_cons_of_mem _ hi))
        (fun n hn => hvec n (List.mem_cons_of_mem _ hn)) hrest (by omega) (by omega)
      rwa [← List.append_cons]

end Run

/-! ### The run of an encoded program -/

theorem fetches_mapSlot {toBits : R → Real64Bits} {f : ℕ → ℕ} {parts : List (List UInt8)}
    (hb : Bounded code) (h : (code.map (Instr.mapSlot f)).mapM (encInstr toBits) = .ok parts) :
    List.Forall₂ (fun opc part =>
      Fetches part ((image toBits opc).mapSlot fun i => slotImage (f i))) code parts := by
  have hf := List.forall₂_map_left_iff.1 (mapM_eq_ok.1 h)
  refine forall₂_imp_mem hf fun opc hopc part _ hpart => ?_
  have hfetch : Fetches part ((image toBits (opc.mapSlot f)).mapSlot slotImage) :=
    fetches_slotImage ?_ hpart
  · have himage : (image toBits (opc.mapSlot f)).mapSlot slotImage =
        (image toBits opc).mapSlot fun i => slotImage (f i) := by
      cases opc <;> rfl
    rwa [himage] at hfetch
  · intro n hn
    refine hb.nonempty n ?_
    cases opc <;> rcases hn with hn | hn <;> cases hn
    · exact .inl hopc
    · exact .inr hopc

theorem buildLiterals_append {V : Type} (make : Op → List V → V) (st : Stats) {body : List UInt8}
    (hpos : 0 < body.length) (hlen : (headerToBytes st ++ body).length ≤ INT_MAX) :
    buildLiterals make (headerToBytes st ++ body) =
      interpret make ⟨toInt st.maxDepth, toInt st.maxSaved⟩ body.length ⟨16, body⟩ .init := by
  have h17 : ¬ toInt ((headerToBytes st ++ body).length : ℤ) < 4 * 4 + 1 := by
    rw [toInt_natCast hlen, List.length_append, length_headerToBytes]
    omega
  rw [buildLiterals, if_neg h17, decodeHeader_headerToBytes, reading, ok_bind]

/-- **The announced bounds are right** for a bounded program that is short enough for its bytes to
be counted: the run never leaves them, and ends with one value on the stack. -/
theorem buildLiterals_bounded (toBits : RealLit → Real64Bits) (code : List (Instr RealLit))
    (bytes : List UInt8) (h : encode toBits code = .ok bytes) (hb : Bounded code)
    (hlen : bytes.length < 2 ^ 31) {V : Type} (make : Op → List V → V) :
    ∃ v, buildLiterals make bytes = .ok v := by
  obtain ⟨⟨st, code'⟩, ha, h⟩ := bind_eq_ok.1 h
  obtain ⟨parts, hp, h⟩ := bind_eq_ok.1 h
  obtain rfl := Except.ok.inj h
  have hmax : INT_MAX = 2 ^ 31 - 1 := rfl
  have hlen' : (headerToBytes st ++ parts.flatten).length ≤ INT_MAX := by omega
  have hbody : 16 + parts.flatten.length ≤ INT_MAX := by
    rwa [List.length_append] at hlen'
  obtain ⟨n, tbl, ⟨hpass, hassign⟩ | ⟨rfl, rfl⟩⟩ := analyse_eq_ok ha
  · have hempty : Tabled ([] : List (Instr RealLit)) [] :=
      ⟨rfl, fun i info hi => (Option.some_ne_none info hi.symm).elim,
        fun p i hp => (Option.some_ne_none _ hp.symm).elim⟩
    have hpass' : pass1 ([] : List (Instr RealLit)).length code []
        (depth ([] : List (Instr RealLit))) 0 [] = .ok (n, st.maxDepth, tbl) := hpass
    have htbl : Tabled ([] ++ code) tbl := pass1_tabled hpass' hempty
    have hann : Announced ([] ++ code) st.maxDepth := pass1_announced hpass' rfl announced_nil
    rw [List.nil_append] at htbl hann
    obtain ⟨hcount, f, rfl, hslot⟩ := assigned_lt htbl hb hassign
    have hparts := fetches_mapSlot hb hp
    -- every instruction takes a byte, so the bounds are numbers that a C `int` can hold
    have hcode : code.length ≤ parts.flatten.length := by
      rw [hparts.length_eq]
      have hone : ∀ k ∈ parts.map List.length, 1 ≤ k := by
        intro k hk
        obtain ⟨part, hpart, rfl⟩ := List.mem_map.1 hk
        obtain ⟨opc, -, hfetch⟩ := forall₂_mem_right hparts hpart
        exact hfetch.length_pos
      simpa using List.length_le_sum_of_one_le _ hone
    have hret := pass1_returns hpass
    have hcodepos : 0 < code.length := by
      obtain ⟨init, rfl, -⟩ := hret
      simp
    have hreached := hann.reached
    rw [buildLiterals_append make st (by omega) hlen']
    rw [toInt_natCast (by omega), toInt_natCast (by omega)]
    refine interpret_flatten hpass' rfl (running_init _ _) (fun p hp => ?_) (fun i hi => ?_) hb.vec
      hparts hbody le_rfl
    · change (depth p : ℤ) ≤ (st.maxDepth : ℤ)
      exact_mod_cast hann.depth_le hb hp
    · change (slotImage (f i) : ℤ) < (st.maxSaved : ℤ)
      have hle : slotImage (f i) ≤ f i := Nat.mod_le _ _
      exact_mod_cast hle.trans_lt (hslot i hi)
  · obtain rfl := Except.ok.inj hp
    obtain ⟨rfl, -⟩ := Prod.mk.inj (Except.ok.inj ha)
    rw [buildLiterals_append make _ (by exact Nat.succ_pos 1) hlen']
    exact ⟨_, rfl⟩

/-- The bytes of the program that returns a vector of no elements. -/
def emptyVectorBytes : List UInt8 := headerToBytes ⟨0, 0, 2⟩ ++ [0xC8, 0xFF]

/-- **The announced bounds are not right** for every program: the vector of no elements is pushed on
a stack with no room. -/
theorem buildLiterals_not_bounded :
    encode zeroBits [.vec 0, .ret] = .ok emptyVectorBytes ∧
      buildLiterals (fun _ _ => ()) emptyVectorBytes = .error .overflow := by
  refine ⟨rfl, ?_⟩
  have hlen : emptyVectorBytes.length ≤ INT_MAX := by
    decide
  exact buildLiterals_append _ _ (Nat.succ_pos 1) hlen

/-- The program that returns the record of a string that it saves and loads. -/
def pairProgram : List (Instr RealLit) := [.str8 [104], .save 0, .load 0, .record 2, .ret]

theorem bounded_pairProgram : Bounded pairProgram := by
  refine ⟨fun n hn => ?_, fun n hn => ?_, fun p opc hp hsize => ?_, fun i hi => ?_⟩
  · simp only [pairProgram, List.mem_cons, reduceCtorEq, Instr.record.injEq, List.not_mem_nil,
      false_or, or_false] at hn
    omega
  · simp [pairProgram] at hn
  · have hmem : opc ∈ pairProgram := hp.subset (by simp)
    simp only [pairProgram, List.mem_cons, List.not_mem_nil, or_false] at hmem
    rcases hmem with rfl | rfl | rfl | rfl | rfl <;> cases hsize
  · exact (List.singleton_inj.1 hi).symm

/-- The program that returns a pair is run within its bounds. -/
theorem buildLiterals_bounded_pair : ∃ v, buildLiterals (fun _ _ => ())
    (headerToBytes ⟨2, 1, 5⟩ ++ [0x89, 1, 104, 0xE8, 0xF0, 0xA1, 0xFF]) = .ok v :=
  buildLiterals_bounded zeroBits pairProgram _ rfl bounded_pairProgram (by decide) _

end SmlNj.BuildLiterals
