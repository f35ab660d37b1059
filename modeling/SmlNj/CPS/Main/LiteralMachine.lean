import SmlNj.CPS.Main.LiteralSlots

/-!
# The slot assignment preserves the meaning of literal programs

A literal program is run by a machine with a stack and save slots.  When the pseudo-slots are saved
in the order of their numbers, the program with its slots assigned makes the same stacks as the
program that the analysis accepted.

## Main definitions

* `step`, `run` — the machine, for any kind of values and any way to make them.
* `Simulates` — the invariant of both runs.

## Main results

* `assigned_disjoint` — pseudo-slots that share a slot do not live at the same time.
* `linearScan_correct` — a `LOAD` finds what was saved in its pseudo-slot.
-/

namespace SmlNj.LiteralBytecode

open CPS ExceptList

variable {R : Type}

section Machine

variable {V : Type} (make : Instr R → List V → V)

abbrev MachineState (V : Type) := List V × (ℕ → Option V)

def start : MachineState V := ([], fun _ => none)

/-- A step of the machine.  What an instruction makes of the values it pops, the top of the stack
first, is a parameter. -/
@[grind =] def step : Instr R → MachineState V → Option (MachineState V)
  | .save i, (v :: stk, slots) => some (v :: stk, Function.update slots i (some v))
  | .save _, ([], _) => none
  | .load i, (stk, slots) => (slots i).map fun v => (v :: stk, slots)
  | .ret, s => some s
  | opc, (stk, slots) =>
    let n := (blockSize opc).getD 0
    if n ≤ stk.length then some (make opc (stk.take n) :: stk.drop n, slots) else none

def run : List (Instr R) → MachineState V → Option (MachineState V)
  | [], s => some s
  | opc :: code, s => (step make opc s).bind (run code)

theorem run_append (code code' : List (Instr R)) (s : MachineState V) :
    run make (code ++ code') s = (run make code s).bind (run make code') := by
  induction code generalizing s with
  | nil => rfl
  | cons opc code ih =>
    rw [List.cons_append, run, run]
    cases step make opc s with
    | none => rfl
    | some s' => exact ih s'

theorem run_concat (code : List (Instr R)) (opc : Instr R) (s : MachineState V) :
    run make (code ++ [opc]) s = (run make code s).bind (step make opc) := by
  rw [run_append]
  cases run make code s with
  | none => rfl
  | some s' =>
    change (step make opc s').bind (run make []) = step make opc s'
    cases step make opc s' <;> rfl

variable {make}

theorem step_atom {opc : Instr R} {ty : Ty} (h : atomTy opc = some ty) (stk : List V)
    (slots : ℕ → Option V) : step make opc (stk, slots) = some (make opc [] :: stk, slots) := by
  cases opc <;> first | rfl | cases h

theorem step_block {opc : Instr R} {n : ℕ} (h : blockSize opc = some n) {stk : List V}
    (hn : n ≤ stk.length) (slots : ℕ → Option V) :
    step make opc (stk, slots) = some (make opc (stk.take n) :: stk.drop n, slots) := by
  cases opc <;> cases h <;> exact if_pos hn

end Machine

/-! ### The slots of an accepted program -/

def Instr.mapSlot (f : ℕ → ℕ) : Instr R → Instr R
  | .save i => .save (f i)
  | .load i => .load (f i)
  | opc => opc

def SavedInOrder (code : List (Instr R)) : Prop :=
  code.filterMap saved = List.range (code.filterMap saved).length

theorem SavedInOrder.lt {code : List (Instr R)} (h : SavedInOrder code) {p q i j : ℕ}
    (hp : code[p]? = some (.save i)) (hq : code[q]? = some (.save j)) (hlt : p < q) : i < j := by
  have hpair : (code.filterMap saved).Pairwise (· < ·) := by
    rw [h]
    exact List.pairwise_lt_range
  rw [List.pairwise_filterMap, List.pairwise_iff_getElem] at hpair
  obtain ⟨hp', hpi⟩ := List.getElem?_eq_some_iff.1 hp
  obtain ⟨hq', hqj⟩ := List.getElem?_eq_some_iff.1 hq
  exact hpair p q hp' hq' hlt i (by rw [hpi]; rfl) j (by rw [hqj]; rfl)

theorem SavedInOrder.unique {code : List (Instr R)} (h : SavedInOrder code) {p q i : ℕ}
    (hp : code[p]? = some (.save i)) (hq : code[q]? = some (.save i)) : p = q := by
  rcases lt_trichotomy p q with hlt | heq | hlt
  · exact absurd (h.lt hp hq hlt) (lt_irrefl i)
  · exact heq
  · exact absurd (h.lt hq hp hlt) (lt_irrefl i)

theorem worklist_get {tbl : Tbl} {n : ℕ} {wl : List Interval} (h : worklist tbl n = .ok wl) :
    wl.length = n ∧ ∀ i < n, ∃ info, tbl.find i = some info ∧
      wl[i]? = some ⟨info.first, info.last, i⟩ := by
  have hf := mapM_eq_ok.mp h
  have hlen : wl.length = n := by simpa using hf.length_eq.symm
  refine ⟨hlen, fun i hi => ?_⟩
  have hi' : i < (List.range n).length := by simpa using hi
  have hget := (List.forall₂_iff_get.1 hf).2 i hi' (by omega)
  rw [List.get_eq_getElem, List.getElem_range] at hget
  split at hget
  · next info hfind =>
    refine ⟨info, hfind, ?_⟩
    rw [List.getElem?_eq_getElem (by omega), Except.ok.inj hget, List.get_eq_getElem]
  · cases hget

theorem rewrite_eq_mapSlot {assign : List ℕ} {opc opc' : Instr R}
    (h : rewrite assign opc = .ok opc') : opc' = opc.mapSlot fun i => assign.getD i 0 := by
  cases opc with
  | save i =>
    rw [rewrite] at h
    split at h
    · next s hs =>
      rw [Instr.mapSlot, List.getD_eq_getElem?_getD, hs]
      exact (Except.ok.inj h).symm
    · cases h
  | load i =>
    rw [rewrite] at h
    split at h
    · next s hs =>
      rw [Instr.mapSlot, List.getD_eq_getElem?_getD, hs]
      exact (Except.ok.inj h).symm
    · cases h
  | _ => exact (Except.ok.inj h).symm

theorem eq_map_mapSlot {assign : List ℕ} {code code' : List (Instr R)}
    (h : List.Forall₂ (fun i j => rewrite assign i = .ok j) code code') :
    code' = code.map (Instr.mapSlot fun i => assign.getD i 0) := by
  induction h with
  | nil => rfl
  | cons hi _ ih => rw [List.map_cons, ← rewrite_eq_mapSlot hi, ← ih]

theorem map_mapSlot_id (code : List (Instr R)) : code.map (Instr.mapSlot fun i => i) = code := by
  have hid : ∀ opc : Instr R, opc.mapSlot (fun i => i) = opc := by
    intro opc
    cases opc <;> rfl
  rw [List.map_congr_left fun opc _ => hid opc, List.map_id']

/-- The slots are renamed so that a slot is saved again only after the last load of what it held. -/
def SlotsDisjoint (code : List (Instr R)) (f : ℕ → ℕ) : Prop :=
  ∀ p q i j : ℕ, p < q → code[p]? = some (Instr.save i) → code[q]? = some (Instr.save j) →
    f i = f j → ∀ r : ℕ, code[r]? = some (Instr.load i) → r < q

/-- **Pseudo-slots that share a slot do not live at the same time**. -/
theorem assigned_disjoint {code code' : List (Instr R)} {tbl : Tbl} {maxSaved : ℕ}
    (ht : Tabled code tbl) (hsaves : SavedInOrder code)
    (h : assignSlots tbl code = .ok (maxSaved, code')) :
    ∃ f, code' = code.map (Instr.mapSlot f) ∧ SlotsDisjoint code f := by
  have hkeys : ∀ {p i : ℕ}, code[p]? = some (.save i) → i < tbl.length := by
    intro p i hp
    have hmem := mem_filterMap_saved.2 ⟨p, hp⟩
    have hlen := congrArg List.length ht.keys
    rw [List.length_map, List.length_reverse] at hlen
    rw [hsaves, List.mem_range] at hmem
    omega
  rw [assignSlots] at h
  split at h
  · -- there is at most one pseudo-slot
    obtain ⟨rfl, rfl⟩ := Prod.mk.inj (Except.ok.inj h)
    refine ⟨fun i => i, (map_mapSlot_id code).symm, fun p q i j hlt hp hq heq => ?_⟩
    have hi := hsaves.lt hp hq hlt
    exact absurd heq hi.ne
  · obtain ⟨wl, hwl, h⟩ := bind_eq_ok.mp h
    obtain ⟨code'', hc, h⟩ := bind_eq_ok.mp h
    obtain ⟨-, rfl⟩ := Prod.mk.inj (Except.ok.inj h)
    set n := tbl.length with hn
    set assign := (linearScan wl [] [] 0 (List.range n)).2 with hassign
    obtain ⟨hlen, hget⟩ := worklist_get hwl
    have hempty : Scanned [] [] 0 := ⟨.nil, .nil, fun s hs => absurd hs List.not_mem_nil⟩
    -- the entry of the work list for a pseudo-slot that is saved
    have hentry : ∀ {p i : ℕ}, code[p]? = some (.save i) → ∃ last, wl[i]? = some ⟨p, last, i⟩ ∧
        ∀ r : ℕ, code[r]? = some (Instr.load i) → r ≤ last := by
      intro p i hp
      obtain ⟨info, hfind, hwli⟩ := hget i (hkeys hp)
      obtain ⟨hfirst, -, -, hloads⟩ := ht.info i info hfind
      obtain rfl := hsaves.unique hp hfirst
      exact ⟨info.last, hwli, fun r hr => (hloads r hr).2⟩
    have hids : ∀ (i : ℕ) (k : Interval), wl[i]? = some k →
        k.id = i ∧ code[k.first]? = some (.save i) := by
      intro i k hk
      obtain ⟨hi, -⟩ := List.getElem?_eq_some_iff.1 hk
      obtain ⟨info, hfind, hwli⟩ := hget i (by omega)
      obtain rfl := Option.some.inj (hk.symm.trans hwli)
      exact ⟨rfl, (ht.info i info hfind).1⟩
    have hsorted : wl.Pairwise fun i j => i.first ≤ j.first ∧ i.id ≠ j.id := by
      refine List.pairwise_iff_getElem.2 fun i j hi hj hlt => ?_
      obtain ⟨hidi, hsavei⟩ := hids i _ (List.getElem?_eq_getElem hi)
      obtain ⟨hidj, hsavej⟩ := hids j _ (List.getElem?_eq_getElem hj)
      refine ⟨?_, by omega⟩
      by_contra hcon
      have := hsaves.lt hsavej hsavei (not_le.1 hcon)
      omega
    have hrange : ∀ i ∈ wl, i.id < (List.range n).length := by
      intro k hk
      obtain ⟨i, hi⟩ := List.mem_iff_getElem?.1 hk
      obtain ⟨hi', -⟩ := List.getElem?_eq_some_iff.1 hi
      rw [(hids i k hi).1, List.length_range]
      omega
    have hdisj := linearScan_disjoint hempty hsorted hrange
    have hslot := (linearScan_slot_lt hempty (hsorted.imp fun hij => hij.2) hrange).2
    refine ⟨fun i => assign.getD i 0, eq_map_mapSlot (mapM_eq_ok.mp hc),
      fun p q i j hlt hp hq heq r hr => ?_⟩
    obtain ⟨last, hwli, hloads⟩ := hentry hp
    obtain ⟨last', hwlj, -⟩ := hentry hq
    obtain ⟨hi', hwli'⟩ := List.getElem?_eq_some_iff.1 hwli
    obtain ⟨hj', hwlj'⟩ := List.getElem?_eq_some_iff.1 hwlj
    obtain ⟨slot, -, hsloti⟩ := hslot _ (List.mem_of_getElem? hwli)
    obtain ⟨slot', -, hslotj⟩ := hslot _ (List.mem_of_getElem? hwlj)
    have hpair := List.pairwise_iff_getElem.1 hdisj i j hi' hj' (hsaves.lt hp hq hlt)
    rw [hwli', hwlj'] at hpair
    dsimp only at hsloti hslotj hpair heq
    rw [List.getD_eq_getElem?_getD, List.getD_eq_getElem?_getD, hsloti, hslotj] at heq
    obtain rfl : slot = slot' := heq
    exact (hloads r hr).trans_lt (hpair slot hsloti hslotj)

/-! ### The run of the program with its slots assigned -/

section Simulation

variable {V : Type} {make : Instr R → List V → V} {code pre rest : List (Instr R)} {f : ℕ → ℕ}
  {tbl : Tbl} {stk : List V} {slots slots' : ℕ → Option V}

/-- **The invariant of both runs** after some instructions: the stacks are the same, and the slot of
a pseudo-slot that is still to be loaded has what was saved in it. -/
structure Simulates (make : Instr R → List V → V) (code : List (Instr R)) (f : ℕ → ℕ)
    (pre : List (Instr R)) (tbl : Tbl) (stk : List V) (slots slots' : ℕ → Option V) : Prop where
  runs : run make pre start = some (stk, slots)
  /-- The run of the program with its slots assigned. -/
  runs' : run make (pre.map (Instr.mapSlot f)) start = some (stk, slots')
  /-- The table describes the instructions. -/
  tabled : Tabled pre tbl
  live : ∀ i, tbl.find i ≠ none → ∃ v, slots i = some v ∧
    ((∀ r : ℕ, code[r]? = some (Instr.load i) → r < pre.length) ∨ slots' (f i) = some v)
  /-- Where the values of the slots come from. -/
  origin : ∀ i v, slots i = some v → ∃ q < pre.length, code[q]? = some (Instr.save i) ∧
    ∃ stk₀ slots₀, run make ((code.take (q + 1)).map (Instr.mapSlot f)) start =
      some (v :: stk₀, slots₀)

theorem Tabled.exists_save (h : Tabled pre tbl) {i : ℕ} (hi : tbl.find i ≠ none) :
    ∃ p < pre.length, pre[p]? = some (Instr.save i) := by
  obtain ⟨info, hinfo⟩ := Option.ne_none_iff_exists'.1 hi
  obtain ⟨hfirst, hlast, hle, -⟩ := h.info i info hinfo
  exact ⟨info.first, hle.trans_lt hlast, hfirst⟩

theorem Simulates.push (h : Simulates make code f pre tbl stk slots slots') {opc : Instr R}
    {stk₁ : List V} (hsave : ∀ i, opc ≠ .save i) (hload : ∀ i, opc ≠ .load i)
    (hstep : ∀ slots, step make opc (stk, slots) = some (stk₁, slots)) :
    Simulates make code f (pre ++ [opc]) tbl stk₁ slots slots' := by
  have hmap : opc.mapSlot f = opc := by
    cases opc with
    | save i => exact absurd rfl (hsave i)
    | load i => exact absurd rfl (hload i)
    | _ => rfl
  have hlen : pre.length < (pre ++ [opc]).length := by simp
  refine ⟨?_, ?_, h.tabled.other hsave hload, fun i hi => ?_, fun i v hv => ?_⟩
  · rw [run_concat, h.runs]
    exact hstep slots
  · rw [List.map_append, List.map_singleton, hmap, run_concat, h.runs']
    exact hstep slots'
  · obtain ⟨v, hv, hor⟩ := h.live i hi
    exact ⟨v, hv, hor.imp_left fun hr r hri => (hr r hri).trans hlen⟩
  · obtain ⟨q, hq, hrest⟩ := h.origin i v hv
    exact ⟨q, hq.trans hlen, hrest⟩

/-- A pseudo-slot is saved: the slots of those that share its slot are no longer needed. -/
theorem Simulates.save {v : V} {i : ℕ} {ty : Ty}
    (h : Simulates make code f pre tbl (v :: stk) slots slots')
    (hcode : code = pre ++ .save i :: rest) (hdisj : SlotsDisjoint code f)
    (hfind : tbl.find i = none) :
    Simulates make code f (pre ++ [.save i]) (tbl.insert i ⟨pre.length, pre.length, ty⟩)
      (v :: stk) (Function.update slots i (some v)) (Function.update slots' (f i) (some v)) := by
  have hget : code[pre.length]? = some (Instr.save i) := by simp [hcode]
  have hlen : (pre ++ [Instr.save i]).length = pre.length + 1 := by simp
  have htake : code.take (pre.length + 1) = pre ++ [.save i] := by
    rw [hcode, List.take_append]
    simp
  have hrun' : run make ((pre ++ [Instr.save i]).map (Instr.mapSlot f)) start =
      some (v :: stk, Function.update slots' (f i) (some v)) := by
    rw [List.map_append, List.map_singleton, run_concat, h.runs']
    rfl
  refine ⟨?_, hrun', h.tabled.save hfind ty, fun j hj => ?_, fun j w hw => ?_⟩
  · rw [run_concat, h.runs]
    rfl
  · rw [hlen]
    by_cases hji : j = i
    · subst hji
      exact ⟨v, Function.update_self _ _ _, .inr (Function.update_self _ _ _)⟩
    · rw [Tbl.find_insert, if_neg hji] at hj
      obtain ⟨w, hw, hor⟩ := h.live j hj
      refine ⟨w, by rw [Function.update_of_ne hji, hw], ?_⟩
      rcases hor with hr | hw'
      · exact .inl fun r hri => (hr r hri).trans (Nat.lt_succ_self _)
      · by_cases heq : f j = f i
        · -- the slot is saved again
          obtain ⟨p, hp, hpj⟩ := h.tabled.exists_save hj
          have hpj' : code[p]? = some (Instr.save j) := by
            rw [hcode, List.getElem?_append_left hp, hpj]
          exact .inl fun r hri =>
            (hdisj p _ j i hp hpj' hget heq r hri).trans (Nat.lt_succ_self _)
        · exact .inr (by rw [Function.update_of_ne heq, hw'])
  · rw [hlen]
    by_cases hji : j = i
    · subst hji
      rw [Function.update_self] at hw
      obtain rfl := Option.some.inj hw
      exact ⟨pre.length, Nat.lt_succ_self _, hget, stk, _, by rw [htake, hrun']⟩
    · rw [Function.update_of_ne hji] at hw
      obtain ⟨q, hq, hrest⟩ := h.origin j w hw
      exact ⟨q, hq.trans (Nat.lt_succ_self _), hrest⟩

theorem Simulates.load {i : ℕ} {info : SlotInfo}
    (h : Simulates make code f pre tbl stk slots slots')
    (hcode : code = pre ++ .load i :: rest) (hfind : tbl.find i = some info) :
    ∃ v, Simulates make code f (pre ++ [.load i]) (tbl.setLast i pre.length) (v :: stk) slots
      slots' := by
  have hget : code[pre.length]? = some (Instr.load i) := by simp [hcode]
  have hlen : pre.length < (pre ++ [Instr.load i]).length := by simp
  obtain ⟨v, hv, hor⟩ := h.live i (by rw [hfind]; exact Option.some_ne_none _)
  have hv' : slots' (f i) = some v := hor.resolve_left fun hr => lt_irrefl _ (hr _ hget)
  refine ⟨v, ?_, ?_, h.tabled.load hfind, fun j hj => ?_, fun j w hw => ?_⟩
  · rw [run_concat, h.runs, Option.bind_some, step, hv]
    rfl
  · rw [List.map_append, List.map_singleton, run_concat, h.runs', Option.bind_some, Instr.mapSlot,
      step, hv']
    rfl
  · rw [Tbl.find_setLast, ne_eq, Option.map_eq_none_iff] at hj
    obtain ⟨w, hw, hor⟩ := h.live j hj
    exact ⟨w, hw, hor.imp_left fun hr r hri => (hr r hri).trans hlen⟩
  · obtain ⟨q, hq, hrest⟩ := h.origin j w hw
    exact ⟨q, hq.trans hlen, hrest⟩

/-- **A step of both runs**. -/
theorem Simulates.step {opc : Instr R} {tys tys' : List Ty} {d m d' m' : ℕ}
    (h : Simulates make code f pre tbl stk slots slots') (hcode : code = pre ++ opc :: rest)
    (hdisj : SlotsDisjoint code f) (hlen : stk.length = tys.length)
    (hacc : Accepts tbl opc tys d m tys' d' m') :
    ∃ stk₁ slots₁ slots₁', Simulates make code f (pre ++ [opc]) (tbl.step pre.length tys opc) stk₁
      slots₁ slots₁' ∧ stk₁.length = tys'.length := by
  cases hacc with
  | @atom _ ty _ _ _ hty =>
    have hlen' : (make opc [] :: stk).length = (ty :: tys).length := by
      rw [List.length_cons, List.length_cons, hlen]
    refine ⟨make opc [] :: stk, slots, slots', ?_, hlen'⟩
    cases opc <;> first | exact h.push nofun nofun fun s => step_atom hty stk s | cases hty
  | @block _ n _ _ _ hsize hn =>
    have hn' : n ≤ stk.length := by rwa [hlen]
    refine ⟨make opc (stk.take n) :: stk.drop n, slots, slots', ?_, ?_⟩
    · cases opc <;> first | exact h.push nofun nofun fun s => step_block hsize hn' s | cases hsize
    · rw [List.length_cons, List.length_cons, List.length_drop, List.length_drop, hlen]
  | save hfind =>
    rcases stk with _ | ⟨v, stk⟩
    · cases hlen
    · exact ⟨_, _, _, h.save hcode hdisj hfind, hlen⟩
  | load hfind =>
    obtain ⟨v, hv⟩ := h.load hcode hfind
    exact ⟨_, _, _, hv, by rw [List.length_cons, List.length_cons, hlen]⟩

/-- **Both runs** make the same stacks. -/
theorem simulates_take {tys : List Ty} {d m : ℕ} {r : ℕ × ℕ × Tbl}
    (h : Simulates make code f pre tbl stk slots slots') (hcode : code = pre ++ rest)
    (hdisj : SlotsDisjoint code f) (hlen : stk.length = tys.length)
    (hpass : pass1 pre.length rest tys d m tbl = .ok r) :
    ∀ k ≤ rest.length, ∃ tbl stk slots slots',
      Simulates make code f (pre ++ rest.take k) tbl stk slots slots' := by
  induction rest generalizing pre tbl stk slots slots' tys d m with
  | nil => cases hpass
  | cons opc rest ih =>
    intro k hk
    rcases k with _ | k
    · exact ⟨tbl, stk, slots, slots', by rwa [List.take_zero, List.append_nil]⟩
    have hk' : k ≤ rest.length := Nat.le_of_succ_le_succ hk
    rw [List.take_succ_cons, List.append_cons]
    by_cases hret : opc = .ret
    · subst hret
      obtain ⟨rfl, -, -⟩ := pass1_ret hpass
      rw [List.take_nil, List.append_nil]
      exact ⟨tbl, stk, slots, slots', h.push nofun nofun fun _ => rfl⟩
    · obtain ⟨tys', d', m', hacc, hpass'⟩ := pass1_accepts hpass hret
      obtain ⟨stk₁, slots₁, slots₁', h₁, hlen₁⟩ := h.step hcode hdisj hlen hacc
      have hlen' : pre.length + 1 = (pre ++ [opc]).length := by simp
      rw [hlen'] at hpass'
      exact ih h₁ (by rw [hcode, List.append_assoc]; rfl) hlen₁ hpass' k hk'

end Simulation

theorem analyse_eq_ok {code code' : List (Instr R)} {st : Stats}
    (h : analyse code = .ok (st, code')) :
    ∃ n tbl, pass1 0 code [] 0 0 [] = .ok (n, st.maxDepth, tbl) ∧
      assignSlots tbl code = .ok (st.maxSaved, code') ∨ code = [.int63 0, .ret] ∧ code' = code := by
  unfold analyse at h
  split at h
  · obtain ⟨rfl, rfl⟩ := Prod.mk.inj (Except.ok.inj h)
    exact ⟨0, [], .inr ⟨rfl, rfl⟩⟩
  · obtain ⟨⟨n, D, tbl⟩, hp, h⟩ := bind_eq_ok.mp h
    obtain ⟨⟨maxSaved, code''⟩, ha, h⟩ := bind_eq_ok.mp h
    obtain ⟨rfl, rfl⟩ := Prod.mk.inj (Except.ok.inj h)
    exact ⟨n, tbl, .inl ⟨hp, ha⟩⟩

/-- Both runs of an accepted program, for some renaming of its pseudo-slots. -/
theorem exists_simulates {code code' : List (Instr R)} {st : Stats}
    (h : analyse code = .ok (st, code')) (hsaves : SavedInOrder code) :
    ∃ f, code' = code.map (Instr.mapSlot f) ∧ SlotsDisjoint code f ∧
      ∀ (V : Type) (make : Instr R → List V → V), ∀ k ≤ code.length,
        ∃ tbl stk slots slots', Simulates make code f (code.take k) tbl stk slots slots' := by
  have hempty : Tabled ([] : List (Instr R)) [] :=
    ⟨rfl, fun i info hi => (Option.some_ne_none info hi.symm).elim,
      fun p i hp => (Option.some_ne_none _ hp.symm).elim⟩
  have hstart : ∀ (V : Type) (make : Instr R → List V → V) (f : ℕ → ℕ),
      Simulates make code f [] [] [] (fun _ => none) (fun _ => none) := by
    intro V make f
    exact ⟨rfl, rfl, hempty, fun i hi => absurd rfl hi, fun i v hv => by cases hv⟩
  obtain ⟨n, tbl, ⟨hpass, hassign⟩ | ⟨rfl, rfl⟩⟩ := analyse_eq_ok h
  · have hpass₀ : pass1 ([] : List (Instr R)).length code [] 0 0 [] =
        .ok (n, st.maxDepth, tbl) := hpass
    have htbl : Tabled ([] ++ code) tbl := pass1_tabled hpass₀ hempty
    obtain ⟨f, hf, hdisj⟩ := assigned_disjoint htbl hsaves hassign
    refine ⟨f, hf, hdisj, fun V make k hk => ?_⟩
    simpa using simulates_take (hstart V make f) (rfl : code = [] ++ code) hdisj rfl hpass k hk
  · -- the program that makes no literals
    refine ⟨fun i => i, (map_mapSlot_id _).symm, ?_, fun V make k hk => ?_⟩
    · intro p q i j _ hp
      rcases p with _ | _ | p <;> cases hp
    · have h0 := hstart V make fun i => i
      have h1 := h0.push (nofun : ∀ i, Instr.int63 0 ≠ .save i) nofun fun _ => rfl
      have h2 := h1.push (nofun : ∀ i, Instr.ret ≠ .save i) nofun fun _ => rfl
      rcases k with _ | _ | _ | k
      · exact ⟨_, _, _, _, h0⟩
      · exact ⟨_, _, _, _, h1⟩
      · exact ⟨_, _, _, _, h2⟩
      · exact absurd hk (by simp)

/-- **The slot assignment preserves meaning**: of an accepted program whose pseudo-slots are saved
in the order of their numbers, those that share a slot do not overlap, a `LOAD` of the program with
its slots assigned pushes the value that was on the top of the stack when the pseudo-slot was saved,
and the stacks of both programs are the same after every instruction. -/
theorem linearScan_correct {code code' : List (Instr R)} {st : Stats}
    (h : analyse code = .ok (st, code')) (hsaves : SavedInOrder code) :
    (∀ p q i j s : ℕ, p < q → code[p]? = some (.save i) → code[q]? = some (.save j) →
      code'[p]? = some (.save s) → code'[q]? = some (.save s) →
      ∀ r : ℕ, code[r]? = some (.load i) → r < q) ∧
    (∀ p i : ℕ, code[p]? = some (.load i) → ∃ q < p, code[q]? = some (.save i) ∧
      ∀ (V : Type) (make : Instr R → List V → V), ∃ v stk stk' slots slots',
        run make (code'.take (q + 1)) start = some (v :: stk, slots) ∧
        run make (code'.take (p + 1)) start = some (v :: stk', slots')) ∧
    ∀ (V : Type) (make : Instr R → List V → V), ∀ k ≤ code.length, ∃ stk slots slots',
      run make (code.take k) start = some (stk, slots) ∧
      run make (code'.take k) start = some (stk, slots') := by
  obtain ⟨f, rfl, hdisj, hsim⟩ := exists_simulates h hsaves
  refine ⟨fun p q i j s hlt hp hq hp' hq' => ?_, fun p i hp => ?_, fun V make k hk => ?_⟩
  · rw [List.getElem?_map, hp] at hp'
    rw [List.getElem?_map, hq] at hq'
    have hi : f i = s := Instr.save.inj (Option.some.inj hp')
    have hj : f j = s := Instr.save.inj (Option.some.inj hq')
    exact hdisj p q i j hlt hp hq (hi.trans hj.symm)
  · obtain ⟨hp', hpi⟩ := List.getElem?_eq_some_iff.1 hp
    have hpos : ∃ q < p, code[q]? = some (.save i) := by
      obtain ⟨tbl, stk, slots, slots', hs⟩ := hsim Unit (fun _ _ => ()) (p + 1) hp'
      have hget : (code.take (p + 1))[p]? = some (.load i) := by
        rw [List.getElem?_take, if_pos (Nat.lt_succ_self _), hp]
      have hne := hs.tabled.loaded p i hget
      obtain ⟨info, hinfo⟩ := Option.ne_none_iff_exists'.1 hne
      obtain ⟨hfirst, -, -, hloads⟩ := hs.tabled.info i info hinfo
      have hlt := (hloads p hget).1
      rw [List.getElem?_take, if_pos (hlt.trans (Nat.lt_succ_self _))] at hfirst
      exact ⟨info.first, hlt, hfirst⟩
    obtain ⟨q, hq, hqi⟩ := hpos
    refine ⟨q, hq, hqi, fun V make => ?_⟩
    obtain ⟨tbl, stk, slots, slots', hs⟩ := hsim V make p hp'.le
    obtain ⟨tbl₁, stk₁, slots₁, slots₁', hs₁⟩ := hsim V make (p + 1) hp'
    have htake : code.take (p + 1) = code.take p ++ [.load i] := by
      rw [List.take_succ_eq_append_getElem hp', hpi]
    -- the program loads what its pseudo-slot has
    have hrun := hs₁.runs
    rw [htake, run_concat, hs.runs] at hrun
    obtain ⟨v, hv, heq⟩ := Option.map_eq_some_iff.1 hrun
    obtain ⟨rfl, rfl⟩ := Prod.mk.inj heq
    obtain ⟨q', -, hq', stk₀, slots₀, hrun₀⟩ := hs.origin i v hv
    obtain rfl := hsaves.unique hqi hq'
    rw [List.map_take] at hrun₀
    have hrun₁ := hs₁.runs'
    rw [List.map_take] at hrun₁
    exact ⟨v, stk₀, stk, slots₀, slots₁', hrun₀, hrun₁⟩
  · obtain ⟨tbl, stk, slots, slots', hs⟩ := hsim V make k hk
    have hrun' := hs.runs'
    rw [List.map_take] at hrun'
    exact ⟨stk, slots, slots', hs.runs, hrun'⟩

/-- A program with two pseudo-slots that live one after the other. -/
def sharingProgram : List (Instr RealLit) :=
  [.str8 [], .save 0, .load 0, .str8 [], .save 1, .load 1, .record 4, .ret]

/-- The program with its slots assigned: both pseudo-slots share a slot. -/
def sharedProgram : List (Instr RealLit) :=
  [.str8 [], .save 0, .load 0, .str8 [], .save 0, .load 0, .record 4, .ret]

theorem analyse_sharingProgram :
    analyse sharingProgram = .ok (⟨4, 1, 8⟩, sharedProgram) := by
  rfl

theorem linearScan_correct_sharing :
    ∃ stk slots slots',
      run (fun _ _ => ()) (sharingProgram.take sharingProgram.length) start = some (stk, slots) ∧
      run (fun _ _ => ()) (sharedProgram.take sharingProgram.length) start = some (stk, slots') :=
  (linearScan_correct analyse_sharingProgram rfl).2.2 Unit (fun _ _ => ()) _ le_rfl

end SmlNj.LiteralBytecode
