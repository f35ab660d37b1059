import Mathlib
import SmlNj.CPS.Main.LiteralBytecode

/-!
# What the analysis of a literal program accepts

An accepted program ends with its only `RETURN`, and the slots it is given are
bounded by the number of its pseudo-slots.

## Main definitions

* `Returns` — the program ends with its only `RETURN`.
* `Sized` — the sizes that the encoding can express.

## Main results

* `pass1_cons` — what one instruction does to the state of the first pass.
* `analyse_returns`, `analyse_sized` — both properties survive the analysis.
-/

namespace SmlNj.LiteralBytecode

open CPS ExceptList

variable {R : Type}

/-- The program ends with its only `RETURN`. -/
def Returns (code : List (Instr R)) : Prop :=
  ∃ init, code = init ++ [.ret] ∧ ∀ i ∈ init, i ≠ .ret

/-- The sizes that the encoding can express: records and raw blocks are not empty, and a slot
number fits 16 bits. -/
def Sized : Instr R → Prop
  | .record n | .rawblock n => 0 < n
  | .save i | .load i => i < 65536
  | _ => True

instance : DecidablePred (Sized : Instr R → Prop) := fun i => by
  cases i <;> unfold Sized <;> infer_instance

/-! ### The first pass -/

def Tbl.step (tbl : Tbl) (pc : ℕ) (stk : List Ty) : Instr R → Tbl
  | .save i => tbl.insert i ⟨pc, pc, stk.headD .ptr⟩
  | .load i => tbl.setLast i pc
  | _ => tbl

variable {pc d maxD n D : ℕ} {code code' : List (Instr R)} {stk : List Ty} {tbl tbl' : Tbl}
  {active : List Active} {assign : List ℕ}

/-- **What an accepted instruction does**: a `RETURN` ends the program; anything else leaves the
rest of the program to be accepted, with the table stepped. -/
theorem pass1_cons {opc : Instr R} (h : pass1 pc (opc :: code) stk d maxD tbl = .ok (n, D, tbl')) :
    (opc = .ret ∧ code = [] ∧ tbl' = tbl) ∨
      (opc ≠ .ret ∧ ∃ stk' d' maxD',
        pass1 (pc + 1) code stk' d' maxD' (tbl.step pc stk opc) = .ok (n, D, tbl')) := by
  cases opc with
  | int63 | rawint64 | str8 | real64 => exact .inr ⟨by simp, _, _, _, h⟩
  | record m | rawblock m | vec m =>
    refine .inr ⟨by simp, ?_⟩
    simp only [pass1] at h
    split at h
    · exact ⟨_, _, _, h⟩
    · cases h
  | mixed rep =>
    refine .inr ⟨by simp, ?_⟩
    simp only [pass1] at h
    split at h
    · split at h
      · exact ⟨_, _, _, h⟩
      · cases h
    · cases h
  | save i =>
    refine .inr ⟨by simp, ?_⟩
    simp only [pass1] at h
    split at h
    · exact ⟨_, _, _, h⟩
    · cases h
  | load i =>
    refine .inr ⟨by simp, ?_⟩
    simp only [pass1] at h
    split at h
    · cases h
    · exact ⟨_, _, _, h⟩
  | ret =>
    refine .inl ⟨rfl, ?_⟩
    unfold pass1 at h
    simp only at h
    split at h
    · cases h; exact ⟨rfl, rfl⟩
    · cases h

theorem pass1_returns (h : pass1 pc code stk d maxD tbl = .ok (n, D, tbl')) : Returns code := by
  induction code generalizing pc stk d maxD tbl with
  | nil => cases h
  | cons opc code ih =>
    rcases pass1_cons h with ⟨rfl, rfl, -⟩ | ⟨hne, stk', d', maxD', h'⟩
    · exact ⟨[], rfl, by simp⟩
    · obtain ⟨init, rfl, hinit⟩ := ih h'
      refine ⟨opc :: init, rfl, fun i hi => ?_⟩
      rcases List.mem_cons.mp hi with rfl | hi'
      · exact hne
      · exact hinit i hi'

theorem Tbl.mem_step {opc : Instr R} {s : ℕ × SlotInfo} (h : s ∈ tbl.step pc stk opc) :
    opc = .save s.1 ∨ ∃ s' ∈ tbl, s'.1 = s.1 := by
  cases opc with
  | save i =>
    rcases List.mem_cons.mp h with rfl | h'
    · exact .inl rfl
    · exact .inr ⟨s, h', rfl⟩
  | load i =>
    obtain ⟨s', hs', rfl⟩ := List.mem_map.mp h
    refine .inr ⟨s', hs', ?_⟩
    split <;> rfl
  | _ => exact .inr ⟨s, h, rfl⟩

theorem pass1_tbl (h : pass1 pc code stk d maxD tbl = .ok (n, D, tbl')) :
    ∀ s ∈ tbl', .save s.1 ∈ code ∨ ∃ s' ∈ tbl, s'.1 = s.1 := by
  induction code generalizing pc stk d maxD tbl with
  | nil => cases h
  | cons opc code ih =>
    intro s hs
    rcases pass1_cons h with ⟨rfl, rfl, rfl⟩ | ⟨-, stk', d', maxD', h'⟩
    · exact .inr ⟨s, hs, rfl⟩
    · rcases ih h' s hs with hc | ⟨s', hs', he⟩
      · exact .inl (List.mem_cons_of_mem _ hc)
      · rcases Tbl.mem_step hs' with rfl | ⟨s'', hs'', he'⟩
        · exact .inl (by rw [he]; exact List.mem_cons_self)
        · exact .inr ⟨s'', hs'', he'.trans he⟩

/-! ### Slot assignment -/

theorem free_slots (first : ℕ) {avail : List ℕ} {P : ℕ → Prop} (ha : ∀ a ∈ active, P a.slot)
    (hv : ∀ s ∈ avail, P s) :
    (∀ a ∈ (free first active avail).1, P a.slot) ∧ ∀ s ∈ (free first active avail).2, P s := by
  induction active generalizing avail with
  | nil => exact ⟨ha, hv⟩
  | cons item rest ih =>
    rw [free]
    split
    · refine ih (fun a h => ha a (List.mem_cons_of_mem _ h)) fun s hs => ?_
      rcases List.mem_cons.mp hs with rfl | hs'
      · exact ha item List.mem_cons_self
      · exact hv s hs'
    · exact ⟨ha, hv⟩

theorem mem_addActive {last slot : ℕ} {a : Active} (h : a ∈ addActive active last slot) :
    a = ⟨last, slot⟩ ∨ a ∈ active := by
  induction active with
  | nil => exact .inl (List.mem_singleton.mp h)
  | cons item rest ih =>
    rw [addActive] at h
    split at h
    · rcases List.mem_cons.mp h with rfl | h'
      · exact .inl rfl
      · exact .inr h'
    · rcases List.mem_cons.mp h with rfl | h'
      · exact .inr List.mem_cons_self
      · exact (ih h').imp id (List.mem_cons_of_mem _)

theorem mem_set {α : Type} {xs : List α} {i : ℕ} {a b : α} (h : b ∈ xs.set i a) :
    b = a ∨ b ∈ xs :=
  (List.mem_or_eq_of_mem_set h).symm

theorem linearScan_lt {wl : List Interval} {avail : List ℕ} {next B : ℕ}
    (ha : ∀ a ∈ active, a.slot < next) (hv : ∀ s ∈ avail, s < next) (hn : next + wl.length ≤ B)
    (hs : ∀ s ∈ assign, s < B) : ∀ s ∈ (linearScan wl active avail next assign).2, s < B := by
  induction wl generalizing active avail next assign with
  | nil => exact hs
  | cons i wl ih =>
    obtain ⟨hfa, hfv⟩ := free_slots (P := (· < next)) i.first ha hv
    rw [List.length_cons] at hn
    have hset : ∀ slot < B, ∀ s ∈ assign.set i.id slot, s < B := by
      intro slot hslot s hmem
      rcases mem_set hmem with rfl | h
      · exact hslot
      · exact hs s h
    cases hfree : (free i.first active avail).2 with
    | nil =>
      simp only [linearScan, hfree]
      refine ih (fun a h => ?_) (fun s h => by cases h) (by omega) (hset next (by omega))
      rcases mem_addActive h with rfl | h'
      · exact Nat.lt_succ_self next
      · exact (hfa a h').trans (Nat.lt_succ_self next)
    | cons slot avail' =>
      simp only [linearScan, hfree]
      rw [hfree] at hfv
      have hslot := hfv slot List.mem_cons_self
      refine ih (fun a h => ?_) (fun s h => hfv s (List.mem_cons_of_mem _ h)) (by omega)
        (hset slot (by omega))
      rcases mem_addActive h with rfl | h'
      · exact hslot
      · exact hfa a h'

theorem rewrite_cases {i j : Instr R} (h : rewrite assign i = .ok j) :
    (∃ k s, i = .save k ∧ s ∈ assign ∧ j = .save s) ∨
      (∃ k s, i = .load k ∧ s ∈ assign ∧ j = .load s) ∨ i = j := by
  cases i with
  | save k =>
    rw [rewrite] at h
    split at h
    · next s hs => cases h; exact .inl ⟨k, s, rfl, List.mem_of_getElem? hs, rfl⟩
    · cases h
  | load k =>
    rw [rewrite] at h
    split at h
    · next s hs => cases h; exact .inr (.inl ⟨k, s, rfl, List.mem_of_getElem? hs, rfl⟩)
    · cases h
  | _ => cases h; exact .inr (.inr rfl)

theorem rewrite_eq_ret {i j : Instr R} (h : rewrite assign i = .ok j) : j = .ret ↔ i = .ret := by
  rcases rewrite_cases h with ⟨k, s, rfl, -, rfl⟩ | ⟨k, s, rfl, -, rfl⟩ | rfl
  · simp
  · simp
  · rfl

theorem worklist_ok {wl : List Interval} (h : worklist tbl n = .ok wl) :
    wl.length = n ∧ ∀ i < n, ∃ s ∈ tbl, s.1 = i := by
  have hf := mapM_eq_ok.mp h
  refine ⟨by simpa using hf.length_eq.symm, fun i hi => ?_⟩
  obtain ⟨j, -, hj⟩ := forall₂_mem_left hf (List.mem_range.mpr hi)
  split at hj
  · next info hfind =>
    obtain ⟨l₁, l₂, rfl, -⟩ := List.lookup_eq_some_iff.mp hfind
    exact ⟨(i, info), by simp, rfl⟩
  · cases hj

/-- **Slot assignment keeps the shape of a program**, and slot numbers in 16 bits. -/
theorem assignSlots_ok {maxSaved : ℕ} (h : assignSlots tbl code = .ok (maxSaved, code'))
    (ht : ∀ s ∈ tbl, s.1 < 65536) (hs : ∀ i ∈ code, Sized i) :
    List.Forall₂ (fun i j => (j = .ret ↔ i = .ret) ∧ Sized j) code code' := by
  rw [assignSlots] at h
  simp only at h
  split at h
  · cases h
    exact List.forall₂_same.mpr fun i hi => ⟨Iff.rfl, hs i hi⟩
  · next hn =>
    obtain ⟨wl, hwl, h⟩ := bind_eq_ok.mp h
    obtain ⟨code'', hc, h⟩ := bind_eq_ok.mp h
    cases h
    obtain ⟨hlen, hkeys⟩ := worklist_ok hwl
    -- the last pseudo-slot bounds their number
    obtain ⟨s, hs', he⟩ := hkeys (tbl.length - 1) (by omega)
    have hB := ht s hs'
    have hlt : ∀ s ∈ (linearScan wl [] [] 0 (List.range tbl.length)).2, s < 65536 :=
      linearScan_lt (by simp) (by simp) (by omega) fun s h => by
        have := List.mem_range.mp h
        omega
    refine forall₂_imp_mem (mapM_eq_ok.mp hc) fun i hi j _ hj => ⟨rewrite_eq_ret hj, ?_⟩
    rcases rewrite_cases hj with ⟨k, s, -, hm, rfl⟩ | ⟨k, s, -, hm, rfl⟩ | rfl
    · exact hlt s hm
    · exact hlt s hm
    · exact hs i hi

theorem Returns.of_forall₂ (hr : Returns code)
    (h : List.Forall₂ (fun i j => j = .ret ↔ i = .ret) code code') : Returns code' := by
  obtain ⟨init, rfl, hinit⟩ := hr
  induction init generalizing code' with
  | nil =>
    obtain ⟨j, js, hj, hjs, rfl⟩ := List.forall₂_cons_left_iff.mp h
    rw [List.forall₂_nil_left_iff.mp hjs, hj.mpr rfl]
    exact ⟨[], rfl, by simp⟩
  | cons i init ih =>
    obtain ⟨j, js, hj, hjs, rfl⟩ := List.forall₂_cons_left_iff.mp h
    obtain ⟨init', rfl, hinit'⟩ := ih (fun i hi => hinit i (List.mem_cons_of_mem _ hi)) hjs
    refine ⟨j :: init', rfl, fun k hk => ?_⟩
    rcases List.mem_cons.mp hk with rfl | hk'
    · exact fun hk => hinit i List.mem_cons_self (hj.mp hk)
    · exact hinit' k hk'

/-- **An accepted program**, with its slots assigned, ends with its only `RETURN` and is sized if
it was before. -/
theorem analyse_ok {st : Stats} (h : analyse code = .ok (st, code')) (hs : ∀ i ∈ code, Sized i) :
    Returns code' ∧ ∀ i ∈ code', Sized i := by
  unfold analyse at h
  split at h
  · cases h
    exact ⟨⟨[.int63 0], rfl, by simp⟩, hs⟩
  · obtain ⟨⟨n, D, tbl⟩, hp, h⟩ := bind_eq_ok.mp h
    obtain ⟨⟨maxSaved, code''⟩, ha, h⟩ := bind_eq_ok.mp h
    cases h
    have ht : ∀ s ∈ tbl, s.1 < 65536 := fun s hs' => by
      rcases pass1_tbl hp s hs' with hc | ⟨s', h', -⟩
      · exact hs _ hc
      · cases h'
    have hf := assignSlots_ok ha ht hs
    refine ⟨(pass1_returns hp).of_forall₂ (hf.imp fun i j h => h.1), fun j hj => ?_⟩
    obtain ⟨i, -, -, hsj⟩ := forall₂_mem_right hf hj
    exact hsj

end SmlNj.LiteralBytecode
