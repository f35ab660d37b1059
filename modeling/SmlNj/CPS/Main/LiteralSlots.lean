import SmlNj.CPS.Main.LiteralAnalysis

/-!
# The slots of a literal program

The pseudo-slots of an accepted program live from their `SAVE` to their last `LOAD`.  When they are
saved in the order of their numbers, the linear scan never gives a slot to two of them that live at
the same time.

## Main definitions

* `Accepts` — what the first pass accepts, and what it does to the stack and to the depth.
* `Tabled` — the table of the pseudo-slots describes the program read so far.
* `Scanned` — the invariant of the linear scan.

## Main results

* `pass1_accepts` — every instruction but the last one is accepted.
* `linearScan_disjoint` — intervals that share a slot do not overlap.
-/

namespace SmlNj.LiteralBytecode

open CPS ExceptList

variable {R : Type}

/-! ### What is accepted -/

/-- The type of the value that an instruction pushes, if it pops none. -/
def atomTy : Instr R → Option Ty
  | .int63 _ => some .tag
  | .rawint64 _ => some .raw
  | .str8 _ => some .ptr
  | .real64 _ => some .raw
  | _ => none

/-- The number of values that an instruction pops to make an object of them. -/
def blockSize : Instr R → Option ℕ
  | .record n | .rawblock n | .vec n => some n
  | .mixed rep => some (rep.rawLen + rep.ptrLen)
  | _ => none

/-- **An instruction is accepted**: with the stack, its depth and the greatest depth before and
after it. -/
inductive Accepts (tbl : Tbl) :
    Instr R → List Ty → ℕ → ℕ → List Ty → ℕ → ℕ → Prop
  | atom {opc : Instr R} {ty : Ty} {stk : List Ty} {d m : ℕ} (h : atomTy opc = some ty) :
    Accepts tbl opc stk d m (ty :: stk) (d + 1) (max (d + 1) m)
  | block {opc : Instr R} {n : ℕ} {stk : List Ty} {d m : ℕ} (h : blockSize opc = some n)
    (hn : n ≤ stk.length) : Accepts tbl opc stk d m (.ptr :: stk.drop n) (d - n + 1) m
  | save {i : ℕ} {ty : Ty} {stk : List Ty} {d m : ℕ} (h : tbl.find i = none) :
    Accepts tbl (.save i) (ty :: stk) d m (ty :: stk) d m
  | load {i : ℕ} {info : SlotInfo} {stk : List Ty} {d m : ℕ} (h : tbl.find i = some info) :
    Accepts tbl (.load i) stk d m (info.ty :: stk) (d + 1) (max (d + 1) m)

variable {stk : List Ty} {d m i next : ℕ} {opc : Instr R} {code : List (Instr R)} {tbl : Tbl}
  {r : ℕ × ℕ × Tbl} {active : List Active} {avail assign : List ℕ} {wl : List Interval}

theorem popn_ok {pred : Ty → Bool} {n : ℕ} {stk' : List Ty} {d' : ℕ}
    (h : popn pred n stk d = .ok (stk', d')) : n ≤ stk.length ∧ stk' = stk.drop n ∧ d' = d - n := by
  induction n generalizing stk d with
  | zero =>
    cases h
    exact ⟨Nat.zero_le _, rfl, rfl⟩
  | succ n ih =>
    rcases stk with _ | ⟨ty, stk⟩
    · cases h
    · rw [popn] at h
      split at h
      · obtain ⟨hle, rfl, rfl⟩ := ih h
        exact ⟨Nat.succ_le_succ hle, rfl, by omega⟩
      · cases h

/-- **What the first pass accepts**: an instruction that is not the last one is accepted, and so is
the rest of the program. -/
theorem pass1_accepts {pc : ℕ} (h : pass1 pc (opc :: code) stk d m tbl = .ok r) (hne : opc ≠ .ret) :
    ∃ stk' d' m', Accepts tbl opc stk d m stk' d' m' ∧
      pass1 (pc + 1) code stk' d' m' (tbl.step pc stk opc) = .ok r := by
  cases opc with
  | int63 | rawint64 | str8 | real64 => exact ⟨_, _, _, .atom rfl, h⟩
  | record n | rawblock n | vec n =>
    simp only [pass1] at h
    split at h
    · next hpop =>
      obtain ⟨hle, rfl, rfl⟩ := popn_ok hpop
      exact ⟨_, _, _, .block rfl hle, h⟩
    · cases h
  | mixed rep =>
    simp only [pass1] at h
    split at h
    · next hpop =>
      split at h
      · next hpop' =>
        obtain ⟨hle, rfl, rfl⟩ := popn_ok hpop
        obtain ⟨hle', rfl, rfl⟩ := popn_ok hpop'
        rw [List.drop_drop, Nat.sub_sub] at h
        rw [List.length_drop] at hle'
        exact ⟨_, _, _, .block rfl (by omega), h⟩
      · cases h
    · cases h
  | save i =>
    simp only [pass1] at h
    split at h
    · next ty _ hfind => exact ⟨_, _, _, .save hfind, h⟩
    · cases h
  | load i =>
    simp only [pass1] at h
    split at h
    · cases h
    · next info hfind => exact ⟨_, _, _, .load hfind, h⟩
  | ret => exact absurd rfl hne

theorem pass1_ret {pc : ℕ} (h : pass1 pc (.ret :: code) stk d m tbl = .ok r) :
    code = [] ∧ stk = [.ptr] ∧ r = (pc + 1, m, tbl) := by
  unfold pass1 at h
  simp only at h
  split at h
  · cases h
    exact ⟨rfl, rfl, rfl⟩
  · cases h

/-! ### The table of the pseudo-slots -/

def saved : Instr R → Option ℕ
  | .save i => some i
  | _ => none

theorem saved_eq_some : saved opc = some i ↔ opc = .save i := by
  cases opc <;> simp [saved]

/-- **The table describes the program read so far**. -/
structure Tabled (code : List (Instr R)) (tbl : Tbl) : Prop where
  /-- The table has the pseudo-slots that are saved, the last one first. -/
  keys : tbl.map Prod.fst = (code.filterMap saved).reverse
  /-- Where a pseudo-slot is saved and loaded. -/
  info : ∀ i info, tbl.find i = some info → code[info.first]? = some (Instr.save i) ∧
    info.last < code.length ∧ info.first ≤ info.last ∧
    ∀ p : ℕ, code[p]? = some (Instr.load i) → info.first < p ∧ p ≤ info.last
  /-- The pseudo-slots that are loaded are in the table. -/
  loaded : ∀ (p : ℕ) i, code[p]? = some (Instr.load i) → tbl.find i ≠ none

namespace Tbl

theorem lookup_cons_self (i : ℕ) (info : SlotInfo) (tbl : Tbl) :
    List.lookup i ((i, info) :: tbl) = some info := by
  rw [List.lookup_cons, beq_self_eq_true]

theorem lookup_cons_of_ne {j : ℕ} (h : j ≠ i) (info : SlotInfo) (tbl : Tbl) :
    List.lookup j ((i, info) :: tbl) = List.lookup j tbl := by
  rw [List.lookup_cons, beq_eq_false_iff_ne.2 h]

theorem find_insert (tbl : Tbl) (i j : ℕ) (info : SlotInfo) :
    find (insert tbl i info) j = if j = i then some info else find tbl j := by
  rw [find, insert]
  by_cases h : j = i
  · rw [h, lookup_cons_self, if_pos rfl]
  · rw [lookup_cons_of_ne h, if_neg h, find]

theorem find_setLast (tbl : Tbl) (i j pc : ℕ) :
    find (setLast tbl i pc) j =
      (find tbl j).map fun info => if j = i then { info with last := pc } else info := by
  induction tbl with
  | nil => rfl
  | cons s tbl ih =>
    obtain ⟨k, info⟩ := s
    have hcons : setLast ((k, info) :: tbl) i pc =
        (k, if k = i then { info with last := pc } else info) :: setLast tbl i pc := by
      rw [setLast, List.map_cons]
      by_cases hi : k = i
      · rw [if_pos hi, if_pos hi, setLast]
      · rw [if_neg hi, if_neg hi, setLast]
    rw [hcons, find, find]
    by_cases hj : j = k
    · rw [hj, lookup_cons_self, lookup_cons_self]
      rfl
    · rw [lookup_cons_of_ne hj, lookup_cons_of_ne hj]
      exact ih

theorem map_fst_setLast (tbl : Tbl) (i pc : ℕ) :
    (setLast tbl i pc).map Prod.fst = tbl.map Prod.fst := by
  rw [setLast, List.map_map]
  refine List.map_congr_left fun s _ => ?_
  rw [Function.comp_apply]
  split <;> rfl

end Tbl

theorem mem_filterMap_saved :
    i ∈ code.filterMap saved ↔ ∃ p : ℕ, code[p]? = some (Instr.save i) := by
  rw [List.mem_filterMap]
  constructor
  · rintro ⟨opc, hmem, h⟩
    obtain rfl := saved_eq_some.1 h
    exact List.mem_iff_getElem?.1 hmem
  · rintro ⟨p, hp⟩
    exact ⟨_, List.mem_of_getElem? hp, rfl⟩

theorem getElem?_append_singleton {α : Type*} {l : List α} {a b : α} {p : ℕ}
    (h : (l ++ [a])[p]? = some b) : l[p]? = some b ∨ p = l.length ∧ a = b := by
  rw [List.getElem?_append] at h
  split at h
  · exact .inl h
  · next hlt =>
    obtain ⟨hp, hb⟩ := List.getElem?_eq_some_iff.1 h
    rw [List.length_singleton] at hp
    have hp' : p - l.length = 0 := by omega
    refine .inr ⟨by omega, ?_⟩
    simpa using hb

theorem getElem?_append_of_some {α : Type*} {l : List α} {a b : α} {p : ℕ} (h : l[p]? = some b) :
    (l ++ [a])[p]? = some b := by
  obtain ⟨hp, -⟩ := List.getElem?_eq_some_iff.1 h
  rw [List.getElem?_append_left hp, h]

theorem Tabled.other (h : Tabled code tbl) (hsave : ∀ i, opc ≠ .save i)
    (hload : ∀ i, opc ≠ .load i) : Tabled (code ++ [opc]) tbl := by
  have hnone : saved opc = none := by
    cases hs : saved opc with
    | none => rfl
    | some i => exact absurd (saved_eq_some.1 hs) (hsave i)
  refine ⟨?_, fun i info hi => ?_, fun p i hp => ?_⟩
  · rw [List.filterMap_append, h.keys, List.filterMap_cons_none hnone, List.filterMap_nil,
      List.append_nil]
  · obtain ⟨hfirst, hlast, hle, hloads⟩ := h.info i info hi
    refine ⟨getElem?_append_of_some hfirst, ?_, hle, fun p hp => ?_⟩
    · rw [List.length_append]
      omega
    · rcases getElem?_append_singleton hp with hp | ⟨-, hopc⟩
      · exact hloads p hp
      · exact absurd hopc (hload i)
  · rcases getElem?_append_singleton hp with hp | ⟨-, hopc⟩
    · exact h.loaded p i hp
    · exact absurd hopc (hload i)

theorem Tabled.save {code : List (Instr R)} {tbl : Tbl} (h : Tabled code tbl) {i : ℕ}
    (hfind : tbl.find i = none) (ty : Ty) :
    Tabled (code ++ [.save i]) (tbl.insert i ⟨code.length, code.length, ty⟩) := by
  refine ⟨?_, fun j info hj => ?_, fun p j hp => ?_⟩
  · rw [List.filterMap_append, List.reverse_append, ← h.keys]
    rfl
  · rw [Tbl.find_insert] at hj
    rw [List.length_append]
    split at hj
    · next heq =>
      obtain rfl := heq
      obtain rfl := Option.some.inj hj
      refine ⟨by simp, Nat.lt_succ_self _, le_rfl, fun p hp => ?_⟩
      rcases getElem?_append_singleton hp with hp | ⟨-, hopc⟩
      · exact absurd hfind (h.loaded p j hp)
      · cases hopc
    · obtain ⟨hfirst, hlast, hle, hloads⟩ := h.info j info hj
      refine ⟨getElem?_append_of_some hfirst, by omega, hle, fun p hp => ?_⟩
      rcases getElem?_append_singleton hp with hp | ⟨-, hopc⟩
      · exact hloads p hp
      · cases hopc
  · rcases getElem?_append_singleton hp with hp | ⟨-, hopc⟩
    · rw [Tbl.find_insert]
      split
      · exact Option.some_ne_none _
      · exact h.loaded p j hp
    · cases hopc

theorem Tabled.load {code : List (Instr R)} {tbl : Tbl} (h : Tabled code tbl) {i : ℕ}
    {info : SlotInfo} (hfind : tbl.find i = some info) :
    Tabled (code ++ [.load i]) (tbl.setLast i code.length) := by
  refine ⟨?_, fun j info' hj => ?_, fun p j hp => ?_⟩
  · rw [List.filterMap_append, Tbl.map_fst_setLast, h.keys]
    exact congrArg List.reverse (List.append_nil _).symm
  · rw [Tbl.find_setLast] at hj
    obtain ⟨info₀, hinfo₀, rfl⟩ := Option.map_eq_some_iff.1 hj
    obtain ⟨hfirst, hlast, hle, hloads⟩ := h.info j info₀ hinfo₀
    rw [List.length_append]
    by_cases hji : j = i
    · rw [if_pos hji]
      refine ⟨getElem?_append_of_some hfirst, Nat.lt_succ_self _, hle.trans hlast.le,
        fun p hp => ?_⟩
      change info₀.first < p ∧ p ≤ code.length
      rcases getElem?_append_singleton hp with hp | ⟨rfl, -⟩
      · have := hloads p hp
        omega
      · omega
    · rw [if_neg hji]
      refine ⟨getElem?_append_of_some hfirst, by omega, hle, fun p hp => ?_⟩
      rcases getElem?_append_singleton hp with hp | ⟨-, hopc⟩
      · exact hloads p hp
      · exact absurd (Instr.load.inj hopc).symm hji
  · rw [Tbl.find_setLast, ne_eq, Option.map_eq_none_iff]
    rcases getElem?_append_singleton hp with hp | ⟨-, hopc⟩
    · exact h.loaded p j hp
    · rw [← Instr.load.inj hopc, hfind]
      exact Option.some_ne_none _

/-- **The table after an instruction**. -/
theorem Tabled.step (h : Tabled code tbl) {stk' : List Ty} {d' m' : ℕ}
    (hacc : Accepts tbl opc stk d m stk' d' m') :
    Tabled (code ++ [opc]) (tbl.step code.length stk opc) := by
  cases hacc with
  | atom hty =>
    cases opc <;> first | exact h.other nofun nofun | cases hty
  | block hsize =>
    cases opc <;> first | exact h.other nofun nofun | cases hsize
  | save hfind => exact h.save hfind _
  | load hfind => exact h.load hfind

/-- **The table of an accepted program** describes it, but for its `RETURN`. -/
theorem pass1_tabled {pre : List (Instr R)} (h : pass1 pre.length code stk d m tbl = .ok r)
    (ht : Tabled pre tbl) : Tabled (pre ++ code) r.2.2 := by
  induction code generalizing pre stk d m tbl with
  | nil => cases h
  | cons opc code ih =>
    by_cases hret : opc = .ret
    · subst hret
      obtain ⟨rfl, -, rfl⟩ := pass1_ret h
      exact ht.other nofun nofun
    · obtain ⟨stk', d', m', hacc, h'⟩ := pass1_accepts h hret
      have hlen : pre.length + 1 = (pre ++ [opc]).length := by simp
      rw [hlen] at h'
      have := ih h' (ht.step hacc)
      rwa [List.append_assoc] at this

/-! ### The linear scan -/

/-- **The invariant of the linear scan**: the active intervals are ordered by their ends, and the
slots of the active intervals and the available ones are different. -/
structure Scanned (active : List Active) (avail : List ℕ) (next : ℕ) : Prop where
  sorted : active.Pairwise fun a b => a.last ≤ b.last
  nodup : (active.map Active.slot ++ avail).Nodup
  /-- The slots have been assigned before. -/
  lt : ∀ slot ∈ active.map Active.slot ++ avail, slot < next

theorem addActive_perm (active : List Active) (last slot : ℕ) :
    (addActive active last slot).Perm (⟨last, slot⟩ :: active) := by
  induction active with
  | nil => exact .refl _
  | cons item rest ih =>
    rw [addActive]
    split
    · exact .refl _
    · exact (ih.cons item).trans (.swap _ _ _)

theorem addActive_sorted (last slot : ℕ) (h : active.Pairwise fun a b => a.last ≤ b.last) :
    (addActive active last slot).Pairwise fun a b => a.last ≤ b.last := by
  induction active with
  | nil => exact List.pairwise_singleton _ _
  | cons item rest ih =>
    obtain ⟨hitem, hrest⟩ := List.pairwise_cons.1 h
    rw [addActive]
    split
    · next hlt =>
      refine List.pairwise_cons.2 ⟨fun a ha => ?_, h⟩
      rcases List.mem_cons.1 ha with rfl | ha
      · exact hlt.le
      · exact hlt.le.trans (hitem a ha)
    · next hle =>
      refine List.pairwise_cons.2 ⟨fun a ha => ?_, ih hrest⟩
      rcases List.mem_cons.1 ((addActive_perm rest last slot).mem_iff.1 ha) with rfl | ha
      · exact not_lt.1 hle
      · exact hitem a ha

theorem Scanned.free {active : List Active} {avail : List ℕ} {next : ℕ} (first : ℕ)
    (h : Scanned active avail next) :
    Scanned (free first active avail).1 (free first active avail).2 next ∧
      ∀ a ∈ active, a ∈ (LiteralBytecode.free first active avail).1 ∨ a.last < first := by
  induction active generalizing avail with
  | nil => exact ⟨h, fun a ha => absurd ha List.not_mem_nil⟩
  | cons item rest ih =>
    rw [LiteralBytecode.free]
    split
    · next hlt =>
      have hperm : (rest.map Active.slot ++ item.slot :: avail).Perm
          ((item :: rest).map Active.slot ++ avail) := List.perm_middle
      have hrest : Scanned rest (item.slot :: avail) next :=
        ⟨(List.pairwise_cons.1 h.sorted).2, hperm.nodup_iff.2 h.nodup,
          fun slot hs => h.lt slot (hperm.mem_iff.1 hs)⟩
      refine ⟨(ih hrest).1, fun a ha => ?_⟩
      rcases List.mem_cons.1 ha with rfl | ha
      · exact .inr hlt
      · exact (ih hrest).2 a ha
    · exact ⟨h, fun a ha => .inl ha⟩

theorem Scanned.add {slot : ℕ} (h : Scanned active avail next)
    (hslot : slot ∉ active.map Active.slot ++ avail) (hlt : slot < next) (last : ℕ) :
    Scanned (addActive active last slot) avail next := by
  have hperm : ((addActive active last slot).map Active.slot ++ avail).Perm
      (slot :: (active.map Active.slot ++ avail)) :=
    ((addActive_perm active last slot).map _).append_right _
  refine ⟨addActive_sorted last slot h.sorted, hperm.nodup_iff.2 ?_, fun s hs => ?_⟩
  · exact List.nodup_cons.2 ⟨hslot, h.nodup⟩
  · rcases List.mem_cons.1 (hperm.mem_iff.1 hs) with rfl | hs
    · exact hlt
    · exact h.lt s hs

/-- **A step of the linear scan**: the slot of an interval is not that of an active one. -/
theorem linearScan_cons (i : Interval) (wl : List Interval) (assign : List ℕ)
    (h : Scanned active avail next) :
    ∃ slot avail' next',
      linearScan (i :: wl) active avail next assign =
        linearScan wl (addActive (free i.first active avail).1 i.last slot) avail' next'
          (assign.set i.id slot) ∧
      Scanned (addActive (free i.first active avail).1 i.last slot) avail' next' ∧
      next ≤ next' ∧ slot < next' ∧ ∀ a ∈ (free i.first active avail).1, a.slot ≠ slot := by
  obtain ⟨hfree, -⟩ := h.free i.first
  have hslots : ∀ a ∈ (free i.first active avail).1,
      a.slot ∈ (free i.first active avail).1.map Active.slot := fun a ha => List.mem_map_of_mem ha
  rw [linearScan]
  generalize hf : free i.first active avail = freed at hfree hslots
  obtain ⟨active', avail'⟩ := freed
  rcases avail' with _ | ⟨slot, avail'⟩
  · -- a new slot
    have hnext : next ∉ active'.map Active.slot ++ [] := fun hmem =>
      lt_irrefl _ (hfree.lt next hmem)
    have hmore : Scanned active' [] (next + 1) :=
      ⟨hfree.sorted, hfree.nodup, fun s hs => (hfree.lt s hs).trans (Nat.lt_succ_self _)⟩
    refine ⟨next, [], next + 1, rfl, hmore.add hnext (Nat.lt_succ_self _) _, Nat.le_succ _,
      Nat.lt_succ_self _, fun a ha heq => hnext ?_⟩
    rw [← heq, List.append_nil]
    exact hslots a ha
  · -- a slot that is available
    have hperm : (active'.map Active.slot ++ slot :: avail').Perm
        (slot :: (active'.map Active.slot ++ avail')) := List.perm_middle
    obtain ⟨hnot, hnodup⟩ := List.nodup_cons.1 (hperm.nodup_iff.1 hfree.nodup)
    have hrest : Scanned active' avail' next :=
      ⟨hfree.sorted, hnodup, fun s hs =>
        hfree.lt s (hperm.mem_iff.2 (List.mem_cons_of_mem _ hs))⟩
    have hlt := hfree.lt slot (hperm.mem_iff.2 List.mem_cons_self)
    refine ⟨slot, avail', next, rfl, hrest.add hnot hlt _, le_rfl, hlt, fun a ha heq => hnot ?_⟩
    rw [← heq]
    exact List.mem_append_left _ (hslots a ha)

theorem linearScan_get (h : Scanned active avail next) {id : ℕ} (hid : ∀ i ∈ wl, i.id ≠ id) :
    (linearScan wl active avail next assign).2[id]? = assign[id]? := by
  induction wl generalizing active avail next assign with
  | nil => rfl
  | cons i wl ih =>
    obtain ⟨hi, hwl⟩ := List.forall_mem_cons.1 hid
    obtain ⟨slot, avail', next', heq, h', -⟩ := linearScan_cons i wl assign h
    rw [heq, ih h' hwl, List.getElem?_set_ne hi]

/-- **An interval that has a slot** ends before those begin that get the same slot after it. -/
theorem linearScan_live (h : Scanned active avail next)
    (hsorted : wl.Pairwise fun i j => i.first ≤ j.first ∧ i.id ≠ j.id)
    (hlen : ∀ i ∈ wl, i.id < assign.length) {last slot : ℕ}
    (hlive : ∀ i ∈ wl, ⟨last, slot⟩ ∈ active ∨ last < i.first) :
    ∀ i ∈ wl, (linearScan wl active avail next assign).2[i.id]? = some slot → last < i.first := by
  induction wl generalizing active avail next assign with
  | nil => exact fun i hi => absurd hi List.not_mem_nil
  | cons i wl ih =>
    obtain ⟨hi, hwl⟩ := List.pairwise_cons.1 hsorted
    obtain ⟨hlive, hlives⟩ := List.forall_mem_cons.1 hlive
    obtain ⟨hlen, hlens⟩ := List.forall_mem_cons.1 hlen
    obtain ⟨slot', avail', next', heq, h', -, -, hne⟩ := linearScan_cons i wl assign h
    have hfree := (h.free i.first).2
    rw [heq]
    -- the interval is still active, or it has ended before this one begins
    have hcase : ⟨last, slot⟩ ∈ (free i.first active avail).1 ∨ last < i.first := by
      rcases hlive with hmem | hlt
      · exact hfree _ hmem
      · exact .inr hlt
    intro j hj hget
    rcases List.mem_cons.1 hj with rfl | hj
    · rw [linearScan_get h' fun k hk => (hi k hk).2.symm, List.getElem?_set_self hlen] at hget
      rcases hcase with hmem | hlt
      · exact absurd (Option.some.inj hget).symm (hne _ hmem)
      · exact hlt
    · refine ih h' hwl (fun k hk => ?_) (fun k hk => ?_) j hj hget
      · rw [List.length_set]
        exact hlens k hk
      · rcases hcase with hmem | hlt
        · exact .inl ((addActive_perm _ _ _).mem_iff.2 (List.mem_cons_of_mem _ hmem))
        · exact .inr (hlt.trans_le (hi k hk).1)

/-- **Intervals that share a slot do not overlap**. -/
theorem linearScan_disjoint (h : Scanned active avail next)
    (hsorted : wl.Pairwise fun i j => i.first ≤ j.first ∧ i.id ≠ j.id)
    (hlen : ∀ i ∈ wl, i.id < assign.length) :
    wl.Pairwise fun i j => ∀ slot,
      (linearScan wl active avail next assign).2[i.id]? = some slot →
      (linearScan wl active avail next assign).2[j.id]? = some slot → i.last < j.first := by
  induction wl generalizing active avail next assign with
  | nil => exact .nil
  | cons i wl ih =>
    obtain ⟨hi, hwl⟩ := List.pairwise_cons.1 hsorted
    obtain ⟨hlen, hlens⟩ := List.forall_mem_cons.1 hlen
    obtain ⟨slot', avail', next', heq, h', -⟩ := linearScan_cons i wl assign h
    have hlens' : ∀ k ∈ wl, k.id < (assign.set i.id slot').length := by
      intro k hk
      rw [List.length_set]
      exact hlens k hk
    rw [heq]
    refine List.pairwise_cons.2 ⟨fun j hj slot hget hget' => ?_, ih h' hwl hlens'⟩
    rw [linearScan_get h' fun k hk => (hi k hk).2.symm, List.getElem?_set_self hlen] at hget
    obtain rfl := Option.some.inj hget
    refine linearScan_live h' hwl hlens' (fun k _ => .inl ?_) j hj hget'
    exact (addActive_perm _ _ _).mem_iff.2 List.mem_cons_self

theorem linearScan_slot_lt (h : Scanned active avail next)
    (hids : wl.Pairwise fun i j => i.id ≠ j.id) (hlen : ∀ i ∈ wl, i.id < assign.length) :
    next ≤ (linearScan wl active avail next assign).1 ∧
      ∀ i ∈ wl, ∃ slot < (linearScan wl active avail next assign).1,
        (linearScan wl active avail next assign).2[i.id]? = some slot := by
  induction wl generalizing active avail next assign with
  | nil => exact ⟨le_rfl, fun i hi => absurd hi List.not_mem_nil⟩
  | cons i wl ih =>
    obtain ⟨hi, hwl⟩ := List.pairwise_cons.1 hids
    obtain ⟨hlen, hlens⟩ := List.forall_mem_cons.1 hlen
    obtain ⟨slot, avail', next', heq, h', hnext, hslot, -⟩ := linearScan_cons i wl assign h
    have hlens' : ∀ k ∈ wl, k.id < (assign.set i.id slot).length := by
      intro k hk
      rw [List.length_set]
      exact hlens k hk
    obtain ⟨hle, hget⟩ := ih h' hwl hlens'
    rw [heq]
    refine ⟨hnext.trans hle, fun j hj => ?_⟩
    rcases List.mem_cons.1 hj with rfl | hj
    · refine ⟨slot, hslot.trans_le hle, ?_⟩
      rw [linearScan_get h' fun k hk => (hi k hk).symm, List.getElem?_set_self hlen]
    · exact hget j hj

end SmlNj.LiteralBytecode
