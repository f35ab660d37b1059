import SmlNj.Lib.Transition
import SmlNj.CML.RepTypes

/-!
# CML barriers

A barrier collects the threads that have enrolled in it: a thread that waits on its
enrollment blocks until all enrolled threads wait, and then the update function is applied to
the state of the barrier and its result is given to all of them.  Each operation runs in an
atomic region, so that the operations of the threads are interleaved as whole steps; a thread
that is blocked in `wait` takes no step until it is woken up.

The reference cells that hold the status of an enrollment are a list, indexed by the number of
the enrollment; a resumption continuation is the thread that is blocked on it.

A call of `wait` that makes the two counters of a barrier equal releases the threads.  A resignation can also make them equal, but it releases
nobody: then all the threads that are left wait for each other.

## Main definitions

* `Consistent` — the counters and the list of blocked threads agree with the status cells.
* `AllWait` — some thread is enrolled, and all that are wait.
* `LateResign` — the resignation of the only enrolled thread that does not wait.
* `RoundOk` — a step applies the update function at most once, and only to release a round.

## Main results

* `step_consistent` — the operations keep the counters consistent.
* `allWait_step_iff` — all threads wait after a step just if it is a late resignation.
* `barrier_releases` — in a run without late resignations there is always a thread to wait for,
  and each release gives every thread of the round the result of one application of the update
  function.
-/

namespace SmlNj.CML.Barrier

abbrev Enrollment := ℕ

/-- What a barrier synchronisation gives to the threads. -/
inductive Result (α ε : Type*)
  | raise (exn : ε)
  | value (x : α)
  deriving DecidableEq

/-- The status of an enrollment. -/
inductive Status
  | enrolled
  | waiting
  | resigned
  deriving DecidableEq

/-- The state of a barrier, with the status cells of its enrollments. -/
structure Bar (α : Type*) where
  state : α
  /-- the number of threads that are enrolled -/
  nEnrolled : ℤ
  nWaiting : ℤ
  /-- the threads that are blocked, the last one first, each with its enrollment -/
  waiting : List (ThreadId × Enrollment)
  sts : List Status
  deriving DecidableEq

/-- What can be observed of a step. -/
inductive Obs (α ε : Type*)
  | enrolled (tid : ThreadId) (e : Enrollment)
  /-- a thread is blocked in `wait` -/
  | blocked (tid : ThreadId) (e : Enrollment)
  | applied (arg : α) (result : Result α ε)
  /-- a call of `wait` gives its result to the thread that made it -/
  | gives (tid : ThreadId) (result : Result α ε)
  /-- `resign` has returned -/
  | resigned (tid : ThreadId) (e : Enrollment)
  /-- the operation raises `Fail` -/
  | fail (tid : ThreadId) (msg : String)
  deriving DecidableEq

variable {α ε : Type*}

/-- Create a new barrier. -/
def barrier (init : α) : Bar α where
  state := init
  nEnrolled := 0
  nWaiting := 0
  waiting := []
  sts := []

/-- Enroll in a barrier.  The status cell is allocated after the atomic region has ended, but no
other thread knows it before the operation has returned. -/
def enroll (tid : ThreadId) (b : Bar α) : Bar α × List (Obs α ε) :=
  ({ b with nEnrolled := b.nEnrolled + 1, sts := b.sts ++ [.enrolled] },
    [.enrolled tid b.sts.length])

/-- Wake up a blocked thread, whose enrollment is enrolled again. -/
def wakeupThd (b : Bar α) (w : ThreadId × Enrollment) : Bar α :=
  { b with sts := b.sts.set w.2 .enrolled }

/-- The result of applying the update function: its value or the exception it raises. -/
def applyUpdate (update : α → Except ε α) (state : α) : Result α ε :=
  match update state with
  | .ok x => .value x
  | .error exn => .raise exn

def updatedState (update : α → Except ε α) (state : α) : α :=
  match update state with
  | .ok x => x
  | .error _ => state

/-- All threads are at the barrier: `e` is the enrollment of the thread that came last. -/
def release (update : α → Except ε α) (tid : ThreadId) (e : Enrollment) (b : Bar α) :
    Bar α × List (Obs α ε) :=
  let result := applyUpdate update b.state
  let b' := { b with state := updatedState update b.state, sts := b.sts.set e .enrolled }
  let b'' := b'.waiting.foldl wakeupThd b'
  ({ b'' with nWaiting := 0, waiting := [] },
    .applied b.state result :: (b'.waiting.map fun w => .gives w.1 result) ++
      [.gives tid result])

/-- Synchronise on a barrier. -/
def wait (update : α → Except ε α) (tid : ThreadId) (e : Enrollment) (b : Bar α) :
    Option (Bar α × List (Obs α ε)) :=
  match b.sts[e]? with
  | none => none
  | some .enrolled =>
      let b' := { b with sts := b.sts.set e .waiting, nWaiting := b.nWaiting + 1 }
      if b'.nWaiting = b'.nEnrolled then some (release update tid e b')
      else
        some ({ b' with sts := b'.sts.set e .waiting, waiting := (tid, e) :: b'.waiting },
          [.blocked tid e])
  | some .waiting => some (b, [.fail tid "multiple barrier waits!"])
  | some .resigned => some (b, [.fail tid "barrier wait after resignation"])

/-- Resign from an enrolled barrier. -/
def resign (tid : ThreadId) (e : Enrollment) (b : Bar α) : Option (Bar α × List (Obs α ε)) :=
  match b.sts[e]? with
  | none => none
  | some .resigned => some (b, [.resigned tid e])
  | some .waiting => some (b, [.fail tid "resign while waiting"])
  | some .enrolled =>
      some ({ b with sts := b.sts.set e .resigned, nEnrolled := b.nEnrolled - 1 },
        [.resigned tid e])

/-- The operations on a barrier; the last two are given an enrollment. -/
inductive Op
  | enroll
  | wait (e : Enrollment)
  | resign (e : Enrollment)
  deriving DecidableEq

/-- **A step**: a thread that is not blocked runs an operation. -/
def step (update : α → Except ε α) (b : Bar α) (l : ThreadId × Op) :
    Option (Bar α × List (Obs α ε)) :=
  if l.1 ∈ b.waiting.map Prod.fst then none
  else
    match l.2 with
    | .enroll => some (enroll l.1 b)
    | .wait e => wait update l.1 e b
    | .resign e => resign l.1 e b

end SmlNj.CML.Barrier

/-! ## When a barrier releases its threads -/

namespace SmlNj.CML.Barrier

open Transition

variable {α ε : Type*}

/-! ### The counters -/

/-- The counters and the list of blocked threads agree with the status cells. -/
structure Consistent (b : Bar α) : Prop where
  nWaiting_eq : b.nWaiting = b.sts.count .waiting
  nEnrolled_eq : b.nEnrolled = b.sts.countP (· ≠ .resigned)
  nodup_waiting : (b.waiting.map Prod.snd).Nodup
  mem_waiting_iff : ∀ e, e ∈ b.waiting.map Prod.snd ↔ b.sts[e]? = some .waiting

/-- Some thread is enrolled, and all threads that are enrolled wait. -/
def AllWait (b : Bar α) : Prop :=
  (∃ st ∈ b.sts, st ≠ .resigned) ∧ ∀ st ∈ b.sts, st ≠ .resigned → st = .waiting

instance (b : Bar α) : Decidable (AllWait b) := inferInstanceAs (Decidable (_ ∧ _))

theorem countP_ne_resigned (sts : List Status) :
    sts.countP (· ≠ .resigned) = sts.count .waiting + sts.count .enrolled := by
  induction sts with
  | nil => rfl
  | cons st sts ih =>
    rw [List.countP_cons, ih]
    cases st <;> simp <;> omega

variable {b b' : Bar α} {sts : List Status} {e : Enrollment} {tid : ThreadId} {os : List (Obs α ε)}
  {update : α → Except ε α} {l : ThreadId × Op}

theorem Consistent.allWait_iff (h : Consistent b) :
    AllWait b ↔ 0 < b.nWaiting ∧ b.nWaiting = b.nEnrolled := by
  rw [h.nWaiting_eq, h.nEnrolled_eq, countP_ne_resigned]
  have hcount : (b.sts.count .enrolled = 0) ↔ ∀ st ∈ b.sts, st ≠ .resigned → st = .waiting := by
    rw [List.count_eq_zero]
    constructor
    · intro hne st hst hres
      cases st with
      | enrolled => exact absurd hst hne
      | waiting => rfl
      | resigned => exact absurd rfl hres
    · intro hall hmem
      exact absurd (hall _ hmem (by decide)) (by decide)
  constructor
  · rintro ⟨⟨st, hst, hres⟩, hall⟩
    have hzero := hcount.mpr hall
    have hpos : 0 < b.sts.count .waiting := by
      rw [List.count_pos_iff, ← hall st hst hres]
      exact hst
    omega
  · rintro ⟨hpos, heq⟩
    have hmem : Status.waiting ∈ b.sts := List.count_pos_iff.mp (by omega)
    exact ⟨⟨_, hmem, by decide⟩, hcount.mp (by omega)⟩

theorem consistent_barrier (init : α) : Consistent (barrier init) := by
  constructor <;> simp [barrier]

theorem not_allWait_barrier (init : α) : ¬ AllWait (barrier init) := by
  simp [AllWait, barrier]

theorem count_set_status {old : Status} (h : sts[e]? = some old) (new st : Status) :
    (sts.set e new).count st + (if old = st then 1 else 0) =
      sts.count st + (if new = st then 1 else 0) := by
  obtain ⟨hlt, hget⟩ := List.getElem?_eq_some_iff.mp h
  rw [List.count_set hlt, hget]
  simp only [beq_iff_eq]
  by_cases hold : old = st
  · have hpos : 0 < sts.count st := List.count_pos_iff.mpr (hold ▸ List.mem_of_getElem? h)
    rw [if_pos hold]
    omega
  · rw [if_neg hold]
    omega

theorem foldl_wakeupThd (ws : List (ThreadId × Enrollment)) (b : Bar α) :
    ws.foldl wakeupThd b =
      { b with sts := (ws.map Prod.snd).foldl (fun sts e => sts.set e .enrolled) b.sts } := by
  induction ws generalizing b with
  | nil => rfl
  | cons w ws ih => rw [List.foldl_cons, ih]; rfl

/-- The status cells after the threads that are blocked have been woken up. -/
def wakeAll (es : List Enrollment) (sts : List Status) : List Status :=
  es.foldl (fun sts e => sts.set e .enrolled) sts

theorem getElem?_wakeAll (es : List Enrollment) (sts : List Status) (e : Enrollment) :
    (wakeAll es sts)[e]? = if e ∈ es then sts[e]?.map (fun _ => .enrolled) else sts[e]? := by
  induction es generalizing sts with
  | nil => simp [wakeAll]
  | cons e' es ih =>
    have hstep : wakeAll (e' :: es) sts = wakeAll es (sts.set e' .enrolled) := rfl
    rw [hstep, ih, List.getElem?_set]
    by_cases he : e' = e
    · subst he
      by_cases hlt : e' < sts.length <;> simp [hlt]
    · have hmem : e ∈ e' :: es ↔ e ∈ es := by simp [Ne.symm he]
      simp [if_neg he, hmem]

theorem count_wakeAll_waiting {es : List Enrollment} (h : ∀ e, e ∈ es ↔ sts[e]? = some .waiting) :
    (wakeAll es sts).count .waiting = 0 := by
  rw [List.count_eq_zero]
  intro hmem
  obtain ⟨e, he⟩ := List.mem_iff_getElem?.mp hmem
  rw [getElem?_wakeAll] at he
  by_cases hin : e ∈ es
  · rw [if_pos hin] at he
    simp at he
  · rw [if_neg hin] at he
    exact hin ((h e).mpr he)

theorem countP_wakeAll {es : List Enrollment}
    (h : ∀ e ∈ es, ∃ st, sts[e]? = some st ∧ st ≠ .resigned) :
    (wakeAll es sts).countP (· ≠ .resigned) = sts.countP (· ≠ .resigned) := by
  induction es generalizing sts with
  | nil => rfl
  | cons e es ih =>
    obtain ⟨st, hst, hne⟩ := h e List.mem_cons_self
    have hstep : wakeAll (e :: es) sts = wakeAll es (sts.set e .enrolled) := rfl
    have hset : ∀ e' ∈ es, ∃ st, (sts.set e .enrolled)[e']? = some st ∧ st ≠ .resigned := by
      intro e' he'
      rw [List.getElem?_set]
      by_cases heq : e = e'
      · obtain ⟨hlt, -⟩ := List.getElem?_eq_some_iff.mp hst
        exact ⟨.enrolled, by simp [heq ▸ hlt, heq], by decide⟩
      · rw [if_neg heq]
        exact h e' (List.mem_cons_of_mem _ he')
    rw [hstep, ih hset, countP_ne_resigned, countP_ne_resigned]
    have hw := count_set_status hst .enrolled .waiting
    have hen := count_set_status hst .enrolled .enrolled
    cases st <;> simp at hw hen hne <;> omega

/-! ### The operations keep the barrier consistent -/

theorem enroll_consistent (h : Consistent b) (tid : ThreadId) :
    Consistent (@enroll α ε tid b).1 where
  nWaiting_eq := by simp [enroll, h.nWaiting_eq]
  nEnrolled_eq := by simp [enroll, h.nEnrolled_eq]
  nodup_waiting := h.nodup_waiting
  mem_waiting_iff e := by
    simp only [enroll]
    rw [h.mem_waiting_iff, List.getElem?_append]
    by_cases hlt : e < b.sts.length
    · rw [if_pos hlt]
    · rw [List.getElem?_eq_none (Nat.le_of_not_lt hlt)]
      cases e - b.sts.length <;> simp

theorem resign_consistent (h : Consistent b) (hs : resign tid e b = some (b', os)) :
    Consistent b' := by
  unfold resign at hs
  split at hs
  · simp at hs
  · simp only [Option.some.injEq, Prod.mk.injEq] at hs
    rwa [← hs.1]
  · simp only [Option.some.injEq, Prod.mk.injEq] at hs
    rwa [← hs.1]
  · next hst =>
    obtain ⟨rfl, -⟩ := hs
    have hw := count_set_status hst .resigned .waiting
    have hen := count_set_status hst .resigned .enrolled
    simp at hw hen
    refine ⟨?_, ?_, h.nodup_waiting, ?_⟩
    · show b.nWaiting = ((b.sts.set e .resigned).count .waiting : ℕ)
      rw [h.nWaiting_eq, hw]
    · show b.nEnrolled - 1 = ((b.sts.set e .resigned).countP (· ≠ .resigned) : ℕ)
      rw [h.nEnrolled_eq, countP_ne_resigned, countP_ne_resigned]
      omega
    · intro e'
      rw [h.mem_waiting_iff, List.getElem?_set]
      by_cases he : e = e'
      · subst he
        obtain ⟨hlt, hget⟩ := List.getElem?_eq_some_iff.mp hst
        simp [hlt, hget]
      · rw [if_neg he]

theorem block_consistent (h : Consistent b) (hst : b.sts[e]? = some .enrolled) :
    Consistent { b with sts := (b.sts.set e .waiting).set e .waiting,
                        nWaiting := b.nWaiting + 1, waiting := (tid, e) :: b.waiting } := by
  obtain ⟨hlt, -⟩ := List.getElem?_eq_some_iff.mp hst
  have hw := count_set_status hst .waiting .waiting
  have hen := count_set_status hst .waiting .enrolled
  simp at hw hen
  have hnot : e ∉ b.waiting.map Prod.snd := by
    rw [h.mem_waiting_iff, hst]
    decide
  rw [List.set_set]
  refine ⟨?_, ?_, ?_, ?_⟩
  · show b.nWaiting + 1 = ((b.sts.set e .waiting).count .waiting : ℕ)
    rw [h.nWaiting_eq, hw]
    rfl
  · show b.nEnrolled = ((b.sts.set e .waiting).countP (· ≠ .resigned) : ℕ)
    rw [h.nEnrolled_eq, countP_ne_resigned, countP_ne_resigned]
    omega
  · exact List.nodup_cons.mpr ⟨hnot, h.nodup_waiting⟩
  · intro e'
    show e' ∈ e :: b.waiting.map Prod.snd ↔ _
    rw [List.mem_cons, h.mem_waiting_iff, List.getElem?_set]
    by_cases he : e = e'
    · subst he
      simp [hlt]
    · rw [if_neg he]
      simp [Ne.symm he]

theorem release_consistent (h : Consistent b) (hst : b.sts[e]? = some .enrolled) :
    Consistent (release update tid e
      { b with sts := b.sts.set e .waiting, nWaiting := b.nWaiting + 1 }).1 := by
  obtain ⟨hlt, hget⟩ := List.getElem?_eq_some_iff.mp hst
  -- the thread that came last has its own status reset before the others are woken up
  have hsts : (b.sts.set e .waiting).set e .enrolled = b.sts := by
    rw [List.set_set, ← hget, List.set_getElem_self]
  have hfold : (release update tid e
      { b with sts := b.sts.set e .waiting, nWaiting := b.nWaiting + 1 }).1 =
      { b with state := updatedState update b.state, sts := wakeAll (b.waiting.map Prod.snd) b.sts,
               nWaiting := 0, waiting := [] } := by
    simp only [release, hsts, foldl_wakeupThd]
    rfl
  have hzero := count_wakeAll_waiting h.mem_waiting_iff
  rw [hfold]
  refine ⟨?_, ?_, List.nodup_nil, ?_⟩
  · show (0 : ℤ) = _
    rw [hzero]
    rfl
  · show b.nEnrolled = _
    rw [h.nEnrolled_eq, countP_wakeAll]
    intro e' he'
    exact ⟨.waiting, (h.mem_waiting_iff e').mp he', by decide⟩
  · intro e'
    constructor
    · intro he'
      cases he'
    · intro he'
      exact absurd (List.mem_of_getElem? he') (List.count_eq_zero.mp hzero)

theorem wait_enrolled (hst : b.sts[e]? = some .enrolled) :
    wait update tid e b =
      if b.nWaiting + 1 = b.nEnrolled then
        some (release update tid e
          { b with sts := b.sts.set e .waiting, nWaiting := b.nWaiting + 1 })
      else
        some ({ b with sts := (b.sts.set e .waiting).set e .waiting, nWaiting := b.nWaiting + 1,
                       waiting := (tid, e) :: b.waiting }, [.blocked tid e]) := by
  simp [wait, hst]

theorem wait_consistent (h : Consistent b) (hs : wait update tid e b = some (b', os)) :
    Consistent b' := by
  rcases hst : b.sts[e]? with _ | ⟨_ | _ | _⟩
  · simp [wait, hst] at hs
  · rw [wait_enrolled hst] at hs
    split at hs
    · have hb : _ = b' := congrArg Prod.fst (Option.some.inj hs)
      rw [← hb]
      exact release_consistent h hst
    · rw [← (Prod.mk.inj (Option.some.inj hs)).1]
      exact block_consistent h hst
  · simp only [wait, hst, Option.some.injEq, Prod.mk.injEq] at hs
    rwa [← hs.1]
  · simp only [wait, hst, Option.some.injEq, Prod.mk.injEq] at hs
    rwa [← hs.1]

theorem step_eq (hs : step update b l = some (b', os)) :
    (l.2 = .enroll ∧ enroll l.1 b = (b', os)) ∨
      (∃ e, l.2 = .wait e ∧ wait update l.1 e b = some (b', os)) ∨
      (∃ e, l.2 = .resign e ∧ resign l.1 e b = some (b', os)) := by
  unfold step at hs
  split at hs
  · simp at hs
  · split at hs
    · next h => exact .inl ⟨h, Option.some.inj hs⟩
    · next e h => exact .inr (.inl ⟨e, h, hs⟩)
    · next e h => exact .inr (.inr ⟨e, h, hs⟩)

/-- **Every operation keeps the counters**, the list of blocked threads and the status cells
consistent. -/
theorem step_consistent (h : Consistent b) (hs : step update b l = some (b', os)) :
    Consistent b' := by
  rcases step_eq hs with ⟨-, hop⟩ | ⟨e, -, hop⟩ | ⟨e, -, hop⟩
  · have henroll := @enroll_consistent α ε b h l.1
    rwa [hop] at henroll
  · exact wait_consistent h hop
  · exact resign_consistent h hop

/-! ### When all threads wait -/

/-- The step is the resignation of the only enrolled thread that does not wait, while others
do. -/
def LateResign (b : Bar α) (l : ThreadId × Op) : Prop :=
  ∃ e, l.2 = .resign e ∧ b.sts[e]? = some .enrolled ∧ 0 < b.nWaiting ∧
    b.nWaiting + 1 = b.nEnrolled

def PromptStep (b : Bar α) (l : ThreadId × Op) : Prop := ¬ LateResign b l

theorem wait_not_allWait (h : Consistent b) (hall : ¬ AllWait b)
    (hs : wait update tid e b = some (b', os)) : ¬ AllWait b' := by
  have h' := wait_consistent h hs
  rw [h'.allWait_iff]
  rcases hst : b.sts[e]? with _ | ⟨_ | _ | _⟩
  · simp [wait, hst] at hs
  · rw [wait_enrolled hst] at hs
    split at hs
    · have hb : b'.nWaiting = 0 := (congrArg (fun r => r.1.nWaiting) (Option.some.inj hs)).symm
      omega
    · next hne =>
      obtain ⟨rfl, -⟩ := Prod.mk.inj (Option.some.inj hs)
      exact fun hw => hne hw.2
  · simp only [wait, hst, Option.some.injEq, Prod.mk.injEq] at hs
    rwa [← hs.1, ← h.allWait_iff]
  · simp only [wait, hst, Option.some.injEq, Prod.mk.injEq] at hs
    rwa [← hs.1, ← h.allWait_iff]

theorem resign_allWait_iff (h : Consistent b) (hall : ¬ AllWait b)
    (hs : resign tid e b = some (b', os)) :
    AllWait b' ↔ b.sts[e]? = some .enrolled ∧ 0 < b.nWaiting ∧ b.nWaiting + 1 = b.nEnrolled := by
  have h' := resign_consistent h hs
  rcases hst : b.sts[e]? with _ | ⟨_ | _ | _⟩
  · simp [resign, hst] at hs
  · simp only [resign, hst] at hs
    obtain ⟨rfl, -⟩ := hs
    rw [h'.allWait_iff]
    simp only [true_and]
    constructor <;> rintro ⟨hpos, heq⟩ <;> exact ⟨hpos, by omega⟩
  · simp only [resign, hst, Option.some.injEq, Prod.mk.injEq] at hs
    rw [← hs.1]
    simp [hall]
  · simp only [resign, hst, Option.some.injEq, Prod.mk.injEq] at hs
    rw [← hs.1]
    simp [hall]

/-- **All threads wait after a step just if it is a late resignation.** -/
theorem allWait_step_iff (h : Consistent b) (hall : ¬ AllWait b)
    (hs : step update b l = some (b', os)) : AllWait b' ↔ LateResign b l := by
  rcases step_eq hs with ⟨hl, hop⟩ | ⟨e, hl, hop⟩ | ⟨e, hl, hop⟩
  · have h' := step_consistent h hs
    obtain ⟨rfl, -⟩ := Prod.mk.inj hop
    have hle : b.nWaiting ≤ b.nEnrolled := by
      rw [h.nWaiting_eq, h.nEnrolled_eq, countP_ne_resigned]
      omega
    rw [h'.allWait_iff]
    constructor
    · rintro ⟨-, heq⟩
      have heq' : b.nWaiting = b.nEnrolled + 1 := heq
      omega
    · rintro ⟨e, he, -⟩
      rw [hl] at he
      cases he
  · have hnot := wait_not_allWait h hall hop
    refine iff_of_false hnot ?_
    rintro ⟨e', he, -⟩
    rw [hl] at he
    cases he
  · rw [resign_allWait_iff h hall hop]
    constructor
    · intro hlate
      exact ⟨e, hl, hlate⟩
    · rintro ⟨e', he, hlate⟩
      rw [hl] at he
      cases he
      exact hlate

/-! ### Rounds -/

def applications (os : List (Obs α ε)) : List (α × Result α ε) :=
  os.filterMap fun
    | .applied arg result => some (arg, result)
    | _ => none

/-- The results that calls of `wait` give to their threads. -/
def given (os : List (Obs α ε)) : List (ThreadId × Result α ε) :=
  os.filterMap fun
    | .gives tid result => some (tid, result)
    | _ => none

/-- The calls of `wait` that have blocked in the round, after one more observation. -/
def roundWaiter (ws : List (ThreadId × Enrollment)) : Obs α ε → List (ThreadId × Enrollment)
  | .blocked tid e => (tid, e) :: ws
  | .applied _ _ => []
  | _ => ws

/-- The calls of `wait` that have blocked since the last release, the last one first. -/
def roundWaiters (os : List (Obs α ε)) : List (ThreadId × Enrollment) :=
  os.foldl roundWaiter []

/-- **What a step does to a round**: it does not apply the update function, gives no result and
leaves the state; or it is the last call of `wait` of the round, applies the update function
once, gives the result to those who have waited and to the caller, and leaves the state that
the update function has returned, or the old state if that has failed. -/
def RoundOk (update : α → Except ε α) (b : Bar α) (l : ThreadId × Op) (b' : Bar α)
    (os : List (Obs α ε)) : Prop :=
  (applications os = [] ∧ given os = [] ∧ b'.state = b.state) ∨
  ∃ e result, l.2 = .wait e ∧ applications os = [(b.state, result)] ∧
    given os = (b.waiting.map fun w => (w.1, result)) ++ [(l.1, result)] ∧
    ((∃ x, update b.state = .ok x ∧ result = .value x ∧ b'.state = x) ∨
      ∃ exn, update b.state = .error exn ∧ result = .raise exn ∧ b'.state = b.state)

theorem release_obs (update : α → Except ε α) (tid : ThreadId) (e : Enrollment) (b : Bar α) :
    (release update tid e b).2 =
      .applied b.state (applyUpdate update b.state) ::
        ((b.waiting.map fun w => .gives w.1 (applyUpdate update b.state)) ++
          [.gives tid (applyUpdate update b.state)]) := rfl

theorem given_gives (ws : List (ThreadId × Enrollment)) (tid : ThreadId) (result : Result α ε) :
    given ((ws.map fun w => .gives w.1 result) ++ [.gives tid result]) =
      (ws.map fun w => (w.1, result)) ++ [(tid, result)] := by
  induction ws with
  | nil => rfl
  | cons w ws ih => exact congrArg (List.cons (w.1, result)) ih

theorem applications_gives (ws : List (ThreadId × Enrollment)) (tid : ThreadId)
    (result : Result α ε) :
    applications ((ws.map fun w => .gives w.1 result) ++ [.gives tid result]) = [] := by
  induction ws with
  | nil => rfl
  | cons w ws ih => exact ih

theorem release_state (update : α → Except ε α) (tid : ThreadId) (e : Enrollment) (b : Bar α) :
    (release update tid e b).1.state = updatedState update b.state := by
  simp [release, foldl_wakeupThd]

theorem release_roundOk (hs : release update tid e b' = (b, os)) {b₀ : Bar α}
    (hstate : b'.state = b₀.state) (hw : b'.waiting = b₀.waiting) :
    RoundOk update b₀ (tid, .wait e) b os := by
  have hos := release_obs update tid e b'
  have hst := release_state update tid e b'
  rw [hs, hstate, hw] at hos
  rw [hs, hstate] at hst
  refine .inr ⟨e, applyUpdate update b₀.state, rfl, ?_, ?_, ?_⟩
  · rw [show os = _ from hos]
    exact congrArg (List.cons _) (applications_gives b₀.waiting tid _)
  · rw [show os = _ from hos]
    exact given_gives b₀.waiting tid _
  · rcases hu : update b₀.state with exn | x
    · refine .inr ⟨exn, rfl, by simp [applyUpdate, hu], ?_⟩
      rw [show b.state = _ from hst]
      simp [updatedState, hu]
    · refine .inl ⟨x, rfl, by simp [applyUpdate, hu], ?_⟩
      rw [show b.state = _ from hst]
      simp [updatedState, hu]

theorem step_roundOk (hs : step update b l = some (b', os)) : RoundOk update b l b' os := by
  obtain ⟨tid, op⟩ := l
  rcases step_eq hs with ⟨hl, hop⟩ | ⟨e, hl, hop⟩ | ⟨e, hl, hop⟩
  · obtain ⟨rfl, rfl⟩ := Prod.mk.inj hop
    exact .inl ⟨rfl, rfl, rfl⟩
  · simp only at hl hop
    subst hl
    rcases hst : b.sts[e]? with _ | ⟨_ | _ | _⟩
    · simp [wait, hst] at hop
    · rw [wait_enrolled hst] at hop
      split at hop
      · exact release_roundOk (Option.some.inj hop) rfl rfl
      · obtain ⟨rfl, rfl⟩ := Prod.mk.inj (Option.some.inj hop)
        exact .inl ⟨rfl, rfl, rfl⟩
    · simp only [wait, hst] at hop
      obtain ⟨rfl, rfl⟩ := hop
      exact .inl ⟨rfl, rfl, rfl⟩
    · simp only [wait, hst] at hop
      obtain ⟨rfl, rfl⟩ := hop
      exact .inl ⟨rfl, rfl, rfl⟩
  · unfold resign at hop
    split at hop
    · simp at hop
    all_goals
      obtain ⟨rfl, rfl⟩ := hop
      exact .inl ⟨rfl, rfl, rfl⟩

theorem foldl_roundWaiter_gives (ws init : List (ThreadId × Enrollment)) (tid : ThreadId)
    (result : Result α ε) :
    ((ws.map fun w => Obs.gives w.1 result) ++ [Obs.gives tid result]).foldl roundWaiter init =
      init := by
  induction ws with
  | nil => rfl
  | cons w ws ih => exact ih

theorem step_roundWaiters {tr : List (Obs α ε)} (h : b.waiting = roundWaiters tr)
    (hs : step update b l = some (b', os)) : b'.waiting = roundWaiters (tr ++ os) := by
  rw [roundWaiters, List.foldl_append, ← roundWaiters, ← h]
  rcases step_eq hs with ⟨-, hop⟩ | ⟨e, -, hop⟩ | ⟨e, -, hop⟩
  · obtain ⟨rfl, rfl⟩ := Prod.mk.inj hop
    rfl
  · rcases hst : b.sts[e]? with _ | ⟨_ | _ | _⟩
    · simp [wait, hst] at hop
    · rw [wait_enrolled hst] at hop
      split at hop
      · have hr := Option.some.inj hop
        have hos : os = _ := (congrArg Prod.snd hr).symm.trans (release_obs update l.1 e _)
        have hw : b'.waiting = [] := (congrArg (fun r => r.1.waiting) hr).symm
        rw [hos, hw]
        exact (foldl_roundWaiter_gives _ [] _ _).symm
      · obtain ⟨rfl, rfl⟩ := Prod.mk.inj (Option.some.inj hop)
        rfl
    · simp only [wait, hst] at hop
      obtain ⟨rfl, rfl⟩ := hop
      rfl
    · simp only [wait, hst] at hop
      obtain ⟨rfl, rfl⟩ := hop
      rfl
  · unfold resign at hop
    split at hop
    · simp at hop
    all_goals
      obtain ⟨rfl, rfl⟩ := hop
      rfl

/-! ### Runs -/

/-- **Barriers release when everyone waits**, as long as no thread resigns late: in every state
that such a run reaches the counters count the enrollments that wait and that are not resigned,
there is a thread to wait for, and the threads that are blocked are those of the round; each
next step ends a round or leaves it as `RoundOk` says, and all threads wait after it just if it
is a late resignation. -/
theorem barrier_releases (update : α → Except ε α) (init : α) {b : Bar α}
    {tr : List (Obs α ε)} (h : Run (step update) PromptStep (barrier init) b tr) :
    Consistent b ∧ ¬ AllWait b ∧ b.waiting = roundWaiters tr ∧
      ∀ l b' os, step update b l = some (b', os) →
        RoundOk update b l b' os ∧ (AllWait b' ↔ LateResign b l) := by
  have hstate : Consistent b ∧ ¬ AllWait b := by
    refine h.state_invariant (I := fun b => Consistent b ∧ ¬ AllWait b)
      ⟨consistent_barrier init, not_allWait_barrier init⟩ ?_
    intro s l s' os hI hok hs
    refine ⟨step_consistent hI.1 hs, ?_⟩
    rw [allWait_step_iff hI.1 hI.2 hs]
    exact hok
  have hwaiters : b.waiting = roundWaiters tr := by
    refine h.invariant (I := fun b tr => b.waiting = roundWaiters tr) rfl ?_
    intro s tr l s' os hI _ hs
    exact step_roundWaiters hI hs
  refine ⟨hstate.1, hstate.2, hwaiters, ?_⟩
  intro l b' os hs
  exact ⟨step_roundOk hs, allWait_step_iff hstate.1 hstate.2 hs⟩

/-- The counter barrier with two threads enrolled. -/
def twoEnrolled : Bar ℕ where
  state := 0
  nEnrolled := 2
  nWaiting := 0
  waiting := []
  sts := [.enrolled, .enrolled]

/-- The counter barrier with two threads enrolled, the first of which waits. -/
def oneWaits : Bar ℕ where
  state := 0
  nEnrolled := 2
  nWaiting := 1
  waiting := [(1, 0)]
  sts := [.waiting, .enrolled]

def count (n : ℕ) : Except Unit ℕ := .ok (n + 1)

theorem run_oneWaits : Run (step count) PromptStep (barrier 0) oneWaits
    [.enrolled 1 0, .enrolled 2 1, .blocked 1 0] := by
  have hprompt : ∀ (b : Bar ℕ) (l : ThreadId × Op), (∀ e, l.2 ≠ .resign e) → PromptStep b l := by
    rintro b l hl ⟨e, he, -⟩
    exact hl e he
  have h0 : Run (step count) PromptStep (barrier 0) (barrier 0) [] := Run.nil
  have h1 := h0.snoc (l := (1, .enroll)) (hprompt _ _ (by simp))
    (by rfl : step count _ _ = some (_, [.enrolled 1 0]))
  have h2 := h1.snoc (l := (2, .enroll)) (hprompt _ _ (by simp))
    (by rfl : step count _ _ = some (twoEnrolled, [.enrolled 2 1]))
  exact h2.snoc (l := (1, .wait 0)) (hprompt _ _ (by simp))
    (by rfl : step count _ _ = some (oneWaits, [.blocked 1 0]))

theorem barrier_releases_oneWaits : ¬ AllWait oneWaits ∧
    ∀ l b' os, step count oneWaits l = some (b', os) →
      RoundOk count oneWaits l b' os ∧ (AllWait b' ↔ LateResign oneWaits l) :=
  have h := barrier_releases count 0 run_oneWaits
  ⟨h.2.1, h.2.2.2⟩

/-- The second thread resigns, and the first waits for nobody. -/
theorem lateResign_leaves_allWait : ¬ ∀ (b : Bar ℕ) (tr : List (Obs ℕ Unit)),
    Run (step count) Unrestricted (barrier 0) b tr → ¬ AllWait b := by
  intro hclaim
  have h0 : Run (step count) Unrestricted (barrier 0) (barrier 0) [] := Run.nil
  have h1 := h0.snoc (l := (1, .enroll)) trivial
    (by rfl : step count _ _ = some (_, [.enrolled 1 0]))
  have h2 := h1.snoc (l := (2, .enroll)) trivial
    (by rfl : step count _ _ = some (twoEnrolled, [.enrolled 2 1]))
  have h3 := h2.snoc (l := (1, .wait 0)) trivial
    (by rfl : step count _ _ = some (oneWaits, [.blocked 1 0]))
  have h4 := h3.snoc (l := (2, .resign 1)) trivial
    (by rfl : step count _ _ = some (_, [.resigned 2 1]))
  exact hclaim _ _ h4 (by decide)

end SmlNj.CML.Barrier
