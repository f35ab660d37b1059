import SmlNj.CML.SyncVar
import SmlNj.Lib.ExceptList

/-!
# Synchronising memory cells are consistent

The operations on the cells take effect in the order in which they are observed: each is a step
of a cell that is used by one thread only.  When no thread is in an atomic region, no thread waits
for a cell that has a value.

## Main definitions

* `SpecStep`, `Seq` — the operations on a cell in sequence.
* `inserted`, `removed` — the values that operations put into a cell and remove from it.
* `Inv` — the waiting queues have an entry for each thread that is blocked, and a cell with a
  value has none that is not cancelled, unless its value is being handed over.

## Main results

* `syncVar_consistent` — what holds in every run.
-/

namespace SmlNj.CML.SyncVar

open Transition

variable {α : Type*}

/-! ### The operations in sequence -/

/-- A step of a cell that is used by one thread: what an operation with its result does to the
value. -/
inductive SpecStep : Option α → CellOp α → Option α → Prop
  | created (v : Option α) : SpecStep none (.created v) v
  | put (x : α) : SpecStep none (.put x true) (some x)
  | putFull (x v : α) : SpecStep (some v) (.put x false) (some v)
  | get (v : α) : SpecStep (some v) (.get v) (some v)
  | take (v : α) : SpecStep (some v) (.take v) none
  | swap (newV v : α) : SpecStep (some v) (.swap newV v) (some newV)
  | getPoll (v : Option α) : SpecStep v (.getPoll v) v
  | takePoll (v : Option α) : SpecStep v (.takePoll v) none

/-- Operations in sequence. -/
inductive Seq : Option α → List (CellOp α) → Option α → Prop
  | nil (v : Option α) : Seq v [] v
  | cons {v w u : Option α} {op : CellOp α} {ops : List (CellOp α)} :
      SpecStep v op w → Seq w ops u → Seq v (op :: ops) u

variable {v : Option α} {s s' : State α} {c : CellId} {cell old : Cell α} {tid : ThreadId} {msg : α}
  {os : List (Obs α)} {op : Op α}

theorem Seq.append {w u : Option α} {ops ops' : List (CellOp α)} (h : Seq v ops w)
    (h' : Seq w ops' u) : Seq v (ops ++ ops') u := by
  induction h with
  | nil => exact h'
  | cons hstep _ ih => exact .cons hstep (ih h')

/-- The values that operations put into a cell. -/
def inserted (ops : List (CellOp α)) : List α :=
  ops.filterMap fun
    | .created init => init
    | .put x true => some x
    | .swap newV _ => some newV
    | _ => none

/-- The values that operations remove from a cell. -/
def removed (ops : List (CellOp α)) : List α :=
  ops.filterMap fun
    | .take v => some v
    | .swap _ v => some v
    | .takePoll v => v
    | _ => none

/-- **Each value that is put into a cell is removed by at most one operation**: the values that
are removed, with the one that is left, are those that were put, in order. -/
theorem Seq.inserted_eq {w : Option α} {ops : List (CellOp α)} (h : Seq v ops w) :
    v.toList ++ inserted ops = removed ops ++ w.toList := by
  induction h with
  | nil v => simp [inserted, removed]
  | @cons v w u op ops hstep _ ih =>
    cases hstep with
    | created v => cases w <;> simpa [inserted, removed] using ih
    | put x => simpa [inserted, removed] using ih
    | putFull x v => simpa [inserted, removed] using ih
    | get v => simpa [inserted, removed] using ih
    | take v => simpa [inserted, removed] using ih
    | swap newV v => simpa [inserted, removed] using ih
    | getPoll v => simpa [inserted, removed] using ih
    | takePoll v => cases v <;> simpa [inserted, removed] using ih

def opsOf (c : CellId) (os : List (Obs α)) : List (CellOp α) :=
  os.filterMap fun o => if o.cell = c then some o.op else none

theorem opsOf_append (c : CellId) (os os' : List (Obs α)) :
    opsOf c (os ++ os') = opsOf c os ++ opsOf c os' := List.filterMap_append

/-! ### The invariant -/

def entry (e : TransId × Kont α) : TransId × ThreadId := (e.1, e.2.tid)

def valueOf (s : State α) (c : CellId) : Option α :=
  match s.cells[c]? with
  | none => none
  | some cell => cell.value

def readQueue (s : State α) (c : CellId) : List (TransId × ThreadId) :=
  match s.cells[c]? with
  | none => []
  | some cell => cell.readQ.toList.map entry

/-- The waiting queues agree with the threads that are blocked.  Nobody waits for a cell that has a
value, unless the value is being handed over; the value that is handed over is that of the
cell. -/
structure Inv (s : State α) : Prop where
  priority : ∀ cell ∈ s.cells, 0 ≤ cell.priority
  waiting : Waiting s.threads (readQueue s)
  quiet : ∀ c, valueOf s c ≠ none → (∀ p ∈ s.atomic, p.cell ≠ c) →
    ∀ e ∈ readQueue s c, s.threads.isCancelled e.1 = true
  pending : ∀ p ∈ s.atomic, valueOf s p.cell = some p.msg

theorem inv_init : Inv (init : State α) where
  priority := by simp [init]
  waiting := waiting_nil
  quiet := by simp [init, readQueue]
  pending := by simp [init]

theorem valueOf_eq (h : s.cells[c]? = some cell) : valueOf s c = cell.value := by
  simp [valueOf, h]

theorem readQueue_eq (h : s.cells[c]? = some cell) :
    readQueue s c = cell.readQ.toList.map entry := by
  simp [readQueue, h]

theorem getElem?_setCell (h : s.cells[c]? = some old) (cell : Cell α) (c' : CellId) :
    (s.setCell c cell).cells[c']? = if c = c' then some cell else s.cells[c']? := by
  obtain ⟨hlt, -⟩ := List.getElem?_eq_some_iff.mp h
  simp [State.setCell, List.getElem?_set, hlt]

theorem valueOf_set (h : s.cells[c]? = some old) (hs : s'.cells = s.cells.set c cell)
    (c' : CellId) : valueOf s' c' = if c = c' then cell.value else valueOf s c' := by
  have hget := getElem?_setCell h cell c'
  simp only [State.setCell, ← hs] at hget
  by_cases heq : c = c'
  · simp [valueOf, hget, if_pos heq]
  · simp [valueOf, hget, if_neg heq]

theorem readQueue_set (h : s.cells[c]? = some old) (hs : s'.cells = s.cells.set c cell)
    (c' : CellId) :
    readQueue s' c' = if c = c' then cell.readQ.toList.map entry else readQueue s c' := by
  have hget := getElem?_setCell h cell c'
  simp only [State.setCell, ← hs] at hget
  by_cases heq : c = c'
  · simp [readQueue, hget, if_pos heq]
  · simp [readQueue, hget, if_neg heq]

theorem priority_set (h : ∀ cell ∈ s.cells, 0 ≤ cell.priority) (hc : 0 ≤ cell.priority)
    (hs : s'.cells = s.cells.set c cell) : ∀ cell' ∈ s'.cells, 0 ≤ cell'.priority := by
  intro cell' hmem
  rw [hs] at hmem
  rcases List.mem_or_eq_of_mem_set hmem with hmem | rfl
  · exact h cell' hmem
  · exact hc

def ValueSet (s s' : State α) (c : CellId) (v : Option α) : Prop :=
  ∀ c', valueOf s' c' = if c = c' then v else valueOf s c'

/-- The operations that are observed in a step lead from the values before it to those after
it. -/
def Legal (s s' : State α) (os : List (Obs α)) : Prop :=
  ∀ c, Seq (valueOf s c) (opsOf c os) (valueOf s' c)

theorem legal_nil (h : ∀ c, valueOf s' c = valueOf s c) : Legal s s' [] := by
  intro c
  rw [h]
  exact .nil _

theorem legal_single {op : CellOp α} (hset : ValueSet s s' c v)
    (hstep : SpecStep (valueOf s c) op v) : Legal s s' [⟨c, tid, op⟩] := by
  intro c'
  rw [hset c']
  by_cases heq : c = c'
  · subst heq
    simpa [opsOf] using Seq.cons hstep (.nil v)
  · simpa [opsOf, heq] using Seq.nil (valueOf s c')

def Sound (s s' : State α) (os : List (Obs α)) : Prop := Inv s' ∧ Legal s s' os

/-- **A cell is set** in a step that is not in an atomic region: its waiting queue stays as it is,
and it may get a value only if nobody waits for it. -/
theorem Inv.setCell (h : Inv s) (hc : s.cells[c]? = some old) (hq : cell.readQ = old.readQ)
    (hp : 0 ≤ old.priority → 0 ≤ cell.priority) (hnone : s.atomic = none)
    (hv : cell.value ≠ none → old.value ≠ none) : Inv (s.setCell c cell) where
  priority := priority_set h.priority (hp (h.priority old (List.mem_of_getElem? hc))) rfl
  waiting := by
    refine Waiting.congr (t := s.threads) h.waiting ?_
    intro c'
    rw [readQueue_set hc (rfl : (s.setCell c cell).cells = _)]
    split
    · next heq => rw [hq, ← heq, readQueue_eq hc]
    · rfl
  quiet c' hval _ := by
    have hquiet := h.quiet c'
    rw [valueOf_set hc rfl] at hval
    rw [readQueue_set hc (rfl : (s.setCell c cell).cells = _)]
    split
    · next heq =>
      subst heq
      rw [if_pos rfl] at hval
      rw [valueOf_eq hc, readQueue_eq hc] at hquiet
      rw [hq]
      exact hquiet (hv hval) (by simp [hnone])
    · next hne =>
      rw [if_neg hne] at hval
      exact hquiet hval (by simp [hnone])
  pending p hp := by
    have hp' : p ∈ s.atomic := hp
    simp [hnone] at hp'

/-! ### Handing a value over -/

/-- Nobody waits for a cell other than `c` that has a value. -/
def QuietBut (s : State α) (c : CellId) : Prop :=
  ∀ c', c ≠ c' → valueOf s c' ≠ none → ∀ e ∈ readQueue s c', s.threads.isCancelled e.1 = true

/-- What a state that hands a value over must satisfy: `cell` is cell `c` with the value that is
handed over. -/
structure HandOver (s : State α) (c : CellId) (cell : Cell α) (msg : α) : Prop where
  priority : ∀ cell ∈ s.cells, 0 ≤ cell.priority
  waiting : Waiting s.threads (readQueue s)
  quiet : QuietBut s c
  exists_old : ∃ old, s.cells[c]? = some old ∧ cell.readQ = old.readQ ∧
    (0 ≤ old.priority → 0 ≤ cell.priority)
  value_eq : cell.value = some msg

def KeepsCell (update : Cell α → Cell α) : Prop :=
  ∀ cell, (update cell).value = cell.value ∧ (update cell).readQ = cell.readQ ∧
    (0 ≤ cell.priority → 0 ≤ (update cell).priority)

def waiters (s : State α) (c : CellId) : ℕ :=
  (live (fun e => s.threads.isCancelled e.1) (readQueue s c)).length

/-- There is nobody to hand the value to, and the atomic region is left. -/
theorem HandOver.leave (h : HandOver s c cell msg) (update : Cell α → Cell α)
    {q : TwoListQueue (TransId × Kont α)}
    (hq : cleanAndRemove (fun e => s.threads.isCancelled e.1) cell.readQ = (none, q)) :
    ∃ s', SyncVar.handTo c cell msg update s = some s' ∧ Inv s' ∧
      ValueSet s s' c (some msg) ∧ s'.atomic = none := by
  obtain ⟨old, hc, hreadQ, hprio⟩ := h.exists_old
  have hqueue : readQueue s c = cell.readQ.toList.map entry := by
    rw [readQueue_eq hc, hreadQ]
  obtain ⟨s', hs', hcells, hthreads, hatomic⟩ :
      ∃ s', SyncVar.handTo c cell msg update s = some s' ∧
        s'.cells = s.cells.set c { cell with readQ := q } ∧ s'.threads = s.threads ∧
        s'.atomic = none :=
    ⟨{ s.setCell c { cell with readQ := q } with atomic := none },
      by simp [SyncVar.handTo, hq], rfl, rfl, rfl⟩
  obtain ⟨hall, hsub⟩ := Waiting.no_handoff (f := entry) hqueue hq
  have hval := valueOf_set hc hcells
  have hread := readQueue_set hc hcells
  have hprio' : 0 ≤ ({ cell with readQ := q } : Cell α).priority :=
    hprio (h.priority old (List.mem_of_getElem? hc))
  refine ⟨s', hs', ⟨?_, ?_, ?_, ?_⟩, ?_, hatomic⟩
  · exact priority_set h.priority hprio' hcells
  · rw [hthreads]
    refine h.waiting.clean ?_ ?_
    · intro c' e he
      rw [hread] at he
      split at he
      · next heq => exact heq ▸ hsub e he
      · exact he
    · intro c' e he hcan
      rw [hread]
      split
      · next heq =>
        rw [← heq] at he
        rw [hall e he] at hcan
        cases hcan
      · exact he
  · intro c' hv _ e he
    rw [hthreads]
    rw [hread] at he
    split at he
    · exact hall e (hsub e he)
    · next hne =>
      rw [hval, if_neg hne] at hv
      exact h.quiet c' hne hv e he
  · simp [hatomic]
  · intro c'
    rw [hval, ← h.value_eq]

/-- The first thread that waits is resumed, and goes on with the value. -/
theorem HandOver.resume (h : HandOver s c cell msg) {update : Cell α → Cell α}
    (hu : KeepsCell update) {e : TransId × Kont α} {q : TwoListQueue (TransId × Kont α)}
    (hq : cleanAndRemove (fun e => s.threads.isCancelled e.1) cell.readQ = (some e, q)) :
    ∃ s', SyncVar.handTo c cell msg update s = some s' ∧ Inv s' ∧
      ValueSet s s' c (some msg) ∧ s'.atomic = some ⟨c, e.2, msg⟩ ∧
      waiters s' c < waiters s c := by
  obtain ⟨old, hc, hreadQ, hprio⟩ := h.exists_old
  have hqueue : readQueue s c = cell.readQ.toList.map entry := by
    rw [readQueue_eq hc, hreadQ]
  obtain ⟨b, -, threads, -, -, -, hres, -, hwoken, -, hwait⟩ :=
    h.waiting.handoff (f := entry) hqueue hq
  have hkeeps := hu { cell with readQ := q }
  obtain ⟨s', hs', hcells, hthreads, hatomic⟩ :
      ∃ s', SyncVar.handTo c cell msg update s = some s' ∧
        s'.cells = s.cells.set c (update { cell with readQ := q }) ∧ s'.threads = threads ∧
        s'.atomic = some ⟨c, e.2, msg⟩ := by
    simp only [entry] at hres
    refine ⟨{ s.setCell c (update { cell with readQ := q }) with
      threads := threads, atomic := some ⟨c, e.2, msg⟩ }, ?_, rfl, rfl, rfl⟩
    simp only [SyncVar.handTo, hq, hres]
    rfl
  have hval := valueOf_set hc hcells
  have hread := readQueue_set hc hcells
  have hset : ValueSet s s' c (some msg) := by
    intro c'
    rw [hval, hkeeps.1, ← h.value_eq]
  refine ⟨s', hs', ⟨?_, ?_, ?_, ?_⟩, hset, hatomic, ?_⟩
  · exact priority_set h.priority
      (hkeeps.2.2 (hprio (h.priority old (List.mem_of_getElem? hc)))) hcells
  · rw [hthreads]
    refine hwait _ ?_ ?_
    · intro c' hne
      rw [hread, if_neg (Ne.symm hne)]
    · rw [hread, if_pos rfl, hkeeps.2.1]
  · intro c' hv hp e' he'
    have hne : c ≠ c' := hp _ hatomic
    rw [hset, if_neg hne] at hv
    rw [hread, if_neg hne] at he'
    rw [hthreads]
    exact hwoken.cancelled _ (h.quiet c' hne hv e' he')
  · intro p hp
    rw [hatomic] at hp
    cases hp
    rw [hset, if_pos rfl]
  · -- one entry was removed, and no entry became live
    have hlive := (cleanAndRemove_some hq).2.1
    have hle : (live (fun e => s'.threads.isCancelled e.1) (q.toList.map entry)).length ≤
        (live (fun e => s.threads.isCancelled e.1) (q.toList.map entry)).length := by
      refine (List.monotone_filter_right _ ?_).length_le
      intro e' he'
      by_contra hcan
      have hcan' := hwoken.cancelled e'.1 (by simpa using hcan)
      simp [hthreads, hcan'] at he'
    have hold : (live (fun e => s.threads.isCancelled e.1) (cell.readQ.toList.map entry)).length =
        (live (fun e => s.threads.isCancelled e.1) (q.toList.map entry)).length + 1 := by
      simp only [live, List.filter_map, Function.comp_def, entry, List.length_map] at hlive ⊢
      rw [hlive, List.length_cons]
    simp only [waiters, hqueue, hread, if_pos, hkeeps.2.1]
    omega

/-- **Handing a value over**: the value is that of the cell, and the atomic region is left unless a
thread goes on with the value; then fewer threads wait for the cell. -/
theorem HandOver.handTo (h : HandOver s c cell msg) {update : Cell α → Cell α}
    (hu : KeepsCell update) :
    ∃ s', SyncVar.handTo c cell msg update s = some s' ∧ Inv s' ∧ ValueSet s s' c (some msg) ∧
      ∀ p ∈ s'.atomic, p.cell = c ∧ waiters s' c < waiters s c := by
  rcases hq : cleanAndRemove (fun e => s.threads.isCancelled e.1) cell.readQ with ⟨_ | e, q⟩
  · obtain ⟨s', hs', hinv, hset, hatomic⟩ := h.leave update hq
    exact ⟨s', hs', hinv, hset, by simp [hatomic]⟩
  · obtain ⟨s', hs', hinv, hset, hatomic, hlt⟩ := h.resume hu hq
    refine ⟨s', hs', hinv, hset, ?_⟩
    intro p hp
    rw [hatomic] at hp
    cases hp
    exact ⟨rfl, hlt⟩

/-! ### The operations -/

theorem Inv.quietBut (h : Inv s) (hp : ∀ p ∈ s.atomic, p.cell = c) : QuietBut s c := by
  intro c' hne hval
  refine h.quiet c' hval ?_
  intro p hmem heq
  exact hne ((hp p hmem).symm.trans heq)

theorem put_spec (h : Inv s) (hnone : s.atomic = none) (hc : s.cells[c]? = some cell)
    (tid : ThreadId) (x : α) : ∃ s' os, put tid c x s = some (s', os) ∧ Sound s s' os := by
  rcases hv : cell.value with _ | v
  · have hover : HandOver s c { cell with value := some x } x :=
      ⟨h.priority, h.waiting, h.quietBut (by simp [hnone]), ⟨cell, hc, rfl, id⟩, rfl⟩
    have hupdate : KeepsCell fun cell : Cell α => { cell with priority := 1 } :=
      fun _ => ⟨rfl, rfl, fun _ => zero_le_one⟩
    obtain ⟨s', hs', hinv, hset, -⟩ := hover.handTo hupdate
    refine ⟨s', _, by simp only [put, hc, hv, hs']; rfl, hinv, legal_single hset ?_⟩
    rw [valueOf_eq hc, hv]
    exact .put x
  · refine ⟨s, [⟨c, tid, .put x false⟩], by simp [put, hc, hv], h, legal_single (v := some v) ?_ ?_⟩
    · intro c'
      split
      · next heq => rw [← heq, valueOf_eq hc, hv]
      · rfl
    · rw [valueOf_eq hc, hv]
      exact .putFull x v

theorem Reader.spec (reader : Reader α) (v : α) :
    SpecStep (some v) (reader.op v) (reader.leaves v) := by
  cases reader <;> constructor

/-- **A thread that blocks** is entered in the waiting queues of cells without a value. -/
theorem Inv.block {s s' : State α} (h : Inv s) (hnone : s.atomic = none) {tid : ThreadId}
    (htid : s.threads.isBlocked tid = false) {waits : List CellId} {other : Bool}
    (hent : Entered (readQueue s) (readQueue s') (s.threads.table.length, tid) waits)
    (hwaits : ∀ c ∈ waits, valueOf s c = none) (hval : ∀ c, valueOf s' c = valueOf s c)
    (hprio : ∀ cell ∈ s'.cells, 0 ≤ cell.priority)
    (hthreads : s'.threads = s.threads.suspend tid waits other) (hatomic : s'.atomic = none) :
    Inv s' where
  priority := hprio
  waiting := by
    rw [hthreads]
    exact h.waiting.block htid hent other
  quiet c hv _ e he := by
    rw [hval] at hv
    rcases hent.new c e he with he | ⟨-, hmem⟩
    · rw [hthreads]
      exact Threads.isCancelled_suspend (h.quiet c hv (by simp [hnone]) e he) tid waits other
    · exact absurd (hwaits c hmem) hv
  pending := by simp [hatomic]

theorem entered_setCell {s₀ s : State α} {e : TransId × ThreadId} {waits : List CellId}
    (h : Entered (readQueue s₀) (readQueue s) e waits) {c : CellId} {cell : Cell α}
    (hc : s.cells[c]? = some cell) {kont : Kont α} (he : e = (e.1, kont.tid)) :
    Entered (readQueue s₀) (readQueue (s.setCell c (cell.enqueue e.1 kont))) e (waits ++ [c]) := by
  refine h.enqueue ?_ ?_
  · intro c' hne
    rw [readQueue_set hc rfl, if_neg (Ne.symm hne)]
  · rw [readQueue_set hc rfl, readQueue_eq hc]
    simp [Cell.enqueue, entry, ← he]

theorem valueOf_enqueue (hc : s.cells[c]? = some cell) (transId : TransId) (kont : Kont α)
    (c' : CellId) : valueOf (s.setCell c (cell.enqueue transId kont)) c' = valueOf s c' := by
  rw [valueOf_set hc rfl]
  split
  · next heq =>
    rw [← heq, valueOf_eq hc]
    rfl
  · rfl

theorem read_spec (h : Inv s) (hnone : s.atomic = none) (htid : s.threads.isBlocked tid = false)
    (hc : s.cells[c]? = some cell) (reader : Reader α) :
    ∃ s' os, read reader tid c s = some (s', os) ∧ Sound s s' os := by
  rcases hv : cell.value with _ | v
  · refine ⟨_, _, by simp only [read, hc, hv]; rfl, ?_, legal_nil ?_⟩
    · have hent : Entered (readQueue s) (readQueue (s.setCell c
          (cell.enqueue s.threads.table.length ⟨tid, reader, false⟩))) (s.threads.table.length, tid)
          ([] ++ [c]) := entered_setCell (entered_nil _ (s.threads.table.length, tid)) hc rfl
      refine h.block hnone htid hent ?_ (valueOf_enqueue hc _ _)
        (priority_set h.priority ?_ rfl) rfl hnone
      · intro c' hmem
        rw [List.nil_append, List.mem_singleton] at hmem
        rw [hmem, valueOf_eq hc, hv]
      · exact h.priority cell (List.mem_of_getElem? hc)
    · exact valueOf_enqueue hc _ _
  · refine ⟨_, _, by simp only [read, hc, hv]; rfl, ?_, legal_single (v := reader.leaves v) ?_ ?_⟩
    · exact h.setCell hc rfl id hnone (by simp [hv])
    · intro c'
      rw [valueOf_set hc rfl]
    · rw [valueOf_eq hc, hv]
      exact reader.spec v

theorem getPoll_spec (h : Inv s) (hc : s.cells[c]? = some cell) (tid : ThreadId) :
    ∃ s' os, getPoll tid c s = some (s', os) ∧ Sound s s' os := by
  refine ⟨s, [⟨c, tid, .getPoll cell.value⟩], by simp [getPoll, hc], h,
    legal_single (v := cell.value) ?_ ?_⟩
  · intro c'
    split
    · next heq => rw [← heq, valueOf_eq hc]
    · rfl
  · rw [valueOf_eq hc]
    exact .getPoll _

theorem mTakePoll_spec (h : Inv s) (hnone : s.atomic = none) (hc : s.cells[c]? = some cell)
    (tid : ThreadId) : ∃ s' os, mTakePoll tid c s = some (s', os) ∧ Sound s s' os := by
  have hstep := SpecStep.takePoll (valueOf s c)
  rcases hv : cell.value with _ | v
  · rw [valueOf_eq hc, hv] at hstep
    refine ⟨s, [⟨c, tid, .takePoll none⟩], by simp [mTakePoll, hc, hv], h,
      legal_single (v := none) ?_ ?_⟩
    · intro c'
      split
      · next heq => rw [← heq, valueOf_eq hc, hv]
      · rfl
    · rwa [valueOf_eq hc, hv]
  · rw [valueOf_eq hc, hv] at hstep
    refine ⟨_, _, by simp only [mTakePoll, hc, hv]; rfl, ?_, legal_single (v := none) ?_ ?_⟩
    · exact h.setCell hc rfl id hnone (by simp)
    · intro c'
      rw [valueOf_set hc rfl]
    · rwa [valueOf_eq hc, hv]

theorem newCell_spec (h : Inv s) (hnone : s.atomic = none) (tid : ThreadId) (v : Option α) :
    Sound s (newCell tid v s).1 (newCell tid v s).2 := by
  have hget : ∀ c, (newCell tid v s).1.cells[c]? =
      if c = s.cells.length then some ⟨0, .empty, v⟩ else s.cells[c]? := by
    intro c
    simp only [newCell, List.getElem?_append]
    by_cases hlt : c < s.cells.length
    · rw [if_pos hlt, if_neg hlt.ne]
    · rw [if_neg hlt]
      by_cases heq : c = s.cells.length
      · simp [heq]
      · have hpos : 0 < c - s.cells.length := by omega
        rw [if_neg heq, List.getElem?_eq_none (Nat.le_of_not_lt hlt)]
        simp [hpos.ne']
  have hread : ∀ c, readQueue (newCell tid v s).1 c = readQueue s c := by
    intro c
    by_cases heq : c = s.cells.length
    · simp [readQueue, hget, heq]
    · simp [readQueue, hget, heq]
  have hval : ValueSet s (newCell tid v s).1 s.cells.length v := by
    intro c
    by_cases heq : s.cells.length = c
    · simp [valueOf, hget, heq]
    · simp [valueOf, hget, heq, Ne.symm heq]
  refine ⟨⟨?_, ?_, ?_, ?_⟩, legal_single hval ?_⟩
  · intro cell hmem
    rcases List.mem_append.mp hmem with hmem | hmem
    · exact h.priority cell hmem
    · rw [List.mem_singleton.mp hmem]
  · exact Waiting.congr (t := s.threads) h.waiting hread
  · intro c hv _ e he
    rw [hread] at he
    by_cases heq : s.cells.length = c
    · rw [← heq] at he
      simp [readQueue] at he
    · rw [hval, if_neg heq] at hv
      exact h.quiet c hv (by simp [hnone]) e he
  · intro p hp
    have hp' : p ∈ s.atomic := hp
    simp [hnone] at hp'
  · have hnone' : valueOf s s.cells.length = none := by simp [valueOf]
    rw [hnone']
    exact .created v

/-! ### The continuation of a thread that is handed a value -/

theorem cont_spec (h : Inv s) {p : Pending α} (hp : s.atomic = some p) {woken : List ThreadId}
    (hevt : ¬ (woken ≠ [] ∧ ¬ p.kont.isEvt)) {threads : Threads CellId}
    (hw : s.threads.wakeAll woken = some threads) :
    ∃ s' os, cont p woken s = some (s', os) ∧ Sound s s' os ∧
      ∀ p' ∈ s'.atomic, p'.cell = p.cell ∧ waiters s' p.cell <
        waiters { s with threads := threads } p.cell := by
  obtain ⟨hwait, hwoken⟩ := h.waiting.wakeAll hw
  have hval := h.pending p hp
  obtain ⟨cell, hc⟩ : ∃ cell, s.cells[p.cell]? = some cell := by
    rcases hc : s.cells[p.cell]? with _ | cell
    · simp only [valueOf, hc] at hval
      cases hval
    · exact ⟨cell, rfl⟩
  have hv : cell.value = some p.msg := (valueOf_eq hc).symm.trans hval
  have hquiet : QuietBut { s with threads := threads } p.cell := by
    intro c' hne hv' e he
    refine hwoken.cancelled _ (h.quietBut ?_ c' hne hv' e he)
    intro p' hp'
    rw [hp] at hp'
    cases hp'
    rfl
  have hkeeps : KeepsCell (id : Cell α → Cell α) := fun _ => ⟨rfl, rfl, id⟩
  have hop := p.kont.reader.spec p.msg
  unfold cont
  rw [if_neg hevt, hw, hc]
  cases hr : p.kont.reader with
  | get =>
    have hover : HandOver { s with threads := threads } p.cell cell p.msg :=
      ⟨h.priority, hwait, hquiet, ⟨cell, hc, rfl, id⟩, hv⟩
    obtain ⟨s', hs', hinv, hset, hlt⟩ := hover.handTo hkeeps
    rw [hr, ← hval] at hop
    exact ⟨s', _, by simp only [relayMsg, hs']; rfl, ⟨hinv, legal_single hset hop⟩, hlt⟩
  | take =>
    rw [hr, ← hval] at hop
    obtain ⟨s', hs', hthreads, hcells, hatomic⟩ : ∃ s', s' = ({ ({ s with
        threads := threads } : State α).setCell p.cell { cell with value := none } with
        atomic := none } : State α) ∧ s'.threads = threads ∧
        s'.cells = s.cells.set p.cell { cell with value := none } ∧ s'.atomic = none :=
      ⟨_, rfl, rfl, rfl, rfl⟩
    have hset := valueOf_set hc hcells
    have hread := readQueue_set hc hcells
    refine ⟨s', [⟨p.cell, p.kont.tid, Reader.op p.msg .take⟩], by rw [hs'],
      ⟨⟨?_, ?_, ?_, ?_⟩, legal_single hset hop⟩, by simp [hatomic]⟩
    · have hprio : 0 ≤ ({ cell with value := none } : Cell α).priority :=
        h.priority cell (List.mem_of_getElem? hc)
      exact priority_set h.priority hprio hcells
    · rw [hthreads]
      refine hwait.congr ?_
      intro c'
      rw [hread]
      split
      · next heq => rw [← heq, readQueue_eq hc]
      · rfl
    · intro c' hv' _ e he
      rw [hset] at hv'
      rw [hread] at he
      split at he
      · next heq =>
        rw [if_pos heq] at hv'
        exact absurd rfl hv'
      · next hne =>
        rw [if_neg hne] at hv'
        rw [hthreads]
        exact hquiet c' hne hv' e he
    · simp [hatomic]
  | swap newV =>
    have hover : HandOver { s with threads := threads } p.cell { cell with value := some newV }
        newV := ⟨h.priority, hwait, hquiet, ⟨cell, hc, rfl, id⟩, rfl⟩
    obtain ⟨s', hs', hinv, hset, hlt⟩ := hover.handTo hkeeps
    rw [hr, ← hval] at hop
    exact ⟨s', _, by simp only [relayMsg, hs']; rfl, ⟨hinv, legal_single hset hop⟩, hlt⟩

/-! ### Choices -/

/-- The state after some base events of a choice have been polled: only priorities have
changed. -/
structure Polled (s s' : State α) : Prop where
  threads_eq : s'.threads = s.threads
  atomic_eq : s'.atomic = s.atomic
  priority : ∀ cell ∈ s'.cells, 0 ≤ cell.priority
  value_eq : ∀ c, valueOf s' c = valueOf s c
  queue_eq : ∀ c, readQueue s' c = readQueue s c
  length_eq : s'.cells.length = s.cells.length

theorem polled_refl (h : Inv s) : Polled s s where
  threads_eq := rfl
  atomic_eq := rfl
  priority := h.priority
  value_eq _ := rfl
  queue_eq _ := rfl
  length_eq := rfl

theorem Polled.inv (hp : Polled s s') (h : Inv s) : Inv s' where
  priority := hp.priority
  waiting := by
    rw [hp.threads_eq]
    exact h.waiting.congr hp.queue_eq
  quiet c hv hat e he := by
    rw [hp.value_eq] at hv
    rw [hp.atomic_eq] at hat
    rw [hp.queue_eq] at he
    rw [hp.threads_eq]
    exact h.quiet c hv hat e he
  pending p hmem := by
    rw [hp.atomic_eq] at hmem
    rw [hp.value_eq]
    exact h.pending p hmem

theorem Polled.bump (hp : Polled s s') (hc : s'.cells[c]? = some cell) :
    Polled s (s'.setCell c { cell with priority := cell.priority + 1 }) where
  threads_eq := hp.threads_eq
  atomic_eq := hp.atomic_eq
  priority := by
    have hcell := hp.priority cell (List.mem_of_getElem? hc)
    have hbump : 0 ≤ ({ cell with priority := cell.priority + 1 } : Cell α).priority :=
      Int.add_nonneg hcell zero_le_one
    exact priority_set hp.priority hbump rfl
  value_eq c' := by
    rw [valueOf_set hc rfl, ← hp.value_eq]
    split
    · next heq => rw [← heq, valueOf_eq hc]
    · rfl
  queue_eq c' := by
    rw [readQueue_set hc rfl, ← hp.queue_eq]
    split
    · next heq => rw [← heq, readQueue_eq hc]
    · rfl
  length_eq := (List.length_set ..).trans hp.length_eq

/-- A base event of a choice is well formed in a state: its cell exists, and the priority of an
event that is not of a cell is fixed or positive. -/
def BaseEvt.Valid (s : State α) : BaseEvt α → Prop
  | .read _ c _ => c < s.cells.length
  | .other none => True
  | .other (some p) => p = -1 ∨ 0 < p

def DoFnOk (s : State α) : DoFn α → Prop
  | .read _ c _ v => valueOf s c = some v
  | .other => True

def BlockFnOk (s : State α) : BlockFn α → Prop
  | .read _ c => c < s.cells.length ∧ valueOf s c = none
  | .other => True

theorem pollFn_spec {s'' : State α} (hp : Polled s s') {b : BaseEvt α}
    {st : EventStatus (DoFn α) (BlockFn α)} (hb : pollFn s' b = some (s'', st)) :
    Polled s s'' ∧ StatusOk (fun p d => DoFnOk s d ∧ (b.Valid s → p = -1 ∨ 0 ≤ p))
      (fun _ k => BlockFnOk s k) b st := by
  cases b with
  | read reader c reset =>
    rcases hc : s'.cells[c]? with _ | cell
    · simp [pollFn, hc] at hb
    · obtain ⟨hlt, -⟩ := List.getElem?_eq_some_iff.mp hc
      rw [hp.length_eq] at hlt
      rcases hv : cell.value with _ | v
      · simp only [pollFn, hc, hv] at hb
        obtain ⟨rfl, rfl⟩ := hb
        exact ⟨hp, hlt, by rw [← hp.value_eq, valueOf_eq hc, hv]⟩
      · simp only [pollFn, hc, hv] at hb
        obtain ⟨rfl, rfl⟩ := hb
        refine ⟨hv ▸ hp.bump hc, ?_, fun _ => .inr (hp.priority cell (List.mem_of_getElem? hc))⟩
        rw [DoFnOk, ← hp.value_eq, valueOf_eq hc, hv]
  | other prio =>
    cases prio with
    | none =>
      obtain ⟨rfl, rfl⟩ := Prod.mk.inj (Option.some.inj hb)
      exact ⟨hp, trivial⟩
    | some p =>
      obtain ⟨rfl, rfl⟩ := Prod.mk.inj (Option.some.inj hb)
      exact ⟨hp, trivial, fun hv => hv.imp_right le_of_lt⟩

theorem pollFn_ok (s : State α) (evts : List (BaseEvt α)) :
    ∀ s₁, Polled s s₁ → ∀ b ∈ evts, ∀ s₂ st, pollFn s₁ b = some (s₂, st) →
      Polled s s₂ ∧ StatusOk (fun p d => DoFnOk s d ∧ ((∀ b ∈ evts, b.Valid s) → p = -1 ∨ 0 ≤ p))
        (fun _ k => BlockFnOk s k) b st := by
  intro s₁ hp b hmem s₂ st hb
  obtain ⟨hp', hst⟩ := pollFn_spec hp hb
  refine ⟨hp', ?_⟩
  cases st with
  | enabled p d => exact ⟨hst.1, fun hv => hst.2 (hv b hmem)⟩
  | blocked k => exact hst

theorem Polled.doFnOk {s₁ : State α} (hp : Polled s s₁) {d : DoFn α} (hd : DoFnOk s d) :
    DoFnOk s₁ d := by
  cases d with
  | read reader c reset v => exact (hp.value_eq c).trans hd
  | other => trivial

theorem Polled.blockFnOk {s₁ : State α} (hp : Polled s s₁) {k : BlockFn α} (hk : BlockFnOk s k) :
    BlockFnOk s₁ k := by
  cases k with
  | read reader c => exact ⟨hp.length_eq ▸ hk.1, (hp.value_eq c).trans hk.2⟩
  | other => trivial

/-- **Running the functions that block** enters the thread in the waiting queues. -/
theorem foldlM_blockFn {s₀ : State α} {transId : TransId} {blockFns : List (BlockFn α)}
    {waits : List CellId} (hprio : ∀ cell ∈ s.cells, 0 ≤ cell.priority)
    (he : Entered (readQueue s₀) (readQueue s) (transId, tid) waits)
    (hk : ∀ k ∈ blockFns, BlockFnOk s k) :
    ∃ s', blockFns.foldlM (blockFn transId tid) s = some s' ∧
      Entered (readQueue s₀) (readQueue s') (transId, tid)
        (waits ++ blockFns.filterMap BlockFn.waits) ∧
      s'.threads = s.threads ∧ s'.atomic = s.atomic ∧ (∀ cell ∈ s'.cells, 0 ≤ cell.priority) ∧
      ∀ c, valueOf s' c = valueOf s c := by
  induction blockFns generalizing s waits with
  | nil => exact ⟨s, rfl, by simpa using he, rfl, rfl, hprio, fun _ => rfl⟩
  | cons k ks ih =>
    have hks := fun k' hk' => hk k' (List.mem_cons_of_mem k hk')
    rw [List.foldlM_cons]
    cases k with
    | read reader c =>
      obtain ⟨hlt, -⟩ := hk _ List.mem_cons_self
      have hc : s.cells[c]? = some s.cells[c] := List.getElem?_eq_getElem hlt
      have hval := valueOf_enqueue hc transId ⟨tid, reader, true⟩
      have hcell : 0 ≤ (s.cells[c].enqueue transId ⟨tid, reader, true⟩).priority :=
        hprio s.cells[c] (List.getElem_mem hlt)
      have hprio' : ∀ cell ∈ (s.setCell c (s.cells[c].enqueue transId ⟨tid, reader, true⟩)).cells,
          0 ≤ cell.priority := priority_set hprio hcell rfl
      obtain ⟨s', hs', hent, hthreads, hatomic, hp, hv⟩ := ih hprio'
        (@entered_setCell _ _ _ _ _ he _ _ hc ⟨tid, reader, true⟩ rfl) (by
          intro k' hk'
          have hok := hks k' hk'
          cases k' with
          | read reader' c' => exact ⟨by simpa [State.setCell] using hok.1, (hval c').trans hok.2⟩
          | other => trivial)
      rw [List.append_assoc] at hent
      refine ⟨s', ?_, hent, hthreads, hatomic, hp, fun c' => (hv c').trans (hval c')⟩
      simp only [blockFn, hc]
      exact hs'
    | other => exact ih hprio he hks

theorem log_spec (h : Inv s) (hnone : s.atomic = none) (htid : s.threads.isBlocked tid = false)
    {blockFns : List (BlockFn α)} (hk : ∀ k ∈ blockFns, BlockFnOk s k) :
    ∃ s', log tid blockFns s = some s' ∧ Inv s' ∧ ∀ c, valueOf s' c = valueOf s c := by
  obtain ⟨s₁, hs₁, hent, hthreads, hatomic, hprio, hval⟩ := foldlM_blockFn h.priority
    (entered_nil (readQueue s) (s.threads.table.length, tid)) hk
  have hlog : log tid blockFns s = some { s₁ with
      threads := s₁.threads.suspend tid (blockFns.filterMap BlockFn.waits)
        (blockFns.any BlockFn.isOther) } := by
    simp only [log, mkId, hs₁]
    rfl
  refine ⟨_, hlog, ?_, hval⟩
  have hsuspend := congrArg (fun t : Threads CellId => t.suspend tid
    (blockFns.filterMap BlockFn.waits) (blockFns.any BlockFn.isOther)) hthreads
  refine h.block hnone htid hent ?_ hval hprio hsuspend (hatomic.trans hnone)
  intro c hc
  obtain ⟨k, hmem, hkc⟩ := List.mem_filterMap.mp hc
  have hok := hk k hmem
  cases k with
  | read reader c' =>
    cases hkc
    exact hok.2
  | other => cases hkc

theorem DoFn.run_spec (h : Inv s) (hnone : s.atomic = none) {d : DoFn α} (hd : DoFnOk s d)
    (tid : ThreadId) : ∃ s' os, d.run tid s = some (s', os) ∧ Sound s s' os := by
  cases d with
  | read reader c reset v =>
    have hval : valueOf s c = some v := hd
    obtain ⟨cell, hc⟩ : ∃ cell, s.cells[c]? = some cell := by
      rcases hc : s.cells[c]? with _ | cell
      · simp only [valueOf, hc] at hval
        cases hval
      · exact ⟨cell, rfl⟩
    have hv : cell.value = some v := (valueOf_eq hc).symm.trans hval
    have hcommit : (reader.commit cell reset).value = reader.leaves v ∧
        (reader.commit cell reset).readQ = cell.readQ ∧
        (0 ≤ cell.priority → 0 ≤ (reader.commit cell reset).priority) := by
      cases reader with
      | get => cases reset <;> simp [Reader.commit, Reader.leaves, hv]
      | take => simp [Reader.commit, Reader.leaves]
      | swap newV => simp [Reader.commit, Reader.leaves]
    refine ⟨_, _, by simp only [DoFn.run, hc]; rfl, ?_, legal_single (v := reader.leaves v) ?_ ?_⟩
    · exact h.setCell hc hcommit.2.1 hcommit.2.2 hnone (by simp [hv])
    · intro c'
      rw [valueOf_set hc rfl, hcommit.1]
    · rw [hval]
      exact reader.spec v
  | other => exact ⟨s, [], rfl, h, legal_nil fun _ => rfl⟩

theorem Inv.woken {s : State α} (h : Inv s) {threads : Threads CellId} (cnt : ℕ)
    (hw : Waiting threads (readQueue s)) (hwoken : Woken s.threads threads) :
    Inv { s with threads := threads, cnt := cnt } where
  priority := h.priority
  waiting := hw
  quiet c hv hat e he := hwoken.cancelled _ (h.quiet c hv hat e he)
  pending := h.pending

theorem Legal.congr_left {s₀ : State α} (h : Legal s s' os) (hv : ∀ c, valueOf s c = valueOf s₀ c) :
    Legal s₀ s' os := by
  intro c
  rw [← hv]
  exact h c

/-- **A synchronisation on a choice** reads the value that its cell has: the value that was found
when the cell was polled is still that of the cell. -/
theorem sync_sound {s s' : State α} {tid : ThreadId} {evts : List (BaseEvt α)}
    {woken : List ThreadId} {os : List (Obs α)} (h : Inv s) (hnone : s.atomic = none)
    (htid : s.threads.isBlocked tid = false)
    (hs : sync tid evts woken s = some (s', os)) : Sound s s' os := by
  unfold sync at hs
  split at hs
  · simp at hs
  · next s₁ blockFns hext =>
    obtain ⟨hp, ks, hks, hall⟩ := ext_spec (pollFn_ok s evts) (polled_refl h) hext
    have hok : ∀ k ∈ blockFns, BlockFnOk s₁ k := by
      intro k hk
      rw [hks, List.append_nil, List.mem_reverse] at hk
      obtain ⟨b, -, hb⟩ := ExceptList.forall₂_mem_right hall hk
      exact hp.blockFnOk hb
    rw [← hp.threads_eq] at htid
    obtain ⟨s₂, hs₂, hinv, hv⟩ := log_spec (hp.inv h) (hp.atomic_eq.trans hnone) htid hok
    simp only [hs₂] at hs
    obtain ⟨rfl, rfl⟩ := hs
    exact ⟨hinv, legal_nil fun c => (hv c).trans (hp.value_eq c)⟩
  · next s₁ doFns n hext =>
    obtain ⟨hp, hdo, -⟩ := ext_spec (pollFn_ok s evts) (polled_refl h) hext
    split at hs
    · simp at hs
    · next doFn cnt hsel =>
      split at hs
      · simp at hs
      · next threads hwake =>
        obtain ⟨prio, hmem⟩ := selectDoFn_mem hsel
        obtain ⟨hwait, hwoken⟩ := (hp.inv h).waiting.wakeAll hwake
        have hinv₂ := (hp.inv h).woken cnt hwait hwoken
        obtain ⟨s₂, os₂, hrun, hinv, hlegal⟩ := DoFn.run_spec hinv₂ (hp.atomic_eq.trans hnone)
          (hp.doFnOk (hdo _ hmem).1) tid
        rw [hrun] at hs
        obtain ⟨rfl, rfl⟩ := Prod.mk.inj (Option.some.inj hs)
        exact ⟨hinv, hlegal.congr_left hp.value_eq⟩

/-! ### Steps -/

/-- The cells that an operation names exist. -/
def Op.Valid (s : State α) : Op α → Prop
  | .iVar | .mVar | .mVarInit _ => True
  | .iPut c _ | .iGet c | .iGetPoll c | .mPut c _ | .mTake c | .mGet c | .mSwap c _
  | .mGetPoll c | .mTakePoll c => c < s.cells.length
  | .sync evts woken =>
      (∀ b ∈ evts, b.Valid s) ∧ woken.Nodup ∧ ∀ tid ∈ woken, s.threads.WaitsOther tid

theorem Op.run_spec (h : Inv s) (hnone : s.atomic = none) (htid : s.threads.isBlocked tid = false)
    (hsync : ∀ evts woken, op ≠ .sync evts woken) (hv : op.Valid s) :
    ∃ s' os, op.run tid s = some (s', os) ∧ Sound s s' os := by
  have hget : ∀ c, c < s.cells.length → s.cells[c]? = some (s.cells.getD c ⟨0, .empty, none⟩) := by
    intro c hlt
    rw [List.getD_eq_getElem?_getD, List.getElem?_eq_getElem hlt]
    rfl
  cases op with
  | iVar => exact ⟨_, _, rfl, newCell_spec h hnone tid none⟩
  | mVar => exact ⟨_, _, rfl, newCell_spec h hnone tid none⟩
  | mVarInit x => exact ⟨_, _, rfl, newCell_spec h hnone tid (some x)⟩
  | iPut c x => exact put_spec h hnone (hget c hv) tid x
  | iGet c => exact read_spec h hnone htid (hget c hv) .get
  | iGetPoll c => exact getPoll_spec h (hget c hv) tid
  | mPut c x => exact put_spec h hnone (hget c hv) tid x
  | mTake c => exact read_spec h hnone htid (hget c hv) .take
  | mGet c => exact read_spec h hnone htid (hget c hv) .get
  | mSwap c newV => exact read_spec h hnone htid (hget c hv) (.swap newV)
  | mGetPoll c => exact getPoll_spec h (hget c hv) tid
  | mTakePoll c => exact mTakePoll_spec h hnone (hget c hv) tid
  | sync evts woken => exact absurd rfl (hsync evts woken)

theorem Op.run_invalid (hsync : ∀ evts woken, op ≠ .sync evts woken) (hv : ¬ op.Valid s) :
    op.run tid s = none := by
  have hget : ∀ c, ¬ c < s.cells.length → s.cells[c]? = none :=
    fun c hlt => List.getElem?_eq_none (Nat.le_of_not_lt hlt)
  cases op with
  | iVar => exact absurd trivial hv
  | mVar => exact absurd trivial hv
  | mVarInit x => exact absurd trivial hv
  | iPut c x => simp [Op.run, SyncVar.iPut, put, hget c hv]
  | iGet c => simp [Op.run, SyncVar.iGet, read, hget c hv]
  | iGetPoll c => simp [Op.run, SyncVar.iGetPoll, getPoll, hget c hv]
  | mPut c x => simp [Op.run, SyncVar.mPut, put, hget c hv]
  | mTake c => simp [Op.run, SyncVar.mTake, read, hget c hv]
  | mGet c => simp [Op.run, SyncVar.mGet, read, hget c hv]
  | mSwap c newV => simp [Op.run, SyncVar.mSwap, read, hget c hv]
  | mGetPoll c => simp [Op.run, SyncVar.mGetPoll, getPoll, hget c hv]
  | mTakePoll c => simp [Op.run, SyncVar.mTakePoll, hget c hv]
  | sync evts woken => exact absurd rfl (hsync evts woken)

theorem Op.run_sound (h : Inv s) (hnone : s.atomic = none) (htid : s.threads.isBlocked tid = false)
    (hs : op.run tid s = some (s', os)) : Sound s s' os := by
  by_cases hsync : ∃ evts woken, op = .sync evts woken
  · obtain ⟨evts, woken, rfl⟩ := hsync
    exact sync_sound h hnone htid hs
  · have hsync' : ∀ evts woken, op ≠ .sync evts woken :=
      fun evts woken heq => hsync ⟨evts, woken, heq⟩
    by_cases hv : op.Valid s
    · obtain ⟨s₁, os₁, hrun, hsound⟩ := Op.run_spec h hnone htid hsync' hv
      rw [hrun] at hs
      obtain ⟨rfl, rfl⟩ := Prod.mk.inj (Option.some.inj hs)
      exact hsound
    · rw [Op.run_invalid hsync' hv] at hs
      cases hs

theorem cont_sound (h : Inv s) {p : Pending α} (hp : s.atomic = some p) {woken : List ThreadId}
    (hs : cont p woken s = some (s', os)) : Sound s s' os := by
  by_cases hevt : woken ≠ [] ∧ ¬ p.kont.isEvt
  · rw [cont, if_pos hevt] at hs
    cases hs
  · rcases hw : s.threads.wakeAll woken with _ | threads
    · rw [cont, if_neg hevt, hw] at hs
      cases hs
    · obtain ⟨s₁, os₁, hcont, hsound, -⟩ := cont_spec h hp hevt hw
      rw [hcont] at hs
      obtain ⟨rfl, rfl⟩ := Prod.mk.inj (Option.some.inj hs)
      exact hsound

/-- **Every step** preserves the invariant, and the operations that it makes are steps of the
cells in sequence. -/
theorem step_sound {s s' : State α} {l : Label α} {os : List (Obs α)} (h : Inv s)
    (hs : step s l = some (s', os)) : Sound s s' os := by
  unfold step at hs
  split at hs
  · next p woken hp => exact cont_sound h hp hs
  · next tid op hnone =>
    split at hs
    · simp at hs
    · next hblocked => exact Op.run_sound h hnone (by simpa using hblocked) hs
  · next tid hnone =>
    obtain ⟨threads, hw, heq⟩ := Option.map_eq_some_iff.mp hs
    obtain ⟨rfl, rfl⟩ := Prod.mk.inj heq
    obtain ⟨hwait, hwoken⟩ := h.waiting.wake hw
    exact ⟨h.woken s.cnt hwait hwoken, legal_nil fun _ => rfl⟩
  · simp at hs

/-! ### No operation fails -/

theorem exists_pollFn (hp : Polled s s') {b : BaseEvt α} (hb : b.Valid s) :
    ∃ s'' st, pollFn s' b = some (s'', st) ∧ Polled s s'' := by
  have hsome : ∃ r, pollFn s' b = some r := by
    cases b with
    | read reader c reset =>
      have hlt : c < s'.cells.length := hp.length_eq.symm ▸ hb
      rcases hv : s'.cells[c].value with _ | v
      · exact ⟨_, by simp only [pollFn, List.getElem?_eq_getElem hlt, hv]; rfl⟩
      · exact ⟨_, by simp only [pollFn, List.getElem?_eq_getElem hlt, hv]; rfl⟩
    | other prio => cases prio <;> exact ⟨_, rfl⟩
  obtain ⟨⟨s'', st⟩, hst⟩ := hsome
  exact ⟨s'', st, hst, (pollFn_spec hp hst).1⟩

theorem exists_sync {s : State α} (h : Inv s) (hnone : s.atomic = none) {tid : ThreadId}
    (htid : s.threads.isBlocked tid = false) {evts : List (BaseEvt α)} {woken : List ThreadId}
    (hv : Op.Valid s (.sync evts woken)) : ∃ r, sync tid evts woken s = some r := by
  obtain ⟨hevts, hnodup, hwoken⟩ := hv
  obtain ⟨⟨s₁, res⟩, hext⟩ := exists_ext ([] : List (BlockFn α))
    (fun s₁ (hp : Polled s s₁) b hb => exists_pollFn hp (hevts b hb)) (polled_refl h)
  obtain ⟨hp, hres⟩ := ext_spec (pollFn_ok s evts) (polled_refl h) hext
  unfold sync
  rw [hext]
  rcases res with blockFns | ⟨doFns, n⟩
  · obtain ⟨ks, hks, hall⟩ := hres
    have hok : ∀ k ∈ blockFns, BlockFnOk s₁ k := by
      intro k hk
      rw [hks, List.append_nil, List.mem_reverse] at hk
      obtain ⟨b, -, hb⟩ := ExceptList.forall₂_mem_right hall hk
      exact hp.blockFnOk hb
    rw [← hp.threads_eq] at htid
    obtain ⟨s₂, hs₂, -⟩ := log_spec (hp.inv h) (hp.atomic_eq.trans hnone) htid hok
    exact ⟨_, by simp only [hs₂]; rfl⟩
  · obtain ⟨hdo, hne, -⟩ := hres
    obtain ⟨doFn, cnt, hsel⟩ := exists_selectDoFn s₁.cnt (n := n) hne
      (fun pd hpd => (hdo pd hpd).2 hevts)
    have hwoken₁ : ∀ tid ∈ woken, s₁.threads.WaitsOther tid := by
      rw [hp.threads_eq]
      exact hwoken
    obtain ⟨threads, hthreads⟩ := (hp.inv h).waiting.exists_wakeAll hnodup hwoken₁
    obtain ⟨hwait, hwk⟩ := (hp.inv h).waiting.wakeAll hthreads
    obtain ⟨prio, hmem⟩ := selectDoFn_mem hsel
    obtain ⟨s₂, os₂, hrun, -⟩ := DoFn.run_spec ((hp.inv h).woken cnt hwait hwk)
      (hp.atomic_eq.trans hnone) (hp.doFnOk (hdo _ hmem).1) tid
    exact ⟨_, by simp only [hsel, hthreads, hrun]; rfl⟩

/-- What a step needs: outside an atomic region a thread that is not blocked runs an operation on
cells that exist, or one that waits for another event is resumed; in an atomic region the thread
that is handed a value goes on. -/
def Label.Valid (s : State α) : Label α → Prop
  | .run tid op => s.atomic = none ∧ s.threads.isBlocked tid = false ∧ op.Valid s
  | .wake tid => s.atomic = none ∧ s.threads.WaitsOther tid
  | .cont woken => ∃ p ∈ s.atomic, (woken = [] ∨ p.kont.isEvt) ∧ woken.Nodup ∧
      ∀ tid ∈ woken, s.threads.WaitsOther tid

/-- **No operation fails.** -/
theorem exists_step (h : Inv s) {l : Label α} (hv : l.Valid s) :
    ∃ s' os, step s l = some (s', os) := by
  cases l with
  | run tid op =>
    obtain ⟨hnone, htid, hop⟩ := hv
    have hrun : ∃ s' os, op.run tid s = some (s', os) := by
      by_cases hsync : ∃ evts woken, op = .sync evts woken
      · obtain ⟨evts, woken, rfl⟩ := hsync
        obtain ⟨⟨s', os⟩, hs⟩ := exists_sync h hnone htid hop
        exact ⟨s', os, hs⟩
      · obtain ⟨s', os, hs, -⟩ := Op.run_spec h hnone htid
          (fun evts woken heq => hsync ⟨evts, woken, heq⟩) hop
        exact ⟨s', os, hs⟩
    simpa [step, hnone, htid] using hrun
  | wake tid =>
    obtain ⟨hnone, hw⟩ := hv
    obtain ⟨threads, hthreads, -⟩ := h.waiting.exists_wake hw
    exact ⟨_, _, by simp only [step, hnone, hthreads]; rfl⟩
  | cont woken =>
    obtain ⟨p, hp, hevt, hnodup, hw⟩ := hv
    obtain ⟨threads, hthreads⟩ := h.waiting.exists_wakeAll hnodup hw
    have hevt' : ¬ (woken ≠ [] ∧ ¬ p.kont.isEvt) := by
      rintro ⟨hne, hnot⟩
      exact hevt.elim hne hnot
    obtain ⟨s', os, hs, -⟩ := cont_spec h hp hevt' hthreads
    exact ⟨s', os, by simp [step, Option.mem_def.mp hp, hs]⟩

/-- **An atomic region is left** when the threads that are handed a value go on, one after the
other: each time fewer threads wait for the cell. -/
theorem exists_leave (h : Inv s) : ∃ s' tr, Run step Unrestricted s s' tr ∧ s'.atomic = none := by
  -- induction on the number of threads that wait for the cell of the pending value
  suffices hmain : ∀ n (s₁ : State α) tr, Inv s₁ → Run step Unrestricted s s₁ tr →
      (∀ p ∈ s₁.atomic, waiters s₁ p.cell ≤ n) →
      ∃ s' tr, Run step Unrestricted s s' tr ∧ s'.atomic = none by
    rcases hp : s.atomic with _ | p
    · exact ⟨s, [], .nil, hp⟩
    · refine hmain (waiters s p.cell) s [] h .nil ?_
      intro p' hp'
      rw [hp] at hp'
      cases hp'
      exact le_refl _
  intro n
  induction n with
  | zero =>
    intro s₁ tr h₁ hrun hn
    rcases hp : s₁.atomic with _ | p
    · exact ⟨s₁, tr, hrun, hp⟩
    · obtain ⟨s₂, os, hs, -, hlt⟩ := cont_spec h₁ hp (by simp)
        (rfl : s₁.threads.wakeAll [] = some s₁.threads)
      refine ⟨s₂, _, hrun.snoc (l := .cont []) trivial
        (by simp only [step, hp, hs] : step s₁ _ = some (s₂, os)), ?_⟩
      rcases hp₂ : s₂.atomic with _ | p₂
      · rfl
      · have hle := hn p hp
        have hlt' : waiters s₂ p.cell < waiters s₁ p.cell := (hlt p₂ hp₂).2
        omega
  | succ n ih =>
    intro s₁ tr h₁ hrun hn
    rcases hp : s₁.atomic with _ | p
    · exact ⟨s₁, tr, hrun, hp⟩
    · obtain ⟨s₂, os, hs, hsound, hlt⟩ := cont_spec h₁ hp (by simp)
        (rfl : s₁.threads.wakeAll [] = some s₁.threads)
      refine ih s₂ _ hsound.1 (hrun.snoc (l := .cont []) trivial
        (by simp only [step, hp, hs] : step s₁ _ = some (s₂, os))) ?_
      intro p₂ hp₂
      have hle := hn p hp
      obtain ⟨hcell, hlt'⟩ := hlt p₂ hp₂
      have hlt'' : waiters s₂ p.cell < waiters s₁ p.cell := hlt'
      rw [hcell]
      omega

/-! ### Runs -/

theorem run_inv {tr : List (Obs α)} (h : Run step Unrestricted init s tr) : Inv s :=
  h.state_invariant inv_init fun _ _ _ _ hI _ hs => (step_sound hI hs).1

theorem run_seq {tr : List (Obs α)} (h : Run step Unrestricted init s tr) (c : CellId) :
    Seq none (opsOf c tr) (valueOf s c) := by
  induction h with
  | nil => exact .nil _
  | snoc hrun _ hs ih =>
    rw [opsOf_append]
    exact ih.append ((step_sound (run_inv hrun) hs).2 c)

/-- **Synchronising memory cells are consistent.**  In every state that a run reaches, the
operations on a cell, in the order in which they have taken effect, with their results, are those
of a cell that is used in sequence, and lead to its value; the values that were removed from the
cell, with the one that it has, are those that were put into it.  When no thread is in an atomic
region, a cell that has a value has no reader that is not cancelled, and no thread is blocked that
waits for it.  No operation fails, and an atomic region can be left. -/
theorem syncVar_consistent {s : State α} {tr : List (Obs α)}
    (h : Run step Unrestricted init s tr) :
    (∀ c, Seq none (opsOf c tr) (valueOf s c) ∧
      inserted (opsOf c tr) = removed (opsOf c tr) ++ (valueOf s c).toList) ∧
    (s.atomic = none → ∀ (c : CellId) cell, s.cells[c]? = some cell → cell.value ≠ none →
      (∀ e ∈ cell.readQ.toList, s.threads.isCancelled e.1 = true) ∧
        ∀ b ∈ s.threads.blocked, c ∉ b.waits) ∧
    (∀ l : Label α, l.Valid s → ∃ s' os, step s l = some (s', os)) ∧
    ∃ s' tr', Run step Unrestricted s s' tr' ∧ s'.atomic = none := by
  have hinv := run_inv h
  refine ⟨?_, ?_, fun l hv => exists_step hinv hv, exists_leave hinv⟩
  · intro c
    have hseq := run_seq h c
    exact ⟨hseq, by simpa using hseq.inserted_eq⟩
  · intro hnone c cell hc hv
    have hquiet := hinv.quiet c (by rwa [valueOf_eq hc]) (by simp [hnone])
    refine ⟨?_, hinv.waiting.not_mem_waits hquiet⟩
    intro e he
    refine hquiet (entry e) ?_
    rw [readQueue_eq hc]
    exact List.mem_map_of_mem he

/-- An M-variable whose value thread 3 has put, thread 1 has read and thread 2 has replaced. -/
def swappedCell : State ℕ where
  cells := [⟨1, ⟨[], []⟩, some 9⟩]
  threads := ⟨[.cancel, .cancel], []⟩
  cnt := 0
  atomic := none

theorem run_swappedCell : Run step Unrestricted init swappedCell
    [⟨0, 1, .created none⟩, ⟨0, 3, .put 5 true⟩, ⟨0, 1, .get 5⟩, ⟨0, 2, .swap 9 5⟩] := by
  have h0 : Run step Unrestricted (init : State ℕ) init [] := Run.nil
  have h1 := h0.snoc (l := .run 1 .mVar) trivial
    (by rfl : step init _ = some (_, [⟨0, 1, .created none⟩]))
  have h2 := h1.snoc (l := .run 1 (.mGet 0)) trivial (by rfl : step _ _ = some (_, []))
  have h3 := h2.snoc (l := .run 2 (.mSwap 0 9)) trivial (by rfl : step _ _ = some (_, []))
  have h4 := h3.snoc (l := .run 3 (.mPut 0 5)) trivial
    (by rfl : step _ _ = some (_, [⟨0, 3, .put 5 true⟩]))
  have h5 := h4.snoc (l := .cont []) trivial (by rfl : step _ _ = some (_, [⟨0, 1, .get 5⟩]))
  exact h5.snoc (l := .cont []) trivial
    (by rfl : step _ _ = some (swappedCell, [⟨0, 2, .swap 9 5⟩]))

theorem syncVar_consistent_swappedCell :
    Seq none [.created none, .put 5 true, .get 5, .swap 9 5] (valueOf swappedCell 0) :=
  ((syncVar_consistent run_swappedCell).1 0).1

end SmlNj.CML.SyncVar
