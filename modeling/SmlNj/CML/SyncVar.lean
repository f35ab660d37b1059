import SmlNj.Lib.Transition
import SmlNj.CML.Waiting
import SmlNj.CML.Sync

/-!
# Synchronising memory cells

I-variables and M-variables are cells that hold a value or are empty, with a queue of the threads
that wait for a value.  A value that is put into an empty cell is handed to the first thread that
waits.  That thread goes on in the same atomic region: it leaves the value in the cell and hands it
to the next thread that waits, or takes it, or replaces it and hands the new value on.

An operation runs in an atomic region.  When it hands the value to another thread, the region is
left by that thread, or by one that it hands the value to in turn; no other thread runs in between.
The state therefore records the thread to which a value is being handed, and the next step is that
thread's.

A thread that synchronises on a choice may have other base events in it than those of cells, as in
the model of mailboxes.

## Main definitions

* `State` — the cells, the threads that are blocked, and the value that is being handed over.
* `put`, `read`, `cont` — an operation that puts a value, one that reads it, and the continuation
  of a thread that is handed a value.
* `step` — a step of the system.
-/

namespace SmlNj.CML.SyncVar

abbrev CellId := ℕ

/-- What a reader does to the cell whose value it has read. -/
inductive Reader (α : Type*)
  | get
  | take
  | swap (newV : α)
  deriving DecidableEq

/-- The continuation of a reader that is blocked: its thread, what it does with the value, and
whether it is a base event of a choice. -/
structure Kont (α : Type*) where
  tid : ThreadId
  reader : Reader α
  isEvt : Bool
  deriving DecidableEq

/-- The representation of I-variables and M-variables. -/
structure Cell (α : Type*) where
  priority : ℤ
  readQ : TwoListQueue (TransId × Kont α)
  value : Option α
  deriving DecidableEq

/-- A value that is being handed to a thread that was blocked. -/
structure Pending (α : Type*) where
  cell : CellId
  kont : Kont α
  msg : α
  deriving DecidableEq

/-- The cells, the threads that are blocked, the counter that is used to select events, and what
remains to be done in the atomic region, if it was not left. -/
structure State (α : Type*) where
  cells : List (Cell α)
  threads : Threads CellId
  cnt : ℕ
  atomic : Option (Pending α)
  deriving DecidableEq

/-- An operation on a cell that has taken effect, with its result. -/
inductive CellOp (α : Type*)
  | created (init : Option α)
  /-- a value was put, or the exception `Put` was raised -/
  | put (x : α) (ok : Bool)
  | get (v : α)
  | take (v : α)
  | swap (newV v : α)
  | getPoll (result : Option α)
  /-- the cell was polled, and its value was removed if there was one -/
  | takePoll (result : Option α)
  deriving DecidableEq

/-- What can be observed of a step: an operation of a thread has taken effect. -/
structure Obs (α : Type*) where
  cell : CellId
  tid : ThreadId
  op : CellOp α
  deriving DecidableEq

variable {α : Type*}

/-- No cell, and no thread that is blocked. -/
def init : State α where
  cells := []
  threads := ⟨[], []⟩
  cnt := 0
  atomic := none

def State.setCell (s : State α) (c : CellId) (cell : Cell α) : State α :=
  { s with cells := s.cells.set c cell }

def Cell.enqueue (cell : Cell α) (transId : TransId) (kont : Kont α) : Cell α :=
  { cell with readQ := cell.readQ.enqueue (transId, kont) }

def newCell (tid : ThreadId) (value : Option α) (s : State α) : State α × List (Obs α) :=
  ({ s with cells := s.cells ++ [⟨0, .empty, value⟩] },
    [⟨s.cells.length, tid, .created value⟩])

def iVar (tid : ThreadId) (s : State α) : State α × List (Obs α) := newCell tid none s

def mVar (tid : ThreadId) (s : State α) : State α × List (Obs α) := newCell tid none s

def mVarInit (tid : ThreadId) (x : α) (s : State α) : State α × List (Obs α) :=
  newCell tid (some x) s

/-- Hand a value to the first thread that waits for it; the atomic region is left if there is
none. -/
def handTo (c : CellId) (cell : Cell α) (msg : α) (update : Cell α → Cell α) (s : State α) :
    Option (State α) :=
  match cleanAndRemove (fun e => s.threads.isCancelled e.1) cell.readQ with
  | (none, q) => some { s.setCell c { cell with readQ := q } with atomic := none }
  | (some (transId, kont), q) =>
      (s.threads.resume transId kont.tid).map fun (_, threads) =>
        { s.setCell c (update { cell with readQ := q }) with
            threads := threads, atomic := some ⟨c, kont, msg⟩ }

def relayMsg (c : CellId) (cell : Cell α) (msg : α) (s : State α) : Option (State α) :=
  handTo c cell msg id s

/-! ### The operations -/

/-- Put a value into a cell. -/
def put (tid : ThreadId) (c : CellId) (x : α) (s : State α) : Option (State α × List (Obs α)) :=
  match s.cells[c]? with
  | none => none
  | some cell =>
      match cell.value with
      | none =>
          (handTo c { cell with value := some x } x (fun cell => { cell with priority := 1 }) s).map
            fun s' => (s', [⟨c, tid, .put x true⟩])
      | some _ => some (s, [⟨c, tid, .put x false⟩])

/-- The value that a reader leaves in the cell from which it has read `v`. -/
def Reader.leaves (v : α) : Reader α → Option α
  | .get => some v
  | .take => none
  | .swap newV => some newV

/-- The operation of a reader that has read `v`. -/
def Reader.op (v : α) : Reader α → CellOp α
  | .get => .get v
  | .take => .take v
  | .swap newV => .swap newV v

/-- Read the value of a cell, or block until there is one. -/
def read (reader : Reader α) (tid : ThreadId) (c : CellId) (s : State α) :
    Option (State α × List (Obs α)) :=
  match s.cells[c]? with
  | none => none
  | some cell =>
      match cell.value with
      | none =>
          let (transId, _) := mkId s.threads.table tid
          some ({ s.setCell c (cell.enqueue transId ⟨tid, reader, false⟩) with
                    threads := s.threads.suspend tid [c] false }, [])
      | some v =>
          some (s.setCell c { cell with value := reader.leaves v }, [⟨c, tid, reader.op v⟩])

def getPoll (tid : ThreadId) (c : CellId) (s : State α) : Option (State α × List (Obs α)) :=
  match s.cells[c]? with
  | none => none
  | some cell => some (s, [⟨c, tid, .getPoll cell.value⟩])

def iPut (tid : ThreadId) (c : CellId) (x : α) : State α → Option (State α × List (Obs α)) :=
  put tid c x

def iGet (tid : ThreadId) (c : CellId) : State α → Option (State α × List (Obs α)) :=
  read .get tid c

def iGetPoll (tid : ThreadId) (c : CellId) : State α → Option (State α × List (Obs α)) :=
  getPoll tid c

def mPut (tid : ThreadId) (c : CellId) (x : α) : State α → Option (State α × List (Obs α)) :=
  put tid c x

def mTake (tid : ThreadId) (c : CellId) : State α → Option (State α × List (Obs α)) :=
  read .take tid c

def mGet (tid : ThreadId) (c : CellId) : State α → Option (State α × List (Obs α)) :=
  read .get tid c

def mSwap (tid : ThreadId) (c : CellId) (newV : α) : State α → Option (State α × List (Obs α)) :=
  read (.swap newV) tid c

def mGetPoll (tid : ThreadId) (c : CellId) : State α → Option (State α × List (Obs α)) :=
  getPoll tid c

/-- Take the value of an M-variable if it has one. -/
def mTakePoll (tid : ThreadId) (c : CellId) (s : State α) : Option (State α × List (Obs α)) :=
  match s.cells[c]? with
  | none => none
  | some cell =>
      match cell.value with
      | none => some (s, [⟨c, tid, .takePoll none⟩])
      | some v => some (s.setCell c { cell with value := none }, [⟨c, tid, .takePoll (some v)⟩])

/-! ### Synchronisation on a choice -/

/-- The base events of a choice: those of cells, and others, which are enabled with a priority or
not.  The function of an event of an I-variable resets the priority of the cell. -/
inductive BaseEvt (α : Type*)
  | read (reader : Reader α) (c : CellId) (resetPriority : Bool)
  | other (prio : Option ℤ)
  deriving DecidableEq

def iGetEvt (c : CellId) : BaseEvt α := .read .get c true

def mTakeEvt (c : CellId) : BaseEvt α := .read .take c false

def mGetEvt (c : CellId) : BaseEvt α := .read .get c false

def mSwapEvt (c : CellId) (newV : α) : BaseEvt α := .read (.swap newV) c false

/-- The function of an enabled base event; that of a cell keeps the value that was found when the
event was polled. -/
inductive DoFn (α : Type*)
  | read (reader : Reader α) (c : CellId) (resetPriority : Bool) (v : α)
  | other

/-- The function of a base event that is blocked. -/
inductive BlockFn (α : Type*)
  | read (reader : Reader α) (c : CellId)
  | other

/-- Poll a base event; the priority of a cell that has a value is increased. -/
def pollFn (s : State α) : BaseEvt α → Option (State α × EventStatus (DoFn α) (BlockFn α))
  | .read reader c reset =>
      match s.cells[c]? with
      | none => none
      | some cell =>
          match cell.value with
          | none => some (s, .blocked (.read reader c))
          | some v =>
              some (s.setCell c { cell with priority := cell.priority + 1 },
                .enabled cell.priority (.read reader c reset v))
  | .other none => some (s, .blocked .other)
  | .other (some p) => some (s, .enabled p .other)

/-- A base event that is blocked enters the thread in the waiting queue of its cell. -/
def blockFn (transId : TransId) (tid : ThreadId) (s : State α) : BlockFn α → Option (State α)
  | .read reader c =>
      match s.cells[c]? with
      | none => none
      | some cell => some (s.setCell c (cell.enqueue transId ⟨tid, reader, true⟩))
  | .other => some s

def BlockFn.waits : BlockFn α → Option CellId
  | .read _ c => some c
  | .other => none

def BlockFn.isOther : BlockFn α → Bool
  | .read _ _ => false
  | .other => true

/-- Run the functions that block, in order, with a new transaction. -/
def log (tid : ThreadId) (blockFns : List (BlockFn α)) (s : State α) : Option (State α) :=
  let (transId, _) := mkId s.threads.table tid
  (blockFns.foldlM (blockFn transId tid) s).map fun s' =>
    { s' with threads := s'.threads.suspend tid (blockFns.filterMap BlockFn.waits)
                (blockFns.any BlockFn.isOther) }

def Reader.commit (cell : Cell α) (resetPriority : Bool) : Reader α → Cell α
  | .get => if resetPriority then { cell with priority := 1 } else cell
  | .take => { cell with value := none }
  | .swap newV => { cell with value := some newV }

/-- Run the function of an enabled event. -/
def DoFn.run (tid : ThreadId) (s : State α) : DoFn α → Option (State α × List (Obs α))
  | .read reader c reset v =>
      match s.cells[c]? with
      | none => none
      | some cell => some (s.setCell c (reader.commit cell reset), [⟨c, tid, reader.op v⟩])
  | .other => some (s, [])

/-- Synchronise on a choice.  Between the selection of an enabled event and its function the
negative acknowledgements of the choice may resume threads, `woken`, that wait for them. -/
def sync (tid : ThreadId) (evts : List (BaseEvt α)) (woken : List ThreadId) (s : State α) :
    Option (State α × List (Obs α)) :=
  match ext pollFn s evts [] with
  | none => none
  | some (s', .inl blockFns) => (log tid blockFns s').map fun s'' => (s'', [])
  | some (s', .inr (doFns, n)) =>
      match selectDoFn s'.cnt doFns n with
      | none => none
      | some (doFn, cnt) =>
          match s'.threads.wakeAll woken with
          | none => none
          | some threads => doFn.run tid { s' with threads := threads, cnt := cnt }

/-! ### Steps -/

/-- **The continuation of a thread that is handed a value**, in the atomic region.  If it was
blocked in a choice, its clean-up action may first resume threads, `woken`, that wait for negative
acknowledgements of the choice. -/
def cont (p : Pending α) (woken : List ThreadId) (s : State α) :
    Option (State α × List (Obs α)) :=
  if woken ≠ [] ∧ ¬ p.kont.isEvt then none
  else
    match s.threads.wakeAll woken, s.cells[p.cell]? with
    | some threads, some cell =>
        let s' := { s with threads := threads }
        let obs := [⟨p.cell, p.kont.tid, p.kont.reader.op p.msg⟩]
        match p.kont.reader with
        | .get => (relayMsg p.cell cell p.msg s').map fun s'' => (s'', obs)
        | .take => some ({ s'.setCell p.cell { cell with value := none } with atomic := none }, obs)
        | .swap newV =>
            (relayMsg p.cell { cell with value := some newV } newV s').map fun s'' => (s'', obs)
    | _, _ => none

/-- The operations of a thread. -/
inductive Op (α : Type*)
  | iVar
  | mVar
  | mVarInit (x : α)
  | iPut (c : CellId) (x : α)
  | iGet (c : CellId)
  | iGetPoll (c : CellId)
  | mPut (c : CellId) (x : α)
  | mTake (c : CellId)
  | mGet (c : CellId)
  | mSwap (c : CellId) (newV : α)
  | mGetPoll (c : CellId)
  | mTakePoll (c : CellId)
  | sync (evts : List (BaseEvt α)) (woken : List ThreadId)

/-- A thread runs an operation. -/
def Op.run (tid : ThreadId) (s : State α) : Op α → Option (State α × List (Obs α))
  | .iVar => some (SyncVar.iVar tid s)
  | .mVar => some (SyncVar.mVar tid s)
  | .mVarInit x => some (SyncVar.mVarInit tid x s)
  | .iPut c x => SyncVar.iPut tid c x s
  | .iGet c => SyncVar.iGet tid c s
  | .iGetPoll c => SyncVar.iGetPoll tid c s
  | .mPut c x => SyncVar.mPut tid c x s
  | .mTake c => SyncVar.mTake tid c s
  | .mGet c => SyncVar.mGet tid c s
  | .mSwap c newV => SyncVar.mSwap tid c newV s
  | .mGetPoll c => SyncVar.mGetPoll tid c s
  | .mTakePoll c => SyncVar.mTakePoll tid c s
  | .sync evts woken => SyncVar.sync tid evts woken s

/-- The steps: of a thread that runs an operation, of one that was blocked and is resumed by
another event than that of a cell, and of one that is handed a value. -/
inductive Label (α : Type*)
  | run (tid : ThreadId) (op : Op α)
  | wake (tid : ThreadId)
  | cont (woken : List ThreadId)

/-- **A step**: in an atomic region the thread that is handed a value goes on; outside it, a thread
that is not blocked runs an operation, or one that is blocked is resumed. -/
def step (s : State α) (l : Label α) : Option (State α × List (Obs α)) :=
  match s.atomic, l with
  | some p, .cont woken => cont p woken s
  | none, .run tid op => if s.threads.isBlocked tid then none else op.run tid s
  | none, .wake tid => (s.threads.wake tid).map fun threads => ({ s with threads := threads }, [])
  | _, _ => none

end SmlNj.CML.SyncVar
