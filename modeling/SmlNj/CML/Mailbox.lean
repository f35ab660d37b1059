import SmlNj.Lib.Transition
import SmlNj.CML.Waiting
import SmlNj.CML.Sync

/-!
# Mailboxes

A mailbox is an asynchronous channel.  Its state is either a queue of messages, which is not
empty, or a queue of threads that wait for one.  A message that is sent while a thread waits is
handed to it directly.

Each operation runs in an atomic region, so that the operations of the threads are interleaved
as whole steps.  A resumption continuation is the thread that is blocked on it.  A thread that
synchronises on a choice may have other base events in it than those of mailboxes: what polling
such an event gives is part of the label of the step, and a step of the environment resumes a
thread that is blocked on one.

## Main definitions

* `State` — the mailboxes, and the threads that are blocked.
* `send`, `recv`, `recvPoll`, `sync` — the operations.
* `step` — a thread runs an operation, or is resumed.
-/

namespace SmlNj.CML.Mailbox

abbrev MboxId := ℕ

/-- The threads that wait for a message, each with its transaction. -/
abbrev WaitQueue := TwoListQueue (TransId × ThreadId)

/-- The state of a mailbox.  The queue of the `nonempty` constructor should never be empty. -/
inductive MState (α : Type*)
  | empty (q : WaitQueue)
  | nonempty (priority : ℤ) (q : TwoListQueue α)
  deriving DecidableEq

/-- The base events of a choice: those of mailboxes, and others, which are enabled with a
priority or not. -/
inductive BaseEvt
  | recvEvt (m : MboxId)
  | other (prio : Option ℤ)
  deriving DecidableEq

/-- The mailboxes, the threads that are blocked and the counter that is used to select events. -/
structure State (α : Type*) where
  mboxes : List (MState α)
  threads : Threads MboxId
  cnt : ℕ
  deriving DecidableEq

/-- What can be observed of a step. -/
inductive Obs (α : Type*)
  | sent (m : MboxId) (tid : ThreadId) (msg : α)
  | received (m : MboxId) (tid : ThreadId) (msg : α)
  deriving DecidableEq

variable {α : Type*}

def init : State α where
  mboxes := []
  threads := ⟨[], []⟩
  cnt := 0

def mailbox (s : State α) : State α :=
  { s with mboxes := s.mboxes ++ [.empty .empty] }

def State.setMbox (s : State α) (m : MboxId) (ms : MState α) : State α :=
  { s with mboxes := s.mboxes.set m ms }

/-- Send a message. -/
def send (tid : ThreadId) (m : MboxId) (x : α) (s : State α) : Option (State α × List (Obs α)) :=
  match s.mboxes[m]? with
  | none => none
  | some (.empty q) =>
      match cleanAndRemove (fun e => s.threads.isCancelled e.1) q with
      | (none, _) => some (s.setMbox m (.nonempty 1 ⟨[x], []⟩), [.sent m tid x])
      | (some (transId, recvK), q') =>
          -- the receiver goes on at once, with the message, as the current thread
          (s.threads.resume transId recvK).map fun (rtid, threads) =>
            ({ s.setMbox m (.empty q') with threads := threads },
              [.sent m tid x, .received m rtid x])
  | some (.nonempty p q) => some (s.setMbox m (.nonempty p (q.enqueue x)), [.sent m tid x])

/-- The state of a mailbox that holds the messages that are left. -/
def MState.ofQueue : TwoListQueue α → MState α
  | ⟨[], []⟩ => .empty .empty
  | q' => .nonempty 1 q'

/-- Take the first message of the queue of a mailbox. -/
def getMsg (tid : ThreadId) (m : MboxId) (q : TwoListQueue α) (s : State α) :
    Option (State α × List (Obs α)) :=
  match q.dequeue with
  | none => none
  | some (msg, q') => some (s.setMbox m (.ofQueue q'), [.received m tid msg])

/-- Receive a message, or block until there is one. -/
def recv (tid : ThreadId) (m : MboxId) (s : State α) : Option (State α × List (Obs α)) :=
  match s.mboxes[m]? with
  | none => none
  | some (.empty q) =>
      let (transId, _) := mkId s.threads.table tid
      some ({ s.setMbox m (.empty (q.enqueue (transId, tid))) with
                threads := s.threads.suspend tid [m] false }, [])
  | some (.nonempty _ q) => getMsg tid m q s

/-- Receive a message if there is one. -/
def recvPoll (tid : ThreadId) (m : MboxId) (s : State α) : Option (State α × List (Obs α)) :=
  match s.mboxes[m]? with
  | none => none
  | some (.empty _) => some (s, [])
  | some (.nonempty _ q) => getMsg tid m q s

/-! ### Synchronisation on a choice -/

/-- The function of an enabled base event; that of a mailbox keeps the queue that was found when
the event was polled. -/
inductive DoFn (α : Type*)
  | getMsg (m : MboxId) (q : TwoListQueue α)
  | other

/-- The function of a base event that is blocked. -/
inductive BlockFn
  | recvEvt (m : MboxId)
  | other

/-- Poll a base event. -/
def pollFn (s : State α) : BaseEvt → Option (State α × EventStatus (DoFn α) BlockFn)
  | .recvEvt m =>
      match s.mboxes[m]? with
      | none => none
      | some (.empty _) => some (s, .blocked (.recvEvt m))
      | some (.nonempty p q) =>
          some (s.setMbox m (.nonempty (p + 1) q), .enabled p (.getMsg m q))
  | .other none => some (s, .blocked .other)
  | .other (some p) => some (s, .enabled p .other)

/-- Enter a thread in the waiting queue of a mailbox, which has no message. -/
def blockFn (transId : TransId) (tid : ThreadId) (s : State α) : BlockFn → Option (State α)
  | .recvEvt m =>
      match s.mboxes[m]? with
      | some (.empty q) => some (s.setMbox m (.empty (q.enqueue (transId, tid))))
      | _ => none
  | .other => some s

def BlockFn.waits : BlockFn → Option MboxId
  | .recvEvt m => some m
  | .other => none

def BlockFn.isOther : BlockFn → Bool
  | .recvEvt _ => false
  | .other => true

/-- Run the functions that block, in order, with a new transaction. -/
def log (tid : ThreadId) (blockFns : List BlockFn) (s : State α) : Option (State α) :=
  let (transId, _) := mkId s.threads.table tid
  (blockFns.foldlM (blockFn transId tid) s).map fun s' =>
    { s' with threads := s'.threads.suspend tid (blockFns.filterMap BlockFn.waits)
                (blockFns.any BlockFn.isOther) }

def DoFn.run (tid : ThreadId) (s : State α) : DoFn α → Option (State α × List (Obs α))
  | .getMsg m q => Mailbox.getMsg tid m q s
  | .other => some (s, [])

/-- Synchronise on a choice.  Between the selection of an enabled event and its function the
negative acknowledgements of the choice may resume threads, `woken`, that wait for them. -/
def sync (tid : ThreadId) (evts : List BaseEvt) (woken : List ThreadId) (s : State α) :
    Option (State α × List (Obs α)) :=
  match ext pollFn s evts [] with
  | none => none
  | some (s', .inl blockFns) => (log tid blockFns s').map fun s'' => (s'', [])
  | some (s', .inr (doFns, n)) =>
      match selectDoFn s'.cnt doFns n with
      | none => none
      | some (doFn, cnt) =>
          match s'.threads.wakeAll woken with
          | none => none
          | some threads => doFn.run tid { s' with threads := threads, cnt := cnt }

/-- The operations; the last one is of the environment. -/
inductive Op (α : Type*)
  | mailbox
  | send (m : MboxId) (x : α)
  | recv (m : MboxId)
  | recvPoll (m : MboxId)
  | sync (evts : List BaseEvt) (woken : List ThreadId)
  | wake

def Op.isRunning : Op α → Bool
  | .wake => false
  | _ => true

/-- **A step**: a thread that is not blocked runs an operation, or one that is blocked is
resumed by another event than that of a mailbox. -/
def step (s : State α) (l : ThreadId × Op α) : Option (State α × List (Obs α)) :=
  if l.2.isRunning && s.threads.isBlocked l.1 then none
  else
    match l.2 with
    | .mailbox => some (mailbox s, [])
    | .send m x => send l.1 m x s
    | .recv m => recv l.1 m s
    | .recvPoll m => recvPoll l.1 m s
    | .sync evts woken => sync l.1 evts woken s
    | .wake => (s.threads.wake l.1).map fun threads => ({ s with threads := threads }, [])

end SmlNj.CML.Mailbox
