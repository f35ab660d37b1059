import SmlNj.CML.Mailbox
import SmlNj.Lib.ExceptList

/-!
# Mailboxes are lossless queues

Every message that was sent to a mailbox has been received from it or is queued in it, in the
order in which the messages were sent.  A mailbox that holds no message keeps an entry for each
thread that waits for it, so that no thread waits for a mailbox that holds one.

## Main definitions

* `Inv` — the waiting queues have an entry for each thread that is blocked, and no others that
  are not cancelled; a queue of messages is not empty.
* `queued`, `sentTo`, `receivedFrom` — the messages of a mailbox.

## Main results

* `step_sound` — what a step preserves.
* `exists_step` — no operation fails.
* `mailbox_fifo` — what holds in every run.
-/

namespace SmlNj.CML.Mailbox

open Transition

variable {α : Type*}

/-! ### The invariant -/

def MState.entries : MState α → List (TransId × ThreadId)
  | .empty q => q.toList
  | .nonempty _ _ => []

def MState.msgs : MState α → List α
  | .empty _ => []
  | .nonempty _ q => q.toList

def MState.WellFormed : MState α → Prop
  | .empty _ => True
  | .nonempty p q => q.toList ≠ [] ∧ 0 < p

def waitQueue (s : State α) (m : MboxId) : List (TransId × ThreadId) :=
  match s.mboxes[m]? with
  | none => []
  | some ms => ms.entries

def queued (m : MboxId) (s : State α) : List α :=
  match s.mboxes[m]? with
  | none => []
  | some ms => ms.msgs

/-- The waiting queues agree with the threads that are blocked, and no queue of messages is
empty. -/
structure Inv (s : State α) : Prop where
  wellFormed : ∀ ms ∈ s.mboxes, ms.WellFormed
  waiting : Waiting s.threads (waitQueue s)

theorem inv_init : Inv (init : State α) where
  wellFormed := by simp [init]
  waiting := waiting_nil

variable {s s' : State α} {m : MboxId} {ms old : MState α} {p : ℤ} {q : TwoListQueue α}
  {os : List (Obs α)} {tid : ThreadId} {blockFns : List BlockFn}

theorem waitQueue_eq (h : s.mboxes[m]? = some ms) : waitQueue s m = ms.entries := by
  simp [waitQueue, h]

theorem queued_eq (h : s.mboxes[m]? = some ms) : queued m s = ms.msgs := by
  simp [queued, h]

theorem getElem?_setMbox (h : s.mboxes[m]? = some old) (ms : MState α) (m' : MboxId) :
    (s.setMbox m ms).mboxes[m']? = if m = m' then some ms else s.mboxes[m']? := by
  obtain ⟨hlt, -⟩ := List.getElem?_eq_some_iff.mp h
  simp [State.setMbox, List.getElem?_set, hlt]

theorem waitQueue_setMbox (h : s.mboxes[m]? = some old) (ms : MState α) (m' : MboxId) :
    waitQueue (s.setMbox m ms) m' = if m = m' then ms.entries else waitQueue s m' := by
  by_cases heq : m = m'
  · simp [waitQueue, getElem?_setMbox h, if_pos heq]
  · simp [waitQueue, getElem?_setMbox h, if_neg heq]

theorem queued_setMbox (h : s.mboxes[m]? = some old) (ms : MState α) (m' : MboxId) :
    queued m' (s.setMbox m ms) = if m = m' then ms.msgs else queued m' s := by
  by_cases heq : m = m'
  · simp [queued, getElem?_setMbox h, if_pos heq]
  · simp [queued, getElem?_setMbox h, if_neg heq]

theorem wellFormed_setMbox (h : Inv s) (m : MboxId) (hms : ms.WellFormed) :
    ∀ ms' ∈ (s.setMbox m ms).mboxes, ms'.WellFormed := by
  intro ms' hmem
  rcases List.mem_or_eq_of_mem_set hmem with hmem | rfl
  · exact h.wellFormed ms' hmem
  · exact hms

theorem Inv.nonempty_queue (h : Inv s) (hm : s.mboxes[m]? = some (.nonempty p q)) :
    q.toList ≠ [] ∧ 0 < p :=
  h.wellFormed _ (List.mem_of_getElem? hm)

theorem Inv.setMbox (h : Inv s) (hm : s.mboxes[m]? = some old) (hms : ms.WellFormed)
    (hentries : ms.entries = old.entries ∨
      (ms.entries = [] ∧ ∀ e ∈ old.entries, s.threads.isCancelled e.1 = true)) :
    Inv (s.setMbox m ms) where
  wellFormed := wellFormed_setMbox h m hms
  waiting := by
    refine Waiting.clean (t := s.threads) h.waiting ?_ ?_
    · intro m' e he
      rw [waitQueue_setMbox hm] at he
      split at he
      · next heq =>
        rw [← heq, waitQueue_eq hm]
        rcases hentries with hsame | ⟨hnil, -⟩
        · rwa [hsame] at he
        · rw [hnil] at he
          cases he
      · exact he
    · intro m' e he hc
      rw [waitQueue_setMbox hm]
      split
      · next heq =>
        rw [← heq, waitQueue_eq hm] at he
        rcases hentries with hsame | ⟨-, hall⟩
        · rwa [hsame]
        · rw [hall e he] at hc
          cases hc
      · exact he

def sentTo (m : MboxId) (os : List (Obs α)) : List α :=
  os.filterMap fun
    | .sent m' _ x => if m' = m then some x else none
    | _ => none

def receivedFrom (m : MboxId) (os : List (Obs α)) : List α :=
  os.filterMap fun
    | .received m' _ x => if m' = m then some x else none
    | _ => none

/-- What a step must do to the messages of a mailbox: those that were queued and those that it
sends are those that it receives and those that are queued after it. -/
def Fifo (s s' : State α) (os : List (Obs α)) : Prop :=
  ∀ m, queued m s ++ sentTo m os = receivedFrom m os ++ queued m s'

def Sound (s s' : State α) (os : List (Obs α)) : Prop := Inv s' ∧ Fifo s s' os

theorem fifo_nil (h : ∀ m, queued m s' = queued m s) : Fifo s s' [] := by
  intro m
  rw [h m]
  exact List.append_nil _

theorem fifo_setMbox (h : s.mboxes[m]? = some old)
    (hm : old.msgs ++ sentTo m os = receivedFrom m os ++ ms.msgs)
    (hother : ∀ m', m ≠ m' → sentTo m' os = [] ∧ receivedFrom m' os = []) :
    Fifo s (s.setMbox m ms) os := by
  intro m'
  rw [queued_setMbox h]
  by_cases heq : m = m'
  · subst heq
    rw [if_pos rfl, queued_eq h, hm]
  · rw [if_neg heq, (hother m' heq).1, (hother m' heq).2]
    simp

/-! ### Sending and receiving -/

theorem wellFormed_ofQueue (q : TwoListQueue α) : (MState.ofQueue q).WellFormed := by
  unfold MState.ofQueue
  split
  · trivial
  · next hne => exact ⟨fun hnil => hne (TwoListQueue.toList_eq_nil_iff.mp hnil), by decide⟩

theorem entries_ofQueue (q : TwoListQueue α) : (MState.ofQueue q).entries = [] := by
  unfold MState.ofQueue
  split <;> rfl

theorem msgs_ofQueue (q : TwoListQueue α) : (MState.ofQueue q).msgs = q.toList := by
  unfold MState.ofQueue
  split <;> rfl

theorem getMsg_sound (h : Inv s) (hm : s.mboxes[m]? = some (.nonempty p q))
    (hs : getMsg tid m q s = some (s', os)) : Sound s s' os := by
  unfold getMsg at hs
  split at hs
  · simp at hs
  · next msg q' hq =>
    obtain ⟨rfl, rfl⟩ := Prod.mk.inj (Option.some.inj hs)
    have hlist := TwoListQueue.toList_of_dequeue hq
    refine ⟨h.setMbox hm (wellFormed_ofQueue q') (.inl (entries_ofQueue q')),
      fifo_setMbox hm ?_ ?_⟩
    · rw [msgs_ofQueue]
      simp [MState.msgs, hlist, sentTo, receivedFrom]
    · intro m' hne
      simp [sentTo, receivedFrom, hne]

theorem handoff_sound {s : State α} {tid : ThreadId} {m : MboxId} {x : α}
    {q q' : WaitQueue} {e : TransId × ThreadId} (h : Inv s)
    (hm : s.mboxes[m]? = some (.empty q))
    (hq : cleanAndRemove (fun e => s.threads.isCancelled e.1) q = (some e, q')) :
    ∃ threads, s.threads.resume e.1 e.2 = some (e.2, threads) ∧
      Sound s { s.setMbox m (.empty q') with threads := threads }
        [.sent m tid x, .received m e.2 x] := by
  have hqueue : waitQueue s m = q.toList.map id := by
    rw [waitQueue_eq hm, List.map_id]
    rfl
  obtain ⟨b, -, threads, -, -, -, hres, -, -, -, hwait⟩ := h.waiting.handoff hqueue hq
  refine ⟨threads, hres, ⟨wellFormed_setMbox h m trivial, ?_⟩, ?_⟩
  · refine hwait _ ?_ ?_
    · intro m' hne
      exact (waitQueue_setMbox hm _ m').trans (if_neg (Ne.symm hne))
    · rw [List.map_id]
      exact (waitQueue_setMbox hm _ m).trans (if_pos rfl)
  · have hf : Fifo s (s.setMbox m (.empty q')) [.sent m tid x, .received m e.2 x] := by
      refine fifo_setMbox hm ?_ ?_
      · simp [MState.msgs, sentTo, receivedFrom]
      · intro m' hne
        simp [sentTo, receivedFrom, hne]
    exact hf

theorem send_sound {x : α} (h : Inv s) (hs : send tid m x s = some (s', os)) : Sound s s' os := by
  have hother : ∀ m', m ≠ m' → sentTo m' [Obs.sent m tid x] = [] ∧
      receivedFrom m' [Obs.sent m tid x] = [] := by
    intro m' hne
    simp [sentTo, receivedFrom, hne]
  unfold send at hs
  split at hs
  · simp at hs
  · next q hm =>
    split at hs
    · next hq =>
      -- nobody waits, and the message is queued
      obtain ⟨rfl, rfl⟩ := Prod.mk.inj (Option.some.inj hs)
      have hqueue : waitQueue s m = q.toList.map id := by
        rw [waitQueue_eq hm, List.map_id]
        rfl
      have hall := (Waiting.no_handoff hqueue hq).1
      rw [waitQueue_eq hm] at hall
      refine ⟨h.setMbox hm ⟨by simp [TwoListQueue.toList], by decide⟩ (.inr ⟨rfl, hall⟩),
        fifo_setMbox hm ?_ hother⟩
      simp [MState.msgs, TwoListQueue.toList, sentTo, receivedFrom]
    · next transId recvK q' hq =>
      obtain ⟨threads, hres, hsound⟩ := @handoff_sound _ s tid m x _ _ _ h hm hq
      simp only [hres] at hs
      obtain ⟨rfl, rfl⟩ := hs
      exact hsound
  · next p q hm =>
    obtain ⟨rfl, rfl⟩ := Prod.mk.inj (Option.some.inj hs)
    refine ⟨h.setMbox hm ⟨by simp, (h.nonempty_queue hm).2⟩ (.inl rfl),
      fifo_setMbox hm ?_ hother⟩
    simp [MState.msgs, sentTo, receivedFrom]

theorem recvPoll_sound (h : Inv s) (hs : recvPoll tid m s = some (s', os)) : Sound s s' os := by
  unfold recvPoll at hs
  split at hs
  · simp at hs
  · obtain ⟨rfl, rfl⟩ := Prod.mk.inj (Option.some.inj hs)
    exact ⟨h, fifo_nil fun _ => rfl⟩
  · next p q hm => exact getMsg_sound h hm hs

theorem entered_setMbox {s₀ : State α} {e : TransId × ThreadId} {waits : List MboxId}
    (h : Entered (waitQueue s₀) (waitQueue s) e waits) {q : WaitQueue}
    (hm : s.mboxes[m]? = some (.empty q)) :
    Entered (waitQueue s₀) (waitQueue (s.setMbox m (.empty (q.enqueue e)))) e (waits ++ [m]) := by
  refine h.enqueue ?_ ?_
  · intro m' hne
    rw [waitQueue_setMbox hm, if_neg (Ne.symm hne)]
  · rw [waitQueue_setMbox hm, if_pos rfl, waitQueue_eq hm]
    exact TwoListQueue.toList_enqueue q e

theorem queued_enqueue {q : WaitQueue} {e : TransId × ThreadId}
    (hm : s.mboxes[m]? = some (.empty q)) (m' : MboxId) :
    queued m' (s.setMbox m (.empty (q.enqueue e))) = queued m' s := by
  rw [queued_setMbox hm]
  split
  · next heq =>
    rw [← heq, queued_eq hm]
    rfl
  · rfl

theorem recv_sound (h : Inv s) (htid : s.threads.isBlocked tid = false)
    (hs : recv tid m s = some (s', os)) : Sound s s' os := by
  unfold recv at hs
  split at hs
  · simp at hs
  · next q hm =>
    obtain ⟨rfl, rfl⟩ := Prod.mk.inj (Option.some.inj hs)
    have hent := entered_setMbox
      (entered_nil (waitQueue s) (s.threads.table.length, tid)) hm
    exact ⟨⟨wellFormed_setMbox h m trivial, h.waiting.block htid hent false⟩,
      fifo_nil (queued_enqueue hm)⟩
  · next p q hm => exact getMsg_sound h hm hs

/-! ### Choices -/

/-- The state after some base events of a choice have been polled: only priorities have
changed. -/
structure Polled (s s' : State α) : Prop where
  threads_eq : s'.threads = s.threads
  empty_iff : ∀ {m : MboxId} {q : WaitQueue},
    s'.mboxes[m]? = some (.empty q) ↔ s.mboxes[m]? = some (.empty q)
  nonempty : ∀ {m : MboxId} {p : ℤ} {q : TwoListQueue α},
    s'.mboxes[m]? = some (.nonempty p q) → ∃ p', s.mboxes[m]? = some (.nonempty p' q) ∧ p' ≤ p
  none_iff : ∀ {m : MboxId}, s'.mboxes[m]? = none ↔ s.mboxes[m]? = none

theorem polled_refl (s : State α) : Polled s s where
  threads_eq := rfl
  empty_iff := Iff.rfl
  nonempty {_ p _} h := ⟨p, h, le_refl p⟩
  none_iff := Iff.rfl

theorem Polled.queued_eq (hp : Polled s s') (m : MboxId) : queued m s' = queued m s := by
  rcases hs' : s'.mboxes[m]? with _ | ⟨q⟩ | ⟨p, q⟩
  · simp [queued, hs', hp.none_iff.mp hs']
  · rw [Mailbox.queued_eq hs', Mailbox.queued_eq (hp.empty_iff.mp hs')]
  · obtain ⟨p', hs, -⟩ := hp.nonempty hs'
    rw [Mailbox.queued_eq hs', Mailbox.queued_eq hs]
    rfl

theorem Polled.waitQueue_eq (hp : Polled s s') (m : MboxId) : waitQueue s' m = waitQueue s m := by
  rcases hs' : s'.mboxes[m]? with _ | ⟨q⟩ | ⟨p, q⟩
  · simp [waitQueue, hs', hp.none_iff.mp hs']
  · rw [Mailbox.waitQueue_eq hs', Mailbox.waitQueue_eq (hp.empty_iff.mp hs')]
  · obtain ⟨p', hs, -⟩ := hp.nonempty hs'
    rw [Mailbox.waitQueue_eq hs', Mailbox.waitQueue_eq hs]
    rfl

theorem Polled.inv (hp : Polled s s') (h : Inv s) : Inv s' where
  wellFormed := by
    intro ms hms
    obtain ⟨m, hm⟩ := List.mem_iff_getElem?.mp hms
    cases ms with
    | empty q => trivial
    | nonempty p q =>
      obtain ⟨p', hm', hle⟩ := hp.nonempty hm
      exact ⟨(h.nonempty_queue hm').1, lt_of_lt_of_le (h.nonempty_queue hm').2 hle⟩
  waiting := by
    rw [hp.threads_eq]
    exact h.waiting.congr hp.waitQueue_eq

theorem Polled.bump (hp : Polled s s') (hm : s'.mboxes[m]? = some (.nonempty p q)) :
    Polled s (s'.setMbox m (.nonempty (p + 1) q)) where
  threads_eq := hp.threads_eq
  empty_iff {m' q'} := by
    rw [← hp.empty_iff, getElem?_setMbox hm]
    split
    · next heq => simp [← heq, hm]
    · rfl
  nonempty {m' p' q'} hq' := by
    rw [getElem?_setMbox hm] at hq'
    split at hq'
    · next heq =>
      cases hq'
      obtain ⟨p₀, hs, hle⟩ := hp.nonempty hm
      exact ⟨p₀, heq ▸ hs, by omega⟩
    · exact hp.nonempty hq'
  none_iff {m'} := by
    rw [← hp.none_iff, getElem?_setMbox hm]
    split
    · next heq => simp [← heq, hm]
    · rfl

/-- A base event of a choice is well formed in a state: its mailbox exists, and the priority of
an event that is not of a mailbox is fixed or positive. -/
def BaseEvt.Valid (s : State α) : BaseEvt → Prop
  | .recvEvt m => m < s.mboxes.length
  | .other none => True
  | .other (some p) => p = -1 ∨ 0 < p

/-- The function of an enabled event has the queue that its mailbox holds. -/
def DoFnOk (s : State α) : DoFn α → Prop
  | .getMsg m q => ∃ p, s.mboxes[m]? = some (.nonempty p q)
  | .other => True

def BlockFnOk (s : State α) : BlockFn → Prop
  | .recvEvt m => ∃ q, s.mboxes[m]? = some (.empty q)
  | .other => True

theorem pollFn_spec {s'' : State α} (h : Inv s) (hp : Polled s s') {b : BaseEvt}
    {st : EventStatus (DoFn α) BlockFn} (hb : pollFn s' b = some (s'', st)) :
    Polled s s'' ∧ StatusOk (fun p d => DoFnOk s d ∧ (b.Valid s → p = -1 ∨ 0 ≤ p))
      (fun _ k => BlockFnOk s k) b st := by
  cases b with
  | recvEvt m =>
    simp only [pollFn] at hb
    split at hb
    · simp at hb
    · next q hm =>
      obtain ⟨rfl, rfl⟩ := Prod.mk.inj (Option.some.inj hb)
      exact ⟨hp, q, hp.empty_iff.mp hm⟩
    · next p q hm =>
      obtain ⟨rfl, rfl⟩ := Prod.mk.inj (Option.some.inj hb)
      obtain ⟨p', hm', hle⟩ := hp.nonempty hm
      have hpos := (h.nonempty_queue hm').2
      exact ⟨hp.bump hm, ⟨p', hm'⟩, fun _ => .inr (hpos.le.trans hle)⟩
  | other prio =>
    cases prio with
    | none =>
      obtain ⟨rfl, rfl⟩ := Prod.mk.inj (Option.some.inj hb)
      exact ⟨hp, trivial⟩
    | some p =>
      obtain ⟨rfl, rfl⟩ := Prod.mk.inj (Option.some.inj hb)
      exact ⟨hp, trivial, fun hv => hv.imp_right le_of_lt⟩

theorem pollFn_ok (h : Inv s) (evts : List BaseEvt) :
    ∀ s₁, Polled s s₁ → ∀ b ∈ evts, ∀ s₂ st, pollFn s₁ b = some (s₂, st) →
      Polled s s₂ ∧ StatusOk (fun p d => DoFnOk s d ∧ ((∀ b ∈ evts, b.Valid s) → p = -1 ∨ 0 ≤ p))
        (fun _ k => BlockFnOk s k) b st := by
  intro s₁ hp b hmem s₂ st hb
  obtain ⟨hp', hst⟩ := pollFn_spec h hp hb
  refine ⟨hp', ?_⟩
  cases st with
  | enabled p d => exact ⟨hst.1, fun hv => hst.2 (hv b hmem)⟩
  | blocked k => exact hst

/-- Running the functions that block enters the thread in the waiting queues. -/
theorem foldlM_blockFn {s₀ : State α} {transId : TransId} {waits : List MboxId}
    (hwf : ∀ ms ∈ s.mboxes, ms.WellFormed)
    (he : Entered (waitQueue s₀) (waitQueue s) (transId, tid) waits)
    (hs : blockFns.foldlM (blockFn transId tid) s = some s') :
    Entered (waitQueue s₀) (waitQueue s') (transId, tid)
        (waits ++ blockFns.filterMap BlockFn.waits) ∧
      s'.threads = s.threads ∧ (∀ ms ∈ s'.mboxes, ms.WellFormed) ∧
      ∀ m, queued m s' = queued m s := by
  induction blockFns generalizing s waits with
  | nil =>
    obtain rfl := Option.some.inj hs
    exact ⟨by simpa using he, rfl, hwf, fun _ => rfl⟩
  | cons k ks ih =>
    obtain ⟨s₁, hk, hrest⟩ := Option.bind_eq_some_iff.mp hs
    cases k with
    | recvEvt m =>
      simp only [blockFn] at hk
      split at hk
      · next q hm =>
        obtain rfl := Option.some.inj hk
        have hwf₁ : ∀ ms ∈ (s.setMbox m (.empty (q.enqueue (transId, tid)))).mboxes,
            ms.WellFormed := by
          intro ms hms
          rcases List.mem_or_eq_of_mem_set hms with hms | rfl
          · exact hwf ms hms
          · trivial
        obtain ⟨hent, hthreads, hwf', hq⟩ := ih hwf₁ (entered_setMbox he hm) hrest
        rw [List.append_assoc] at hent
        exact ⟨hent, hthreads, hwf', fun m' => (hq m').trans (queued_enqueue hm m')⟩
      · simp at hk
    | other =>
      obtain rfl := Option.some.inj hk
      exact ih hwf he hrest

theorem log_sound (h : Inv s) (htid : s.threads.isBlocked tid = false)
    (hs : log tid blockFns s = some s') : Inv s' ∧ ∀ m, queued m s' = queued m s := by
  obtain ⟨s₁, hfold, rfl⟩ := Option.map_eq_some_iff.mp hs
  obtain ⟨hent, hthreads, hwf, hq⟩ :=
    foldlM_blockFn h.wellFormed (entered_nil (waitQueue s) _) hfold
  refine ⟨⟨hwf, ?_⟩, hq⟩
  rw [hthreads]
  exact h.waiting.block htid hent _

/-- The function of an enabled event is still right when the other events have been polled and
threads have been resumed. -/
theorem Polled.doFnOk {s₁ s₂ : State α} (hp : Polled s s₁) (hmb : s₂.mboxes = s₁.mboxes)
    {d : DoFn α} (hd : DoFnOk s d) : DoFnOk s₂ d := by
  cases d with
  | getMsg m q =>
    obtain ⟨p, hm⟩ := hd
    rcases hs₁ : s₁.mboxes[m]? with _ | ⟨q'⟩ | ⟨p', q'⟩
    · rw [hp.none_iff.mp hs₁] at hm
      cases hm
    · rw [hp.empty_iff.mp hs₁] at hm
      cases hm
    · obtain ⟨p₀, hs₀, -⟩ := hp.nonempty hs₁
      rw [hs₀] at hm
      cases hm
      exact ⟨p', by rw [hmb]; exact hs₁⟩
  | other => trivial

theorem DoFn.run_sound {d : DoFn α} (h : Inv s) (hd : DoFnOk s d)
    (hs : d.run tid s = some (s', os)) : Sound s s' os := by
  cases d with
  | getMsg m q =>
    obtain ⟨p, hm⟩ := hd
    exact getMsg_sound h hm hs
  | other =>
    obtain ⟨rfl, rfl⟩ := Prod.mk.inj (Option.some.inj hs)
    exact ⟨h, fifo_nil fun _ => rfl⟩

theorem Inv.woken (h : Inv s) {threads : Threads MboxId} (cnt : ℕ)
    (hw : Waiting threads (waitQueue s)) : Inv { s with threads := threads, cnt := cnt } where
  wellFormed := h.wellFormed
  waiting := hw

/-- **A synchronisation on a choice** receives the message that its mailbox holds: the queue
that was found when the mailbox was polled is still that of the mailbox. -/
theorem sync_sound {evts : List BaseEvt} {woken : List ThreadId} (h : Inv s)
    (htid : s.threads.isBlocked tid = false) (hs : sync tid evts woken s = some (s', os)) :
    Sound s s' os := by
  unfold sync at hs
  split at hs
  · simp at hs
  · next s₁ blockFns hext =>
    obtain ⟨hp, -⟩ := ext_spec (pollFn_ok h evts) (polled_refl s) hext
    obtain ⟨s₂, hlog, heq⟩ := Option.map_eq_some_iff.mp hs
    obtain ⟨rfl, rfl⟩ := Prod.mk.inj heq
    rw [← hp.threads_eq] at htid
    obtain ⟨hinv, hq⟩ := log_sound (hp.inv h) htid hlog
    exact ⟨hinv, fifo_nil fun m => (hq m).trans (hp.queued_eq m)⟩
  · next s₁ doFns n hext =>
    obtain ⟨hp, hdo, -⟩ := ext_spec (pollFn_ok h evts) (polled_refl s) hext
    split at hs
    · simp at hs
    · next doFn cnt hsel =>
      split at hs
      · simp at hs
      · next threads hwake =>
        obtain ⟨prio, hmem⟩ := selectDoFn_mem hsel
        have hwait := ((hp.inv h).waiting.wakeAll hwake).1
        have hdo₂ : DoFnOk { s₁ with threads := threads, cnt := cnt } doFn :=
          hp.doFnOk rfl (hdo _ hmem).1
        obtain ⟨hinv, hfifo⟩ := doFn.run_sound ((hp.inv h).woken cnt hwait) hdo₂ hs
        refine ⟨hinv, ?_⟩
        intro m
        rw [← hfifo m]
        exact congrArg (· ++ _) (hp.queued_eq m).symm

theorem mailbox_sound (h : Inv s) : Sound s (mailbox s) [] := by
  -- a mailbox that does not exist has no messages and no entries, like one that is new
  have hget : ∀ m : MboxId, (mailbox s).mboxes[m]? = s.mboxes[m]? ∨
      (s.mboxes[m]? = none ∧ (mailbox s).mboxes[m]? = some (.empty .empty)) := by
    intro m
    simp only [mailbox, List.getElem?_append]
    split
    · exact .inl rfl
    · next hlt =>
      have hnone : s.mboxes[m]? = none := List.getElem?_eq_none (Nat.le_of_not_lt hlt)
      rw [hnone]
      cases m - s.mboxes.length with
      | zero => exact .inr ⟨rfl, rfl⟩
      | succ k => exact .inl rfl
  refine ⟨⟨?_, ?_⟩, fifo_nil ?_⟩
  · intro ms hms
    rcases List.mem_append.mp hms with hms | hms
    · exact h.wellFormed ms hms
    · rw [List.mem_singleton.mp hms]
      trivial
  · refine Waiting.congr (t := s.threads) h.waiting ?_
    intro m
    rcases hget m with heq | ⟨hnone, hsome⟩
    · simp [waitQueue, heq]
    · simp [waitQueue, hnone, hsome, MState.entries]
  · intro m
    rcases hget m with heq | ⟨hnone, hsome⟩
    · simp [queued, heq]
    · simp [queued, hnone, hsome, MState.msgs]

/-- **Every step** preserves the invariant and the order of the messages. -/
theorem step_sound {l : ThreadId × Op α} (h : Inv s) (hs : step s l = some (s', os)) :
    Sound s s' os := by
  obtain ⟨tid, op⟩ := l
  unfold step at hs
  split at hs
  · simp at hs
  · next hblocked =>
    have htid : op.isRunning = true → s.threads.isBlocked tid = false := by
      intro hrun
      simpa [hrun] using hblocked
    cases op with
    | mailbox =>
      obtain ⟨rfl, rfl⟩ := Prod.mk.inj (Option.some.inj hs)
      exact mailbox_sound h
    | send m x => exact send_sound h hs
    | recv m => exact recv_sound h (htid rfl) hs
    | recvPoll m => exact recvPoll_sound h hs
    | sync evts woken => exact sync_sound h (htid rfl) hs
    | wake =>
      obtain ⟨threads, hw, heq⟩ := Option.map_eq_some_iff.mp hs
      obtain ⟨rfl, rfl⟩ := Prod.mk.inj heq
      exact ⟨h.woken s.cnt (h.waiting.wake hw).1, fifo_nil fun _ => rfl⟩

/-! ### No operation fails -/

/-- The arguments of an operation of a thread exist. -/
def Op.Valid (s : State α) (tid : ThreadId) : Op α → Prop
  | .mailbox => True
  | .send m _ => m < s.mboxes.length
  | .recv m => m < s.mboxes.length
  | .recvPoll m => m < s.mboxes.length
  | .sync evts woken =>
      (∀ b ∈ evts, b.Valid s) ∧ woken.Nodup ∧ ∀ tid ∈ woken, s.threads.WaitsOther tid
  | .wake => s.threads.WaitsOther tid

theorem exists_getMsg (h : Inv s) (hm : s.mboxes[m]? = some (.nonempty p q)) (tid : ThreadId) :
    ∃ r, getMsg tid m q s = some r := by
  obtain ⟨x, q', hq⟩ := TwoListQueue.exists_dequeue (h.nonempty_queue hm).1
  exact ⟨_, by simp only [getMsg, hq]; rfl⟩

theorem exists_send (h : Inv s) (hm : m < s.mboxes.length) (tid : ThreadId) (x : α) :
    ∃ r, send tid m x s = some r := by
  unfold send
  rw [List.getElem?_eq_getElem hm]
  rcases hms : s.mboxes[m] with q | ⟨p, q⟩
  · rcases hq : cleanAndRemove (fun e => s.threads.isCancelled e.1) q with ⟨_ | e, q'⟩
    · exact ⟨_, by simp only [hq]; rfl⟩
    · obtain ⟨threads, hres, -⟩ := @handoff_sound _ s tid m x _ _ _ h
        (by rw [List.getElem?_eq_getElem hm, hms]) hq
      exact ⟨_, by simp only [hq, hres]; rfl⟩
  · exact ⟨_, rfl⟩

theorem exists_recv (h : Inv s) (hm : m < s.mboxes.length) (tid : ThreadId) :
    (∃ r, recv tid m s = some r) ∧ ∃ r, recvPoll tid m s = some r := by
  unfold recv recvPoll
  rw [List.getElem?_eq_getElem hm]
  rcases hms : s.mboxes[m] with q | ⟨p, q⟩
  · exact ⟨⟨_, rfl⟩, _, rfl⟩
  · have hget := exists_getMsg h (by rw [List.getElem?_eq_getElem hm, hms]) tid
    exact ⟨hget, hget⟩

theorem exists_foldlM_blockFn {transId : TransId} (hk : ∀ k ∈ blockFns, BlockFnOk s k) :
    ∃ s', blockFns.foldlM (blockFn transId tid) s = some s' := by
  induction blockFns generalizing s with
  | nil => exact ⟨_, rfl⟩
  | cons k ks ih =>
    have hks := fun k' hk' => hk k' (List.mem_cons_of_mem k hk')
    rw [List.foldlM_cons]
    cases k with
    | recvEvt m =>
      obtain ⟨q, hm⟩ := hk _ List.mem_cons_self
      simp only [blockFn, hm]
      refine ih ?_
      intro k' hk'
      cases k' with
      | recvEvt m' =>
        obtain ⟨q', hm'⟩ := hks _ hk'
        simp only [BlockFnOk, getElem?_setMbox hm]
        split
        · exact ⟨_, rfl⟩
        · exact ⟨q', hm'⟩
      | other => trivial
    | other => exact ih hks

theorem exists_pollFn (h : Inv s) (hp : Polled s s') {b : BaseEvt} (hb : b.Valid s) :
    ∃ s'' st, pollFn s' b = some (s'', st) ∧ Polled s s'' := by
  have hsome : ∃ r, pollFn s' b = some r := by
    cases b with
    | recvEvt m =>
      rcases hm : s'.mboxes[m]? with _ | ⟨q⟩ | ⟨p, q⟩
      · rw [hp.none_iff, List.getElem?_eq_none_iff] at hm
        exact absurd hb (not_lt_of_ge hm)
      · exact ⟨_, by simp only [pollFn, hm]; rfl⟩
      · exact ⟨_, by simp only [pollFn, hm]; rfl⟩
    | other prio => cases prio <;> exact ⟨_, rfl⟩
  obtain ⟨⟨s'', st⟩, hst⟩ := hsome
  exact ⟨s'', st, hst, (pollFn_spec h hp hst).1⟩

theorem exists_sync {evts : List BaseEvt} {woken : List ThreadId} (h : Inv s)
    (hv : Op.Valid s tid (.sync evts woken)) : ∃ r, sync tid evts woken s = some r := by
  obtain ⟨hevts, hnodup, hwoken⟩ := hv
  obtain ⟨⟨s₁, res⟩, hext⟩ := exists_ext ([] : List BlockFn)
    (fun s₁ (hp : Polled s s₁) b hb => exists_pollFn h hp (hevts b hb)) (polled_refl s)
  obtain ⟨hp, hres⟩ := ext_spec (pollFn_ok h evts) (polled_refl s) hext
  unfold sync
  rw [hext]
  rcases res with blockFns | ⟨doFns, n⟩
  · obtain ⟨ks, hks, hall⟩ := hres
    have hok : ∀ k ∈ blockFns, BlockFnOk s₁ k := by
      intro k hk
      rw [hks, List.append_nil, List.mem_reverse] at hk
      obtain ⟨b, -, hb⟩ := ExceptList.forall₂_mem_right hall hk
      cases k with
      | recvEvt m =>
        obtain ⟨q, hm⟩ := hb
        exact ⟨q, hp.empty_iff.mpr hm⟩
      | other => trivial
    obtain ⟨s₂, hs₂⟩ : ∃ s₂, blockFns.foldlM (blockFn s₁.threads.table.length tid) s₁ = some s₂ :=
      exists_foldlM_blockFn hok
    exact ⟨_, by simp only [log, mkId, hs₂]; rfl⟩
  · obtain ⟨hdo, hne, hn⟩ := hres
    obtain ⟨doFn, cnt, hsel⟩ := exists_selectDoFn s₁.cnt (n := n) hne
      (fun pd hpd => (hdo pd hpd).2 hevts)
    have hwoken₁ : ∀ tid ∈ woken, s₁.threads.WaitsOther tid := by
      rw [hp.threads_eq]
      exact hwoken
    obtain ⟨threads, hthreads⟩ := (hp.inv h).waiting.exists_wakeAll hnodup hwoken₁
    have hwait := ((hp.inv h).waiting.wakeAll hthreads).1
    obtain ⟨prio, hmem⟩ := selectDoFn_mem hsel
    have hdo₂ : DoFnOk { s₁ with threads := threads, cnt := cnt } doFn :=
      hp.doFnOk rfl (hdo _ hmem).1
    simp only [hsel, hthreads]
    cases doFn with
    | getMsg m q =>
      obtain ⟨p, hm⟩ := hdo₂
      exact exists_getMsg ((hp.inv h).woken cnt hwait) hm tid
    | other => exact ⟨_, rfl⟩

/-- **No operation fails**: a thread that is not blocked can run any operation on mailboxes that
exist, and a thread that is blocked on another event can be resumed by it. -/
theorem exists_step (h : Inv s) {op : Op α}
    (hrun : op.isRunning = true → s.threads.isBlocked tid = false) (hv : op.Valid s tid) :
    ∃ r, step s (tid, op) = some r := by
  have hguard : (op.isRunning && s.threads.isBlocked tid) = false := by
    cases hop : op.isRunning with
    | false => rfl
    | true => exact hrun hop
  unfold step
  rw [if_neg (by simp [hguard])]
  cases op with
  | mailbox => exact ⟨_, rfl⟩
  | send m x => exact exists_send h hv tid x
  | recv m => exact (exists_recv h hv tid).1
  | recvPoll m => exact (exists_recv h hv tid).2
  | sync evts woken => exact exists_sync h hv
  | wake =>
    obtain ⟨threads, hthreads, -⟩ := h.waiting.exists_wake hv
    exact ⟨_, by simp only [hthreads]; rfl⟩

/-! ### Runs -/

theorem run_inv {tr : List (Obs α)} (h : Run step Unrestricted init s tr) : Inv s :=
  h.state_invariant inv_init fun _ _ _ _ hI _ hs => (step_sound hI hs).1

theorem run_fifo {tr : List (Obs α)} (h : Run step Unrestricted init s tr) (m : MboxId) :
    sentTo m tr = receivedFrom m tr ++ queued m s := by
  induction h with
  | nil => rfl
  | snoc hrun _ hs ih =>
    have hstep := (step_sound (run_inv hrun) hs).2 m
    simp only [sentTo, receivedFrom, List.filterMap_append] at ih hstep ⊢
    rw [ih, List.append_assoc, hstep, ← List.append_assoc]

/-- **Mailboxes are lossless queues.**  In every state that a run reaches, the messages sent to a
mailbox are those received from it, followed by those that it holds; a mailbox in the state
`nonempty` holds one; a mailbox that a blocked thread waits for holds none, and has an entry for
the thread that is not cancelled; and no operation on mailboxes that exist fails. -/
theorem mailbox_fifo {s : State α} {tr : List (Obs α)}
    (h : Run step Unrestricted init s tr) :
    (∀ m, sentTo m tr = receivedFrom m tr ++ queued m s) ∧
    (∀ (m : MboxId) p q, s.mboxes[m]? = some (MState.nonempty p q) → q.toList ≠ []) ∧
    (∀ b ∈ s.threads.blocked, ∀ m ∈ b.waits, queued m s = [] ∧
      ∃ q : WaitQueue, s.mboxes[m]? = some (.empty q) ∧
        (b.transId, b.tid) ∈ live (fun e => s.threads.isCancelled e.1) q.toList) ∧
    (∀ tid (op : Op α), (op.isRunning = true → s.threads.isBlocked tid = false) →
      op.Valid s tid → ∃ s' os, step s (tid, op) = some (s', os)) := by
  have hinv := run_inv h
  refine ⟨run_fifo h, ?_, ?_, ?_⟩
  · intro m p q hm
    exact (hinv.nonempty_queue hm).1
  · intro b hb m hm
    have hent := hinv.waiting.entry b hb m hm
    rcases hms : s.mboxes[m]? with _ | ⟨q⟩ | ⟨p, q⟩
    · simp only [waitQueue, hms] at hent
      cases hent
    · rw [waitQueue_eq hms] at hent
      exact ⟨by rw [queued_eq hms]; rfl, q, rfl,
        mem_live.mpr ⟨hent, hinv.waiting.not_cancelled hb⟩⟩
    · rw [waitQueue_eq hms] at hent
      cases hent
  · intro tid op hrun hv
    obtain ⟨⟨s', os⟩, hs⟩ := exists_step hinv hrun hv
    exact ⟨s', os, hs⟩

def waitingMbox : State ℕ where
  mboxes := [.empty ⟨[], [(0, 1)]⟩]
  threads := ⟨[.trans 1], [⟨1, 0, [0], true⟩]⟩
  cnt := 0

/-- The mailbox after thread 2 has sent two messages, the first of which thread 1 was given. -/
def filledMbox : State ℕ where
  mboxes := [.nonempty 1 ⟨[8], []⟩]
  threads := ⟨[.cancel], []⟩
  cnt := 0

theorem run_filledMbox : Run step Unrestricted init filledMbox
    [.sent 0 2 7, .received 0 1 7, .sent 0 2 8] := by
  have h0 : Run step Unrestricted (init : State ℕ) init [] := Run.nil
  have h1 := h0.snoc (l := (1, .mailbox)) trivial (by rfl : step init _ = some (_, []))
  have h2 := h1.snoc (l := (1, .sync [.recvEvt 0, .other none] [])) trivial
    (by rfl : step _ _ = some (waitingMbox, []))
  have h3 := h2.snoc (l := (2, .send 0 7)) trivial
    (by rfl : step _ _ = some (_, [.sent 0 2 7, .received 0 1 7]))
  exact h3.snoc (l := (2, .send 0 8)) trivial
    (by rfl : step _ _ = some (filledMbox, [.sent 0 2 8]))

theorem mailbox_fifo_filledMbox :
    sentTo 0 [Obs.sent 0 2 7, .received 0 1 7, .sent 0 2 8] =
      receivedFrom 0 [Obs.sent 0 2 7, .received 0 1 7, .sent 0 2 8] ++ queued 0 filledMbox :=
  (mailbox_fifo run_filledMbox).1 0

end SmlNj.CML.Mailbox
