import SmlNj.CML.RepTypes

/-!
# Threads that wait

The threads that are blocked, together with the waiting queues in which they have entries.  What
the queues belong to is a parameter: `ι` numbers them, and a queue is given by the transaction and
the thread of each of its entries.

A thread that waits for several operations may also wait for operations that are not modelled
together with the queues at hand; one of those may resume it at any time.

## Main definitions

* `Threads` — the transactions and the threads that are blocked.
* `Threads.resume`, `Threads.wake` — a thread is resumed, by the owner of a queue in which it has
  an entry, or by another operation that it waits for.
* `Waiting` — each thread that is blocked has an entry in the queues that it waits for, and the
  entries of other threads are cancelled.

## Main results

* `Waiting.handoff` — the thread whose entry is removed from a queue is resumed.
* `Waiting.block` — a thread is entered in waiting queues.
* `Waiting.wake` — a thread is resumed by another operation.
-/

namespace SmlNj.CML

variable {ι ε : Type*}

/-- A thread that is blocked: the queues in which it has an entry, and whether it waits for other
operations as well. -/
structure Blocked (ι : Type*) where
  tid : ThreadId
  transId : TransId
  waits : List ι
  other : Bool
  deriving DecidableEq

/-- The transactions, and the threads that are blocked. -/
structure Threads (ι : Type*) where
  table : TransTable
  blocked : List (Blocked ι)
  deriving DecidableEq

variable {tid : ThreadId} {id : TransId} {b : Blocked ι} {i : ι}

namespace Threads

def isCancelled (t : Threads ι) (id : TransId) : Bool := CML.isCancelled t.table id

def isBlocked (t : Threads ι) (tid : ThreadId) : Bool := t.blocked.any fun b => b.tid = tid

/-- A thread blocks with a new transaction, whose identifier is that which `mkId` gives. -/
def suspend (t : Threads ι) (tid : ThreadId) (waits : List ι) (other : Bool) : Threads ι where
  table := (mkId t.table tid).2
  blocked := ⟨tid, (mkId t.table tid).1, waits, other⟩ :: t.blocked

/-- The thread `kont`, whose transaction is `id`, goes on: the transaction is cancelled and gives
the thread that is current then. -/
def resume (t : Threads ι) (id : TransId) (kont : ThreadId) : Option (ThreadId × Threads ι) :=
  (getIdFromTrans t.table id).map fun (tid, table) =>
    (tid, { table := table, blocked := t.blocked.filter fun b => b.tid ≠ kont })

/-- A thread that is blocked goes on with another operation than those of the queues. -/
def wake (t : Threads ι) (tid : ThreadId) : Option (Threads ι) :=
  match t.blocked.find? fun b => b.tid = tid ∧ b.other with
  | none => none
  | some b => (t.resume b.transId b.tid).map Prod.snd

def wakeAll (t : Threads ι) (woken : List ThreadId) : Option (Threads ι) := woken.foldlM wake t

/-- The thread is blocked, and waits for an operation that is not of the queues. -/
def WaitsOther (t : Threads ι) (tid : ThreadId) : Prop := ∃ b ∈ t.blocked, b.tid = tid ∧ b.other

theorem isBlocked_eq_false {t : Threads ι} :
    t.isBlocked tid = false ↔ ∀ b ∈ t.blocked, b.tid ≠ tid := by
  simp [isBlocked]

end Threads

/-- **The waiting queues agree with the threads that are blocked.** -/
structure Waiting (t : Threads ι) (queue : ι → List (TransId × ThreadId)) : Prop where
  trans_eq : ∀ b ∈ t.blocked, t.table[b.transId]? = some (.trans b.tid)
  entry : ∀ b ∈ t.blocked, ∀ i ∈ b.waits, (b.transId, b.tid) ∈ queue i
  of_live : ∀ i, ∀ e ∈ queue i, t.isCancelled e.1 = false →
    ∃ b ∈ t.blocked, b.transId = e.1 ∧ b.tid = e.2 ∧ i ∈ b.waits
  tid_inj : ∀ b ∈ t.blocked, ∀ b' ∈ t.blocked, b.tid = b'.tid → b = b'

theorem waiting_nil : Waiting (⟨[], []⟩ : Threads ι) fun _ => [] := by
  constructor <;> simp

variable {t t' : Threads ι} {queue queue' : ι → List (TransId × ThreadId)}

theorem isCancelled_of_trans {table : TransTable} (h : table[id]? = some (.trans tid)) :
    isCancelled table id = false := by
  simp [isCancelled, h]

theorem Waiting.not_cancelled (h : Waiting t queue) (hb : b ∈ t.blocked) :
    t.isCancelled b.transId = false := isCancelled_of_trans (h.trans_eq b hb)

theorem Waiting.not_mem_waits (h : Waiting t queue) (hi : ∀ e ∈ queue i, t.isCancelled e.1 = true) :
    ∀ b ∈ t.blocked, i ∉ b.waits := by
  intro b hb hw
  have hc := hi _ (h.entry b hb i hw)
  rw [h.not_cancelled hb] at hc
  cases hc

theorem Waiting.clean (h : Waiting t queue) (hsub : ∀ i, ∀ e ∈ queue' i, e ∈ queue i)
    (hkeep : ∀ i, ∀ e ∈ queue i, t.isCancelled e.1 = false → e ∈ queue' i) :
    Waiting t queue' where
  trans_eq := h.trans_eq
  entry b hb i hi := hkeep i _ (h.entry b hb i hi) (h.not_cancelled hb)
  of_live i e he hc := h.of_live i e (hsub i e he) hc
  tid_inj := h.tid_inj

theorem Waiting.congr (h : Waiting t queue) (hq : ∀ i, queue' i = queue i) : Waiting t queue' :=
  h.clean (fun i _ he => hq i ▸ he) (fun i _ he _ => (hq i).symm ▸ he)

theorem isCancelled_set {table : TransTable} {id' : TransId}
    (h : isCancelled (table.set id .cancel) id' = false) (hid : table[id]? = some (.trans tid)) :
    id' ≠ id ∧ isCancelled table id' = false := by
  obtain ⟨hlt, -⟩ := List.getElem?_eq_some_iff.mp hid
  have hne : id' ≠ id := by
    rintro rfl
    simp [isCancelled, hlt] at h
  refine ⟨hne, ?_⟩
  simpa [isCancelled, List.getElem?_set, Ne.symm hne] using h

theorem Waiting.exists_resume (h : Waiting t queue) (hb : b ∈ t.blocked) :
    ∃ t', t.resume b.transId b.tid = some (b.tid, t') := by
  have hget : getIdFromTrans t.table b.transId = some (b.tid, t.table.set b.transId .cancel) :=
    getIdFromTrans_eq_some.mpr ⟨h.trans_eq b hb, rfl⟩
  exact ⟨_, by simp only [Threads.resume, hget]; rfl⟩

/-- Some threads are not blocked any more. -/
structure Woken (t t' : Threads ι) : Prop where
  blocked_sub : ∀ b ∈ t'.blocked, b ∈ t.blocked
  cancelled : ∀ id, t.isCancelled id = true → t'.isCancelled id = true

theorem woken_refl (t : Threads ι) : Woken t t := ⟨fun _ hb => hb, fun _ hc => hc⟩

theorem Woken.trans {t'' : Threads ι} (h : Woken t t') (h' : Woken t' t'') : Woken t t'' :=
  ⟨fun b hb => h.blocked_sub b (h'.blocked_sub b hb), fun id hc => h'.cancelled id (h.cancelled id hc)⟩

/-- **What is left when a thread is resumed**: its entries, and only those, are cancelled. -/
theorem Waiting.resume (h : Waiting t queue) (hb : b ∈ t.blocked)
    (hr : t.resume b.transId b.tid = some (tid, t')) :
    tid = b.tid ∧ Waiting t' queue ∧ t'.blocked = t.blocked.filter (fun b' => b'.tid ≠ b.tid) ∧
      Woken t t' ∧ t'.isCancelled b.transId = true := by
  obtain ⟨⟨tid', table⟩, hget, heq⟩ := Option.map_eq_some_iff.mp hr
  obtain ⟨htrans, rfl⟩ := getIdFromTrans_eq_some.mp hget
  rw [h.trans_eq b hb] at htrans
  obtain ⟨rfl, rfl⟩ := Prod.mk.inj heq
  cases htrans
  have hcancel : ∀ id, CML.isCancelled (t.table.set b.transId .cancel) id = false →
      id ≠ b.transId ∧ t.isCancelled id = false :=
    fun id hid => isCancelled_set hid (h.trans_eq b hb)
  refine ⟨rfl, ⟨?_, ?_, ?_, ?_⟩, rfl, ⟨?_, ?_⟩, ?_⟩
  · intro b' hb'
    obtain ⟨hmem, hne⟩ := List.mem_filter.mp hb'
    have hid : b.transId ≠ b'.transId := by
      intro heq
      have htrans := h.trans_eq b hb
      rw [heq, h.trans_eq b' hmem] at htrans
      injection htrans with hst
      injection hst with htid
      simp [htid] at hne
    simp only [List.getElem?_set, if_neg hid]
    exact h.trans_eq b' hmem
  · intro b' hb' i hi
    exact h.entry b' (List.mem_filter.mp hb').1 i hi
  · intro i e he hc
    obtain ⟨hne, hc'⟩ := hcancel e.1 hc
    obtain ⟨b', hb', hid, htid, hi⟩ := h.of_live i e he hc'
    refine ⟨b', List.mem_filter.mpr ⟨hb', ?_⟩, hid, htid, hi⟩
    have htne : b'.tid ≠ b.tid := by
      intro heq
      rw [h.tid_inj b' hb' b hb heq] at hid
      exact hne hid.symm
    simpa using htne
  · intro b₁ hb₁ b₂ hb₂
    exact h.tid_inj b₁ (List.mem_filter.mp hb₁).1 b₂ (List.mem_filter.mp hb₂).1
  · exact fun b' hb' => (List.mem_filter.mp hb').1
  · intro id hid
    by_contra hc
    rw [(hcancel id (eq_false_of_ne_true hc)).2] at hid
    cases hid
  · by_contra hc
    exact (hcancel b.transId (eq_false_of_ne_true hc)).1 rfl

/-- **Hand-off**: the thread whose entry is the first one of a queue that is not cancelled is
resumed, and its entry is removed from the queue. -/
theorem Waiting.handoff (h : Waiting t queue) {f : ε → TransId × ThreadId} {q q' : TwoListQueue ε}
    {e : ε} (hi : queue i = q.toList.map f)
    (hq : cleanAndRemove (fun e => t.isCancelled (f e).1) q = (some e, q')) :
    ∃ b ∈ t.blocked, ∃ t', b.transId = (f e).1 ∧ b.tid = (f e).2 ∧ i ∈ b.waits ∧
      t.resume (f e).1 (f e).2 = some ((f e).2, t') ∧
      t'.blocked = t.blocked.filter (fun b' => b'.tid ≠ (f e).2) ∧ Woken t t' ∧
      t'.isCancelled (f e).1 = true ∧
      ∀ queue', (∀ j, j ≠ i → queue' j = queue j) → queue' i = q'.toList.map f →
        Waiting t' queue' := by
  obtain ⟨hc, hlive, hsub⟩ := cleanAndRemove_some hq
  have he : f e ∈ queue i := by
    have hmem : e ∈ live (fun e => t.isCancelled (f e).1) q.toList :=
      hlive ▸ List.mem_cons_self
    rw [hi]
    exact List.mem_map_of_mem (mem_live.mp hmem).1
  obtain ⟨b, hb, hid, htid, hw⟩ := h.of_live i (f e) he hc
  obtain ⟨t', ht'⟩ := h.exists_resume hb
  obtain ⟨-, hwait, hblocked, hwoken, hcancel⟩ := h.resume hb ht'
  rw [hid, htid] at ht'
  refine ⟨b, hb, t', hid, htid, hw, ht', htid ▸ hblocked, hwoken, hid ▸ hcancel, ?_⟩
  intro queue' hother hi'
  refine hwait.clean ?_ ?_
  · intro j x hx
    by_cases hj : j = i
    · subst hj
      rw [hi'] at hx
      rw [hi]
      exact List.map_subset f hsub hx
    · exact hother j hj ▸ hx
  · intro j x hx hxc
    by_cases hj : j = i
    · subst hj
      rw [hi] at hx
      rw [hi']
      obtain ⟨y, hy, rfl⟩ := List.mem_map.mp hx
      have hyc : t.isCancelled (f y).1 = false := by
        by_contra hc
        rw [hwoken.cancelled _ (by simpa using hc)] at hxc
        cases hxc
      have hmem : y ∈ live (fun e => t.isCancelled (f e).1) q.toList := mem_live.mpr ⟨hy, hyc⟩
      rw [hlive] at hmem
      rcases List.mem_cons.mp hmem with rfl | hmem
      · rw [← hid, hcancel] at hxc
        cases hxc
      · exact List.mem_map_of_mem (mem_live.mp hmem).1
    · exact (hother j hj).symm ▸ hx

theorem Waiting.no_handoff {f : ε → TransId × ThreadId} {q q' : TwoListQueue ε}
    (hi : queue i = q.toList.map f)
    (hq : cleanAndRemove (fun e => t.isCancelled (f e).1) q = (none, q')) :
    (∀ e ∈ queue i, t.isCancelled e.1 = true) ∧ ∀ e ∈ q'.toList.map f, e ∈ queue i := by
  obtain ⟨hlive, -, hsub⟩ := cleanAndRemove_none hq
  have hall : ∀ {l : List ε}, live (fun e => t.isCancelled (f e).1) l = [] →
      ∀ e ∈ l.map f, t.isCancelled e.1 = true := by
    intro l hl e he
    obtain ⟨x, hx, rfl⟩ := List.mem_map.mp he
    by_contra hc
    have hmem : x ∈ live (fun e => t.isCancelled (f e).1) l :=
      mem_live.mpr ⟨hx, by simpa using hc⟩
    rw [hl] at hmem
    cases hmem
  exact ⟨hi ▸ hall hlive, fun e he => hi ▸ List.map_subset f hsub he⟩

/-- An entry was added to some waiting queues. -/
structure Entered (queue queue' : ι → List (TransId × ThreadId)) (e : TransId × ThreadId)
    (waits : List ι) : Prop where
  keep : ∀ i, ∀ x ∈ queue i, x ∈ queue' i
  new : ∀ i, ∀ x ∈ queue' i, x ∈ queue i ∨ (x = e ∧ i ∈ waits)
  entered : ∀ i ∈ waits, e ∈ queue' i

theorem entered_nil (queue : ι → List (TransId × ThreadId)) (e : TransId × ThreadId) :
    Entered queue queue e [] where
  keep _ _ hx := hx
  new _ _ hx := .inl hx
  entered i hi := by cases hi

theorem Entered.enqueue {queue'' : ι → List (TransId × ThreadId)} {e : TransId × ThreadId}
    {waits : List ι} (h : Entered queue queue' e waits) (hother : ∀ j, j ≠ i → queue'' j = queue' j)
    (hi : queue'' i = queue' i ++ [e]) :
    Entered queue queue'' e (waits ++ [i]) where
  keep j x hx := by
    by_cases hj : j = i
    · subst hj
      rw [hi]
      exact List.mem_append_left _ (h.keep j x hx)
    · rw [hother j hj]
      exact h.keep j x hx
  new j x hx := by
    by_cases hj : j = i
    · subst hj
      rw [hi, List.mem_append, List.mem_singleton] at hx
      rcases hx with hx | rfl
      · exact (h.new j x hx).imp_right fun hx => ⟨hx.1, List.mem_append_left _ hx.2⟩
      · exact .inr ⟨rfl, by simp⟩
    · rw [hother j hj] at hx
      exact (h.new j x hx).imp_right fun hx => ⟨hx.1, List.mem_append_left _ hx.2⟩
  entered j hj := by
    by_cases heq : j = i
    · subst heq
      rw [hi]
      simp
    · rw [hother j heq]
      rcases List.mem_append.mp hj with hj | hj
      · exact h.entered j hj
      · exact absurd (List.mem_singleton.mp hj) heq

theorem Threads.isCancelled_suspend (hid : t.isCancelled id = true) (tid : ThreadId)
    (waits : List ι) (other : Bool) : (t.suspend tid waits other).isCancelled id = true := by
  simp only [Threads.isCancelled, CML.isCancelled, decide_eq_true_eq] at hid ⊢
  obtain ⟨hlt, -⟩ := List.getElem?_eq_some_iff.mp hid
  simp only [Threads.suspend, mkId, List.getElem?_append_left hlt]
  exact hid

/-- **A thread can block**, when it is entered in the waiting queues with a new transaction. -/
theorem Waiting.block (h : Waiting t queue) {tid : ThreadId} (htid : t.isBlocked tid = false)
    {waits : List ι} (he : Entered queue queue' (t.table.length, tid) waits) (other : Bool) :
    Waiting (t.suspend tid waits other) queue' := by
  have htid' := Threads.isBlocked_eq_false.mp htid
  refine ⟨?_, ?_, ?_, ?_⟩
  · intro b hb
    rcases List.mem_cons.mp hb with rfl | hb
    · simp [Threads.suspend, mkId]
    · obtain ⟨hlt, -⟩ := List.getElem?_eq_some_iff.mp (h.trans_eq b hb)
      simp only [Threads.suspend, mkId, List.getElem?_append_left hlt]
      exact h.trans_eq b hb
  · intro b hb i hi
    rcases List.mem_cons.mp hb with rfl | hb
    · exact he.entered i hi
    · exact he.keep i _ (h.entry b hb i hi)
  · intro i x hx hc
    rcases he.new i x hx with hx | ⟨rfl, hi⟩
    · -- a cell that is not cancelled now was not cancelled before
      have hc' : t.isCancelled x.1 = false := by
        by_cases hlt : x.1 < t.table.length
        · simpa [Threads.isCancelled, isCancelled, Threads.suspend, mkId,
            List.getElem?_append_left hlt] using hc
        · simp [Threads.isCancelled, isCancelled, Nat.le_of_not_lt hlt]
      obtain ⟨b, hb, hrest⟩ := h.of_live i x hx hc'
      exact ⟨b, List.mem_cons_of_mem _ hb, hrest⟩
    · exact ⟨_, List.mem_cons_self, rfl, rfl, hi⟩
  · intro b hb b' hb' heq
    rcases List.mem_cons.mp hb with rfl | hb <;> rcases List.mem_cons.mp hb' with rfl | hb'
    · rfl
    · exact absurd heq.symm (htid' b' hb')
    · exact absurd heq (htid' b hb)
    · exact h.tid_inj b hb b' hb' heq

theorem Waiting.wake (h : Waiting t queue) (hw : t.wake tid = some t') :
    Waiting t' queue ∧ Woken t t' := by
  unfold Threads.wake at hw
  split at hw
  · simp at hw
  · next b hb =>
    obtain ⟨⟨tid', t''⟩, hr, rfl⟩ := Option.map_eq_some_iff.mp hw
    obtain ⟨-, hwait, -, hwoken, -⟩ := h.resume (List.mem_of_find?_eq_some hb) hr
    exact ⟨hwait, hwoken⟩

theorem Waiting.wakeAll (h : Waiting t queue) {woken : List ThreadId}
    (hw : t.wakeAll woken = some t') : Waiting t' queue ∧ Woken t t' := by
  induction woken generalizing t with
  | nil =>
    obtain rfl := Option.some.inj hw
    exact ⟨h, woken_refl t⟩
  | cons tid woken ih =>
    rw [Threads.wakeAll, List.foldlM_cons] at hw
    obtain ⟨t₁, hwake, hrest⟩ := Option.bind_eq_some_iff.mp hw
    obtain ⟨hwait, hwoken⟩ := h.wake hwake
    obtain ⟨hwait', hwoken'⟩ := ih hwait hrest
    exact ⟨hwait', hwoken.trans hwoken'⟩

theorem Waiting.exists_wake (h : Waiting t queue) (hw : t.WaitsOther tid) :
    ∃ t', t.wake tid = some t' ∧
      ∀ tid', tid' ≠ tid → t.WaitsOther tid' → t'.WaitsOther tid' := by
  obtain ⟨b, hb, htid, hother⟩ := hw
  have hfind : (t.blocked.find? fun b => b.tid = tid ∧ b.other).isSome := by
    rw [List.find?_isSome]
    exact ⟨b, hb, by simp [htid, hother]⟩
  obtain ⟨b', hb'⟩ := Option.isSome_iff_exists.mp hfind
  have htid' : b'.tid = tid := by
    have hprop := List.find?_some hb'
    simp only [decide_eq_true_eq] at hprop
    exact hprop.1
  have hmem := List.mem_of_find?_eq_some hb'
  obtain ⟨t', ht'⟩ := h.exists_resume hmem
  obtain ⟨-, -, hblocked, -, -⟩ := h.resume hmem ht'
  refine ⟨t', by simp only [Threads.wake, hb', ht']; rfl, ?_⟩
  rintro tid' hne ⟨b₁, hb₁, htid₁, ho₁⟩
  refine ⟨b₁, ?_, htid₁, ho₁⟩
  rw [hblocked]
  exact List.mem_filter.mpr ⟨hb₁, by simp [htid₁, htid', hne]⟩

theorem Waiting.exists_wakeAll (h : Waiting t queue) {woken : List ThreadId}
    (hnodup : woken.Nodup) (hw : ∀ tid ∈ woken, t.WaitsOther tid) :
    ∃ t', t.wakeAll woken = some t' := by
  induction woken generalizing t with
  | nil => exact ⟨_, rfl⟩
  | cons tid woken ih =>
    obtain ⟨hnot, hnodup⟩ := List.nodup_cons.mp hnodup
    obtain ⟨t₁, ht₁, hkeep⟩ := h.exists_wake (hw tid List.mem_cons_self)
    rw [Threads.wakeAll, List.foldlM_cons, ht₁]
    refine ih (h.wake ht₁).1 hnodup ?_
    intro tid' hmem
    exact hkeep tid' (fun heq => hnot (heq ▸ hmem)) (hw tid' (List.mem_cons_of_mem _ hmem))

end SmlNj.CML
