import Mathlib.Algebra.Order.Ring.Int
import Mathlib.Data.List.Forall2

/-!
# Polling the base events of a choice

To synchronise on a choice a thread polls its base events in order, in an atomic region.  If
none is enabled, the thread blocks: each base event has given a function that enters the thread
in a waiting queue.  Otherwise one of the enabled events with the highest priority is selected,
and its function is run.

What polling a base event does is a parameter of this module.

## Main definitions

* `EventStatus` — what polling gives.
* `selectDoFn` — the choice between the enabled base events.
* `ext`, `extRdy` — the polling loops.

## Main results

* `selectDoFn_mem`, `exists_selectDoFn` — the function selected is that of an enabled event.
* `ext_spec` — the invariant rule for the polling loops.
-/

namespace SmlNj.CML

/-- The status of a base event: enabled with a priority, which is `-1` if it is fixed, or
blocked. -/
inductive EventStatus (δ κ : Type*)
  | enabled (prio : ℤ) (doFn : δ)
  | blocked (blockFn : κ)

variable {σ β δ κ : Type*}

/-! ### Selecting an enabled event -/

/-- The counter that is used to choose between events with the same priority. -/
def random (cnt i : ℕ) : ℕ × ℕ := (cnt % i, if cnt = 1000000 then 0 else cnt + 1)

def priority (n : ℤ) (p : ℤ) : ℤ := if p = -1 then n else p

/-- The functions with the highest priority, and their number. -/
def maxPriority (n : ℤ) : List (ℤ × δ) → ℤ → ℕ → List δ → ℕ × List δ
  | (p, doFn) :: r, maxP, k, doFns =>
      if priority n p > maxP then maxPriority n r (priority n p) 1 [doFn]
      else if priority n p = maxP then maxPriority n r maxP (k + 1) (doFn :: doFns)
      else maxPriority n r maxP k doFns
  | [], _, k, doFns => (k, doFns)

/-- Select one of the `n` functions of the enabled events; also the new counter. -/
@[grind =] def selectDoFn (cnt : ℕ) (l : List (ℤ × δ)) (n : ℕ) : Option (δ × ℕ) :=
  match l with
  | [(_, doFn)] => some (doFn, cnt)
  | l =>
      match maxPriority n l 0 0 [] with
      | (_, [doFn]) => some (doFn, cnt)
      | (k, doFns) => doFns[(random cnt k).1]?.map fun doFn => (doFn, (random cnt k).2)

theorem mem_maxPriority {n maxP : ℤ} {l : List (ℤ × δ)} {k : ℕ} {doFns : List δ} {d : δ}
    (h : d ∈ (maxPriority n l maxP k doFns).2) : d ∈ doFns ∨ ∃ p, (p, d) ∈ l := by
  induction l generalizing maxP k doFns with
  | nil => exact .inl h
  | cons pd r ih =>
    obtain ⟨p, doFn⟩ := pd
    have hfirst : ∃ q, (q, doFn) ∈ (p, doFn) :: r := ⟨p, List.mem_cons_self⟩
    have hrest : (∃ q, (q, d) ∈ r) → ∃ q, (q, d) ∈ (p, doFn) :: r := by
      rintro ⟨q, hq⟩
      exact ⟨q, List.mem_cons_of_mem _ hq⟩
    unfold maxPriority at h
    split at h
    · rcases ih h with hd | hd
      · rw [List.mem_singleton.mp hd]
        exact .inr hfirst
      · exact .inr (hrest hd)
    · split at h
      · rcases ih h with hd | hd
        · rcases List.mem_cons.mp hd with rfl | hd
          · exact .inr hfirst
          · exact .inl hd
        · exact .inr (hrest hd)
      · rcases ih h with hd | hd
        · exact .inl hd
        · exact .inr (hrest hd)

theorem selectDoFn_mem {cnt cnt' n : ℕ} {l : List (ℤ × δ)} {d : δ}
    (h : selectDoFn cnt l n = some (d, cnt')) : ∃ p, (p, d) ∈ l := by
  have hmax : d ∈ (maxPriority n l 0 0 []).2 → ∃ p, (p, d) ∈ l := by
    intro hd
    rcases mem_maxPriority hd with hnil | hl
    · cases hnil
    · exact hl
  unfold selectDoFn at h
  split at h
  · next p doFn =>
    obtain ⟨rfl, -⟩ := Prod.mk.inj (Option.some.inj h)
    exact ⟨p, List.mem_singleton.mpr rfl⟩
  · split at h
    · next k doFn hm =>
      obtain ⟨rfl, -⟩ := Prod.mk.inj (Option.some.inj h)
      exact hmax (by simp [hm])
    · next k doFns _ hm =>
      obtain ⟨d', hd', heq⟩ := Option.map_eq_some_iff.mp h
      obtain ⟨rfl, -⟩ := Prod.mk.inj heq
      exact hmax (by simpa [hm] using List.mem_of_getElem? hd')

theorem maxPriority_length {n maxP : ℤ} {l : List (ℤ × δ)} {k : ℕ} {doFns : List δ}
    (hk : k = doFns.length) :
    (maxPriority n l maxP k doFns).1 = (maxPriority n l maxP k doFns).2.length := by
  induction l generalizing maxP k doFns with
  | nil => exact hk
  | cons pd r ih =>
    unfold maxPriority
    split
    · exact ih rfl
    · split
      · exact ih (by simp [hk])
      · exact ih hk

theorem maxPriority_ne_nil {n maxP : ℤ} {l : List (ℤ × δ)} {k : ℕ} {doFns : List δ}
    (h : doFns ≠ [] ∨ ∃ pd ∈ l, maxP ≤ priority n pd.1) :
    (maxPriority n l maxP k doFns).2 ≠ [] := by
  induction l generalizing maxP k doFns with
  | nil =>
    rcases h with h | ⟨pd, hpd, -⟩
    · exact h
    · cases hpd
  | cons pd r ih =>
    unfold maxPriority
    split
    · exact ih (.inl (by simp))
    · next hle =>
      split
      · exact ih (.inl (by simp))
      · next hne =>
        refine ih ?_
        rcases h with h | ⟨pd', hpd', hlt⟩
        · exact .inl h
        · rcases List.mem_cons.mp hpd' with rfl | hmem
          · exact absurd (lt_of_le_of_ne hlt (Ne.symm hne)) hle
          · exact .inr ⟨pd', hmem, hlt⟩

theorem exists_selectDoFn (cnt : ℕ) {l : List (ℤ × δ)} {n : ℕ} (hl : l ≠ [])
    (hprio : ∀ pd ∈ l, pd.1 = -1 ∨ 0 ≤ pd.1) : ∃ d cnt', selectDoFn cnt l n = some (d, cnt') := by
  unfold selectDoFn
  split
  · exact ⟨_, _, rfl⟩
  · have hpos : ∃ pd ∈ l, 0 ≤ priority n pd.1 := by
      obtain ⟨pd, hpd⟩ := List.exists_mem_of_ne_nil l hl
      refine ⟨pd, hpd, ?_⟩
      unfold priority
      split
      · exact Int.natCast_nonneg n
      · next hne => exact (hprio pd hpd).resolve_left hne
    have hne := @maxPriority_ne_nil _ n 0 l 0 [] (.inr hpos)
    have hlen := @maxPriority_length _ n 0 l 0 [] rfl
    split
    · exact ⟨_, _, rfl⟩
    · next k doFns _ hm =>
      rw [hm] at hne hlen
      have hlt : (random cnt k).1 < doFns.length := by
        have hk : 0 < doFns.length := List.length_pos_of_ne_nil hne
        simp only at hlen
        rw [← hlen] at hk ⊢
        exact Nat.mod_lt _ hk
      exact ⟨_, _, by rw [List.getElem?_eq_getElem hlt]; rfl⟩

/-! ### The polling loops -/

variable (poll : σ → β → Option (σ × EventStatus δ κ))

/-- Poll the remaining base events once an enabled one was found; the events that are blocked are
ignored. -/
@[grind =] def extRdy : σ → List β → List (ℤ × δ) → ℕ → Option (σ × List (ℤ × δ) × ℕ)
  | s, [], doFns, n => some (s, doFns, n)
  | s, pollFn :: r, doFns, n =>
      match poll s pollFn with
      | none => none
      | some (s', .enabled prio doFn) => extRdy s' r ((prio, doFn) :: doFns) (n + 1)
      | some (s', .blocked _) => extRdy s' r doFns n

/-- Poll base events until an enabled one is found.  The result is the list of the functions that
block, the last one first, or the functions of the enabled events with their number. -/
def ext : σ → List β → List κ → Option (σ × (List κ ⊕ List (ℤ × δ) × ℕ))
  | s, [], blockFns => some (s, .inl blockFns)
  | s, pollFn :: r, blockFns =>
      match poll s pollFn with
      | none => none
      | some (s', .enabled prio doFn) =>
          (extRdy poll s' r [(prio, doFn)] 1).map fun (s'', ready) => (s'', .inr ready)
      | some (s', .blocked blockFn) => ext s' r (blockFn :: blockFns)

variable {poll}

def StatusOk (D : ℤ → δ → Prop) (K : β → κ → Prop) (b : β) : EventStatus δ κ → Prop
  | .enabled prio doFn => D prio doFn
  | .blocked blockFn => K b blockFn

variable {I : σ → Prop} {D : ℤ → δ → Prop} {K : β → κ → Prop}

theorem extRdy_spec {s s' : σ} {bs : List β} {doFns doFns' : List (ℤ × δ)} {n n' : ℕ}
    (hpoll : ∀ s, I s → ∀ b ∈ bs, ∀ s' st, poll s b = some (s', st) → I s' ∧ StatusOk D K b st)
    (hI : I s) (hD : ∀ pd ∈ doFns, D pd.1 pd.2) (hne : doFns ≠ []) (hn : n = doFns.length)
    (h : extRdy poll s bs doFns n = some (s', doFns', n')) :
    I s' ∧ (∀ pd ∈ doFns', D pd.1 pd.2) ∧ doFns' ≠ [] ∧ n' = doFns'.length := by
  induction bs generalizing s doFns n with
  | nil =>
    obtain ⟨rfl, hrest⟩ := Prod.mk.inj (Option.some.inj h)
    obtain ⟨rfl, rfl⟩ := Prod.mk.inj hrest
    exact ⟨hI, hD, hne, hn⟩
  | cons b r ih =>
    have hpoll' := fun s hs b' hb' => hpoll s hs b' (List.mem_cons_of_mem b hb')
    unfold extRdy at h
    split at h
    · simp at h
    · next s₁ prio doFn hp =>
      have hst := hpoll s hI b List.mem_cons_self _ _ hp
      refine ih hpoll' hst.1 ?_ (by simp) (by simp [hn]) h
      intro pd hpd
      rcases List.mem_cons.mp hpd with rfl | hpd
      · exact hst.2
      · exact hD pd hpd
    · next s₁ blockFn hp =>
      exact ih hpoll' (hpoll s hI b List.mem_cons_self _ _ hp).1 hD hne hn h

/-- **The invariant rule for the polling loops**: what polling each base event preserves holds
when they have been polled, the functions of the enabled events are as they were when polled, and
if no event is enabled each has given a function that blocks. -/
theorem ext_spec {s s' : σ} {bs : List β} {blockFns : List κ}
    {res : List κ ⊕ List (ℤ × δ) × ℕ}
    (hpoll : ∀ s, I s → ∀ b ∈ bs, ∀ s' st, poll s b = some (s', st) → I s' ∧ StatusOk D K b st)
    (hI : I s) (h : ext poll s bs blockFns = some (s', res)) :
    I s' ∧
      match res with
      | .inl ks => ∃ ks', ks = ks'.reverse ++ blockFns ∧ List.Forall₂ K bs ks'
      | .inr (doFns, n) => (∀ pd ∈ doFns, D pd.1 pd.2) ∧ doFns ≠ [] ∧ n = doFns.length := by
  induction bs generalizing s blockFns with
  | nil =>
    obtain ⟨rfl, rfl⟩ := Prod.mk.inj (Option.some.inj h)
    exact ⟨hI, [], rfl, .nil⟩
  | cons b r ih =>
    have hpoll' := fun s hs b' hb' => hpoll s hs b' (List.mem_cons_of_mem b hb')
    unfold ext at h
    split at h
    · simp at h
    · next s₁ prio doFn hp =>
      have hst := hpoll s hI b List.mem_cons_self _ _ hp
      obtain ⟨⟨s₂, doFns, n⟩, hr, heq⟩ := Option.map_eq_some_iff.mp h
      obtain ⟨rfl, rfl⟩ := Prod.mk.inj heq
      refine extRdy_spec hpoll' hst.1 ?_ (by simp) rfl hr
      intro pd hpd
      rw [List.mem_singleton.mp hpd]
      exact hst.2
    · next s₁ blockFn hp =>
      have hst := hpoll s hI b List.mem_cons_self _ _ hp
      have hrec := ih hpoll' hst.1 h
      refine ⟨hrec.1, ?_⟩
      rcases res with ks | ⟨doFns, n⟩
      · obtain ⟨ks', hks, hall⟩ := hrec.2
        exact ⟨blockFn :: ks', by simp [hks], .cons hst.2 hall⟩
      · exact hrec.2

theorem exists_extRdy {s : σ} {bs : List β} (doFns : List (ℤ × δ)) (n : ℕ)
    (hpoll : ∀ s, I s → ∀ b ∈ bs, ∃ s' st, poll s b = some (s', st) ∧ I s') (hI : I s) :
    ∃ res, extRdy poll s bs doFns n = some res := by
  induction bs generalizing s doFns n with
  | nil => exact ⟨_, rfl⟩
  | cons b r ih =>
    have hpoll' := fun s hs b' hb' => hpoll s hs b' (List.mem_cons_of_mem b hb')
    obtain ⟨s', st, hp, hI'⟩ := hpoll s hI b List.mem_cons_self
    unfold extRdy
    rw [hp]
    cases st with
    | enabled prio doFn => exact ih _ _ hpoll' hI'
    | blocked blockFn => exact ih _ _ hpoll' hI'

theorem exists_ext {s : σ} {bs : List β} (blockFns : List κ)
    (hpoll : ∀ s, I s → ∀ b ∈ bs, ∃ s' st, poll s b = some (s', st) ∧ I s') (hI : I s) :
    ∃ res, ext poll s bs blockFns = some res := by
  induction bs generalizing s blockFns with
  | nil => exact ⟨_, rfl⟩
  | cons b r ih =>
    have hpoll' := fun s hs b' hb' => hpoll s hs b' (List.mem_cons_of_mem b hb')
    obtain ⟨s', st, hp, hI'⟩ := hpoll s hI b List.mem_cons_self
    unfold ext
    rw [hp]
    cases st with
    | enabled prio doFn =>
      obtain ⟨res, hres⟩ := exists_extRdy [(prio, doFn)] 1 hpoll' hI'
      exact ⟨_, by simp only [hres]; rfl⟩
    | blocked blockFn => exact ih _ hpoll' hI'

end SmlNj.CML
