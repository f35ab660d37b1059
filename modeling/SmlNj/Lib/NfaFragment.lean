import Mathlib.Computability.Language

/-!
# Fragments of nondeterministic automata

Automata whose states read a symbol, split without reading, or accept.  A fragment is known by its
start state and by the state that it leads to; it denotes the language of the words that are read
on the way from one to the other.  The fragments of a compilation of regular expressions are put
together by the rules of this file.

## Main definitions

* `Node`, `Path`, `Accepts` — the states and the runs.
* `Denotes` — the fragment from one state to another denotes a language.
* `Eps`, `Reads` — the steps that read nothing, and the states that are reached by a word.

## Main results

* `denotes_read`, `Denotes.mul`, `Denotes.add`, `Denotes.option`, `Denotes.star` — the rules.
* `Denotes.accepts_iff` — a fragment that leads to the accepting state.
* `reads_nil_iff`, `reads_append_iff` — the states that are reached, one symbol after the other.
-/

namespace NfaFragment

/-- The states of an automaton. -/
inductive Node (α ι : Type*)
  | read (p : Set α) (out : ι)
  | split (out1 out2 : ι)
  | stop

variable {α ι : Type*}

/-- A run of some steps from one state to another that reads a word. -/
inductive Path (G : ι → Option (Node α ι)) : ℕ → ι → List α → ι → Prop
  | refl (s : ι) : Path G 0 s [] s
  | read {n : ℕ} {s out t : ι} {p : Set α} {a : α} {w : List α} (hs : G s = some (.read p out))
    (ha : a ∈ p) (h : Path G n out w t) : Path G (n + 1) s (a :: w) t
  | split1 {n : ℕ} {s out1 out2 t : ι} {w : List α} (hs : G s = some (.split out1 out2))
    (h : Path G n out1 w t) : Path G (n + 1) s w t
  | split2 {n : ℕ} {s out1 out2 t : ι} {w : List α} (hs : G s = some (.split out1 out2))
    (h : Path G n out2 w t) : Path G (n + 1) s w t

def Accepts (G : ι → Option (Node α ι)) (n : ℕ) (s : ι) (w : List α) : Prop :=
  ∃ t, G t = some .stop ∧ Path G n s w t

/-- **The fragment from `s` to `t` denotes a language**: the words that are accepted from `s` are
those of the language followed by words that are accepted from `t` in fewer steps. -/
structure Denotes (G : ι → Option (Node α ι)) (s t : ι) (L : Language α) : Prop where
  /-- A run from `s` comes to `t`. -/
  sound : ∀ n w, Accepts G n s w → ∃ m u v, m < n ∧ w = u ++ v ∧ u ∈ L ∧ Accepts G m t v
  /-- A run from `t` can be started at `s`. -/
  complete : ∀ m u v, u ∈ L → Accepts G m t v → ∃ n, Accepts G n s (u ++ v)

variable {G : ι → Option (Node α ι)} {s s' t a b : ι} {L L' : Language α}

theorem Accepts.read {n : ℕ} {p : Set α} {x : α} {w : List α} (hs : G s = some (.read p t))
    (hx : x ∈ p) (h : Accepts G n t w) : Accepts G (n + 1) s (x :: w) := by
  obtain ⟨f, hf, hpath⟩ := h
  exact ⟨f, hf, .read hs hx hpath⟩

theorem Accepts.split1 {n : ℕ} {w : List α} (hs : G s = some (.split a b)) (h : Accepts G n a w) :
    Accepts G (n + 1) s w := by
  obtain ⟨f, hf, hpath⟩ := h
  exact ⟨f, hf, .split1 hs hpath⟩

theorem Accepts.split2 {n : ℕ} {w : List α} (hs : G s = some (.split a b)) (h : Accepts G n b w) :
    Accepts G (n + 1) s w := by
  obtain ⟨f, hf, hpath⟩ := h
  exact ⟨f, hf, .split2 hs hpath⟩

theorem Accepts.of_read {n : ℕ} {p : Set α} {w : List α} (h : Accepts G n s w)
    (hs : G s = some (.read p t)) :
    ∃ m x v, n = m + 1 ∧ w = x :: v ∧ x ∈ p ∧ Accepts G m t v := by
  obtain ⟨f, hf, hpath⟩ := h
  cases hpath with
  | refl => exact absurd (hf.symm.trans hs) (by simp)
  | read hs' hx hpath =>
    obtain ⟨rfl, rfl⟩ := Node.read.inj (Option.some.inj (hs'.symm.trans hs))
    exact ⟨_, _, _, rfl, rfl, hx, f, hf, hpath⟩
  | split1 hs' => exact absurd (hs'.symm.trans hs) (by simp)
  | split2 hs' => exact absurd (hs'.symm.trans hs) (by simp)

theorem Accepts.of_split {n : ℕ} {w : List α} (h : Accepts G n s w)
    (hs : G s = some (.split a b)) :
    ∃ m, n = m + 1 ∧ (Accepts G m a w ∨ Accepts G m b w) := by
  obtain ⟨f, hf, hpath⟩ := h
  cases hpath with
  | refl => exact absurd (hf.symm.trans hs) (by simp)
  | read hs' => exact absurd (hs'.symm.trans hs) (by simp)
  | split1 hs' hpath =>
    obtain ⟨rfl, rfl⟩ := Node.split.inj (Option.some.inj (hs'.symm.trans hs))
    exact ⟨_, rfl, .inl ⟨f, hf, hpath⟩⟩
  | split2 hs' hpath =>
    obtain ⟨rfl, rfl⟩ := Node.split.inj (Option.some.inj (hs'.symm.trans hs))
    exact ⟨_, rfl, .inr ⟨f, hf, hpath⟩⟩

/-! ### The rules -/

theorem denotes_read {p : Set α} (hs : G s = some (.read p t)) :
    Denotes G s t {w | ∃ x ∈ p, w = [x]} where
  sound n w h := by
    obtain ⟨m, x, v, rfl, rfl, hx, h⟩ := h.of_read hs
    exact ⟨m, [x], v, m.lt_succ_self, rfl, ⟨x, hx, rfl⟩, h⟩
  complete m u v hu h := by
    obtain ⟨x, hx, rfl⟩ := hu
    exact ⟨m + 1, h.read hs hx⟩

theorem Denotes.mul (h : Denotes G s a L) (h' : Denotes G a t L') : Denotes G s t (L * L') where
  sound n w hw := by
    obtain ⟨m, u, v, hm, rfl, hu, hv⟩ := h.sound n w hw
    obtain ⟨m', u', v', hm', rfl, hu', hv'⟩ := h'.sound m v hv
    exact ⟨m', u ++ u', v', hm'.trans hm, (List.append_assoc _ _ _).symm,
      Language.append_mem_mul hu hu', hv'⟩
  complete m u v hu hv := by
    obtain ⟨u₁, hu₁, u₂, hu₂, rfl⟩ := Language.mem_mul.1 hu
    obtain ⟨m', hm'⟩ := h'.complete m u₂ v hu₂ hv
    obtain ⟨n, hn⟩ := h.complete m' u₁ (u₂ ++ v) hu₁ hm'
    exact ⟨n, by rwa [List.append_assoc]⟩

theorem Denotes.add (hs : G s = some (.split a b)) (h : Denotes G a t L) (h' : Denotes G b t L') :
    Denotes G s t (L + L') where
  sound n w hw := by
    obtain ⟨m, rfl, hw | hw⟩ := hw.of_split hs
    · obtain ⟨m', u, v, hm, rfl, hu, hv⟩ := h.sound m w hw
      exact ⟨m', u, v, hm.trans m.lt_succ_self, rfl, .inl hu, hv⟩
    · obtain ⟨m', u, v, hm, rfl, hu, hv⟩ := h'.sound m w hw
      exact ⟨m', u, v, hm.trans m.lt_succ_self, rfl, .inr hu, hv⟩
  complete m u v hu hv := by
    rcases hu with hu | hu
    · obtain ⟨n, hn⟩ := h.complete m u v hu hv
      exact ⟨n + 1, hn.split1 hs⟩
    · obtain ⟨n, hn⟩ := h'.complete m u v hu hv
      exact ⟨n + 1, hn.split2 hs⟩

theorem Denotes.option (hs : G s = some (.split a t)) (h : Denotes G a t L) :
    Denotes G s t (L + 1) where
  sound n w hw := by
    obtain ⟨m, rfl, hw | hw⟩ := hw.of_split hs
    · obtain ⟨m', u, v, hm, rfl, hu, hv⟩ := h.sound m w hw
      exact ⟨m', u, v, hm.trans m.lt_succ_self, rfl, .inl hu, hv⟩
    · exact ⟨m, [], w, m.lt_succ_self, rfl, .inr Language.nil_mem_one, hw⟩
  complete m u v hu hv := by
    rcases hu with hu | hu
    · obtain ⟨n, hn⟩ := h.complete m u v hu hv
      exact ⟨n + 1, hn.split1 hs⟩
    · obtain rfl : u = [] := (Language.mem_one u).1 hu
      exact ⟨m + 1, hv.split2 hs⟩

theorem Denotes.option' (hs : G s = some (.split t a)) (h : Denotes G a t L) :
    Denotes G s t (1 + L) where
  sound n w hw := by
    obtain ⟨m, rfl, hw | hw⟩ := hw.of_split hs
    · exact ⟨m, [], w, m.lt_succ_self, rfl, .inl Language.nil_mem_one, hw⟩
    · obtain ⟨m', u, v, hm, rfl, hu, hv⟩ := h.sound m w hw
      exact ⟨m', u, v, hm.trans m.lt_succ_self, rfl, .inr hu, hv⟩
  complete m u v hu hv := by
    rcases hu with hu | hu
    · obtain rfl : u = [] := (Language.mem_one u).1 hu
      exact ⟨m + 1, hv.split1 hs⟩
    · obtain ⟨n, hn⟩ := h.complete m u v hu hv
      exact ⟨n + 1, hn.split2 hs⟩

theorem Denotes.star (hs : G s = some (.split a t)) (h : Denotes G a s L) :
    Denotes G s t (KStar.kstar L) where
  sound n w hw := by
    -- the rest of a run that goes through the loop is shorter
    induction n using Nat.strong_induction_on generalizing w with
    | _ n ih =>
      obtain ⟨m, rfl, hw | hw⟩ := hw.of_split hs
      · obtain ⟨m', u, v, hm, rfl, hu, hv⟩ := h.sound m w hw
        obtain ⟨m'', u', v', hm', rfl, hu', hv'⟩ := ih m' (hm.trans m.lt_succ_self) v hv
        refine ⟨m'', u ++ u', v', hm'.trans (hm.trans m.lt_succ_self),
          (List.append_assoc _ _ _).symm, ?_, hv'⟩
        have hle : L * KStar.kstar L ≤ KStar.kstar L := mul_kstar_le_kstar
        exact hle (Language.append_mem_mul hu hu')
      · exact ⟨m, [], w, m.lt_succ_self, rfl, Language.nil_mem_kstar L, hw⟩
  complete m u v hu hv := by
    obtain ⟨l, rfl, hl⟩ := Language.mem_kstar.1 hu
    clear hu
    induction l with
    | nil => exact ⟨m + 1, hv.split2 hs⟩
    | cons x l ih =>
      obtain ⟨hx, hl⟩ := List.forall_mem_cons.1 hl
      obtain ⟨n, hn⟩ := ih hl
      obtain ⟨n', hn'⟩ := h.complete n x (l.flatten ++ v) hx hn
      refine ⟨n' + 1, ?_⟩
      rw [List.flatten_cons, List.append_assoc]
      exact hn'.split1 hs

/-- **The words that are accepted** from the start of a fragment that leads to an accepting state
are those of its language. -/
theorem Denotes.accepts_iff (h : Denotes G s t L) (ht : G t = some .stop) (w : List α) :
    (∃ n, Accepts G n s w) ↔ w ∈ L := by
  constructor
  · rintro ⟨n, hn⟩
    obtain ⟨m, u, v, -, rfl, hu, f, hf, hpath⟩ := h.sound n w hn
    cases hpath with
    | refl => rwa [List.append_nil]
    | read hs' => exact absurd (hs'.symm.trans ht) (by simp)
    | split1 hs' => exact absurd (hs'.symm.trans ht) (by simp)
    | split2 hs' => exact absurd (hs'.symm.trans ht) (by simp)
  · intro hw
    obtain ⟨n, hn⟩ := h.complete 0 w [] hw ⟨t, ht, .refl t⟩
    exact ⟨n, by rwa [List.append_nil] at hn⟩

/-! ### The states that are reached -/

def Eps (G : ι → Option (Node α ι)) (s t : ι) : Prop :=
  ∃ a b, G s = some (.split a b) ∧ (t = a ∨ t = b)

def Reads (G : ι → Option (Node α ι)) (s : ι) (w : List α) (t : ι) : Prop := ∃ n, Path G n s w t

theorem Reads.eps {w : List α} {r : ι} (h : Eps G s r) (h' : Reads G r w t) : Reads G s w t := by
  obtain ⟨a, b, hs, rfl | rfl⟩ := h
  · exact ⟨_, .split1 hs h'.choose_spec⟩
  · exact ⟨_, .split2 hs h'.choose_spec⟩

theorem reads_nil_iff : Reads G s [] t ↔ Relation.ReflTransGen (Eps G) s t := by
  constructor
  · rintro ⟨n, hpath⟩
    generalize hw : ([] : List α) = w at hpath
    induction hpath with
    | refl => exact .refl
    | read => cases hw
    | split1 hs _ ih => exact .head ⟨_, _, hs, .inl rfl⟩ (ih hw)
    | split2 hs _ ih => exact .head ⟨_, _, hs, .inr rfl⟩ (ih hw)
  · intro h
    induction h using Relation.ReflTransGen.head_induction_on with
    | refl => exact ⟨0, .refl t⟩
    | head hstep _ ih => exact ih.eps hstep

theorem Reads.trans {u v : List α} {r : ι} (h : Reads G s u r) (h' : Reads G r v t) :
    Reads G s (u ++ v) t := by
  obtain ⟨n, hpath⟩ := h
  induction hpath with
  | refl => exact h'
  | read hs ha _ ih => exact ⟨_, .read hs ha (ih h').choose_spec⟩
  | split1 hs _ ih => exact (ih h').eps ⟨_, _, hs, .inl rfl⟩
  | split2 hs _ ih => exact (ih h').eps ⟨_, _, hs, .inr rfl⟩

theorem reads_append_iff {u v : List α} :
    Reads G s (u ++ v) t ↔ ∃ r, Reads G s u r ∧ Reads G r v t := by
  constructor
  · rintro ⟨n, hpath⟩
    generalize hw : u ++ v = w at hpath
    induction hpath generalizing u with
    | refl =>
      obtain ⟨rfl, rfl⟩ := List.append_eq_nil_iff.1 hw
      exact ⟨_, ⟨0, .refl _⟩, 0, .refl _⟩
    | @read n s out t p a w hs ha h ih =>
      rcases u with _ | ⟨b, u⟩
      · obtain rfl : v = a :: w := hw
        exact ⟨_, ⟨0, .refl _⟩, _, .read hs ha h⟩
      · obtain ⟨rfl, hw'⟩ := List.cons.inj hw
        obtain ⟨r, ⟨m, hr⟩, hv⟩ := ih hw'
        exact ⟨r, ⟨_, .read hs ha hr⟩, hv⟩
    | split1 hs _ ih =>
      obtain ⟨r, hr, hv⟩ := ih hw
      exact ⟨r, hr.eps ⟨_, _, hs, .inl rfl⟩, hv⟩
    | split2 hs _ ih =>
      obtain ⟨r, hr, hv⟩ := ih hw
      exact ⟨r, hr.eps ⟨_, _, hs, .inr rfl⟩, hv⟩
  · rintro ⟨r, hr, hv⟩
    exact hr.trans hv

theorem reads_singleton_iff {a : α} :
    Reads G s [a] t ↔ ∃ r p out, Reads G s [] r ∧ G r = some (.read p out) ∧ a ∈ p ∧
      Reads G out [] t := by
  constructor
  · rintro ⟨n, hpath⟩
    generalize hw : [a] = w at hpath
    induction hpath with
    | refl => cases hw
    | read hs ha h =>
      obtain ⟨rfl, rfl⟩ := List.cons.inj hw
      exact ⟨_, _, _, ⟨0, .refl _⟩, hs, ha, _, h⟩
    | split1 hs _ ih =>
      obtain ⟨r, p, out, hr, hrest⟩ := ih hw
      exact ⟨r, p, out, hr.eps ⟨_, _, hs, .inl rfl⟩, hrest⟩
    | split2 hs _ ih =>
      obtain ⟨r, p, out, hr, hrest⟩ := ih hw
      exact ⟨r, p, out, hr.eps ⟨_, _, hs, .inr rfl⟩, hrest⟩
  · rintro ⟨r, p, out, hr, hs, ha, m, h⟩
    exact Reads.trans hr ⟨_, .read hs ha h⟩

/-- From every state that a run to an accepting state starts at, a state is reached without reading
that does not split. -/
theorem Reads.exists_not_split {w : List α} (h : Reads G s w t) (ht : G t = some .stop) :
    ∃ r, Reads G s [] r ∧ (∃ x, G r = some x) ∧ ∀ a b, G r ≠ some (.split a b) := by
  obtain ⟨n, hpath⟩ := h
  induction hpath with
  | refl s => exact ⟨s, ⟨0, .refl s⟩, ⟨_, ht⟩, by simp [ht]⟩
  | read hs => exact ⟨_, ⟨0, .refl _⟩, ⟨_, hs⟩, by simp [hs]⟩
  | split1 hs _ ih =>
    obtain ⟨r, hr, hrest⟩ := ih ht
    exact ⟨r, hr.eps ⟨_, _, hs, .inl rfl⟩, hrest⟩
  | split2 hs _ ih =>
    obtain ⟨r, hr, hrest⟩ := ih ht
    exact ⟨r, hr.eps ⟨_, _, hs, .inr rfl⟩, hrest⟩

end NfaFragment
