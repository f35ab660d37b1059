import SmlNj.Library.ThompsonEngine
import SmlNj.Lib.NfaFragment

/-!
# Fragments of the compilation of Thompson's engine

Every step of the compilation makes a fragment that denotes a language, once its dangling outputs
are set.

## Main definitions

* `Valid`, `Extends` — the invariant of the state of the compilation, and how it goes on.
* `node` — what a state does when the references are known.
* `Makes`, `Compiles` — the fragment that a step of the compilation makes denotes a language.

## Main results

* `compiles_single`, `compiles_cat`, `compiles_option`, `compiles_closure`, `compiles_posClosure`,
  `compiles_alt` — the steps.
-/

namespace SmlNj.RegExp.ThompsonEngine

open NfaFragment

/-! ### The state of the compilation -/

/-- The references of a state. -/
def Kind'.refs : Kind' → List ℕ
  | .CHR' _ out => [out]
  | .CSET' _ out => [out]
  | .NCSET' _ out => [out]
  | .SPLIT' out1 out2 => [out1, out2]
  | .BOL' out => [out]
  | .EOL' out => [out]
  | .FINAL' => []

/-- The state reads a character or splits. -/
def Kind'.Plain : Kind' → Prop
  | .CHR' _ _ => True
  | .CSET' _ _ => True
  | .NCSET' _ _ => True
  | .SPLIT' _ _ => True
  | .BOL' _ => False
  | .EOL' _ => False
  | .FINAL' => False

/-- **The state of the compilation is valid**: the states are numbered in order, one state accepts,
and the references are to states that there are. -/
structure Valid (σ : Compiler) : Prop where
  pos : 0 < σ.nStates
  /-- The accepting state is among the states. -/
  final_mem : final ∈ σ.states
  plain : ∀ s ∈ σ.states, s = final ∨ s.kind.Plain
  ids : σ.states.map State'.id = (List.range σ.nStates).reverse
  heap : ∀ s ∈ σ.heap, s.id < σ.nStates
  refs : ∀ s ∈ σ.states, ∀ r ∈ s.kind.refs, r < σ.heap.length

/-- **The compilation goes on**: the states stay, and so do the old references. -/
structure Extends (σ σ' : Compiler) : Prop where
  nStates_le : σ.nStates ≤ σ'.nStates
  states : σ.states ⊆ σ'.states
  length_le : σ.heap.length ≤ σ'.heap.length
  heap : ∀ r < σ.heap.length, σ'.heap[r]? = σ.heap[r]?

theorem Extends.refl (σ : Compiler) : Extends σ σ :=
  ⟨le_rfl, fun _ h => h, le_rfl, fun _ _ => rfl⟩

theorem Extends.trans {σ σ₁ σ' : Compiler} (h : Extends σ σ₁) (h' : Extends σ₁ σ') :
    Extends σ σ' :=
  ⟨h.nStates_le.trans h'.nStates_le, fun _ hs => h'.states (h.states hs),
    h.length_le.trans h'.length_le,
    fun r hr => (h'.heap r (hr.trans_le h.length_le)).trans (h.heap r hr)⟩

variable {σ σ₁ σ₂ σ₃ σ' σa σb : Compiler} {s : State'} {kind : Kind'} {f : Frag}

def Compiler.withRef (σ : Compiler) (s : State') : Compiler := { σ with heap := σ.heap ++ [s] }

def Compiler.withNew (σ : Compiler) (kind : Kind') : Compiler :=
  { σ with states := { id := σ.nStates, kind := kind } :: σ.states, nStates := σ.nStates + 1 }

def Compiler.withOuts (σ : Compiler) (out : List ℕ) (s : State') : Compiler :=
  { σ with heap := out.foldl (fun heap r => heap.set r s) σ.heap }

theorem extends_withRef (σ : Compiler) (s : State') : Extends σ (σ.withRef s) := by
  refine ⟨le_rfl, fun _ h => h, by simp [Compiler.withRef], fun r hr => ?_⟩
  rw [Compiler.withRef, List.getElem?_append_left hr]

theorem Valid.withRef (h : Valid σ) (hs : s.id < σ.nStates) : Valid (σ.withRef s) := by
  refine ⟨h.pos, h.final_mem, h.plain, h.ids, fun s' hs' => ?_, fun s' hs' r hr => ?_⟩
  · rcases List.mem_append.1 hs' with hs' | hs'
    · exact h.heap s' hs'
    · rwa [List.mem_singleton.1 hs']
  · exact (h.refs s' hs' r hr).trans_le (extends_withRef σ s).length_le

theorem extends_withNew (σ : Compiler) (kind : Kind') : Extends σ (σ.withNew kind) :=
  ⟨Nat.le_succ _, fun _ h => List.mem_cons_of_mem _ h, le_rfl, fun _ _ => rfl⟩

theorem Valid.withNew (h : Valid σ) (hk : kind.Plain)
    (hr : ∀ r ∈ kind.refs, r < σ.heap.length) : Valid (σ.withNew kind) := by
  refine ⟨Nat.succ_pos _, List.mem_cons_of_mem _ h.final_mem, fun s hs => ?_, ?_,
    fun s hs => (h.heap s hs).trans (Nat.lt_succ_self _), fun s hs => ?_⟩
  · rcases List.mem_cons.1 hs with rfl | hs
    · exact .inr hk
    · exact h.plain s hs
  · rw [Compiler.withNew, List.map_cons, h.ids, List.range_succ, List.reverse_append]
    rfl
  · rcases List.mem_cons.1 hs with rfl | hs
    · exact hr
    · exact h.refs s hs

theorem length_foldl_set {α : Type*} (out : List ℕ) (s : α) (heap : List α) :
    (out.foldl (fun heap r => heap.set r s) heap).length = heap.length := by
  induction out generalizing heap with
  | nil => rfl
  | cons r out ih => rw [List.foldl_cons, ih, List.length_set]

theorem getElem?_foldl_set {α : Type*} (out : List ℕ) (s : α) (heap : List α) (r : ℕ) :
    (out.foldl (fun heap r => heap.set r s) heap)[r]? =
      if r ∈ out ∧ r < heap.length then some s else heap[r]? := by
  induction out generalizing heap with
  | nil => simp
  | cons r' out ih =>
    rw [List.foldl_cons, ih]
    by_cases hlt : r < heap.length
    · by_cases hr : r ∈ out
      · simp [hr, hlt]
      · by_cases hrr : r' = r
        · subst hrr
          simp [hlt]
        · simp [hrr, Ne.symm hrr]
    · have hnone : heap[r]? = none := List.getElem?_eq_none (not_lt.1 hlt)
      by_cases hrr : r' = r
      · subst hrr
        simp [hlt]
      · simp [hlt, hrr]

theorem Extends.withOuts (h : Extends σ σ₁) {out : List ℕ} (hout : ∀ r ∈ out, σ.heap.length ≤ r)
    (s : State') : Extends σ (σ₁.withOuts out s) := by
  refine ⟨h.nStates_le, h.states, ?_, fun r hr => ?_⟩
  · rw [Compiler.withOuts, length_foldl_set]
    exact h.length_le
  · rw [Compiler.withOuts, getElem?_foldl_set, if_neg fun hcon => (hout r hcon.1).not_gt hr]
    exact h.heap r hr

theorem Valid.withOuts (h : Valid σ) (hs : s.id < σ.nStates) (out : List ℕ) :
    Valid (σ.withOuts out s) := by
  refine ⟨h.pos, h.final_mem, h.plain, h.ids, fun s' hs' => ?_, fun s' hs' r hr => ?_⟩
  · obtain ⟨r, hr⟩ := List.mem_iff_getElem?.1 hs'
    rw [Compiler.withOuts, getElem?_foldl_set] at hr
    split at hr
    · rwa [← Option.some.inj hr]
    · exact h.heap s' (List.mem_of_getElem? hr)
  · rw [Compiler.withOuts, length_foldl_set]
    exact h.refs s' hs' r hr

theorem bind_eq_some {α β : Type} {x : M α} {g : α → M β} {b : β} :
    (x >>= g) σ = some (b, σ') ↔ ∃ a σ₁, x σ = some (a, σ₁) ∧ g a σ₁ = some (b, σ') := by
  change (x σ).bind (fun p => g p.1 p.2) = _ ↔ _
  rw [Option.bind_eq_some_iff, Prod.exists]

theorem ref_eq {r : ℕ} (h : ref s σ = some (r, σ')) : r = σ.heap.length ∧ σ' = σ.withRef s := by
  obtain ⟨rfl, rfl⟩ := Prod.mk.inj (Option.some.inj h)
  exact ⟨rfl, rfl⟩

theorem new_eq (h : new kind σ = some (s, σ')) :
    s = { id := σ.nStates, kind := kind } ∧ σ' = σ.withNew kind := by
  obtain ⟨rfl, rfl⟩ := Prod.mk.inj (Option.some.inj h)
  exact ⟨rfl, rfl⟩

theorem setOuts_eq {u : Unit} (h : setOuts f s σ = some (u, σ')) : σ' = σ.withOuts f.out s :=
  (Prod.mk.inj (Option.some.inj h)).2.symm

theorem pure_eq {α : Type} {a b : α} (h : (pure a : M α) σ = some (b, σ')) : b = a ∧ σ' = σ := by
  obtain ⟨rfl, rfl⟩ := Prod.mk.inj (Option.some.inj h)
  exact ⟨rfl, rfl⟩

/-! ### Fragments -/

/-- What a state does when the references are known; anchors do nothing. -/
def node (H : ℕ → ℕ) : Kind' → Option (Node Char ℕ)
  | .CHR' c out => some (.read {c} (H out))
  | .CSET' cset out => some (.read {c | c ∈ cset} (H out))
  | .NCSET' cset out => some (.read {c | c ∉ cset} (H out))
  | .SPLIT' out1 out2 => some (.split (H out1) (H out2))
  | .BOL' _ => none
  | .EOL' _ => none
  | .FINAL' => some .stop

/-- **An automaton agrees with a part of the compilation**: it has the new states, with the new
references as they are, except for those that are set to the state that follows. -/
structure Agrees (G : ℕ → Option (Node Char ℕ)) (H : ℕ → ℕ) (σ σ' : Compiler) (out : List ℕ)
    (T : ℕ) : Prop where
  states : ∀ s ∈ σ'.states, σ.nStates ≤ s.id → G s.id = node H s.kind
  heap : ∀ r s, σ.heap.length ≤ r → r ∉ out → σ'.heap[r]? = some s → H r = s.id
  out : ∀ r ∈ out, H r = T

variable {G : ℕ → Option (Node Char ℕ)} {H : ℕ → ℕ} {out out' : List ℕ} {T T' : ℕ}

theorem Agrees.part (h : Agrees G H σ σ' out T) (hσ : Extends σ σa) (hσ' : σb.states ⊆ σ'.states)
    (hheap : ∀ r, σa.heap.length ≤ r → r < σb.heap.length → r ∉ out' →
      r ∉ out ∧ σ'.heap[r]? = σb.heap[r]?) (hout : ∀ r ∈ out', H r = T') :
    Agrees G H σa σb out' T' := by
  refine ⟨fun s hs hid => h.states s (hσ' hs) (hσ.nStates_le.trans hid), fun r s hr hr' hrs => ?_,
    hout⟩
  obtain ⟨hlt, -⟩ := List.getElem?_eq_some_iff.1 hrs
  obtain ⟨hnot, heq⟩ := hheap r hr hlt hr'
  exact h.heap r s (hσ.length_le.trans hr) hnot (heq.trans hrs)

/-- **A step of the compilation makes a fragment of a language**.  Its outputs are new, or they are
given ones. -/
structure Makes (given : ℕ → Prop) (L : Language Char) (σ σ' : Compiler) (f : Frag) : Prop where
  /-- The state of the compilation stays valid. -/
  valid : Valid σ'
  ext : Extends σ σ'
  start_lt : f.start.id < σ'.nStates
  out : ∀ r ∈ f.out, r < σ'.heap.length ∧ (given r ∨ σ.heap.length ≤ r)
  denotes : ∀ G H T, Agrees G H σ σ' f.out T → Denotes G f.start.id T L

def Compiles (given : ℕ → Prop) (c : M Frag) (L : Language Char) : Prop :=
  ∀ σ, Valid σ → (∀ r, given r → r < σ.heap.length) → ∀ f σ', c σ = some (f, σ') →
    Makes given L σ σ' f

def nothing (_ : ℕ) : Prop := False

theorem Makes.out_ge {L : Language Char} (h : Makes nothing L σ σ' f) {r : ℕ} (hr : r ∈ f.out) :
    σ.heap.length ≤ r :=
  (h.out r hr).2.resolve_left id

theorem Compiles.makes {c : M Frag} {L : Language Char} (h : Compiles nothing c L)
    (hσ : Valid σ) (hc : c σ = some (f, σ')) : Makes nothing L σ σ' f :=
  h σ hσ (fun _ hr => hr.elim) f σ' hc

/-! ### The steps -/

section Steps

variable {c c1 c2 : M Frag} {L L1 L2 : Language Char} {given : ℕ → Prop}

theorem compiles_single {kind : ℕ → Kind'} {p : Set Char} (hrefs : ∀ r, (kind r).refs = [r])
    (hplain : ∀ r, (kind r).Plain) (hnode : ∀ H r, node H (kind r) = some (.read p (H r))) :
    Compiles nothing (single kind) {w | ∃ x ∈ p, w = [x]} := by
  intro σ hσ _ f σ' hc
  obtain ⟨out, σ₁, h1, hc⟩ := bind_eq_some.1 hc
  obtain ⟨rfl, rfl⟩ := ref_eq h1
  obtain ⟨s, σ₂, h2, hc⟩ := bind_eq_some.1 hc
  obtain ⟨rfl, rfl⟩ := new_eq h2
  obtain ⟨rfl, rfl⟩ := pure_eq hc
  have hlen : (σ.withRef final).heap.length = σ.heap.length + 1 := by simp [Compiler.withRef]
  have hvalid : Valid (σ.withRef final) := hσ.withRef hσ.pos
  refine ⟨hvalid.withNew (hplain _) fun r hr => ?_, (extends_withRef σ final).trans (extends_withNew _ _),
    Nat.lt_succ_self _, fun r hr => ?_, fun G H T hG => ?_⟩
  · rw [hrefs, List.mem_singleton] at hr
    rw [hr, hlen]
    exact Nat.lt_succ_self _
  · rw [List.mem_singleton.1 hr]
    exact ⟨hlen ▸ Nat.lt_succ_self _, .inr le_rfl⟩
  · have hs := hG.states _ (List.mem_cons_self) le_rfl
    rw [hnode, hG.out σ.heap.length (List.mem_singleton.2 rfl)] at hs
    exact denotes_read hs

/-- One expression after the other. -/
theorem compiles_cat (h1 : Compiles nothing c1 L1) (h2 : Compiles given c2 L2) :
    Compiles given (cat c1 c2) (L1 * L2) := by
  intro σ hσ hgiven f σ' hc
  obtain ⟨f1, σ₁, hc1, hc⟩ := bind_eq_some.1 hc
  obtain ⟨f2, σ₂, hc2, hc⟩ := bind_eq_some.1 hc
  obtain ⟨_, σ₃, h3, hc⟩ := bind_eq_some.1 hc
  obtain rfl := setOuts_eq h3
  obtain ⟨rfl, rfl⟩ := pure_eq hc
  have m1 := h1.makes hσ hc1
  have m2 := h2 σ₁ m1.valid (fun r hr => (hgiven r hr).trans_le m1.ext.length_le) f2 σ₂ hc2
  have hlen : (σ₂.withOuts f1.out f2.start).heap.length = σ₂.heap.length := length_foldl_set _ _ _
  refine ⟨m2.valid.withOuts m2.start_lt f1.out,
    (m1.ext.trans m2.ext).withOuts (fun r hr => m1.out_ge hr) f2.start,
    m1.start_lt.trans_le m2.ext.nStates_le, fun r hr => ?_, fun G H T hG => ?_⟩
  · obtain ⟨hlt, hr'⟩ := m2.out r hr
    exact ⟨hlt.trans_eq hlen.symm, hr'.imp_right m1.ext.length_le.trans⟩
  -- the outputs of the first expression are not among those of the second one
  have hdisj : ∀ r, σ.heap.length ≤ r → r < σ₁.heap.length → r ∉ f2.out := by
    intro r hr hlt hmem
    rcases (m2.out r hmem).2 with hg | hge
    · exact (hgiven r hg).not_ge hr
    · exact hlt.not_ge hge
  have hset : ∀ r, (σ₂.withOuts f1.out f2.start).heap[r]? =
      if r ∈ f1.out ∧ r < σ₂.heap.length then some f2.start else σ₂.heap[r]? :=
    fun r => getElem?_foldl_set _ _ _ r
  have d2 : Denotes G f2.start.id T L2 := by
    refine m2.denotes G H T (hG.part m1.ext (fun _ h => h) (fun r hr _ hnot => ⟨hnot, ?_⟩) hG.out)
    rw [hset, if_neg fun hcon => (m1.out r hcon.1).1.not_ge hr]
  have d1 : Denotes G f1.start.id f2.start.id L1 := by
    refine m1.denotes G H _ (hG.part (.refl σ) m2.ext.states (fun r hr hlt hnot => ?_) ?_)
    · refine ⟨hdisj r hr hlt, ?_⟩
      rw [hset, if_neg fun hcon => hnot hcon.1, m2.ext.heap r hlt]
    · intro r hr
      have hlt := (m1.out r hr).1
      refine hG.heap r f2.start (m1.out_ge hr) (hdisj r (m1.out_ge hr) hlt) ?_
      rw [hset, if_pos ⟨hr, hlt.trans_le m2.ext.length_le⟩]
  exact d1.mul d2

/-- The state with a split between the start of a fragment and an output. -/
def Compiler.withSplit (σ : Compiler) (s : State') : Compiler :=
  ((σ.withRef final).withRef s).withNew (.SPLIT' (σ.heap.length + 1) σ.heap.length)

theorem length_withSplit (σ : Compiler) (s : State') :
    (σ.withSplit s).heap.length = σ.heap.length + 2 := by
  simp [Compiler.withSplit, Compiler.withNew, Compiler.withRef]

theorem extends_withSplit (σ : Compiler) (s : State') : Extends σ (σ.withSplit s) :=
  ((extends_withRef σ final).trans (extends_withRef _ s)).trans (extends_withNew _ _)

theorem Valid.withSplit (h : Valid σ) (hs : s.id < σ.nStates) : Valid (σ.withSplit s) := by
  refine Valid.withNew ((h.withRef (s := final) h.pos).withRef hs) trivial fun r hr => ?_
  have hlen : ((σ.withRef final).withRef s).heap.length = σ.heap.length + 2 :=
    length_withSplit σ s
  simp only [Kind'.refs, List.mem_cons, List.not_mem_nil, or_false] at hr
  omega

def splitState (σ : Compiler) : State' :=
  { id := σ.nStates, kind := .SPLIT' (σ.heap.length + 1) σ.heap.length }

theorem splitState_mem (σ : Compiler) (s : State') : splitState σ ∈ (σ.withSplit s).states :=
  List.mem_cons_self

theorem splitState_lt (σ : Compiler) (s : State') :
    (splitState σ).id < (σ.withSplit s).nStates :=
  Nat.lt_succ_self _

theorem getElem?_withSplit (σ : Compiler) (s : State') :
    (σ.withSplit s).heap[σ.heap.length + 1]? = some s := by
  simp [Compiler.withSplit, Compiler.withNew, Compiler.withRef]

theorem split_eq {out r : ℕ} (h1 : ref final σ = some (out, σ₁)) (h2 : ref f.start σ₁ = some (r, σ₂))
    (h3 : new (.SPLIT' r out) σ₂ = some (s, σ₃)) :
    out = σ.heap.length ∧ s = splitState σ ∧ σ₃ = σ.withSplit f.start := by
  obtain ⟨rfl, rfl⟩ := ref_eq h1
  obtain ⟨rfl, rfl⟩ := ref_eq h2
  obtain ⟨rfl, rfl⟩ := new_eq h3
  have hlen : (σ.withRef final).heap.length = σ.heap.length + 1 := by simp [Compiler.withRef]
  refine ⟨rfl, ?_, ?_⟩
  · rw [hlen]
    rfl
  · rw [Compiler.withSplit, hlen]

/-- An expression or nothing. -/
theorem compiles_option (h : Compiles nothing c L) : Compiles nothing (option c) (L + 1) := by
  intro σ hσ _ f' σ' hc
  obtain ⟨f, σ₁, h0, hc⟩ := bind_eq_some.1 hc
  obtain ⟨out, σ₂, h1, hc⟩ := bind_eq_some.1 hc
  obtain ⟨r, σ₃, h2, hc⟩ := bind_eq_some.1 hc
  obtain ⟨s, σ₄, h3, hc⟩ := bind_eq_some.1 hc
  obtain ⟨rfl, rfl⟩ := pure_eq hc
  obtain ⟨rfl, rfl, rfl⟩ := split_eq h1 h2 h3
  have m := h.makes hσ h0
  refine ⟨m.valid.withSplit m.start_lt, m.ext.trans (extends_withSplit σ₁ f.start),
    splitState_lt σ₁ f.start, fun r hr => ?_, fun G H T hG => ?_⟩
  · rw [length_withSplit]
    rcases List.mem_cons.1 hr with rfl | hr
    · exact ⟨by omega, .inr m.ext.length_le⟩
    · exact ⟨(m.out r hr).1.trans (by omega), .inr (m.out_ge hr)⟩
  -- the split leads to the expression and to what follows
  have hs : G (splitState σ₁).id = some (.split f.start.id T) := by
    rw [hG.states _ (splitState_mem σ₁ f.start) m.ext.nStates_le, splitState, node,
      hG.out _ List.mem_cons_self, hG.heap _ f.start _ _ (getElem?_withSplit σ₁ f.start)]
    · exact m.ext.length_le.trans (Nat.le_succ _)
    · intro hmem
      rcases List.mem_cons.1 hmem with heq | hmem
      · omega
      · exact absurd (m.out _ hmem).1 (by omega)
  refine .option hs (m.denotes G H T (hG.part (.refl σ) (extends_withSplit σ₁ f.start).states
    (fun r hr hlt hnot => ⟨?_, (extends_withSplit σ₁ f.start).heap r hlt⟩) fun r hr =>
      hG.out r (List.mem_cons_of_mem _ hr)))
  intro hmem
  rcases List.mem_cons.1 hmem with rfl | hmem
  · exact lt_irrefl _ hlt
  · exact hnot hmem

/-- The loop of an expression: what is made of the expression and of the split. -/
theorem makes_loop (h : Compiles nothing c L) (hσ : Valid σ) (h0 : c σ = some (f, σ₁)) :
    Valid ((σ₁.withSplit f.start).withOuts f.out (splitState σ₁)) ∧
      Extends σ ((σ₁.withSplit f.start).withOuts f.out (splitState σ₁)) ∧
      f.start.id < (σ₁.withSplit f.start).nStates ∧
      (∀ r ∈ [σ₁.heap.length], r < (σ₁.withSplit f.start).heap.length ∧
        (nothing r ∨ σ.heap.length ≤ r)) ∧
      ∀ G H T, Agrees G H σ ((σ₁.withSplit f.start).withOuts f.out (splitState σ₁))
          [σ₁.heap.length] T →
        Denotes G f.start.id (splitState σ₁).id L ∧
          Denotes G (splitState σ₁).id T (KStar.kstar L) := by
  have m := h.makes hσ h0
  have hlen := length_withSplit σ₁ f.start
  have hset : ∀ r, ((σ₁.withSplit f.start).withOuts f.out (splitState σ₁)).heap[r]? =
      if r ∈ f.out ∧ r < (σ₁.withSplit f.start).heap.length then some (splitState σ₁)
      else (σ₁.withSplit f.start).heap[r]? :=
    fun r => getElem?_foldl_set _ _ _ r
  refine ⟨(m.valid.withSplit m.start_lt).withOuts (splitState_lt σ₁ f.start) f.out,
    (m.ext.trans (extends_withSplit σ₁ f.start)).withOuts (fun r hr => m.out_ge hr) _,
    m.start_lt.trans (Nat.lt_succ_self _), fun r hr => ?_, fun G H T hG => ?_⟩
  · rw [List.mem_singleton.1 hr]
    exact ⟨by omega, .inr m.ext.length_le⟩
  have hs : G (splitState σ₁).id = some (.split f.start.id T) := by
    rw [hG.states _ (splitState_mem σ₁ f.start) m.ext.nStates_le, splitState, node,
      hG.out _ (List.mem_singleton.2 rfl), hG.heap (σ₁.heap.length + 1) f.start]
    · exact m.ext.length_le.trans (Nat.le_succ _)
    · simp
    · rw [hset, if_neg fun hcon => absurd (m.out _ hcon.1).1 (by omega)]
      exact getElem?_withSplit σ₁ f.start
  have d : Denotes G f.start.id (splitState σ₁).id L := by
    refine m.denotes G H _ (hG.part (.refl σ) (extends_withSplit σ₁ f.start).states
      (fun r hr hlt hnot => ⟨?_, ?_⟩) fun r hr => ?_)
    · rw [List.mem_singleton]
      exact hlt.ne
    · rw [hset, if_neg fun hcon => hnot hcon.1]
      exact (extends_withSplit σ₁ f.start).heap r hlt
    · have hlt := (m.out r hr).1
      refine hG.heap r (splitState σ₁) (m.out_ge hr) ?_ ?_
      · rw [List.mem_singleton]
        exact hlt.ne
      · rw [hset, if_pos ⟨hr, hlt.trans (by omega)⟩]
  exact ⟨d, .star hs d⟩

theorem compiles_closure (h : Compiles nothing c L) :
    Compiles nothing (closureComp c) (KStar.kstar L) := by
  intro σ hσ _ f' σ' hc
  obtain ⟨f, σ₁, h0, hc⟩ := bind_eq_some.1 hc
  obtain ⟨out, σ₂, h1, hc⟩ := bind_eq_some.1 hc
  obtain ⟨r, σ₃, h2, hc⟩ := bind_eq_some.1 hc
  obtain ⟨s, σ₄, h3, hc⟩ := bind_eq_some.1 hc
  obtain ⟨_, σ₅, h4, hc⟩ := bind_eq_some.1 hc
  obtain ⟨rfl, rfl⟩ := pure_eq hc
  obtain rfl := setOuts_eq h4
  obtain ⟨rfl, rfl, rfl⟩ := split_eq h1 h2 h3
  obtain ⟨hvalid, hext, -, hout, hdenotes⟩ := makes_loop h hσ h0
  refine ⟨hvalid, hext, splitState_lt σ₁ f.start, fun r hr => ?_,
    fun G H T hG => (hdenotes G H T hG).2⟩
  rw [Compiler.withOuts, length_foldl_set]
  exact hout r hr

theorem compiles_posClosure (h : Compiles nothing c L) :
    Compiles nothing (posClosureComp c) (L * KStar.kstar L) := by
  intro σ hσ _ f' σ' hc
  obtain ⟨f, σ₁, h0, hc⟩ := bind_eq_some.1 hc
  obtain ⟨out, σ₂, h1, hc⟩ := bind_eq_some.1 hc
  obtain ⟨r, σ₃, h2, hc⟩ := bind_eq_some.1 hc
  obtain ⟨s, σ₄, h3, hc⟩ := bind_eq_some.1 hc
  obtain ⟨_, σ₅, h4, hc⟩ := bind_eq_some.1 hc
  obtain ⟨rfl, rfl⟩ := pure_eq hc
  obtain rfl := setOuts_eq h4
  obtain ⟨rfl, rfl, rfl⟩ := split_eq h1 h2 h3
  obtain ⟨hvalid, hext, hstart, hout, hdenotes⟩ := makes_loop h hσ h0
  refine ⟨hvalid, hext, hstart, fun r hr => ?_,
    fun G H T hG => (hdenotes G H T hG).1.mul (hdenotes G H T hG).2⟩
  rw [Compiler.withOuts, length_foldl_set]
  exact hout r hr

/-- Two alternatives. -/
theorem compiles_alt (h1 : Compiles nothing c1 L1) (h2 : Compiles nothing c2 L2) :
    Compiles nothing (do
      let f1 ← c1
      let f2 ← c2
      let s ← new (.SPLIT' (← ref f1.start) (← ref f2.start))
      return { start := s, out := f1.out ++ f2.out }) (L1 + L2) := by
  intro σ hσ _ f σ' hc
  obtain ⟨f1, σ₁, hc1, hc⟩ := bind_eq_some.1 hc
  obtain ⟨f2, σ₂, hc2, hc⟩ := bind_eq_some.1 hc
  obtain ⟨r1, σ₃, h3, hc⟩ := bind_eq_some.1 hc
  obtain ⟨r2, σ₄, h4, hc⟩ := bind_eq_some.1 hc
  obtain ⟨s, σ₅, h5, hc⟩ := bind_eq_some.1 hc
  obtain ⟨rfl, rfl⟩ := pure_eq hc
  obtain ⟨rfl, rfl⟩ := ref_eq h3
  obtain ⟨rfl, rfl⟩ := ref_eq h4
  obtain ⟨rfl, rfl⟩ := new_eq h5
  have m1 := h1.makes hσ hc1
  have m2 := h2.makes m1.valid hc2
  have hlen : (σ₂.withRef f1.start).heap.length = σ₂.heap.length + 1 := by
    simp [Compiler.withRef]
  have hlen' : ((σ₂.withRef f1.start).withRef f2.start).heap.length = σ₂.heap.length + 2 := by
    simp [Compiler.withRef]
  have hext : Extends σ₂ ((σ₂.withRef f1.start).withRef f2.start) :=
    (extends_withRef σ₂ f1.start).trans (extends_withRef _ f2.start)
  have hle := m1.ext.trans m2.ext
  have hout : ∀ r ∈ f1.out ++ f2.out, r < σ₂.heap.length ∧ σ.heap.length ≤ r := by
    intro r hr
    rcases List.mem_append.1 hr with hr | hr
    · exact ⟨(m1.out r hr).1.trans_le m2.ext.length_le, m1.out_ge hr⟩
    · exact ⟨(m2.out r hr).1, m1.ext.length_le.trans (m2.out_ge hr)⟩
  refine ⟨?_, (hle.trans hext).trans (extends_withNew _ _), Nat.lt_succ_self _, fun r hr => ?_,
    fun G H T hG => ?_⟩
  · refine Valid.withNew ((m2.valid.withRef (m1.start_lt.trans_le m2.ext.nStates_le)).withRef
      m2.start_lt) trivial fun r hr => ?_
    simp only [Kind'.refs, List.mem_cons, List.not_mem_nil, or_false] at hr
    omega
  · have := hout r hr
    refine ⟨?_, .inr this.2⟩
    change r < ((σ₂.withRef f1.start).withRef f2.start).heap.length
    omega
  have hs := hG.states _ List.mem_cons_self hle.nStates_le
  have hr1 : H σ₂.heap.length = f1.start.id := by
    refine hG.heap _ f1.start hle.length_le (fun hmem => lt_irrefl _ (hout _ hmem).1) ?_
    simp [Compiler.withNew, Compiler.withRef]
  have hr2 : H (σ₂.withRef f1.start).heap.length = f2.start.id := by
    refine hG.heap _ f2.start ?_ (fun hmem => ?_) ?_
    · have := hle.length_le
      omega
    · have := (hout _ hmem).1
      omega
    · simp [Compiler.withNew, Compiler.withRef]
  rw [node, hr1, hr2] at hs
  refine .add hs (m1.denotes G H T ?_) (m2.denotes G H T ?_)
  · refine hG.part (.refl σ) (fun _ h => (extends_withNew _ _).states (hext.states
      (m2.ext.states h))) (fun r hr hlt hnot => ⟨fun hmem => ?_, ?_⟩) fun r hr =>
        hG.out r (List.mem_append_left _ hr)
    · rcases List.mem_append.1 hmem with hmem | hmem
      · exact hnot hmem
      · exact hlt.not_ge (m2.out_ge hmem)
    · exact (hext.heap r (hlt.trans_le m2.ext.length_le)).trans (m2.ext.heap r hlt)
  · refine hG.part m1.ext (fun _ h => (extends_withNew _ _).states (hext.states h))
      (fun r hr hlt hnot => ⟨fun hmem => ?_, hext.heap r hlt⟩) fun r hr =>
        hG.out r (List.mem_append_right _ hr)
    rcases List.mem_append.1 hmem with hmem | hmem
    · exact (m1.out r hmem).1.not_ge hr
    · exact hnot hmem

end Steps

end SmlNj.RegExp.ThompsonEngine
