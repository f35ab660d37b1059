import SmlNj.Library.ThompsonFragment

/-!
# What the compilation of Thompson's engine makes

The language of a compiled expression.  The fragment of a bounded interval does not allow for one
iteration less than the greatest number, except for an optional expression.

## Main definitions

* `compiledCounts` — how often an interval may be iterated after its compilation.
* `RE.WellFormed` — what holds of the compiled automata.

## Main results

* `compiles_interval`, `compiles_reComp` — the compilation of an expression.
* `compile_accepts` — the words that are accepted from the start state of a compiled expression.
-/

namespace SmlNj.RegExp.ThompsonEngine

open NfaFragment

variable {σ σ₁ σ₂ σ₃ σ' : Compiler} {f : Frag}

section Steps

variable {c : M Frag} {L : Language Char}

/-! ### Intervals -/

/-- The words that are made up of a number of words in a set of numbers. -/
def iterate (L : Language Char) (S : Set ℕ) : Language Char := {w | ∃ i ∈ S, w ∈ L ^ i}

theorem iterate_congr {S S' : Set ℕ} (h : ∀ i, i ∈ S ↔ i ∈ S') : iterate L S = iterate L S' := by
  rw [Set.ext h]

theorem iterate_univ (L : Language Char) : iterate L Set.univ = KStar.kstar L := by
  ext w
  rw [Language.kstar_eq_iSup_pow, Language.mem_iSup]
  exact ⟨fun ⟨i, _, hi⟩ => ⟨i, hi⟩, fun ⟨i, hi⟩ => ⟨i, trivial, hi⟩⟩

theorem iterate_singleton (L : Language Char) (n : ℕ) : iterate L {n} = L ^ n := by
  ext w
  exact ⟨fun ⟨i, hi, hw⟩ => hi ▸ hw, fun hw => ⟨n, rfl, hw⟩⟩

theorem pow_mul_iterate (L : Language Char) (n : ℕ) (S : Set ℕ) :
    L ^ n * iterate L S = iterate L {j | ∃ i ∈ S, j = n + i} := by
  ext w
  constructor
  · rintro ⟨u, hu, v, ⟨i, hi, hv⟩, rfl⟩
    exact ⟨n + i, ⟨i, hi, rfl⟩, pow_add L n i ▸ Language.append_mem_mul hu hv⟩
  · rintro ⟨_, ⟨i, hi, rfl⟩, hw⟩
    rw [pow_add] at hw
    obtain ⟨u, hu, v, hv, rfl⟩ := Language.mem_mul.1 hw
    exact ⟨u, hu, v, ⟨i, hi, hv⟩, rfl⟩

theorem one_add_iterate (L : Language Char) (S : Set ℕ) :
    1 + iterate L S = iterate L {j | j = 0 ∨ j ∈ S} := by
  ext w
  constructor
  · rintro (hw | ⟨i, hi, hw⟩)
    · exact ⟨0, .inl rfl, hw⟩
    · exact ⟨i, .inr hi, hw⟩
  · rintro ⟨i, rfl | hi, hw⟩
    · exact .inl hw
    · exact .inr ⟨i, hi, hw⟩

/-- How often a suffix of a length may be iterated: not once less than its length. -/
def suffixCounts (k : ℕ) : Set ℕ := {i | i ≤ k ∧ i + 1 ≠ k}

/-- The suffix of an interval with an upper bound. -/
theorem compiles_mkSuffix (h : Compiles nothing c L) (out k : ℕ) :
    Compiles (fun r => r = out) (mkSuffix c out (k + 1)) (iterate L (suffixCounts (k + 1))) := by
  induction k with
  | zero =>
    intro σ hσ hgiven f σ' hc
    have m := h.makes hσ hc
    have hL : iterate L (suffixCounts 1) = L := by
      have hS : suffixCounts 1 = {1} := by
        ext i
        simp only [suffixCounts, Set.mem_ofPred_eq, Set.mem_singleton_iff]
        omega
      rw [hS, iterate_singleton, pow_one]
    refine ⟨m.valid, m.ext, m.start_lt, fun r hr => ⟨(m.out r hr).1, .inr (m.out_ge hr)⟩, ?_⟩
    rw [hL]
    exact m.denotes
  | succ k ih =>
    intro σ hσ hgiven f' σ' hc
    obtain ⟨f, σ₁, h0, hc⟩ := bind_eq_some.1 hc
    obtain ⟨f₂, σ₂, h1, hc⟩ := bind_eq_some.1 hc
    obtain ⟨r, σ₃, h2, hc⟩ := bind_eq_some.1 hc
    obtain ⟨s, σ₄, h3, hc⟩ := bind_eq_some.1 hc
    obtain ⟨_, σ₅, h4, hc⟩ := bind_eq_some.1 hc
    obtain ⟨rfl, rfl⟩ := pure_eq hc
    obtain ⟨rfl, rfl⟩ := ref_eq h2
    obtain ⟨rfl, rfl⟩ := new_eq h3
    obtain rfl := setOuts_eq h4
    have m := h.makes hσ h0
    have hgiven₁ : ∀ r, r = out → r < σ₁.heap.length :=
      fun r hr => (hgiven r hr).trans_le m.ext.length_le
    have m₂ := ih σ₁ m.valid hgiven₁ f₂ σ₂ h1
    have hout := hgiven out rfl
    have hle := m.ext.trans m₂.ext
    have hlen : (σ₂.withRef f.start).heap.length = σ₂.heap.length + 1 := by simp [Compiler.withRef]
    set σ₄ := (σ₂.withRef f.start).withNew (.SPLIT' out σ₂.heap.length) with hσ₄
    have hext : Extends σ₂ σ₄ := (extends_withRef σ₂ f.start).trans (extends_withNew _ _)
    have hlen₄ : σ₄.heap.length = σ₂.heap.length + 1 := hlen
    have hvalid₄ : Valid σ₄ := by
      refine (m₂.valid.withRef (m.start_lt.trans_le m₂.ext.nStates_le)).withNew trivial fun r hr => ?_
      have := hle.length_le
      simp only [Kind'.refs, List.mem_cons, List.not_mem_nil, or_false] at hr
      omega
    have hset : ∀ r, (σ₄.withOuts f.out f₂.start).heap[r]? =
        if r ∈ f.out ∧ r < σ₄.heap.length then some f₂.start else σ₄.heap[r]? :=
      fun r => getElem?_foldl_set _ _ _ r
    -- the outputs of the first iteration are not among those of the others
    have hdisj : ∀ r, σ.heap.length ≤ r → r < σ₁.heap.length → r ∉ out :: f₂.out := by
      intro r hr hlt hmem
      rcases List.mem_cons.1 hmem with rfl | hmem
      · exact hout.not_ge hr
      · rcases (m₂.out r hmem).2 with rfl | hge
        · exact hout.not_ge hr
        · exact hlt.not_ge hge
    refine ⟨hvalid₄.withOuts (m₂.start_lt.trans_le hext.nStates_le) f.out,
      (hle.trans hext).withOuts (fun r hr => m.out_ge hr) f₂.start, Nat.lt_succ_self _,
      fun r hr => ?_, fun G H T hG => ?_⟩
    · rw [Compiler.withOuts, length_foldl_set]
      have := hle.length_le
      rcases List.mem_cons.1 hr with rfl | hr
      · exact ⟨by omega, .inl rfl⟩
      · have hlt := (m₂.out r hr).1
        exact ⟨by omega, (m₂.out r hr).2.imp_right m.ext.length_le.trans⟩
    have hs : G σ₂.nStates = some (.split T f.start.id) := by
      rw [hG.states ⟨σ₂.nStates, .SPLIT' out σ₂.heap.length⟩ List.mem_cons_self hle.nStates_le, node,
        hG.out out List.mem_cons_self, hG.heap σ₂.heap.length f.start hle.length_le]
      · intro hmem
        rcases List.mem_cons.1 hmem with heq | hmem
        · have := hle.length_le
          omega
        · exact absurd (m₂.out _ hmem).1 (lt_irrefl _)
      · rw [hset, if_neg fun hcon => absurd (m.out _ hcon.1).1 m₂.ext.length_le.not_gt, hσ₄]
        simp [Compiler.withNew, Compiler.withRef]
    have d₂ : Denotes G f₂.start.id T (iterate L (suffixCounts (k + 1))) := by
      refine m₂.denotes G H T (hG.part m.ext hext.states (fun r hr hlt hnot => ⟨?_, ?_⟩)
        fun r hr => hG.out r (List.mem_cons_of_mem _ hr))
      · intro hmem
        rcases List.mem_cons.1 hmem with rfl | hmem
        · exact (hout.trans_le m.ext.length_le).not_ge hr
        · exact hnot hmem
      · rw [hset, if_neg fun hcon => (m.out r hcon.1).1.not_ge hr, hext.heap r hlt]
    have d : Denotes G f.start.id f₂.start.id L := by
      refine m.denotes G H _ (hG.part (.refl σ) (fun _ h => hext.states (m₂.ext.states h))
        (fun r hr hlt hnot => ⟨hdisj r hr hlt, ?_⟩) fun r hr => ?_)
      · rw [hset, if_neg fun hcon => hnot hcon.1,
          hext.heap r (hlt.trans_le m₂.ext.length_le), m₂.ext.heap r hlt]
      · have hlt := (m.out r hr).1
        refine hG.heap r f₂.start (m.out_ge hr) (hdisj r (m.out_ge hr) hlt) ?_
        have := m₂.ext.length_le
        rw [hset, if_pos ⟨hr, by omega⟩]
    have hL : iterate L (suffixCounts (k + 1 + 1)) = 1 + L * iterate L (suffixCounts (k + 1)) := by
      have hmul := pow_mul_iterate L 1 (suffixCounts (k + 1))
      rw [pow_one] at hmul
      rw [hmul, one_add_iterate]
      refine iterate_congr fun i => ?_
      simp only [suffixCounts, Set.mem_ofPred_eq]
      constructor
      · rintro ⟨hi, hi'⟩
        rcases i with _ | i
        · exact .inl rfl
        · exact .inr ⟨i, ⟨by omega, by omega⟩, by omega⟩
      · rintro (rfl | ⟨j, ⟨hj, hj'⟩, rfl⟩)
        · omega
        · omega
    rw [hL]
    exact .option' hs (d.mul d₂)

/-- Iterations before a suffix that has been made before them. -/
structure Precedes (suffix : Frag) (Ls L : Language Char) (σ σ' : Compiler) (f : Frag) :
    Prop where
  /-- The state of the compilation stays valid. -/
  valid : Valid σ'
  ext : Extends σ σ'
  start_lt : f.start.id < σ'.nStates
  /-- The outputs are those of the suffix. -/
  out : f.out = suffix.out
  denotes : ∀ G H T, Agrees G H σ σ' [] T → Denotes G suffix.start.id T Ls →
    Denotes G f.start.id T L

theorem mkPrefix_some_succ (c : M Frag) (suffix : Frag) (i : ℕ) :
    mkPrefix c (some suffix) (i + 1) = cat c (mkPrefix c (some suffix) i) := by
  cases i with
  | zero => rfl
  | succ i => rfl

/-- The iterations before a suffix. -/
theorem precedes_mkPrefix (h : Compiles nothing c L) (Ls : Language Char) {suffix : Frag} (i : ℕ) :
    ∀ {σ f σ'}, Valid σ → suffix.start.id < σ.nStates →
      mkPrefix c (some suffix) i σ = some (f, σ') → Precedes suffix Ls (L ^ i * Ls) σ σ' f := by
  induction i with
  | zero =>
    intro σ f σ' hσ hstart hc
    obtain ⟨rfl, rfl⟩ := pure_eq hc
    refine ⟨hσ, .refl _, hstart, rfl, fun G H T _ hd => ?_⟩
    rwa [pow_zero, one_mul]
  | succ i ih =>
    intro σ f σ' hσ hstart hc
    rw [mkPrefix_some_succ] at hc
    obtain ⟨f1, σ₁, hc1, hc⟩ := bind_eq_some.1 hc
    obtain ⟨f2, σ₂, hc2, hc⟩ := bind_eq_some.1 hc
    obtain ⟨_, σ₃, h3, hc⟩ := bind_eq_some.1 hc
    obtain rfl := setOuts_eq h3
    obtain ⟨rfl, rfl⟩ := pure_eq hc
    have m1 := h.makes hσ hc1
    have m2 := ih m1.valid (hstart.trans_le m1.ext.nStates_le) hc2
    have hset : ∀ r, (σ₂.withOuts f1.out f2.start).heap[r]? =
        if r ∈ f1.out ∧ r < σ₂.heap.length then some f2.start else σ₂.heap[r]? :=
      fun r => getElem?_foldl_set _ _ _ r
    refine ⟨m2.valid.withOuts m2.start_lt f1.out,
      (m1.ext.trans m2.ext).withOuts (fun r hr => m1.out_ge hr) f2.start,
      m1.start_lt.trans_le m2.ext.nStates_le, m2.out, fun G H T hG hd => ?_⟩
    have d2 : Denotes G f2.start.id T (L ^ i * Ls) := by
      refine m2.denotes G H T (hG.part m1.ext (fun _ h => h) (fun r hr _ hnot => ⟨hnot, ?_⟩)
        hG.out) hd
      rw [hset, if_neg fun hcon => (m1.out r hcon.1).1.not_ge hr]
    have d1 : Denotes G f1.start.id f2.start.id L := by
      refine m1.denotes G H _ (hG.part (.refl σ) m2.ext.states
        (fun r hr hlt hnot => ⟨List.not_mem_nil, ?_⟩) fun r hr => ?_)
      · rw [hset, if_neg fun hcon => hnot hcon.1, m2.ext.heap r hlt]
      · have hlt := (m1.out r hr).1
        refine hG.heap r f2.start (m1.out_ge hr) List.not_mem_nil ?_
        rw [hset, if_pos ⟨hr, hlt.trans_le m2.ext.length_le⟩]
    rw [pow_succ', mul_assoc]
    exact d1.mul d2

theorem makes_mkPrefix (h : Compiles nothing c L) {Ls : Language Char} {suffix : Frag} {i : ℕ}
    (m : Makes nothing Ls σ σ₁ suffix) (hc : mkPrefix c (some suffix) i σ₁ = some (f, σ')) :
    Makes nothing (L ^ i * Ls) σ σ' f := by
  have p := precedes_mkPrefix h Ls i m.valid m.start_lt hc
  refine ⟨p.valid, m.ext.trans p.ext, p.start_lt, fun r hr => ?_, fun G H T hG => ?_⟩
  · rw [p.out] at hr
    exact ⟨(m.out r hr).1.trans_le p.ext.length_le, (m.out r hr).2⟩
  rw [p.out] at hG
  refine p.denotes G H T ?_ (m.denotes G H T ?_)
  · refine hG.part m.ext (fun _ h => h) (fun r hr _ _ => ⟨fun hmem => ?_, rfl⟩)
      fun r hr => absurd hr List.not_mem_nil
    exact (m.out r hmem).1.not_ge hr
  · exact hG.part (.refl σ) p.ext.states (fun r hr hlt hnot => ⟨hnot, p.ext.heap r hlt⟩) hG.out

theorem compiles_mkPrefix_none (h : Compiles nothing c L) (i : ℕ) :
    Compiles nothing (mkPrefix c none (i + 1)) (L ^ (i + 1)) := by
  induction i with
  | zero =>
    have hc : mkPrefix c none 1 = c := bind_pure c
    rwa [hc, pow_one]
  | succ i ih =>
    rw [pow_succ']
    exact compiles_cat h ih

/-- **How often an interval may be iterated after its compilation**: not once less than the greatest
number, if there is one that is greater than the least number, except for an optional expression. -/
def compiledCounts (min : ℕ) : Option ℕ → Set ℕ
  | none => {i | min ≤ i}
  | some max => {i | min ≤ i ∧ i ≤ max ∧ (i + 1 = max → min = 0 ∧ max = 1)}

theorem compiledCounts_subset (min : ℕ) (max : Option ℕ) :
    compiledCounts min max ⊆ withinBounds min max := by
  rcases max with _ | max
  · exact fun _ h => h
  · exact fun _ h => ⟨h.1, h.2.1⟩

/-- The suffix of an interval: the iterations after the least number. -/
theorem makes_suffixOpt (h : Compiles nothing c L) {min : ℕ} {max : Option ℕ} (hσ : Valid σ)
    {suffix : Frag} (hc : suffixOpt c min max σ = some (some suffix, σ')) :
    ∃ S, Makes nothing (iterate L S) σ σ' suffix ∧
      match max with
      | none => S = Set.univ
      | some max => min < max ∧ S = suffixCounts (max - min) := by
  rcases max with _ | max
  · obtain ⟨f, σ₁, h1, hc⟩ := bind_eq_some.1 hc
    obtain ⟨hf, rfl⟩ := pure_eq hc
    obtain rfl := Option.some.inj hf
    refine ⟨Set.univ, ?_, rfl⟩
    rw [iterate_univ]
    exact (compiles_closure h).makes hσ h1
  · rw [suffixOpt] at hc
    split_ifs at hc with hlt heq
    · cases hc
    · exact absurd (pure_eq hc).1 (by simp)
    · obtain ⟨out, σ₁, h1, hc⟩ := bind_eq_some.1 hc
      obtain ⟨f, σ₂, h2, hc⟩ := bind_eq_some.1 hc
      obtain ⟨hf, rfl⟩ := pure_eq hc
      obtain rfl := Option.some.inj hf
      obtain ⟨rfl, rfl⟩ := ref_eq h1
      refine ⟨suffixCounts (max - min), ?_, by omega, rfl⟩
      obtain ⟨k, hk⟩ : ∃ k, max - min = k + 1 := ⟨max - min - 1, by omega⟩
      rw [hk] at h2 ⊢
      have hlen : (σ.withRef final).heap.length = σ.heap.length + 1 := by simp [Compiler.withRef]
      have hgiven : ∀ r, r = σ.heap.length → r < (σ.withRef final).heap.length := by omega
      have m := compiles_mkSuffix h σ.heap.length k _ (hσ.withRef hσ.pos) hgiven _ _ h2
      have hext := extends_withRef σ final
      refine ⟨m.valid, hext.trans m.ext, m.start_lt, fun r hr => ⟨(m.out r hr).1, .inr ?_⟩,
        fun G H T hG => m.denotes G H T ?_⟩
      · rcases (m.out r hr).2 with rfl | hge
        · exact le_rfl
        · exact hext.length_le.trans hge
      · exact hG.part hext (fun _ h => h) (fun r _ _ hnot => ⟨hnot, rfl⟩) hG.out

theorem suffixOpt_none {min : ℕ} {max : Option ℕ} (hc : suffixOpt c min max σ = some (none, σ')) :
    max = some min ∧ σ' = σ := by
  rcases max with _ | max
  · obtain ⟨f, σ₁, -, hc⟩ := bind_eq_some.1 hc
    exact absurd (pure_eq hc).1 (by simp)
  · rw [suffixOpt] at hc
    split_ifs at hc with hlt heq
    · cases hc
    · exact ⟨congrArg some heq, (pure_eq hc).2⟩
    · obtain ⟨out, σ₁, -, hc⟩ := bind_eq_some.1 hc
      obtain ⟨f, σ₂, -, hc⟩ := bind_eq_some.1 hc
      exact absurd (pure_eq hc).1 (by simp)

theorem compiles_mkPrefix (h : Compiles nothing c L) (min : ℕ) (max : Option ℕ)
    (hopt : ¬(min = 0 ∧ max = some 1)) :
    Compiles nothing (do mkPrefix c (← suffixOpt c min max) min)
      (iterate L (compiledCounts min max)) := by
  intro σ hσ _ f σ' hc
  obtain ⟨suffix, σ₁, h1, h2⟩ := bind_eq_some.1 hc
  rcases suffix with _ | suffix
  · obtain ⟨rfl, rfl⟩ := suffixOpt_none h1
    rcases min with _ | i
    · cases h2
    · have hS : compiledCounts (i + 1) (some (i + 1)) = {i + 1} := by
        ext j
        simp only [compiledCounts, Set.mem_ofPred_eq, Set.mem_singleton_iff]
        omega
      rw [hS, iterate_singleton]
      exact (compiles_mkPrefix_none h i).makes hσ h2
  · obtain ⟨S, m, hS⟩ := makes_suffixOpt h hσ h1
    have hcounts : {j | ∃ i ∈ S, j = min + i} = compiledCounts min max := by
      ext j
      rcases max with _ | max
      · obtain rfl := hS
        simp only [compiledCounts, Set.mem_ofPred_eq, Set.mem_univ, true_and]
        exact ⟨fun ⟨i, hi⟩ => by omega, fun hj => ⟨j - min, by omega⟩⟩
      · obtain ⟨hlt, rfl⟩ := hS
        simp only [Option.some.injEq] at hopt
        simp only [compiledCounts, suffixCounts, Set.mem_ofPred_eq]
        exact ⟨fun ⟨i, hi, hj⟩ => by omega, fun hj => ⟨j - min, by omega, by omega⟩⟩
    have hmakes := makes_mkPrefix h m h2
    rwa [pow_mul_iterate, hcounts] at hmakes

/-- **The compilation of an interval**. -/
theorem compiles_interval (h : Compiles nothing c L) (min : ℕ) (max : Option ℕ) :
    Compiles nothing (interval c min max) (iterate L (compiledCounts min max)) := by
  unfold interval
  split
  case h_1 =>
    have hL : iterate L (compiledCounts 0 (some 1)) = L + 1 := by
      have hS : ∀ i, i ∈ compiledCounts 0 (some 1) ↔ i ∈ {j | j = 0 ∨ j ∈ ({1} : Set ℕ)} := by
        simp only [compiledCounts, Set.mem_ofPred_eq, Set.mem_singleton_iff,
          imp_true_iff, and_true]
        omega
      rw [iterate_congr hS, ← one_add_iterate, iterate_singleton, pow_one, add_comm]
    rw [hL]
    exact compiles_option h
  case h_2 =>
    have hS : compiledCounts 0 none = Set.univ := by
      simp [compiledCounts]
    rw [hS, iterate_univ]
    exact compiles_closure h
  case h_3 =>
    have hmul := pow_mul_iterate L 1 Set.univ
    rw [pow_one, iterate_univ] at hmul
    have hS : compiledCounts 1 none = {j | ∃ i ∈ Set.univ, j = 1 + i} := by
      ext i
      simp only [compiledCounts, Set.mem_ofPred_eq, Set.mem_univ, true_and]
      exact ⟨fun hi => ⟨i - 1, by omega⟩, fun ⟨j, hj⟩ => by omega⟩
    rw [hS, ← hmul]
    exact compiles_posClosure h
  case h_4 hopt _ _ =>
    exact compiles_mkPrefix h min max fun ⟨hmin, hmax⟩ => hopt hmin hmax

end Steps

mutual

/-- **The compilation of an expression without anchors**. -/
theorem compiles_reComp : ∀ re, anchorFree re →
    Compiles nothing (reComp re) (langWith compiledCounts re)
  | .Group re, h => by
    rw [reComp, langWith]
    exact compiles_reComp re h
  | .Alt l, h => by
    rw [reComp, langWith]
    exact compiles_altComp l h
  | .Concat l, h => by
    rw [reComp, langWith]
    exact compiles_concatComp l h
  | .Interval re min max, h => by
    rw [reComp, langWith]
    exact compiles_interval (compiles_reComp re h) min max
  | .MatchSet set, _ => by
    rw [reComp, langWith]
    exact compiles_single (fun _ => rfl) (fun _ => trivial) fun _ _ => rfl
  | .NonmatchSet set, _ => by
    rw [reComp, langWith]
    exact compiles_single (fun _ => rfl) (fun _ => trivial) fun _ _ => rfl
  | .Char c, _ => by
    have hL : ({[c]} : Language Char) = {w | ∃ x ∈ ({c} : Set Char), w = [x]} := by
      ext w
      exact ⟨fun hw => ⟨c, rfl, hw⟩, fun ⟨x, hx, hw⟩ => hx ▸ hw⟩
    rw [reComp, langWith, hL]
    exact compiles_single (fun _ => rfl) (fun _ => trivial) fun _ _ => rfl
  | .Begin, h => h.elim
  | .End, h => h.elim

theorem compiles_altComp : ∀ l, anchorFreeList l →
    Compiles nothing (altComp l) (langAlt compiledCounts l)
  | [], _ => by
    intro σ _ _ f σ' hc
    cases hc
  | [re], h => by
    rw [altComp, langAlt, langAlt, add_zero]
    exact compiles_reComp re h.1
  | re :: re' :: l, h => by
    rw [altComp, langAlt]
    · exact compiles_alt (compiles_reComp re h.1) (compiles_altComp (re' :: l) h.2)
    · simp

theorem compiles_concatComp : ∀ l, anchorFreeList l →
    Compiles nothing (concatComp l) (langConcat compiledCounts l)
  | [], _ => by
    intro σ _ _ f σ' hc
    cases hc
  | [re], h => by
    rw [concatComp, langConcat, langConcat, mul_one]
    exact compiles_reComp re h.1
  | re :: re' :: l, h => by
    rw [concatComp, langConcat]
    · exact compiles_cat (compiles_reComp re h.1) (compiles_concatComp (re' :: l) h.2)
    · simp

end

/-! ### Automata -/

/-- What a state of an automaton does; anchors do nothing. -/
def State.node : State → Option (Node Char ℕ)
  | .CHR c out => some (.read {c} out)
  | .CSET cset out => some (.read {c | c ∈ cset} out)
  | .NCSET cset out => some (.read {c | c ∉ cset} out)
  | .SPLIT out1 out2 => some (.split out1 out2)
  | .BOL _ => none
  | .EOL _ => none
  | .FINAL => some .stop

/-- The states that a state leads to. -/
def State.outs : State → List ℕ
  | .CHR _ out => [out]
  | .CSET _ out => [out]
  | .NCSET _ out => [out]
  | .SPLIT out1 out2 => [out1, out2]
  | .BOL out => [out]
  | .EOL out => [out]
  | .FINAL => []

def RE.graph (nfa : RE) (id : ℕ) : Option (Node Char ℕ) := nfa.states[id]?.bind State.node

/-- **An automaton is well formed**: its states lead to states that there are, none is an anchor,
and the first one is the accepting state. -/
structure RE.WellFormed (nfa : RE) : Prop where
  start_lt : nfa.start < nfa.states.length
  outs_lt : ∀ s ∈ nfa.states, ∀ id ∈ s.outs, id < nfa.states.length
  anchor : ∀ s ∈ nfa.states, s.node.isSome
  final : ∀ id < nfa.states.length, nfa.states[id]? = some .FINAL ↔ id = 0

theorem node_cvtState (heap : List State') (s : State') :
    (cvtState heap s).node = node (deref heap) s.kind := by
  rcases s with ⟨id, _ | _ | _ | _ | _ | _ | _⟩ <;> rfl

theorem outs_cvtState (heap : List State') (s : State') :
    (cvtState heap s).outs = s.kind.refs.map (deref heap) := by
  rcases s with ⟨id, _ | _ | _ | _ | _ | _ | _⟩ <;> rfl

theorem Valid.deref_lt (h : Valid σ) (r : ℕ) : deref σ.heap r < σ.nStates := by
  rw [deref, List.getD_eq_getElem?_getD]
  rcases hr : σ.heap[r]? with _ | s
  · exact h.pos
  · exact h.heap s (List.mem_of_getElem? hr)

theorem Valid.getElem?_reverse (h : Valid σ) {id : ℕ} (s : State') :
    σ.states.reverse[id]? = some s ↔ s ∈ σ.states ∧ s.id = id := by
  have hids : σ.states.reverse.map State'.id = List.range σ.nStates := by
    rw [List.map_reverse, h.ids, List.reverse_reverse]
  have hid : ∀ k (s : State'), σ.states.reverse[k]? = some s → s.id = k := by
    intro k s hs
    have hk : (σ.states.reverse.map State'.id)[k]? = some s.id := by rw [List.getElem?_map, hs]; rfl
    rw [hids] at hk
    obtain ⟨hlt, heq⟩ := List.getElem?_eq_some_iff.1 hk
    rw [← heq, List.getElem_range]
  constructor
  · intro hs
    exact ⟨List.mem_reverse.1 (List.mem_of_getElem? hs), hid id s hs⟩
  · rintro ⟨hs, rfl⟩
    obtain ⟨k, hk⟩ := List.mem_iff_getElem?.1 (List.mem_reverse.2 hs)
    rwa [hid k s hk]

def Compiler.automaton (σ : Compiler) (start : ℕ) : RE :=
  { start := start, states := (σ.states.map (cvtState σ.heap)).reverse }

theorem Valid.automaton_state (h : Valid σ) {start id : ℕ} {s : State} :
    (σ.automaton start).states[id]? = some s ↔
      ∃ s' ∈ σ.states, s'.id = id ∧ cvtState σ.heap s' = s := by
  rw [Compiler.automaton, ← List.map_reverse, List.getElem?_map, Option.map_eq_some_iff]
  constructor
  · rintro ⟨s', hs', rfl⟩
    obtain ⟨hmem, hid⟩ := (h.getElem?_reverse s').1 hs'
    exact ⟨s', hmem, hid, rfl⟩
  · rintro ⟨s', hmem, hid, rfl⟩
    exact ⟨s', (h.getElem?_reverse s').2 ⟨hmem, hid⟩, rfl⟩

theorem Valid.length_automaton (h : Valid σ) (start : ℕ) :
    (σ.automaton start).states.length = σ.nStates := by
  have hlen := congrArg List.length h.ids
  rw [List.length_map, List.length_reverse, List.length_range] at hlen
  rw [Compiler.automaton, List.length_reverse, List.length_map, hlen]

theorem Valid.wellFormed (h : Valid σ) {start : ℕ} (hstart : start < σ.nStates) :
    (σ.automaton start).WellFormed := by
  have hmem : ∀ s ∈ (σ.automaton start).states, ∃ s' ∈ σ.states, cvtState σ.heap s' = s := by
    intro s hs
    obtain ⟨id, hid⟩ := List.mem_iff_getElem?.1 hs
    obtain ⟨s', hs', -, rfl⟩ := h.automaton_state.1 hid
    exact ⟨s', hs', rfl⟩
  refine ⟨?_, fun s hs id hid => ?_, fun s hs => ?_, fun id _ => ?_⟩
  · rwa [h.length_automaton]
  · obtain ⟨s', -, rfl⟩ := hmem s hs
    rw [outs_cvtState] at hid
    obtain ⟨r, -, rfl⟩ := List.mem_map.1 hid
    rw [h.length_automaton]
    exact h.deref_lt r
  · obtain ⟨s', hs', rfl⟩ := hmem s hs
    rcases h.plain s' hs' with rfl | hplain
    · rfl
    · rcases s' with ⟨id, _ | _ | _ | _ | _ | _ | _⟩ <;> first | rfl | exact hplain.elim
  · rw [h.automaton_state]
    constructor
    · rintro ⟨s', hs', rfl, heq⟩
      rcases h.plain s' hs' with rfl | hplain
      · rfl
      · rcases s' with ⟨id, _ | _ | _ | _ | _ | _ | _⟩ <;>
          first | exact hplain.elim | exact absurd heq (by simp [cvtState])
    · rintro rfl
      exact ⟨final, h.final_mem, rfl, rfl⟩

theorem valid_init : Valid .init := by
  refine ⟨Nat.one_pos, List.mem_singleton_self _, fun s hs => .inl (List.mem_singleton.1 hs), rfl,
    fun s hs => absurd hs List.not_mem_nil, fun s hs r hr => ?_⟩
  rw [List.mem_singleton.1 hs] at hr
  exact absurd hr List.not_mem_nil

/-- **The compiled automaton**: it is well formed, and the words that it accepts from its start
state are those of the expression, with the numbers of iterations that the compilation allows. -/
theorem compile_accepts {re : Syntax} (h : anchorFree re) {nfa : RE} (hc : compile re = some nfa) :
    nfa.WellFormed ∧
      ∀ w, (∃ n, Accepts nfa.graph n nfa.start w) ↔ w ∈ langWith compiledCounts re := by
  obtain ⟨⟨frag, σ⟩, h1, hc⟩ := Option.bind_eq_some_iff.1 hc
  obtain rfl : (σ.withOuts frag.out final).automaton frag.start.id = nfa := Option.some.inj hc
  have m := (compiles_reComp re h).makes valid_init h1
  set σ' := σ.withOuts frag.out final with hσ'
  have hvalid : Valid σ' := m.valid.withOuts m.valid.pos frag.out
  have hgraph : ∀ s ∈ σ.states, (σ'.automaton frag.start.id).graph s.id =
      node (deref σ'.heap) s.kind := by
    intro s hs
    rw [RE.graph, hvalid.automaton_state.2 ⟨s, hs, rfl, rfl⟩, Option.bind_some, node_cvtState]
  refine ⟨hvalid.wellFormed m.start_lt, ?_⟩
  have hset : ∀ r, σ'.heap[r]? = if r ∈ frag.out ∧ r < σ.heap.length then some final
      else σ.heap[r]? := fun r => getElem?_foldl_set _ _ _ r
  have d := m.denotes (σ'.automaton frag.start.id).graph (deref σ'.heap) 0
    ⟨fun s hs _ => hgraph s hs, fun r s _ hr hs => ?_, fun r hr => ?_⟩
  · exact d.accepts_iff (hgraph final m.valid.final_mem)
  · rw [deref, List.getD_eq_getElem?_getD, hset, if_neg fun hcon => hr hcon.1, hs]
    rfl
  · rw [deref, List.getD_eq_getElem?_getD, hset, if_pos ⟨hr, (m.out r hr).1⟩]
    rfl

end SmlNj.RegExp.ThompsonEngine
