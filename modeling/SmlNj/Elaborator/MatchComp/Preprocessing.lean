import SmlNj.Elaborator.MatchComp.Absyn

/-!
# Preprocessing: the expansion of or-patterns

A rule whose pattern has alternatives becomes as many rules as there are ways to
choose among these, in order, and a table leads from their numbers back to that of
the rule.

## Main definitions

* `orExpand` — the alternatives of a pattern.
* `expandPats` — the rules after expansion; `ruleMap` leads back.
* `PlainPat` — a pattern without alternatives and marks.

## Main results

* `exists_accepts_orExpand` — a pattern accepts what one of its alternatives accepts.
* `expandPats_eq`, `expandPats_getElem`, `exists_ruleMap` — the rules after expansion, and back.
-/

namespace SmlNj.MatchComp

/-- All ways to put one of `hds` before one of `tls`. -/
def allConses {α : Type} (hds : List α) (tls : List (List α)) : List (List α) :=
  (hds.map fun hd => tls.map fun tl => hd :: tl).flatten

mutual

/-- **The alternatives of a pattern.** -/
@[grind =] def orExpand : Pat → List Pat
  | .or pat1 pat2 => orExpand pat1 ++ orExpand pat2
  | .record fields => (orExpandAll fields).map .record
  | .vector pats => (orExpandAll pats).map .vector
  | .app k pat => (orExpand pat).map (.app k)
  | .constraint pat => orExpand pat
  | .layered lpat bpat => (orExpand bpat).map (.layered (stripConstraints lpat))
  | pat => [pat]

def orExpandAll : List Pat → List (List Pat)
  | [] => [[]]
  | p :: ps => allConses (orExpand p) (orExpandAll ps)

end

attribute [simp] orExpand orExpandAll

/-- The state of the expansion: the next numbers of an expanded and of an original rule, the table
(number of the first expanded rule, number of the original rule, number of its alternatives) and
the expanded patterns of each rule, both in reverse. -/
structure Expansion where
  expandedRuleno : ℕ
  originalRuleno : ℕ
  ruleTable : List (ℕ × ℕ × ℕ)
  patss : List (List Pat)

def processRule (st : Expansion) (rule : Pat) : Expansion :=
  let ramifiedPats := orExpand (stripPatMarks rule)
  let expandSize := ramifiedPats.length
  { expandedRuleno := st.expandedRuleno + expandSize
    originalRuleno := st.originalRuleno + 1
    ruleTable := (st.expandedRuleno, st.originalRuleno, expandSize) :: st.ruleTable
    patss := ramifiedPats :: st.patss }

/-- **The expansion of the rules**: how many they are, their patterns, and the table. -/
def expandPats (rules : List Pat) : ℕ × List Pat × List (ℕ × ℕ × ℕ) :=
  let st := rules.foldl processRule ⟨0, 0, [], []⟩
  (st.expandedRuleno, st.patss.reverse.flatten, st.ruleTable.reverse)

def ruleMap : List (ℕ × ℕ × ℕ) → ℕ → Except Exn ℕ
  | [], _ => .error .impossible
  | (exr, orr, sz) :: rest, r => if r ≥ exr ∧ r < exr + sz then .ok orr else ruleMap rest r

/-! ### The alternatives of a pattern -/

section Alternatives

theorem mem_allConses {α : Type} {hds : List α} {tls : List (List α)} {l : List α} :
    l ∈ allConses hds tls ↔ ∃ hd ∈ hds, ∃ tl ∈ tls, l = hd :: tl := by
  simp only [allConses, List.mem_flatten, List.mem_map]
  constructor
  · rintro ⟨_, ⟨hd, hhd, rfl⟩, hl⟩
    obtain ⟨tl, htl, rfl⟩ := List.mem_map.mp hl
    exact ⟨hd, hhd, tl, htl, rfl⟩
  · rintro ⟨hd, hhd, tl, htl, rfl⟩
    exact ⟨_, ⟨hd, hhd, rfl⟩, List.mem_map_of_mem htl⟩

mutual

/-- Is a pattern without alternatives and marks? -/
@[grind =] def PlainPat : Pat → Prop
  | .record ps | .vector ps => PlainPats ps
  | .app _ p => PlainPat p
  | .layered l b => (∃ v, l = .var v) ∧ PlainPat b
  | .or _ _ | .mark _ | .constraint _ => False
  | _ => True

def PlainPats : List Pat → Prop
  | [] => True
  | p :: ps => PlainPat p ∧ PlainPats ps

end

attribute [simp] PlainPat PlainPats

theorem stripConstraints_of_isVar : ∀ {p : Pat}, isVar p →
    ∃ v, stripConstraints (stripPatMarks p) = .var v
  | .var v, _ => ⟨v, by simp⟩
  | .constraint p, h => by
    simpa using stripConstraints_of_isVar (p := p) (by simpa using h)
  | .mark p, h => by
    simpa using stripConstraints_of_isVar (p := p) (by simpa using h)
  | .wild, h | .num _ _, h | .string _, h | .char _, h | .con _, h | .record _, h
  | .app _ _, h | .layered _ _, h | .or _ _, h | .vector _, h => by simp at h

theorem accepts_of_isVar : ∀ {p : Pat} (v : Value), isVar p → accepts p v
  | .var _, _, _ => by simp
  | .constraint p, v, h => by simpa using accepts_of_isVar (p := p) v (by simpa using h)
  | .mark p, v, h => by simpa using accepts_of_isVar (p := p) v (by simpa using h)
  | .wild, _, h | .num _ _, _, h | .string _, _, h | .char _, _, h | .con _, _, h
  | .record _, _, h | .app _ _, _, h | .layered _ _, _, h | .or _ _, _, h
  | .vector _, _, h => by simp at h

variable {T : Type} {E : TypeEnv T}

mutual

/-- The alternatives of a pattern are plain and of its type. -/
theorem patTy_orExpand : ∀ {p : Pat} {t : T}, PatTy E p t →
    ∀ q ∈ orExpand (stripPatMarks p), PlainPat q ∧ PatTy E q t
  | .wild, _, _, q, hq | .var _, _, _, q, hq => by
    obtain rfl : q = _ := by simpa using hq
    simp
  | .num _ _, _, h, q, hq | .string _, _, h, q, hq | .char _, _, h, q, hq
  | .con _, _, h, q, hq => by
    obtain rfl : q = _ := by simpa using hq
    exact ⟨by simp, h⟩
  | .record ps, t, h, q, hq => by
    obtain ⟨ts, ht, hps⟩ := by simpa using h
    obtain ⟨qs, hqs, rfl⟩ := by simpa using hq
    obtain ⟨h1, h2⟩ := patTys_orExpandAll hps qs hqs
    exact ⟨by simpa using h1, by simpa using ⟨ts, ht, h2⟩⟩
  | .vector ps, t, h, q, hq => by
    obtain ⟨t', ht, hps⟩ := by simpa using h
    obtain ⟨qs, hqs, rfl⟩ := by simpa using hq
    obtain ⟨h1, h2⟩ := allPatTy_orExpandAll hps qs hqs
    exact ⟨by simpa using h1, by simpa using ⟨t', ht, h2⟩⟩
  | .app k p, t, h, q, hq => by
    obtain ⟨arg, ht, t', harg, hp⟩ := by simpa using h
    obtain ⟨q', hq', rfl⟩ := by simpa using hq
    obtain ⟨h1, h2⟩ := patTy_orExpand hp q' hq'
    exact ⟨by simpa using h1, by simpa using ⟨arg, ht, t', harg, h2⟩⟩
  | .constraint p, t, h, q, hq | .mark p, t, h, q, hq =>
    patTy_orExpand (p := p) (by simpa using h) q (by simpa using hq)
  | .layered l b, t, h, q, hq => by
    obtain ⟨hl, hb⟩ := by simpa using h
    obtain ⟨q', hq', rfl⟩ := by simpa using hq
    obtain ⟨h1, h2⟩ := patTy_orExpand hb q' hq'
    obtain ⟨v, hv⟩ := stripConstraints_of_isVar hl
    rw [hv]
    exact ⟨by simpa using h1, by simpa using h2⟩
  | .or p₁ p₂, t, h, q, hq => by
    obtain ⟨hp₁, hp₂⟩ := by simpa using h
    rw [stripPatMarks, orExpand, List.mem_append] at hq
    rcases hq with hq | hq
    · exact patTy_orExpand hp₁ q hq
    · exact patTy_orExpand hp₂ q hq

theorem patTys_orExpandAll : ∀ {ps : List Pat} {ts : List T}, PatTys E ps ts →
    ∀ qs ∈ orExpandAll (stripPatMarksList ps), PlainPats qs ∧ PatTys E qs ts
  | [], [], _, qs, hqs => by
    obtain rfl : qs = [] := by simpa using hqs
    simp
  | [], _ :: _, h, _, _ | _ :: _, [], h, _, _ => by simp at h
  | p :: ps, t :: ts, h, qs, hqs => by
    obtain ⟨hp, hps⟩ := by simpa using h
    rw [stripPatMarksList, orExpandAll, mem_allConses] at hqs
    obtain ⟨q, hq, qs', hqs', rfl⟩ := hqs
    have h1 := patTy_orExpand hp q hq
    have h2 := patTys_orExpandAll hps qs' hqs'
    exact ⟨⟨h1.1, h2.1⟩, ⟨h1.2, h2.2⟩⟩

theorem allPatTy_orExpandAll : ∀ {ps : List Pat} {t : T}, AllPatTy E ps t →
    ∀ qs ∈ orExpandAll (stripPatMarksList ps), PlainPats qs ∧ AllPatTy E qs t
  | [], _, _, qs, hqs => by
    obtain rfl : qs = [] := by simpa using hqs
    simp
  | p :: ps, t, h, qs, hqs => by
    obtain ⟨hp, hps⟩ := by simpa using h
    rw [stripPatMarksList, orExpandAll, mem_allConses] at hqs
    obtain ⟨q, hq, qs', hqs', rfl⟩ := hqs
    have h1 := patTy_orExpand hp q hq
    have h2 := allPatTy_orExpandAll hps qs' hqs'
    exact ⟨⟨h1.1, h2.1⟩, ⟨h1.2, h2.2⟩⟩

end

mutual

/-- **A pattern accepts what one of its alternatives accepts.** -/
theorem exists_accepts_orExpand : ∀ {p : Pat} {t : T}, PatTy E p t → ∀ v : Value,
    (∃ q ∈ orExpand (stripPatMarks p), accepts q v) ↔ accepts p v
  | .wild, _, _, v | .var _, _, _, v | .num _ _, _, _, v | .string _, _, _, v | .char _, _, _, v
  | .con _, _, _, v => by simp
  | .record ps, t, h, v => by
    obtain ⟨ts, ht, hps⟩ := by simpa using h
    have ih := exists_acceptsAll_orExpandAll (.inl ⟨ts, hps⟩)
    cases v with
    | record vs => simpa using ih vs
    | _ => simp
  | .vector ps, t, h, v => by
    obtain ⟨t', ht, hps⟩ := by simpa using h
    have ih := exists_acceptsAll_orExpandAll (.inr ⟨t', hps⟩)
    cases v with
    | vector vs => simpa using ih vs
    | _ => simp
  | .app k p, t, h, v => by
    obtain ⟨arg, ht, t', harg, hp⟩ := by simpa using h
    cases v with
    | app rep w =>
      have ih := exists_accepts_orExpand hp w
      simp only [stripPatMarks, orExpand, List.mem_map, exists_exists_and_eq_and, accepts,
        Bool.and_eq_true, ← ih]
      exact ⟨fun ⟨q, hq, hk, hw⟩ => ⟨hk, q, hq, hw⟩, fun ⟨hk, q, hq, hw⟩ => ⟨q, hq, hk, hw⟩⟩
    | _ => simp
  | .constraint p, t, h, v | .mark p, t, h, v => by
    simpa using exists_accepts_orExpand (p := p) (by simpa using h) v
  | .layered l b, t, h, v => by
    obtain ⟨hl, hb⟩ := by simpa using h
    obtain ⟨w, hw⟩ := stripConstraints_of_isVar hl
    have ih := exists_accepts_orExpand hb v
    have hacc : accepts l v = true := accepts_of_isVar v hl
    simpa [hw, hacc] using ih
  | .or p₁ p₂, t, h, v => by
    obtain ⟨hp₁, hp₂⟩ := by simpa using h
    have ih₁ := exists_accepts_orExpand hp₁ v
    have ih₂ := exists_accepts_orExpand hp₂ v
    simp only [stripPatMarks, orExpand, List.mem_append, accepts, Bool.or_eq_true, ← ih₁, ← ih₂]
    exact ⟨fun ⟨q, hq, hv⟩ => hq.imp (fun h => ⟨q, h, hv⟩) (fun h => ⟨q, h, hv⟩),
      fun h => h.elim (fun ⟨q, hq, hv⟩ => ⟨q, .inl hq, hv⟩) (fun ⟨q, hq, hv⟩ => ⟨q, .inr hq, hv⟩)⟩

theorem exists_acceptsAll_orExpandAll : ∀ {ps : List Pat},
    ((∃ ts, PatTys E ps ts) ∨ ∃ t, AllPatTy E ps t) → ∀ vs : List Value,
      (∃ qs ∈ orExpandAll (stripPatMarksList ps), acceptsAll qs vs) ↔ acceptsAll ps vs
  | [], _, vs => by simp
  | p :: ps, h, vs => by
    have hp : ∃ t, PatTy E p t := by
      rcases h with ⟨ts, h⟩ | ⟨t, h⟩
      · cases ts with
        | nil => simp at h
        | cons t ts => exact ⟨t, h.1⟩
      · exact ⟨t, h.1⟩
    have hps : (∃ ts, PatTys E ps ts) ∨ ∃ t, AllPatTy E ps t := by
      rcases h with ⟨ts, h⟩ | ⟨t, h⟩
      · cases ts with
        | nil => simp at h
        | cons t ts => exact .inl ⟨ts, h.2⟩
      · exact .inr ⟨t, h.2⟩
    obtain ⟨t, hp⟩ := hp
    cases vs with
    | nil =>
      simp only [stripPatMarksList, orExpandAll, mem_allConses]
      constructor
      · rintro ⟨_, ⟨q, _, qs, _, rfl⟩, hacc⟩
        simp at hacc
      · intro hacc
        simp at hacc
    | cons v vs =>
      have ih₁ := exists_accepts_orExpand hp v
      have ih₂ := exists_acceptsAll_orExpandAll hps vs
      simp only [stripPatMarksList, orExpandAll, mem_allConses, acceptsAll, Bool.and_eq_true,
        ← ih₁, ← ih₂]
      constructor
      · rintro ⟨_, ⟨q, hq, qs, hqs, rfl⟩, hacc⟩
        obtain ⟨hq', hqs'⟩ := by simpa using hacc
        exact ⟨⟨q, hq, hq'⟩, qs, hqs, hqs'⟩
      · rintro ⟨⟨q, hq, hq'⟩, qs, hqs, hqs'⟩
        exact ⟨_, ⟨q, hq, qs, hqs, rfl⟩, by simp [hq', hqs']⟩

end

end Alternatives

/-! ### The rules after expansion -/

section Rules

def expand (rules : List Pat) : List Pat :=
  rules.flatMap fun p => orExpand (stripPatMarks p)

/-- The table of the rules, whose numbers begin at `r` after and at `o` before expansion. -/
def tableFrom (r o : ℕ) : List Pat → List (ℕ × ℕ × ℕ)
  | [] => []
  | p :: ps =>
    let size := (orExpand (stripPatMarks p)).length
    (r, o, size) :: tableFrom (r + size) (o + 1) ps

theorem foldl_processRule (rules : List Pat) (st : Expansion) :
    rules.foldl processRule st =
      { expandedRuleno := st.expandedRuleno + (expand rules).length
        originalRuleno := st.originalRuleno + rules.length
        ruleTable := (tableFrom st.expandedRuleno st.originalRuleno rules).reverse ++ st.ruleTable
        patss := (rules.map fun p => orExpand (stripPatMarks p)).reverse ++ st.patss } := by
  induction rules generalizing st with
  | nil => simp [expand, tableFrom]
  | cons p ps ih =>
    rw [List.foldl_cons, ih]
    simp [processRule, expand, tableFrom, Nat.add_assoc, Nat.add_comm, Nat.add_left_comm]

/-- **What the expansion returns.** -/
theorem expandPats_eq (rules : List Pat) :
    expandPats rules = ((expand rules).length, expand rules, tableFrom 0 0 rules) := by
  simp [expandPats, foldl_processRule, expand, List.flatMap]

theorem expand_cons (p : Pat) (ps : List Pat) :
    expand (p :: ps) = orExpand (stripPatMarks p) ++ expand ps := by
  simp [expand]

theorem ruleMap_tableFrom_cons (r o : ℕ) (p : Pat) (ps : List Pat) (k : ℕ) :
    ruleMap (tableFrom r o (p :: ps)) (r + k) =
      if k < (orExpand (stripPatMarks p)).length then .ok o
      else ruleMap (tableFrom (r + (orExpand (stripPatMarks p)).length) (o + 1) ps) (r + k) := by
  simp only [tableFrom, ruleMap]
  congr 1
  simp

/-- **The table leads an expanded rule to the original rule it is an alternative of.** -/
theorem expandPats_getElem {rules : List Pat} {k : ℕ} {q : Pat} (h : (expand rules)[k]? = some q)
    (r o : ℕ) : ∃ i p, rules[i]? = some p ∧ q ∈ orExpand (stripPatMarks p) ∧
      ruleMap (tableFrom r o rules) (r + k) = .ok (o + i) := by
  induction rules generalizing k r o with
  | nil => simp [expand] at h
  | cons p ps ih =>
    rw [expand_cons] at h
    rw [ruleMap_tableFrom_cons]
    by_cases hk : k < (orExpand (stripPatMarks p)).length
    · rw [List.getElem?_append_left hk] at h
      rw [if_pos hk]
      exact ⟨0, p, rfl, List.mem_of_getElem? h, rfl⟩
    · rw [List.getElem?_append_right (by omega)] at h
      rw [if_neg hk]
      obtain ⟨i, p', hp', hq, hmap⟩ := ih h (r + (orExpand (stripPatMarks p)).length) (o + 1)
      refine ⟨i + 1, p', by simpa using hp', hq, ?_⟩
      rw [show r + (orExpand (stripPatMarks p)).length + (k - (orExpand (stripPatMarks p)).length)
        = r + k by omega] at hmap
      rw [hmap, Nat.add_right_comm, Nat.add_assoc]

theorem exists_ruleMap {rules : List Pat} {i : ℕ} {p q : Pat} (hp : rules[i]? = some p)
    (hq : q ∈ orExpand (stripPatMarks p)) (r o : ℕ) :
    ∃ k, (expand rules)[k]? = some q ∧ ruleMap (tableFrom r o rules) (r + k) = .ok (o + i) := by
  induction rules generalizing i r o with
  | nil => simp at hp
  | cons p' ps ih =>
    rw [expand_cons]
    cases i with
    | zero =>
      obtain rfl : p' = p := by simpa using hp
      obtain ⟨k, hk⟩ := List.mem_iff_getElem?.mp hq
      have hlt : k < (orExpand (stripPatMarks p')).length := (List.getElem?_eq_some_iff.mp hk).1
      refine ⟨k, by rw [List.getElem?_append_left hlt, hk], ?_⟩
      rw [ruleMap_tableFrom_cons, if_pos hlt]
      rfl
    | succ i =>
      obtain ⟨k, hk, hmap⟩ :=
        ih (by simpa using hp) (r + (orExpand (stripPatMarks p')).length) (o + 1)
      refine ⟨(orExpand (stripPatMarks p')).length + k, ?_, ?_⟩
      · rw [List.getElem?_append_right (by omega), Nat.add_sub_cancel_left, hk]
      · rw [ruleMap_tableFrom_cons, if_neg (by omega), ← Nat.add_assoc, hmap]
        congr 1
        omega

theorem ruleMap_mono {rules : List Pat} {k k' i i' : ℕ} (r o : ℕ) (hle : k ≤ k')
    (h : ruleMap (tableFrom r o rules) (r + k) = .ok i)
    (h' : ruleMap (tableFrom r o rules) (r + k') = .ok i') : o ≤ i ∧ i ≤ i' := by
  induction rules generalizing k k' i i' r o with
  | nil => cases h
  | cons p ps ih =>
    rw [ruleMap_tableFrom_cons] at h h'
    set size := (orExpand (stripPatMarks p)).length
    have later : ∀ {j m : ℕ}, size ≤ m →
        ruleMap (tableFrom (r + size) (o + 1) ps) (r + m) = .ok j →
        ruleMap (tableFrom (r + size) (o + 1) ps) (r + size + (m - size)) = .ok j := by
      intro j m hm hj
      rwa [show r + size + (m - size) = r + m by omega]
    split at h
    · obtain rfl : o = i := Except.ok.inj h
      split at h'
      · obtain rfl : o = i' := Except.ok.inj h'
        exact ⟨le_rfl, le_rfl⟩
      · next hk' =>
        have h'' := later (by omega) h'
        have := (ih (r + size) (o + 1) le_rfl h'' h'').1
        omega
    · next hk =>
      rw [if_neg (by omega)] at h'
      have := ih (r + size) (o + 1) (Nat.sub_le_sub_right hle size)
        (later (by omega) h) (later (by omega) h')
      exact ⟨by omega, this.2⟩

mutual

theorem exists_mem_orExpand : ∀ p : Pat, ∃ q, q ∈ orExpand p
  | .wild | .var _ | .num _ _ | .string _ | .char _ | .con _ | .mark _ => by simp
  | .record ps | .vector ps => by simpa using exists_mem_orExpandAll ps
  | .app _ p | .constraint p | .layered _ p => by simpa using exists_mem_orExpand p
  | .or p _ => by
    obtain ⟨q, hq⟩ := exists_mem_orExpand p
    exact ⟨q, by simp [hq]⟩

theorem exists_mem_orExpandAll : ∀ ps : List Pat, ∃ qs, qs ∈ orExpandAll ps
  | [] => by simp
  | p :: ps => by
    obtain ⟨q, hq⟩ := exists_mem_orExpand p
    obtain ⟨qs, hqs⟩ := exists_mem_orExpandAll ps
    exact ⟨q :: qs, mem_allConses.mpr ⟨q, hq, qs, hqs, rfl⟩⟩

end

end Rules

end SmlNj.MatchComp
