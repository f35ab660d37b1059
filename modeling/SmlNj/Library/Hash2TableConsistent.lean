import SmlNj.Library.Hash2Table

/-!
# The consistency of hash tables with two keys

What the operations do to the items of a consistent table.  An insertion keeps a table consistent
exactly when it is admissible: it needs no larger array, the second key is not that of an item
with another first key, and an entry of the second key is the first of its bucket.

## Main definitions

* `Admissible` — the condition on an insertion.
* `Inserted` — the items of a table after an insertion.

## Main results

* `Consistent.insert` — an admissible insertion is right.
* `Consistent.admissible` — an insertion that is right is admissible.
* `hash2_table_correct` — the tables that are reached by admissible insertions are consistent.
-/

namespace SmlNj.Hash2Table

open HashTableRep

universe v

variable {κ₁ κ₂ : Type*} {β γ : Type v}
  {hash₁ : κ₁ → ℕ} {hash₂ : κ₂ → ℕ} {target : Target} {t t' : HashTable κ₁ κ₂ β}

theorem Consistent.nodup (h : Consistent hash₁ hash₂ t) : (triples1 t).Nodup :=
  h.nodup1.of_map _

theorem Consistent.perm (h : Consistent hash₁ hash₂ t) : (triples1 t).Perm (triples2 t) :=
  (List.perm_ext_iff_of_nodup h.nodup (h.nodup2.of_map _)).2 h.mem_iff

variable {p q : κ₁ × κ₂ × β} {v : β}

theorem Consistent.eq_of_key1 (h : Consistent hash₁ hash₂ t) (hp : p ∈ triples1 t)
    (hq : q ∈ triples1 t) (hpq : p.1 = q.1) : p = q :=
  List.inj_on_of_nodup_map h.nodup1 hp hq hpq

theorem Consistent.eq_of_key2 (h : Consistent hash₁ hash₂ t) (hp : p ∈ triples1 t)
    (hq : q ∈ triples1 t) (hpq : p.2.1 = q.2.1) : p = q :=
  List.inj_on_of_nodup_map h.nodup2 ((h.mem_iff p).1 hp) ((h.mem_iff q).1 hq) hpq

theorem Consistent.of_perm (hperm : (triples1 t).Perm (triples2 t))
    (hnodup1 : ((triples1 t).map fun p => p.1).Nodup)
    (hnodup2 : ((triples1 t).map fun p => p.2.1).Nodup) (hplaced1 : Placed hash₁ t.tbl1)
    (hplaced2 : Placed hash₂ t.tbl2) (hlength : t.tbl1.length = t.tbl2.length)
    (hcount : t.nItems = (triples1 t).length) : Consistent hash₁ hash₂ t :=
  ⟨fun _ => hperm.mem_iff, hnodup1, (hperm.map _).nodup_iff.1 hnodup2, hplaced1, hplaced2,
    hlength, hcount⟩

theorem mem_triples1 : p ∈ triples1 t ↔ ∃ e ∈ t.tbl1.flatten, (e.key, e.item.1, e.item.2) = p :=
  List.mem_map

theorem mem_triples2 : p ∈ triples2 t ↔ ∃ e ∈ t.tbl2.flatten, (e.item.1, e.key, e.item.2) = p :=
  List.mem_map

theorem Consistent.nodup_keys2 (h : Consistent hash₁ hash₂ t) :
    ((triples1 t).map fun p => p.2.1).Nodup :=
  (h.perm.map fun p => p.2.1).nodup_iff.2 h.nodup2

theorem Consistent.mem_sub1 (h : Consistent hash₁ hash₂ t) {k1 : κ₁} {e : Entry κ₁ (κ₂ × β)}
    (he : e ∈ sub t.tbl1 (index (hash₁ k1) t.tbl1.length)) :
    (e.key, e.item.1, e.item.2) ∈ triples1 t :=
  mem_triples1.2 ⟨e, mem_flatten.2 ⟨_, h.placed1.index_lt k1, he⟩, rfl⟩

theorem Consistent.mem_flatten2 (h : Consistent hash₁ hash₂ t) {e : Entry κ₂ (κ₁ × β)}
    (he : e ∈ t.tbl2.flatten) : (e.item.1, e.key, e.item.2) ∈ triples1 t :=
  (h.mem_iff _).2 (mem_triples2.2 ⟨e, he, rfl⟩)

theorem Consistent.mem_bucket (h : Consistent hash₁ hash₂ t) (k1 : κ₁) :
    (∃ p ∈ triples1 t, p.1 = k1) ↔
      ∃ e ∈ sub t.tbl1 (index (hash₁ k1) t.tbl1.length), e.hash = hash₁ k1 ∧ e.key = k1 := by
  constructor
  · rintro ⟨p, hp, rfl⟩
    obtain ⟨e, he, rfl⟩ := mem_triples1.1 hp
    exact ⟨e, h.placed1.mem_sub he, h.placed1.hash_eq e he, rfl⟩
  · rintro ⟨e, he, -, rfl⟩
    exact ⟨_, h.mem_sub1 he, rfl⟩

theorem Consistent.nodup_sub (h : Consistent hash₁ hash₂ t) (i : ℕ) :
    (∀ e ∈ sub t.tbl1 i, (e.key, e.item.1, e.item.2) ∈ triples1 t) ∧
      ((sub t.tbl1 i).map Entry.key).Nodup := by
  have hnodup := h.nodup1
  rw [triples1, List.map_map] at hnodup
  refine ⟨fun e he => mem_triples1.2 ⟨e, ?_, rfl⟩, HashTableRep.nodup_sub hnodup i⟩
  by_cases hi : i < t.tbl1.length
  · exact mem_flatten.2 ⟨i, hi, he⟩
  · rw [sub_of_le (not_lt.1 hi)] at he
    exact absurd he List.not_mem_nil

theorem Consistent.split1 (h : Consistent hash₁ hash₂ t) {k1 : κ₁} {k2 : κ₂}
    (hp : (k1, k2, v) ∈ triples1 t) :
    ∃ p s, sub t.tbl1 (index (hash₁ k1) t.tbl1.length) = p ++ ⟨hash₁ k1, k1, (k2, v)⟩ :: s ∧
      ∀ e ∈ p ++ s, e.key ≠ k1 := by
  obtain ⟨⟨hash, key, item⟩, he, heq⟩ := mem_triples1.1 hp
  obtain rfl : key = k1 := congrArg Prod.fst heq
  obtain rfl : item = (k2, v) := congrArg Prod.snd heq
  obtain rfl : hash = hash₁ key := h.placed1.hash_eq _ he
  have hnodup := h.nodup1
  rw [triples1, List.map_map] at hnodup
  exact h.placed1.split hnodup he

theorem Consistent.split2 (h : Consistent hash₁ hash₂ t) {k1 : κ₁} {k2 : κ₂}
    (hp : (k1, k2, v) ∈ triples1 t) :
    ∃ p s, sub t.tbl2 (index (hash₂ k2) t.tbl1.length) = p ++ ⟨hash₂ k2, k2, (k1, v)⟩ :: s ∧
      ∀ e ∈ p ++ s, e.key ≠ k2 := by
  obtain ⟨⟨hash, key, item⟩, he, heq⟩ := mem_triples2.1 ((h.mem_iff _).1 hp)
  obtain rfl : key = k2 := congrArg (fun p => p.2.1) heq
  obtain rfl : item = (k1, v) := congrArg (fun p => (p.1, p.2.2)) heq
  obtain rfl : hash = hash₂ key := h.placed2.hash_eq _ he
  rw [h.length_eq]
  have hnodup := h.nodup2
  rw [triples2, List.map_map] at hnodup
  exact h.placed2.split hnodup he

theorem Consistent.ne_of_perm (h : Consistent hash₁ hash₂ t) {r : List (κ₁ × κ₂ × β)}
    (hperm : (triples1 t).Perm (p :: r)) (hq : q ∈ r) : q.1 ≠ p.1 ∧ q.2.1 ≠ p.2.1 := by
  have hnodup1 := (hperm.map fun p => p.1).nodup_iff.1 h.nodup1
  have hnodup2 := (hperm.map fun p => p.2.1).nodup_iff.1 h.nodup_keys2
  rw [List.map_cons, List.nodup_cons] at hnodup1 hnodup2
  exact ⟨fun hk => hnodup1.1 (List.mem_map.2 ⟨q, hq, hk⟩),
    fun hk => hnodup2.1 (List.mem_map.2 ⟨q, hq, hk⟩)⟩

/-! ### Insertions and removals -/

/-- The items after an insertion: the new one, and those that have neither of its keys. -/
def Inserted (t t' : HashTable κ₁ κ₂ β) (k1 : κ₁) (k2 : κ₂) (x : β) : Prop :=
  ∀ p, p ∈ triples1 t' ↔ p = (k1, k2, x) ∨ p ∈ triples1 t ∧ p.1 ≠ k1 ∧ p.2.1 ≠ k2

/-- What is said of an insertion that is right: it raises no exception, the table is consistent and
has the items that it should have, the length stays, and the count grows by a new first key. -/
structure Succeeds (hash₁ : κ₁ → ℕ) (hash₂ : κ₂ → ℕ) (t : HashTable κ₁ κ₂ β) (k1 : κ₁) (k2 : κ₂)
    (x : β) (r : Except HashTableRep.Exn Unit × HashTable κ₁ κ₂ β) : Prop where
  ok : r.1 = .ok ()
  consistent : Consistent hash₁ hash₂ r.2
  inserted : Inserted t r.2 k1 k2 x
  length_eq : r.2.tbl1.length = t.tbl1.length
  room : t.nItems < t.tbl1.length → r.2.nItems < t.tbl1.length
  count_le : r.2.nItems ≤ t.nItems + 1

/-- A table is right after an insertion when both of its tables have lost the same items, which had
one of the keys, and got the new one. -/
theorem Consistent.of_update (h : Consistent hash₁ hash₂ t) {k1 : κ₁} {k2 : κ₂} {x : β}
    {arr1 : Table κ₁ (κ₂ × β)} {arr2 : Table κ₂ (κ₁ × β)} {n : ℤ} {o r1 r2 : List (κ₁ × κ₂ × β)}
    (hplaced1 : Placed hash₁ arr1) (hplaced2 : Placed hash₂ arr2)
    (hlen1 : arr1.length = t.tbl1.length) (hlen2 : arr2.length = t.tbl2.length)
    (hold1 : (triples1 t).Perm (o ++ r1))
    (hnew1 : (triples1 ⟨arr1, arr2, n⟩).Perm ((k1, k2, x) :: r1))
    (hold2 : (triples2 t).Perm (o ++ r2))
    (hnew2 : (triples2 ⟨arr1, arr2, n⟩).Perm ((k1, k2, x) :: r2))
    (ho : ∀ p ∈ o, p.1 = k1 ∨ p.2.1 = k2) (hr : ∀ p ∈ r1, p.1 ≠ k1 ∧ p.2.1 ≠ k2)
    (hcount : n + o.length = t.nItems + 1) (hroom : t.nItems < t.tbl1.length → n < t.tbl1.length) :
    Succeeds hash₁ hash₂ t k1 k2 x (.ok (), ⟨arr1, arr2, n⟩) := by
  have hr12 : r1.Perm r2 := by
    have := (hold1.symm.trans h.perm).trans hold2
    exact (List.perm_append_left_iff o).1 this
  refine ⟨rfl, .of_perm ?_ ?_ ?_ hplaced1 hplaced2 ?_ ?_, fun p => ?_, hlen1, hroom, ?_⟩
  · exact hnew1.trans ((hr12.cons _).trans hnew2.symm)
  · rw [(hnew1.map _).nodup_iff, List.map_cons, List.nodup_cons]
    constructor
    · intro hmem
      obtain ⟨p, hp, hpk⟩ := List.mem_map.1 hmem
      exact (hr p hp).1 hpk
    · have := (hold1.map _).nodup_iff.1 h.nodup1
      rw [List.map_append] at this
      exact (List.nodup_append.1 this).2.1
  · rw [(hnew1.map _).nodup_iff, List.map_cons, List.nodup_cons]
    constructor
    · intro hmem
      obtain ⟨p, hp, hpk⟩ := List.mem_map.1 hmem
      exact (hr p hp).2 hpk
    · have := (hold1.map _).nodup_iff.1 h.nodup_keys2
      rw [List.map_append] at this
      exact (List.nodup_append.1 this).2.1
  · exact hlen1.trans (h.length_eq.trans hlen2.symm)
  · have hl := hold1.length_eq
    have hl' := hnew1.length_eq
    have hc := h.count
    rw [List.length_append] at hl
    rw [List.length_cons] at hl'
    dsimp only
    omega
  · rw [hnew1.mem_iff, List.mem_cons, hold1.mem_iff, List.mem_append]
    constructor
    · rintro (rfl | hp)
      · exact .inl rfl
      · exact .inr ⟨.inr hp, hr p hp⟩
    · rintro (rfl | ⟨hp | hp, hk1, hk2⟩)
      · exact .inl rfl
      · exact ((ho p hp).elim hk1 hk2).elim
      · exact .inr hp
  · dsimp only
    omega

/-- **A table in use**: it is consistent, it has more buckets than items, and a new table of its
size is no smaller. -/
structure Good (target : Target) (hash₁ : κ₁ → ℕ) (hash₂ : κ₂ → ℕ) (t : HashTable κ₁ κ₂ β) :
    Prop where
  consistent : Consistent hash₁ hash₂ t
  room : t.nItems < t.tbl1.length
  /-- The size is one of those of new tables. -/
  size : t.tbl1.length ≤ roundUp target t.tbl1.length

theorem Good.of_delete (h : Good target hash₁ hash₂ t) {arr1 : Table κ₁ (κ₂ × β)}
    {arr2 : Table κ₂ (κ₁ × β)} (hcons : Consistent hash₁ hash₂ ⟨arr1, arr2, t.nItems - 1⟩)
    (hlen : arr1.length = t.tbl1.length) :
    Good target hash₁ hash₂ ⟨arr1, arr2, t.nItems - 1⟩ := by
  refine ⟨hcons, ?_, hlen ▸ h.size⟩
  have := h.room
  dsimp only
  omega

section Look

variable {k1 : κ₁} {k2 : κ₂} {x : β} {i : ℕ} {w : Work κ₁ κ₂ β}

theorem addKey1_eq (h : w.nItems + 1 < w.arr1.length) :
    addKey1 hash₁ target k1 k2 x i w = (.ok [], { w with
      arr1 := w.arr1.set i (⟨hash₁ k1, k1, (k2, x)⟩ :: sub w.arr1 i)
      nItems := w.nItems + 1 }) := by
  have hgrow : growTableIfNeeded target (w.arr1.set i (⟨hash₁ k1, k1, (k2, x)⟩ :: sub w.arr1 i))
      (w.nItems + 1) = .ok none := by
    rw [growTableIfNeeded, List.length_set, if_neg (not_le.2 h)]
  simp [addKey1, hgrow]

variable (hash₁ target) in
theorem addKey1_fst (k1 : κ₁) (k2 : κ₂) (x : β) (i : ℕ) (w : Work κ₁ κ₂ β) :
    (addKey1 hash₁ target k1 k2 x i w).1 = .ok [] ∨
      ∃ e, (addKey1 hash₁ target k1 k2 x i w).1 = .error e := by
  simp only [addKey1]
  split
  · exact .inr ⟨_, rfl⟩
  · exact .inl rfl
  · split
    · exact .inr ⟨_, rfl⟩
    · exact .inl rfl

theorem addKey1_nItems : (addKey1 hash₁ target k1 k2 x i w).2.nItems = w.nItems + 1 := by
  simp only [addKey1]
  split
  · rfl
  · rfl
  · split <;> rfl

end Look

/-! ### Whole tables -/

theorem consistent_of_empty (h1 : t.tbl1.flatten = []) (h2 : t.tbl2.flatten = [])
    (hplaced1 : Placed hash₁ t.tbl1) (hplaced2 : Placed hash₂ t.tbl2)
    (hlength : t.tbl1.length = t.tbl2.length) (hcount : t.nItems = 0) :
    Consistent hash₁ hash₂ t := by
  have ht1 : triples1 t = [] := by rw [triples1, h1, List.map_nil]
  have ht2 : triples2 t = [] := by rw [triples2, h2, List.map_nil]
  exact ⟨by simp [ht1, ht2], by simp [ht1], by simp [ht2], hplaced1, hplaced2, hlength,
    by simp [ht1, hcount]⟩

variable (target hash₁ hash₂) in
theorem good_mkTable (n : ℤ) :
    Good target hash₁ hash₂ (mkTable target n : HashTable κ₁ κ₂ β) := by
  refine ⟨consistent_of_empty (flatten_alloc target n) (flatten_alloc target n)
    (placed_alloc target n) (placed_alloc target n) ?_ rfl, ?_, ?_⟩
  · rw [mkTable, length_alloc, length_alloc]
  · rw [mkTable, length_alloc]
    exact Int.natCast_pos.2 (roundUp_pos target n)
  · rw [mkTable, length_alloc]
    exact le_roundUp_roundUp target n

theorem Good.clear (h : Good target hash₁ hash₂ t) : Good target hash₁ hash₂ (clear t) := by
  have hpos1 := h.consistent.placed1.pos
  have hpos2 := h.consistent.placed2.pos
  rw [Hash2Table.clear, clear_eq, clear_eq]
  refine ⟨consistent_of_empty (by simp) (by simp) (placed_replicate hpos1)
    (placed_replicate hpos2) ?_ rfl, ?_, ?_⟩
  · simpa using h.consistent.length_eq
  · simpa using hpos1
  · simpa using h.size

theorem copy_eq (t : HashTable κ₁ κ₂ β) : copy t = t := by
  rw [copy, HashTableRep.copy_eq, HashTableRep.copy_eq]

variable [DecidableEq κ₁] [DecidableEq κ₂]

/-! ### Removals -/

/-- **An item is removed** from both tables. -/
theorem Consistent.delete (h : Consistent hash₁ hash₂ t) {p : κ₁ × κ₂ × β}
    (hp : p ∈ triples1 t) (exn1 exn2 : HashTableRep.Exn) :
    ∃ arr1 arr2, remove hash₁ t.tbl1 exn1 p.1 = .ok (p.2, arr1) ∧
      remove hash₂ t.tbl2 exn2 p.2.1 = .ok ((p.1, p.2.2), arr2) ∧
      Consistent hash₁ hash₂ ⟨arr1, arr2, t.nItems - 1⟩ ∧ arr1.length = t.tbl1.length ∧
      (triples1 t).Perm (p :: triples1 ⟨arr1, arr2, t.nItems - 1⟩) := by
  have hkey1 : ∃ e ∈ t.tbl1.flatten, e.key = p.1 := by
    obtain ⟨e, he, rfl⟩ := mem_triples1.1 hp
    exact ⟨e, he, rfl⟩
  have hkey2 : ∃ e ∈ t.tbl2.flatten, e.key = p.2.1 := by
    obtain ⟨e, he, rfl⟩ := mem_triples2.1 ((h.mem_iff p).1 hp)
    exact ⟨e, he, rfl⟩
  obtain ⟨e1, arr1, hrem1, hek1, hplaced1, hlen1, hperm1⟩ := h.placed1.remove_eq exn1 hkey1
  obtain ⟨e2, arr2, hrem2, hek2, hplaced2, hlen2, hperm2⟩ := h.placed2.remove_eq exn2 hkey2
  -- the entries that are taken out are those of the item
  have he1 : (e1.key, e1.item.1, e1.item.2) = p :=
    h.eq_of_key1 (mem_triples1.2 ⟨e1, hperm1.mem_iff.2 (by simp), rfl⟩) hp hek1
  have he2 : (e2.item.1, e2.key, e2.item.2) = p :=
    h.eq_of_key2 (h.mem_flatten2 (hperm2.mem_iff.2 (.head _))) hp hek2
  set t' : HashTable κ₁ κ₂ β := ⟨arr1, arr2, t.nItems - 1⟩
  have hp1 : (triples1 t).Perm (p :: triples1 t') := by
    rw [← he1]
    exact hperm1.map _
  have hp2 : (triples2 t).Perm (p :: triples2 t') := by
    rw [← he2]
    exact hperm2.map _
  refine ⟨arr1, arr2, ?_, ?_, .of_perm ?_ ?_ ?_ hplaced1 hplaced2 ?_ ?_, hlen1, hp1⟩
  · rw [hrem1, ← he1]
  · rw [hrem2, ← he2]
  · exact (hp1.symm.trans (h.perm.trans hp2)).cons_inv
  · exact (List.nodup_cons.1 ((hp1.map _).nodup_iff.1 h.nodup1)).2
  · exact (List.nodup_cons.1 ((hp1.map _).nodup_iff.1 h.nodup_keys2)).2
  · rw [hlen1, hlen2, h.length_eq]
  · have := hp1.length_eq
    rw [List.length_cons] at this
    have hcount := h.count
    change t.nItems - 1 = ((triples1 t').length : ℤ)
    omega

theorem Good.remove1 (h : Good target hash₁ hash₂ t) (k1 : κ₁) :
    Good target hash₁ hash₂ (remove1 hash₁ hash₂ t k1).2 := by
  by_cases hk : ∃ p ∈ triples1 t, p.1 = k1
  · obtain ⟨p, hp, rfl⟩ := hk
    obtain ⟨arr1, arr2, hrem1, hrem2, hcons, hlen, -⟩ :=
      h.consistent.delete hp .notFound .notFound
    rw [Hash2Table.remove1, hrem1]
    simp only [hrem2]
    exact h.of_delete hcons hlen
  · have hkey : ∀ e ∈ t.tbl1.flatten, e.key ≠ k1 := by
      intro e he hek
      exact hk ⟨_, mem_triples1.2 ⟨e, he, rfl⟩, hek⟩
    rw [Hash2Table.remove1, remove_eq_error .notFound hkey h.consistent.placed1.pos]
    exact h

theorem Good.remove2 (h : Good target hash₁ hash₂ t) (k2 : κ₂) :
    Good target hash₁ hash₂ (remove2 hash₁ hash₂ t k2).2 := by
  by_cases hk : ∃ p ∈ triples1 t, p.2.1 = k2
  · obtain ⟨p, hp, rfl⟩ := hk
    obtain ⟨arr1, arr2, hrem1, hrem2, hcons, hlen, -⟩ :=
      h.consistent.delete hp .notFound .notFound
    rw [Hash2Table.remove2, hrem2]
    simp only [hrem1]
    exact h.of_delete hcons hlen
  · have hkey : ∀ e ∈ t.tbl2.flatten, e.key ≠ k2 := by
      intro e he hek
      exact hk ⟨_, h.consistent.mem_flatten2 he, hek⟩
    rw [Hash2Table.remove2, remove_eq_error .notFound hkey h.consistent.placed2.pos]
    exact h

theorem Good.filterBucket (msg : String) (pred : κ₁ → κ₂ → β → Bool) {b : Bucket κ₁ (κ₂ × β)}
    (h : Good target hash₁ hash₂ t)
    (hsub : ∀ e ∈ b, (e.key, e.item.1, e.item.2) ∈ triples1 t)
    (hnodup : (b.map Entry.key).Nodup) :
    (filterBucket hash₁ hash₂ msg pred b t).1 = .ok () ∧
      Good target hash₁ hash₂ (filterBucket hash₁ hash₂ msg pred b t).2 := by
  induction b generalizing t with
  | nil => exact ⟨rfl, h⟩
  | cons e rest ih =>
    obtain ⟨he, hrest⟩ := List.forall_mem_cons.1 hsub
    rw [List.map_cons, List.nodup_cons] at hnodup
    rw [Hash2Table.filterBucket]
    split
    case isTrue => exact ih h hrest hnodup.2
    case isFalse =>
      obtain ⟨arr1, arr2, hrem1, hrem2, hcons, hlen, hperm⟩ :=
        h.consistent.delete he (.fail msg) (.fail msg)
      simp only [hrem1, hrem2]
      refine ih (h.of_delete hcons hlen) (fun e' he' => ?_) hnodup.2
      -- the other items of the bucket are still there
      rcases List.mem_cons.1 (hperm.mem_iff.1 (hrest e' he')) with heq | hmem
      · have hkey : e'.key = e.key := congrArg Prod.fst heq
        exact absurd (List.mem_map.2 ⟨e', he', hkey⟩) hnodup.1
      · exact hmem

theorem Good.filterFrom {msg : String} {pred : κ₁ → κ₂ → β → Bool} {is : List ℕ}
    (h : Good target hash₁ hash₂ t) :
    Good target hash₁ hash₂ (filterFrom hash₁ hash₂ msg pred is t).2 := by
  induction is generalizing t with
  | nil => exact h
  | cons i is ih =>
    obtain ⟨hsub, hnodup⟩ := h.consistent.nodup_sub i
    obtain ⟨hok, hgood⟩ := h.filterBucket msg pred hsub hnodup
    rw [Hash2Table.filterFrom]
    rcases hb : Hash2Table.filterBucket hash₁ hash₂ msg pred (sub t.tbl1 i) t with ⟨r, t'⟩
    rw [hb] at hok hgood
    obtain rfl : r = .ok () := hok
    exact ih hgood

/-! ### Insertions -/

/-- **The condition on an insertion**: a first key that is new leaves a bucket free, so that the
arrays do not grow; an item with the second key has the first key; and an entry for the second key
is the first of its bucket. -/
structure Admissible (hash₂ : κ₂ → ℕ) (t : HashTable κ₁ κ₂ β) (k1 : κ₁) (k2 : κ₂) : Prop where
  room : (∃ p ∈ triples1 t, p.1 = k1) ∨ t.nItems + 1 < t.tbl1.length
  same : ∀ p ∈ triples1 t, p.2.1 = k2 → p.1 = k1
  /-- No entry comes before that of the second key. -/
  first : ∀ e r, sub t.tbl2 (index (hash₂ k2) t.tbl2.length) = e :: r → ∀ e' ∈ r, e'.key ≠ k2

section Look

variable {k1 : κ₁} {k2 : κ₂} {x : β} {i : ℕ} {w : Work κ₁ κ₂ β}

variable (hash₁ hash₂ target k2 x i w) in
theorem look1_of_not_mem {b : Bucket κ₁ (κ₂ × β)} (hb : ∀ e ∈ b, e.key ≠ k1) :
    look1 hash₁ hash₂ target k1 k2 x i b w = addKey1 hash₁ target k1 k2 x i w := by
  induction b with
  | nil => rfl
  | cons e r ih =>
    obtain ⟨he, hr⟩ := List.forall_mem_cons.1 hb
    rw [look1, if_neg fun h => he h.2, ih hr]
    rcases hadd : addKey1 hash₁ target k1 k2 x i w with ⟨o, w'⟩
    rcases addKey1_fst hash₁ target k1 k2 x i w with h | ⟨e', h⟩
    · rw [hadd] at h
      obtain rfl : o = .ok [] := h
      rfl
    · rw [hadd] at h
      obtain rfl : o = .error e' := h
      rfl

theorem look1_of_mem {p s : Bucket κ₁ (κ₂ × β)} {e : Entry κ₁ (κ₂ × β)}
    (hp : ∀ e' ∈ p, e'.key ≠ k1) (hhash : e.hash = hash₁ k1) (hkey : e.key = k1) {arr2 : _}
    (harr2 : if k2 = e.item.1 then arr2 = w.arr2
      else ∃ v, remove hash₂ w.arr2 (.fail "insert.look1") e.item.1 = .ok (v, arr2)) :
    look1 hash₁ hash₂ target k1 k2 x i (p ++ e :: s) w =
      (.ok (p ++ ⟨hash₁ k1, k1, (k2, x)⟩ :: s), { w with arr2 := arr2 }) := by
  induction p with
  | nil =>
    rw [List.nil_append, look1, if_pos ⟨hhash, hkey⟩]
    split at harr2
    case isTrue hk =>
      rw [if_neg (not_not.2 hk), harr2]
      rfl
    case isFalse hk =>
      obtain ⟨v, hrem⟩ := harr2
      rw [if_pos hk, hrem]
      rfl
  | cons e' p ih =>
    obtain ⟨he', hp⟩ := List.forall_mem_cons.1 hp
    rw [List.cons_append, look1, if_neg fun h => he' h.2, ih hp]
    rcases p with _ | ⟨e'', p⟩ <;> rfl

theorem look2_of_not_mem {b : Bucket κ₂ (κ₁ × β)} (hb : ∀ e ∈ b, e.key ≠ k2) :
    look2 hash₁ hash₂ k1 k2 x i b w = (.ok [],
      { w with arr2 := w.arr2.set i (⟨hash₂ k2, k2, (k1, x)⟩ :: sub w.arr2 i) }) := by
  induction b with
  | nil => rfl
  | cons e r ih =>
    obtain ⟨he, hr⟩ := List.forall_mem_cons.1 hb
    rw [look2, if_neg fun h => he h.2, ih hr]

theorem look2_of_mem {p s : Bucket κ₂ (κ₁ × β)} {e : Entry κ₂ (κ₁ × β)}
    (hp : ∀ e' ∈ p, e'.key ≠ k2) (hhash : e.hash = hash₂ k2) (hkey : e.key = k2)
    (hitem : e.item.1 = k1) :
    look2 hash₁ hash₂ k1 k2 x i (p ++ e :: s) w =
      (.ok ((p.map fun e' => ⟨hash₂ k2, k2, (k1, e'.item.2)⟩) ++
        ⟨hash₂ k2, k2, (k1, x)⟩ :: s), w) := by
  induction p with
  | nil =>
    rw [List.nil_append, look2, if_pos ⟨hhash, hkey⟩, if_neg (not_not.2 hitem.symm)]
    rfl
  | cons e' p ih =>
    obtain ⟨he', hp⟩ := List.forall_mem_cons.1 hp
    rw [List.cons_append, look2, if_neg fun h => he' h.2, ih hp]
    rcases p with _ | ⟨e'', p⟩ <;> rfl

theorem insert_eq {b1 : Bucket κ₁ (κ₂ × β)} {b2 : Bucket κ₂ (κ₁ × β)} {w1 w1' w2 : Work κ₁ κ₂ β}
    (h1 : look1 hash₁ hash₂ target k1 k2 x (index (hash₁ k1) t.tbl1.length)
      (sub t.tbl1 (index (hash₁ k1) t.tbl1.length)) ⟨t.tbl1, t.tbl2, none, none, t.nItems⟩ =
        (.ok b1, w1))
    (h1' : w1' = if b1 = [] then w1
      else { w1 with arr1 := w1.arr1.set (index (hash₁ k1) t.tbl1.length) b1 })
    (h2 : look2 hash₁ hash₂ k1 k2 x (index (hash₂ k2) t.tbl1.length)
      (sub w1'.arr2 (index (hash₂ k2) t.tbl1.length)) w1' = (.ok b2, w2)) :
    insert hash₁ hash₂ target t k1 k2 x = (.ok (), (if b2 = [] then w2
      else { w2 with arr2 := w2.arr2.set (index (hash₂ k2) t.tbl1.length) b2 }).table) := by
  subst h1'
  simp [insert, h1, h2]

end Look

/-- An insertion of two new keys. -/
theorem Consistent.insert_new (h : Consistent hash₁ hash₂ t) {k1 : κ₁} {k2 : κ₂} (x : β)
    (hk1 : ∀ p ∈ triples1 t, p.1 ≠ k1) (hk2 : ∀ p ∈ triples1 t, p.2.1 ≠ k2)
    (hroom : t.nItems + 1 < t.tbl1.length) :
    Succeeds hash₁ hash₂ t k1 k2 x (insert hash₁ hash₂ target t k1 k2 x) := by
  have hb1 : ∀ e ∈ sub t.tbl1 (index (hash₁ k1) t.tbl1.length), e.key ≠ k1 := fun e he =>
    hk1 _ (h.mem_sub1 he)
  have hi2 : index (hash₂ k2) t.tbl1.length = index (hash₂ k2) t.tbl2.length := by
    rw [h.length_eq]
  have hb2 : ∀ e ∈ sub t.tbl2 (index (hash₂ k2) t.tbl1.length), e.key ≠ k2 := by
    intro e he
    rw [hi2] at he
    exact hk2 _ (h.mem_flatten2 (mem_flatten.2 ⟨_, h.placed2.index_lt k2, he⟩))
  obtain ⟨hplaced1, hperm1⟩ := h.placed1.cons k1 (k2, x) rfl
  obtain ⟨hplaced2, hperm2⟩ := h.placed2.cons k2 (k1, x) hi2
  -- both keys are put before their buckets
  have heq : insert hash₁ hash₂ target t k1 k2 x = (.ok (),
      ⟨t.tbl1.set (index (hash₁ k1) t.tbl1.length)
          (⟨hash₁ k1, k1, (k2, x)⟩ :: sub t.tbl1 (index (hash₁ k1) t.tbl1.length)),
        t.tbl2.set (index (hash₂ k2) t.tbl1.length)
          (⟨hash₂ k2, k2, (k1, x)⟩ :: sub t.tbl2 (index (hash₂ k2) t.tbl1.length)),
        t.nItems + 1⟩) :=
    insert_eq ((look1_of_not_mem _ _ _ _ _ _ _ hb1).trans (addKey1_eq hroom)) rfl (look2_of_not_mem hb2)
  rw [heq]
  exact h.of_update hplaced1 hplaced2 List.length_set List.length_set
    (List.Perm.refl ([] ++ triples1 t)) (hperm1.map _) (.refl ([] ++ triples2 t)) (hperm2.map _)
    (by simp) (fun p hp => ⟨hk1 p hp, hk2 p hp⟩) (by simp) fun _ => hroom

theorem insert_same_eq {k1 : κ₁} {k2 : κ₂} (x : β) {p1 s1 : Bucket κ₁ (κ₂ × β)}
    {p2 s2 : Bucket κ₂ (κ₁ × β)}
    (hb1 : sub t.tbl1 (index (hash₁ k1) t.tbl1.length) = p1 ++ ⟨hash₁ k1, k1, (k2, v)⟩ :: s1)
    (hb2 : sub t.tbl2 (index (hash₂ k2) t.tbl1.length) = p2 ++ ⟨hash₂ k2, k2, (k1, v)⟩ :: s2)
    (hne1 : ∀ e ∈ p1, e.key ≠ k1) (hne2 : ∀ e ∈ p2, e.key ≠ k2) :
    insert hash₁ hash₂ target t k1 k2 x = (.ok (),
      ⟨t.tbl1.set (index (hash₁ k1) t.tbl1.length) (p1 ++ ⟨hash₁ k1, k1, (k2, x)⟩ :: s1),
        t.tbl2.set (index (hash₂ k2) t.tbl1.length)
          ((p2.map fun e => ⟨hash₂ k2, k2, (k1, e.item.2)⟩) ++ ⟨hash₂ k2, k2, (k1, x)⟩ :: s2),
        t.nItems⟩) := by
  have hlook1 : look1 hash₁ hash₂ target k1 k2 x (index (hash₁ k1) t.tbl1.length)
      (p1 ++ ⟨hash₁ k1, k1, (k2, v)⟩ :: s1) ⟨t.tbl1, t.tbl2, none, none, t.nItems⟩ =
      (.ok (p1 ++ ⟨hash₁ k1, k1, (k2, x)⟩ :: s1), ⟨t.tbl1, t.tbl2, none, none, t.nItems⟩) :=
    look1_of_mem hne1 rfl rfl (by simp)
  have hlook2 : look2 hash₁ hash₂ k1 k2 x (index (hash₂ k2) t.tbl1.length)
      (p2 ++ ⟨hash₂ k2, k2, (k1, v)⟩ :: s2) ⟨t.tbl1.set (index (hash₁ k1) t.tbl1.length)
        (p1 ++ ⟨hash₁ k1, k1, (k2, x)⟩ :: s1), t.tbl2, none, none, t.nItems⟩ = _ :=
    look2_of_mem hne2 rfl rfl rfl
  rw [← hb1] at hlook1
  rw [← hb2] at hlook2
  rw [insert_eq hlook1 (if_neg (by simp)).symm hlook2, if_neg (by simp)]
  rfl

/-- An insertion for the keys of an item, whose entry of the second key is the first of its
bucket. -/
theorem Consistent.insert_same (h : Consistent hash₁ hash₂ t) {k1 : κ₁} {k2 : κ₂} (x : β)
    (hp : (k1, k2, v) ∈ triples1 t)
    (hfirst : ∀ e r, sub t.tbl2 (index (hash₂ k2) t.tbl2.length) = e :: r →
      ∀ e' ∈ r, e'.key ≠ k2) :
    Succeeds hash₁ hash₂ t k1 k2 x (insert hash₁ hash₂ target t k1 k2 x) := by
  obtain ⟨p1, s1, hb1, hne1⟩ := h.split1 hp
  obtain ⟨p2, s2, hb2, hne2⟩ := h.split2 hp
  -- no entry comes before that of the second key
  obtain rfl : p2 = [] := by
    rcases p2 with _ | ⟨e, p2⟩
    · rfl
    · rw [h.length_eq] at hb2
      exact absurd rfl (hfirst e (p2 ++ ⟨hash₂ k2, k2, (k1, v)⟩ :: s2) hb2
        ⟨hash₂ k2, k2, (k1, v)⟩ (by simp))
  have hi1 := h.placed1.index_lt k1
  have hi2 : index (hash₂ k2) t.tbl1.length < t.tbl2.length := by
    rw [h.length_eq]
    exact h.placed2.index_lt k2
  obtain ⟨hplaced1, r1, hold1, hnew1⟩ := h.placed1.replace_one hi1 hb1
    ⟨hash₁ k1, k1, (k2, x)⟩ rfl rfl
  obtain ⟨hplaced2, r2, hold2, hnew2⟩ := h.placed2.replace_one hi2 hb2
    ⟨hash₂ k2, k2, (k1, x)⟩ rfl rfl
  have heq : insert hash₁ hash₂ target t k1 k2 x = (.ok (),
      ⟨t.tbl1.set (index (hash₁ k1) t.tbl1.length) (p1 ++ ⟨hash₁ k1, k1, (k2, x)⟩ :: s1),
        t.tbl2.set (index (hash₂ k2) t.tbl1.length) (⟨hash₂ k2, k2, (k1, x)⟩ :: s2),
        t.nItems⟩) :=
    insert_same_eq x hb1 hb2 (fun e he => hne1 e (List.mem_append_left _ he)) (by simp)
  rw [heq]
  have hold : (triples1 t).Perm ([(k1, k2, v)] ++ r1.map fun e => (e.key, e.item.1, e.item.2)) :=
    hold1.map _
  exact h.of_update hplaced1 hplaced2 List.length_set List.length_set hold (hnew1.map _)
    (hold2.map _) (hnew2.map _) (by simp) (fun p hp => h.ne_of_perm hold hp) (by simp) id

/-- An insertion of a new second key for the first key of an item. -/
theorem Consistent.insert_other (h : Consistent hash₁ hash₂ t) {k1 : κ₁} {k2 k2' : κ₂} (x : β)
    (hp : (k1, k2', v) ∈ triples1 t) (hne : k2 ≠ k2') (hk2 : ∀ p ∈ triples1 t, p.2.1 ≠ k2) :
    Succeeds hash₁ hash₂ t k1 k2 x (insert hash₁ hash₂ target t k1 k2 x) := by
  obtain ⟨p1, s1, hb1, hne1⟩ := h.split1 hp
  have hi1 := h.placed1.index_lt k1
  -- the entry of the old second key is removed
  have hkey2 : ∃ e ∈ t.tbl2.flatten, e.key = k2' := by
    obtain ⟨e, he, heq⟩ := mem_triples2.1 ((h.mem_iff _).1 hp)
    exact ⟨e, he, congrArg (fun p => p.2.1) heq⟩
  obtain ⟨e2, arr2, hrem, hek2, hplaced, hlen, hrest⟩ :=
    h.placed2.remove_eq (.fail "insert.look1") hkey2
  have he2 : (e2.item.1, e2.key, e2.item.2) = (k1, k2', v) :=
    h.eq_of_key2 (h.mem_flatten2 (hrest.mem_iff.2 (.head _))) hp hek2
  have hi2 : index (hash₂ k2) t.tbl1.length = index (hash₂ k2) arr2.length := by
    rw [hlen, h.length_eq]
  have hb2 : ∀ e ∈ sub arr2 (index (hash₂ k2) t.tbl1.length), e.key ≠ k2 := by
    intro e he
    rw [hi2] at he
    have hmem : e ∈ arr2.flatten := mem_flatten.2 ⟨_, hplaced.index_lt k2, he⟩
    exact hk2 _ (h.mem_flatten2 (hrest.mem_iff.2 (List.mem_cons_of_mem _ hmem)))
  obtain ⟨hplaced1, r1, hold1, hnew1⟩ := h.placed1.replace_one hi1 hb1
    ⟨hash₁ k1, k1, (k2, x)⟩ rfl rfl
  obtain ⟨hplaced2, hnew2⟩ := hplaced.cons k2 (k1, x) hi2
  -- the entry of the first key is replaced, and one of the second key is put before its bucket
  have hlook1 : look1 hash₁ hash₂ target k1 k2 x (index (hash₁ k1) t.tbl1.length)
      (p1 ++ ⟨hash₁ k1, k1, (k2', v)⟩ :: s1) ⟨t.tbl1, t.tbl2, none, none, t.nItems⟩ =
      (.ok (p1 ++ ⟨hash₁ k1, k1, (k2, x)⟩ :: s1), ⟨t.tbl1, arr2, none, none, t.nItems⟩) := by
    refine look1_of_mem (fun e he => hne1 e (List.mem_append_left _ he)) rfl rfl ?_
    rw [if_neg hne]
    exact ⟨_, hrem⟩
  rw [← hb1] at hlook1
  have heq : insert hash₁ hash₂ target t k1 k2 x = (.ok (),
      ⟨t.tbl1.set (index (hash₁ k1) t.tbl1.length) (p1 ++ ⟨hash₁ k1, k1, (k2, x)⟩ :: s1),
        arr2.set (index (hash₂ k2) t.tbl1.length)
          (⟨hash₂ k2, k2, (k1, x)⟩ :: sub arr2 (index (hash₂ k2) t.tbl1.length)),
        t.nItems⟩) :=
    insert_eq hlook1 (if_neg (by simp)).symm (look2_of_not_mem hb2)
  rw [heq]
  have hold : (triples1 t).Perm ([(k1, k2', v)] ++ r1.map fun e => (e.key, e.item.1, e.item.2)) :=
    hold1.map _
  have hold2 : (triples2 t).Perm
      ([(k1, k2', v)] ++ arr2.flatten.map fun e => (e.item.1, e.key, e.item.2)) := by
    rw [← he2]
    exact hrest.map _
  have hr : ∀ p ∈ r1.map fun e => (e.key, e.item.1, e.item.2), p.1 ≠ k1 ∧ p.2.1 ≠ k2 :=
    fun p hp => ⟨(h.ne_of_perm hold hp).1, hk2 p (hold.mem_iff.2 (List.mem_append_right _ hp))⟩
  exact h.of_update hplaced1 hplaced2 List.length_set (List.length_set.trans hlen) hold
    (hnew1.map _) hold2 (hnew2.map _) (by simp) hr (by simp) id

variable (target) in
/-- **An admissible insertion is right**. -/
theorem Consistent.insert (h : Consistent hash₁ hash₂ t) {k1 : κ₁} {k2 : κ₂}
    (ha : Admissible hash₂ t k1 k2) (x : β) :
    Succeeds hash₁ hash₂ t k1 k2 x (insert hash₁ hash₂ target t k1 k2 x) := by
  by_cases hk1 : ∃ p ∈ triples1 t, p.1 = k1
  · obtain ⟨⟨k1', k2', v⟩, hp, hk⟩ := hk1
    obtain rfl : k1' = k1 := hk
    by_cases hk2 : k2 = k2'
    · subst hk2
      exact h.insert_same x hp ha.first
    · -- the item is the only one with the first key
      refine h.insert_other x hp hk2 fun q hq hqk => hk2 ?_
      rw [← hqk, h.eq_of_key1 hq hp (ha.same q hq hqk)]
  · have hnew : ∀ p ∈ triples1 t, p.1 ≠ k1 := fun p hp hk => hk1 ⟨p, hp, hk⟩
    refine h.insert_new x hnew (fun p hp hk => hnew p hp (ha.same p hp hk)) ?_
    exact ha.room.resolve_left hk1

theorem Good.insert (h : Good target hash₁ hash₂ t) {k1 : κ₁} {k2 : κ₂}
    (ha : Admissible hash₂ t k1 k2) (x : β) :
    Good target hash₁ hash₂ (insert hash₁ hash₂ target t k1 k2 x).2 := by
  have hs : Succeeds hash₁ hash₂ t k1 k2 x (Hash2Table.insert hash₁ hash₂ target t k1 k2 x) :=
    h.consistent.insert target ha x
  refine ⟨hs.consistent, ?_, ?_⟩
  · rw [hs.length_eq]
    exact hs.room h.room
  · rw [hs.length_eq]
    exact h.size

/-- The items of a list are inserted: they are new, and there is room for them. -/
theorem Good.mapi_ins {f : κ₁ → κ₂ → β → γ} {l : List (Entry κ₁ (κ₂ × β))}
    {newTbl : HashTable κ₁ κ₂ γ} (h : Good target hash₁ hash₂ newTbl)
    (hkeys1 : (l.map Entry.key).Nodup) (hkeys2 : (l.map fun e => e.item.1).Nodup)
    (hnew : ∀ e ∈ l, ∀ p ∈ triples1 newTbl, p.1 ≠ e.key ∧ p.2.1 ≠ e.item.1)
    (hroom : newTbl.nItems + l.length < newTbl.tbl1.length) :
    ∃ t', mapi.ins hash₁ hash₂ target f l newTbl = .ok t' ∧ Good target hash₁ hash₂ t' := by
  induction l generalizing newTbl with
  | nil => exact ⟨newTbl, rfl, h⟩
  | cons e l ih =>
    obtain ⟨hne, hnew⟩ := List.forall_mem_cons.1 hnew
    rw [List.map_cons, List.nodup_cons] at hkeys1 hkeys2
    rw [List.length_cons] at hroom
    -- the keys are new, so that the bucket has no entry of the second key
    have ha : Admissible hash₂ newTbl e.key e.item.1 := by
      refine ⟨.inr (by omega), fun p hp hk => absurd hk (hne p hp).2, ?_⟩
      intro e' r hb e'' he'' hk
      have hmem : e'' ∈ newTbl.tbl2.flatten := by
        refine mem_flatten.2 ⟨_, h.consistent.placed2.index_lt e.item.1, ?_⟩
        rw [hb]
        exact List.mem_cons_of_mem _ he''
      exact (hne _ (h.consistent.mem_flatten2 hmem)).2 hk
    have hs := h.consistent.insert target ha (f e.key e.item.1 e.item.2)
    have hg := h.insert ha (f e.key e.item.1 e.item.2)
    rcases hins : Hash2Table.insert hash₁ hash₂ target newTbl e.key e.item.1
      (f e.key e.item.1 e.item.2) with ⟨r, t'⟩
    rw [hins] at hs hg
    obtain rfl : r = .ok () := hs.ok
    rw [mapi.ins, hins]
    refine ih hg hkeys1.2 hkeys2.2 (fun e' he' p hp => ?_) ?_
    · rcases (hs.inserted p).1 hp with rfl | ⟨hp, -, -⟩
      · exact ⟨fun hk => hkeys1.1 (List.mem_map.2 ⟨e', he', hk.symm⟩),
          fun hk => hkeys2.1 (List.mem_map.2 ⟨e', he', hk.symm⟩)⟩
      · exact hnew e' he' p hp
    · have hcount := hs.count_le
      have hlen := hs.length_eq
      dsimp only at hcount hlen ⊢
      omega

theorem Good.mapi (h : Good target hash₁ hash₂ t) (f : κ₁ → κ₂ → β → γ) :
    ∃ t', mapi hash₁ hash₂ target f t = .ok t' ∧ Good target hash₁ hash₂ t' := by
  have hnodup1 := h.consistent.nodup1
  have hnodup2 := h.consistent.nodup_keys2
  rw [triples1, List.map_map] at hnodup1 hnodup2
  have hnew : Good target hash₁ hash₂ (mkTable target t.tbl1.length : HashTable κ₁ κ₂ γ) :=
    good_mkTable hash₁ hash₂ target _
  refine hnew.mapi_ins hnodup1 hnodup2 (fun e _ p hp => ?_) ?_
  · rw [triples1, mkTable, flatten_alloc] at hp
    exact absurd hp List.not_mem_nil
  · -- the new table has room for all items
    have hcount := h.consistent.count
    have hroom := h.room
    have hsize := h.size
    rw [triples1, List.length_map] at hcount
    rw [mkTable, length_alloc]
    dsimp only
    omega

/-- **The tables that are reached by admissible insertions** are in use. -/
theorem good_of_reachable
    (h : Reachable target hash₁ hash₂ (fun _ t k1 k2 => Admissible hash₂ t k1 k2) t) :
    Good target hash₁ hash₂ t := by
  induction h with
  | mkTable n => exact good_mkTable hash₁ hash₂ target n
  | insert ht k1 k2 x hok ih => exact ih.insert hok x
  | remove1 ht k1 ih => exact ih.remove1 k1
  | remove2 ht k2 ih => exact ih.remove2 k2
  | filteri ht pred ih => exact ih.filterFrom
  | filter ht pred ih => exact ih.filterFrom
  | mapi ht f ht' ih =>
    obtain ⟨t', hok, hgood⟩ := ih.mapi f
    obtain rfl := Except.ok.inj (hok.symm.trans ht')
    exact hgood
  | map ht f ht' ih =>
    obtain ⟨t', hok, hgood⟩ := ih.mapi fun _ _ => f
    obtain rfl := Except.ok.inj (hok.symm.trans ht')
    exact hgood
  | copy ht ih =>
    rw [copy_eq]
    exact ih
  | clear ht ih => exact ih.clear

/-! ### Insertions that are not admissible -/

section Frame

variable {k1 : κ₁} {k2 : κ₂} {x : β} {i : ℕ} {w : Work κ₁ κ₂ β}

variable (hash₁ hash₂ k1 k2 x i w) in
theorem look2_frame (b : Bucket κ₂ (κ₁ × β)) :
    (look2 hash₁ hash₂ k1 k2 x i b w).2.new1 = w.new1 ∧
      (look2 hash₁ hash₂ k1 k2 x i b w).2.new2 = w.new2 ∧
      (look2 hash₁ hash₂ k1 k2 x i b w).2.nItems = w.nItems := by
  induction b with
  | nil => exact ⟨rfl, rfl, rfl⟩
  | cons e r ih =>
    rw [look2]
    split
    · split
      · split <;> exact ⟨rfl, rfl, rfl⟩
      · exact ⟨rfl, rfl, rfl⟩
    · rcases hl : look2 hash₁ hash₂ k1 k2 x i r w with ⟨_ | _ | _, w'⟩ <;> rw [hl] at ih <;>
        exact ih

theorem look1_nItems {b : Bucket κ₁ (κ₂ × β)} (hb : ∃ e ∈ b, e.hash = hash₁ k1 ∧ e.key = k1) :
    (look1 hash₁ hash₂ target k1 k2 x i b w).2.nItems = w.nItems := by
  induction b with
  | nil => simp at hb
  | cons e r ih =>
    rw [look1]
    split_ifs with he hk
    · split <;> rfl
    · rfl
    · have hr : ∃ e ∈ r, e.hash = hash₁ k1 ∧ e.key = k1 := by
        obtain ⟨e', he', hk'⟩ := hb
        rcases List.mem_cons.1 he' with rfl | he'
        · exact absurd hk' he
        · exact ⟨e', he', hk'⟩
      have ih := ih hr
      rcases hl : look1 hash₁ hash₂ target k1 k2 x i r w with ⟨_ | _ | _, w'⟩ <;> rw [hl] at ih <;>
        exact ih

end Frame

/-- What an insertion leaves untouched after its first walk. -/
theorem insert_frame {k1 : κ₁} {k2 : κ₂} {x : β}
    {r : Except HashTableRep.Exn (Bucket κ₁ (κ₂ × β))}
    {w : Work κ₁ κ₂ β}
    (h1 : look1 hash₁ hash₂ target k1 k2 x (index (hash₁ k1) t.tbl1.length)
      (sub t.tbl1 (index (hash₁ k1) t.tbl1.length)) ⟨t.tbl1, t.tbl2, none, none, t.nItems⟩ =
        (r, w)) :
    (insert hash₁ hash₂ target t k1 k2 x).2.nItems = w.nItems ∧
      ∀ arr2, w.new2 = some arr2 → (insert hash₁ hash₂ target t k1 k2 x).2.tbl2 = arr2 := by
  rw [insert, h1]
  rcases r with e | b1
  · exact ⟨rfl, fun arr2 h2 => by simp [Work.table, h2]⟩
  dsimp only
  set w1 := if b1 = [] then w
    else { w with arr1 := w.arr1.set (index (hash₁ k1) t.tbl1.length) b1 } with hw1
  have hnew2 : w1.new2 = w.new2 := by
    rw [hw1]
    split <;> rfl
  have hnItems : w1.nItems = w.nItems := by
    rw [hw1]
    split <;> rfl
  obtain ⟨-, hf2, hf3⟩ := look2_frame hash₁ hash₂ k1 k2 x
    (index (hash₂ k2) t.tbl1.length) w1 (sub w1.arr2 (index (hash₂ k2) t.tbl1.length))
  rcases hl : look2 hash₁ hash₂ k1 k2 x (index (hash₂ k2) t.tbl1.length)
    (sub w1.arr2 (index (hash₂ k2) t.tbl1.length)) w1 with ⟨e | b2, w2⟩
  · rw [hl] at hf2 hf3
    dsimp only at hf2 hf3 ⊢
    exact ⟨hf3.trans hnItems, fun arr2 h2 => by simp [Work.table, hf2, hnew2, h2]⟩
  · rw [hl] at hf2 hf3
    dsimp only at hf2 hf3 ⊢
    split <;> exact ⟨hf3.trans hnItems, fun arr2 h2 => by simp [Work.table, hf2, hnew2, h2]⟩

variable (target) in
theorem Consistent.insert_nItems (h : Consistent hash₁ hash₂ t) (k1 : κ₁) (k2 : κ₂) (x : β) :
    ((∃ p ∈ triples1 t, p.1 = k1) →
      (Hash2Table.insert hash₁ hash₂ target t k1 k2 x).2.nItems = t.nItems) ∧
    ((¬∃ p ∈ triples1 t, p.1 = k1) →
      (Hash2Table.insert hash₁ hash₂ target t k1 k2 x).2.nItems = t.nItems + 1) := by
  rcases hl : look1 hash₁ hash₂ target k1 k2 x (index (hash₁ k1) t.tbl1.length)
    (sub t.tbl1 (index (hash₁ k1) t.tbl1.length)) ⟨t.tbl1, t.tbl2, none, none, t.nItems⟩ with ⟨r, w⟩
  rw [(insert_frame hl).1]
  constructor
  · intro hk
    have hn : (look1 hash₁ hash₂ target k1 k2 x (index (hash₁ k1) t.tbl1.length)
        (sub t.tbl1 (index (hash₁ k1) t.tbl1.length))
        ⟨t.tbl1, t.tbl2, none, none, t.nItems⟩).2.nItems = t.nItems :=
      look1_nItems ((h.mem_bucket k1).1 hk)
    rwa [hl] at hn
  · intro hk
    have hb : ∀ e ∈ sub t.tbl1 (index (hash₁ k1) t.tbl1.length), e.key ≠ k1 := by
      rintro e he rfl
      exact hk ⟨_, h.mem_sub1 he, rfl⟩
    rw [look1_of_not_mem _ _ _ _ _ _ _ hb] at hl
    have hn : (addKey1 hash₁ target k1 k2 x (index (hash₁ k1) t.tbl1.length)
      ⟨t.tbl1, t.tbl2, none, none, t.nItems⟩).2.nItems = t.nItems + 1 := addKey1_nItems
    rwa [hl] at hn

theorem Consistent.insert_grow (h : Consistent hash₁ hash₂ t) {k1 : κ₁} (k2 : κ₂) (x : β)
    (hk : ¬∃ p ∈ triples1 t, p.1 = k1) (hfull : (t.tbl1.length : ℤ) ≤ t.nItems + 1) :
    (Hash2Table.insert hash₁ hash₂ target t k1 k2 x).2.tbl2.flatten.Perm t.tbl2.flatten := by
  have hpos := h.placed1.pos
  have hb : ∀ e ∈ sub t.tbl1 (index (hash₁ k1) t.tbl1.length), e.key ≠ k1 := by
    rintro e he rfl
    exact hk ⟨_, h.mem_sub1 he, rfl⟩
  have hlook := look1_of_not_mem hash₁ hash₂ target k2 x (index (hash₁ k1) t.tbl1.length)
    ⟨t.tbl1, t.tbl2, none, none, t.nItems⟩ hb
  simp only [addKey1, growTableIfNeeded, List.length_set, if_pos hfull] at hlook
  rcases hg1 : growTable target (t.tbl1.set (index (hash₁ k1) t.tbl1.length)
    (⟨hash₁ k1, k1, (k2, x)⟩ :: sub t.tbl1 (index (hash₁ k1) t.tbl1.length)))
    (t.tbl1.length + t.tbl1.length) with e | tbl1
  · rw [hg1] at hlook
    rw [Hash2Table.insert, hlook]
    exact .refl _
  rw [hg1] at hlook
  dsimp only [Except.map] at hlook
  rcases hg2 : growTable target t.tbl2 tbl1.length with e | tbl2
  · rw [hg2] at hlook
    rw [Hash2Table.insert, hlook]
    exact .refl _
  · rw [hg2] at hlook
    have hlen := length_growTable hg1
    rw [(insert_frame hlook).2 tbl2 rfl]
    exact growTable_eq (by omega) hg2

theorem Consistent.room_of_inserted (h : Consistent hash₁ hash₂ t) {k1 : κ₁} {k2 : κ₂} {x : β}
    (hc : Consistent hash₁ hash₂ (Hash2Table.insert hash₁ hash₂ target t k1 k2 x).2)
    (hi : Inserted t (Hash2Table.insert hash₁ hash₂ target t k1 k2 x).2 k1 k2 x) :
    (∃ p ∈ triples1 t, p.1 = k1) ∨ t.nItems + 1 < t.tbl1.length := by
  by_contra hcon
  obtain ⟨hk, hfull⟩ := not_or.1 hcon
  -- the second array has the new item, although it has the old entries only
  have hmem := (hc.mem_iff _).1 ((hi (k1, k2, x)).2 (.inl rfl))
  obtain ⟨e, he, heq⟩ := mem_triples2.1 hmem
  rw [(h.insert_grow k2 x hk (not_lt.1 hfull)).mem_iff] at he
  refine hk ⟨(k1, k2, x), (h.mem_iff _).2 ?_, rfl⟩
  rw [← heq]
  exact mem_triples2.2 ⟨e, he, rfl⟩

/-- An insertion that is right has discarded no item by its second key alone. -/
theorem Consistent.same_of_inserted (h : Consistent hash₁ hash₂ t) {k1 : κ₁} {k2 : κ₂} {x : β}
    (hc : Consistent hash₁ hash₂ (Hash2Table.insert hash₁ hash₂ target t k1 k2 x).2)
    (hi : Inserted t (Hash2Table.insert hash₁ hash₂ target t k1 k2 x).2 k1 k2 x)
    (hp : p ∈ triples1 t) (hpk : p.2.1 = k2) : p.1 = k1 := by
  by_contra hne
  obtain ⟨hold, hadd⟩ := h.insert_nItems target k1 k2 x
  generalize Hash2Table.insert hash₁ hash₂ target t k1 k2 x = r at *
  -- the items that stay
  set stay : κ₁ × κ₂ × β → Bool := fun q => decide (q.1 ≠ k1 ∧ q.2.1 ≠ k2) with hstay
  have hnew : (triples1 r.2).Perm ((k1, k2, x) :: (triples1 t).filter stay) := by
    refine (List.perm_ext_iff_of_nodup hc.nodup ?_).2 fun q => ?_
    · refine List.nodup_cons.2 ⟨fun hmem => ?_, h.nodup.filter _⟩
      simpa [hstay] using (List.mem_filter.1 hmem).2
    · rw [hi q, List.mem_cons, List.mem_filter, decide_eq_true_iff]
  have hcount := hc.count
  rw [hnew.length_eq, List.length_cons] at hcount
  have hcount' := h.count
  -- the item with the second key goes
  obtain ⟨l₁, l₂, hl⟩ := List.append_of_mem hp
  have hpstay : stay p = false := by simp [hstay, hpk]
  rw [hl, List.filter_append, List.filter_cons_of_neg (by simp [hpstay]),
    ← List.filter_append] at hcount
  rw [hl, List.length_append, List.length_cons] at hcount'
  have hle := List.length_filter_le stay (l₁ ++ l₂)
  rw [List.length_append] at hle
  by_cases hk : ∃ q ∈ triples1 t, q.1 = k1
  · -- another item goes as well, which has the first key
    obtain ⟨q, hq, hqk⟩ := hk
    have hq' : q ∈ l₁ ++ l₂ := by
      rw [hl] at hq
      rcases List.mem_append.1 hq with hq | hq
      · exact List.mem_append_left _ hq
      · rcases List.mem_cons.1 hq with rfl | hq
        · exact absurd hqk hne
        · exact List.mem_append_right _ hq
    have hlt : ((l₁ ++ l₂).filter stay).length < (l₁ ++ l₂).length :=
      List.length_filter_lt_length_iff_exists.2 ⟨q, hq', by simp [hstay, hqk]⟩
    rw [List.length_append] at hlt
    have := hold ⟨q, hq, hqk⟩
    omega
  · have := hadd hk
    omega

theorem Consistent.first_of_inserted (h : Consistent hash₁ hash₂ t) {k1 : κ₁} {k2 : κ₂} {x : β}
    (hc : Consistent hash₁ hash₂ (Hash2Table.insert hash₁ hash₂ target t k1 k2 x).2)
    (hsame : ∀ p ∈ triples1 t, p.2.1 = k2 → p.1 = k1) {e : Entry κ₂ (κ₁ × β)}
    {r : Bucket κ₂ (κ₁ × β)} (hb : sub t.tbl2 (index (hash₂ k2) t.tbl2.length) = e :: r)
    {e' : Entry κ₂ (κ₁ × β)} (he' : e' ∈ r) : e'.key ≠ k2 := by
  rintro rfl
  have hmem : e' ∈ t.tbl2.flatten := by
    refine mem_flatten.2 ⟨_, h.placed2.index_lt e'.key, ?_⟩
    rw [hb]
    exact List.mem_cons_of_mem _ he'
  have hp := h.mem_flatten2 hmem
  obtain rfl : e'.item.1 = k1 := hsame _ hp rfl
  obtain ⟨p1, s1, hb1, hne1⟩ := h.split1 hp
  obtain ⟨p2, s2, hb2, hne2⟩ := h.split2 hp
  have hi2 : index (hash₂ e'.key) t.tbl1.length < t.tbl2.length := by
    rw [h.length_eq]
    exact h.placed2.index_lt e'.key
  have hnodup := hc.nodup2
  rw [triples2, List.map_map] at hnodup
  rw [insert_same_eq x hb1 hb2 (fun e he => hne1 e (List.mem_append_left _ he))
    fun e he => hne2 e (List.mem_append_left _ he)] at hnodup
  have hbucket := HashTableRep.nodup_sub hnodup (index (hash₂ e'.key) t.tbl1.length)
  rw [sub_set hi2] at hbucket
  -- the entry before that of the key has become one of the key
  rcases p2 with _ | ⟨e2, p2⟩
  · rw [h.length_eq, hb] at hb2
    obtain ⟨rfl, rfl⟩ := List.cons.inj hb2
    exact hne2 e' (by simpa using he') rfl
  · simp at hbucket

/-- **An insertion that is right is admissible**. -/
theorem Consistent.admissible (h : Consistent hash₁ hash₂ t) {k1 : κ₁} {k2 : κ₂} {x : β}
    (hc : Consistent hash₁ hash₂ (Hash2Table.insert hash₁ hash₂ target t k1 k2 x).2)
    (hi : Inserted t (Hash2Table.insert hash₁ hash₂ target t k1 k2 x).2 k1 k2 x) :
    Admissible hash₂ t k1 k2 := by
  have hsame : ∀ p ∈ triples1 t, p.2.1 = k2 → p.1 = k1 :=
    fun p hp hpk => h.same_of_inserted hc hi hp hpk
  exact ⟨h.room_of_inserted hc hi, hsame, fun e r hb e' he' => h.first_of_inserted hc hsame hb he'⟩

/-- **Hash tables with two keys**: in every run whose insertions are admissible, the tables that are
reached are consistent, and an insertion keeps one consistent and discards exactly the old items
that have one of its keys if and only if it is admissible. -/
theorem hash2_table_correct (target : Target) (hash₁ : κ₁ → ℕ) (hash₂ : κ₂ → ℕ)
    (t : HashTable κ₁ κ₂ β)
    (h : Reachable target hash₁ hash₂ (fun _ t k1 k2 => Admissible hash₂ t k1 k2) t) :
    Consistent hash₁ hash₂ t ∧ ∀ k1 k2 x,
      (Consistent hash₁ hash₂ (Hash2Table.insert hash₁ hash₂ target t k1 k2 x).2 ∧
        Inserted t (Hash2Table.insert hash₁ hash₂ target t k1 k2 x).2 k1 k2 x) ↔
      Admissible hash₂ t k1 k2 := by
  have hc := (good_of_reachable h).consistent
  refine ⟨hc, fun k1 k2 x => ⟨fun hr => hc.admissible hr.1 hr.2, fun ha => ?_⟩⟩
  have hs : Succeeds hash₁ hash₂ t k1 k2 x (Hash2Table.insert hash₁ hash₂ target t k1 k2 x) :=
    hc.insert target ha x
  exact ⟨hs.consistent, hs.inserted⟩

/-- The theorem at a table of one item. -/
theorem hash2_table_correct_single :
    Consistent id id
        (Hash2Table.insert id id .target64 (mkTable .target64 0 : HashTable ℕ ℕ ℕ) 1 2 10).2 ∧
      ∀ k1 k2 x, (Consistent id id (Hash2Table.insert id id .target64
            (Hash2Table.insert id id .target64 (mkTable .target64 0) 1 2 10).2 k1 k2 x).2 ∧
          Inserted (Hash2Table.insert id id .target64 (mkTable .target64 0) 1 2 10).2
            (Hash2Table.insert id id .target64
              (Hash2Table.insert id id .target64 (mkTable .target64 0) 1 2 10).2 k1 k2 x).2
            k1 k2 x) ↔
        Admissible id (Hash2Table.insert id id .target64 (mkTable .target64 0) 1 2 10).2 k1 k2 := by
  refine hash2_table_correct .target64 id id _ (.insert (.mkTable 0) 1 2 10 ⟨.inr ?_, ?_, ?_⟩)
  · rw [mkTable, length_alloc, roundUp_of_le _ (by decide)]
    decide
  · intro p hp
    rw [triples1, mkTable, flatten_alloc] at hp
    exact absurd hp List.not_mem_nil
  · intro e r hb
    rw [mkTable, alloc, sub_replicate] at hb
    exact absurd hb (by simp)

/-- An item with another first key is discarded, but it is still counted. -/
theorem not_hash2_table_consistent :
    ¬∀ (hash₁ hash₂ : ℕ → ℕ) (t : HashTable ℕ ℕ ℕ),
      Reachable .target64 hash₁ hash₂ (fun _ _ _ _ => True) t → Consistent hash₁ hash₂ t := by
  intro hall
  have hcons := hall id id _
    (.insert (.insert (.mkTable 0) 1 1 10 trivial) 2 1 20 trivial)
  have hcount := hcons.count
  revert hcount
  rw [mkTable, alloc, roundUp_of_le _ (by decide)]
  decide

end SmlNj.Hash2Table
