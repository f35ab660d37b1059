import Mathlib.Data.List.Perm.Basic
import Mathlib.Data.List.Nodup
import Mathlib.Tactic.Ring

/-!
# The representation of hash tables

A hash table is an array of buckets; an entry is in the bucket that its hash value selects.  The
arrays double their size when they get full.

## Main definitions

* `Entry`, `Bucket`, `Table` — the data.
* `roundUp`, `alloc` — the allocation of a table.
* `growTable`, `growTableIfNeeded`, `clear`, `copy` — the operations on whole tables.
* `remove` — the removal of an entry.
* `Placed` — each entry is in the bucket of its own hash value.

## Main results

* `Placed.remove_eq` — the removal takes out the entry of a key.
* `Placed.cons`, `Placed.replace` — a new entry, and another entry for a key.
* `growTable_eq` — a table that grows keeps its entries.
-/

namespace SmlNj.HashTableRep

/-- The exceptions that the operations raise; the one for a key that is not there belongs to the
table. -/
inductive Exn
  | notFound
  | fail (msg : String)
  | size
  deriving DecidableEq

/-- The targets of the compiler. -/
inductive Target
  | target32
  | target64
  deriving DecidableEq

/-- The greatest length of an array: the length field has seven bits less than a word, whose
tag is not counted. -/
def maxLen : Target → ℕ
  | .target32 => 2 ^ (31 - 7) - 1
  | .target64 => 2 ^ (63 - 7) - 1

/-- The greatest `k` such that `2 ^ k` is at most a positive number. -/
def log2 (n : ℕ) : ℕ := lp n 0
where
  lp : ℕ → ℕ → ℕ
    | 0, k => k - 1
    | n + 1, k => lp ((n + 1) / 2) (k + 1)

/-- The power of two. -/
def pow2 (k : ℕ) : ℕ := lp k 1
where
  lp : ℕ → ℕ → ℕ
    | 0, n => n
    | k + 1, n => lp k (n + n)

/-- The greatest size of a table that is allocated: a power of two. -/
def maxSize (target : Target) : ℕ := pow2 (log2 (maxLen target))

def minSize : ℕ := 32

/-- An entry of a bucket: the hash value, the key and the item. -/
structure Entry (α β : Type*) where
  hash : ℕ
  key : α
  item : β
  deriving DecidableEq

abbrev Bucket (α β : Type*) := List (Entry α β)

abbrev Table (α β : Type*) := List (Bucket α β)

variable {α β : Type*}

def sub (t : Table α β) (i : ℕ) : Bucket α β := t.getD i []

/-- The index that a hash value selects in a table of a size, which is a power of two. -/
def index (i sz : ℕ) : ℕ := i &&& (sz - 1)

def roundUp.f (n : ℤ) (i : ℕ) (hi : 0 < i) : ℕ :=
  if n ≤ i then i else roundUp.f n (i + i) (by omega)
  termination_by (n - i).toNat

def roundUp (target : Target) (n : ℤ) : ℕ :=
  if (maxSize target : ℤ) ≤ n then maxSize target else roundUp.f n minSize (by decide)

def alloc (target : Target) (sizeHint : ℤ) : Table α β :=
  List.replicate (roundUp target sizeHint) []

/-- A table is copied into one of the given size. -/
def growTable (target : Target) (table : Table α β) (newSz : ℕ) : Except Exn (Table α β) :=
  if maxLen target < newSz then .error .size
  else .ok (table.flatten.foldl (fun newArr e =>
    newArr.set (index e.hash newSz) (e :: sub newArr (index e.hash newSz)))
    (List.replicate newSz []))

def growTableIfNeeded (target : Target) (table : Table α β) (nItems : ℤ) :
    Except Exn (Option (Table α β)) :=
  if (table.length : ℤ) ≤ nItems then (growTable target table (table.length + table.length)).map some
  else .ok none

def clear (table : Table α β) : Table α β := table.map fun _ => []

def copy (table : Table α β) : Table α β := (List.range table.length).map fun i => sub table i

section Remove

variable [DecidableEq α]

/-- The entry of a key is looked for in a bucket, and taken out of it. -/
def remove.look (hash : ℕ) (key : α) : Bucket α β → Option (β × Bucket α β)
  | [] => none
  | e :: r =>
    if e.hash = hash ∧ key = e.key then some (e.item, r)
    else (remove.look hash key r).map fun p => (p.1, e :: p.2)

/-- The entry of a key is removed, and its item is returned.  The exception is the one for a key
that is not there. -/
def remove (hashVal : α → ℕ) (arr : Table α β) (exn : Exn) (key : α) :
    Except Exn (β × Table α β) :=
  let indx := index (hashVal key) arr.length
  match remove.look (hashVal key) key (sub arr indx) with
  | some (item, bucket) => .ok (item, arr.set indx bucket)
  | none => .error exn

end Remove

/-! ### Sizes -/

variable {i : ℕ} {e : Entry α β}

theorem index_lt {sz : ℕ} (h : 0 < sz) : index i sz < sz := by
  have : i &&& (sz - 1) ≤ sz - 1 := Nat.and_le_right
  rw [index]
  omega

theorem le_roundUp_f (n : ℤ) (i : ℕ) (hi : 0 < i) : n ≤ roundUp.f n i hi ∧ i ≤ roundUp.f n i hi := by
  fun_induction roundUp.f n i hi with
  | case1 i hi h => exact ⟨h, le_rfl⟩
  | case2 i hi h ih => exact ⟨ih.1, by omega⟩

theorem roundUp_f_le {n : ℤ} {k : ℕ} {hi : 0 < i} (hp : ∃ j, i = 2 ^ j) (hik : i ≤ 2 ^ k)
    (hn : n ≤ (2 ^ k : ℕ)) : roundUp.f n i hi ≤ 2 ^ k := by
  fun_induction roundUp.f n i hi with
  | case1 i hi h => exact hik
  | case2 i hi h ih =>
    obtain ⟨j, rfl⟩ := hp
    refine ih ⟨j + 1, by ring⟩ ?_
    -- the power of two is less than the bound, so that its double is no greater
    have hlt : 2 ^ j < 2 ^ k := by omega
    have hjk : j < k := (Nat.pow_lt_pow_iff_right (by decide)).1 hlt
    calc 2 ^ j + 2 ^ j = 2 ^ (j + 1) := by ring
      _ ≤ 2 ^ k := Nat.pow_le_pow_right (by decide) hjk

theorem pow2_lp (k n : ℕ) : pow2.lp k n = 2 ^ k * n := by
  induction k generalizing n with
  | zero => simp [pow2.lp]
  | succ k ih =>
    rw [pow2.lp, ih]
    ring

theorem le_log2_lp_add_one (n k : ℕ) : k ≤ log2.lp n k + 1 := by
  fun_induction log2.lp n k with
  | case1 k => omega
  | case2 n k ih => omega

theorem le_log2_lp {n j : ℕ} (h : 2 ^ j ≤ n) (k : ℕ) : j + k ≤ log2.lp n k := by
  induction j generalizing n k with
  | zero =>
    rcases n with _ | n
    · exact absurd h (by decide)
    · have := le_log2_lp_add_one ((n + 1) / 2) (k + 1)
      rw [log2.lp]
      omega
  | succ j ih =>
    rcases n with _ | n
    · exact absurd h (Nat.pow_pos (by decide)).not_ge
    · have hhalf : 2 ^ j ≤ (n + 1) / 2 := by
        rw [Nat.le_div_iff_mul_le (by decide)]
        exact h
      have := ih hhalf (k + 1)
      rw [log2.lp]
      omega

theorem maxSize_eq (target : Target) : ∃ k, 5 ≤ k ∧ maxSize target = 2 ^ k := by
  refine ⟨log2 (maxLen target), ?_, by rw [maxSize, pow2, pow2_lp, mul_one]⟩
  have h : 2 ^ 5 ≤ maxLen target := by cases target <;> decide
  exact le_log2_lp h 0

theorem roundUp_pos (target : Target) (n : ℤ) : 0 < roundUp target n := by
  rw [roundUp]
  split
  · obtain ⟨k, -, hmax⟩ := maxSize_eq target
    rw [hmax]
    exact Nat.pow_pos (by decide)
  · have hpos : 0 < minSize := by decide
    have := (le_roundUp_f n minSize hpos).2
    exact hpos.trans_le this

theorem roundUp_of_le (target : Target) {n : ℤ} (hn : n < minSize) :
    roundUp target n = minSize := by
  obtain ⟨k, hk, hmax⟩ := maxSize_eq target
  have hmin : minSize ≤ 2 ^ k := Nat.pow_le_pow_right (n := 2) (i := 5) (by decide) hk
  rw [roundUp, if_neg (by omega), roundUp.f, if_pos hn.le]

theorem roundUp_le (target : Target) (n : ℤ) : roundUp target n ≤ maxSize target := by
  rw [roundUp]
  split
  case isTrue => exact le_rfl
  case isFalse h =>
    obtain ⟨k, hk, hmax⟩ := maxSize_eq target
    rw [hmax] at h ⊢
    have hmin : minSize ≤ 2 ^ k := Nat.pow_le_pow_right (n := 2) (i := 5) (by decide) hk
    exact roundUp_f_le ⟨5, rfl⟩ hmin (not_le.1 h).le

theorem le_roundUp_roundUp (target : Target) (n : ℤ) :
    roundUp target n ≤ roundUp target (roundUp target n) := by
  have hle := roundUp_le target n
  conv_rhs => rw [roundUp]
  split
  case isTrue => exact hle
  case isFalse =>
    have hpos : 0 < minSize := by decide
    exact_mod_cast (le_roundUp_f (roundUp target n) minSize hpos).1

/-! ### Entries -/

def others (t : Table α β) (i : ℕ) : List (Entry α β) :=
  (t.take i).flatten ++ (t.drop (i + 1)).flatten

theorem flatten_set_perm {t : Table α β} (hi : i < t.length) (b : Bucket α β) :
    (t.set i b).flatten.Perm (b ++ others t i) := by
  rw [List.set_eq_take_append_cons_drop, if_pos hi, List.flatten_append]
  exact List.perm_append_comm_assoc _ _ _

theorem sub_of_lt {t : Table α β} (hi : i < t.length) : sub t i = t[i] := by
  rw [sub, List.getD_eq_getElem?_getD, List.getElem?_eq_getElem hi, Option.getD_some]

theorem sub_of_le {t : Table α β} (hi : t.length ≤ i) : sub t i = [] := by
  rw [sub, List.getD_eq_getElem?_getD, List.getElem?_eq_none hi, Option.getD_none]

theorem flatten_perm {t : Table α β} (hi : i < t.length) :
    t.flatten.Perm (sub t i ++ others t i) := by
  have h := flatten_set_perm hi t[i]
  rwa [List.set_getElem_self, ← sub_of_lt hi] at h

theorem sub_set {t : Table α β} {j : ℕ} (hi : i < t.length) (b : Bucket α β) :
    sub (t.set i b) j = if i = j then b else sub t j := by
  rw [sub, List.getD_eq_getElem?_getD,
    List.getElem?_set]
  split
  case isTrue hij =>
    rw [Option.getD_some]
  case isFalse => rfl

theorem mem_flatten {t : Table α β} : e ∈ t.flatten ↔ ∃ i < t.length, e ∈ sub t i := by
  rw [List.mem_flatten]
  constructor
  · rintro ⟨b, hb, he⟩
    obtain ⟨i, hi, rfl⟩ := List.getElem_of_mem hb
    exact ⟨i, hi, by rwa [sub_of_lt hi]⟩
  · rintro ⟨i, hi, he⟩
    rw [sub_of_lt hi] at he
    exact ⟨t[i], List.getElem_mem hi, he⟩

/-- **Each entry is in the bucket of its own hash value**. -/
structure Placed (hashVal : α → ℕ) (t : Table α β) : Prop where
  pos : 0 < t.length
  /-- The entries have the hash values of their keys. -/
  hash_eq : ∀ e ∈ t.flatten, e.hash = hashVal e.key
  /-- The bucket is the one of the hash value. -/
  index_eq : ∀ i < t.length, ∀ e ∈ sub t i, index e.hash t.length = i

section Placed

variable {hashVal : α → ℕ} {t : Table α β}

theorem Placed.index_lt (h : Placed hashVal t) (key : α) :
    index (hashVal key) t.length < t.length :=
  HashTableRep.index_lt h.pos

theorem Placed.mem_sub (h : Placed hashVal t) (he : e ∈ t.flatten) :
    e ∈ sub t (index (hashVal e.key) t.length) := by
  obtain ⟨i, hi, hei⟩ := mem_flatten.1 he
  rwa [← h.hash_eq e he, h.index_eq i hi e hei]

theorem Placed.set (h : Placed hashVal t) (hi : i < t.length) {b : Bucket α β}
    (hb : ∀ e ∈ b, e.hash = hashVal e.key ∧ index e.hash t.length = i) :
    Placed hashVal (t.set i b) := by
  have hsub : ∀ j < t.length, ∀ e ∈ sub (t.set i b) j,
      e.hash = hashVal e.key ∧ index e.hash t.length = j := by
    intro j hj e he
    rw [sub_set hi] at he
    split at he
    case isTrue hij => exact hij ▸ hb e he
    case isFalse => exact ⟨h.hash_eq e (mem_flatten.2 ⟨j, hj, he⟩), h.index_eq j hj e he⟩
  refine ⟨by simpa using h.pos, fun e he => ?_, fun j hj e he => ?_⟩
  · obtain ⟨j, hj, hej⟩ := mem_flatten.1 he
    exact (hsub j (by simpa using hj) e hej).1
  · rw [List.length_set] at hj ⊢
    exact (hsub j hj e he).2

theorem Placed.bucket (h : Placed hashVal t) (hi : i < t.length) (he : e ∈ sub t i) :
    e.hash = hashVal e.key ∧ index e.hash t.length = i :=
  ⟨h.hash_eq e (mem_flatten.2 ⟨i, hi, he⟩), h.index_eq i hi e he⟩

/-- **A new entry** is put before the others of its bucket. -/
theorem Placed.cons (h : Placed hashVal t) (key : α) (item : β) {i : ℕ}
    (hi : i = index (hashVal key) t.length) :
    Placed hashVal (t.set i (⟨hashVal key, key, item⟩ :: sub t i)) ∧
      (t.set i (⟨hashVal key, key, item⟩ :: sub t i)).flatten.Perm
        (⟨hashVal key, key, item⟩ :: t.flatten) := by
  have hlt : i < t.length := hi ▸ h.index_lt key
  constructor
  · refine h.set hlt (List.forall_mem_cons.2 ⟨⟨rfl, hi.symm⟩, fun e he => h.bucket hlt he⟩)
  · exact (flatten_set_perm hlt _).trans ((flatten_perm hlt).symm.cons _)

/-- **An entry of a bucket is replaced** by others for its key, or by none. -/
theorem Placed.replace (h : Placed hashVal t) (hi : i < t.length) {p s : Bucket α β}
    (hb : sub t i = p ++ e :: s) {l : List (Entry α β)}
    (hl : ∀ e' ∈ l, e'.hash = hashVal e'.key ∧ e'.key = e.key) :
    Placed hashVal (t.set i (p ++ l ++ s)) ∧ ∃ r, t.flatten.Perm (e :: r) ∧
      (t.set i (p ++ l ++ s)).flatten.Perm (l ++ r) := by
  have hbucket : ∀ e' ∈ p ++ e :: s, e'.hash = hashVal e'.key ∧ index e'.hash t.length = i :=
    fun e' he' => h.bucket hi (hb ▸ he')
  constructor
  · refine h.set hi fun e' he' => ?_
    rcases List.mem_append.1 he' with he' | he'
    · rcases List.mem_append.1 he' with he' | he'
      · exact hbucket e' (by simp [he'])
      · obtain ⟨hhash, hkey⟩ := hl e' he'
        have hmem := hbucket e (by simp)
        refine ⟨hhash, ?_⟩
        rw [hhash, hkey, ← hmem.1, hmem.2]
    · exact hbucket e' (by simp [he'])
  · refine ⟨p ++ s ++ others t i, ?_, ?_⟩
    · refine (flatten_perm hi).trans ?_
      rw [hb]
      simp
    · refine (flatten_set_perm hi _).trans ?_
      simpa using List.perm_append_comm_assoc p l (s ++ others t i)

/-- **An entry of a bucket is replaced** by another one for its key. -/
theorem Placed.replace_one (h : Placed hashVal t) (hi : i < t.length) {p s : Bucket α β}
    (hb : sub t i = p ++ e :: s) (e' : Entry α β) (hhash : e'.hash = hashVal e'.key)
    (hkey : e'.key = e.key) :
    Placed hashVal (t.set i (p ++ e' :: s)) ∧ ∃ r, t.flatten.Perm (e :: r) ∧
      (t.set i (p ++ e' :: s)).flatten.Perm (e' :: r) := by
  have hl : ∀ e'' ∈ [e'], e''.hash = hashVal e''.key ∧ e''.key = e.key := by simp [hhash, hkey]
  simpa using h.replace hi hb hl

theorem nodup_sub {t : Table α β} (h : (t.flatten.map Entry.key).Nodup) (i : ℕ) :
    ((sub t i).map Entry.key).Nodup := by
  by_cases hi : i < t.length
  · have := ((flatten_perm hi).map Entry.key).nodup_iff.1 h
    rw [List.map_append] at this
    exact (List.nodup_append.1 this).1
  · rw [sub_of_le (not_lt.1 hi)]
    exact List.nodup_nil

theorem Placed.split (h : Placed hashVal t) (hnodup : (t.flatten.map Entry.key).Nodup)
    (he : e ∈ t.flatten) :
    ∃ p s, sub t (index (hashVal e.key) t.length) = p ++ e :: s ∧
      ∀ e' ∈ p ++ s, e'.key ≠ e.key := by
  obtain ⟨p, s, hps⟩ := List.append_of_mem (h.mem_sub he)
  refine ⟨p, s, hps, fun e' he' hkey => ?_⟩
  have hbucket := nodup_sub hnodup (index (hashVal e.key) t.length)
  rw [hps, List.map_append, List.map_cons, List.nodup_middle, List.nodup_cons] at hbucket
  refine hbucket.1 ?_
  rw [← List.map_append]
  exact List.mem_map.2 ⟨e', he', hkey⟩

end Placed

section Remove

variable [DecidableEq α] {hashVal : α → ℕ} {t : Table α β}

theorem remove.look_spec (hash : ℕ) (key : α) (b : Bucket α β) :
    match remove.look hash key b with
    | some (item, b') => ∃ p e s, b = p ++ e :: s ∧ b' = p ++ s ∧ e.item = item ∧ e.key = key
    | none => ∀ e ∈ b, ¬(e.hash = hash ∧ key = e.key) := by
  induction b with
  | nil => simp [remove.look]
  | cons e r ih =>
    rw [remove.look]
    split_ifs with h
    · exact ⟨[], e, r, rfl, rfl, rfl, h.2.symm⟩
    · rcases hl : remove.look hash key r with _ | ⟨item, b'⟩
      · rw [hl] at ih
        exact List.forall_mem_cons.2 ⟨h, ih⟩
      · rw [hl] at ih
        obtain ⟨p, e', s, rfl, rfl, hitem, hkey⟩ := ih
        exact ⟨e :: p, e', s, rfl, rfl, hitem, hkey⟩

/-- **The removal** takes out the entry of a key. -/
theorem Placed.remove_eq (h : Placed hashVal t) (exn : Exn) {key : α}
    (hkey : ∃ e ∈ t.flatten, e.key = key) :
    ∃ e t', remove hashVal t exn key = .ok (e.item, t') ∧ e.key = key ∧ Placed hashVal t' ∧
      t'.length = t.length ∧ t.flatten.Perm (e :: t'.flatten) := by
  have hi := h.index_lt key
  have hl := remove.look_spec (hashVal key) key (sub t (index (hashVal key) t.length))
  rcases hlook : remove.look (hashVal key) key (sub t (index (hashVal key) t.length)) with
    _ | ⟨item, b'⟩
  · rw [hlook] at hl
    obtain ⟨e, he, rfl⟩ := hkey
    exact absurd ⟨h.hash_eq e he, rfl⟩ (hl e (h.mem_sub he))
  · rw [hlook] at hl
    obtain ⟨p, e, s, hb, rfl, rfl, hek⟩ := hl
    obtain ⟨hp, r, hr, hr'⟩ := h.replace hi hb (l := []) (by simp)
    rw [List.append_nil] at hp hr'
    refine ⟨e, _, by rw [remove, hlook], hek, hp, List.length_set, hr.trans (hr'.symm.cons e)⟩

theorem remove_eq_error (exn : Exn) {key : α} (hkey : ∀ e ∈ t.flatten, e.key ≠ key)
    (hpos : 0 < t.length) : remove hashVal t exn key = .error exn := by
  have hl := remove.look_spec (hashVal key) key (sub t (index (hashVal key) t.length))
  rcases hlook : remove.look (hashVal key) key (sub t (index (hashVal key) t.length)) with
    _ | ⟨item, b'⟩
  · rw [remove, hlook]
  · rw [hlook] at hl
    obtain ⟨p, e, s, hb, -, -, hek⟩ := hl
    have he : e ∈ sub t (index (hashVal key) t.length) := by simp [hb]
    exact absurd hek (hkey e (mem_flatten.2 ⟨_, index_lt hpos, he⟩))

end Remove

/-! ### Whole tables -/

theorem sub_replicate (n i : ℕ) : sub (List.replicate n [] : Table α β) i = [] := by
  rw [sub, List.getD_eq_getElem?_getD, List.getElem?_replicate]
  split <;> rfl

theorem placed_replicate {hashVal : α → ℕ} {n : ℕ} (hn : 0 < n) :
    Placed hashVal (List.replicate n [] : Table α β) := by
  refine ⟨by simpa using hn, by simp, fun i _ e he => ?_⟩
  rw [sub_replicate] at he
  exact absurd he List.not_mem_nil

theorem flatten_alloc (target : Target) (n : ℤ) :
    (alloc target n : Table α β).flatten = [] := by
  simp [alloc]

theorem length_alloc (target : Target) (n : ℤ) :
    (alloc target n : Table α β).length = roundUp target n := List.length_replicate

theorem placed_alloc {hashVal : α → ℕ} (target : Target) (n : ℤ) :
    Placed hashVal (alloc target n : Table α β) :=
  placed_replicate (roundUp_pos target n)

theorem clear_eq (t : Table α β) : clear t = List.replicate t.length [] := List.map_const'

theorem copy_eq (t : Table α β) : copy t = t := by
  refine List.ext_getElem (by simp [copy]) fun i hi hi' => ?_
  simp only [copy, List.getElem_map, List.getElem_range]
  exact sub_of_lt hi'

/-- **A table that grows** keeps its entries. -/
theorem growTable_eq {target : Target} {table t : Table α β} {newSz : ℕ} (hpos : 0 < newSz)
    (h : growTable target table newSz = .ok t) : t.flatten.Perm table.flatten := by
  -- each entry is added to those before it
  have hloop : ∀ (l : List (Entry α β)) (t : Table α β), t.length = newSz →
      (l.foldl (fun newArr e =>
        newArr.set (index e.hash newSz) (e :: sub newArr (index e.hash newSz))) t).flatten.Perm
        (l ++ t.flatten) := by
    intro l
    induction l with
    | nil => exact fun t _ => .refl _
    | cons e l ih =>
      intro t ht
      have hi : index e.hash newSz < t.length := (index_lt hpos).trans_eq ht.symm
      refine (ih _ (by simpa using ht)).trans ?_
      have hcons : (t.set (index e.hash newSz) (e :: sub t (index e.hash newSz))).flatten.Perm
          (e :: t.flatten) := (flatten_set_perm hi _).trans ((flatten_perm hi).symm.cons e)
      exact (hcons.append_left l).trans List.perm_middle
  rw [growTable] at h
  split at h
  case isTrue => exact nomatch h
  case isFalse =>
    obtain rfl := Except.ok.inj h
    have hperm := hloop table.flatten (List.replicate newSz []) List.length_replicate
    simpa using hperm

theorem length_growTable {target : Target} {table t : Table α β} {newSz : ℕ}
    (h : growTable target table newSz = .ok t) : t.length = newSz := by
  have hloop : ∀ (l : List (Entry α β)) (t : Table α β),
      (l.foldl (fun newArr e =>
        newArr.set (index e.hash newSz) (e :: sub newArr (index e.hash newSz))) t).length =
        t.length := by
    intro l
    induction l with
    | nil => exact fun _ => rfl
    | cons e l ih => exact fun t => (ih _).trans List.length_set
  rw [growTable] at h
  split at h
  case isTrue => exact nomatch h
  case isFalse =>
    obtain rfl := Except.ok.inj h
    rw [hloop, List.length_replicate]

end SmlNj.HashTableRep
