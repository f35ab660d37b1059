import SmlNj.Library.HashTableRep

/-!
# Hash tables with two keys

The hash tables whose items have two keys: there is a table for each of the keys, and an entry of
one table has the other key beside the item.

## Main definitions

* `HashTable` — the representation.
* `mkTable`, `clear`, `remove1`, `remove2`, `insert`, `mapi`, `filteri`, `copy` — the operations.
* `Consistent` — the two tables have the same items.
* `Reachable` — the tables that the operations make, where the insertions meet a condition.

The operations that may raise an exception return the table that they leave in any case.
-/

namespace SmlNj.Hash2Table

open HashTableRep

/-- The entries of the table of the first key have the second key beside the item, and the other
way round.  The exception for a key that is not there belongs to the table; it is `Exn.notFound`
here. -/
structure HashTable (κ₁ κ₂ β : Type*) where
  tbl1 : Table κ₁ (κ₂ × β)
  tbl2 : Table κ₂ (κ₁ × β)
  nItems : ℤ
  deriving DecidableEq

universe v

variable {κ₁ κ₂ : Type*} [DecidableEq κ₁] [DecidableEq κ₂] {β γ : Type v}

def mkTable (target : Target) (n : ℤ) : HashTable κ₁ κ₂ β :=
  { tbl1 := alloc target n, tbl2 := alloc target n, nItems := 0 }

def clear (t : HashTable κ₁ κ₂ β) : HashTable κ₁ κ₂ β :=
  { tbl1 := HashTableRep.clear t.tbl1, tbl2 := HashTableRep.clear t.tbl2, nItems := 0 }

def copy (t : HashTable κ₁ κ₂ β) : HashTable κ₁ κ₂ β :=
  { tbl1 := HashTableRep.copy t.tbl1, tbl2 := HashTableRep.copy t.tbl2, nItems := t.nItems }

section Operations

variable (hash₁ : κ₁ → ℕ) (hash₂ : κ₂ → ℕ)

/-- The item of a first key is removed. -/
def remove1 (t : HashTable κ₁ κ₂ β) (k1 : κ₁) :
    Except HashTableRep.Exn β × HashTable κ₁ κ₂ β :=
  match remove hash₁ t.tbl1 .notFound k1 with
  | .error e => (.error e, t)
  | .ok ((k2, item), arr1) =>
    match remove hash₂ t.tbl2 .notFound k2 with
    | .error e => (.error e, { t with tbl1 := arr1 })
    | .ok (_, arr2) => (.ok item, { tbl1 := arr1, tbl2 := arr2, nItems := t.nItems - 1 })

/-- The item of a second key is removed. -/
def remove2 (t : HashTable κ₁ κ₂ β) (k2 : κ₂) :
    Except HashTableRep.Exn β × HashTable κ₁ κ₂ β :=
  match remove hash₂ t.tbl2 .notFound k2 with
  | .error e => (.error e, t)
  | .ok ((k1, item), arr2) =>
    match remove hash₁ t.tbl1 .notFound k1 with
    | .error e => (.error e, { t with tbl2 := arr2 })
    | .ok (_, arr1) => (.ok item, { tbl1 := arr1, tbl2 := arr2, nItems := t.nItems - 1 })

/-! ### Insertion -/

/-- The state of an insertion: the arrays that the table had at its start, which the insertion
works on, and those that the table has got since. -/
structure Work (κ₁ κ₂ β : Type*) where
  /-- The array of the first key at the start. -/
  arr1 : Table κ₁ (κ₂ × β)
  /-- The array of the second key at the start. -/
  arr2 : Table κ₂ (κ₁ × β)
  /-- The array that the reference to the table of the first key is set to. -/
  new1 : Option (Table κ₁ (κ₂ × β))
  /-- The array that the reference to the table of the second key is set to. -/
  new2 : Option (Table κ₂ (κ₁ × β))
  nItems : ℤ

def Work.table (w : Work κ₁ κ₂ β) : HashTable κ₁ κ₂ β :=
  { tbl1 := w.new1.getD w.arr1, tbl2 := w.new2.getD w.arr2, nItems := w.nItems }

/-- A first key that is new is put into its bucket, and the arrays grow if they are full. -/
def addKey1 (target : Target) (k1 : κ₁) (k2 : κ₂) (item : β) (i1 : ℕ) (w : Work κ₁ κ₂ β) :
    Except HashTableRep.Exn (Bucket κ₁ (κ₂ × β)) × Work κ₁ κ₂ β :=
  let w := { w with
    arr1 := w.arr1.set i1 (⟨hash₁ k1, k1, (k2, item)⟩ :: sub w.arr1 i1)
    nItems := w.nItems + 1 }
  match growTableIfNeeded target w.arr1 w.nItems with
  | .error e => (.error e, w)
  | .ok none => (.ok [], w)
  | .ok (some tbl1) =>
    match growTable target w.arr2 tbl1.length with
    | .error e => (.error e, { w with new1 := some tbl1 })
    | .ok tbl2 => (.ok [], { w with new1 := some tbl1, new2 := some tbl2 })

/-- The walk over the bucket of the first key.  The result is empty when the array has been
updated; otherwise it is the bucket with the new item. -/
@[grind =] def look1 (target : Target) (k1 : κ₁) (k2 : κ₂) (item : β) (i1 : ℕ) :
    Bucket κ₁ (κ₂ × β) → Work κ₁ κ₂ β →
      Except HashTableRep.Exn (Bucket κ₁ (κ₂ × β)) × Work κ₁ κ₂ β
  | [], w => addKey1 hash₁ target k1 k2 item i1 w
  | e :: r, w =>
    if e.hash = hash₁ k1 ∧ e.key = k1 then
      if k2 ≠ e.item.1 then
        match remove hash₂ w.arr2 (.fail "insert.look1") e.item.1 with
        | .error e => (.error e, w)
        | .ok (_, arr2) => (.ok (⟨hash₁ k1, k1, (k2, item)⟩ :: r), { w with arr2 := arr2 })
      else (.ok (⟨hash₁ k1, k1, (k2, item)⟩ :: r), w)
    else
      match look1 target k1 k2 item i1 r w with
      | (.ok [], w) => (.ok [], w)
      | (.ok rest, w) => (.ok (e :: rest), w)
      | (.error e, w) => (.error e, w)

/-- The walk over the bucket of the second key, with a result as that of `look1`. -/
@[grind =] def look2 (k1 : κ₁) (k2 : κ₂) (item : β) (i2 : ℕ) :
    Bucket κ₂ (κ₁ × β) → Work κ₁ κ₂ β →
      Except HashTableRep.Exn (Bucket κ₂ (κ₁ × β)) × Work κ₁ κ₂ β
  | [], w =>
    (.ok [], { w with arr2 := w.arr2.set i2 (⟨hash₂ k2, k2, (k1, item)⟩ :: sub w.arr2 i2) })
  | e :: r, w =>
    if e.hash = hash₂ k2 ∧ e.key = k2 then
      if k1 ≠ e.item.1 then
        match remove hash₁ w.arr1 (.fail "insert.look2") e.item.1 with
        | .error e => (.error e, w)
        | .ok (_, arr1) => (.ok (⟨hash₂ k2, k2, (k1, item)⟩ :: r), { w with arr1 := arr1 })
      else (.ok (⟨hash₂ k2, k2, (k1, item)⟩ :: r), w)
    else
      match look2 k1 k2 item i2 r w with
      | (.ok [], w) => (.ok [], w)
      -- the entry is rebuilt with the new keys and its own item
      | (.ok rest, w) => (.ok (⟨hash₂ k2, k2, (k1, e.item.2)⟩ :: rest), w)
      | (.error e, w) => (.error e, w)

/-- An item is inserted, and the old items that have one of its keys are discarded. -/
def insert (target : Target) (t : HashTable κ₁ κ₂ β) (k1 : κ₁) (k2 : κ₂) (item : β) :
    Except HashTableRep.Exn Unit × HashTable κ₁ κ₂ β :=
  let sz := t.tbl1.length
  let i1 := index (hash₁ k1) sz
  let i2 := index (hash₂ k2) sz
  let w : Work κ₁ κ₂ β := ⟨t.tbl1, t.tbl2, none, none, t.nItems⟩
  match look1 hash₁ hash₂ target k1 k2 item i1 (sub w.arr1 i1) w with
  | (.error e, w) => (.error e, w.table)
  | (.ok b1, w) =>
    let w := if b1 = [] then w else { w with arr1 := w.arr1.set i1 b1 }
    match look2 hash₁ hash₂ k1 k2 item i2 (sub w.arr2 i2) w with
    | (.error e, w) => (.error e, w.table)
    | (.ok b2, w) =>
      let w := if b2 = [] then w else { w with arr2 := w.arr2.set i2 b2 }
      (.ok (), w.table)

/-- The items of a list of entries are inserted under a function. -/
def mapi.ins (target : Target) (f : κ₁ → κ₂ → β → γ) :
    List (Entry κ₁ (κ₂ × β)) → HashTable κ₁ κ₂ γ → Except HashTableRep.Exn (HashTable κ₁ κ₂ γ)
  | [], newTbl => .ok newTbl
  | e :: rest, newTbl =>
    match insert hash₁ hash₂ target newTbl e.key e.item.1 (f e.key e.item.1 e.item.2) with
    | (.ok (), newTbl) => mapi.ins target f rest newTbl
    | (.error e, _) => .error e

/-- A new table of the images of the items. -/
def mapi (target : Target) (f : κ₁ → κ₂ → β → γ) (t : HashTable κ₁ κ₂ β) :
    Except HashTableRep.Exn (HashTable κ₁ κ₂ γ) :=
  let sz := t.tbl1.length
  mapi.ins hash₁ hash₂ target f t.tbl1.flatten
    { tbl1 := alloc target sz, tbl2 := alloc target sz, nItems := 0 }

def map (target : Target) (f : β → γ) (t : HashTable κ₁ κ₂ β) :
    Except HashTableRep.Exn (HashTable κ₁ κ₂ γ) :=
  mapi hash₁ hash₂ target (fun _ _ x => f x) t

/-- The items of a bucket that fail a test are removed. -/
def filterBucket (msg : String) (pred : κ₁ → κ₂ → β → Bool) :
    Bucket κ₁ (κ₂ × β) → HashTable κ₁ κ₂ β → Except HashTableRep.Exn Unit × HashTable κ₁ κ₂ β
  | [], t => (.ok (), t)
  | e :: rest, t =>
    if pred e.key e.item.1 e.item.2 then filterBucket msg pred rest t
    else
      match remove hash₁ t.tbl1 (.fail msg) e.key with
      | .error e => (.error e, t)
      | .ok (_, arr1) =>
        match remove hash₂ t.tbl2 (.fail msg) e.item.1 with
        | .error e => (.error e, { t with tbl1 := arr1 })
        | .ok (_, arr2) =>
          filterBucket msg pred rest { tbl1 := arr1, tbl2 := arr2, nItems := t.nItems - 1 }

/-- The buckets of some indices are filtered, each as it is when its turn comes. -/
def filterFrom (msg : String) (pred : κ₁ → κ₂ → β → Bool) :
    List ℕ → HashTable κ₁ κ₂ β → Except HashTableRep.Exn Unit × HashTable κ₁ κ₂ β
  | [], t => (.ok (), t)
  | i :: is, t =>
    match filterBucket hash₁ hash₂ msg pred (sub t.tbl1 i) t with
    | (.ok (), t) => filterFrom msg pred is t
    | (.error e, t) => (.error e, t)

def filteri (pred : κ₁ → κ₂ → β → Bool) (t : HashTable κ₁ κ₂ β) :
    Except HashTableRep.Exn Unit × HashTable κ₁ κ₂ β :=
  filterFrom hash₁ hash₂ "filteri" pred (List.range t.tbl1.length) t

def filter (pred : β → Bool) (t : HashTable κ₁ κ₂ β) :
    Except HashTableRep.Exn Unit × HashTable κ₁ κ₂ β :=
  filterFrom hash₁ hash₂ "filter" (fun _ _ x => pred x) (List.range t.tbl1.length) t

end Operations

def triples1 (t : HashTable κ₁ κ₂ β) : List (κ₁ × κ₂ × β) :=
  t.tbl1.flatten.map fun e => (e.key, e.item.1, e.item.2)

def triples2 (t : HashTable κ₁ κ₂ β) : List (κ₁ × κ₂ × β) :=
  t.tbl2.flatten.map fun e => (e.item.1, e.key, e.item.2)

/-- **The two tables are consistent**: they have the same items, no two of which share a key, each
entry is in the bucket of its own hash value, the arrays have the same length, and the stored
count is the number of items. -/
structure Consistent (hash₁ : κ₁ → ℕ) (hash₂ : κ₂ → ℕ) (t : HashTable κ₁ κ₂ β) : Prop where
  mem_iff : ∀ p, p ∈ triples1 t ↔ p ∈ triples2 t
  nodup1 : ((triples1 t).map fun p => p.1).Nodup
  nodup2 : ((triples2 t).map fun p => p.2.1).Nodup
  placed1 : Placed hash₁ t.tbl1
  placed2 : Placed hash₂ t.tbl2
  length_eq : t.tbl1.length = t.tbl2.length
  count : t.nItems = (triples1 t).length

/-- **The tables that are reachable** by the operations, where each insertion meets a condition on
the table before it and on the keys.  An exception leaves the table as it is then. -/
inductive Reachable (target : Target) (hash₁ : κ₁ → ℕ) (hash₂ : κ₂ → ℕ)
    (ok : ∀ β : Type v, HashTable κ₁ κ₂ β → κ₁ → κ₂ → Prop) :
    {β : Type v} → HashTable κ₁ κ₂ β → Prop
  | mkTable {β : Type v} (n : ℤ) :
    Reachable target hash₁ hash₂ ok (mkTable target n : HashTable κ₁ κ₂ β)
  | insert {β : Type v} {t : HashTable κ₁ κ₂ β} (ht : Reachable target hash₁ hash₂ ok t)
    (k1 : κ₁) (k2 : κ₂) (x : β) (hok : ok β t k1 k2) :
    Reachable target hash₁ hash₂ ok (insert hash₁ hash₂ target t k1 k2 x).2
  | remove1 {β : Type v} {t : HashTable κ₁ κ₂ β} (ht : Reachable target hash₁ hash₂ ok t)
    (k1 : κ₁) : Reachable target hash₁ hash₂ ok (remove1 hash₁ hash₂ t k1).2
  | remove2 {β : Type v} {t : HashTable κ₁ κ₂ β} (ht : Reachable target hash₁ hash₂ ok t)
    (k2 : κ₂) : Reachable target hash₁ hash₂ ok (remove2 hash₁ hash₂ t k2).2
  | filteri {β : Type v} {t : HashTable κ₁ κ₂ β} (ht : Reachable target hash₁ hash₂ ok t)
    (pred : κ₁ → κ₂ → β → Bool) :
    Reachable target hash₁ hash₂ ok (filteri hash₁ hash₂ pred t).2
  | filter {β : Type v} {t : HashTable κ₁ κ₂ β} (ht : Reachable target hash₁ hash₂ ok t)
    (pred : β → Bool) : Reachable target hash₁ hash₂ ok (filter hash₁ hash₂ pred t).2
  | mapi {β γ : Type v} {t : HashTable κ₁ κ₂ β} (ht : Reachable target hash₁ hash₂ ok t)
    (f : κ₁ → κ₂ → β → γ) {t' : HashTable κ₁ κ₂ γ}
    (ht' : mapi hash₁ hash₂ target f t = .ok t') : Reachable target hash₁ hash₂ ok t'
  | map {β γ : Type v} {t : HashTable κ₁ κ₂ β} (ht : Reachable target hash₁ hash₂ ok t)
    (f : β → γ) {t' : HashTable κ₁ κ₂ γ} (ht' : map hash₁ hash₂ target f t = .ok t') :
    Reachable target hash₁ hash₂ ok t'
  | copy {β : Type v} {t : HashTable κ₁ κ₂ β} (ht : Reachable target hash₁ hash₂ ok t) :
    Reachable target hash₁ hash₂ ok (copy t)
  | clear {β : Type v} {t : HashTable κ₁ κ₂ β} (ht : Reachable target hash₁ hash₂ ok t) :
    Reachable target hash₁ hash₂ ok (clear t)

end SmlNj.Hash2Table
