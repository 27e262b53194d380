/-
Finite maps from words.

The entries are kept in ascending order of their words, so two maps with the same
entries are equal, and listing a map needs no sorting.  Looking up after an insertion
finds the new value at its word and the old values elsewhere (`get?_insert`).
-/
import RegisterMachine.Word

namespace RegisterMachine

/-- A finite map whose keys are words. -/
structure WordMap (α : Type) where
  /-- The entries, their keys strictly ascending. -/
  entries : List (Word × α)
  /-- No key occurs twice and smaller keys come first. -/
  sorted : entries.Pairwise fun a b => a.1 < b.1
  deriving DecidableEq

namespace WordMap

variable {α : Type}

def empty : WordMap α := ⟨[], .nil⟩

/-- The entries with one put in its place; an entry under the same key is replaced. -/
def insertEntry (key : Word) (value : α) : List (Word × α) → List (Word × α)
  | [] => [(key, value)]
  | (k, v) :: rest =>
    if key < k then (key, value) :: (k, v) :: rest
    else if key = k then (key, value) :: rest
    else (k, v) :: insertEntry key value rest

theorem mem_insertEntry {key : Word} {value : α} {entries : List (Word × α)} {e : Word × α}
    (h : e ∈ insertEntry key value entries) : e = (key, value) ∨ e ∈ entries := by
  induction entries with
  | nil => simpa [insertEntry] using h
  | cons head rest ih =>
    obtain ⟨k, v⟩ := head
    unfold insertEntry at h
    split at h
    · simpa using h
    · split at h
      · rcases List.mem_cons.1 h with h | h
        · exact .inl h
        · exact .inr (List.mem_cons_of_mem _ h)
      · rcases List.mem_cons.1 h with h | h
        · exact .inr (h ▸ List.mem_cons_self)
        · exact (ih h).imp id (List.mem_cons_of_mem _)

theorem sorted_insertEntry (key : Word) (value : α) {entries : List (Word × α)}
    (h : entries.Pairwise fun a b => a.1 < b.1) :
    (insertEntry key value entries).Pairwise fun a b => a.1 < b.1 := by
  induction entries with
  | nil => simp [insertEntry]
  | cons head rest ih =>
    obtain ⟨k, v⟩ := head
    obtain ⟨hk, hrest⟩ := List.pairwise_cons.1 h
    unfold insertEntry
    split
    · rename_i hlt
      refine List.pairwise_cons.2 ⟨fun e he => ?_, h⟩
      rcases List.mem_cons.1 he with rfl | he
      · exact hlt
      · exact UInt32.lt_trans hlt (hk e he)
    · split
      · rename_i heq
        subst heq
        exact List.pairwise_cons.2 ⟨hk, hrest⟩
      · rename_i hge hne
        refine List.pairwise_cons.2 ⟨fun e he => ?_, ih hrest⟩
        rcases mem_insertEntry he with rfl | he
        · exact UInt32.lt_of_le_of_ne (UInt32.not_lt.1 hge) (Ne.symm hne)
        · exact hk e he

/-- Puts an entry into the map, in place of any entry with the same key. -/
def insert (m : WordMap α) (key : Word) (value : α) : WordMap α :=
  ⟨insertEntry key value m.entries, sorted_insertEntry key value m.sorted⟩

def get? (m : WordMap α) (key : Word) : Option α :=
  m.entries.lookup key

/-- Whether the map has an entry under a key. -/
def contains (m : WordMap α) (key : Word) : Bool :=
  (m.get? key).isSome

/-- The keys in ascending order. -/
def keys (m : WordMap α) : List Word :=
  m.entries.map Prod.fst

def size (m : WordMap α) : Nat :=
  m.entries.length

def isEmpty (m : WordMap α) : Bool :=
  m.entries.isEmpty

theorem lookup_insertEntry (key : Word) (value : α) (entries : List (Word × α)) (k : Word) :
    (insertEntry key value entries).lookup k =
      if k = key then some value else entries.lookup k := by
  induction entries with
  | nil =>
    by_cases hk : k = key
    · simp [insertEntry, hk]
    · simp [insertEntry, List.lookup_cons, hk, beq_false_of_ne hk]
  | cons head rest ih =>
    obtain ⟨k', v'⟩ := head
    unfold insertEntry
    by_cases hk : k = key
    · subst hk
      split
      · simp
      · split
        · simp
        · rename_i hne
          simp [List.lookup_cons, ih, beq_false_of_ne hne]
    · have hk' := beq_false_of_ne hk
      split
      · simp [List.lookup_cons, hk']
      · split
        · rename_i heq
          subst heq
          simp [List.lookup_cons, hk']
        · simp only [List.lookup_cons, ih, if_neg hk]

@[simp] theorem get?_empty (key : Word) : (empty : WordMap α).get? key = none := rfl

/-- The last value put under a key is found there; other keys keep their values. -/
theorem get?_insert (m : WordMap α) (key : Word) (value : α) (k : Word) :
    (m.insert key value).get? k = if k = key then some value else m.get? k :=
  lookup_insertEntry key value m.entries k

end WordMap

end RegisterMachine
