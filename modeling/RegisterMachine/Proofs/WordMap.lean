/-
Maps from words are told apart by what they hold.

Entries stand in ascending order, so each key has one place and looking it up finds what
stands there.  Two maps that answer every look-up alike therefore have the same entries.
-/
import RegisterMachine.WordMap
import Mathlib.Data.List.Nodup

namespace RegisterMachine

theorem lookup_of_mem {κ α : Type} [BEq κ] [LawfulBEq κ] {entries : List (κ × α)}
    (hdistinct : (entries.map Prod.fst).Nodup) {key : κ} {value : α}
    (h : (key, value) ∈ entries) : entries.lookup key = some value := by
  obtain ⟨before, after, rfl⟩ := List.append_of_mem h
  rw [List.lookup_eq_some_iff]
  refine ⟨before, after, rfl, fun entry hentry => ?_⟩
  rw [List.map_append, List.nodup_append] at hdistinct
  have hne := hdistinct.2.2 entry.1 (List.mem_map.mpr ⟨entry, hentry, rfl⟩) key (by simp)
  simpa using fun heq => hne heq.symm

theorem mem_of_lookup {κ α : Type} [BEq κ] [LawfulBEq κ] {entries : List (κ × α)} {key : κ}
    {value : α} (h : entries.lookup key = some value) : (key, value) ∈ entries := by
  obtain ⟨before, after, rfl, -⟩ := List.lookup_eq_some_iff.mp h
  simp

namespace WordMap

variable {α : Type}

theorem nodup_keys (m : WordMap α) : (m.entries.map Prod.fst).Nodup := by
  rw [List.Nodup, List.pairwise_map]
  exact m.sorted.imp fun hlt => UInt32.ne_of_lt hlt

theorem mem_entries_iff {m : WordMap α} {key : Word} {value : α} :
    (key, value) ∈ m.entries ↔ m.get? key = some value :=
  ⟨lookup_of_mem m.nodup_keys, mem_of_lookup⟩

theorem ext_get? {m n : WordMap α} (h : ∀ key, m.get? key = n.get? key) : m = n := by
  have hmem : ∀ entry, entry ∈ m.entries ↔ entry ∈ n.entries := by
    rintro ⟨key, value⟩
    rw [mem_entries_iff, mem_entries_iff, h]
  have hnodup : ∀ m : WordMap α, m.entries.Nodup := fun m => m.nodup_keys.of_map
  have hperm : m.entries.Perm n.entries :=
    (List.perm_ext_iff_of_nodup (hnodup m) (hnodup n)).mpr hmem
  have hentries : m.entries = n.entries :=
    hperm.eq_of_pairwise (fun a b _ _ hab hba => absurd hba (UInt32.lt_asymm hab)) m.sorted n.sorted
  cases m
  cases n
  simpa using hentries

/-! ### Entries in ascending order -/

theorem insertEntry_of_forall_lt {key : Word} {value : α} {entries : List (Word × α)}
    (h : ∀ entry ∈ entries, entry.1 < key) :
    insertEntry key value entries = entries ++ [(key, value)] := by
  induction entries with
  | nil => rfl
  | cons entry rest ih =>
      have hlt := h entry List.mem_cons_self
      rw [insertEntry, if_neg (UInt32.lt_asymm hlt), if_neg (UInt32.ne_of_lt hlt).symm,
        ih fun e he => h e (List.mem_cons_of_mem _ he)]
      rfl

theorem entries_foldl_insert {entries : List (Word × α)} (m : WordMap α)
    (hsorted : (m.entries ++ entries).Pairwise fun a b => a.1 < b.1) :
    (entries.foldl (fun m entry => m.insert entry.1 entry.2) m).entries = m.entries ++ entries := by
  induction entries generalizing m with
  | nil => rw [List.foldl_nil, List.append_nil]
  | cons entry rest ih =>
      have hlast : (m.insert entry.1 entry.2).entries = m.entries ++ [entry] :=
        insertEntry_of_forall_lt fun e he =>
          (List.pairwise_append.mp hsorted).2.2 e he entry List.mem_cons_self
      rw [List.append_cons, ← hlast] at hsorted
      rw [List.foldl_cons, ih _ hsorted, hlast, ← List.append_cons]

/-- A map is what its entries make when they are put into it one after another. -/
theorem foldl_insert_entries (m : WordMap α) :
    m.entries.foldl (fun m entry => m.insert entry.1 entry.2) .empty = m := by
  have hentries := entries_foldl_insert .empty m.sorted
  cases m
  exact (mk.injEq ..).mpr hentries

/-! ### Some of the keys -/

/-- The entries under some keys. -/
def restrict (m : WordMap α) (keys : List Word) : WordMap α :=
  ⟨m.entries.filter fun entry => keys.contains entry.1, m.sorted.filter _⟩

theorem get?_restrict (m : WordMap α) (keys : List Word) (key : Word) :
    (m.restrict keys).get? key = if key ∈ keys then m.get? key else none := by
  have hget : ∀ value, (m.restrict keys).get? key = some value ↔
      key ∈ keys ∧ m.get? key = some value := by
    intro value
    rw [← mem_entries_iff, ← mem_entries_iff, restrict, List.mem_filter, and_comm]
    simp
  by_cases hkey : key ∈ keys
  · rw [if_pos hkey]
    refine Option.ext fun value => ?_
    rw [hget]
    exact and_iff_right hkey
  · rw [if_neg hkey]
    refine Option.eq_none_iff_forall_ne_some.mpr fun value hvalue => ?_
    exact hkey ((hget value).mp hvalue).1

theorem get?_restrict_of_mem (m : WordMap α) {keys : List Word} {key : Word} (h : key ∈ keys) :
    (m.restrict keys).get? key = m.get? key := by
  rw [get?_restrict, if_pos h]

end WordMap

end RegisterMachine
