/-
The names that a listing makes up.

The instructions that are called or jumped to are numbered in the order of their
addresses, so what the table holds under an address is read off from the address's place
among them (`get?_autoLabels_eq_some_iff`).  From that alone the names are told apart:
different places have different numbers, and different numbers have different digits.

`Names` collects what reading a listing back needs of a label table, whether its names
were made up or given.
-/
import RegisterMachine.Listing.Basic
import RegisterMachine.Proofs.Assembly.Reading
import RegisterMachine.Proofs.Listing.Rows

namespace RegisterMachine.Listing

open Assembly (Token Nameable isLabelName)

/-! ### Numbered names -/

/-- The name with the given number. -/
def autoName (n : Nat) : String :=
  autoLabelPrefix ++ Text.decimal n

theorem toList_autoName (n : Nat) : (autoName n).toList = '.' :: 'l' :: Nat.toDigits 10 n := by
  rw [autoName, Text.decimal, String.toList_append, String.toList_ofList]
  rfl

theorem autoName_inj {m n : Nat} (h : autoName m = autoName n) : m = n := by
  have hlist := congrArg String.toList h
  rw [toList_autoName, toList_autoName, List.cons.injEq, List.cons.injEq] at hlist
  refine Text.decimal_inj ?_
  rw [Text.decimal, Text.decimal, hlist.2.2]

theorem token_autoName (n : Nat) : Token (autoName n).toList := by
  rw [toList_autoName]
  refine ⟨by simp, fun c hc => ?_⟩
  rcases List.mem_cons.mp hc with rfl | hc
  · decide
  · rcases List.mem_cons.mp hc with rfl | hc
    · decide
    · obtain ⟨d, hd, rfl⟩ := Text.mem_toDigits (by decide) hc
      exact Assembly.isPlain_digitChar (Nat.lt_trans hd (by decide))

/-- A made-up name can be defined by a source: no register has it. -/
theorem isLabelName_autoName (n : Nat) : isLabelName (autoName n).toList = true := by
  have hname : Assembly.isName ('.' :: 'l' :: Nat.toDigits 10 n) = true := by
    rw [Assembly.isName, Bool.and_eq_true, List.all_eq_true]
    refine ⟨by decide, fun c hc => ?_⟩
    rcases List.mem_cons.mp hc with rfl | hc
    · decide
    · rw [Nat.isDigit_of_mem_toDigits (by decide) (by decide) hc, Bool.or_true]
  rw [toList_autoName, isLabelName, hname, Register.ofName?_dot]
  rfl

/-! ### The table of numbered names -/

/-- Puts numbered names for addresses into a table, counting from a number. -/
def number (table : LabelTable) (first : Nat) (addrs : List Word) : LabelTable :=
  (addrs.zipIdx first).foldl (fun table (addr, n) => table.insert addr (autoName n)) table

theorem number_cons (table : LabelTable) (first : Nat) (addr : Word) (addrs : List Word) :
    number table first (addr :: addrs)
      = number (table.insert addr (autoName first)) (first + 1) addrs := rfl

theorem get?_number_of_not_mem {table : LabelTable} {first : Nat} {addrs : List Word} {a : Word}
    (h : a ∉ addrs) : (number table first addrs).get? a = table.get? a := by
  induction addrs generalizing table first with
  | nil => rfl
  | cons addr addrs ih =>
      have hne : a ≠ addr := fun heq => h (by simp [heq])
      rw [number_cons, ih fun hmem => h (by simp [hmem]), WordMap.get?_insert, if_neg hne]

theorem get?_number_of_getElem? {table : LabelTable} {first k : Nat} {addrs : List Word} {a : Word}
    (hnodup : addrs.Nodup) (h : addrs[k]? = some a) :
    (number table first addrs).get? a = some (autoName (first + k)) := by
  induction addrs generalizing table first k with
  | nil => contradiction
  | cons addr addrs ih =>
      obtain ⟨hnew, hnodup⟩ := List.nodup_cons.mp hnodup
      rw [number_cons]
      cases k with
      | zero =>
          obtain rfl := Option.some.inj h
          rw [get?_number_of_not_mem hnew, WordMap.get?_insert, if_pos rfl, Nat.add_zero]
      | succ k =>
          rw [List.getElem?_cons_succ] at h
          rw [ih hnodup h, Nat.add_assoc, Nat.add_comm 1]

theorem get?_number_cases {table : LabelTable} {first : Nat} {addrs : List Word} {a : Word}
    {name : String} (h : (number table first addrs).get? a = some name) :
    table.get? a = some name ∨ ∃ n, name = autoName n := by
  induction addrs generalizing table first with
  | nil => exact Or.inl h
  | cons addr addrs ih =>
      rw [number_cons] at h
      rcases ih h with hinsert | hnumbered
      · rw [WordMap.get?_insert] at hinsert
        by_cases heq : a = addr
        · rw [if_pos heq] at hinsert
          exact Or.inr ⟨first, (Option.some.inj hinsert).symm⟩
        · rw [if_neg heq] at hinsert
          exact Or.inl hinsert
      · exact Or.inr hnumbered

theorem filterMap_get?_number {table : LabelTable} {first : Nat} {addrs : List Word}
    (hnodup : addrs.Nodup) :
    addrs.filterMap (number table first addrs).get?
      = (List.range' first addrs.length).map autoName := by
  have hmap : addrs.map (number table first addrs).get?
      = ((List.range' first addrs.length).map autoName).map some := by
    refine List.ext_getElem (by simp) fun k hk _ => ?_
    rw [List.length_map] at hk
    simp only [List.getElem_map, List.getElem_range', Nat.one_mul]
    exact get?_number_of_getElem? hnodup (List.getElem?_eq_getElem hk)
  calc addrs.filterMap (number table first addrs).get?
      = (addrs.map (number table first addrs).get?).filterMap id := by rw [List.filterMap_map]; rfl
    _ = (List.range' first addrs.length).map autoName := by
        rw [hmap, List.filterMap_map]
        exact List.filterMap_some

theorem autoLabels_eq_number (rows : List Row) :
    autoLabels rows = number .empty 1 (branchedTo rows) := rfl

/-- All names made up are numbered, also if addresses repeat. -/
theorem exists_autoName_of_get? {rows : List Row} {a : Word} {name : String}
    (h : (autoLabels rows).get? a = some name) : ∃ n, name = autoName n := by
  rw [autoLabels_eq_number] at h
  rcases get?_number_cases h with hempty | hnumbered
  · contradiction
  · exact hnumbered

theorem nodup_branchedTo {rows : List Row} (hnodup : (rows.map Row.addr).Nodup) :
    (branchedTo rows).Nodup :=
  hnodup.sublist (List.filter_sublist.map _)

/-- **The names made up for an image.**  The table names the addresses that are branched to
after their places among them, and no others. -/
theorem get?_autoLabels_eq_some_iff {rows : List Row} (hnodup : (rows.map Row.addr).Nodup)
    {a : Word} {name : String} :
    (autoLabels rows).get? a = some name ↔
      ∃ k, (branchedTo rows)[k]? = some a ∧ name = autoName (k + 1) := by
  have hbranched := nodup_branchedTo hnodup
  rw [autoLabels_eq_number]
  constructor
  · intro h
    by_cases hmem : a ∈ branchedTo rows
    · obtain ⟨k, hk⟩ := List.mem_iff_getElem?.mp hmem
      rw [get?_number_of_getElem? hbranched hk, Nat.add_comm] at h
      exact ⟨k, hk, (Option.some.inj h).symm⟩
    · rw [get?_number_of_not_mem hmem] at h
      contradiction
  · rintro ⟨k, hk, rfl⟩
    rw [get?_number_of_getElem? hbranched hk, Nat.add_comm]

/-! ### Tables fit for reading back -/

/-- What reading a listing back needs of the label table it was made with. -/
structure Names (labels : LabelTable) (rows : List Row) : Prop where
  /-- A name stands for the address of a row, above which the listing shows it. -/
  start : ∀ a name, labels.get? a = some name → a ∈ rows.map Row.addr
  /-- No name stands for two addresses. -/
  inj : ∀ a b name, labels.get? a = some name → labels.get? b = some name → a = b
  /-- The listing can define it. -/
  nameable : ∀ a name, labels.get? a = some name → Nameable name

theorem names_autoLabels {rows : List Row} (hnodup : (rows.map Row.addr).Nodup) :
    Names (autoLabels rows) rows where
  start a name h := by
    obtain ⟨k, hk, -⟩ := (get?_autoLabels_eq_some_iff hnodup).mp h
    exact (List.filter_sublist.map _).subset (List.mem_of_getElem? hk)
  inj a b name ha hb := by
    obtain ⟨k, hk, rfl⟩ := (get?_autoLabels_eq_some_iff hnodup).mp ha
    obtain ⟨l, hl, hname⟩ := (get?_autoLabels_eq_some_iff hnodup).mp hb
    obtain rfl : k = l := Nat.succ.inj (autoName_inj hname)
    exact Option.some.inj (hk.symm.trans hl)
  nameable a name h := by
    obtain ⟨k, -, rfl⟩ := (get?_autoLabels_eq_some_iff hnodup).mp h
    exact ⟨token_autoName (k + 1), isLabelName_autoName (k + 1)⟩

theorem autoLabels_map_standard (rows : List Row) :
    autoLabels (rows.map Row.standard) = autoLabels rows := by
  have hbranched : branchedTo (rows.map Row.standard) = branchedTo rows := by
    simp only [branchedTo, List.filterMap_map, List.filter_map, List.map_map]
    rfl
  rw [autoLabels_eq_number, autoLabels_eq_number, hbranched]

end RegisterMachine.Listing
