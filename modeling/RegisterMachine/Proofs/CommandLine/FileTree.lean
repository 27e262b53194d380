/-
What is written to a file is read back, and other files stay as they were.

A write puts bytes at the place that its path leads to.  If nothing was there before, the place
lies in a directory that is known already, so a write makes no directory (`hasDirectory_put`),
and what lies behind a path is what was there before, except at the one place (`locate_put`).
Only the reasons of errors may change: what did not exist is no directory once it is a file.
-/
import RegisterMachine.CommandLine.FileStore
import RegisterMachine.Proofs.Except

namespace RegisterMachine

/-! ### Text in files -/

namespace FileStore

theorem text?_textBytes (text : String) : text? (textBytes text) = some text := by
  rw [text?, textBytes, Array.toArray_toList]
  exact dif_pos text.isValidUTF8

/-- Only a character of ASCII is written with a first byte of ASCII. -/
theorem toNat_of_utf8EncodeChar {c : Char} {b : UInt8} {others : List UInt8}
    (h : String.utf8EncodeChar c = b :: others) (hb : b.toNat < 128) : c.toNat = b.toNat := by
  simp only [String.utf8EncodeChar] at h
  split at h
  · rename_i hascii
    obtain ⟨rfl, -⟩ := List.cons.inj h
    rw [UInt8.toNat_ofNat']
    exact (Nat.mod_eq_of_lt (Nat.lt_of_le_of_lt hascii (by decide))).symm
  · -- A longer sequence starts with a byte above those of ASCII.
    split at h
    · obtain ⟨rfl, -⟩ := List.cons.inj h
      rw [UInt8.toNat_ofNat'] at hb
      omega
    · split at h
      · obtain ⟨rfl, -⟩ := List.cons.inj h
        rw [UInt8.toNat_ofNat'] at hb
        omega
      · obtain ⟨rfl, -⟩ := List.cons.inj h
        rw [UInt8.toNat_ofNat'] at hb
        omega

theorem head_of_text? {b : UInt8} {rest : List UInt8} {text : String}
    (h : text? (b :: rest) = some text) (hb : b.toNat < 128) :
    ∃ tail, text.toList = Char.ofNat b.toNat :: tail := by
  have hbytes : text.toByteArray.data.toList = b :: rest := by
    unfold text? String.fromUTF8? at h
    split at h
    · rw [← Option.some.inj h]
      rfl
    · exact nomatch h
  rw [← String.utf8Encode_toList] at hbytes
  cases htext : text.toList with
  | nil =>
      rw [htext] at hbytes
      exact nomatch hbytes
  | cons c tail =>
      rw [htext, List.utf8Encode, List.flatMap_cons, List.data_toByteArray] at hbytes
      obtain ⟨first, others, hchar⟩ :=
        List.exists_cons_of_ne_nil (String.utf8EncodeChar_ne_nil (c := c))
      rw [hchar] at hbytes
      obtain ⟨rfl, -⟩ := List.cons.inj hbytes
      exact ⟨tail, by rw [← toNat_of_utf8EncodeChar hchar hb, Char.ofNat_toNat]⟩

end FileStore

namespace Place

theorem isBelow_iff {place dir : Place} :
    place.isBelow dir = true ↔
      place.origin = dir.origin ∧ dir.names <+: place.names ∧
        dir.names.length < place.names.length := by
  simp [isBelow, and_assoc]

theorem isBelow_trans {a b c : Place} (hab : a.isBelow b = true) (hbc : b.isBelow c = true) :
    a.isBelow c = true := by
  rw [isBelow_iff] at *
  exact ⟨hab.1.trans hbc.1, hbc.2.1.trans hab.2.1, Nat.lt_trans hbc.2.2 hab.2.2⟩

theorem isBelow_of_child {dir other : Place} {name : String}
    (h : (dir.child name).isBelow other = true) : other = dir ∨ dir.isBelow other = true := by
  obtain ⟨horigin, hprefix, hlength⟩ := isBelow_iff.mp h
  rw [child, List.length_append, List.length_singleton] at hlength
  have hnames : other.names <+: dir.names := by
    rcases List.prefix_concat_iff.mp hprefix with heq | hprefix
    · rw [heq, List.length_append, List.length_singleton] at hlength
      omega
    · exact hprefix
  rcases Nat.lt_or_ge other.names.length dir.names.length with hlt | hge
  · exact Or.inr (isBelow_iff.mpr ⟨horigin, hnames, hlt⟩)
  · have heq : other.names = dir.names := hnames.eq_of_length_le hge
    left
    cases other
    cases dir
    simp_all [child]

end Place

namespace FileTree

variable {tree after : FileTree} {place : Place} {path : String}

/-! ### Directories -/

theorem hasDirectory_of_isBelow {dir : Place} (h : tree.hasDirectory place = true)
    (hbelow : place.isBelow dir = true) : tree.hasDirectory dir = true := by
  rw [hasDirectory, Bool.or_eq_true] at h ⊢
  rcases h with hempty | hfile
  · have hlength := (Place.isBelow_iff.mp hbelow).2.2
    rw [List.isEmpty_iff.mp hempty] at hlength
    exact absurd hlength (Nat.not_lt_zero _)
  · obtain ⟨f, hf, hbelow'⟩ := List.any_eq_true.mp hfile
    exact Or.inr (List.any_eq_true.mpr ⟨f, hf, Place.isBelow_trans hbelow' hbelow⟩)

theorem hasDirectory_parent (h : tree.hasDirectory place = true) :
    tree.hasDirectory place.parent = true := by
  obtain ⟨origin, names⟩ := place
  cases names with
  | nil => cases origin <;> rfl
  | cons name names =>
      refine hasDirectory_of_isBelow h (Place.isBelow_iff.mpr ?_)
      have hparent : (⟨origin, name :: names⟩ : Place).parent
          = ⟨origin, (name :: names).dropLast⟩ := by
        cases origin <;> rfl
      rw [hparent]
      refine ⟨rfl, List.dropLast_prefix _, ?_⟩
      simp

/-! ### Where paths lead -/

theorem node_cases (tree : FileTree) (place : Place) :
    (∃ bytes, tree.node place = .file place bytes) ∨
      (tree.node place = .directory place ∧ tree.hasDirectory place = true) ∨
        tree.node place = .absent place := by
  unfold node
  split
  · exact Or.inl ⟨_, rfl⟩
  · split
    · rename_i hdir
      exact Or.inr (Or.inl ⟨rfl, hdir⟩)
    · exact Or.inr (Or.inr rfl)

/-- A place where there is a file or one can be made. -/
structure FilePlace (tree : FileTree) (place : Place) : Prop where
  /-- A directory is there to hold it. -/
  inDirectory : ∃ dir name, place = dir.child name ∧ tree.hasDirectory dir = true
  notDirectory : tree.node place ≠ .directory place

/-- What paths can lead to. -/
def Reached (tree : FileTree) : Node → Prop
  | .directory place => tree.hasDirectory place = true
  | .file place _ | .absent place => tree.FilePlace place

theorem descend_directory (tree : FileTree) (name : String) (dir : Place) :
    tree.descend name (.directory dir)
      = if name = "" ∨ name = "." then .ok (.directory dir)
        else if name = ".." then .ok (.directory dir.parent)
        else if maxName < name.utf8ByteSize then .error .nameTooLong
        else .ok (tree.node (dir.child name)) :=
  rfl

theorem reached_node_child {dir : Place} (h : tree.hasDirectory dir = true) (name : String) :
    tree.Reached (tree.node (dir.child name)) := by
  rcases tree.node_cases (dir.child name) with ⟨bytes, hnode⟩ | ⟨hnode, hdir⟩ | hnode
  · rw [hnode]
    exact ⟨⟨dir, name, rfl, h⟩, by simp [hnode]⟩
  · rw [hnode]
    exact hdir
  · rw [hnode]
    exact ⟨⟨dir, name, rfl, h⟩, by simp [hnode]⟩

/-- **Every step of a path leads to a directory that is there or to a name in one.** -/
theorem reached_descend {node next : Node} {name : String} (h : tree.Reached node)
    (hnext : tree.descend name node = .ok next) : tree.Reached next := by
  cases node with
  | file place bytes => exact nomatch hnext
  | absent place => exact nomatch hnext
  | directory dir =>
      rw [descend_directory] at hnext
      split at hnext
      · obtain rfl := Except.ok.inj hnext
        exact h
      · split at hnext
        · obtain rfl := Except.ok.inj hnext
          exact hasDirectory_parent h
        · split at hnext
          · exact nomatch hnext
          · obtain rfl := Except.ok.inj hnext
            exact reached_node_child h name

theorem reached_foldlM {names : List String} {node last : Node} (h : tree.Reached node)
    (hlast : names.foldlM (fun node name => tree.descend name node) node = .ok last) :
    tree.Reached last := by
  induction names generalizing node with
  | nil =>
      obtain rfl := Except.ok.inj hlast
      exact h
  | cons name names ih =>
      rw [List.foldlM_cons] at hlast
      obtain ⟨next, hnext, hlast⟩ := bind_eq_ok.mp hlast
      exact ih (reached_descend h hnext) hlast

theorem hasDirectory_start (tree : FileTree) (path : String) :
    tree.hasDirectory (Place.start path) = true := by
  unfold Place.start
  split <;> rfl

theorem reached_locate {node : Node} (h : tree.locate path = .ok node) : tree.Reached node := by
  obtain ⟨-, -, h⟩ := bind_eq_ok.mp h
  have hstart : tree.Reached (.directory (Place.start path)) := tree.hasDirectory_start path
  exact reached_foldlM hstart h

/-- The place that a node has for a file. -/
def Node.filePlace? : Node → Option Place
  | .directory _ => none
  | .file place _ | .absent place => some place

/-- The place of the file that a path names, whether there is one or not. -/
def place? (tree : FileTree) (path : String) : Option Place :=
  (tree.locate path).toOption.bind Node.filePlace?

theorem filePlace_of_place? (h : tree.place? path = some place) : tree.FilePlace place := by
  obtain ⟨node, hnode, hplace⟩ := Option.bind_eq_some_iff.mp h
  have hreached := reached_locate (toOption_eq_some.mp hnode)
  cases node with
  | directory dir => exact nomatch hplace
  | file place' bytes | absent place' =>
      obtain rfl := Option.some.inj hplace
      exact hreached

/-! ### One file replaced -/

theorem lookup_cons (first other : Place) (bytes : List UInt8) (files : List (Place × List UInt8)) :
    ((first, bytes) :: files).lookup other
      = if other = first then some bytes else files.lookup other := by
  rw [List.lookup_cons]
  by_cases heq : other = first
  · rw [if_pos heq, heq, beq_self_eq_true]
  · rw [if_neg heq, beq_false_of_ne heq]

theorem lookup_put (tree : FileTree) (place : Place) (bytes : List UInt8) (other : Place) :
    (tree.put place bytes).files.lookup other
      = if other = place then some bytes else tree.files.lookup other := by
  -- Every file keeps its place, so each is found where it was.
  have hmap : ∀ files : List (Place × List UInt8),
      (files.map fun f => if f.1 = place then (place, bytes) else f).lookup other
        = (files.lookup other).map fun old => if other = place then bytes else old := by
    intro files
    induction files with
    | nil => rfl
    | cons f files ih =>
        obtain ⟨first, old⟩ := f
        have hfirst : (if first = place then (place, bytes) else (first, old))
            = (first, if first = place then bytes else old) := by
          split
          · rename_i heq
            rw [heq]
          · rfl
        rw [List.map_cons, hfirst, lookup_cons, lookup_cons, ih]
        split
        · rename_i heq
          rw [heq, Option.map_some]
        · rfl
  unfold put
  split
  · rename_i old hold
    rw [hmap]
    split
    · rename_i heq
      rw [heq, hold, Option.map_some]
    · exact Option.map_id'
  · rename_i hnone
    rw [List.lookup_append]
    by_cases heq : other = place
    · rw [if_pos heq, heq, hnone, lookup_cons, if_pos rfl, Option.none_or]
    · rw [if_neg heq, lookup_cons, if_neg heq, List.lookup_nil, Option.or_none]

/-- A file that is put where one can be made makes no directory. -/
theorem hasDirectory_put (h : tree.FilePlace place) (bytes : List UInt8) (other : Place) :
    (tree.put place bytes).hasDirectory other = tree.hasDirectory other := by
  obtain ⟨dir, name, rfl, hdir⟩ := h.inDirectory
  have habove : (dir.child name).isBelow other = true → tree.hasDirectory other = true := by
    intro hbelow
    rcases Place.isBelow_of_child hbelow with rfl | hbelow
    · exact hdir
    · exact hasDirectory_of_isBelow hdir hbelow
  unfold put
  split
  · have hplace : ∀ f : Place × List UInt8,
        (if f.1 = dir.child name then (dir.child name, bytes) else f).1 = f.1 := by
      intro f
      split
      · rename_i heq
        exact heq.symm
      · rfl
    simp only [hasDirectory, List.any_map, Function.comp_def, hplace]
  · rw [hasDirectory, List.any_append, List.any_cons, List.any_nil, Bool.or_false, ← Bool.or_assoc]
    exact Bool.or_eq_left_iff_imp.mpr habove

theorem node_put (h : tree.FilePlace place) (bytes : List UInt8) (other : Place) :
    (tree.put place bytes).node other
      = if other = place then .file place bytes else tree.node other := by
  rw [node, lookup_put, hasDirectory_put h]
  by_cases heq : other = place
  · rw [if_pos heq, if_pos heq, heq]
  · rw [if_neg heq, if_neg heq, node]

/-- What a path leads to once the file at a place is replaced. -/
def Node.replaced (place : Place) (bytes : List UInt8) (node : Node) : Node :=
  if node.filePlace? = some place then .file place bytes else node

theorem Node.filePlace?_replaced (place : Place) (bytes : List UInt8) (node : Node) :
    (node.replaced place bytes).filePlace? = node.filePlace? := by
  unfold replaced
  split
  · rename_i hplace
    exact hplace.symm
  · rfl

theorem node_put_eq_replaced (h : tree.FilePlace place) (bytes : List UInt8) (other : Place) :
    (tree.put place bytes).node other = (tree.node other).replaced place bytes := by
  have hplace : (tree.node other).filePlace? = some place ↔ other = place := by
    rcases tree.node_cases other with ⟨old, hnode⟩ | ⟨hnode, -⟩ | hnode
    · rw [hnode]
      exact Option.some_inj
    · rw [hnode]
      refine iff_of_false (fun h => nomatch h) ?_
      rintro rfl
      exact h.notDirectory hnode
    · rw [hnode]
      exact Option.some_inj
  rw [node_put h, Node.replaced]
  simp only [hplace]

theorem toOption_descend_put (h : tree.FilePlace place) (bytes : List UInt8) (name : String)
    (node : Node) :
    ((tree.put place bytes).descend name (node.replaced place bytes)).toOption
      = (tree.descend name node).toOption.map (Node.replaced place bytes) := by
  -- Nothing leads on from a file or from a place where one can be made.
  have hfile : ∀ (tree : FileTree) (node : Node), node.filePlace? ≠ none →
      (tree.descend name node).toOption = none := by
    intro tree node hnode
    cases node with
    | directory dir => exact absurd rfl hnode
    | file _ _ | absent _ => rfl
  cases node with
  | file other old | absent other =>
      rw [hfile tree _ (by simp [Node.filePlace?]), hfile, Option.map_none]
      rw [Node.filePlace?_replaced]
      exact Option.some_ne_none other
  | directory dir =>
      have hdir : Node.replaced place bytes (.directory dir) = .directory dir := rfl
      rw [hdir, descend_directory, descend_directory, node_put_eq_replaced h]
      split
      · rfl
      · split
        · rfl
        · split <;> rfl

theorem toOption_foldlM_put (h : tree.FilePlace place) (bytes : List UInt8) (names : List String)
    (node : Node) :
    (names.foldlM (fun node name => (tree.put place bytes).descend name node)
        (node.replaced place bytes)).toOption
      = (names.foldlM (fun node name => tree.descend name node) node).toOption.map
          (Node.replaced place bytes) := by
  induction names generalizing node with
  | nil => rfl
  | cons name names ih =>
      have hstep := toOption_descend_put h bytes name node
      rw [List.foldlM_cons, List.foldlM_cons]
      cases hnext : tree.descend name node with
      | error e =>
          rw [hnext] at hstep
          cases hnext' : (tree.put place bytes).descend name (node.replaced place bytes) with
          | error e' => rfl
          | ok next =>
              rw [hnext'] at hstep
              exact nomatch hstep
      | ok next =>
          rw [hnext] at hstep
          rw [toOption_eq_some.mp hstep]
          exact ih next

/-- **A path leads to what it led to**, but for the one file. -/
theorem toOption_locate_put (h : tree.FilePlace place) (bytes : List UInt8) (path : String) :
    ((tree.put place bytes).locate path).toOption
      = (tree.locate path).toOption.map (Node.replaced place bytes) := by
  unfold locate
  cases checkPath path with
  | error e => rfl
  | ok valid => exact toOption_foldlM_put h bytes (Place.components path) (.directory _)

theorem place?_put (h : tree.FilePlace place) (bytes : List UInt8) (path : String) :
    (tree.put place bytes).place? path = tree.place? path := by
  rw [place?, place?, toOption_locate_put h]
  cases (tree.locate path).toOption with
  | none => rfl
  | some node => exact Node.filePlace?_replaced place bytes node

/-! ### Reading and writing -/

theorem read_eq_ok {bytes : List UInt8} :
    tree.read path = .ok bytes ↔ ∃ place, tree.locate path = .ok (.file place bytes) := by
  unfold read
  rw [bind_eq_ok]
  constructor
  · rintro ⟨node, hnode, h⟩
    cases node with
    | file place old =>
        obtain rfl := Except.ok.inj h
        exact ⟨place, hnode⟩
    | directory place => exact nomatch h
    | absent place => exact nomatch h
  · rintro ⟨place, hnode⟩
    exact ⟨_, hnode, rfl⟩

theorem eq_put_of_write {bytes : List UInt8} (h : tree.write path bytes = .ok after) :
    ∃ place, tree.place? path = some place ∧ after = tree.put place bytes := by
  unfold write at h
  obtain ⟨-, -, h⟩ := bind_eq_ok.mp h
  split at h
  · obtain ⟨-, -, h⟩ := bind_eq_ok.mp h
    exact nomatch h
  · obtain ⟨node, hnode, h⟩ := bind_eq_ok.mp h
    cases node with
    | directory dir => exact nomatch h
    | file place old | absent place =>
        refine ⟨place, ?_, (Except.ok.inj h).symm⟩
        rw [place?, hnode]
        rfl

variable {bytes : List UInt8} (h : tree.write path bytes = .ok after)
include h

/-- **What is written is read back.** -/
theorem read_of_write : after.read path = .ok bytes := by
  obtain ⟨place, hplace, rfl⟩ := eq_put_of_write h
  have hlocate := toOption_locate_put (filePlace_of_place? hplace) bytes path
  obtain ⟨node, hnode, hnodePlace⟩ := Option.bind_eq_some_iff.mp hplace
  rw [hnode, Option.map_some, Node.replaced, if_pos hnodePlace] at hlocate
  exact read_eq_ok.mpr ⟨place, toOption_eq_some.mp hlocate⟩

theorem place?_write (other : String) : after.place? other = tree.place? other := by
  obtain ⟨place, hplace, rfl⟩ := eq_put_of_write h
  exact place?_put (filePlace_of_place? hplace) bytes other

/-- **Other files are as they were.** -/
theorem lookup_write {other : Place} (hother : tree.place? path ≠ some other) :
    after.files.lookup other = tree.files.lookup other := by
  obtain ⟨place, hplace, rfl⟩ := eq_put_of_write h
  rw [lookup_put, if_neg]
  rintro rfl
  exact hother hplace

/-- **Other files are read as before.** -/
theorem read_write {other : String} {old : List UInt8}
    (hother : tree.place? other ≠ tree.place? path) (hread : tree.read other = .ok old) :
    after.read other = .ok old := by
  obtain ⟨place, hplace, rfl⟩ := eq_put_of_write h
  obtain ⟨otherPlace, hnode⟩ := read_eq_ok.mp hread
  have hotherPlace : tree.place? other = some otherPlace := by
    rw [place?, hnode]
    rfl
  have hlocate := toOption_locate_put (filePlace_of_place? hplace) bytes other
  rw [hotherPlace, hplace] at hother
  rw [hnode] at hlocate
  refine read_eq_ok.mpr ⟨otherPlace, toOption_eq_some.mp (hlocate.trans ?_)⟩
  exact congrArg some (if_neg hother)

end FileTree

end RegisterMachine
