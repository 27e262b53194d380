/-
What a step of work finds in the files.

A step that only reads leaves the tree as it is, so what it finds depends on the contents of
its file alone.  An image is found in two ways, as it is or in hexadecimal text, and what is
written in one of them is not taken for the other.
-/
import RegisterMachine.CommandLine.Image
import RegisterMachine.Proofs.CommandLine.FileTree
import RegisterMachine.Proofs.HexText

namespace RegisterMachine.FileTree

variable {tree : FileTree} {path : String}

/-- What a step of work finds. -/
def found {α : Type} (tree : FileTree) (x : StateM FileTree α) : α :=
  (x.run tree).1

/-- A step of work that reads files but leaves them as they are. -/
def ReadOnly {α : Type} (x : StateM FileTree α) : Prop :=
  ∀ tree, (x.run tree).2 = tree

namespace ReadOnly

theorem run_eq {α : Type} {x : StateM FileTree α} (hx : ReadOnly x) (tree : FileTree) :
    x.run tree = (tree.found x, tree) :=
  Prod.ext rfl (hx tree)

theorem pure {α : Type} (a : α) : ReadOnly (Pure.pure a) :=
  fun _ => rfl

theorem read (path : String) : ReadOnly (FileStore.read path) :=
  fun _ => rfl

theorem bind {α β : Type} {x : StateM FileTree α} {f : α → StateM FileTree β} (hx : ReadOnly x)
    (hf : ∀ a, ReadOnly (f a)) : ReadOnly (x >>= f) :=
  fun tree => (hf _ _).trans (hx tree)

theorem readText (path : String) : ReadOnly (FileStore.readText path) := by
  refine (read path).bind fun
    | .error e => pure _
    | .ok bytes => ?_
  dsimp only
  split <;> exact pure _

theorem loadText (path : String) : ReadOnly (loadText path) := by
  refine (readText path).bind fun
    | .error e => pure _
    | .ok text => pure _

theorem loadImage (path : String) (hex : Bool) : ReadOnly (loadImage path hex) := by
  unfold RegisterMachine.loadImage
  split
  · refine (loadText path).bind fun
      | .error e => pure _
      | .ok text => ?_
    dsimp only
    split <;> exact pure _
  · refine (read path).bind fun
      | .error e => pure _
      | .ok bytes => pure _

theorem run_bind {α β : Type} {x : StateM FileTree α} (hx : ReadOnly x)
    (f : α → StateM FileTree β) (tree : FileTree) :
    (x >>= f).run tree = (f (tree.found x)).run tree := by
  rw [StateT.run_bind, hx.run_eq]
  rfl

end ReadOnly

theorem found_bind {α β : Type} {x : StateM FileTree α} (hx : ReadOnly x)
    (f : α → StateM FileTree β) : tree.found (x >>= f) = tree.found (f (tree.found x)) :=
  congrArg Prod.fst (hx.run_bind f tree)

theorem read_of_found_loadText {text : String} (h : tree.found (loadText path) = .ok text) :
    ∃ bytes, tree.read path = .ok bytes ∧ FileStore.text? bytes = some text := by
  have hread : tree.found (FileStore.read path) = tree.read path := rfl
  rw [loadText, found_bind (.readText path), FileStore.readText, found_bind (.read path),
    hread] at h
  cases hbytes : tree.read path with
  | error e =>
      rw [hbytes] at h
      exact nomatch h
  | ok bytes =>
      rw [hbytes] at h
      refine ⟨bytes, rfl, ?_⟩
      cases htext : FileStore.text? bytes with
      | none =>
          simp only [htext] at h
          exact nomatch h
      | some text' =>
          simp only [htext] at h
          exact congrArg some (Except.ok.inj h)

section

variable {bytes : List UInt8} {text : String} (h : tree.read path = .ok bytes)
include h

theorem found_readText (htext : FileStore.text? bytes = some text) :
    tree.found (FileStore.readText path) = .ok text := by
  have hread : tree.found (FileStore.read path) = .ok bytes := h
  rw [FileStore.readText, found_bind (.read path), hread]
  dsimp only
  rw [htext]
  rfl

theorem found_loadText (htext : FileStore.text? bytes = some text) :
    tree.found (loadText path) = .ok text := by
  rw [loadText, found_bind (.readText path), found_readText h htext]
  rfl

theorem found_loadLabels (htext : FileStore.text? bytes = some text) {table : LabelTable}
    (htable : LabelTable.parse text = .ok table) : tree.found (loadLabels path) = .ok table := by
  rw [loadLabels, found_bind (.loadText path), found_loadText h htext]
  dsimp only
  rw [htable]
  rfl

theorem found_loadImage_of_bytes {hex : Bool} (hhex : (hex || isHexPath path) = false) :
    tree.found (loadImage path hex) = .ok bytes := by
  have hread : tree.found (FileStore.read path) = .ok bytes := h
  rw [loadImage, if_neg (by simp [hhex]), found_bind (.read path), hread]
  rfl

theorem found_loadImage_of_text {hex : Bool} (hhex : (hex || isHexPath path) = true)
    (htext : FileStore.text? bytes = some text) :
    tree.found (loadImage path hex) = (HexText.parse text).mapError (.hex path) := by
  rw [loadImage, if_pos hhex, found_bind (.loadText path), found_loadText h htext]
  dsimp only
  cases HexText.parse text <;> rfl

theorem found_loadImage_of_not_text {hex : Bool} (hhex : (hex || isHexPath path) = true)
    (htext : FileStore.text? bytes = none) :
    tree.found (loadImage path hex) = .error (.unreadable path .invalidText) := by
  have hread : tree.found (FileStore.read path) = .ok bytes := h
  rw [loadImage, if_pos hhex, found_bind (.loadText path), loadText, found_bind (.readText path),
    FileStore.readText, found_bind (.read path), hread]
  dsimp only
  rw [htext]
  rfl

end

/-- A file that starts neither with a blank nor with a digit is no hexadecimal text. -/
theorem found_loadImage_eq_error {hex : Bool} {b : UInt8} {rest : List UInt8}
    (h : tree.read path = .ok (b :: rest)) (hhex : (hex || isHexPath path) = true)
    (hascii : b.toNat < 128) (hblank : Text.isBlank (Char.ofNat b.toNat) = false)
    (hdigit : Text.hexDigitValue? (Char.ofNat b.toNat) = none) :
    ∃ e, tree.found (loadImage path hex) = .error e := by
  cases htext : FileStore.text? (b :: rest) with
  | none => exact ⟨_, found_loadImage_of_not_text h hhex htext⟩
  | some text =>
      rw [found_loadImage_of_text h hhex htext]
      obtain ⟨tail, hchars⟩ := FileStore.head_of_text? htext hascii
      cases himage : HexText.parse text with
      | ok image => exact absurd himage (HexText.parse_ne_ok hchars hblank hdigit image)
      | error e => exact ⟨_, rfl⟩

end RegisterMachine.FileTree
