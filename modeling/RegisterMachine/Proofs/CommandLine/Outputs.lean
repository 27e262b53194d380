/-
What the assembler writes, the other commands read.

A source that is assembled stays as it was, its image and its label table are read back, and no
other file changes, as long as the three paths name three files.  The path of the image need
not be given, and then it is that of the source with another extension: for a source with just
that extension, it is the source that the image replaces.

An image is written in the form that is asked for but read in the form that its name may ask
for as well.  An image that is written as it is under a name that says it is hexadecimal text is
not read back; nor is it taken for another, because no image of a program starts like a text of
digits.
-/
import RegisterMachine.CommandLine.Execute
import RegisterMachine.Proofs.Assembly.Labels
import RegisterMachine.Proofs.CommandLine.Loading

namespace RegisterMachine.CommandLine

open Assembly (Assembled assembleProgram slotBytes)

variable {before after : FileTree} {source output path : String} {output? labels? : Option String}
  {hex : Bool} {a : Assembled}

/-! ### Writing -/

theorem run_write (tree : FileTree) (path : String) (bytes : List UInt8) :
    (FileStore.write path bytes : StateM FileTree _).run tree
      = match tree.write path bytes with
        | .ok written => (.ok (), written)
        | .error e => (.error e, tree) := by
  simp only [FileStore.write]
  rw [StateT.run_bind, StateT.run_get]
  simp only [pure_bind]
  cases tree.write path bytes <;> rfl

theorem write_of_run {tree : FileTree} {bytes : List UInt8}
    (h : (FileStore.write path bytes : StateM FileTree _).run tree = (.ok (), after)) :
    tree.write path bytes = .ok after := by
  rw [run_write] at h
  cases hwrite : tree.write path bytes with
  | error e =>
      rw [hwrite] at h
      exact nomatch (Prod.mk.inj h).1
  | ok written =>
      rw [hwrite] at h
      rw [(Prod.mk.inj h).2]

/-- What the assembler writes, and the files that this leaves. -/
inductive Writes (before : FileTree) (a : Assembled) (output : String) (hex : Bool) :
    Option String → FileTree → Prop
  | image {after : FileTree} (himage : before.write output (imageFile hex a.bytes) = .ok after) :
      Writes before a output hex none after
  /-- The table is written behind the image. -/
  | table {written after : FileTree} {path : String}
      (himage : before.write output (imageFile hex a.bytes) = .ok written)
      (htable : written.write path (FileStore.textBytes (LabelTable.format a.labels)) = .ok after) :
      Writes before a output hex (some path) after

theorem writes_of_run (h : (writeOutputs a output hex labels? : StateM FileTree _).run before
      = (.ok (), after)) : Writes before a output hex labels? after := by
  unfold writeOutputs at h
  rw [StateT.run_bind, run_write] at h
  cases himage : before.write output (imageFile hex a.bytes) with
  | error e =>
      simp only [himage] at h
      exact nomatch (Prod.mk.inj h).1
  | ok written =>
      simp only [himage] at h
      cases labels? with
      | none =>
          obtain rfl := (Prod.mk.inj h).2
          exact .image himage
      | some path => exact .table himage (write_of_run h)

/-- An assembler that succeeds has read a source that is accepted and written what it is to
write. -/
theorem writes_of_assembleFile {outcome : Outcome}
    (hrun : (assembleFile source output? hex labels? : StateM FileTree _).run before
      = (outcome, after)) (hdone : outcome.exitCode = 0) :
    ∃ text a, before.found (loadText source) = .ok text ∧ assembleProgram text = .ok a ∧
      Writes before a (output?.getD (defaultOutput source hex)) hex labels? after := by
  have hfailure : ∀ message tree, (Outcome.failure message, tree) ≠ (outcome, after) := by
    rintro message tree heq
    rw [← (Prod.mk.inj heq).1] at hdone
    exact nomatch hdone
  rw [assembleFile, (FileTree.ReadOnly.loadText source).run_bind] at hrun
  cases hload : before.found (loadText source) with
  | error e =>
      rw [hload] at hrun
      exact absurd hrun (hfailure _ _)
  | ok text =>
      rw [hload] at hrun
      cases hassemble : assembleProgram text with
      | error e =>
          simp only [hassemble] at hrun
          exact absurd hrun (hfailure _ _)
      | ok a =>
          refine ⟨text, a, rfl, hassemble, writes_of_run ?_⟩
          simp only [hassemble] at hrun
          rw [StateT.run_bind] at hrun
          rcases hwrite : (writeOutputs a (output?.getD (defaultOutput source hex)) hex labels? :
            StateM FileTree _).run before with ⟨e | ⟨⟩, written⟩
          · rw [hwrite] at hrun
            exact absurd hrun (hfailure _ _)
          · rw [hwrite] at hrun
            obtain rfl : written = after := (Prod.mk.inj hrun).2
            rfl

/-! ### Reading back -/

/-- The paths that the assembler writes to name other files than the source, and not the same
one. -/
structure Apart (tree : FileTree) (source output : String) (labels? : Option String) : Prop where
  image : tree.place? output ≠ tree.place? source
  table : ∀ path ∈ labels?, tree.place? path ≠ tree.place? source ∧
    tree.place? path ≠ tree.place? output

/-- What the assembler leaves of the files that were there before it. -/
structure Delivered (before after : FileTree) (source output : String) (hex : Bool)
    (labels? : Option String) (a : Assembled) : Prop where
  source : after.read source = before.read source
  /-- The image is found by the commands that are given the same choice of its form, unless the
  name of its file makes another choice. -/
  image : hex = true ∨ isHexPath output = false → after.found (loadImage output hex) = .ok a.bytes
  /-- If it does, these commands find no image at all. -/
  refused : hex = false → isHexPath output = true →
    ∃ e, after.found (loadImage output hex) = .error e
  table : ∀ path ∈ labels?, after.found (loadLabels path) = .ok a.labels
  /-- No other file has changed, and none has been made or taken away. -/
  others : ∀ place, before.place? output ≠ some place →
    (∀ path ∈ labels?, before.place? path ≠ some place) →
    after.files.lookup place = before.files.lookup place

theorem bytes_of_assembleProgram {text : String} (h : assembleProgram text = .ok a) :
    ∃ rest, a.bytes = 0x1f :: rest := by
  obtain ⟨lines, layout, pieces, -, -, -, rfl⟩ := Assembly.assembleBehind_eq_ok.mp h
  exact ⟨_, rfl⟩

theorem found_image {bytes : List UInt8} (hfile : after.read output = .ok (imageFile hex bytes))
    (hform : hex = true ∨ isHexPath output = false) :
    after.found (loadImage output hex) = .ok bytes := by
  cases hex with
  | true =>
      rw [FileTree.found_loadImage_of_text hfile (Bool.true_or _) (FileStore.text?_textBytes _),
        HexText.parse_format]
      rfl
  | false =>
      have hname : isHexPath output = false := hform.resolve_left Bool.false_ne_true
      exact FileTree.found_loadImage_of_bytes hfile (by rw [hname]; rfl)

theorem refused_image {text : String} (h : assembleProgram text = .ok a)
    (hfile : after.read output = .ok (imageFile hex a.bytes)) (hhex : hex = false)
    (hname : isHexPath output = true) : ∃ e, after.found (loadImage output hex) = .error e := by
  obtain ⟨rest, hrest⟩ := bytes_of_assembleProgram h
  rw [hhex, imageFile, if_neg Bool.false_ne_true, hrest] at hfile
  exact FileTree.found_loadImage_eq_error hfile (by rw [hname, Bool.or_true]) (by decide)
    (by decide) (by decide)

/-- **What the assembler writes is read back.** -/
theorem delivered_of_writes {text : String} (hsource : before.found (loadText source) = .ok text)
    (h : assembleProgram text = .ok a) (hwrites : Writes before a output hex labels? after)
    (hapart : Apart before source output labels?) :
    Delivered before after source output hex labels? a := by
  obtain ⟨bytes, hbytes, -⟩ := FileTree.read_of_found_loadText hsource
  cases hwrites with
  | image himage =>
      have hfile := FileTree.read_of_write himage
      exact {
        source := by
          rw [hbytes]
          exact FileTree.read_write himage hapart.image.symm hbytes
        image := found_image hfile
        refused := refused_image h hfile
        table := fun _ hpath => nomatch hpath
        others := fun place hplace _ => FileTree.lookup_write himage hplace }
  | @table written _ path himage htable =>
      obtain ⟨hother, hnew⟩ := hapart.table path rfl
      have hplaces := FileTree.place?_write himage
      have hfile : after.read output = .ok (imageFile hex a.bytes) := by
        refine FileTree.read_write htable ?_ (FileTree.read_of_write himage)
        rw [hplaces, hplaces]
        exact hnew.symm
      exact {
        source := by
          rw [hbytes]
          refine FileTree.read_write htable ?_ (FileTree.read_write himage hapart.image.symm hbytes)
          rw [hplaces, hplaces]
          exact hother.symm
        image := found_image hfile
        refused := refused_image h hfile
        table := by
          intro path' hpath'
          obtain rfl := Option.some.inj hpath'
          exact FileTree.found_loadLabels (FileTree.read_of_write htable)
            (FileStore.text?_textBytes _) (Assembly.parse_format_labels h)
        others := by
          intro place hplace hplaces'
          rw [FileTree.lookup_write htable, FileTree.lookup_write himage hplace]
          rw [hplaces]
          exact hplaces' path rfl }

/-- **The source stays, and its image and its labels are read back.**  This holds of every
source, every choice of a form and all paths that name different files, whether the path of the
image is given or made from that of the source. -/
theorem delivered_of_assembleFile {outcome : Outcome}
    (hrun : (assembleFile source output? hex labels? : StateM FileTree Outcome).run before
      = (outcome, after)) (hdone : outcome.exitCode = 0)
    (hapart : Apart before source (output?.getD (defaultOutput source hex)) labels?) :
    ∃ text a, before.found (loadText source) = .ok text ∧ assembleProgram text = .ok a ∧
      Delivered before after source (output?.getD (defaultOutput source hex)) hex labels? a := by
  obtain ⟨text, a, htext, hassemble, hwrites⟩ := writes_of_assembleFile hrun hdone
  exact ⟨text, a, htext, hassemble, delivered_of_writes htext hassemble hwrites hapart⟩

/-- A program in a directory, with its labels outside and its image under the name that is made
for it, where another file has been. -/
theorem delivered_of_assembleFile_hex :
    let before := FileTree.ofContents
      [("d/prog.s", FileStore.textBytes "main: jmp main\n"), ("d/prog.hex", [])]
    let result : Outcome × FileTree :=
      (assembleFile "d/prog.s" none true (some "prog.labels") : StateM FileTree Outcome).run before
    result.1.exitCode = 0 ∧ Apart before "d/prog.s" "d/prog.hex" (some "prog.labels") ∧
      result.2.changedSince before
        = [("d/prog.hex", FileStore.textBytes "1f 00 00 00 00 1f 05 00 00 00\n"),
          ("prog.labels", FileStore.textBytes "00000005   main\n")] ∧
      ∃ a, Delivered before result.2 "d/prog.s" "d/prog.hex" true (some "prog.labels") a := by
  intro before result
  have hrun : (assembleFile "d/prog.s" none true (some "prog.labels") :
      StateM FileTree Outcome).run before = (result.1, result.2) := rfl
  have hdone : result.1.exitCode = 0 := by decide +kernel
  have hapart : Apart before "d/prog.s" "d/prog.hex" (some "prog.labels") := by
    refine ⟨by decide +kernel, ?_⟩
    rintro path ⟨⟩
    decide +kernel
  obtain ⟨text, a, -, -, hdelivered⟩ := delivered_of_assembleFile hrun hdone hapart
  exact ⟨hdone, hapart, by decide +kernel, a, hdelivered⟩

/-- **An image is not read back under a name that asks for another form, nor where its source or
its table stands in its place.** -/
theorem assembleFile_not_read_back :
    let before := FileTree.ofContents
      [("prog.s", FileStore.textBytes "ret\n"), ("prog.bin", FileStore.textBytes "ret\n")]
    let asm (source : String) (output? labels? : Option String) : Outcome × FileTree :=
      (assembleFile source output? false labels? : StateM FileTree Outcome).run before
    let named := asm "prog.s" (some "out.hex") none
    let same := asm "prog.bin" none none
    let covered := asm "prog.s" none (some "prog.bin")
    (assembleProgram "ret\n").toOption = some ⟨[0x1f, 0, 0, 0, 0, 0x1c], .empty⟩ ∧
      (named.1.exitCode = 0 ∧ before.place? "out.hex" ≠ before.place? "prog.s" ∧
        named.2.found (loadImage "out.hex" false) ≠ .ok [0x1f, 0, 0, 0, 0, 0x1c]) ∧
      (same.1.exitCode = 0 ∧ same.2.read "prog.bin" ≠ before.read "prog.bin") ∧
      (covered.1.exitCode = 0 ∧ before.place? "prog.bin" ≠ before.place? "prog.s" ∧
        covered.2.found (loadImage "prog.bin" false) ≠ .ok [0x1f, 0, 0, 0, 0, 0x1c]) := by
  intro before asm named same covered
  refine ⟨?_, ⟨?_, ?_, ?_⟩, ⟨?_, ?_⟩, ?_, ?_, ?_⟩ <;> decide +kernel

end RegisterMachine.CommandLine
