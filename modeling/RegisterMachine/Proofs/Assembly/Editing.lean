/-
What an assembled source does not depend on.

An image is made of what the lines of the source say one after another: labels and
statements.  On which line a part stands only enters the errors, so a source may be edited in
every way that keeps its parts in order.  A line may be spelled anew, a line that says nothing
may be put anywhere, and a label may be given a line of its own.

`assembleBehind_eq_ok_iff` is the lemma that carries this: what is assembled is a function of
the parts.  What is left to see of an edit is that it keeps them, which is a matter of the one
or two lines that it touches.  Labels keep their order too, as the first of several labels at
an address is the one that names it.
-/
import RegisterMachine.Proofs.Assembly.Layout
import RegisterMachine.Proofs.Assembly.Spelling
import Mathlib.Logic.Relation

namespace RegisterMachine.Assembly

open Text (Blanks Numeral blanks_nil)

/-! ### Assembling parts -/

/-- Something that a line says. -/
inductive Part where
  | label (name : String)
  | statement (s : Statement)

/-- What a line says, in order. -/
def Line.parts (line : Line) : List Part :=
  line.labels.map .label ++ line.statement?.toList.map .statement

/-- The first pass without lines: the labels with their addresses, and the items. -/
def placeParts (defs : Definitions) (addr : Word) : List Part → Option (Definitions × List Item)
  | [] => some (defs, [])
  | .label name :: rest =>
    match defs.address? name with
    | some _ => none
    | none => placeParts (defs ++ [(name, addr)]) addr rest
  | .statement s :: rest =>
    match s.place defs addr with
    | .error _ => none
    | .ok (item, next) => (placeParts defs next rest).map fun placed => (placed.1, item :: placed.2)

theorem placeParts_labels (defs : Definitions) (addr : Word) (names : List String)
    (rest : List Part) :
    placeParts defs addr (names.map .label ++ rest)
      = (defs.define addr names).toOption.bind fun defs => placeParts defs addr rest := by
  induction names generalizing defs with
  | nil => rfl
  | cons name names ih =>
      rw [List.map_cons, List.cons_append, placeParts, Definitions.define]
      cases defs.address? name with
      | some _ => rfl
      | none => exact ih _

/-- **The first pass keeps of the lines only what they say.** -/
theorem ofLines_eq_placeParts (defs : Definitions) (addr : Word) (lines : List Line) (n : Nat) :
    (Layout.ofLines defs addr (lines.zipIdx n)).toOption.map
        (fun layout => (layout.defs, layout.items.map (·.item)))
      = placeParts defs addr (lines.flatMap Line.parts) := by
  induction lines generalizing defs addr n with
  | nil => rfl
  | cons line lines ih =>
      rw [List.zipIdx_cons, Layout.ofLines, List.flatMap_cons, Line.parts, List.append_assoc,
        placeParts_labels]
      cases defs.define addr line.labels with
      | error cause => rfl
      | ok defs =>
          cases line.statement? with
          | none => exact ih defs addr (n + 1)
          | some s =>
              show Option.map _ (onLine n (s.place defs addr) >>= _).toOption
                = placeParts defs addr (.statement s :: lines.flatMap Line.parts)
              rw [placeParts]
              cases s.place defs addr with
              | error cause => rfl
              | ok placed =>
                  obtain ⟨item, next⟩ := placed
                  show Option.map _ (Layout.ofLines defs next (lines.zipIdx (n + 1)) >>= _).toOption
                    = Option.map _ (placeParts defs next (lines.flatMap Line.parts))
                  rw [← ih defs next (n + 1)]
                  cases Layout.ofLines defs next (lines.zipIdx (n + 1)) <;> rfl

/-- What parts make behind an opening, if they make anything. -/
def assembleParts (opening : List UInt8) (parts : List Part) : Option Assembled := do
  let (defs, items) ← placeParts [] (UInt32.ofNat opening.length) parts
  let pieces ← items.mapM fun item => (item.resolve defs).toOption
  return ⟨opening ++ Piece.emitAll opening.length pieces, Layout.labelTable ⟨defs, [], 0⟩⟩

/-- What lines say one after another, if all of them can be read. -/
def partsOf : List (List Char) → Option (List Part)
  | [] => some []
  | text :: texts => do
    let line ← (Line.parse text).toOption
    let parts ← partsOf texts
    return line.parts ++ parts

theorem partsOf_eq_some {texts : List (List Char)} {parts : List Part} :
    partsOf texts = some parts ↔
      ∃ lines : List Line, texts.map Line.parse = lines.map .ok ∧
        lines.flatMap Line.parts = parts := by
  induction texts generalizing parts with
  | nil => simp [partsOf, eq_comm]
  | cons text texts ih =>
      rw [partsOf, List.map_cons]
      constructor
      · intro h
        obtain ⟨line, hline, h⟩ := Option.bind_eq_some_iff.mp h
        obtain ⟨parts, hparts, h⟩ := Option.bind_eq_some_iff.mp h
        obtain ⟨lines, hlines, rfl⟩ := ih.mp hparts
        obtain rfl := Option.some.inj h
        refine ⟨line :: lines, ?_, rfl⟩
        rw [toOption_eq_some.mp hline, hlines, List.map_cons]
      · rintro ⟨_ | ⟨line, lines⟩, hlines, rfl⟩
        · contradiction
        · obtain ⟨hline, hrest⟩ := List.cons.inj hlines
          rw [hline, ih.mpr ⟨lines, hrest, rfl⟩]
          rfl

theorem assembleParts_eq_some {opening : List UInt8} {lines : List Line} {a : Assembled} :
    assembleParts opening (lines.flatMap Line.parts) = some a ↔
      ∃ layout pieces,
        Layout.ofLines [] (UInt32.ofNat opening.length) (lines.zipIdx 1) = .ok layout ∧
        layout.items.mapM (fun placed => onLine placed.line (placed.item.resolve layout.defs))
          = .ok pieces ∧
        a = ⟨opening ++ Piece.emitAll opening.length pieces, layout.labelTable⟩ := by
  -- The lines that the items come from only enter the errors.
  have hitems : ∀ layout : Layout,
      ((layout.items.map (·.item)).mapM fun item => (item.resolve layout.defs).toOption)
        = (layout.items.mapM fun placed =>
            onLine placed.line (placed.item.resolve layout.defs)).toOption := by
    intro layout
    simp only [List.mapM_map, toOption_mapM, toOption_onLine, Function.comp_def]
  rw [assembleParts, ← ofLines_eq_placeParts _ _ lines 1]
  simp only [Option.bind_eq_bind, Option.bind_eq_some_iff, Option.map_eq_some_iff]
  constructor
  · rintro ⟨_, ⟨layout, hlayout, rfl⟩, pieces, hpieces, h⟩
    rw [hitems] at hpieces
    exact ⟨layout, pieces, toOption_eq_some.mp hlayout, toOption_eq_some.mp hpieces,
      (Option.some.inj h).symm⟩
  · rintro ⟨layout, pieces, hlayout, hpieces, rfl⟩
    refine ⟨_, ⟨layout, toOption_eq_some.mpr hlayout, rfl⟩, pieces, ?_, rfl⟩
    rw [hitems]
    exact toOption_eq_some.mpr hpieces

/-- **What is assembled depends only on the parts of a source.** -/
theorem assembleBehind_eq_ok_iff {opening : List UInt8} {source : String} {a : Assembled} :
    assembleBehind opening source = .ok a ↔
      ∃ parts, partsOf (Text.lines source.toList) = some parts ∧
        assembleParts opening parts = some a := by
  simp only [partsOf_eq_some, assembleBehind_eq_ok, parseLines_eq_ok]
  constructor
  · rintro ⟨_, layout, pieces, ⟨lines, hreads, rfl⟩, hlayout, hpieces, rfl⟩
    refine ⟨_, ⟨lines, hreads, rfl⟩, ?_⟩
    exact assembleParts_eq_some.mpr ⟨layout, pieces, hlayout, hpieces, rfl⟩
  · rintro ⟨_, ⟨lines, hreads, rfl⟩, h⟩
    obtain ⟨layout, pieces, hlayout, hpieces, rfl⟩ := assembleParts_eq_some.mp h
    exact ⟨_, layout, pieces, ⟨lines, hreads, rfl⟩, hlayout, hpieces, rfl⟩

/-! ### Editing a source -/

/-- A change to the lines of a source. -/
inductive Edit : List (List Char) → List (List Char) → Prop
  /-- A line that can be read is spelled otherwise. -/
  | respell {text text' : List Char} {line : Line} (before after : List (List Char))
      (h : Line.parse text = .ok line) (h' : line.SpelledAs text') :
      Edit (before ++ text :: after) (before ++ text' :: after)
  /-- A line that says nothing, with or without a comment, is put somewhere. -/
  | insert {text : List Char} (before after : List (List Char)) (h : Line.blank.SpelledAs text) :
      Edit (before ++ after) (before ++ text :: after)
  /-- The first label of a line is moved to a line of its own, before what else the line says. -/
  | detach {left name right tail : List Char} (before after : List (List Char))
      (hleft : Blanks left) (hname : isLabelName name = true) (hright : Blanks right) :
      Edit (before ++ (left ++ (name ++ right ++ ':' :: tail)) :: after)
        (before ++ (left ++ (name ++ right ++ [':'])) :: tail :: after)

/-- Sources that differ by edits and by taking edits back. -/
def SameButForEdits (source source' : String) : Prop :=
  Relation.EqvGen Edit (Text.lines source.toList) (Text.lines source'.toList)

theorem partsOf_append_congr {texts texts' : List (List Char)} (before : List (List Char))
    (h : partsOf texts = partsOf texts') :
    partsOf (before ++ texts) = partsOf (before ++ texts') := by
  induction before with
  | nil => exact h
  | cons text before ih => rw [List.cons_append, List.cons_append, partsOf, partsOf, ih]

theorem partsOf_blank {text : List Char} (h : Line.parse text = .ok Line.blank)
    (texts : List (List Char)) : partsOf (text :: texts) = partsOf texts := by
  rw [partsOf, h]
  cases partsOf texts <;> rfl

theorem partsOf_label {left name right : List Char} (hleft : Blanks left)
    (hname : isLabelName name = true) (hright : Blanks right) (tail : List Char)
    (texts : List (List Char)) :
    partsOf ((left ++ (name ++ right ++ ':' :: tail)) :: texts)
      = (partsOf (tail :: texts)).map (.label (String.ofList name) :: ·) := by
  rw [partsOf, partsOf, Line.parse_label_append hleft hname hright]
  cases Line.parse tail with
  | error cause => rfl
  | ok line => cases partsOf texts <;> rfl

/-- **An edit keeps the parts of a source.** -/
theorem Edit.partsOf_eq {texts texts' : List (List Char)} (h : Edit texts texts') :
    partsOf texts = partsOf texts' := by
  cases h with
  | respell before after h h' =>
      refine partsOf_append_congr before ?_
      rw [partsOf, partsOf, h, h'.parse]
  | insert before after h => exact partsOf_append_congr before (partsOf_blank h.parse after).symm
  | @detach left name right tail before after hleft hname hright =>
      refine partsOf_append_congr before ?_
      rw [partsOf_label hleft hname hright, partsOf_label hleft hname hright,
        partsOf_blank Line.parse_nil]

theorem partsOf_eq_of_eqvGen {texts texts' : List (List Char)}
    (h : Relation.EqvGen Edit texts texts') : partsOf texts = partsOf texts' := by
  induction h with
  | rel _ _ h => exact h.partsOf_eq
  | refl _ => rfl
  | symm _ _ _ ih => exact ih.symm
  | trans _ _ _ _ _ ih ih' => exact ih.trans ih'

/-- **How a source is written does not matter.**  Every spelling of a line is read as the line,
and sources that differ by how their lines are spelled, by lines that say nothing, and by
whether a label stands on a line of its own are assembled to the same bytes and the same
labels, if one of them is assembled at all. -/
theorem spelling_is_free :
    (∀ line : Line, (line.Writable ↔ ∃ text, line.SpelledAs text) ∧
        ∀ text, line.SpelledAs text → Line.parse text = .ok line) ∧
      ∀ source source', SameButForEdits source source' → ∀ a,
        (assemble source = .ok a ↔ assemble source' = .ok a) ∧
          (assembleProgram source = .ok a ↔ assembleProgram source' = .ok a) := by
  refine ⟨fun line => ⟨Line.writable_iff, fun text h => h.parse⟩, fun source source' h a => ?_⟩
  have hparts := partsOf_eq_of_eqvGen h
  simp only [assemble, assembleProgram, assembleBehind_eq_ok_iff, hparts, and_self]

/-- A move with blanks, a case and a number that it need not have, and a comment. -/
def ornateMove : List Char :=
  "  MOV\tR1 ,  0X0a ; # :".toList

theorem spelledAs_ornateMove :
    Line.SpelledAs ⟨[], some (.instr .mov [.reg (.general 1), .value (.number 10)])⟩
      ornateMove := by
  have hspaces : ∀ n, Blanks (List.replicate n ' ') := fun n c hc => by
    rw [List.eq_of_mem_replicate hc]
    decide
  have htab : Blanks ['\t'] := List.forall_mem_singleton.mpr (by decide)
  have hcomment : Comment [';', ' ', '#', ' ', ':'] := comment_cons (by decide) _
  have hmov : Text.sameIgnoringCase Operation.mov.mnemonic.toList ['M', 'O', 'V'] = true := by
    decide +kernel
  have hregister : Argument.SpelledAs (.reg (.general 1)) ['R', '1'] := .reg (by decide +kernel)
  have hten : Numeral 16 10 ['0', 'a'] :=
    .append (.digit (d := 0) ⟨by decide, by decide⟩) (d := 10) ⟨by decide, by decide⟩
  have hnumber : Argument.SpelledAs (.value (.number 10)) ['0', 'X', '0', 'a'] :=
    .value (.number (.unsigned (.hex (Or.inr rfl) hten)))
  have hoperands := Separated.more ['R', '1'] (hspaces 1) (hspaces 2) (.last ['0', 'X', '0', 'a'])
  have hmove := Statement.SpelledAs.instr hmov (.cons hregister (.cons hnumber .nil))
    (.before htab (by simp) hoperands)
  exact .statement (hspaces 2) hmove (hspaces 1) hcomment

/-- A loop. -/
def plainLoop : String :=
  "loop: mov r1, 10\njmp loop"

/-- The same loop with a comment in front, its label on a line of its own and its move spelled
otherwise. -/
def ornateLoop : String :=
  "; forever\nloop:\n  MOV\tR1 ,  0X0a ; # :\njmp loop"

theorem sameButForEdits_loop : SameButForEdits plainLoop ornateLoop := by
  have hplain : Text.lines plainLoop.toList
      = [] ++ ([] ++ ("loop".toList ++ [] ++ ':' :: " mov r1, 10".toList))
          :: ["jmp loop".toList] := by decide +kernel
  have hornate : Text.lines ornateLoop.toList
      = [] ++ ([] ++ ';' :: " forever".toList)
          :: ["loop:".toList, ornateMove, "jmp loop".toList] := by decide +kernel
  have hread : Line.parse " mov r1, 10".toList
      = .ok ⟨[], some (.instr .mov [.reg (.general 1), .value (.number 10)])⟩ := by decide +kernel
  have hlabel : isLabelName "loop".toList = true := by decide +kernel
  have hcomment : Line.blank.SpelledAs ([] ++ ';' :: " forever".toList) :=
    .blank blanks_nil (comment_cons (by decide) _)
  unfold SameButForEdits
  rw [hplain, hornate]
  refine .trans _ _ _ (.rel _ _ (.detach [] _ blanks_nil hlabel blanks_nil)) ?_
  refine .trans _ _ _ (.rel _ _ (.respell ["loop:".toList] _ hread spelledAs_ornateMove)) ?_
  exact .rel _ _ (.insert [] _ hcomment)

theorem spelling_is_free_loop :
    Line.parse ornateMove
        = .ok ⟨[], some (.instr .mov [.reg (.general 1), .value (.number 10)])⟩ ∧
      ∃ a, assemble plainLoop = .ok a ∧ assemble ornateLoop = .ok a ∧ a.bytes.length = 11 := by
  obtain ⟨hspelled, hedited⟩ := spelling_is_free
  refine ⟨(hspelled _).2 _ spelledAs_ornateMove, ?_⟩
  have hplain : assemble plainLoop = .ok
      ⟨[0x07, 0x10, 10, 0, 0, 0] ++ [0x1f, 0, 0, 0, 0], .insert .empty 0 "loop"⟩ := by
    decide +kernel
  exact ⟨_, hplain, (hedited _ _ sameButForEdits_loop _).1.mp hplain, rfl⟩

end RegisterMachine.Assembly
