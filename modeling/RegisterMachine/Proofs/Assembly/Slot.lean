/-
A program is its source behind a line that fills the slot.

The slot of a program is put in front of its image; it is no statement of the source.  A line in
front of the source that says the same, a jump to address 0, has to be read, placed and turned
into bytes like any other.  It passes all three sweeps, and behind it they are where they begin
with a program: at the entry point, without any labels.  From there on the two differ in the
numbers of the lines alone.

Bytes and labels depend on what the lines say and not on their numbers, so for them
`assembleParts_slot` is all there is to see.  An error is about the same line, which is one
further down (`rejected_behind_slot`).
-/
import RegisterMachine.Proofs.Assembly.Acceptance
import RegisterMachine.Proofs.Assembly.Editing

namespace RegisterMachine.Assembly

/-! ### A line in front -/

/-- The same complaint about the line below. -/
def Error.below (e : Error) : Error :=
  { e with line := e.line + 1 }

section

variable {σ α : Type} {next : σ → α → σ} {fails : σ → α → Cause → Prop} {s : σ} {n : Nat}
  {a : α} {rest : List α} {error : Error}

/-- Counting from one more only moves what is complained of. -/
theorem firstFailing_succ :
    FirstFailing next fails s (n + 1) rest error ↔
      ∃ e, FirstFailing next fails s n rest e ∧ error = e.below := by
  induction rest generalizing s n with
  | nil =>
      refine iff_of_false not_firstFailing_nil ?_
      rintro ⟨e, h, -⟩
      exact not_firstFailing_nil h
  | cons a rest ih =>
      simp only [firstFailing_cons, ih]
      constructor
      · rintro (⟨cause, h, rfl⟩ | ⟨hpasses, e, h, rfl⟩)
        · exact ⟨⟨n, cause⟩, Or.inl ⟨cause, h, rfl⟩, rfl⟩
        · exact ⟨e, Or.inr ⟨hpasses, h⟩, rfl⟩
      · rintro ⟨_, ⟨cause, h, rfl⟩ | ⟨hpasses, h⟩, rfl⟩
        · exact Or.inl ⟨cause, h, rfl⟩
        · exact Or.inr ⟨hpasses, _, h, rfl⟩

theorem firstFailing_behind (hpasses : ∀ cause, ¬fails s a cause) :
    FirstFailing next fails s n (a :: rest) error ↔
      ∃ e, FirstFailing next fails (next s a) n rest e ∧ error = e.below := by
  rw [firstFailing_cons, firstFailing_succ]
  refine ⟨fun h => h.resolve_left ?_ |>.2, fun h => Or.inr ⟨hpasses, h⟩⟩
  rintro ⟨cause, h, -⟩
  exact hpasses cause h

end

/-! ### The line that fills the slot -/

/-- The text of the line. -/
def slotText : String := "jmp 0"

/-- What it says. -/
def slotStatement : Statement :=
  .instr (.jump .always) [.value (.number 0)]

def slotLine : Line :=
  ⟨[], some slotStatement⟩

theorem parse_slotText : Line.parse slotText.toList = .ok slotLine := by
  decide +kernel

variable {source : String} {lines : List Line} {error : Error}

theorem lines_behind_slot (source : String) :
    Text.lines (slotText ++ "\n" ++ source).toList
      = slotText.toList :: Text.lines source.toList := by
  have hbreak : '\n' ∉ slotText.toList := by decide
  rw [String.append_assoc, String.toList_append, String.toList_append]
  exact Text.lines_append_cons hbreak _

theorem readsAs_behind_slot :
    ReadsAs (slotText ++ "\n" ++ source) lines ↔
      ∃ rest, lines = slotLine :: rest ∧ ReadsAs source rest := by
  rw [ReadsAs, lines_behind_slot, List.map_cons, parse_slotText]
  constructor
  · intro h
    cases lines with
    | nil => contradiction
    | cons line rest =>
        obtain ⟨hline, hrest⟩ := List.cons.inj h
        exact ⟨rest, by rw [Except.ok.inj hline], hrest⟩
  · rintro ⟨rest, rfl, hrest⟩
    rw [List.map_cons, hrest]

theorem enter_slotLine :
    (Position.start 0).enter slotLine
      = .ok (some (.instr (.jump .always (.number 0))), .start 5) := rfl

theorem after_slotLine : (Position.start 0).after slotLine = .start 5 := rfl

theorem not_misplaced_slotLine (cause : Cause) : ¬Misplaced (.start 0) slotLine cause := by
  intro h
  have henter := (Position.enter_eq_error (p := .start 0) List.nodup_nil).mpr h
  rw [enter_slotLine] at henter
  contradiction

theorem not_unresolved_slotLine (defs : Definitions) (cause : Cause) :
    ¬Unresolved defs slotLine cause := by
  rintro ⟨s, hs, h⟩
  obtain rfl := Option.some.inj hs
  obtain ⟨⟨hmem⟩, -⟩ := h
  simp at hmem

/-! ### What is assembled -/

theorem assembleParts_slot (parts : List Part) :
    assembleParts [] (.statement slotStatement :: parts) = assembleParts slotBytes parts := by
  have hplace : placeParts [] 0 (.statement slotStatement :: parts)
      = (placeParts [] 5 parts).map fun placed =>
          (placed.1, .instr (.jump .always (.number 0)) :: placed.2) := rfl
  have hresolve : ∀ defs, ((Item.instr (.jump .always (.number 0))).resolve defs).toOption
      = some (.bytes slotBytes) := fun _ => rfl
  show (placeParts [] 0 (.statement slotStatement :: parts)).bind _
    = (placeParts [] 5 parts).bind _
  rw [hplace]
  cases placeParts [] 5 parts with
  | none => rfl
  | some placed =>
      obtain ⟨defs, items⟩ := placed
      simp only [Option.map_some, Option.bind_some, List.mapM_cons, hresolve]
      cases items.mapM fun item => (item.resolve defs).toOption <;> rfl

theorem partsOf_behind_slot (texts : List (List Char)) :
    partsOf (slotText.toList :: texts) = (partsOf texts).map (.statement slotStatement :: ·) := by
  rw [partsOf, parse_slotText]
  cases partsOf texts <;> rfl

theorem assemble_behind_slot_eq_ok {a : Assembled} :
    assemble (slotText ++ "\n" ++ source) = .ok a ↔ assembleProgram source = .ok a := by
  rw [assemble, assembleProgram, assembleBehind_eq_ok_iff, assembleBehind_eq_ok_iff,
    lines_behind_slot, partsOf_behind_slot]
  simp only [Option.map_eq_some_iff]
  constructor
  · rintro ⟨_, ⟨parts, hparts, rfl⟩, h⟩
    rw [assembleParts_slot] at h
    exact ⟨parts, hparts, h⟩
  · rintro ⟨parts, hparts, h⟩
    rw [← assembleParts_slot] at h
    exact ⟨_, ⟨parts, hparts, rfl⟩, h⟩

/-! ### What is reported -/

theorem firstUnreadable_behind_slot {texts : List (List Char)} :
    FirstUnreadable 1 (slotText.toList :: texts) error ↔
      ∃ e, FirstUnreadable 1 texts e ∧ error = e.below := by
  refine firstFailing_behind fun cause h => ?_
  rw [parse_slotText] at h
  contradiction

theorem firstMisplaced_behind_slot :
    FirstMisplaced (.start 0) 1 (slotLine :: lines) error ↔
      ∃ e, FirstMisplaced (.start 5) 1 lines e ∧ error = e.below := by
  rw [← after_slotLine]
  exact firstFailing_behind not_misplaced_slotLine

theorem firstUnresolved_behind_slot {defs : Definitions} :
    FirstUnresolved defs 1 (slotLine :: lines) error ↔
      ∃ e, FirstUnresolved defs 1 lines e ∧ error = e.below :=
  firstFailing_behind (not_unresolved_slotLine defs)

/-- A source is rejected behind the line for what it is rejected for as a program. -/
theorem rejected_behind_slot :
    Rejected 0 (slotText ++ "\n" ++ source) error ↔
      ∃ e, Rejected 5 source e ∧ error = e.below := by
  constructor
  · intro h
    cases h with
    | unreadable h =>
        rw [lines_behind_slot] at h
        obtain ⟨e, hbelow, rfl⟩ := firstUnreadable_behind_slot.mp h
        exact ⟨e, .unreadable hbelow, rfl⟩
    | misplaced hread h =>
        obtain ⟨rest, rfl, hrest⟩ := readsAs_behind_slot.mp hread
        obtain ⟨e, hbelow, rfl⟩ := firstMisplaced_behind_slot.mp h
        exact ⟨e, .misplaced hrest hbelow, rfl⟩
    | unresolved hread hplaced h =>
        obtain ⟨rest, rfl, hrest⟩ := readsAs_behind_slot.mp hread
        obtain ⟨e, hbelow, rfl⟩ := firstUnresolved_behind_slot.mp h
        refine ⟨e, .unresolved hrest (fun e' h' => ?_) hbelow, rfl⟩
        exact hplaced _ (firstMisplaced_behind_slot.mpr ⟨e', h', rfl⟩)
  · rintro ⟨e, h, rfl⟩
    cases h with
    | unreadable h =>
        refine .unreadable ?_
        rw [lines_behind_slot]
        exact firstUnreadable_behind_slot.mpr ⟨e, h, rfl⟩
    | misplaced hread h =>
        exact .misplaced (readsAs_behind_slot.mpr ⟨_, rfl, hread⟩)
          (firstMisplaced_behind_slot.mpr ⟨e, h, rfl⟩)
    | unresolved hread hplaced h =>
        refine .unresolved (readsAs_behind_slot.mpr ⟨_, rfl, hread⟩) (fun e' h' => ?_)
          (firstUnresolved_behind_slot.mpr ⟨e, h, rfl⟩)
        obtain ⟨earlier, h', -⟩ := firstMisplaced_behind_slot.mp h'
        exact hplaced earlier h'

/-- **A program is its source behind a line that fills the slot.**  Whatever the source, with the
line `jmp 0` in front of it the same bytes and labels are assembled, or the same is reported of
the line that is one further down. -/
theorem program_is_source_behind_slot (source : String) :
    assemble ("jmp 0\n" ++ source) = (assembleProgram source).mapError Error.below := by
  show assemble (slotText ++ "\n" ++ source) = _
  cases h : assembleProgram source with
  | ok a => exact assemble_behind_slot_eq_ok.mpr h
  | error e =>
      refine assembleBehind_eq_error.mpr (rejected_behind_slot.mpr ⟨e, ?_, rfl⟩)
      exact assembleBehind_eq_error.mp h

/-- The label that is missing is reported on the third line in place of the second. -/
example : assembleProgram ".org 8\ncall nowhere" = .error ⟨2, .undefinedLabel "nowhere"⟩ ∧
    assemble "jmp 0\n.org 8\ncall nowhere" = .error ⟨3, .undefinedLabel "nowhere"⟩ := by
  decide +kernel

end RegisterMachine.Assembly
