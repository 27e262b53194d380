/-
Which sources are assembled, and what is reported of the others.

A source is assembled if its lines can be read and are `Acceptable`, which is said without any
sweep: of labels, operands and addresses wherever they stand.  Otherwise one of the sweeps
stops, and its error is reported; a later sweep only begins when the earlier ones have taken
every line.  In particular the last one never objects to operands, though it lowers every
instruction a second time, and no source that is assembled has a label left without an
address.
-/
import RegisterMachine.Proofs.Assembly.Sweep

namespace RegisterMachine.Assembly

/-! ### Sources that are assembled -/

/-- What the lines of a source have to be like for it to be assembled from an address on. -/
structure Acceptable (origin : Word) (lines : List Line) : Prop where
  /-- No label is defined twice. -/
  distinct : (lines.flatMap (·.labels)).Nodup
  /-- Every instruction has operands that its operation takes. -/
  shaped : ∀ line ∈ lines, ∀ op args, line.statement? = some (.instr op args) →
    args.map Argument.kind ∈ shapes op
  /-- Every `.org` goes forward, to a number or to a label that is defined before it or on the
  same line. -/
  forward : ∀ before line after v, lines = before ++ line :: after →
    line.statement? = some (.directive .org v) →
    let p := Position.reached origin before
    ∃ target, v.Denotes (p.defining line) target ∧ p.addr ≤ target
  /-- Every label that is used is defined somewhere. -/
  defined : ∀ line ∈ lines, ∀ s name, line.statement? = some s → s.Uses name →
    name ∈ lines.flatMap (·.labels)
  /-- The value of every `.byte` fits in a byte. -/
  small : ∀ line ∈ lines, ∀ v w, line.statement? = some (.directive .byte v) →
    v.Denotes (Position.reached origin lines).defs w → w.toNat ≤ 255

/-- A line can be placed exactly if it is as `Acceptable` wants it. -/
theorem not_misplaced_iff {p : Position} {line : Line} (hdistinct : p.names.Nodup) :
    (∀ cause, ¬Misplaced p line cause) ↔
      (p.names ++ line.labels).Nodup ∧
      (∀ op args, line.statement? = some (.instr op args) → args.map Argument.kind ∈ shapes op) ∧
      ∀ v, line.statement? = some (.directive .org v) →
        ∃ target, v.Denotes (p.defining line) target ∧ p.addr ≤ target := by
  constructor
  · intro h
    have hlabels : (p.names ++ line.labels).Nodup := by
      cases henter : p.enter line with
      | error cause => exact absurd ((Position.enter_eq_error hdistinct).mp henter) (h cause)
      | ok entered =>
          obtain ⟨hafter, hkeep, -⟩ := Position.enter_eq_ok henter
          have hdefining := hkeep hdistinct
          rw [hafter] at hdefining
          exact Position.nodup_names_defining.mpr hdefining
    refine ⟨hlabels, fun op args hstatement => ?_, fun v hstatement => ?_⟩
    · by_contra hshape
      exact h _ (.statement hlabels hstatement (.shape hshape))
    · cases hvalue : v.resolve (p.defining line) with
      | error cause =>
          obtain ⟨name, rfl, hundefined, rfl⟩ := Value.resolve_eq_error.mp hvalue
          exact absurd (.statement hlabels hstatement (.undefined hundefined)) (h _)
      | ok target =>
          have hdenotes :=
            (Value.resolve_eq_ok (Position.nodup_names_defining.mp hlabels)).mp hvalue
          refine ⟨target, hdenotes, UInt32.not_lt.mp fun hback => ?_⟩
          exact h _ (.statement hlabels hstatement (.backwards hdenotes hback))
  · rintro ⟨hlabels, hshaped, hforward⟩ cause (⟨hfront, -, hdefined⟩ | ⟨-, hstatement, hs⟩)
    · rw [hfront, ← List.append_assoc] at hlabels
      exact absurd rfl (List.nodup_append.mp hlabels |>.2.2 _ hdefined _ List.mem_cons_self)
    · have hdefining := Position.nodup_names_defining.mp hlabels
      cases hs with
      | shape hshape => exact hshape (hshaped _ _ hstatement)
      | undefined hundefined =>
          obtain ⟨target, hvalue, -⟩ := hforward _ hstatement
          cases hvalue with
          | label hmem => exact hundefined (List.mem_map_of_mem hmem)
      | backwards hvalue hback =>
          obtain ⟨target, hother, hle⟩ := hforward _ hstatement
          have hsame := (Value.resolve_eq_ok hdefining).mpr hother
          rw [(Value.resolve_eq_ok hdefining).mpr hvalue] at hsame
          rw [Except.ok.inj hsame] at hback
          exact UInt32.not_lt.mpr hle hback

/-- **The acceptable sources are those of which no pass complains.** -/
theorem acceptable_iff {origin : Word} {lines : List Line} :
    Acceptable origin lines ↔
      (∀ error, ¬FirstMisplaced (.start origin) 1 lines error) ∧
      ∀ error, ¬FirstUnresolved (Position.reached origin lines).defs 1 lines error := by
  constructor
  · intro h
    refine ⟨forall_not_firstFailing.mpr ?_, forall_not_firstFailing.mpr ?_⟩
    · rintro before line after rfl
      have hdistinct := h.distinct
      rw [List.flatMap_append, List.flatMap_cons, ← List.append_assoc] at hdistinct
      have hlabels := hdistinct.of_append_left
      rw [← Position.names_reached origin before] at hlabels
      exact (not_misplaced_iff hlabels.of_append_left).mpr
        ⟨hlabels, h.shaped line (by simp), fun v => h.forward before line after v rfl⟩
    · rintro before line after hlines cause ⟨s, hstatement, hs⟩
      have hmem : line ∈ lines := by simp [hlines]
      cases hs with
      | undefined huses hundefined =>
          have hdefined := h.defined line hmem s _ hstatement huses
          rw [← Position.names_reached origin lines] at hdefined
          exact hundefined hdefined
      | byte hvalue hlarge =>
          have := h.small line hmem _ _ hstatement hvalue
          omega
  · rintro ⟨hplaced, hresolved⟩
    have hdistinct : (lines.flatMap (·.labels)).Nodup := by
      rw [← Position.names_reached origin lines]
      exact Layout.distinct_of_not_misplaced List.nodup_nil hplaced
    have hbefore : ∀ before after, lines = before ++ after →
        (Position.reached origin before).names.Nodup := by
      rintro before after rfl
      rw [List.flatMap_append] at hdistinct
      rw [Position.names_reached]
      exact hdistinct.of_append_left
    have hline := fun before line after hlines =>
      (not_misplaced_iff (hbefore before (line :: after) hlines)).mp
        (forall_not_firstFailing.mp hplaced before line after hlines)
    have hpasses : ∀ line ∈ lines, ∀ cause,
        ¬Unresolved (Position.reached origin lines).defs line cause := by
      intro line hmem
      obtain ⟨before, after, hlines⟩ := List.append_of_mem hmem
      exact forall_not_firstFailing.mp hresolved before line after hlines
    refine ⟨hdistinct, ?_, ?_, ?_, ?_⟩
    · intro line hmem
      obtain ⟨before, after, hlines⟩ := List.append_of_mem hmem
      exact (hline before line after hlines).2.1
    · intro before line after v hlines
      exact (hline before line after hlines).2.2 v
    · intro line hmem s name hstatement huses
      by_contra hundefined
      rw [← Position.names_reached origin lines] at hundefined
      exact hpasses line hmem _ ⟨s, hstatement, .undefined huses hundefined⟩
    · intro line hmem v w hstatement hvalue
      by_contra hlarge
      exact hpasses line hmem _ ⟨_, hstatement, .byte hvalue (by omega)⟩

/-! ### Sources that are not -/

/-- The error that is reported for a source that cannot be assembled from an address on. -/
inductive Rejected (origin : Word) (source : String) : Error → Prop
  | unreadable {error : Error} (h : FirstUnreadable 1 (Text.lines source.toList) error) :
      Rejected origin source error
  | misplaced {lines : List Line} {error : Error} (hread : ReadsAs source lines)
      (h : FirstMisplaced (.start origin) 1 lines error) : Rejected origin source error
  | unresolved {lines : List Line} {error : Error} (hread : ReadsAs source lines)
      (hplaced : ∀ error, ¬FirstMisplaced (.start origin) 1 lines error)
      (h : FirstUnresolved (Position.reached origin lines).defs 1 lines error) :
      Rejected origin source error

theorem ReadsAs.unique {source : String} {lines lines' : List Line} (h : ReadsAs source lines)
    (h' : ReadsAs source lines') : lines' = lines :=
  List.map_injective_iff.mpr (fun _ _ => Except.ok.inj) (h'.symm.trans h)

/-- What the outcome of an assembly says about the source. -/
structure Decides (origin : Word) (source : String) (outcome : Except Error Assembled) : Prop where
  accepts : (∃ a, outcome = .ok a) ↔ ∃ lines, ReadsAs source lines ∧ Acceptable origin lines
  rejects : ∀ error, outcome = .error error ↔ Rejected origin source error

section

variable {opening : List UInt8} {source : String}

/-- **The error that is reported is that of the first sweep that does not get through.** -/
theorem assembleBehind_eq_error {error : Error} :
    assembleBehind opening source = .error error ↔
      Rejected (UInt32.ofNat opening.length) source error := by
  generalize horigin : UInt32.ofNat opening.length = origin
  have hplaced {lines : List Line} {error : Error} :
      Layout.ofLines [] origin (lines.zipIdx 1) = .error error ↔
        FirstMisplaced (.start origin) 1 lines error :=
    Layout.ofLines_eq_error (p := .start origin) List.nodup_nil
  have hresolved {lines : List Line} {layout : Layout} {error : Error}
      (h : Layout.ofLines [] origin (lines.zipIdx 1) = .ok layout) :
      layout.items.mapM (fun placed => onLine placed.line (placed.item.resolve layout.defs))
        = .error error ↔ FirstUnresolved (Position.reached origin lines).defs 1 lines error := by
    have hdistinct : layout.defs.Distinct := (Layout.defs_of_ofLines h).2.2 List.nodup_nil
    rw [Layout.resolve_items_eq_error (p := .start origin) h hdistinct,
      Layout.defs_of_ofLines_zipIdx (p := .start origin) h]
    rfl
  rw [assembleBehind, horigin, bind_eq_error]
  constructor
  · rintro (hunread | ⟨numbered, hread, h⟩)
    · exact .unreadable (readNumbered_eq_error.mp hunread)
    · obtain ⟨lines, hreads, rfl⟩ := parseLines_eq_ok.mp hread
      rcases bind_eq_error.mp h with hmisplaced | ⟨layout, hlayout, h⟩
      · exact .misplaced hreads (hplaced.mp hmisplaced)
      · rcases bind_eq_error.mp h with hunresolved | ⟨_, _, h⟩
        · refine .unresolved hreads (fun error herror => ?_) ((hresolved hlayout).mp hunresolved)
          rw [hplaced.mpr herror] at hlayout
          contradiction
        · contradiction
  · rintro (hunread | ⟨hread, hmisplaced⟩ | ⟨hread, hnone, hunresolved⟩)
    · exact Or.inl (readNumbered_eq_error.mpr hunread)
    · refine Or.inr ⟨_, parseLines_eq_ok.mpr ⟨_, hread, rfl⟩, ?_⟩
      exact bind_eq_error.mpr (Or.inl (hplaced.mpr hmisplaced))
    · obtain ⟨layout, hlayout⟩ :=
        exists_ok_iff.mpr fun error herror => hnone error (hplaced.mp herror)
      refine Or.inr ⟨_, parseLines_eq_ok.mpr ⟨_, hread, rfl⟩, ?_⟩
      refine bind_eq_error.mpr (Or.inr ⟨layout, hlayout, ?_⟩)
      exact bind_eq_error.mpr (Or.inl ((hresolved hlayout).mpr hunresolved))

theorem not_rejected_iff {origin : Word} :
    (∀ error, ¬Rejected origin source error) ↔
      ∃ lines, ReadsAs source lines ∧ Acceptable origin lines := by
  constructor
  · intro h
    obtain ⟨numbered, hread⟩ : ∃ numbered, parseLines source = .ok numbered :=
      exists_ok_iff.mpr fun error herror => h error (.unreadable (readNumbered_eq_error.mp herror))
    obtain ⟨lines, hreads, -⟩ := parseLines_eq_ok.mp hread
    have hplaced : ∀ error, ¬FirstMisplaced (.start origin) 1 lines error :=
      fun error herror => h error (.misplaced hreads herror)
    refine ⟨lines, hreads, acceptable_iff.mpr ⟨hplaced, fun error herror => ?_⟩⟩
    exact h error (.unresolved hreads hplaced herror)
  · rintro ⟨lines, hreads, hacceptable⟩ error hrejected
    obtain ⟨hplaced, hresolved⟩ := acceptable_iff.mp hacceptable
    cases hrejected with
    | unreadable h =>
        have hread : parseLines source = .ok _ := parseLines_eq_ok.mpr ⟨lines, hreads, rfl⟩
        have herror : parseLines source = .error error := readNumbered_eq_error.mpr h
        rw [herror] at hread
        contradiction
    | misplaced hreads' h => exact hplaced error (hreads.unique hreads' ▸ h)
    | unresolved hreads' _ h => exact hresolved error (hreads.unique hreads' ▸ h)

theorem decides_assembleBehind (opening : List UInt8) (source : String) :
    Decides (UInt32.ofNat opening.length) source (assembleBehind opening source) where
  accepts := by
    rw [exists_ok_iff, ← not_rejected_iff]
    simp only [ne_eq, assembleBehind_eq_error]
  rejects _ := assembleBehind_eq_error

end

/-- **Which sources are assembled, and what is reported of the others.**  A source is assembled
if all its lines can be read and are `Acceptable`, and for no other reason is it refused.  Then
the error is the first that reading finds in the order of the lines; if every line can be
read, the first that placing them finds; and only if all have their places, the first label
that is defined nowhere or value that is too large for a byte.  A program begins behind the
slot. -/
theorem assemble_decides (source : String) :
    Decides 0 source (assemble source) ∧ Decides 5 source (assembleProgram source) :=
  ⟨decides_assembleBehind [] source, decides_assembleBehind slotBytes source⟩

/-- Labels are looked up once all lines have their places, which the last line does not get. -/
example : assemble "jmp nowhere\n.org 8\n.org 4" = .error ⟨3, .orgBackwards 8 4⟩ := by
  decide +kernel

end RegisterMachine.Assembly
