/-
The sweeps of the assembler, line by line.

The assembler goes over the lines of a source three times: it reads them, it places them, and
it turns them into bytes.  Each sweep stops at the first line that it cannot take, and
`FirstFailing` says once what that means.

What a sweep may object to in a line is said by a relation that looks at the source alone:
`Misplaced` and `Unresolved`.  That these are the objections of the assembler is a matter of a
single line, `enter_eq_error` and `resolve_eq_error`; the inductions over the lines only carry
the labels and the address along, as `Position` has them.
-/
import RegisterMachine.Proofs.Assembly.Layout
import RegisterMachine.Proofs.Assembly.Reading

namespace RegisterMachine.Assembly

/-! ### Sweeps -/

/-- The first element of a list of which a sweep complains.  The elements are numbered from `n`
on, and `s` is what the sweep knows before the first of them. -/
inductive FirstFailing {σ α : Type} (next : σ → α → σ) (fails : σ → α → Cause → Prop) :
    σ → Nat → List α → Error → Prop
  | here {s : σ} {n : Nat} {a : α} {rest : List α} {cause : Cause} (h : fails s a cause) :
      FirstFailing next fails s n (a :: rest) ⟨n, cause⟩
  | later {s : σ} {n : Nat} {a : α} {rest : List α} {error : Error}
      (hpasses : ∀ cause, ¬fails s a cause)
      (h : FirstFailing next fails (next s a) (n + 1) rest error) :
      FirstFailing next fails s n (a :: rest) error

section

variable {σ α : Type} {next : σ → α → σ} {fails : σ → α → Cause → Prop} {s : σ} {n : Nat}

theorem not_firstFailing_nil {error : Error} : ¬FirstFailing next fails s n [] error :=
  fun h => nomatch h

theorem firstFailing_cons {a : α} {rest : List α} {error : Error} :
    FirstFailing next fails s n (a :: rest) error ↔
      (∃ cause, fails s a cause ∧ error = ⟨n, cause⟩) ∨
        (∀ cause, ¬fails s a cause) ∧ FirstFailing next fails (next s a) (n + 1) rest error := by
  constructor
  · rintro (h | ⟨hpasses, h⟩)
    · exact Or.inl ⟨_, h, rfl⟩
    · exact Or.inr ⟨hpasses, h⟩
  · rintro (⟨cause, h, rfl⟩ | ⟨hpasses, h⟩)
    · exact .here h
    · exact .later hpasses h

/-- A sweep complains of nothing exactly if it has no complaint wherever it gets. -/
theorem forall_not_firstFailing {l : List α} :
    (∀ error, ¬FirstFailing next fails s n l error) ↔
      ∀ before a after, l = before ++ a :: after →
        ∀ cause, ¬fails (before.foldl next s) a cause := by
  induction l generalizing s n with
  | nil =>
      constructor
      · intro _ before a after h
        exact absurd h.symm (List.append_ne_nil_of_right_ne_nil _ (List.cons_ne_nil _ _))
      · intro _ error
        exact not_firstFailing_nil
  | cons x rest ih =>
      constructor
      · intro h before a after hl cause hfails
        cases before with
        | nil =>
            obtain ⟨rfl, -⟩ := List.cons.inj hl
            exact h _ (.here hfails)
        | cons b before =>
            obtain ⟨rfl, hrest⟩ := List.cons.inj hl
            have hpasses : ∀ cause, ¬fails s x cause := fun c hc => h _ (.here hc)
            have hlater := ih.mp fun error he => h error (.later hpasses he)
            exact hlater before a after hrest cause hfails
      · intro h error hfirst
        rcases firstFailing_cons.mp hfirst with ⟨cause, hfails, -⟩ | ⟨-, hrest⟩
        · exact h [] x rest rfl cause hfails
        · refine ih.mpr (fun before a after hl => ?_) error hrest
          exact h (x :: before) a after (congrArg (x :: ·) hl)

end

/-- The first line of a source that cannot be read. -/
def FirstUnreadable (n : Nat) (texts : List (List Char)) (error : Error) : Prop :=
  FirstFailing (fun _ _ => ()) (fun _ text cause => Line.parse text = .error cause) () n texts error

theorem readNumbered_eq_error {texts : List (List Char)} {n : Nat} {error : Error} :
    (texts.zipIdx n).mapM (fun (text, n) => (onLine n (Line.parse text)).map (·, n)) = .error error
      ↔ FirstUnreadable n texts error := by
  unfold FirstUnreadable
  induction texts generalizing n with
  | nil => exact iff_of_false (fun h => nomatch h) not_firstFailing_nil
  | cons text texts ih =>
      rw [List.zipIdx_cons, mapM_cons_eq_error, firstFailing_cons, ih]
      simp only [map_eq_error, onLine_eq_error, map_eq_ok, onLine_eq_ok]
      cases Line.parse text <;> simp

/-! ### What is asked of a line -/

/-- The kinds of operands. -/
inductive Argument.Kind where
  | reg
  | deref
  | value
  deriving DecidableEq

def Argument.kind : Argument → Argument.Kind
  | reg _ => .reg
  | deref _ => .deref
  | value _ => .value

/-- The kinds of operands that an operation takes, in every way that it takes them. -/
def shapes : Operation → List (List Argument.Kind)
  | .load => [[.reg, .deref]]
  | .store => [[.deref, .reg]]
  | .mov | .alu _ | .cmp => [[.reg, .reg], [.reg, .value]]
  | .not | .push | .pop => [[.reg]]
  | .call | .jump _ => [[.value]]
  | .ret => [[]]

/-- A value stands for a word: a number for itself, a label for an address that it has. -/
inductive Value.Denotes (defs : Definitions) : Value → Word → Prop
  | number (n : Word) : Denotes defs (.number n) n
  | label {name : String} {addr : Word} (h : (name, addr) ∈ defs) : Denotes defs (.label name) addr

/-- The statement's bytes hold the address of a label. -/
inductive Statement.Uses : Statement → String → Prop
  | instr {op : Operation} {args : List Argument} {name : String}
      (h : .value (.label name) ∈ args) : Uses (.instr op args) name
  | word (name : String) : Uses (.directive .word (.label name)) name
  | byte (name : String) : Uses (.directive .byte (.label name)) name

/-- The address behind a statement. -/
def Statement.stop (defs : Definitions) (addr : Word) : Statement → Word
  | instr op args => (instr? op args).elim addr fun i => addr + UInt32.ofNat i.size
  | directive .word _ => addr + 4
  | directive .byte _ => addr + 1
  | directive .org (.number n) => n
  | directive .org (.label name) => (defs.address? name).getD addr

/-- Where a source has got to: the labels so far, and the address of the next statement. -/
structure Position where
  defs : Definitions
  addr : Word

namespace Position

/-- Where a source begins. -/
def start (origin : Word) : Position := ⟨[], origin⟩

/-- The names of the labels so far. -/
def names (p : Position) : List String :=
  p.defs.map Prod.fst

/-- The labels so far and those of a line, which all have the address that is next. -/
def defining (p : Position) (line : Line) : Definitions :=
  p.defs ++ line.labels.map (·, p.addr)

/-- Where the source has got to behind a line. -/
def after (p : Position) (line : Line) : Position :=
  ⟨p.defining line, line.statement?.elim p.addr (·.stop (p.defining line) p.addr)⟩

/-- Where a source that begins at an address gets to with some lines. -/
def reached (origin : Word) (lines : List Line) : Position :=
  lines.foldl after (start origin)

theorem names_after (p : Position) (line : Line) :
    (p.after line).names = p.names ++ line.labels := by
  simp [names, after, defining, Function.comp_def]

theorem names_reached (origin : Word) (lines : List Line) :
    (reached origin lines).names = lines.flatMap (·.labels) := by
  have hfold : ∀ p : Position,
      (lines.foldl after p).names = p.names ++ lines.flatMap (·.labels) := by
    induction lines with
    | nil => simp
    | cons line lines ih =>
        intro p
        rw [List.foldl_cons, ih, names_after, List.append_assoc, List.flatMap_cons]
  exact hfold (start origin)

end Position

/-- Why a statement cannot be placed. -/
inductive Statement.Misplaced (defs : Definitions) (addr : Word) : Statement → Cause → Prop
  /-- Its operands are not what its operation takes. -/
  | shape {op : Operation} {args : List Argument} (hshape : args.map Argument.kind ∉ shapes op) :
      Misplaced defs addr (.instr op args) (.operandShape op)
  /-- It goes to a label that is not defined yet. -/
  | undefined {name : String} (hundefined : name ∉ defs.map Prod.fst) :
      Misplaced defs addr (.directive .org (.label name)) (.undefinedLabel name)
  /-- It goes back. -/
  | backwards {v : Value} {target : Word} (hvalue : v.Denotes defs target) (hback : target < addr) :
      Misplaced defs addr (.directive .org v) (.orgBackwards addr target)

/-- Why a line cannot be placed.  Its labels are defined before its statement is placed. -/
inductive Misplaced (p : Position) (line : Line) : Cause → Prop
  /-- One of its labels is defined already, and none before it is. -/
  | duplicate {front back : List String} {name : String}
      (hlabels : line.labels = front ++ name :: back)
      (hnew : (p.names ++ front).Nodup) (hdefined : name ∈ p.names ++ front) :
      Misplaced p line (.duplicateLabel name)
  | statement {s : Statement} {cause : Cause} (hlabels : (p.names ++ line.labels).Nodup)
      (hstatement : line.statement? = some s) (h : s.Misplaced (p.defining line) p.addr cause) :
      Misplaced p line cause

/-- Why a statement that has its place cannot be turned into bytes. -/
inductive Statement.Unresolved (defs : Definitions) : Statement → Cause → Prop
  /-- It uses a label that is defined nowhere. -/
  | undefined {s : Statement} {name : String} (huses : s.Uses name)
      (hundefined : name ∉ defs.map Prod.fst) : Unresolved defs s (.undefinedLabel name)
  /-- Its value does not fit in a byte. -/
  | byte {v : Value} {w : Word} (hvalue : v.Denotes defs w) (hlarge : 255 < w.toNat) :
      Unresolved defs (.directive .byte v) (.byteOutOfRange w)

def Unresolved (defs : Definitions) (line : Line) (cause : Cause) : Prop :=
  ∃ s, line.statement? = some s ∧ s.Unresolved defs cause

/-! ### Labels and values -/

/-- The labels of a line can be defined up to the first that is defined already. -/
theorem Definitions.define_eq_error {addr : Word} {names : List String} {defs : Definitions}
    {cause : Cause} (hdistinct : defs.Distinct) :
    define addr defs names = .error cause ↔
      ∃ front name back, names = front ++ name :: back ∧ (defs.map Prod.fst ++ front).Nodup ∧
        name ∈ defs.map Prod.fst ++ front ∧ cause = .duplicateLabel name := by
  induction names generalizing defs with
  | nil => simp [define]
  | cons first names ih =>
      unfold define
      split
      · rename_i a haddress
        have hold : first ∈ defs.map Prod.fst := by
          by_contra hnew
          rw [address?_eq_none.mpr hnew] at haddress
          contradiction
        constructor
        · intro h
          obtain rfl := Except.error.inj h
          refine ⟨[], first, names, rfl, ?_, ?_, rfl⟩
          · rwa [List.append_nil]
          · rwa [List.append_nil]
        · rintro ⟨_ | ⟨other, front⟩, name, back, hnames, hnew, -, rfl⟩
          · rw [(List.cons.inj hnames).1]
          · obtain ⟨rfl, -⟩ := List.cons.inj hnames
            exact absurd rfl (List.nodup_append.mp hnew |>.2.2 first hold first List.mem_cons_self)
      · rename_i hnone
        rw [ih (Distinct.append hdistinct hnone addr)]
        have hfront : ∀ front, (defs ++ [(first, addr)]).map Prod.fst ++ front
            = defs.map Prod.fst ++ first :: front := by simp
        simp only [hfront]
        constructor
        · rintro ⟨front, name, back, rfl, hnew, hmem, rfl⟩
          exact ⟨first :: front, name, back, rfl, hnew, hmem, rfl⟩
        · rintro ⟨_ | ⟨other, front⟩, name, back, hnames, hnew, hmem, rfl⟩
          · obtain ⟨rfl, -⟩ := List.cons.inj hnames
            rw [List.append_nil] at hmem
            exact absurd hmem (address?_eq_none.mp hnone)
          · obtain ⟨rfl, hrest⟩ := List.cons.inj hnames
            exact ⟨front, name, back, hrest, hnew, hmem, rfl⟩

namespace Value

variable {defs : Definitions} {v : Value}

theorem resolve_eq_ok {w : Word} (hdistinct : defs.Distinct) :
    v.resolve defs = .ok w ↔ v.Denotes defs w := by
  constructor
  · intro h
    cases v with
    | number n =>
        obtain rfl := Except.ok.inj h
        exact .number n
    | label name => exact .label (mem_of_lookup (resolve_label_eq_ok.mp h))
  · rintro (n | hmem)
    · rfl
    · exact resolve_label_eq_ok.mpr (Definitions.address?_of_mem hdistinct hmem)

theorem resolve_eq_error {cause : Cause} :
    v.resolve defs = .error cause ↔
      ∃ name, v = .label name ∧ name ∉ defs.map Prod.fst ∧ cause = .undefinedLabel name := by
  cases v with
  | number n => simp [resolve]
  | label name =>
      simp only [resolve]
      cases haddress : defs.address? name with
      | none =>
          have hnew := Definitions.address?_eq_none.mp haddress
          constructor
          · intro h
            exact ⟨name, rfl, hnew, (Except.error.inj h).symm⟩
          · rintro ⟨_, hname, -, rfl⟩
            rw [label.inj hname]
      | some addr =>
          constructor
          · intro h
            contradiction
          · rintro ⟨_, hname, hundefined, -⟩
            obtain rfl := label.inj hname
            rw [Definitions.address?_eq_none.mpr hundefined] at haddress
            contradiction

end Value

/-! ### Operands -/

/-- An operation makes an instruction exactly of the operands that it takes. -/
theorem instr?_eq_none {op : Operation} {args : List Argument} :
    instr? op args = none ↔ args.map Argument.kind ∉ shapes op := by
  rcases args with _ | ⟨first, _ | ⟨second, _ | ⟨third, rest⟩⟩⟩
  · cases op <;> simp [instr?, shapes]
  · cases op <;> cases first <;> simp [instr?, shapes, Argument.kind]
  · cases op <;> cases first <;> cases second <;>
      simp [instr?, shapes, Argument.kind, Argument.operand?]
  · cases op <;> simp [instr?, shapes]

theorem Argument.mapExcept_eq_error {src : Argument} {o : Operand Value} (h : src.operand? = some o)
    {f : Value → Except Cause Word} {cause : Cause} :
    o.mapExcept f = .error cause ↔ ∃ v, .value v = src ∧ f v = .error cause := by
  cases src with
  | reg r =>
      obtain rfl := Option.some.inj h
      simp [Operand.mapExcept]
  | deref r => contradiction
  | value v =>
      obtain rfl := Option.some.inj h
      simp [Operand.mapExcept, map_eq_error]

/-- Of the operands of an instruction only values can fail to stand for a word. -/
theorem mapExcept_eq_error {op : Operation} {args : List Argument} {i : Instr Value}
    (h : instr? op args = some i) {f : Value → Except Cause Word} {cause : Cause} :
    i.mapExcept f = .error cause ↔ ∃ v, .value v ∈ args ∧ f v = .error cause := by
  unfold instr? at h
  split at h
  case h_3 | h_4 | h_6 =>
    obtain ⟨o, ho, rfl⟩ := Option.map_eq_some_iff.mp h
    rw [Instr.mapExcept, map_eq_error, Argument.mapExcept_eq_error ho]
    simp
  case h_12 => contradiction
  all_goals
    obtain rfl := Option.some.inj h
    simp [Instr.mapExcept, map_eq_error]

/-! ### One statement -/

namespace Statement

variable {defs all : Definitions} {addr next : Word} {s : Statement} {item : Item} {cause : Cause}

theorem next_of_place (h : s.place defs addr = .ok (item, next)) : next = s.stop defs addr := by
  unfold place at h
  split at h
  · split at h
    · rename_i hinstr
      rw [stop, hinstr]
      exact (Prod.mk.inj (Except.ok.inj h)).2.symm
    · contradiction
  · exact (Prod.mk.inj (Except.ok.inj h)).2.symm
  · exact (Prod.mk.inj (Except.ok.inj h)).2.symm
  · rename_i v
    obtain ⟨target, hvalue, h⟩ := bind_eq_ok.mp h
    split at h
    · contradiction
    · obtain ⟨-, rfl⟩ := Prod.mk.inj (Except.ok.inj h)
      cases v with
      | number n => exact (Except.ok.inj hvalue).symm
      | label name =>
          rw [stop, Value.resolve_label_eq_ok.mp hvalue]
          rfl

theorem place_eq_error (hdistinct : defs.Distinct) :
    s.place defs addr = .error cause ↔ s.Misplaced defs addr cause := by
  unfold place
  split
  · rename_i op args
    cases hinstr : instr? op args with
    | some i =>
        refine iff_of_false (fun h => nomatch h) ?_
        rintro ⟨hshape⟩
        rw [instr?_eq_none.mpr hshape] at hinstr
        contradiction
    | none =>
        constructor
        · intro h
          obtain rfl := Except.error.inj h
          exact .shape (instr?_eq_none.mp hinstr)
        · rintro ⟨-⟩
          rfl
  · exact iff_of_false (fun h => nomatch h) (fun h => nomatch h)
  · exact iff_of_false (fun h => nomatch h) (fun h => nomatch h)
  · rename_i v
    rw [bind_eq_error, Value.resolve_eq_error]
    constructor
    · rintro (⟨name, rfl, hundefined, rfl⟩ | ⟨target, hvalue, h⟩)
      · exact .undefined hundefined
      · split at h
        · rename_i hback
          obtain rfl := Except.error.inj h
          exact .backwards ((Value.resolve_eq_ok hdistinct).mp hvalue) hback
        · contradiction
    · rintro (_ | hundefined | ⟨hvalue, hback⟩)
      · exact Or.inl ⟨_, rfl, hundefined, rfl⟩
      · exact Or.inr ⟨_, (Value.resolve_eq_ok hdistinct).mpr hvalue, if_pos hback⟩

/-- **The second pass objects to labels that are defined nowhere and to values that are too
large, and to nothing else.** -/
theorem resolve_eq_error (hplace : s.place defs addr = .ok (item, next)) (hall : all.Distinct) :
    item.resolve all = .error cause ↔ s.Unresolved all cause := by
  unfold place at hplace
  split at hplace
  · split at hplace
    · rename_i op args i hinstr
      obtain ⟨rfl, -⟩ := Prod.mk.inj (Except.ok.inj hplace)
      rw [Item.resolve, map_eq_error, mapExcept_eq_error hinstr]
      simp only [Value.resolve_eq_error]
      constructor
      · rintro ⟨v, hmem, name, rfl, hundefined, rfl⟩
        exact .undefined (.instr hmem) hundefined
      · rintro ⟨⟨hmem⟩, hundefined⟩
        exact ⟨_, hmem, _, rfl, hundefined, rfl⟩
    · contradiction
  · obtain ⟨rfl, -⟩ := Prod.mk.inj (Except.ok.inj hplace)
    rw [Item.resolve, map_eq_error, Value.resolve_eq_error]
    constructor
    · rintro ⟨name, rfl, hundefined, rfl⟩
      exact .undefined (.word name) hundefined
    · rintro ⟨⟨⟩, hundefined⟩
      exact ⟨_, rfl, hundefined, rfl⟩
  · obtain ⟨rfl, -⟩ := Prod.mk.inj (Except.ok.inj hplace)
    rw [Item.resolve, bind_eq_error, Value.resolve_eq_error]
    constructor
    · rintro (⟨name, rfl, hundefined, rfl⟩ | ⟨w, hvalue, h⟩)
      · exact .undefined (.byte name) hundefined
      · split at h
        · contradiction
        · rename_i hlarge
          obtain rfl := Except.error.inj h
          exact .byte ((Value.resolve_eq_ok hall).mp hvalue) (by omega)
    · rintro (⟨⟨⟩, hundefined⟩ | ⟨hvalue, hlarge⟩)
      · exact Or.inl ⟨_, rfl, hundefined, rfl⟩
      · exact Or.inr ⟨_, (Value.resolve_eq_ok hall).mpr hvalue, if_neg (by omega)⟩
  · obtain ⟨target, -, hplace⟩ := bind_eq_ok.mp hplace
    split at hplace
    · contradiction
    · obtain ⟨rfl, -⟩ := Prod.mk.inj (Except.ok.inj hplace)
      refine iff_of_false (fun h => nomatch h) ?_
      rintro ⟨⟨⟩, -⟩

end Statement

/-! ### One line -/

namespace Position

/-- What the first pass does with a line: the item that it adds, if any, and where it gets. -/
def enter (p : Position) (line : Line) : Except Cause (Option Item × Position) := do
  let defs ← p.defs.define p.addr line.labels
  match line.statement? with
  | none => return (none, ⟨defs, p.addr⟩)
  | some s =>
    let (item, next) ← s.place defs p.addr
    return (some item, ⟨defs, next⟩)

variable {p q : Position} {line : Line} {item? : Option Item} {cause : Cause}

theorem enter_eq_ok (h : p.enter line = .ok (item?, q)) :
    q = p.after line ∧ (p.defs.Distinct → q.defs.Distinct) ∧
      ((line.statement? = none ∧ item? = none) ∨ ∃ s item, line.statement? = some s ∧
        item? = some item ∧ s.place (p.defining line) p.addr = .ok (item, q.addr)) := by
  obtain ⟨defs, hdefine, h⟩ := bind_eq_ok.mp h
  obtain ⟨rfl, hkeep⟩ := Definitions.define_eq_ok hdefine
  rw [after]
  cases hstatement : line.statement? with
  | none =>
      rw [hstatement] at h
      obtain ⟨rfl, rfl⟩ := Prod.mk.inj (Except.ok.inj h)
      exact ⟨rfl, hkeep, Or.inl ⟨rfl, rfl⟩⟩
  | some s =>
      rw [hstatement] at h
      obtain ⟨⟨item, next⟩, hplace, h⟩ := bind_eq_ok.mp h
      obtain ⟨rfl, rfl⟩ := Prod.mk.inj (Except.ok.inj h)
      obtain rfl := Statement.next_of_place hplace
      exact ⟨rfl, hkeep, Or.inr ⟨s, item, rfl, rfl, hplace⟩⟩

theorem nodup_names_defining :
    (p.names ++ line.labels).Nodup ↔ (p.defining line).Distinct := by
  have hnames : (p.defining line).map Prod.fst = p.names ++ line.labels := by
    simp [defining, names, Function.comp_def]
  rw [Definitions.Distinct, hnames]

theorem define_of_nodup (h : (p.names ++ line.labels).Nodup) :
    p.defs.define p.addr line.labels = .ok (p.defining line) := by
  have hdistinct : p.defs.Distinct := h.of_append_left
  cases hdefine : p.defs.define p.addr line.labels with
  | ok defs => rw [(Definitions.define_eq_ok hdefine).1, defining]
  | error cause =>
      obtain ⟨front, name, back, hlabels, -, hdefined, -⟩ :=
        (Definitions.define_eq_error hdistinct).mp hdefine
      rw [hlabels, ← List.append_assoc] at h
      exact absurd rfl (List.nodup_append.mp h |>.2.2 name hdefined name List.mem_cons_self)

/-- **The first pass objects to labels that are defined already, and then to the statement.** -/
theorem enter_eq_error (hdistinct : p.defs.Distinct) :
    p.enter line = .error cause ↔ Misplaced p line cause := by
  rw [enter, bind_eq_error, Definitions.define_eq_error hdistinct]
  constructor
  · rintro (⟨front, name, back, hlabels, hnew, hdefined, rfl⟩ | ⟨defs, hdefine, h⟩)
    · exact .duplicate hlabels hnew hdefined
    · obtain ⟨rfl, hkeep⟩ := Definitions.define_eq_ok hdefine
      have hdefining : (p.defining line).Distinct := hkeep hdistinct
      split at h
      · contradiction
      · rename_i s hstatement
        rcases bind_eq_error.mp h with hplace | ⟨_, _, h⟩
        · exact .statement (nodup_names_defining.mpr hdefining) hstatement
            ((Statement.place_eq_error hdefining).mp hplace)
        · contradiction
  · rintro (⟨hlabels, hnew, hdefined⟩ | ⟨hlabels, hstatement, h⟩)
    · exact Or.inl ⟨_, _, _, hlabels, hnew, hdefined, rfl⟩
    · refine Or.inr ⟨_, define_of_nodup hlabels, ?_⟩
      have hplace := (Statement.place_eq_error (nodup_names_defining.mp hlabels)).mpr h
      rw [hstatement]
      exact bind_eq_error.mpr (Or.inl hplace)

end Position

/-! ### The three sweeps -/

/-- The first line of a source that cannot be placed. -/
def FirstMisplaced (p : Position) (n : Nat) (lines : List Line) (error : Error) : Prop :=
  FirstFailing Position.after Misplaced p n lines error

/-- The first line of a source that cannot be turned into bytes. -/
def FirstUnresolved (defs : Definitions) (n : Nat) (lines : List Line) (error : Error) : Prop :=
  FirstFailing (fun _ _ => ()) (fun _ => Unresolved defs) () n lines error

namespace Layout

/-- The layout with an item in front, if there is one. -/
def behind (layout : Layout) (front? : Option Placed) : Layout :=
  { layout with items := front?.toList ++ layout.items }

theorem ofLines_cons (p : Position) (line : Line) (n : Nat) (rest : List (Line × Nat)) :
    ofLines p.defs p.addr ((line, n) :: rest) = onLine n (p.enter line) >>= fun entered =>
      (ofLines entered.2.defs entered.2.addr rest).map
        (·.behind (entered.1.map (⟨n, p.addr, ·⟩))) := by
  rw [ofLines, Position.enter]
  cases p.defs.define p.addr line.labels with
  | error cause => rfl
  | ok defs =>
      cases line.statement? with
      | none =>
          show ofLines defs p.addr rest = (ofLines defs p.addr rest).map (·.behind none)
          cases ofLines defs p.addr rest <;> rfl
      | some s =>
          show onLine n (s.place defs p.addr) >>= _ = onLine n (s.place defs p.addr >>= _) >>= _
          cases s.place defs p.addr with
          | error cause => rfl
          | ok placed => cases ofLines defs placed.2 rest <;> rfl

variable {p : Position} {lines : List Line} {n : Nat} {layout : Layout} {error : Error}

theorem ofLines_eq_error (hdistinct : p.defs.Distinct) :
    ofLines p.defs p.addr (lines.zipIdx n) = .error error ↔ FirstMisplaced p n lines error := by
  unfold FirstMisplaced
  induction lines generalizing p n with
  | nil => exact iff_of_false (fun h => nomatch h) not_firstFailing_nil
  | cons line lines ih =>
      rw [List.zipIdx_cons, ofLines_cons, firstFailing_cons, bind_eq_error]
      simp only [onLine_eq_error, onLine_eq_ok, ← Position.enter_eq_error hdistinct]
      cases henter : p.enter line with
      | error cause => simp
      | ok entered =>
          obtain ⟨hafter, hkeep, -⟩ := Position.enter_eq_ok henter
          simp only [reduceCtorEq, false_and, exists_false, false_or, Except.ok.injEq,
            exists_eq_left', map_eq_error, not_false_eq_true, implies_true, true_and]
          rw [ih (hkeep hdistinct), hafter]

theorem ofLines_zipIdx_cons_eq_ok {line : Line}
    (h : ofLines p.defs p.addr ((line :: lines).zipIdx n) = .ok layout) :
    ∃ item? after, p.enter line = .ok (item?, p.after line) ∧
      ofLines (p.after line).defs (p.after line).addr (lines.zipIdx (n + 1)) = .ok after ∧
      layout = after.behind (item?.map (⟨n, p.addr, ·⟩)) := by
  rw [List.zipIdx_cons, ofLines_cons] at h
  obtain ⟨⟨item?, q⟩, henter, h⟩ := bind_eq_ok.mp h
  obtain ⟨after, hafter, rfl⟩ := map_eq_ok.mp h
  have henter := onLine_eq_ok.mp henter
  obtain ⟨rfl, -, -⟩ := Position.enter_eq_ok henter
  exact ⟨item?, after, henter, hafter, rfl⟩

theorem defs_of_ofLines_zipIdx (h : ofLines p.defs p.addr (lines.zipIdx n) = .ok layout) :
    layout.defs = (lines.foldl Position.after p).defs := by
  induction lines generalizing p n layout with
  | nil =>
      obtain rfl := Except.ok.inj h
      rfl
  | cons line lines ih =>
      obtain ⟨item?, after, -, hafter, rfl⟩ := ofLines_zipIdx_cons_eq_ok h
      show after.defs = _
      exact ih hafter

theorem resolve_items_eq_error (h : ofLines p.defs p.addr (lines.zipIdx n) = .ok layout)
    {all : Definitions} (hall : all.Distinct) :
    layout.items.mapM (fun placed => onLine placed.line (placed.item.resolve all)) = .error error
      ↔ FirstUnresolved all n lines error := by
  unfold FirstUnresolved
  induction lines generalizing p n layout with
  | nil =>
      obtain rfl := Except.ok.inj h
      exact iff_of_false (fun h => nomatch h) not_firstFailing_nil
  | cons line lines ih =>
      obtain ⟨item?, after, henter, hafter, rfl⟩ := ofLines_zipIdx_cons_eq_ok h
      rw [firstFailing_cons, ← ih hafter]
      obtain ⟨-, -, ⟨hstatement, rfl⟩ | ⟨s, item, hstatement, rfl, hplace⟩⟩ :=
        Position.enter_eq_ok henter
      · have hpasses : ∀ cause, ¬Unresolved all line cause := by
          rintro cause ⟨s, hsome, -⟩
          rw [hstatement] at hsome
          contradiction
        simp [behind, hpasses]
      · have hresolve : ∀ cause, Unresolved all line cause ↔ item.resolve all = .error cause := by
          intro cause
          rw [Statement.resolve_eq_error hplace hall, Unresolved, hstatement]
          simp
        rw [behind]
        simp only [Option.map_some, Option.toList_some, List.singleton_append, hresolve]
        rw [mapM_cons_eq_error]
        simp only [onLine_eq_error, onLine_eq_ok]
        cases item.resolve all <;> simp

theorem distinct_of_not_misplaced (hdistinct : p.defs.Distinct)
    (h : ∀ error, ¬FirstMisplaced p n lines error) :
    (lines.foldl Position.after p).defs.Distinct := by
  obtain ⟨layout, hlayout⟩ := exists_ok_iff.mpr fun error herror =>
    h error ((ofLines_eq_error hdistinct).mp herror)
  rw [← defs_of_ofLines_zipIdx hlayout]
  exact (defs_of_ofLines hlayout).2.2 hdistinct

end Layout

end RegisterMachine.Assembly
