/-
The image lies as the first pass placed it.

The first pass gives addresses before a byte exists, from sizes that it finds with the
labels still unknown; the second pass puts bytes one after another and never looks at an
address.  That the two agree is what makes a label mean anything.  They agree because
each statement moves the address of the one and the length of the other by the same
amount, as long as the length of the image is a word: then no address has wrapped.

The invariant that carries the induction over the lines is that the address of the next
statement is the length of the image so far.  Everything else is read off from it: a
label has the address that the next statement gets, a statement's bytes start at its
address, and the last address is the length of the image.
-/
import RegisterMachine.Assembly.Program
import RegisterMachine.Proofs.Except
import RegisterMachine.Proofs.WordMap
import Mathlib.Data.List.Find

namespace RegisterMachine.Assembly

/-! ### Names keep their addresses -/

namespace Definitions

/-- No name is defined twice. -/
def Distinct (defs : Definitions) : Prop :=
  (defs.map Prod.fst).Nodup

theorem address?_append {defs more : Definitions} {name : String} {addr : Word}
    (h : defs.address? name = some addr) : (defs ++ more).address? name = some addr := by
  unfold address? at h ⊢
  rw [List.lookup_append, h]
  rfl

theorem address?_eq_none {defs : Definitions} {name : String} :
    defs.address? name = none ↔ name ∉ defs.map Prod.fst := by
  unfold address?
  rw [List.lookup_eq_none_iff]
  simp only [List.mem_map, not_exists, not_and, bne_iff_ne, ne_eq]
  exact ⟨fun h x hx hname => h x hx hname.symm, fun h x hx hname => h x hx hname.symm⟩

theorem address?_of_mem {defs : Definitions} (hdistinct : defs.Distinct) {name : String}
    {addr : Word} (h : (name, addr) ∈ defs) : defs.address? name = some addr :=
  lookup_of_mem hdistinct h

theorem address?_of_distinct {defs more : Definitions} {name : String} {addr : Word}
    (h : ((defs ++ [(name, addr)]) ++ more).Distinct) : defs.address? name = none := by
  refine address?_eq_none.mpr fun hmem => ?_
  rw [Distinct, List.append_assoc, List.map_append, List.nodup_append] at h
  exact h.2.2 name hmem name (by simp) rfl

theorem Distinct.append {defs : Definitions} {name : String} (h : defs.Distinct)
    (hnew : defs.address? name = none) (addr : Word) : (defs ++ [(name, addr)]).Distinct := by
  have hname : name ∉ defs.map Prod.fst := address?_eq_none.mp hnew
  unfold Distinct
  rw [List.map_append, List.nodup_append]
  refine ⟨h, by simp, ?_⟩
  intro a ha b hb hab
  obtain rfl : b = name := by simpa using hb
  exact hname (hab ▸ ha)

/-- Defining the labels of a line appends them, all at the one address. -/
theorem define_eq_ok {addr : Word} {names : List String} {defs defs' : Definitions}
    (h : define addr defs names = .ok defs') :
    defs' = defs ++ names.map (·, addr) ∧ (defs.Distinct → defs'.Distinct) := by
  induction names generalizing defs with
  | nil =>
      obtain rfl := Except.ok.inj h
      simp
  | cons name names ih =>
      unfold define at h
      split at h
      · contradiction
      · rename_i hnew
        obtain ⟨rfl, hkeep⟩ := ih h
        exact ⟨by simp, fun hdistinct => hkeep (hdistinct.append hnew addr)⟩

end Definitions

/-! ### One line of the first pass -/

namespace Layout

/-- What the first pass does with a line: it defines the labels, and places the statement
if there is one. -/
theorem ofLines_cons_eq_ok {defs : Definitions} {addr : Word} {line : Line} {n : Nat}
    {rest : List (Line × Nat)} {layout : Layout}
    (h : ofLines defs addr ((line, n) :: rest) = .ok layout) :
    ∃ defs', defs.define addr line.labels = .ok defs' ∧
      ((line.statement? = none ∧ ofLines defs' addr rest = .ok layout) ∨
        ∃ statement item next after, line.statement? = some statement ∧
          statement.place defs' addr = .ok (item, next) ∧
          ofLines defs' next rest = .ok after ∧
          layout = { after with items := ⟨n, addr, item⟩ :: after.items }) := by
  rw [ofLines] at h
  obtain ⟨defs', hdefine, h⟩ := bind_eq_ok.mp h
  refine ⟨defs', onLine_eq_ok.mp hdefine, ?_⟩
  cases hstatement : line.statement? with
  | none =>
      rw [hstatement] at h
      exact Or.inl ⟨rfl, h⟩
  | some statement =>
      rw [hstatement] at h
      obtain ⟨⟨item, next⟩, hplace, h⟩ := bind_eq_ok.mp h
      obtain ⟨after, hafter, h⟩ := bind_eq_ok.mp h
      exact Or.inr ⟨statement, item, next, after, rfl, onLine_eq_ok.mp hplace, hafter,
        (Except.ok.inj h).symm⟩

theorem ofLines_label {defs : Definitions} {addr : Word} {name : String} {n : Nat}
    {rest : List (Line × Nat)} (h : defs.address? name = none) :
    ofLines defs addr ((⟨[name], none⟩, n) :: rest)
      = ofLines (defs ++ [(name, addr)]) addr rest := by
  have hdefine : defs.define addr [name] = .ok (defs ++ [(name, addr)]) := by
    rw [Definitions.define, h]
    rfl
  rw [ofLines]
  simp only [hdefine]
  rfl

theorem ofLines_statement {defs : Definitions} {addr next : Word} {statement : Statement}
    {item : Item} {n : Nat} {rest : List (Line × Nat)} {layout : Layout}
    (hplace : statement.place defs addr = .ok (item, next))
    (hrest : ofLines defs next rest = .ok layout) :
    ofLines defs addr ((⟨[], some statement⟩, n) :: rest)
      = .ok { layout with items := ⟨n, addr, item⟩ :: layout.items } := by
  have honLine : onLine n (statement.place defs addr) = .ok (item, next) :=
    onLine_eq_ok.mpr hplace
  rw [ofLines]
  refine bind_eq_ok.mpr ⟨defs, rfl, ?_⟩
  refine bind_eq_ok.mpr ⟨(item, next), honLine, ?_⟩
  exact bind_eq_ok.mpr ⟨layout, hrest, rfl⟩

/-- The labels of a layout are those it started from and those of the lines, in order. -/
theorem defs_of_ofLines {defs : Definitions} {addr : Word} {lines : List (Line × Nat)}
    {layout : Layout} (h : ofLines defs addr lines = .ok layout) :
    (∃ more, layout.defs = defs ++ more) ∧
      layout.defs.map Prod.fst = defs.map Prod.fst ++ lines.flatMap (·.1.labels) ∧
      (defs.Distinct → layout.defs.Distinct) := by
  induction lines generalizing defs addr layout with
  | nil =>
      obtain rfl := Except.ok.inj h
      exact ⟨⟨[], by simp⟩, by simp, id⟩
  | cons entry rest ih =>
      obtain ⟨line, n⟩ := entry
      obtain ⟨defs', hdefine, hrest⟩ := ofLines_cons_eq_ok h
      obtain ⟨rfl, hkeep⟩ := Definitions.define_eq_ok hdefine
      have hafter : ∀ next after,
          ofLines (defs ++ line.labels.map (·, addr)) next rest = .ok after →
          (∃ more, after.defs = defs ++ more) ∧
            after.defs.map Prod.fst
              = defs.map Prod.fst ++ ((line, n) :: rest).flatMap (·.1.labels) ∧
            (defs.Distinct → after.defs.Distinct) := by
        intro next after hnext
        obtain ⟨⟨more, hmore⟩, hfst, hdistinct⟩ := ih hnext
        refine ⟨⟨line.labels.map (·, addr) ++ more, by rw [hmore, List.append_assoc]⟩, ?_,
          fun hd => hdistinct (hkeep hd)⟩
        rw [hfst]
        simp [Function.comp_def]
      rcases hrest with ⟨-, hrest⟩ | ⟨statement, item, next, after, -, -, hrest, rfl⟩
      · exact hafter addr layout hrest
      · exact hafter next after hrest

end Layout

/-! ### What a statement occupies

These two relations say what an image has to look like.  They mention no pass: the
offsets run over the bytes of the image alone.
-/

/-- A statement takes the bytes of an image from one offset up to another. -/
inductive Statement.Occupies (defs : Definitions) (image : List UInt8) (start : Nat) :
    Statement → Nat → Prop
  /-- An instruction is decoded there, each label replaced by its address. -/
  | instr {op : Operation} {args : List Argument} {written : Instr Value} {i : Instruction}
      (hshape : instr? op args = some written)
      (hlabels : written.mapExcept (Value.resolve defs) = .ok i)
      (hbytes : i.encode <+: image.drop start)
      (hdecode : Instr.decode (image.drop start) = .ok i) :
      Occupies defs image start (.instr op args) (start + i.size)
  | word {v : Value} {w : Word} (hvalue : v.resolve defs = .ok w)
      (hbytes : w.bytes <+: image.drop start) :
      Occupies defs image start (.directive .word v) (start + 4)
  | byte {v : Value} {w : Word} (hvalue : v.resolve defs = .ok w) (hsmall : w.toNat < 0x100)
      (hbyte : image[start]? = some w.lowByte) :
      Occupies defs image start (.directive .byte v) (start + 1)
  /-- Zeros stand there, up to the address that is given. -/
  | org {v : Value} {target : Word} (hvalue : v.resolve defs = .ok target)
      (hforward : start ≤ target.toNat)
      (hzeros : ∀ k, start ≤ k → k < target.toNat → image[k]? = some 0) :
      Occupies defs image start (.directive .org v) target.toNat

/-- The lines fill an image from an offset to its end, each statement behind the one before
it and at the address of its item; a label has the address of what follows it. -/
inductive LaidOut (defs : Definitions) (image : List UInt8) :
    Nat → List (Line × Nat) → List Placed → Prop
  | done : LaidOut defs image image.length [] []
  | bare {offset : Nat} {line : Line} {n : Nat} {rest : List (Line × Nat)} {items : List Placed}
      (hlabels : ∀ name ∈ line.labels, ∃ addr, defs.address? name = some addr ∧ addr.toNat = offset)
      (hnone : line.statement? = none)
      (hrest : LaidOut defs image offset rest items) :
      LaidOut defs image offset ((line, n) :: rest) items
  | statement {offset next : Nat} {line : Line} {n : Nat} {rest : List (Line × Nat)}
      {statement : Statement} {placed : Placed} {items : List Placed}
      (hlabels : ∀ name ∈ line.labels, ∃ addr, defs.address? name = some addr ∧ addr.toNat = offset)
      (hsome : line.statement? = some statement)
      (hplace : placed.line = n ∧ placed.addr.toNat = offset)
      (hbytes : statement.Occupies defs image offset next)
      (hrest : LaidOut defs image next rest items) :
      LaidOut defs image offset ((line, n) :: rest) (placed :: items)

/-! ### A statement moves both passes alike -/

/-- A definition that later ones do not change. -/
def Definitions.Within (defs all : Definitions) : Prop :=
  ∀ name addr, defs.address? name = some addr → all.address? name = some addr

theorem Value.resolve_label_eq_ok {defs : Definitions} {name : String} {w : Word} :
    (label name).resolve defs = .ok w ↔ defs.address? name = some w := by
  simp only [Value.resolve]
  cases defs.address? name <;> simp

theorem Value.resolve_within {defs all : Definitions} (hwithin : defs.Within all) {v : Value}
    {w : Word} (h : v.resolve defs = .ok w) : v.resolve all = .ok w := by
  cases v with
  | number n => exact h
  | label name => exact resolve_label_eq_ok.mpr (hwithin name w (resolve_label_eq_ok.mp h))

theorem toNat_add_size {addr : Word} {n : Nat} (h : addr.toNat + n < UInt32.size) :
    (addr + UInt32.ofNat n).toNat = addr.toNat + n := by
  have hn : n % 2 ^ 32 = n := Nat.mod_eq_of_lt (by unfold UInt32.size at h; omega)
  rw [UInt32.toNat_add, UInt32.toNat_ofNat', hn]
  exact Nat.mod_eq_of_lt h

theorem Piece.length_emit_bytes (offset : Nat) (bs : List UInt8) :
    ((bytes bs).emit offset).length = bs.length :=
  rfl

theorem Piece.length_emit_zerosTo (offset : Nat) (target : Word) :
    ((zerosTo target).emit offset).length = target.toNat - offset :=
  List.length_replicate

/-- Bytes of an image that stand where an address says. -/
structure StandsAt (image : List UInt8) (addr : Word) (start : Nat) (bytes : List UInt8) :
    Prop where
  /-- The image has them at the offset. -/
  front : bytes <+: image.drop start
  /-- The offset behind them is a word. -/
  fits : start + bytes.length < UInt32.size
  addr : addr.toNat = start

/-- The address behind the bytes is the offset behind them. -/
theorem StandsAt.next {image bytes : List UInt8} {addr : Word} {start : Nat}
    (h : StandsAt image addr start bytes) :
    (addr + UInt32.ofNat bytes.length).toNat = start + bytes.length := by
  have hfits := h.fits
  rw [← h.addr] at hfits
  rw [toNat_add_size hfits, h.addr]

namespace Statement

section OneStatement

variable {defs all : Definitions} {addr next : Word} {item : Item} {piece : Piece}
  {image : List UInt8} {start : Nat}

theorem instr_place_emit {op : Operation} {args : List Argument}
    (hplace : (instr op args).place defs addr = .ok (item, next))
    (hresolve : item.resolve all = .ok piece)
    (hstands : StandsAt image addr start (piece.emit start)) :
    (instr op args).Occupies all image start (start + (piece.emit start).length) ∧
      next.toNat = start + (piece.emit start).length := by
  simp only [place] at hplace
  split at hplace
  · rename_i written hshape
    obtain ⟨rfl, rfl⟩ := Prod.mk.inj (Except.ok.inj hplace)
    obtain ⟨i, hlabels, rfl⟩ := map_eq_ok.mp hresolve
    have hsize : (Piece.emit start (.bytes i.encode)).length = i.size := by
      rw [Piece.length_emit_bytes, Instr.length_encode]
    obtain ⟨after, hafter⟩ := hstands.front
    have hdecode : Instr.decode (image.drop start) = .ok i := by
      rw [← hafter]
      exact Instr.decode_encode_append i after
    refine ⟨?_, ?_⟩
    · rw [hsize]
      exact .instr hshape hlabels hstands.front hdecode
    · rw [← hstands.next, hsize, Instr.size_mapExcept hlabels]
  · contradiction

theorem word_place_emit {v : Value}
    (hplace : (directive .word v).place defs addr = .ok (item, next))
    (hresolve : item.resolve all = .ok piece)
    (hstands : StandsAt image addr start (piece.emit start)) :
    (directive .word v).Occupies all image start (start + (piece.emit start).length) ∧
      next.toNat = start + (piece.emit start).length := by
  obtain ⟨rfl, rfl⟩ := Prod.mk.inj (Except.ok.inj hplace)
  obtain ⟨w, hvalue, rfl⟩ := map_eq_ok.mp hresolve
  exact ⟨.word hvalue hstands.front, hstands.next⟩

theorem byte_place_emit {v : Value}
    (hplace : (directive .byte v).place defs addr = .ok (item, next))
    (hresolve : item.resolve all = .ok piece)
    (hstands : StandsAt image addr start (piece.emit start)) :
    (directive .byte v).Occupies all image start (start + (piece.emit start).length) ∧
      next.toNat = start + (piece.emit start).length := by
  obtain ⟨rfl, rfl⟩ := Prod.mk.inj (Except.ok.inj hplace)
  obtain ⟨w, hvalue, hpiece⟩ := bind_eq_ok.mp hresolve
  split at hpiece
  · rename_i hsmall
    obtain rfl := Except.ok.inj hpiece
    obtain ⟨after, hafter⟩ := hstands.front
    have hbyte : image[start]? = some w.lowByte := by
      have hfirst : (image.drop start)[0]? = some w.lowByte := by
        rw [← hafter]
        rfl
      rwa [List.getElem?_drop] at hfirst
    exact ⟨.byte hvalue hsmall hbyte, hstands.next⟩
  · contradiction

theorem org_place_emit {v : Value}
    (hplace : (directive .org v).place defs addr = .ok (item, next))
    (hwithin : defs.Within all) (hresolve : item.resolve all = .ok piece)
    (hstands : StandsAt image addr start (piece.emit start)) :
    (directive .org v).Occupies all image start (start + (piece.emit start).length) ∧
      next.toNat = start + (piece.emit start).length := by
  obtain ⟨target, hvalue, hplace⟩ := bind_eq_ok.mp hplace
  split at hplace
  · contradiction
  · rename_i hforward
    obtain ⟨rfl, rfl⟩ := Prod.mk.inj (Except.ok.inj hplace)
    obtain rfl := Except.ok.inj hresolve
    have hle : start ≤ target.toNat := by
      rw [← hstands.addr]
      exact UInt32.not_lt.mp hforward
    have hstop : start + (Piece.emit start (.zerosTo target)).length = target.toNat := by
      rw [Piece.length_emit_zerosTo]
      omega
    rw [hstop]
    refine ⟨.org (Value.resolve_within hwithin hvalue) hle ?_, rfl⟩
    intro k hk hlt
    obtain ⟨after, hafter⟩ := hstands.front
    have hzero : (image.drop start)[k - start]? = some 0 := by
      rw [← hafter, List.getElem?_append_left (by omega), Piece.emit, List.getElem?_replicate,
        if_pos (by omega)]
    rwa [List.getElem?_drop, Nat.add_sub_cancel' hk] at hzero

/-- **One statement, both passes.**  Where both have got equally far, the bytes that the
second pass adds are those of the statement, and both get equally far behind it. -/
theorem place_emit {s : Statement} (hplace : s.place defs addr = .ok (item, next))
    (hwithin : defs.Within all) (hresolve : item.resolve all = .ok piece)
    (hstands : StandsAt image addr start (piece.emit start)) :
    s.Occupies all image start (start + (piece.emit start).length) ∧
      next.toNat = start + (piece.emit start).length := by
  cases s with
  | instr op args => exact instr_place_emit hplace hresolve hstands
  | directive d v =>
      cases d with
      | word => exact word_place_emit hplace hresolve hstands
      | byte => exact byte_place_emit hplace hresolve hstands
      | org => exact org_place_emit hplace hwithin hresolve hstands

end OneStatement

end Statement

/-! ### All statements -/

/-- **All statements, both passes.**  The second pass puts every statement where the first
one said, and the last address is the length of the image. -/
theorem laidOut_of_passes {defs all : Definitions} {addr : Word} {lines : List (Line × Nat)}
    {layout : Layout} {pieces : List Piece} {before image : List UInt8}
    (hfirst : Layout.ofLines defs addr lines = .ok layout)
    (hall : layout.defs = all) (hdistinct : all.Distinct)
    (hsecond : layout.items.mapM (fun placed => onLine placed.line (placed.item.resolve all))
      = .ok pieces)
    (himage : image = before ++ Piece.emitAll before.length pieces)
    (hlength : image.length < UInt32.size) (haddr : addr.toNat = before.length) :
    LaidOut all image before.length lines layout.items ∧ layout.stop.toNat = image.length ∧
      ∀ k (hk : k < layout.items.length), layout.items[k].addr.toNat
        = before.length + (Piece.emitAll before.length (pieces.take k)).length := by
  induction lines generalizing defs addr layout pieces before with
  | nil =>
      obtain rfl := Except.ok.inj hfirst
      obtain rfl := mapM_nil_eq_ok.mp hsecond
      simp only [Piece.emitAll, List.append_nil] at himage
      subst himage
      exact ⟨.done, haddr, fun k hk => absurd hk (Nat.not_lt_zero k)⟩
  | cons entry rest ih =>
      obtain ⟨line, n⟩ := entry
      obtain ⟨defs', hdefine, hrest⟩ := Layout.ofLines_cons_eq_ok hfirst
      obtain ⟨rfl, -⟩ := Definitions.define_eq_ok hdefine
      -- What this line defines is still there at the end.
      have hlabels : ∀ more, all = (defs ++ line.labels.map (·, addr)) ++ more →
          ∀ name ∈ line.labels, ∃ a, all.address? name = some a ∧ a.toNat = before.length := by
        intro more hmore name hname
        refine ⟨addr, Definitions.address?_of_mem hdistinct ?_, haddr⟩
        rw [hmore]
        simp [hname]
      rcases hrest with ⟨hnone, hrest⟩ | ⟨statement, item, next, after, hsome, hplace, hrest, rfl⟩
      · obtain ⟨⟨more, hmore⟩, -, -⟩ := Layout.defs_of_ofLines hrest
        obtain ⟨hlaid, hstop, hoffsets⟩ := ih hrest hall hsecond himage haddr
        exact ⟨.bare (hlabels more (hall ▸ hmore)) hnone hlaid, hstop, hoffsets⟩
      · obtain ⟨⟨more, hmore⟩, -, -⟩ := Layout.defs_of_ofLines hrest
        have hmore' : all = (defs ++ line.labels.map (·, addr)) ++ more := hall ▸ hmore
        obtain ⟨piece, pieces', hpiece, hpieces, rfl⟩ := mapM_cons_eq_ok.mp hsecond
        have himage' : image = before ++ piece.emit before.length
            ++ Piece.emitAll (before ++ piece.emit before.length).length pieces' := by
          rw [himage, Piece.emitAll, List.length_append, List.append_assoc]
        have hwithin : (defs ++ line.labels.map (·, addr)).Within all := by
          intro name a h
          rw [hmore']
          exact Definitions.address?_append h
        have hstands : StandsAt image addr before.length (piece.emit before.length) := by
          refine ⟨?_, Nat.lt_of_le_of_lt ?_ hlength, haddr⟩
          · rw [himage', List.append_assoc, List.drop_left]
            exact List.prefix_append _ _
          · rw [himage', List.length_append, List.length_append]
            exact Nat.le_add_right _ _
        obtain ⟨hoccupies, hnext⟩ :=
          Statement.place_emit hplace hwithin (onLine_eq_ok.mp hpiece) hstands
        rw [← List.length_append] at hoccupies hnext
        obtain ⟨hlaid, hstop, hoffsets⟩ := ih hrest hall hpieces himage' hnext
        refine ⟨.statement (hlabels more hmore') hsome ⟨rfl, haddr⟩ hoccupies hlaid, hstop, ?_⟩
        intro k hk
        cases k with
        | zero => simpa [Piece.emitAll] using haddr
        | succ k =>
            have := hoffsets k (by simpa using hk)
            simp only [List.length_append] at this
            simp only [List.getElem_cons_succ, List.take_succ_cons, Piece.emitAll,
              List.length_append]
            omega

/-! ### The label table -/

namespace Layout

/-- The table keeps the first name that comes for an address. -/
theorem get?_labelTable (layout : Layout) (addr : Word) :
    layout.labelTable.get? addr
      = (layout.defs.find? fun entry => entry.2 = addr).map Prod.fst := by
  have hfold : ∀ (defs : Definitions) (table : LabelTable),
      (defs.foldl (fun table entry => if table.contains entry.2 then table
          else table.insert entry.2 entry.1) table).get? addr
        = (table.get? addr).or ((defs.find? fun entry => entry.2 = addr).map Prod.fst) := by
    intro defs
    induction defs with
    | nil => intro table; simp
    | cons entry rest ih =>
        obtain ⟨name, a⟩ := entry
        intro table
        rw [List.foldl_cons, ih]
        by_cases ha : a = addr
        · subst ha
          cases htable : table.get? a with
          | none => simp [WordMap.contains, htable, WordMap.get?_insert]
          | some old => simp [WordMap.contains, htable]
        · rw [List.find?_cons_of_neg (by simpa using ha)]
          cases htable : table.get? a with
          | none => simp [WordMap.contains, htable, WordMap.get?_insert, Ne.symm ha]
          | some old => simp [WordMap.contains, htable]
  exact hfold layout.defs .empty

theorem get?_labelTable_of_distinct {layout : Layout} (hdistinct : layout.defs.Distinct)
    (addr : Word) :
    layout.labelTable.get? addr
      = (layout.defs.map Prod.fst).find? fun name => layout.defs.address? name = some addr := by
  rw [get?_labelTable, List.find?_map]
  congr 1
  refine List.find?_congr ?_
  rintro ⟨name, a⟩ hmem
  simp [Definitions.address?_of_mem hdistinct hmem]

end Layout

/-! ### What an assembled image is -/

/-- An image, the lines it comes from and what the two passes made of them. -/
structure Assembled.FollowsLayout (opening : List UInt8) (a : Assembled)
    (lines : List (Line × Nat)) (layout : Layout) (pieces : List Piece) : Prop where
  /-- The first pass places the lines behind the bytes that open the image. -/
  placed : Layout.ofLines [] (UInt32.ofNat opening.length) lines = .ok layout
  /-- The second pass turns the items into pieces. -/
  resolved : layout.items.mapM (fun placed => onLine placed.line (placed.item.resolve layout.defs))
    = .ok pieces
  /-- The image is what opens it and the pieces behind that. -/
  bytes : a.bytes = opening ++ Piece.emitAll opening.length pieces
  /-- An item's address is how long the image is when the second pass gets to its piece. -/
  offsets : ∀ k (hk : k < layout.items.length), layout.items[k].addr.toNat
    = (opening ++ Piece.emitAll opening.length (pieces.take k)).length
  /-- The statements fill the image behind what opens it. -/
  laidOut : LaidOut layout.defs a.bytes opening.length lines layout.items
  /-- The last address is the length of the image. -/
  stop : layout.stop.toNat = a.bytes.length
  /-- The labels that have an address are those of the source. -/
  defined : ∀ name, (∃ addr, layout.defs.address? name = some addr) ↔
    name ∈ lines.flatMap (·.1.labels)
  /-- The table names an address after the first label in the source that has it. -/
  table : ∀ addr, a.labels.get? addr
    = (lines.flatMap (·.1.labels)).find? fun name => layout.defs.address? name = some addr

theorem assembleBehind_eq_ok {opening : List UInt8} {source : String} {a : Assembled} :
    assembleBehind opening source = .ok a ↔
      ∃ lines layout pieces, parseLines source = .ok lines ∧
        Layout.ofLines [] (UInt32.ofNat opening.length) lines = .ok layout ∧
        layout.items.mapM (fun placed => onLine placed.line (placed.item.resolve layout.defs))
          = .ok pieces ∧
        a = ⟨opening ++ Piece.emitAll opening.length pieces, layout.labelTable⟩ := by
  constructor
  · intro h
    obtain ⟨lines, hlines, h⟩ := bind_eq_ok.mp h
    obtain ⟨layout, hfirst, h⟩ := bind_eq_ok.mp h
    obtain ⟨pieces, hsecond, h⟩ := bind_eq_ok.mp h
    exact ⟨lines, layout, pieces, hlines, hfirst, hsecond, (Except.ok.inj h).symm⟩
  · rintro ⟨lines, layout, pieces, hlines, hfirst, hsecond, rfl⟩
    exact bind_eq_ok.mpr ⟨lines, hlines, bind_eq_ok.mpr ⟨layout, hfirst,
      bind_eq_ok.mpr ⟨pieces, hsecond, rfl⟩⟩⟩

theorem followsLayout_of_assembleBehind {opening : List UInt8} {source : String} {a : Assembled}
    (h : assembleBehind opening source = .ok a) (hlength : a.bytes.length < UInt32.size) :
    ∃ lines layout pieces, parseLines source = .ok lines ∧
      a.FollowsLayout opening lines layout pieces := by
  obtain ⟨lines, layout, pieces, hlines, hfirst, hsecond, rfl⟩ := assembleBehind_eq_ok.mp h
  obtain ⟨-, hnames, hkeep⟩ := Layout.defs_of_ofLines hfirst
  rw [List.map_nil, List.nil_append] at hnames
  have hdistinct : layout.defs.Distinct := hkeep List.nodup_nil
  have hopening : (UInt32.ofNat opening.length).toNat = opening.length := by
    refine UInt32.toNat_ofNat_of_lt (Nat.lt_of_le_of_lt ?_ hlength)
    rw [List.length_append]
    exact Nat.le_add_right _ _
  obtain ⟨hlaid, hstop, hoffsets⟩ :=
    laidOut_of_passes hfirst rfl hdistinct hsecond rfl hlength hopening
  refine ⟨lines, layout, pieces, hlines, hfirst, hsecond, rfl, ?_, hlaid, hstop, ?_, ?_⟩
  · intro k hk
    rw [hoffsets k hk, List.length_append]
  · intro name
    rw [← hnames, ← Option.ne_none_iff_exists', Ne, Definitions.address?_eq_none, not_not]
  · intro addr
    rw [← hnames]
    exact Layout.get?_labelTable_of_distinct hdistinct addr

/-- **An assembled image lies as the first pass placed it.**  This holds of a source from
address 0 on and of a program behind its slot, whatever the source says, as long as the
length of the image is a word. -/
theorem assembled_followsLayout {opening : List UInt8} {source : String} {a : Assembled}
    (h : (opening = [] ∧ assemble source = .ok a) ∨
      (opening = slotBytes ∧ assembleProgram source = .ok a))
    (hlength : a.bytes.length < UInt32.size) :
    ∃ lines layout pieces, parseLines source = .ok lines ∧
      a.FollowsLayout opening lines layout pieces := by
  rcases h with ⟨rfl, h⟩ | ⟨rfl, h⟩
  · exact followsLayout_of_assembleBehind h hlength
  · exact followsLayout_of_assembleBehind h hlength

/-- A program with references in both directions, a gap, two names for one address and a
label behind the last statement. -/
theorem assembled_followsLayout_program :
    let source := "top: here: jmpz end\n.byte 7\n.org 0x10\nmov r1, top\nend: .word here\nlast:"
    let a : Assembled :=
      ⟨[0x1f, 0, 0, 0, 0, 0x21, 22, 0, 0, 0, 7, 0, 0, 0, 0, 0, 0x07, 0x10, 5, 0, 0, 0, 5, 0, 0, 0],
        [(5, "top"), (22, "end"), (26, "last")], by decide⟩
    assembleProgram source = .ok a ∧ a.bytes.length < UInt32.size ∧
      ∃ lines layout pieces, parseLines source = .ok lines ∧
        a.FollowsLayout slotBytes lines layout pieces ∧
        layout.items.map Placed.addr = [5, 10, 11, 16, 22] ∧ layout.stop = 26 ∧
        layout.defs = [("top", 5), ("here", 5), ("end", 22), ("last", 26)] := by
  intro source a
  have h : assembleProgram source = .ok a := by decide +kernel
  have hlength : a.bytes.length < UInt32.size := by decide
  obtain ⟨lines, layout, pieces, hlines, hfollows⟩ :=
    assembled_followsLayout (Or.inr ⟨rfl, h⟩) hlength
  have hlayout : ((parseLines source).bind (Layout.ofLines [] 5)).map
        (fun layout => (layout.items.map Placed.addr, layout.stop, layout.defs))
      = .ok ([5, 10, 11, 16, 22], 26, [("top", 5), ("here", 5), ("end", 22), ("last", 26)]) := by
    decide +kernel
  have hplaced : (parseLines source).bind (Layout.ofLines [] 5) = .ok layout := by
    rw [hlines]
    exact hfollows.placed
  rw [hplaced] at hlayout
  obtain ⟨haddrs, hrest⟩ := Prod.mk.inj (Except.ok.inj hlayout)
  obtain ⟨hstop, hdefs⟩ := Prod.mk.inj hrest
  exact ⟨h, hlength, lines, layout, pieces, hlines, hfollows, haddrs, hstop, hdefs⟩

end RegisterMachine.Assembly
