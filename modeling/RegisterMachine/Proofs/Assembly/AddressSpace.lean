/-
Addresses are lengths of the image, up to the end of the address space.

The first pass counts in words and the second in bytes that it has put down.  Both get over a
statement by the same amount, and `.org` sets the one to its target and fills the other up to
it.  So an address is how long the image is, for as long as that is a word: `Walk.agrees` carries
this from one statement to the next.

When the image gets longer than that, the address starts again from 0, and the two part.  The
first pass then lets an `.org` go to any address from the new one on, and the second puts no
zeros for it and takes nothing away.  `Walk.ascending_iff` says that addresses go back in no
other case.
-/
import RegisterMachine.Proofs.Assembly.Layout

namespace RegisterMachine.Assembly

/-- The statements of lines, in order. -/
def statements (lines : List (Line × Nat)) : List Statement :=
  lines.filterMap (·.1.statement?)

/-- The addresses that the first pass goes through: those of the statements and the one behind
them. -/
def Layout.addresses (layout : Layout) : List Word :=
  layout.items.map Placed.addr ++ [layout.stop]

/-- The lengths that an image goes through in the second pass: those before the pieces and the
one behind them. -/
def Piece.lengths (length : Nat) : List Piece → List Nat
  | [] => [length]
  | piece :: rest => length :: lengths (length + (piece.emit length).length) rest

/-- How the passes get over a statement, the first from one address to the next and the second
from one length to the next. -/
inductive Statement.Moves (all : Definitions) (addr : Word) (length : Nat) :
    Statement → Word → Nat → Prop
  /-- No statement but `.org` has more than six bytes. -/
  | bytes {s : Statement} {n : Nat} (hbytes : ∀ v, s ≠ directive .org v) (hsmall : n ≤ 6) :
      Moves all addr length s (addr + UInt32.ofNat n) (length + n)
  | org {v : Value} {target : Word} (hvalue : v.resolve all = .ok target)
      (hforward : addr ≤ target) :
      Moves all addr length (directive .org v) target (max length target.toNat)

/-- Both passes go over statements, from an address and a length on. -/
inductive Walk (all : Definitions) :
    Word → Nat → List Statement → List Word → List Nat → Prop
  | done (addr : Word) (length : Nat) : Walk all addr length [] [addr] [length]
  | move {addr next : Word} {length length' : Nat} {s : Statement} {rest : List Statement}
      {addrs : List Word} {lengths : List Nat} (hmoves : s.Moves all addr length next length')
      (hrest : Walk all next length' rest addrs lengths) :
      Walk all addr length (s :: rest) (addr :: addrs) (length :: lengths)

/-! ### The passes are a walk -/

theorem Statement.moves_of_place {s : Statement} {defs all : Definitions} {addr next : Word}
    {item : Item} {piece : Piece} (hplace : s.place defs addr = .ok (item, next))
    (hwithin : defs.Within all) (hresolve : item.resolve all = .ok piece) (length : Nat) :
    s.Moves all addr length next (length + (piece.emit length).length) := by
  cases s with
  | instr op args =>
      simp only [place] at hplace
      split at hplace
      · rename_i written _
        obtain ⟨rfl, rfl⟩ := Prod.mk.inj (Except.ok.inj hplace)
        obtain ⟨i, hlabels, rfl⟩ := map_eq_ok.mp hresolve
        rw [Piece.length_emit_bytes, Instr.length_encode, Instr.size_mapExcept hlabels]
        exact .bytes (by simp) (Instr.size_le written)
      · contradiction
  | directive d v =>
      cases d with
      | word =>
          obtain ⟨rfl, rfl⟩ := Prod.mk.inj (Except.ok.inj hplace)
          obtain ⟨w, -, rfl⟩ := map_eq_ok.mp hresolve
          exact .bytes (n := 4) (by simp) (by decide)
      | byte =>
          obtain ⟨rfl, rfl⟩ := Prod.mk.inj (Except.ok.inj hplace)
          obtain ⟨w, -, hpiece⟩ := bind_eq_ok.mp hresolve
          split at hpiece
          · obtain rfl := Except.ok.inj hpiece
            exact .bytes (n := 1) (by simp) (by decide)
          · contradiction
      | org =>
          obtain ⟨target, hvalue, hplace⟩ := bind_eq_ok.mp hplace
          split at hplace
          · contradiction
          · rename_i hforward
            obtain ⟨rfl, rfl⟩ := Prod.mk.inj (Except.ok.inj hplace)
            obtain rfl := Except.ok.inj hresolve
            have hlength : length + ((Piece.zerosTo target).emit length).length
                = max length target.toNat := by
              rw [Piece.length_emit_zerosTo]
              omega
            rw [hlength]
            exact .org (Value.resolve_within hwithin hvalue) (UInt32.not_lt.mp hforward)

theorem walk_of_passes {lines : List (Line × Nat)} {defs all : Definitions} {addr : Word}
    {layout : Layout} {pieces : List Piece} (hfirst : Layout.ofLines defs addr lines = .ok layout)
    (hall : layout.defs = all)
    (hsecond : layout.items.mapM (fun placed => onLine placed.line (placed.item.resolve all))
      = .ok pieces) (length : Nat) :
    Walk all addr length (statements lines) layout.addresses (Piece.lengths length pieces) := by
  induction lines generalizing defs addr layout pieces length with
  | nil =>
      obtain rfl := Except.ok.inj hfirst
      obtain rfl := mapM_nil_eq_ok.mp hsecond
      exact .done addr length
  | cons entry rest ih =>
      obtain ⟨line, n⟩ := entry
      obtain ⟨defs', -, hrest⟩ := Layout.ofLines_cons_eq_ok hfirst
      rcases hrest with ⟨hnone, hrest⟩ | ⟨statement, item, next, after, hsome, hplace, hrest, rfl⟩
      · have hstatements : statements ((line, n) :: rest) = statements rest := by
          simp [statements, hnone]
        rw [hstatements]
        exact ih hrest hall hsecond length
      · have hstatements : statements ((line, n) :: rest) = statement :: statements rest := by
          simp [statements, hsome]
        obtain ⟨piece, pieces', hpiece, hpieces, rfl⟩ := mapM_cons_eq_ok.mp hsecond
        obtain ⟨⟨more, hmore⟩, -, -⟩ := Layout.defs_of_ofLines hrest
        have hwithin : defs'.Within all := by
          intro name a h
          rw [← hall]
          exact (congrArg (·.address? name) hmore).trans (Definitions.address?_append h)
        rw [hstatements]
        exact .move
          (Statement.moves_of_place hplace hwithin (onLine_eq_ok.mp hpiece) length)
          (ih hrest hall hpieces _)

/-! ### How an address and a length go on together -/

/-- The address is the length, as long as the length is a word. -/
def AddressIs (addr : Word) (length : Nat) : Prop :=
  length < UInt32.size → addr.toNat = length

namespace Statement.Moves

variable {all : Definitions} {s : Statement} {addr next : Word} {length length' : Nat}

theorem length_le (h : s.Moves all addr length next length') : length ≤ length' := by
  cases h with
  | bytes => exact Nat.le_add_right _ _
  | org => exact Nat.le_max_left _ _

theorem addressIs (h : s.Moves all addr length next length') (haddr : AddressIs addr length) :
    AddressIs next length' := by
  intro hlength'
  have haddr : addr.toNat = length := haddr (Nat.lt_of_le_of_lt h.length_le hlength')
  cases h with
  | bytes =>
      rw [← haddr] at hlength' ⊢
      exact toNat_add_size hlength'
  | org _ hforward =>
      have hforward : length ≤ next.toNat := haddr ▸ UInt32.le_iff_toNat_le.mp hforward
      rw [Nat.max_eq_right hforward]

/-- A sum that is too large for a word wraps to an address before the statement, since the
statement is short. -/
theorem le_iff (h : s.Moves all addr length next length') (haddr : addr.toNat = length) :
    addr ≤ next ↔ length' < UInt32.size := by
  have hword : addr.toNat < UInt32.size := addr.toNat_lt_size
  cases h with
  | @bytes _ n _ hsmall =>
      rw [← haddr, UInt32.le_iff_toNat_le]
      constructor
      · intro hle
        by_contra hlength'
        have hn : n % 2 ^ 32 = n := Nat.mod_eq_of_lt (by omega)
        have hnext : (addr + UInt32.ofNat n).toNat = addr.toNat + n - UInt32.size := by
          rw [UInt32.toNat_add, UInt32.toNat_ofNat', hn]
          unfold UInt32.size at hlength' hword ⊢
          omega
        unfold UInt32.size at hlength' hnext
        omega
      · intro hlength'
        rw [toNat_add_size hlength']
        exact Nat.le_add_right _ _
  | org _ hforward =>
      exact iff_of_true hforward (Nat.max_lt.mpr ⟨haddr ▸ hword, next.toNat_lt_size⟩)

end Statement.Moves

namespace Walk

variable {all : Definitions} {addr : Word} {length : Nat} {ss : List Statement}
  {addrs : List Word} {lengths : List Nat}

theorem addrs_eq_cons (h : Walk all addr length ss addrs lengths) :
    ∃ rest, addrs = addr :: rest := by
  cases h with
  | done => exact ⟨[], rfl⟩
  | move => exact ⟨_, rfl⟩

theorem head_length (h : Walk all addr length ss addrs lengths) : lengths[0]? = some length := by
  cases h <;> rfl

/-- **Addresses are lengths**, as long as these are words. -/
theorem agrees (h : Walk all addr length ss addrs lengths) (haddr : AddressIs addr length)
    (k : Nat) {a : Word} (ha : addrs[k]? = some a) :
    ∃ l, lengths[k]? = some l ∧ AddressIs a l := by
  induction h generalizing k with
  | done addr length =>
      obtain ⟨rfl, rfl⟩ : k = 0 ∧ addr = a := by
        cases k with
        | zero => exact ⟨rfl, Option.some.inj ha⟩
        | succ k => contradiction
      exact ⟨length, rfl, haddr⟩
  | @move _ _ length _ _ _ _ _ hmoves _ ih =>
      cases k with
      | zero =>
          obtain rfl := Option.some.inj ha
          exact ⟨length, rfl, haddr⟩
      | succ k => exact ih (hmoves.addressIs haddr) k ha

/-- **Addresses never go back** exactly if all lengths are words. -/
theorem ascending_iff (h : Walk all addr length ss addrs lengths) (haddr : addr.toNat = length) :
    addrs.IsChain (· ≤ ·) ↔ ∀ l ∈ lengths, l < UInt32.size := by
  have hword : length < UInt32.size := haddr ▸ addr.toNat_lt_size
  induction h with
  | done addr length => simpa using hword
  | @move addr next length length' s rest addrs lengths hmoves hrest ih =>
      obtain ⟨others, hothers⟩ := hrest.addrs_eq_cons
      rw [hothers, List.isChain_cons_cons, ← hothers, hmoves.le_iff haddr]
      simp only [List.mem_cons, forall_eq_or_imp]
      constructor
      · rintro ⟨hlength', hchain⟩
        have hnext := hmoves.addressIs (fun _ => haddr) hlength'
        exact ⟨hword, (ih hnext hlength').mp hchain⟩
      · rintro ⟨-, hlengths⟩
        have hlength' : length' < UInt32.size :=
          hlengths length' (List.mem_of_getElem? hrest.head_length)
        have hnext := hmoves.addressIs (fun _ => haddr) hlength'
        exact ⟨hlength', (ih hnext hlength').mpr hlengths⟩

theorem moves_at (h : Walk all addr length ss addrs lengths) (k : Nat) {s : Statement}
    (hs : ss[k]? = some s) :
    ∃ a l a' l', addrs[k]? = some a ∧ lengths[k]? = some l ∧ lengths[k + 1]? = some l' ∧
      s.Moves all a l a' l' := by
  induction h generalizing k with
  | done => contradiction
  | move hmoves hrest ih =>
      cases k with
      | zero =>
          obtain rfl := Option.some.inj hs
          exact ⟨_, _, _, _, rfl, rfl, hrest.head_length, hmoves⟩
      | succ k => exact ih k hs

end Walk

/-! ### The image while it grows -/

/-- The image when some of its pieces are there. -/
def Piece.image (opening : List UInt8) (pieces : List Piece) (k : Nat) : List UInt8 :=
  opening ++ emitAll opening.length (pieces.take k)

theorem Piece.lengths_eq {length k l : Nat} {pieces : List Piece}
    (h : (lengths length pieces)[k]? = some l) :
    l = length + (emitAll length (pieces.take k)).length := by
  induction pieces generalizing length k with
  | nil =>
      cases k with
      | zero => exact (Option.some.inj h).symm
      | succ k => contradiction
  | cons piece rest ih =>
      cases k with
      | zero => exact (Option.some.inj h).symm
      | succ k =>
          have h : (lengths (length + (piece.emit length).length) rest)[k]? = some l := h
          rw [ih h, List.take_succ_cons, emitAll, List.length_append, Nat.add_assoc]

theorem Piece.forall_lengths_lt {length n : Nat} {pieces : List Piece} :
    (∀ l ∈ lengths length pieces, l < n) ↔ length + (emitAll length pieces).length < n := by
  induction pieces generalizing length with
  | nil => simp [lengths, emitAll]
  | cons piece rest ih =>
      simp only [lengths, emitAll, List.mem_cons, forall_eq_or_imp, ih, List.length_append]
      omega

/-! ### What is true of an accepted source -/

/-- How the addresses of a first pass go along with the image that the second pass makes. -/
structure AddressesFollow (opening : List UInt8) (lines : List (Line × Nat)) (layout : Layout)
    (pieces : List Piece) : Prop where
  /-- An address is how long the image is at that point, as long as that is a word. -/
  offset : ∀ k addr, layout.addresses[k]? = some addr →
    AddressIs addr (Piece.image opening pieces k).length
  /-- An address is behind the next one only if the whole image is too long. -/
  ascending : layout.addresses.IsChain (· ≤ ·) ↔
    (opening ++ Piece.emitAll opening.length pieces).length < UInt32.size
  /-- An `.org` never goes back from its address, and it makes the image as long as it says
  unless the image is too long before. -/
  org : ∀ k v, (statements lines)[k]? = some (.directive .org v) →
    ∃ addr target, layout.addresses[k]? = some addr ∧ v.resolve layout.defs = .ok target ∧
      addr ≤ target ∧
      ((Piece.image opening pieces (k + 1)).length = target.toNat ↔
        (Piece.image opening pieces k).length < UInt32.size)

theorem addressesFollow_of_passes {opening : List UInt8} {lines : List (Line × Nat)}
    {layout : Layout} {pieces : List Piece} (hopening : opening.length < UInt32.size)
    (hfirst : Layout.ofLines [] (UInt32.ofNat opening.length) lines = .ok layout)
    (hsecond : layout.items.mapM
      (fun placed => onLine placed.line (placed.item.resolve layout.defs)) = .ok pieces) :
    AddressesFollow opening lines layout pieces := by
  have hwalk := walk_of_passes hfirst rfl hsecond opening.length
  have haddr : (UInt32.ofNat opening.length).toNat = opening.length :=
    UInt32.toNat_ofNat_of_lt hopening
  have himage : ∀ {k l}, (Piece.lengths opening.length pieces)[k]? = some l →
      l = (Piece.image opening pieces k).length := fun h => by
    rw [Piece.image, List.length_append, Piece.lengths_eq h]
  refine ⟨?_, ?_, ?_⟩
  · intro k addr hk
    obtain ⟨l, hl, hagrees⟩ := hwalk.agrees (fun _ => haddr) k hk
    exact himage hl ▸ hagrees
  · rw [hwalk.ascending_iff haddr, Piece.forall_lengths_lt, List.length_append]
  · intro k v hk
    obtain ⟨addr, l, target, l', ha, hl, hl', hmoves⟩ := hwalk.moves_at k hk
    obtain ⟨l₀, hl₀, hagrees⟩ := hwalk.agrees (fun _ => haddr) k ha
    obtain rfl := Option.some.inj (hl.symm.trans hl₀)
    cases hmoves with
    | bytes hbytes => exact absurd rfl (hbytes v)
    | org hvalue hforward =>
        refine ⟨addr, target, ha, hvalue, hforward, ?_⟩
        rw [← himage hl, ← himage hl']
        have htarget : target.toNat < UInt32.size := target.toNat_lt_size
        have hforward : addr.toNat ≤ target.toNat := UInt32.le_iff_toNat_le.mp hforward
        constructor
        · intro hmax
          exact Nat.lt_of_le_of_lt (hmax ▸ Nat.le_max_left _ _) htarget
        · intro hl
          exact Nat.max_eq_right (hagrees hl ▸ hforward)

/-- **An address is the length of the image, until the image is too long for one.**  This holds
of a source from address 0 on and of a program behind its slot. -/
theorem addresses_follow_image {opening : List UInt8} {source : String} {a : Assembled}
    (h : (opening = [] ∧ assemble source = .ok a) ∨
      (opening = slotBytes ∧ assembleProgram source = .ok a)) :
    ∃ lines layout pieces, parseLines source = .ok lines ∧
      Layout.ofLines [] (UInt32.ofNat opening.length) lines = .ok layout ∧
      layout.items.mapM (fun placed => onLine placed.line (placed.item.resolve layout.defs))
        = .ok pieces ∧
      a.bytes = opening ++ Piece.emitAll opening.length pieces ∧
      AddressesFollow opening lines layout pieces := by
  have hbehind : opening.length < UInt32.size ∧ assembleBehind opening source = .ok a := by
    rcases h with ⟨rfl, h⟩ | ⟨rfl, h⟩
    · exact ⟨by decide, h⟩
    · exact ⟨by decide, h⟩
  obtain ⟨lines, layout, pieces, hlines, hfirst, hsecond, rfl⟩ :=
    assembleBehind_eq_ok.mp hbehind.2
  exact ⟨lines, layout, pieces, hlines, hfirst, hsecond, rfl,
    addressesFollow_of_passes hbehind.1 hfirst hsecond⟩

/-- A program with a gap that an `.org` fills. -/
theorem addresses_follow_image_program :
    let source := ".byte 7\n.org 0x10\nend: .byte end"
    let a : Assembled :=
      ⟨[0x1f, 0, 0, 0, 0, 7, 0, 0, 0, 0, 0, 0, 0, 0, 0, 0, 16], [(16, "end")], by decide⟩
    assembleProgram source = .ok a ∧
      ∃ lines layout pieces, parseLines source = .ok lines ∧
        AddressesFollow slotBytes lines layout pieces ∧
        layout.addresses = [5, 6, 16, 17] ∧ Piece.lengths 5 pieces = [5, 6, 16, 17] := by
  intro source a
  have h : assembleProgram source = .ok a := by decide +kernel
  obtain ⟨lines, layout, pieces, hlines, hfirst, hsecond, -, hfollow⟩ :=
    addresses_follow_image (Or.inr ⟨rfl, h⟩)
  have hlayout : (parseLines source).bind (Layout.ofLines [] 5) = .ok
      ⟨[("end", 16)], [⟨1, 5, .byte (.number 7)⟩, ⟨2, 6, .skip 16⟩, ⟨3, 16, .byte (.label "end")⟩],
        17⟩ := by decide +kernel
  have hpieces : ([⟨1, 5, .byte (.number 7)⟩, ⟨2, 6, .skip 16⟩, ⟨3, 16, .byte (.label "end")⟩] :
        List Placed).mapM (fun placed => onLine placed.line (placed.item.resolve [("end", 16)]))
      = .ok [.bytes [7], .zerosTo 16, .bytes [16]] := by decide +kernel
  have hplaced : (parseLines source).bind (Layout.ofLines [] 5) = .ok layout := by
    rw [hlines]
    exact hfirst
  obtain rfl := Except.ok.inj (hplaced.symm.trans hlayout)
  obtain rfl := Except.ok.inj (hsecond.symm.trans hpieces)
  exact ⟨h, lines, _, _, hlines, hfollow, by decide, by decide⟩

/-- Behind the last byte that has an address the next one is 0, and an `.org` to 0 is accepted
there, though the image does not get shorter. -/
theorem address_wraps :
    ∃ a lines layout, assemble ".org 0xffffffff\n.byte 0\n.org 0" = .ok a ∧
      parseLines ".org 0xffffffff\n.byte 0\n.org 0" = .ok lines ∧
      Layout.ofLines [] 0 lines = .ok layout ∧
      layout.addresses = [0, 0xffffffff, 0, 0] ∧ a.bytes.length = 0x100000000 := by
  have hlines : parseLines ".org 0xffffffff\n.byte 0\n.org 0" = .ok
      [(⟨[], some (.directive .org (.number 0xffffffff))⟩, 1),
        (⟨[], some (.directive .byte (.number 0))⟩, 2),
        (⟨[], some (.directive .org (.number 0))⟩, 3)] := by decide +kernel
  have hfirst : Layout.ofLines [] 0
      [(⟨[], some (.directive .org (.number 0xffffffff))⟩, 1),
        (⟨[], some (.directive .byte (.number 0))⟩, 2),
        (⟨[], some (.directive .org (.number 0))⟩, 3)]
      = .ok ⟨[], [⟨1, 0, .skip 0xffffffff⟩, ⟨2, 0xffffffff, .byte (.number 0)⟩, ⟨3, 0, .skip 0⟩],
          0⟩ := by decide +kernel
  have hpieces : ([⟨1, 0, .skip 0xffffffff⟩, ⟨2, 0xffffffff, .byte (.number 0)⟩,
        ⟨3, 0, .skip 0⟩] : List Placed).mapM (fun placed => onLine placed.line
          (placed.item.resolve []))
      = .ok [.zerosTo 0xffffffff, .bytes [0], .zerosTo 0] := by decide +kernel
  refine ⟨_, _, _, assembleBehind_eq_ok.mpr ⟨_, _, _, hlines, hfirst, hpieces, rfl⟩, hlines, hfirst,
    rfl, ?_⟩
  simp only [Piece.emitAll, List.length_append, Piece.length_emit_zerosTo, Piece.length_emit_bytes]
  decide +kernel

end RegisterMachine.Assembly
