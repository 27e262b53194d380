/-
A memory is a row of bytes.

Only the bytes that are not zero are stored, and every access is computed from `byte`.  What a
memory stands for is the list of all its bytes, and in these terms an access is short: it gives
a segment of the list, and a word that is written takes the place of four of its bytes.

Both ends of an access count, and neither wraps.  The end of a slice may be so far away that 64
bits do not hold it; `sliceIn64Bits` computes it there and notices, and is no different from
adding natural numbers, as no memory reaches that far.  The window for an instruction ends after
six bytes or with the memory; no instruction is longer, so the decoder finds in it what it would
find in all the bytes from there on.
-/
import RegisterMachine.Proofs.Machine.Access
import RegisterMachine.Proofs.Machine.Indexing

namespace RegisterMachine

namespace Memory

variable {m : Memory} {addr : Word}

/-! ### The list of all bytes -/

/-- All bytes of a memory, by ascending address. -/
def bytes (m : Memory) : List UInt8 :=
  m.bytesAt 0 m.length

@[simp] theorem length_bytes (m : Memory) : m.bytes.length = m.length :=
  m.length_bytesAt 0 m.length

theorem getElem?_bytesAt (m : Memory) (start count i : Nat) :
    (m.bytesAt start count)[i]? = if i < count then some (m.byte (start + i)) else none := by
  by_cases hi : i < count
  · simp [bytesAt, hi]
  · simp [bytesAt, hi]

theorem getElem?_bytes (m : Memory) (i : Nat) :
    m.bytes[i]? = if i < m.length then some (m.byte i) else none := by
  rw [bytes, getElem?_bytesAt, Nat.zero_add]

theorem bytesAt_eq_extract {start stop : Nat} (h : stop ≤ m.length) :
    m.bytesAt start (stop - start) = m.bytes.extract start stop := by
  apply List.ext_getElem?
  intro i
  rw [getElem?_bytesAt, List.getElem?_take, List.getElem?_drop, getElem?_bytes]
  split
  · rw [if_pos (by omega)]
  · rfl

theorem bytesFrom_eq_drop (m : Memory) (addr : Word) :
    m.bytesFrom addr = m.bytes.drop addr.toNat := by
  rw [bytesFrom, bytesAt_eq_extract (Nat.le_refl _)]
  exact List.take_of_length_le (by simp)

theorem bytes_setBytes {start : Nat} {new : List UInt8} (h : start + new.length ≤ m.length) :
    (m.setBytes start new).bytes
      = m.bytes.take start ++ new ++ m.bytes.drop (start + new.length) := by
  have hfront : (m.bytes.take start).length = start := by
    rw [List.length_take, length_bytes]
    omega
  apply List.ext_getElem?
  intro i
  rw [getElem?_bytes, length_setBytes, byte_setBytes, List.append_assoc, List.getElem?_append,
    List.getElem?_append, hfront]
  -- The place is before the new bytes, among them, or behind them.
  by_cases hbefore : i < start
  · rw [if_pos hbefore, List.getElem?_take, if_pos hbefore, getElem?_bytes,
      if_neg (Nat.not_le.mpr hbefore)]
  · rw [if_neg hbefore, if_pos (Nat.not_lt.mp hbefore), List.getD_eq_getElem?_getD]
    by_cases hinside : i - start < new.length
    · rw [if_pos hinside, if_pos (by omega), List.getElem?_eq_getElem hinside, Option.getD_some]
    · rw [if_neg hinside, List.getElem?_eq_none (Nat.not_lt.mp hinside), Option.getD_none,
        List.getElem?_drop, show start + new.length + (i - start - new.length) = i by omega,
        getElem?_bytes]

/-! ### Segments -/

theorem slice_eq (m : Memory) (addr : Word) (size : Nat) :
    m.slice addr size =
      if addr.toNat + size ≤ m.length then
        .ok (m.bytes.extract addr.toNat (addr.toNat + size))
      else .error (.outOfBounds addr size m.length) := by
  split
  · rename_i hinside
    refine slice_eq_ok.mpr ⟨hinside, ?_⟩
    rw [← bytesAt_eq_extract hinside, Nat.add_sub_cancel_left]
  · rename_i houtside
    exact slice_eq_error.mpr ⟨rfl, Nat.not_le.mp houtside⟩

theorem window_eq (m : Memory) (addr : Word) :
    m.window addr =
      if addr.toNat < m.length then
        .ok (m.bytes.extract addr.toNat (min (addr.toNat + windowSize) m.length))
      else .error (.outOfBounds addr 1 m.length) := by
  split
  · rename_i hinside
    refine window_eq_ok.mpr ⟨hinside, ?_⟩
    rw [← bytesAt_eq_extract (Nat.min_le_right _ _)]
    congr 1
    omega
  · rename_i houtside
    exact window_eq_error.mpr ⟨rfl, Nat.lt_succ_of_le (Nat.not_lt.mp houtside)⟩

/-- The end of an access in 64 bits, or `none` if they do not hold it. -/
def endIn64Bits? (addr : Word) (size : UInt64) : Option UInt64 :=
  let stop := addr.toUInt64 + size
  if stop < size then none else some stop

/-- A slice whose end is computed in 64 bits. -/
def sliceIn64Bits (m : Memory) (addr : Word) (size : UInt64) : Except Fault (List UInt8) :=
  match (endIn64Bits? addr size).bind fun stop => m.span? addr.toNat stop.toNat with
  | some bytes => .ok bytes
  | none => .error (.outOfBounds addr size.toNat m.length)

theorem endIn64Bits?_of_lt {size : UInt64} (h : addr.toNat + size.toNat < UInt64.size) :
    ∃ stop, endIn64Bits? addr size = some stop ∧ stop.toNat = addr.toNat + size.toNat := by
  have hsum : (addr.toUInt64 + size).toNat = addr.toNat + size.toNat := by
    rw [UInt64.toNat_add, UInt32.toNat_toUInt64, Nat.mod_eq_of_lt h]
  refine ⟨addr.toUInt64 + size, if_neg ?_, hsum⟩
  rw [UInt64.lt_iff_toNat_lt, hsum]
  omega

/-- A sum that wraps is smaller than the size that has been added. -/
theorem endIn64Bits?_of_le {size : UInt64} (h : UInt64.size ≤ addr.toNat + size.toNat) :
    endIn64Bits? addr size = none := by
  have haddr := addr.toNat_lt
  have hsize := size.toNat_lt
  refine if_pos ?_
  rw [UInt64.lt_iff_toNat_lt, UInt64.toNat_add, UInt32.toNat_toUInt64]
  rw [UInt64.size] at h
  omega

/-- **A slice is the same if its end is computed in 64 bits.** -/
theorem sliceIn64Bits_eq (hlength : m.length < UInt64.size) (addr : Word) (size : UInt64) :
    m.sliceIn64Bits addr size = m.slice addr size.toNat := by
  rw [slice_eq]
  unfold sliceIn64Bits
  rcases Nat.lt_or_ge (addr.toNat + size.toNat) UInt64.size with hheld | hwrapped
  · obtain ⟨stop, hend, hstop⟩ := endIn64Bits?_of_lt hheld
    rw [hend, Option.bind_some, hstop]
    by_cases hinside : addr.toNat + size.toNat ≤ m.length
    · rw [span?_of_le (Nat.le_add_right _ _) hinside, bytesAt_eq_extract hinside, if_pos hinside]
    · rw [span?, if_neg (fun h => hinside h.2), if_neg hinside]
  · rw [endIn64Bits?_of_le hwrapped, Option.bind_none, if_neg (by omega)]

/-! ### Words -/

/-- The byte at an address once a word has been written: the word's, least significant first,
where the word covers the address, and the old one elsewhere. -/
def overlaid (m : Memory) (addr value : Word) (a : Nat) : UInt8 :=
  if addr.Covers a then value.bytes.getD (a - addr.toNat) (m.byte a) else m.byte a

theorem byte_eq_overlaid {value : Word} {m' : Memory} (h : m.writeWord addr value = .ok m')
    (a : Nat) : m'.byte a = m.overlaid addr value a := by
  unfold overlaid
  split
  · rename_i hcovers
    obtain ⟨-, rfl⟩ := writeWord_eq_ok.mp h
    rw [byte_setBytes, if_pos hcovers.1]
  · rename_i hcovers
    exact byte_writeWord h hcovers

theorem bytes_of_writeWord {value : Word} {m' : Memory} (h : m.writeWord addr value = .ok m') :
    m'.bytes = m.bytes.take addr.toNat ++ value.bytes ++ m.bytes.drop (addr.toNat + 4) := by
  obtain ⟨hinside, rfl⟩ := writeWord_eq_ok.mp h
  exact bytes_setBytes hinside

/-- **What is read after a write is made of the bytes of both words.** -/
theorem readWord_eq_overlaid {value : Word} {m' : Memory} (h : m.writeWord addr value = .ok m')
    (b : Word) :
    m'.readWord b =
      if b.toNat + 4 ≤ m.length then
        .ok (Word.ofBytes (m.overlaid addr value b.toNat) (m.overlaid addr value (b.toNat + 1))
          (m.overlaid addr value (b.toNat + 2)) (m.overlaid addr value (b.toNat + 3)))
      else .error (.outOfBounds b 4 m.length) := by
  split
  · rename_i hinside
    refine readWord_eq_ok.mpr ⟨by rwa [length_of_writeWord h], ?_⟩
    simp only [byte_eq_overlaid h]
  · rename_i houtside
    refine readWord_eq_error.mpr ?_
    rw [Refuses, length_of_writeWord h]
    exact ⟨rfl, Nat.not_le.mp houtside⟩

theorem readWord_of_disjoint {value : Word} {m' : Memory} (h : m.writeWord addr value = .ok m')
    {b : Word} (hdisjoint : addr.toNat + 4 ≤ b.toNat ∨ b.toNat + 4 ≤ addr.toNat) :
    m'.readWord b = m.readWord b := by
  refine readWord_congr (length_of_writeWord h) fun a hb => byte_writeWord h fun ha => ?_
  have hfirst := ha.1
  have hlast := ha.2
  have hfirst' := hb.1
  have hlast' := hb.2
  rw [Word.byteCount] at hlast hlast'
  omega

end Memory

namespace Guest

variable {g : Guest} {addr : Word}

theorem writing_of_le (value : Word) (next : Guest → Guest)
    (h : addr.toNat + 4 ≤ g.memory.length) :
    ∃ memory, g.memory.writeWord addr value = .ok memory ∧
      g.writing addr value next = (.ok (), next { g with memory }) := by
  have hwrite : g.memory.writeWord addr value = .ok (g.memory.setBytes addr.toNat value.bytes) :=
    Memory.writeWord_eq_ok.mpr ⟨h, rfl⟩
  exact ⟨_, hwrite, by rw [writing, hwrite]⟩

theorem writing_of_lt (value : Word) (next : Guest → Guest)
    (h : g.memory.length < addr.toNat + 4) :
    g.memory.writeWord addr value = .error (.outOfBounds addr 4 g.memory.length) ∧
      g.writing addr value next = (.error (.outOfBounds addr 4 g.memory.length), g) := by
  have hwrite : g.memory.writeWord addr value = .error (.outOfBounds addr 4 g.memory.length) :=
    Memory.writeWord_eq_error.mpr ⟨rfl, h⟩
  exact ⟨hwrite, by rw [writing, hwrite]⟩

end Guest

/-- **Accesses to memory are accesses to a row of bytes.**

A slice succeeds exactly if it ends inside the memory, in numbers that do not wrap, and is then
the segment of the row between its ends; computing the end in 64 bits is no different, for any
size that these hold.

Writing a word succeeds exactly if all four of its bytes lie inside.  It then replaces these four
by the bytes of the word, least significant first, and keeps the length; otherwise nothing
changes at all.  Reading after a write that has succeeded gives the same word at the same
address, and the old word where the two have no byte in common.  Where they overlap in part, it
gives the word made of the new bytes there and the old ones elsewhere.

A window succeeds exactly if its first byte lies inside, and ends after six bytes or with the
memory.  Whatever is decoded from it, or why nothing is, is decided as by all bytes from there
on. -/
theorem accesses_are_bytewise (g : Guest) (hlength : g.memory.length < UInt64.size)
    (a b value : Word) (size : UInt64) :
    let m := g.memory
    let stop := a.toNat + size.toNat
    (m.sliceIn64Bits a size = m.slice a size.toNat ∧
      m.slice a size.toNat =
        if stop ≤ m.length then .ok (m.bytes.extract a.toNat stop)
        else .error (.outOfBounds a size.toNat m.length)) ∧
    (a.toNat + 4 ≤ m.length →
      ∃ m', m.writeWord a value = .ok m' ∧
        g.writing a value id = (.ok (), { g with memory := m' }) ∧
        m'.length = m.length ∧
        m'.bytes = m.bytes.take a.toNat ++ value.bytes ++ m.bytes.drop (a.toNat + 4) ∧
        (b = a → m'.readWord b = .ok value) ∧
        (a.toNat + 4 ≤ b.toNat ∨ b.toNat + 4 ≤ a.toNat → m'.readWord b = m.readWord b) ∧
        m'.readWord b =
          if b.toNat + 4 ≤ m.length then
            .ok (Word.ofBytes (m.overlaid a value b.toNat) (m.overlaid a value (b.toNat + 1))
              (m.overlaid a value (b.toNat + 2)) (m.overlaid a value (b.toNat + 3)))
          else .error (.outOfBounds b 4 m.length)) ∧
    (m.length < a.toNat + 4 →
      m.writeWord a value = .error (.outOfBounds a 4 m.length) ∧
        g.writing a value id = (.error (.outOfBounds a 4 m.length), g)) ∧
    m.window a =
      (if a.toNat < m.length then .ok (m.bytes.extract a.toNat (min (a.toNat + 6) m.length))
      else .error (.outOfBounds a 1 m.length)) ∧
    ∀ window, m.window a = .ok window →
      Instr.decode window = Instr.decode (m.bytes.drop a.toNat) := by
  intro m stop
  refine ⟨⟨Memory.sliceIn64Bits_eq hlength a size, m.slice_eq a size.toNat⟩, fun hinside => ?_,
    Guest.writing_of_lt value id, m.window_eq a, fun window hwindow => ?_⟩
  · obtain ⟨m', hwrite, hwriting⟩ := Guest.writing_of_le value id hinside
    refine ⟨m', hwrite, hwriting, Memory.length_of_writeWord hwrite,
      Memory.bytes_of_writeWord hwrite, ?_, Memory.readWord_of_disjoint hwrite,
      Memory.readWord_eq_overlaid hwrite b⟩
    rintro rfl
    exact Memory.readWord_writeWord hwrite
  · rw [← Memory.bytesFrom_eq_drop]
    exact Memory.decode_window hwindow

/-- A guest whose memory holds the numbers from 0 to 15. -/
def countsToFifteen : Guest :=
  ⟨.zero, (Memory.zeroed 16).setBytes 0 [0, 1, 2, 3, 4, 5, 6, 7, 8, 9, 10, 11, 12, 13, 14, 15]⟩

/-- Near the end of memory: a slice whose end wraps in 64 bits, a word that is read one byte
behind the one that is written, and a window that is cut. -/
theorem accesses_are_bytewise_countsToFifteen :
    countsToFifteen.memory.length < UInt64.size ∧
      countsToFifteen.memory.sliceIn64Bits 11 0xffffffffffffffff
        = .error (.outOfBounds 11 0xffffffffffffffff 16) ∧
      (∃ m', countsToFifteen.writing 11 0xaabbccdd id
          = (.ok (), { countsToFifteen with memory := m' }) ∧
        m'.bytes = [0, 1, 2, 3, 4, 5, 6, 7, 8, 9, 10, 0xdd, 0xcc, 0xbb, 0xaa, 15] ∧
        m'.readWord 12 = .ok 0x0faabbcc) ∧
      countsToFifteen.memory.window 11 = .ok [11, 12, 13, 14, 15] := by
  have hlength : countsToFifteen.memory.length < UInt64.size := by decide
  obtain ⟨⟨hsame, hslice⟩, hwritten, -, hwindow, -⟩ :=
    accesses_are_bytewise countsToFifteen hlength 11 12 0xaabbccdd 0xffffffffffffffff
  obtain ⟨m', -, hwriting, -, hbytes, -, -, hread⟩ := hwritten (by decide)
  refine ⟨hlength, hsame.trans (hslice.trans (if_neg (by decide))),
    ⟨m', hwriting, hbytes.trans (by decide +kernel), ?_⟩, ?_⟩
  · exact hread.trans ((if_pos (by decide)).trans (congrArg Except.ok (by decide +kernel)))
  · exact hwindow.trans ((if_pos (by decide)).trans (congrArg Except.ok (by decide +kernel)))

end RegisterMachine
