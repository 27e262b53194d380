/-
What an access to memory gives.

Every access begins with the same check of its first address and its size, and does its
work only behind it.  `guarded_eq_ok` and `guarded_eq_error` say this once: an access
succeeds exactly if it ends inside the memory, without any wrapping, and a refusal names
the access and the length of the memory.  The lemmas on the single accessors are these two
read off.

An instruction is decoded from a window of at most six bytes.  As no instruction is longer,
the window is as good as the whole memory behind its first address (`decode_window`).
-/
import RegisterMachine.Machine.Memory
import RegisterMachine.Proofs.Instruction.Decoding

namespace RegisterMachine

/-- The byte at an address is one of the four bytes of a word. -/
def Word.Covers (addr : Word) (a : Nat) : Prop :=
  addr.toNat ≤ a ∧ a < addr.toNat + Word.byteCount

instance (addr : Word) (a : Nat) : Decidable (addr.Covers a) :=
  inferInstanceAs (Decidable (_ ∧ _))

namespace Memory

variable {m : Memory} {addr : Word} {size : Nat} {fault : Fault}

/-- The fault of an access that ends outside the memory. -/
def Refuses (m : Memory) (addr : Word) (size : Nat) (fault : Fault) : Prop :=
  fault = .outOfBounds addr size m.length ∧ m.length < addr.toNat + size

theorem guarded_eq_ok {α : Type} {x y : α} :
    (m.checkAccess addr size >>= fun _ => pure x) = .ok y ↔
      addr.toNat + size ≤ m.length ∧ x = y := by
  unfold checkAccess
  split
  · rename_i hinside
    simp [bind, Except.bind, pure, Except.pure, hinside]
  · rename_i houtside
    simp [bind, Except.bind, houtside]

theorem guarded_eq_error {α : Type} {x : α} :
    (m.checkAccess addr size >>= fun _ => pure x) = .error fault ↔ m.Refuses addr size fault := by
  unfold checkAccess Refuses
  split
  · rename_i hinside
    simp [bind, Except.bind, pure, Except.pure, Nat.not_lt.mpr hinside]
  · rename_i houtside
    simp [bind, Except.bind, Nat.lt_of_not_le houtside, eq_comm]

/-! ### The accessors -/

theorem slice_eq_ok {bytes : List UInt8} :
    m.slice addr size = .ok bytes ↔
      addr.toNat + size ≤ m.length ∧ m.bytesAt addr.toNat size = bytes :=
  guarded_eq_ok

theorem slice_eq_error : m.slice addr size = .error fault ↔ m.Refuses addr size fault :=
  guarded_eq_error

theorem readWord_eq_ok {value : Word} :
    m.readWord addr = .ok value ↔
      addr.toNat + 4 ≤ m.length ∧
        Word.ofBytes (m.byte addr.toNat) (m.byte (addr.toNat + 1)) (m.byte (addr.toNat + 2))
          (m.byte (addr.toNat + 3)) = value :=
  guarded_eq_ok

theorem readWord_eq_error : m.readWord addr = .error fault ↔ m.Refuses addr 4 fault :=
  guarded_eq_error

theorem writeWord_eq_ok {value : Word} {m' : Memory} :
    m.writeWord addr value = .ok m' ↔
      addr.toNat + 4 ≤ m.length ∧ m.setBytes addr.toNat value.bytes = m' :=
  guarded_eq_ok

theorem writeWord_eq_error {value : Word} :
    m.writeWord addr value = .error fault ↔ m.Refuses addr 4 fault :=
  guarded_eq_error

theorem window_eq_ok {bytes : List UInt8} :
    m.window addr = .ok bytes ↔
      addr.toNat + 1 ≤ m.length ∧
        m.bytesAt addr.toNat (min windowSize (m.length - addr.toNat)) = bytes :=
  guarded_eq_ok

theorem window_eq_error : m.window addr = .error fault ↔ m.Refuses addr 1 fault :=
  guarded_eq_error

/-! ### Words after a write -/

theorem byte_writeWord {value : Word} {m' : Memory} (h : m.writeWord addr value = .ok m') {a : Nat}
    (ha : ¬addr.Covers a) : m'.byte a = m.byte a := by
  obtain ⟨-, rfl⟩ := writeWord_eq_ok.mp h
  rw [byte_setBytes]
  split
  · rename_i hle
    have hlength : value.bytes.length ≤ a - addr.toNat := by
      rw [Word.length_bytes]
      have hbehind : ¬a < addr.toNat + 4 := fun hlt => ha ⟨hle, hlt⟩
      omega
    rw [List.getD_eq_getElem?_getD, List.getElem?_eq_none hlength, Option.getD_none]
  · rfl

theorem readWord_congr {m' : Memory} (hlength : m'.length = m.length)
    (hbytes : ∀ a, addr.Covers a → m'.byte a = m.byte a) : m'.readWord addr = m.readWord addr := by
  have hbyte : ∀ k, k < 4 → m'.byte (addr.toNat + k) = m.byte (addr.toNat + k) := fun k hk =>
    hbytes _ ⟨Nat.le_add_right _ _, Nat.add_lt_add_left hk _⟩
  have h₀ := hbyte 0 (by decide)
  have h₁ := hbyte 1 (by decide)
  have h₂ := hbyte 2 (by decide)
  have h₃ := hbyte 3 (by decide)
  rw [Nat.add_zero] at h₀
  simp only [readWord, checkAccess, hlength, h₀, h₁, h₂, h₃]

theorem readWord_writeWord {value : Word} {m' : Memory} (h : m.writeWord addr value = .ok m') :
    m'.readWord addr = .ok value := by
  obtain ⟨hinside, rfl⟩ := writeWord_eq_ok.mp h
  refine readWord_eq_ok.mpr ⟨by rwa [length_setBytes], ?_⟩
  have hread := Word.ofBytes?_bytes value []
  simp only [byte_setBytes, Nat.le_refl, Nat.le_add_right, if_true, Nat.sub_self,
    Nat.add_sub_cancel_left]
  exact Option.some.inj hread

/-! ### The length of a memory -/

theorem length_of_writeWord {value : Word} {m' : Memory} (h : m.writeWord addr value = .ok m') :
    m'.length = m.length := by
  obtain ⟨-, rfl⟩ := writeWord_eq_ok.mp h
  exact length_setBytes m _ _

theorem loadImage_of_le {image : List UInt8} (h : image.length ≤ m.length) :
    m.loadImage image = .ok (m.setBytes 0 image) :=
  if_pos h

theorem loadImage_of_lt {image : List UInt8} (h : m.length < image.length) :
    m.loadImage image = .error (.imageTooLarge image.length m.length) :=
  if_neg (Nat.not_le.mpr h)

theorem length_of_loadImage {image : List UInt8} {m' : Memory}
    (h : m.loadImage image = .ok m') : m'.length = m.length := by
  unfold loadImage at h
  split at h
  · obtain rfl := Except.ok.inj h
    exact length_setBytes m _ _
  · contradiction

theorem byte_of_loadImage_zeroed {length : Nat} {image : List UInt8} {m' : Memory}
    (h : (zeroed length).loadImage image = .ok m') (a : Nat) : m'.byte a = image.getD a 0 := by
  unfold loadImage at h
  split at h
  · obtain rfl := Except.ok.inj h
    simp [byte_setBytes]
  · contradiction

/-! ### Windows -/

@[simp] theorem length_bytesAt (m : Memory) (start count : Nat) :
    (m.bytesAt start count).length = count := by
  simp [bytesAt]

theorem take_bytesAt (m : Memory) (start count k : Nat) :
    (m.bytesAt start count).take k = m.bytesAt start (min k count) := by
  apply List.ext_getElem
  · simp
  · intro i _ _
    simp [bytesAt]

/-- All bytes from an address to the end of the memory. -/
def bytesFrom (m : Memory) (addr : Word) : List UInt8 :=
  m.bytesAt addr.toNat (m.length - addr.toNat)

theorem window_eq_take {bytes : List UInt8} (h : m.window addr = .ok bytes) :
    bytes = (m.bytesFrom addr).take windowSize := by
  obtain ⟨-, rfl⟩ := window_eq_ok.mp h
  rw [bytesFrom, take_bytesAt]

/-- The window is decoded like all of the memory from its address on. -/
theorem decode_window {bytes : List UInt8} (h : m.window addr = .ok bytes) :
    Instr.decode bytes = Instr.decode (m.bytesFrom addr) := by
  rw [window_eq_take h]
  exact Instr.decode_take (Nat.le_refl 6) _

theorem take_window {bytes : List UInt8} {i : Instruction} (h : m.window addr = .ok bytes)
    (hdecode : Instr.decode bytes = .ok i) : bytes.take i.size = m.bytesAt addr.toNat i.size := by
  have hle := (Instr.decode_eq_ok hdecode).1
  obtain ⟨-, rfl⟩ := window_eq_ok.mp h
  rw [length_bytesAt] at hle
  rw [take_bytesAt, Nat.min_eq_left hle]

/-! ### Bytes that stand in memory -/

theorem bytesAt_add (m : Memory) (start n k : Nat) :
    m.bytesAt start (n + k) = m.bytesAt start n ++ m.bytesAt (start + n) k := by
  rw [bytesAt, bytesAt, bytesAt, ← List.map_append, List.range'_append_1]

/-- Where bytes are, a window opens that shows them and what stands behind them. -/
theorem decode_window_of_slice {bytes : List UInt8} (h : m.slice addr bytes.length = .ok bytes)
    (hne : bytes ≠ []) :
    ∃ window more, m.window addr = .ok window ∧
      Instr.decode window = Instr.decode (bytes ++ more) := by
  obtain ⟨hinside, hbytes⟩ := slice_eq_ok.mp h
  have hpos := List.length_pos_iff.mpr hne
  obtain ⟨window, hwindow⟩ : ∃ window, m.window addr = .ok window :=
    ⟨_, window_eq_ok.mpr ⟨by omega, rfl⟩⟩
  refine ⟨window, m.bytesAt (addr.toNat + bytes.length) (m.length - addr.toNat - bytes.length),
    hwindow, ?_⟩
  have hfrom : m.bytesFrom addr = bytes ++ m.bytesAt (addr.toNat + bytes.length)
      (m.length - addr.toNat - bytes.length) := by
    rw [bytesFrom, ← Nat.add_sub_of_le (show bytes.length ≤ m.length - addr.toNat by omega),
      bytesAt_add, hbytes, Nat.add_sub_cancel_left]
  rw [decode_window hwindow, hfrom]

theorem bytesAt_of_image {image bytes : List UInt8} {start : Nat}
    (himage : ∀ a, m.byte a = image.getD a 0) (h : bytes <+: image.drop start) :
    m.bytesAt start bytes.length = bytes := by
  obtain ⟨rest, hrest⟩ := h
  apply List.ext_getElem
  · rw [length_bytesAt]
  · intro k _ hk
    have hget : image[start + k]? = some bytes[k] := by
      rw [← List.getElem?_drop, ← hrest, List.getElem?_append_left hk, List.getElem?_eq_getElem hk]
    simp [bytesAt, himage, List.getD_eq_getElem?_getD, hget]

end Memory

end RegisterMachine
