/-
The rows of an image tile it.

A sweep cuts an image into rows that lie one after another, each of which is an
instruction's bytes or a single byte.  `Tiles` says so, and everything that later proofs
need of a sweep follows from it by induction: offsets ascend, so no two rows share an
address, and the rows fill the image to its end.

The bytes that a row's content stands for, its standard bytes, differ from its raw bytes
in ignored bits only.  Sweeping an image again after its rows have been replaced by their
standard bytes gives the same rows: an instruction is decoded from its own encoding, and
where none was decoded none appears, because the first byte is still the same and so is
the number of bytes behind it.
-/
import RegisterMachine.Listing.Row
import RegisterMachine.Proofs.Instruction.Decoding

namespace RegisterMachine.Row

/-! ### What a row is -/

/-- The encoding of the row's instruction, or the byte that starts none. -/
def standardBytes (row : Row) : List UInt8 :=
  match row.instr? with
  | some i => i.encode
  | none => row.raw

/-- The row as it comes from its standard bytes. -/
def standard (row : Row) : Row :=
  { row with raw := row.standardBytes }

/-- The bits of the row that the decoder ignores. -/
def ignoredBits (row : Row) : List UInt8 :=
  match row.instr? with
  | some i => i.ignoredBits
  | none => [0]

/-- A row as a sweep makes it. -/
inductive Sound : Row → Prop where
  /-- An instruction's bytes, which are those of its encoding but for the ignored bits. -/
  | instr {offset : Nat} {raw : List UInt8} {i : Instruction} (hlength : raw.length = i.size)
      (hbits : setBits i.ignoredBits raw = setBits i.ignoredBits i.encode) :
      Sound ⟨offset, raw, some i⟩
  | byte {offset : Nat} {b : UInt8} : Sound ⟨offset, [b], none⟩

/-- The rows lie one after another between two offsets. -/
inductive Tiles : Nat → List Row → Nat → Prop where
  | nil {offset : Nat} : Tiles offset [] offset
  /-- A row, and the others behind its bytes. -/
  | cons {row : Row} {rows : List Row} {stop : Nat} (hrow : row.Sound)
      (hrest : Tiles (row.offset + row.raw.length) rows stop) :
      Tiles row.offset (row :: rows) stop

namespace Sound

variable {row : Row}

theorem length_standardBytes (h : row.Sound) : row.standardBytes.length = row.raw.length := by
  cases h with
  | instr hlength _ => rw [hlength]; exact Instr.length_encode _
  | byte => rfl

theorem length_ignoredBits (h : row.Sound) : row.ignoredBits.length = row.raw.length := by
  cases h with
  | instr hlength _ => rw [hlength]; exact Instr.length_ignoredBits _
  | byte => rfl

theorem length_raw_pos (h : row.Sound) : 0 < row.raw.length := by
  cases h with
  | instr hlength _ => rw [hlength]; exact Instr.size_pos _
  | byte => exact Nat.zero_lt_one

theorem length_raw_le (h : row.Sound) : row.raw.length ≤ 6 := by
  cases h with
  | instr hlength _ => rw [hlength]; exact Instr.size_le _
  | byte => exact Nat.le_add_left 1 5

theorem setBits_standardBytes (h : row.Sound) :
    setBits row.ignoredBits row.standardBytes = setBits row.ignoredBits row.raw := by
  cases h with
  | instr _ hbits => exact hbits.symm
  | byte => rfl

end Sound

theorem toNat_addr {row : Row} (h : row.offset < UInt32.size) : row.addr.toNat = row.offset :=
  UInt32.toNat_ofNat_of_lt' h

/-! ### Tilings -/

namespace Tiles

variable {start stop : Nat} {rows : List Row}

theorem sound (h : Tiles start rows stop) : ∀ row ∈ rows, row.Sound := by
  induction h with
  | nil => simp
  | cons hrow _ ih =>
      intro row hmem
      rcases List.mem_cons.mp hmem with rfl | hmem
      · exact hrow
      · exact ih row hmem

theorem append {middle : Nat} {more : List Row} (h : Tiles start rows middle)
    (hmore : Tiles middle more stop) : Tiles start (rows ++ more) stop := by
  induction h with
  | nil => exact hmore
  | cons hrow _ ih => exact .cons hrow (ih hmore)

theorem start_add_length (h : Tiles start rows stop) :
    start + (rows.flatMap raw).length = stop := by
  induction h with
  | nil => rfl
  | cons _ _ ih =>
      rw [List.flatMap_cons, List.length_append, ← Nat.add_assoc]
      exact ih

theorem offset_bounds (h : Tiles start rows stop) :
    ∀ row ∈ rows, start ≤ row.offset ∧ row.offset < stop := by
  induction h with
  | nil => simp
  | @cons row rows stop hrow hrest ih =>
      have hpos := hrow.length_raw_pos
      have hle := hrest.start_add_length
      intro other hmem
      rcases List.mem_cons.mp hmem with rfl | hmem
      · omega
      · have := ih other hmem
        omega

/-- A row starts behind the bytes of the rows before it. -/
theorem offset_eq {row : Row} {before after : List Row}
    (h : Tiles start (before ++ row :: after) stop) :
    row.offset = start + (before.flatMap raw).length := by
  induction before generalizing start with
  | nil =>
      cases h with
      | cons _ _ => rfl
  | cons first before ih =>
      cases h with
      | cons _ hrest =>
          rw [ih hrest, List.flatMap_cons, List.length_append, Nat.add_assoc]

theorem offset_add_length_le {row : Row} (h : Tiles start rows stop) (hmem : row ∈ rows) :
    row.offset + row.raw.length ≤ stop := by
  obtain ⟨before, after, rfl⟩ := List.append_of_mem hmem
  rw [h.offset_eq, ← h.start_add_length, List.flatMap_append, List.flatMap_cons,
    List.length_append, List.length_append]
  omega

theorem length_le (h : Tiles start rows stop) : rows.length ≤ (rows.flatMap raw).length := by
  induction h with
  | nil => exact Nat.le_refl _
  | cons hrow _ ih =>
      have hpos := hrow.length_raw_pos
      rw [List.flatMap_cons, List.length_append, List.length_cons]
      omega

theorem ascending (h : Tiles start rows stop) :
    rows.Pairwise fun row other => row.offset < other.offset := by
  induction h with
  | nil => exact .nil
  | @cons row rows stop hrow hrest ih =>
      have hpos := hrow.length_raw_pos
      refine List.pairwise_cons.mpr ⟨fun other hmem => ?_, ih⟩
      have := (hrest.offset_bounds other hmem).1
      omega

theorem ascending_addr (h : Tiles start rows stop) (hstop : stop < UInt32.size) :
    rows.Pairwise fun row other => row.addr < other.addr := by
  refine h.ascending.imp_of_mem fun {row other} hrow hother hlt => ?_
  have hrow := (h.offset_bounds row hrow).2
  have hother := (h.offset_bounds other hother).2
  rw [UInt32.lt_iff_toNat_lt, toNat_addr (Nat.lt_trans hrow hstop),
    toNat_addr (Nat.lt_trans hother hstop)]
  exact hlt

theorem nodup_addr (h : Tiles start rows stop) (hstop : stop < UInt32.size) :
    (rows.map addr).Nodup := by
  rw [List.Nodup, List.pairwise_map]
  exact (h.ascending_addr hstop).imp fun hlt => UInt32.ne_of_lt hlt

end Tiles

/-! ### Sweeps -/

theorem tiles_sweepFrom (offset : Nat) (bytes : List UInt8) :
    Tiles offset (sweepFrom offset bytes) (offset + bytes.length) := by
  fun_induction sweepFrom offset bytes with
  | case1 offset => exact .nil
  | case2 offset first rest i hdecode ih =>
      obtain ⟨hle, hbits⟩ := Instr.decode_eq_ok hdecode
      have hlength : ((first :: rest).take i.size).length = i.size := List.length_take_of_le hle
      have hstop : offset + i.size + ((first :: rest).drop i.size).length
          = offset + (first :: rest).length := by
        rw [List.length_drop]
        omega
      rw [hstop] at ih
      exact .cons (.instr hlength hbits) (by rwa [hlength])
  | case3 offset first rest _ _ ih =>
      have hstop : offset + 1 + rest.length = offset + (first :: rest).length := by
        rw [List.length_cons]
        omega
      rw [hstop] at ih
      exact .cons .byte ih

theorem exists_cons_sweepFrom (offset : Nat) {bytes : List UInt8} (h : bytes ≠ []) :
    ∃ row rows, sweepFrom offset bytes = row :: rows ∧ row.offset = offset := by
  cases bytes with
  | nil => contradiction
  | cons first rest =>
      rw [sweepFrom]
      split <;> exact ⟨_, _, rfl, rfl⟩

/-- The slot is cut off where it ends, and the code starts there if there is any. -/
theorem sections_of_length (image : List UInt8) :
    (image.drop slotSize = [] ∧ image.take slotSize = image) ∨
      (image.take slotSize).length = slotSize := by
  by_cases h : image.length ≤ slotSize
  · exact Or.inl ⟨List.drop_eq_nil_of_le h, List.take_of_length_le h⟩
  · exact Or.inr (List.length_take_of_le (by omega))

/-- **The rows of an image tile it.** -/
theorem tiles_sweep (image : List UInt8) : Tiles 0 (sweep image) image.length := by
  have hslot := tiles_sweepFrom 0 (image.take slotSize)
  have hcode := tiles_sweepFrom slotSize (image.drop slotSize)
  unfold sweep
  rcases sections_of_length image with ⟨hdrop, htake⟩ | hfull
  · rw [htake, Nat.zero_add] at hslot
    rw [hdrop, htake, sweepFrom, List.append_nil]
    exact hslot
  · have hlength : slotSize + (image.drop slotSize).length = image.length := by
      rw [← hfull, ← List.length_append, hfull, List.take_append_drop]
    rw [hfull, Nat.zero_add] at hslot
    rw [hlength] at hcode
    exact hslot.append hcode

/-! ### The bytes that a row is read from -/

/-- The row that a byte string starts with: the instruction decoded from it with its bytes, or
the first byte if none is decoded. -/
inductive Fronts : Row → List UInt8 → Prop
  | instr {offset : Nat} {bytes : List UInt8} {i : Instruction}
      (hdecode : Instr.decode bytes = .ok i) : Fronts ⟨offset, bytes.take i.size, some i⟩ bytes
  | byte {offset : Nat} {first : UInt8} {rest : List UInt8} {cause : DecodeError}
      (hdecode : Instr.decode (first :: rest) = .error cause) :
      Fronts ⟨offset, [first], none⟩ (first :: rest)

theorem fronts_of_mem_sweepFrom {offset : Nat} {bytes : List UInt8} {row : Row}
    (h : row ∈ sweepFrom offset bytes) :
    offset ≤ row.offset ∧ row.Fronts (bytes.drop (row.offset - offset)) := by
  fun_induction sweepFrom offset bytes with
  | case1 offset => contradiction
  | case2 offset first rest i hdecode ih =>
      rcases List.mem_cons.mp h with rfl | h
      · rw [Nat.sub_self]
        exact ⟨Nat.le_refl _, .instr hdecode⟩
      · obtain ⟨hle, hfronts⟩ := ih h
        rw [List.drop_drop] at hfronts
        have hoffset : i.size + (row.offset - (offset + i.size)) = row.offset - offset := by omega
        exact ⟨by omega, hoffset ▸ hfronts⟩
  | case3 offset first rest cause hdecode ih =>
      rcases List.mem_cons.mp h with rfl | h
      · rw [Nat.sub_self]
        exact ⟨Nat.le_refl _, .byte hdecode⟩
      · obtain ⟨hle, hfronts⟩ := ih h
        have hoffset : row.offset - offset = row.offset - (offset + 1) + 1 := by omega
        rw [hoffset, List.drop_succ_cons]
        exact ⟨by omega, hfronts⟩

/-- The bytes of an image from an offset to the end of the section that the offset is in. -/
def sectionFrom (image : List UInt8) (offset : Nat) : List UInt8 :=
  if offset < slotSize then (image.take slotSize).drop offset else image.drop offset

/-- **A row is what its section has from there on starts with.** -/
theorem fronts_sectionFrom {image : List UInt8} {row : Row} (h : row ∈ sweep image) :
    row.Fronts (sectionFrom image row.offset) := by
  rcases List.mem_append.mp h with hslot | hcode
  · have hlt := ((tiles_sweepFrom 0 (image.take slotSize)).offset_bounds row hslot).2
    obtain ⟨-, hfronts⟩ := fronts_of_mem_sweepFrom hslot
    rw [List.length_take] at hlt
    rwa [sectionFrom, if_pos (by omega)]
  · obtain ⟨hle, hfronts⟩ := fronts_of_mem_sweepFrom hcode
    rw [List.drop_drop, Nat.add_sub_cancel' hle] at hfronts
    rwa [sectionFrom, if_neg (Nat.not_lt.mpr hle)]

theorem fronts_of_mem_sweep {image : List UInt8} {row : Row} (h : row ∈ sweep image)
    (hcode : slotSize ≤ row.offset) : row.Fronts (image.drop row.offset) := by
  have hfronts := fronts_sectionFrom h
  rwa [sectionFrom, if_neg (Nat.not_lt.mpr hcode)] at hfronts

theorem Fronts.instr?_eq {row : Row} {bytes : List UInt8} (h : row.Fronts bytes) :
    row.instr? = (Instr.decode bytes).toOption := by
  cases h with
  | instr hdecode | byte hdecode => rw [hdecode]; rfl

theorem Fronts.decoded {row : Row} {bytes : List UInt8} {i : Instruction} (h : row.Fronts bytes)
    (hi : row.instr? = some i) : Instr.decode bytes = .ok i ∧ row.raw = bytes.take i.size := by
  cases h with
  | instr hdecode =>
      obtain rfl := Option.some.inj hi
      exact ⟨hdecode, rfl⟩
  | byte _ => contradiction

theorem Fronts.undecoded {row : Row} {bytes : List UInt8} (h : row.Fronts bytes)
    (hnone : row.instr? = none) :
    ∃ cause, Instr.decode bytes = .error cause ∧ row.raw = bytes.take 1 := by
  cases h with
  | instr _ => contradiction
  | byte hdecode => exact ⟨_, hdecode, rfl⟩

theorem Fronts.raw_front {row : Row} {bytes : List UInt8} (h : row.Fronts bytes) :
    row.raw <+: bytes ∧ row.raw ≠ [] := by
  cases h with
  | instr hdecode =>
      have hle := (Instr.decode_eq_ok hdecode).1
      refine ⟨List.take_prefix _ _, fun hnil => ?_⟩
      have hpos := congrArg List.length hnil
      rw [List.length_take, List.length_nil] at hpos
      have := Instr.size_pos ‹_›
      omega
  | byte _ => exact ⟨⟨_, rfl⟩, List.cons_ne_nil _ _⟩

/-! ### Sweeping the standard bytes -/

theorem length_flatMap_eq {rows : List Row} {f : Row → List UInt8}
    (h : ∀ row ∈ rows, (f row).length = row.raw.length) :
    (rows.flatMap f).length = (rows.flatMap raw).length := by
  induction rows with
  | nil => rfl
  | cons row rows ih =>
      rw [List.flatMap_cons, List.flatMap_cons, List.length_append, List.length_append,
        h row (by simp), ih fun r hr => h r (by simp [hr])]

theorem length_flatMap_standardBytes {rows : List Row} (h : ∀ row ∈ rows, row.Sound) :
    (rows.flatMap standardBytes).length = (rows.flatMap raw).length :=
  length_flatMap_eq fun row hrow => (h row hrow).length_standardBytes

theorem length_flatMap_ignoredBits {rows : List Row} (h : ∀ row ∈ rows, row.Sound) :
    (rows.flatMap ignoredBits).length = (rows.flatMap raw).length :=
  length_flatMap_eq fun row hrow => (h row hrow).length_ignoredBits

/-- **The standard bytes of rows are their raw bytes but for the ignored bits.** -/
theorem setBits_flatMap_standardBytes {rows : List Row} (h : ∀ row ∈ rows, row.Sound) :
    setBits (rows.flatMap ignoredBits) (rows.flatMap standardBytes)
      = setBits (rows.flatMap ignoredBits) (rows.flatMap raw) := by
  induction rows with
  | nil => rfl
  | cons row rows ih =>
      have hrow := h row (by simp)
      simp only [List.flatMap_cons]
      rw [setBits_append (hrow.length_standardBytes.trans hrow.length_ignoredBits.symm),
        setBits_append hrow.length_ignoredBits.symm, hrow.setBits_standardBytes,
        ih fun r hr => h r (by simp [hr])]

theorem sweepFrom_encode_append (offset : Nat) (i : Instruction) (rest : List UInt8) :
    sweepFrom offset (i.encode ++ rest)
      = ⟨offset, i.encode, some i⟩ :: sweepFrom (offset + i.size) rest := by
  have hdecode := Instr.decode_encode_append i rest
  have htake : (i.encode ++ rest).take i.size = i.encode := by
    rw [← Instr.length_encode, List.take_left]
  have hdrop : (i.encode ++ rest).drop i.size = rest := by
    rw [← Instr.length_encode, List.drop_left]
  rw [Instr.encode_eq_cons, List.cons_append] at hdecode htake hdrop ⊢
  rw [sweepFrom, hdecode]
  simp only [htake, hdrop]

/-- A byte that starts no instruction makes one row, whatever stands behind it, as long as
it is as much. -/
theorem sweepFrom_cons_of_error {offset : Nat} {first : UInt8} {rest rest' : List UInt8}
    {e : DecodeError} (h : Instr.decode (first :: rest) = .error e)
    (hlength : rest'.length = rest.length) :
    sweepFrom offset (first :: rest')
      = ⟨offset, [first], none⟩ :: sweepFrom (offset + 1) rest' := by
  rw [sweepFrom]
  cases hdecode : Instr.decode (first :: rest') with
  | error e => rfl
  | ok i =>
      obtain ⟨j, hj⟩ := Instr.exists_decode_of_length_le hdecode (Nat.le_of_eq hlength)
      rw [h] at hj
      contradiction

theorem sweepFrom_standardBytes (offset : Nat) (bytes : List UInt8) :
    sweepFrom offset ((sweepFrom offset bytes).flatMap standardBytes)
      = (sweepFrom offset bytes).map standard := by
  fun_induction sweepFrom offset bytes with
  | case1 offset => simp [sweepFrom]
  | case2 offset first rest i hdecode ih =>
      rw [List.flatMap_cons, List.map_cons, ← ih]
      exact sweepFrom_encode_append offset i _
  | case3 offset first rest _ hdecode ih =>
      have hlength :
          ((sweepFrom (offset + 1) rest).flatMap standardBytes).length = rest.length := by
        rw [length_flatMap_standardBytes (tiles_sweepFrom _ _).sound, raw_sweepFrom]
      rw [List.flatMap_cons, List.map_cons, ← ih]
      exact sweepFrom_cons_of_error hdecode hlength

/-- **Sweeping the standard bytes of an image gives its rows again.** -/
theorem sweep_standardBytes (image : List UInt8) :
    sweep ((sweep image).flatMap standardBytes) = (sweep image).map standard := by
  have hslot := sweepFrom_standardBytes 0 (image.take slotSize)
  have hcode := sweepFrom_standardBytes slotSize (image.drop slotSize)
  have hlength : ((sweepFrom 0 (image.take slotSize)).flatMap standardBytes).length
      = (image.take slotSize).length := by
    rw [length_flatMap_standardBytes (tiles_sweepFrom _ _).sound, raw_sweepFrom]
  unfold sweep
  rw [List.flatMap_append, List.map_append, ← hslot, ← hcode]
  rcases sections_of_length image with ⟨hdrop, htake⟩ | hfull
  · have hle : ((sweepFrom 0 (image.take slotSize)).flatMap standardBytes).length ≤ slotSize := by
      rw [hlength, htake]
      exact List.drop_eq_nil_iff.mp hdrop
    rw [hdrop, sweepFrom, List.flatMap_nil, List.append_nil, List.take_of_length_le hle,
      List.drop_eq_nil_of_le hle]
  · rw [hfull] at hlength
    rw [List.take_left' hlength, List.drop_left' hlength]

end RegisterMachine.Row
