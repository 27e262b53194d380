/-
The machine executes what the listing shows.

A listing is made from the image alone: its code is decoded in slices that end where the image
does.  The machine decodes a window of its memory, in which the program's bytes are followed
by whatever stands there.  The two agree because what the decoder says of an instruction it
says of the instruction's own bytes (`decode_take_append`), and what it says against a first
byte it says of that byte alone (`decode_cons_of_error`).  Only an instruction that the end of
the image cuts off may be another one in memory.

So nothing is asked of a machine but that it still has the row's bytes in their place; the
rest of its memory, its registers and its history are arbitrary.
-/
import RegisterMachine.Listing.Basic
import RegisterMachine.Proofs.Listing.Rows
import RegisterMachine.Proofs.Machine.Frame
import RegisterMachine.Trace.Printer

namespace RegisterMachine

/-! ### Rows and what is executed -/

/-- What a machine makes of a row of a listing while its memory has the row's bytes. -/
structure Row.RunsAsListed {ω : Type} (image : List UInt8) (row : Row) (env : Environment ω)
    (m : Machine ω) : Prop where
  /-- The machine fetches the instruction that the row shows. -/
  fetched (i : Instruction) (hrow : row.instr? = some i) :
    ∃ window, m.guest.memory.window row.addr = .ok window ∧ Instr.decode window = .ok i
  /-- A step there announces just this instruction with the row's bytes, and executes it. -/
  executed (i : Instruction) (hrow : row.instr? = some i) (hpc : m.guest.get .pc = row.addr) :
    m.step env = Machine.retire env
      (env.observe (.instruction row.addr row.raw i m.guest.registers) m.world)
      (m.guest.execute i)
  /-- The announcement is printed as the line of the listing, in the same colours. -/
  traced (i : Instruction) (hrow : row.instr? = some i) (printer : Trace.Printer) :
    printer.lines (.instruction row.addr row.raw i m.guest.registers)
      = [(ListingLine.row row none).render printer.palette]
  /-- Where the row shows a byte that starts no instruction, a step fails for the reason for
  which none was decoded, unless the image only ended too early. -/
  refused (cause : DecodeError) (hcause : Instr.decode (image.drop row.offset) = .error cause)
    (hends : ∀ needed available, cause ≠ .truncated needed available)
    (hpc : m.guest.get .pc = row.addr) :
    m.step env = (.error (.decode row.addr cause), m)

namespace Row

theorem Fronts.decode_append {row : Row} {bytes : List UInt8} {i : Instruction}
    (h : row.Fronts bytes) (hrow : row.instr? = some i) (more : List UInt8) :
    Instr.decode (row.raw ++ more) = .ok i ∧ row.raw.length = i.size := by
  cases h with
  | instr hdecode =>
      obtain rfl := Option.some.inj hrow
      exact ⟨Instr.decode_take_append hdecode more,
        List.length_take_of_le (Instr.decode_eq_ok hdecode).1⟩
  | byte _ => contradiction

theorem Fronts.decode_append_of_error {row : Row} {bytes : List UInt8} {cause : DecodeError}
    (h : row.Fronts bytes) (hcause : Instr.decode bytes = .error cause)
    (hends : ∀ needed available, cause ≠ .truncated needed available) (more : List UInt8) :
    Instr.decode (row.raw ++ more) = .error cause := by
  cases h with
  | instr hdecode =>
      rw [hdecode] at hcause
      contradiction
  | byte _ => exact Instr.decode_cons_of_error hcause hends _

/-- A machine that has the row's bytes makes of the row what the listing shows. -/
theorem Fronts.runsAsListed {ω : Type} {image : List UInt8} {row : Row} {m : Machine ω}
    (h : row.Fronts (image.drop row.offset)) (env : Environment ω)
    (hentry : row.addr ≠ syscallEntry)
    (hbytes : m.guest.memory.slice row.addr row.raw.length = .ok row.raw) :
    row.RunsAsListed image env m := by
  obtain ⟨window, more, hwindow, hdecode⟩ :=
    Memory.decode_window_of_slice hbytes h.raw_front.2
  have hstands : m.guest.memory.bytesAt row.addr.toNat row.raw.length = row.raw :=
    (Memory.slice_eq_ok.mp hbytes).2
  refine ⟨?_, ?_, ?_, ?_⟩
  · intro i hrow
    exact ⟨window, hwindow, hdecode.trans (h.decode_append hrow more).1⟩
  · intro i hrow hpc
    obtain ⟨hraw, hlength⟩ := h.decode_append hrow more
    rw [← hpc] at hentry hwindow
    rw [Machine.step_of_decode hentry hwindow (hdecode.trans hraw), hpc, ← hlength, hstands]
  · intro i hrow printer
    show [Columns.row _ _ _ _] = [Columns.row _ _ _ (ListingLine.content _ row none)]
    rw [ListingLine.content, hrow]
  · intro cause hcause hends hpc
    rw [← hpc] at hentry hwindow
    rw [Machine.step_of_decode_error hentry hwindow
      (hdecode.trans (h.decode_append_of_error hcause hends more)), hpc]

end Row

theorem Listing.row_mem_withLabels_empty {image : List UInt8} {row : Row}
    (h : row ∈ Row.sweep image) : .row row none ∈ withLabels .empty image := by
  have htarget : row.branchTarget?.bind (WordMap.empty : LabelTable).get? = none := by
    cases row.branchTarget? <;> rfl
  refine List.mem_flatMap.mpr ⟨row, h, ?_⟩
  rw [rowLines, htarget]
  exact List.mem_append_right _ List.mem_cons_self

namespace Engine

/-- **The machine executes what the listing shows.**

An image that fits is loaded, and every row of its code then stands in memory at the row's
address.  As long as a machine has the row's bytes there, it makes of the row what the listing
shows.  The row's line is in the listing without labels, and the row shows an instruction
exactly if one is decoded from the image at that place. -/
theorem runs_as_listed {ω : Type} (env : Environment ω) (e : Engine ω) {image : List UInt8}
    (hfits : image.length ≤ e.config.ramBytes) :
    ∃ loaded, (e.init env).load env image = (.ok (), loaded) ∧
      ∀ row ∈ Row.sweep image, 5 ≤ row.offset →
        row.addr.toNat = row.offset ∧
        row.instr? = (Instr.decode (image.drop row.offset)).toOption ∧
        .row row none ∈ Listing.withLabels .empty image ∧
        loaded.machine.guest.memory.slice row.addr row.raw.length = .ok row.raw ∧
        ∀ m : Machine ω, m.guest.memory.slice row.addr row.raw.length = .ok row.raw →
          row.RunsAsListed image env m := by
  obtain ⟨loaded, hload, hconfig, hlength⟩ := load_init_of_le env e hfits
  refine ⟨loaded, hload, fun row hrow hcode => ?_⟩
  have hfronts := Row.fronts_of_mem_sweep hrow hcode
  obtain ⟨hfront, hne⟩ := hfronts.raw_front
  have hend : row.offset + row.raw.length ≤ image.length := by
    have hle := hfront.length_le
    have hpos := List.length_pos_iff.mpr hne
    rw [List.length_drop] at hle
    omega
  have haddr : row.addr.toNat = row.offset := by
    have := e.config.ramBytes_le
    exact Row.toNat_addr (by unfold UInt32.size; omega)
  have hentry : row.addr ≠ syscallEntry := by
    intro heq
    rw [heq] at haddr
    exact absurd (haddr ▸ hcode) (by decide)
  refine ⟨haddr, hfronts.instr?_eq, Listing.row_mem_withLabels_empty hrow, ?_,
    fun m hbytes => hfronts.runsAsListed env hentry hbytes⟩
  · refine Memory.slice_eq_ok.mpr ⟨?_, ?_⟩
    · rw [haddr, hlength]
      omega
    · rw [haddr]
      exact Memory.bytesAt_of_image (byte_of_load_init hload) hfront

/-- A program that starts with an instruction, behind which stand a byte that starts none and
the front of an instruction that is cut off. -/
def cutOff : List UInt8 :=
  [0x1f, 0, 0, 0, 0] ++ [0x07, 0x10, 7, 0, 0, 0] ++ [0xff, 0x07, 0x10]

theorem runs_as_listed_cutOff :
    let env := Environment.silent (noSyscalls Unit)
    let m := (((create .standard ()).init env).load env cutOff).2.machine
    let behind : Machine Unit := { m with guest := m.guest.set .pc 11 }
    cutOff.length ≤ EngineConfig.standard.ramBytes ∧
      ⟨5, [0x07, 0x10, 7, 0, 0, 0], some (.mov (.general 1) (.imm 7))⟩ ∈ Row.sweep cutOff ∧
      ⟨11, [0xff], none⟩ ∈ Row.sweep cutOff ∧
      m.step env = Machine.retire env () (m.guest.execute (.mov (.general 1) (.imm 7))) ∧
      behind.step env = (.error (.decode 11 (.unknownOperation 0xff)), behind) := by
  intro env m behind
  have hfits : cutOff.length ≤ EngineConfig.standard.ramBytes := by decide
  have hmov : ⟨5, [0x07, 0x10, 7, 0, 0, 0], some (.mov (.general 1) (.imm 7))⟩
      ∈ Row.sweep cutOff := by decide +kernel
  have hbyte : ⟨11, [0xff], none⟩ ∈ Row.sweep cutOff := by decide +kernel
  obtain ⟨loaded, hload, hrows⟩ := runs_as_listed env (create .standard ()) hfits
  obtain rfl : (((create .standard ()).init env).load env cutOff).2 = loaded :=
    congrArg Prod.snd hload
  obtain ⟨-, -, -, hstands, hruns⟩ := hrows _ hmov (by decide)
  obtain ⟨-, -, -, hstands', hruns'⟩ := hrows _ hbyte (by decide)
  refine ⟨hfits, hmov, hbyte, (hruns m hstands).executed _ rfl rfl, ?_⟩
  exact (hruns' behind hstands').refused _ rfl (by simp) rfl

end Engine

end RegisterMachine
