/-
Pops in reverse order take back what pushes have saved.

A push writes one word below the stack pointer and changes no register but the stack pointer
and the program counter, so after a row of pushes the stack holds, from the top down, what the
registers held before.  `Memory.Saves` says this by recursion on the registers.  The stack
pointer itself is saved as it is after its own push has lowered it, and a pop of the stack
pointer reads this value before it raises it: that gives the old value again, so it may be
saved like the others.

The pushes must not write into the code that is executed.  Apart from that nothing is asked of
the registers between the pushes and the pops, except for the stack pointer.
-/
import RegisterMachine.Proofs.Machine.Subroutine
import Mathlib.Algebra.Ring.Nat

namespace RegisterMachine

/-! ### Code in memory -/

namespace Memory

variable {m m' : Memory} {addr : Word}

/-- Instructions are executed one behind another from an address on. -/
def HasCode (m : Memory) (addr : Word) : List Instruction → Prop
  | [] => True
  | i :: rest => m.instructionAt? addr = some i ∧ m.HasCode (addr + UInt32.ofNat i.size) rest

instance decidableHasCode (m : Memory) : (addr : Word) → (code : List Instruction) →
    Decidable (m.HasCode addr code)
  | _, [] => isTrue trivial
  | addr, i :: rest =>
    have := decidableHasCode m (addr + UInt32.ofNat i.size) rest
    inferInstanceAs (Decidable (_ ∧ _))

theorem inside_of_instructionAt? {i : Instruction} (h : m.instructionAt? addr = some i) :
    addr.toNat + i.size ≤ m.length := by
  obtain ⟨-, window, hwindow, hdecode⟩ := instructionAt?_eq_some.mp h
  have hfits := (Instr.decode_eq_ok hdecode).1
  obtain ⟨hinside, rfl⟩ := window_eq_ok.mp hwindow
  rw [length_bytesAt] at hfits
  omega

theorem instructionAt?_congr {i : Instruction} (h : m.instructionAt? addr = some i)
    (hlength : m'.length = m.length)
    (hbytes : ∀ a, addr.toNat ≤ a → a < addr.toNat + i.size → m'.byte a = m.byte a) :
    m'.instructionAt? addr = some i := by
  obtain ⟨hentry, window, hwindow, hdecode⟩ := instructionAt?_eq_some.mp h
  have htake := List.length_take_of_le (Instr.decode_eq_ok hdecode).1
  have hsame : m'.bytesAt addr.toNat i.size = window.take i.size := by
    rw [take_window hwindow hdecode]
    refine List.map_congr_left fun a ha => ?_
    obtain ⟨hle, hlt⟩ := List.mem_range'_1.mp ha
    exact hbytes a hle hlt
  have hslice : m'.slice addr (window.take i.size).length = .ok (window.take i.size) := by
    rw [htake]
    exact slice_eq_ok.mpr ⟨hlength ▸ inside_of_instructionAt? h, hsame⟩
  have hne : window.take i.size ≠ [] := List.ne_nil_of_length_pos (by rw [htake]; exact i.size_pos)
  obtain ⟨window', more, hwindow', hdecode'⟩ := decode_window_of_slice hslice hne
  exact instructionAt?_eq_some.mpr
    ⟨hentry, window', hwindow', hdecode'.trans (Instr.decode_take_append hdecode more)⟩

theorem toNat_add_size {i : Instruction} (hlength : m.length ≤ 0x80000000)
    (h : m.instructionAt? addr = some i) :
    (addr + UInt32.ofNat i.size).toNat = addr.toNat + i.size := by
  have hinside := inside_of_instructionAt? h
  have hsize := i.size_le
  rw [UInt32.toNat_add, UInt32.toNat_ofNat']
  omega

theorem HasCode.congr {code : List Instruction} (h : m.HasCode addr code)
    (hmax : m.length ≤ 0x80000000) (hlength : m'.length = m.length)
    (hbytes : ∀ a, addr.toNat ≤ a → a < addr.toNat + (code.map Instr.size).sum →
      m'.byte a = m.byte a) : m'.HasCode addr code := by
  induction code generalizing addr with
  | nil => trivial
  | cons i rest ih =>
      obtain ⟨hfirst, hrest⟩ := h
      rw [List.map_cons, List.sum_cons] at hbytes
      refine ⟨instructionAt?_congr hfirst hlength fun a hle hlt => hbytes a hle (by omega),
        ih hrest fun a hle hlt => ?_⟩
      rw [toNat_add_size hmax hfirst] at hle hlt
      exact hbytes a (by omega) (by omega)

theorem hasCode_append {code more : List Instruction} :
    m.HasCode addr (code ++ more) ↔ m.HasCode addr code ∧
      m.HasCode (addr + UInt32.ofNat (code.map Instr.size).sum) more := by
  induction code generalizing addr with
  | nil => simp [HasCode]
  | cons i rest ih =>
      rw [List.cons_append, HasCode, HasCode, ih, List.map_cons, List.sum_cons, UInt32.ofNat_add,
        UInt32.add_assoc, and_assoc]

end Memory

/-! ### One push and one pop -/

/-- What a push of a register makes of a guest. -/
structure Guest.Pushes (g : Guest) (r : Register) (g' : Guest) : Prop where
  sp : g'.get .sp = g.get .sp - 4
  pc : g'.get .pc = g.get .pc + 2
  get_eq {x : Register} (hsp : x ≠ .sp) (hpc : x ≠ .pc) : g'.get x = g.get x
  /-- The stack pointer is lowered before its value is taken. -/
  memory : g.memory.writeWord (g.get .sp - 4) (if r = .sp then g.get .sp - 4 else g.get r)
    = .ok g'.memory

/-- What a pop of a register, not the program counter, makes of a guest that has `value` on top
of its stack. -/
structure Guest.Pops (g : Guest) (r : Register) (value : Word) (g' : Guest) : Prop where
  /-- The stack pointer is raised after it has got its value. -/
  sp : g'.get .sp = (if r = .sp then value else g.get .sp) + 4
  pc : g'.get .pc = g.get .pc + 2
  get_eq {x : Register} (hsp : x ≠ .sp) (hpc : x ≠ .pc) :
    g'.get x = if x = r then value else g.get x
  memory : g'.memory = g.memory

namespace Machine

variable {ω : Type} {m : Machine ω} {r : Register}

theorem pushes_of_executes (env : Environment ω) (hpush : m.guest.executes? = some (.push r))
    (hinside : (m.guest.get .sp - 4).toNat + 4 ≤ m.guest.memory.length) :
    ∃ m', m.step env = (.ok .continues, m') ∧ m.guest.Pushes r m'.guest := by
  obtain ⟨memory, hwrite⟩ : ∃ memory, m.guest.memory.writeWord (m.guest.get .sp - 4)
      ((m.guest.set .sp (m.guest.get .sp - 4)).get r) = .ok memory :=
    ⟨_, Memory.writeWord_eq_ok.mpr ⟨hinside, rfl⟩⟩
  obtain ⟨m', hstep, hguest⟩ :=
    step_of_perform env hpush (Effect.perform_write_eq_ok.mpr ⟨memory, hwrite, rfl⟩)
  rw [Guest.get_set] at hwrite
  refine ⟨m', hstep, ?_, ?_, fun hsp hpc => ?_, ?_⟩ <;> rw [hguest]
  · simp [Guest.get, RegisterFile.advance, RegisterFile.get_set]
  · simp [Guest.get, RegisterFile.advance, RegisterFile.get_set]
    rfl
  · simp [Guest.get, RegisterFile.advance, RegisterFile.get_set, hsp, hpc]
  · exact hwrite

theorem pops_of_executes (env : Environment ω) {value : Word} (hr : r ≠ .pc)
    (hpop : m.guest.executes? = some (.pop r))
    (hread : m.guest.memory.readWord (m.guest.get .sp) = .ok value) :
    ∃ m', m.step env = (.ok .continues, m') ∧ m.guest.Pops r value m'.guest := by
  have hperform : ((Instr.pop r : Instruction).effect m.guest.registers).perform m.guest
      = (.ok (), ⟨((m.guest.registers.set r value).set .sp
        ((m.guest.registers.set r value).get .sp + 4)).advance 2, m.guest.memory⟩) := by
    have hread' : m.guest.memory.readWord (m.guest.registers.get .sp) = .ok value := hread
    simp only [Instr.effect, Effect.perform, hread']
    rfl
  obtain ⟨m', hstep, hguest⟩ := step_of_perform env hpop hperform
  refine ⟨m', hstep, ?_, ?_, fun hsp hpc => ?_, ?_⟩ <;> rw [hguest]
  · simp [Guest.get, RegisterFile.advance, RegisterFile.get_set, @eq_comm _ _ r]
  · simp [Guest.get, RegisterFile.advance, RegisterFile.get_set, hr.symm]
  · simp [Guest.get, RegisterFile.advance, RegisterFile.get_set, hsp, hpc]

end Machine

/-! ### Rows of pushes and pops -/

namespace Guest

variable {g g' : Guest} {r : Register} {count a : Nat}

/-- The address is that of a byte in the given number of words below the stack pointer. -/
def BelowTop (g : Guest) (count : Nat) (a : Nat) : Prop :=
  (g.get .sp).toNat - 4 * count ≤ a ∧ a < (g.get .sp).toNat

/-- Lowering the stack pointer to a word inside the memory does not wrap it around. -/
theorem toNat_lowered (hmax : g.memory.length ≤ 0x80000000)
    (hinside : (g.get .sp - 4).toNat + 4 ≤ g.memory.length) :
    (g.get .sp - 4).toNat + 4 = (g.get .sp).toNat := by
  have hlt := (g.get .sp).toNat_lt
  have hfour : (4 : Word).toNat = 4 := rfl
  rw [UInt32.toNat_sub, hfour] at hinside ⊢
  omega

theorem Pushes.belowTop_succ (h : g.Pushes r g')
    (hlowered : (g.get .sp - 4).toNat + 4 = (g.get .sp).toNat) :
    g.BelowTop (count + 1) a ↔ (g.get .sp - 4).Covers a ∨ g'.BelowTop count a := by
  unfold BelowTop Word.Covers Word.byteCount
  rw [h.sp]
  omega

theorem Pushes.not_belowTop (h : g.Pushes r g') (ha : (g.get .sp - 4).Covers a) :
    ¬g'.BelowTop count a := by
  intro hbelow
  have hlt := hbelow.2
  rw [h.sp] at hlt
  exact absurd ha.1 (Nat.not_le.mpr hlt)

end Guest

/-- The words below `sp` are the values of the registers, from the top down.  The stack pointer
has the value to which its own push lowers it. -/
def Memory.Saves (m : Memory) (value : Register → Word) : Word → List Register → Prop
  | _, [] => True
  | sp, r :: rest =>
    m.readWord (sp - 4) = .ok (if r = .sp then sp - 4 else value r) ∧
      m.Saves value (sp - 4) rest

theorem Memory.Saves.congr {m : Memory} {value value' : Register → Word} {sp : Word}
    {rs : List Register} (h : m.Saves value sp rs)
    (hvalue : ∀ r ∈ rs, r ≠ .sp → value' r = value r) : m.Saves value' sp rs := by
  induction rs generalizing sp with
  | nil => trivial
  | cons r rest ih =>
      obtain ⟨hfirst, hrest⟩ := h
      refine ⟨?_, ih hrest fun x hx => hvalue x (List.mem_cons_of_mem _ hx)⟩
      rw [hfirst]
      by_cases hr : r = .sp
      · rw [if_pos hr, if_pos hr]
      · rw [if_neg hr, if_neg hr, hvalue r List.mem_cons_self hr]

theorem Word.sub_four_mul_succ (sp : Word) (n : Nat) :
    sp - UInt32.ofNat (4 * (n + 1)) = sp - 4 - UInt32.ofNat (4 * n) := by
  apply UInt32.toNat_inj.mp
  have hfour : (4 : Word).toNat = 4 := rfl
  simp only [UInt32.toNat_sub, UInt32.toNat_ofNat', hfour]
  omega

theorem Instr.sum_size_map {make : Register → Instruction} (hsize : ∀ r, (make r).size = 2)
    (rs : List Register) : ((rs.map make).map Instr.size).sum = 2 * rs.length := by
  induction rs with
  | nil => rfl
  | cons r rest ih =>
      rw [List.map_cons, List.map_cons, List.sum_cons, ih, hsize, List.length_cons]
      omega

/-- The guest can push registers: pushes of them stand at its program counter, and there is room
on the stack. -/
structure Guest.CanPush (g : Guest) (rs : List Register) : Prop where
  pc_not_mem : .pc ∉ rs
  code : g.memory.HasCode (g.get .pc) (rs.map .push)
  /-- Each word that is written lies inside the memory. -/
  inside (k : Nat) (h : k < rs.length) :
    (g.get .sp - UInt32.ofNat (4 * (k + 1))).toNat + 4 ≤ g.memory.length
  /-- None of their bytes belongs to the pushes. -/
  apart (a : Nat) (h : g.BelowTop rs.length a) :
    ¬((g.get .pc).toNat ≤ a ∧ a < (g.get .pc).toNat + 2 * rs.length)

theorem Guest.CanPush.next {g g' : Guest} {r : Register} {rest : List Register}
    (hmax : g.memory.length ≤ 0x80000000) (h : g.CanPush (r :: rest)) (hpushes : g.Pushes r g') :
    g'.CanPush rest := by
  obtain ⟨hfirst, hrest⟩ := h.code
  have hlength := Memory.length_of_writeWord hpushes.memory
  have hbelow : ∀ a, g.BelowTop (rest.length + 1) a ↔
      (g.get .sp - 4).Covers a ∨ g'.BelowTop rest.length a := fun a =>
    hpushes.belowTop_succ (toNat_lowered hmax (h.inside 0 (Nat.zero_lt_succ _)))
  have hnext : (g'.get .pc).toNat = (g.get .pc).toNat + 2 := by
    have hsize : (Instr.push r : Instruction).size = 2 := rfl
    have hadd := Memory.toNat_add_size hmax hfirst
    rw [hsize] at hadd
    rw [hpushes.pc, ← hadd]
    rfl
  have hapart : ∀ a, g.BelowTop (rest.length + 1) a →
      ¬((g'.get .pc).toNat ≤ a ∧ a < (g'.get .pc).toNat + 2 * rest.length) := by
    rintro a ha ⟨hle, hlt⟩
    refine h.apart a ha ⟨by omega, ?_⟩
    rw [List.length_cons]
    omega
  refine ⟨fun hmem => h.pc_not_mem (List.mem_cons_of_mem _ hmem), ?_, fun k hk => ?_,
    fun a ha => hapart a ((hbelow a).mpr (Or.inr ha))⟩
  · have hstands : g.memory.HasCode (g'.get .pc) (rest.map .push) := by rwa [hpushes.pc]
    refine hstands.congr hmax hlength fun a hle hlt => ?_
    rw [Instr.sum_size_map fun _ => rfl] at hlt
    exact Memory.byte_writeWord hpushes.memory fun hcovers =>
      hapart a ((hbelow a).mpr (Or.inl hcovers)) ⟨hle, hlt⟩
  · rw [hlength, hpushes.sp, ← Word.sub_four_mul_succ]
    exact h.inside (k + 1) (Nat.succ_lt_succ hk)

namespace Machine

variable {ω : Type}

/-- **Pushes save the registers below the stack pointer**, and write nowhere else. -/
theorem exists_pushed (env : Environment ω) {rs : List Register} {m : Machine ω}
    (hmax : m.guest.memory.length ≤ 0x80000000) (h : m.guest.CanPush rs) :
    ∃ pushed, Steps env rs.length m pushed ∧
      pushed.guest.get .sp = m.guest.get .sp - UInt32.ofNat (4 * rs.length) ∧
      pushed.guest.memory.Saves m.guest.get (m.guest.get .sp) rs ∧
      pushed.guest.memory.length = m.guest.memory.length ∧
      ∀ a, ¬m.guest.BelowTop rs.length a →
        pushed.guest.memory.byte a = m.guest.memory.byte a := by
  induction rs generalizing m with
  | nil => exact ⟨m, .refl m, by simp, trivial, rfl, fun _ _ => rfl⟩
  | cons r rest ih =>
      have hroom := h.inside 0 (Nat.zero_lt_succ _)
      obtain ⟨m₁, hstep, hpushes⟩ := pushes_of_executes env h.code.1 hroom
      have hlength := Memory.length_of_writeWord hpushes.memory
      have hbelow : ∀ a, m.guest.BelowTop (rest.length + 1) a ↔
          (m.guest.get .sp - 4).Covers a ∨ m₁.guest.BelowTop rest.length a := fun a =>
        hpushes.belowTop_succ (Guest.toNat_lowered hmax hroom)
      obtain ⟨pushed, hsteps, hbottom, hsaves, hkept, hframe⟩ :=
        ih (m := m₁) (by rwa [hlength]) (h.next hmax hpushes)
      refine ⟨pushed, .next hstep hsteps, ?_, ⟨?_, ?_⟩, hkept.trans hlength, fun a ha => ?_⟩
      · rw [hbottom, hpushes.sp, List.length_cons, Word.sub_four_mul_succ]
      · rw [← Memory.readWord_writeWord hpushes.memory]
        exact Memory.readWord_congr hkept fun a ha => hframe a (hpushes.not_belowTop ha)
      · rw [← hpushes.sp]
        refine hsaves.congr fun x hx hxsp => (hpushes.get_eq hxsp ?_).symm
        rintro rfl
        exact h.pc_not_mem (List.mem_cons_of_mem _ hx)
      · rw [hframe a fun hbelow₁ => ha ((hbelow a).mpr (Or.inr hbelow₁))]
        exact Memory.byte_writeWord hpushes.memory fun hcovers =>
          ha ((hbelow a).mpr (Or.inl hcovers))

/-- **Pops in reverse order take back what is saved**, and write nowhere. -/
theorem exists_popped (env : Environment ω) {rs : List Register} {m : Machine ω}
    {value : Register → Word} {sp : Word} (hpc : .pc ∉ rs)
    (hcode : m.guest.memory.HasCode (m.guest.get .pc) (rs.reverse.map .pop))
    (hsaves : m.guest.memory.Saves value sp rs)
    (hbottom : m.guest.get .sp = sp - UInt32.ofNat (4 * rs.length)) :
    ∃ popped, Steps env rs.length m popped ∧ popped.guest.memory = m.guest.memory ∧
      popped.guest.get .sp = sp ∧
      popped.guest.get .pc = m.guest.get .pc + UInt32.ofNat (2 * rs.length) ∧
      ∀ r ∈ rs, r ≠ .sp → popped.guest.get r = value r := by
  induction rs generalizing sp with
  | nil => exact ⟨m, .refl m, rfl, by simpa using hbottom, by simp, by simp⟩
  | cons r rest ih =>
      obtain ⟨hword, hsaves⟩ := hsaves
      rw [List.reverse_cons, List.map_append, Memory.hasCode_append,
        Instr.sum_size_map fun _ => rfl, List.length_reverse] at hcode
      obtain ⟨hrest, hlast, -⟩ := hcode
      rw [List.length_cons, Word.sub_four_mul_succ] at hbottom
      obtain ⟨m₁, hsteps, hmemory, hsp, hnext, hvalues⟩ :=
        ih (fun h => hpc (List.mem_cons_of_mem _ h)) hrest hsaves hbottom
      rw [← hmemory, ← hnext] at hlast
      rw [← hmemory, ← hsp] at hword
      obtain ⟨popped, hstep, hpops⟩ := pops_of_executes env
        (fun h => hpc (h ▸ List.mem_cons_self)) hlast hword
      refine ⟨popped, hsteps.snoc hstep, hpops.memory.trans hmemory, ?_, ?_, fun x hx hxsp => ?_⟩
      · rw [hpops.sp, hsp]
        split <;> exact UInt32.sub_add_cancel _ _
      · rw [hpops.pc, hnext, List.length_cons, Nat.mul_add, UInt32.ofNat_add, UInt32.add_assoc]
        rfl
      · have hxpc : x ≠ .pc := fun h => hpc (h ▸ hx)
        rw [hpops.get_eq hxsp hxpc]
        by_cases hxr : x = r
        · rw [if_pos hxr, if_neg (hxr ▸ hxsp), hxr]
        · rw [if_neg hxr]
          exact hvalues x ((List.mem_cons.mp hx).resolve_left hxr) hxsp

end Machine

/-! ### Saving and taking back -/

/-- The guest can save registers on its stack: it can push them, and pops of them in reverse
order stand at `back`. -/
structure Guest.CanSave (g : Guest) (rs : List Register) (back : Word) : Prop
    extends g.CanPush rs where
  pops : g.memory.HasCode back (rs.reverse.map .pop)
  /-- No byte that is written belongs to the pops. -/
  pops_apart (a : Nat) (h : g.BelowTop rs.length a) :
    ¬(back.toNat ≤ a ∧ a < back.toNat + 2 * rs.length)

namespace Machine

variable {ω : Type}

/-- **Pops in reverse order take back what pushes have saved.**

Where registers can be saved, the pushes succeed.  Let then anything happen that leaves the
memory and the stack pointer as they are, and control get to the pops.  They succeed as well,
the registers and the stack pointer have their values from before the pushes, and memory is
as it was, except for the words below the stack pointer.  The stack pointer and the flags may be
among the registers, and a register may be there several times.  The memory is as long as an
engine's can be, so no address in it wraps around. -/
theorem pops_take_back_pushes (env : Environment ω) {m : Machine ω} {rs : List Register}
    {back : Word} (hmax : m.guest.memory.length ≤ 0x80000000) (h : m.guest.CanSave rs back) :
    ∃ pushed, Steps env rs.length m pushed ∧
      ∀ between : Machine ω, between.guest.memory = pushed.guest.memory →
        between.guest.get .sp = pushed.guest.get .sp → between.guest.get .pc = back →
        ∃ popped, Steps env rs.length between popped ∧
          (∀ r ∈ .sp :: rs, popped.guest.get r = m.guest.get r) ∧
          popped.guest.memory.length = m.guest.memory.length ∧
          ∀ a, ¬m.guest.BelowTop rs.length a →
            popped.guest.memory.byte a = m.guest.memory.byte a := by
  obtain ⟨pushed, hpushed, hbottom, hsaves, hlength, hframe⟩ :=
    exists_pushed env hmax h.toCanPush
  refine ⟨pushed, hpushed, fun between hmemory hsp hpc => ?_⟩
  have hpops : between.guest.memory.HasCode (between.guest.get .pc) (rs.reverse.map .pop) := by
    rw [hpc, hmemory]
    refine h.pops.congr hmax hlength fun a hle hlt => hframe a fun hbelow => ?_
    rw [Instr.sum_size_map fun _ => rfl, List.length_reverse] at hlt
    exact h.pops_apart a hbelow ⟨hle, hlt⟩
  obtain ⟨popped, hpopped, hkept, htop, -, hvalues⟩ :=
    exists_popped env h.pc_not_mem hpops (hmemory ▸ hsaves) (hsp.trans hbottom)
  rw [hmemory] at hkept
  refine ⟨popped, hpopped, fun r hr => ?_, by rw [hkept, hlength], fun a ha => ?_⟩
  · by_cases hrsp : r = .sp
    · rw [hrsp, htop]
    · exact hvalues r ((List.mem_cons.mp hr).resolve_left hrsp) hrsp
  · rw [hkept]
    exact hframe a ha

/-- A program that compares 7 in `r1` with 9, pushes `r1`, the stack pointer, the flags and `r1`
again, and then pops them in reverse order. -/
def savesRegisters : List UInt8 :=
  [0x1f, 0, 0, 0, 0] ++ [0x07, 0x10, 7, 0, 0, 0] ++ [0x15, 0x10, 9, 0, 0, 0] ++
    [0x16, 0x10, 0x16, 0xe0, 0x16, 0xd0, 0x16, 0x10] ++
    [0x18, 0x10, 0x18, 0xd0, 0x18, 0xe0, 0x18, 0x10]

theorem pops_take_back_pushes_savesRegisters :
    let env : Environment Unit := .silent (noSyscalls Unit)
    let start := (((Engine.create .standard ()).init env).load env savesRegisters).2.started env
    let m := start.later env 2
    let rs := [Register.general 1, .sp, .flags, .general 1]
    m.guest.memory.length ≤ 0x80000000 ∧ m.guest.CanSave rs 0x19 ∧
      m.guest.get (.general 1) = 7 ∧ m.guest.get .flags = 4 ∧ m.guest.get .sp = 0x400000 ∧
      ∃ pushed between popped, Steps env 4 m pushed ∧
        between.guest.memory = pushed.guest.memory ∧
        between.guest.get (.general 1) = 0 ∧ between.guest.get .flags = 0xffffffff ∧
        Steps env 4 between popped ∧
        popped.guest.get (.general 1) = 7 ∧ popped.guest.get .flags = 4 ∧
        popped.guest.get .sp = 0x400000 ∧
        ∀ a < 0x3ffff0, popped.guest.memory.byte a = m.guest.memory.byte a := by
  intro env start m rs
  have hmax : m.guest.memory.length ≤ 0x80000000 := by decide +kernel
  have hlength : m.guest.memory.length = 0x400000 := by decide +kernel
  have hvalues : m.guest.get (.general 1) = 7 ∧ m.guest.get .flags = 4 ∧
      m.guest.get .sp = 0x400000 := by decide +kernel
  have hpc : m.guest.get .pc = 0x11 := by decide +kernel
  obtain ⟨hgeneral, hflags, hsp⟩ := hvalues
  have hbelow : ∀ a, m.guest.BelowTop rs.length a → 0x3ffff0 ≤ a := by
    intro a ha
    have hbottom : (0x400000 : Word).toNat - 4 * rs.length = 0x3ffff0 := by decide
    have hle := ha.1
    rwa [hsp, hbottom] at hle
  have hsaves : m.guest.CanSave rs 0x19 :=
    { pc_not_mem := by decide
      code := by decide +kernel
      pops := by decide +kernel
      inside := by rw [hsp, hlength]; decide
      apart := fun a ha hcode => by
        rw [hpc] at hcode
        exact absurd (hbelow a ha) (Nat.not_le.mpr (Nat.lt_trans hcode.2 (by decide)))
      pops_apart := fun a ha hcode =>
        absurd (hbelow a ha) (Nat.not_le.mpr (Nat.lt_trans hcode.2 (by decide))) }
  obtain ⟨pushed, hpushed, hback⟩ := pops_take_back_pushes env hmax hsaves
  let guest := ((pushed.guest.set (.general 1) 0).set .flags 0xffffffff).set .pc 0x19
  obtain ⟨popped, hpopped, hregisters, -, hframe⟩ := hback ⟨guest, ()⟩ rfl rfl rfl
  refine ⟨hmax, hsaves, hgeneral, hflags, hsp, pushed, ⟨guest, ()⟩, popped, hpushed, rfl,
    by simp [guest], rfl, hpopped, ?_, ?_, ?_,
    fun a ha => hframe a fun h => absurd (hbelow a h) (Nat.not_le.mpr ha)⟩
  · exact (hregisters _ (by decide)).trans hgeneral
  · exact (hregisters _ (by decide)).trans hflags
  · exact (hregisters _ (by decide)).trans hsp

end Machine

end RegisterMachine
