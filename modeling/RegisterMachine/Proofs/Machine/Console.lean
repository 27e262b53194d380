/-
What a run prints.

The system calls that write to a console do nothing to the guest, so what is left to say of
them is what they write.  `Guest.printed` says it from the guest alone: the bytes that its next
step prints, which are none unless the step makes one of these calls and its argument can be
read.  A step appends just these bytes to what has been written, however it ends, and so a run
has written what the machines that it visits print, in order.

A number is written in base ten.  `WritesNumber` says what that means without a printer: the
digits denote the number, there are no idle zeros in front, and a minus sign stands exactly
where the top bit of the word is set.
-/
import RegisterMachine.Machine.Console
import RegisterMachine.Proofs.Machine.Reuse

namespace RegisterMachine

/-! ### Numbers on a line -/

namespace Console

/-- The number that digits in base ten denote, the most significant first. -/
def digitsValue (digits : List UInt8) : Nat :=
  digits.foldl (fun n digit => 10 * n + (digit.toNat - 0x30)) 0

/-- The bytes are the digits of a number in base ten. -/
structure WritesDigits (n : Nat) (digits : List UInt8) : Prop where
  /-- All of them are ASCII digits. -/
  digit : ∀ d ∈ digits, 0x30 ≤ d.toNat ∧ d.toNat ≤ 0x39
  value : digitsValue digits = n
  nonempty : digits ≠ []
  /-- A zero stands in front only of nothing. -/
  standard : digits.head? = some 0x30 → digits = [0x30]

/-- The bytes are a word as a signed number on a line of its own: a minus sign if the top bit
is set, the digits of the magnitude and a line break. -/
def WritesNumber (w : Word) (bytes : List UInt8) : Prop :=
  ∃ digits, WritesDigits (if 0x80000000 ≤ w.toNat then 0x100000000 - w.toNat else w.toNat) digits ∧
    bytes = (if 0x80000000 ≤ w.toNat then [0x2d] else []) ++ digits ++ [0x0a]

theorem digitsValue_append (front : List UInt8) (digit : UInt8) :
    digitsValue (front ++ [digit]) = 10 * digitsValue front + (digit.toNat - 0x30) :=
  List.foldl_append

theorem toNat_digitChar {d : Nat} (hd : d < 10) :
    (UInt8.ofNat d.digitChar.toNat).toNat = 0x30 + d := by
  have h : ∀ d < 10, (UInt8.ofNat d.digitChar.toNat).toNat = 0x30 + d := by decide
  exact h d hd

theorem asciiBytes_append (front back : String) :
    asciiBytes (front ++ back) = asciiBytes front ++ asciiBytes back := by
  rw [asciiBytes, String.toList_append, List.map_append]
  rfl

/-- The last digit is the remainder and the others are those of the quotient. -/
theorem asciiBytes_decimal_of_le {n : Nat} (h : 10 ≤ n) :
    asciiBytes (Text.decimal n)
      = asciiBytes (Text.decimal (n / 10)) ++ [UInt8.ofNat (n % 10).digitChar.toNat] := by
  simp only [asciiBytes, Text.decimal, String.toList_ofList]
  rw [Nat.toDigits_of_base_le (by decide) h, List.map_append]
  rfl

theorem asciiBytes_decimal_of_lt {n : Nat} (h : n < 10) :
    asciiBytes (Text.decimal n) = [UInt8.ofNat n.digitChar.toNat] := by
  simp only [asciiBytes, Text.decimal, String.toList_ofList]
  rw [Nat.toDigits_of_lt_base h]
  rfl

/-- **A number is printed as its digits.** -/
theorem writesDigits_decimal (n : Nat) : WritesDigits n (asciiBytes (Text.decimal n)) := by
  induction n using Nat.strongRecOn with
  | ind n ih =>
      rcases Nat.lt_or_ge n 10 with hlt | hge
      · have hdigit := toNat_digitChar hlt
        rw [asciiBytes_decimal_of_lt hlt]
        refine ⟨?_, ?_, by simp, ?_⟩
        · intro d hd
          rw [List.mem_singleton.mp hd, hdigit]
          omega
        · show 10 * 0 + ((UInt8.ofNat n.digitChar.toNat).toNat - 0x30) = n
          omega
        · intro hzero
          rw [Option.some.inj hzero]
      · have hdigit := toNat_digitChar (Nat.mod_lt n (show 10 > 0 by decide))
        obtain ⟨hfront, hvalue, hne, hstandard⟩ := ih (n / 10) (by omega)
        rw [asciiBytes_decimal_of_le hge]
        refine ⟨?_, ?_, by simp, ?_⟩
        · intro d hd
          rcases List.mem_append.mp hd with hd | hd
          · exact hfront d hd
          · rw [List.mem_singleton.mp hd, hdigit]
            omega
        · rw [digitsValue_append, hvalue, hdigit]
          omega
        · intro hzero
          -- The quotient is not zero, so no zero stands in front of its digits.
          have hfirst : (asciiBytes (Text.decimal (n / 10))).head? = some 0x30 := by
            rwa [List.head?_append, Option.or_of_isSome (List.isSome_head?.mpr hne)] at hzero
          rw [hstandard hfirst] at hvalue
          have hquotient : n / 10 = 0 := hvalue.symm
          omega

theorem toSigned_lt_zero_iff (w : Word) : w.toSigned < 0 ↔ 0x80000000 ≤ w.toNat := by
  have hlt := w.toNat_lt
  rw [Word.toSigned_eq]
  split <;> omega

theorem natAbs_toSigned (w : Word) :
    w.toSigned.natAbs
      = if 0x80000000 ≤ w.toNat then 0x100000000 - w.toNat else w.toNat := by
  have hlt := w.toNat_lt
  rw [Word.toSigned_eq]
  split <;> omega

/-- **The call that writes a number writes it in base ten on a line of its own.** -/
theorem writesNumber_signedDecimal (w : Word) :
    WritesNumber w (asciiBytes (Text.signedDecimal w.toSigned ++ "\n")) := by
  have hdigits := writesDigits_decimal w.toSigned.natAbs
  rw [natAbs_toSigned] at hdigits
  refine ⟨_, hdigits, ?_⟩
  rw [asciiBytes_append, Text.signedDecimal, natAbs_toSigned]
  simp only [toSigned_lt_zero_iff]
  by_cases hsign : 0x80000000 ≤ w.toNat
  · rw [if_pos hsign, if_pos hsign, if_pos hsign, asciiBytes_append]
    rfl
  · rw [if_neg hsign, if_neg hsign, if_neg hsign]
    rfl

/-! ### What a call answers -/

/-- What is answered to a call: the bytes to be written, or why there are none. -/
def answer (id : Word) (g : Guest) : Except SyscallError (List UInt8) :=
  if id = 1 ∨ id = 2 then
    match g.memory.readWord (g.get .sp + 8) with
    | .ok argument =>
      .ok (if id = 1 then [argument.lowByte]
        else asciiBytes (Text.signedDecimal argument.toSigned ++ "\n"))
    | .error fault => .error (.fault fault)
  else .error .unhandled

theorem handler_eq {ω : Type} (write : List UInt8 → ω → ω) (id : Word) (g : Guest) (world : ω) :
    handler write id g world = match answer id g with
      | .ok bytes => (.ok (), g, write bytes world)
      | .error e => (.error e, g, world) := by
  have hargument : g.argument 0 = g.memory.readWord (g.get .sp + 8) := by
    rw [Guest.argument, UInt32.zero_mul, UInt32.add_zero]
  unfold handler answer output? putByte putNumber
  rw [hargument]
  by_cases hbyte : id = 1
  · rw [if_pos hbyte, if_pos (Or.inl hbyte)]
    cases g.memory.readWord (g.get .sp + 8) <;> simp [hbyte]
  · by_cases hnumber : id = 2
    · rw [if_neg hbyte, if_pos hnumber, if_pos (Or.inr hnumber)]
      cases g.memory.readWord (g.get .sp + 8) <;> simp [hbyte]
    · rw [if_neg hbyte, if_neg hnumber, if_neg (by simp [hbyte, hnumber])]

theorem eq_of_handler {ω : Type} {write : List UInt8 → ω → ω} {id : Word} {g g' : Guest}
    {world world' : ω} {outcome : Except SyscallError Unit}
    (h : handler write id g world = (outcome, g', world')) :
    g' = g ∧ ((∃ e, answer id g = .error e ∧ outcome = .error e ∧ world' = world) ∨
      ∃ bytes, answer id g = .ok bytes ∧ outcome = .ok () ∧ world' = write bytes world) := by
  rw [handler_eq] at h
  cases hanswer : answer id g with
  | error e =>
      simp only [hanswer] at h
      obtain ⟨rfl, rfl, rfl⟩ := h
      exact ⟨rfl, Or.inl ⟨e, rfl, rfl, rfl⟩⟩
  | ok bytes =>
      simp only [hanswer] at h
      obtain ⟨rfl, rfl, rfl⟩ := h
      exact ⟨rfl, Or.inr ⟨bytes, rfl, rfl, rfl⟩⟩

section

variable {id : Word} {g : Guest} {argument : Word} {fault : Fault}

theorem answer_of_readable (hid : id = 1 ∨ id = 2)
    (h : g.memory.readWord (g.get .sp + 8) = .ok argument) :
    answer id g = .ok (if id = 1 then [argument.lowByte]
      else asciiBytes (Text.signedDecimal argument.toSigned ++ "\n")) := by
  rw [answer, if_pos hid]
  simp only [h]

theorem answer_of_unreadable (hid : id = 1 ∨ id = 2)
    (h : g.memory.readWord (g.get .sp + 8) = .error fault) :
    answer id g = .error (.fault fault) := by
  rw [answer, if_pos hid]
  simp only [h]

theorem answer_of_unknown (g : Guest) (hbyte : id ≠ 1) (hnumber : id ≠ 2) :
    answer id g = .error .unhandled :=
  if_neg fun hid => hid.elim hbyte hnumber

end

end Console

/-- The environment of a run that prints to a row of bytes, which takes everything. -/
abbrev Environment.printing {β : Type} (observe : Event → β → β) :
    Environment (List UInt8 × β) :=
  .beside (Console.handler fun bytes written => written ++ bytes) observe

/-- What the guest's next step prints: nothing, unless it makes a call to which bytes are
answered. -/
def Guest.printed (g : Guest) : List UInt8 :=
  match g.calls? with
  | some id => (Console.answer id g).toOption.getD []
  | none => []

namespace Guest

variable {g : Guest} {id : Word}

theorem printed_of_not_calls (h : g.calls? = none) : g.printed = [] := by
  rw [printed, h]

theorem printed_of_answer {bytes : List UInt8} (h : g.calls? = some id)
    (hanswer : Console.answer id g = .ok bytes) : g.printed = bytes := by
  rw [printed, h]
  simp only [hanswer]
  rfl

theorem printed_of_answer_error {e : SyscallError} (h : g.calls? = some id)
    (hanswer : Console.answer id g = .error e) : g.printed = [] := by
  rw [printed, h]
  simp only [hanswer]
  rfl

end Guest

namespace Machine

variable {ω β : Type}

theorem step_of_calls {env : Environment ω} {m : Machine ω} {id : Word}
    (h : m.guest.calls? = some id) :
    m.step env =
      match env.serve id m.guest (env.observe (.syscall id m.guest.registers) m.world) with
      | (.error e, guest, world) => (.error (e.toFault id), ⟨guest, world⟩)
      | (.ok (), guest, world) => retire env world guest.ret := by
  obtain ⟨hpc, hid, hne⟩ := Guest.calls?_eq_some.mp h
  rw [step, if_pos hpc, enterSyscall]
  simp only [hid, if_neg hne]
  rfl

theorem fst_world_of_not_calls {serve : SyscallHandler ω} {observe : Event → β → β}
    {m : Machine (ω × β)} (h : m.guest.calls? = none) :
    (m.step (.beside serve observe)).2.world.1 = m.world.1 := by
  rcases hstep : m.step (.beside serve observe) with ⟨result, m'⟩
  cases stepped_of_step hstep with
  | unidentified _ _ | exited _ _ | unfetched _ _ | undecoded _ _ _ => rfl
  | unserved hpc hid hne _ | served hpc hid hne _ _ =>
      rw [Guest.calls?_eq_some.mpr ⟨hpc, hid, hne⟩] at h
      contradiction
  | executed _ _ _ hretire => rcases retire_cases hretire with ⟨_, _, _, rfl⟩ | ⟨_, _, rfl⟩ <;> rfl

variable {observe : Event → β → β} {m : Machine (List UInt8 × β)} {id : Word}

/-- A step that calls the console: what is answered is written, and control returns to the
caller if it can. -/
theorem step_of_answer {bytes : List UInt8} (hcall : m.guest.calls? = some id)
    (hanswer : Console.answer id m.guest = .ok bytes) :
    m.step (.printing observe) = retire (.printing observe)
      (m.world.1 ++ bytes, observe (.syscall id m.guest.registers) m.world.2) m.guest.ret := by
  rw [step_of_calls hcall]
  simp only [Environment.beside, Console.handler_eq, hanswer]

theorem step_of_answer_error {e : SyscallError} (hcall : m.guest.calls? = some id)
    (hanswer : Console.answer id m.guest = .error e) :
    m.step (.printing observe) = (.error (e.toFault id),
      ⟨m.guest, m.world.1, observe (.syscall id m.guest.registers) m.world.2⟩) := by
  rw [step_of_calls hcall]
  simp only [Environment.beside, Console.handler_eq, hanswer]

/-- **A step writes what its guest prints.** -/
theorem written_step (observe : Event → β → β) (m : Machine (List UInt8 × β)) :
    (m.step (.printing observe)).2.world.1 = m.world.1 ++ m.guest.printed := by
  cases hcall : m.guest.calls? with
  | none => rw [fst_world_of_not_calls hcall, Guest.printed_of_not_calls hcall, List.append_nil]
  | some id =>
      cases hanswer : Console.answer id m.guest with
      | error e =>
          rw [step_of_answer_error hcall hanswer, Guest.printed_of_answer_error hcall hanswer,
            List.append_nil]
      | ok bytes =>
          rw [step_of_answer hcall hanswer, Guest.printed_of_answer hcall hanswer]
          unfold retire
          split <;> rfl

/-- **A run has written what the guests that it visits print, in order.** -/
theorem written_later (observe : Event → β → β) (n : Nat) (m : Machine (List UInt8 × β)) :
    (m.later (.printing observe) n).world.1
      = m.world.1 ++ (m.visited (.printing observe) n).flatMap (·.guest.printed) := by
  induction n generalizing m with
  | zero => exact (List.append_nil _).symm
  | succ n ih => rw [later, visited, ih, written_step, List.append_assoc, List.flatMap_cons]

/-- How the next step of a machine prints, and what becomes of its guest. -/
structure Prints (observe : Event → β → β) (m : Machine (List UInt8 × β)) : Prop where
  /-- What is written before stays, and what the guest prints is put behind it. -/
  written : (m.step (.printing observe)).2.world.1 = m.world.1 ++ m.guest.printed
  /-- Call 1 prints the low byte of its argument. -/
  byte (hcall : m.guest.calls? = some 1) {argument : Word}
    (hargument : m.guest.memory.readWord (m.guest.get .sp + 8) = .ok argument) :
    m.guest.printed = [argument.lowByte]
  /-- Call 2 prints its argument as a signed number on a line of its own. -/
  number (hcall : m.guest.calls? = some 2) {argument : Word}
    (hargument : m.guest.memory.readWord (m.guest.get .sp + 8) = .ok argument) :
    Console.WritesNumber argument m.guest.printed
  /-- Nothing else is printed. -/
  quiet (hcall : m.guest.calls? = none) : m.guest.printed = []
  /-- The handler gives the guest back as it was lent. -/
  lent (id : Word) (world : List UInt8 × β) :
    ((Environment.printing observe).serve id m.guest world).2.1 = m.guest
  /-- After a call that has printed, control returns to the address on the stack. -/
  returned {id : Word} (hcall : m.guest.calls? = some id) (hid : id = 1 ∨ id = 2)
    {argument target : Word}
    (hargument : m.guest.memory.readWord (m.guest.get .sp + 8) = .ok argument)
    (htarget : m.guest.memory.readWord (m.guest.get .sp) = .ok target) :
    let after := (m.step (.printing observe)).2.guest
    (m.step (.printing observe)).1 = .ok .continues ∧ after.memory = m.guest.memory ∧
      ∀ r, after.get r = if r = .pc then target else if r = .sp then m.guest.get .sp + 4
        else m.guest.get r
  /-- If that address cannot be read the step fails, and what it has printed stays. -/
  stranded {id : Word} (hcall : m.guest.calls? = some id) (hid : id = 1 ∨ id = 2)
    {argument : Word} {fault : Fault}
    (hargument : m.guest.memory.readWord (m.guest.get .sp + 8) = .ok argument)
    (htarget : m.guest.memory.readWord (m.guest.get .sp) = .error fault) :
    (m.step (.printing observe)).1
        = .error (.outOfBounds (m.guest.get .sp) 4 m.guest.memory.length) ∧
      (m.step (.printing observe)).2.guest = m.guest
  /-- A call without a readable argument prints nothing and fails. -/
  unreadable {id : Word} (hcall : m.guest.calls? = some id) (hid : id = 1 ∨ id = 2)
    {fault : Fault}
    (hargument : m.guest.memory.readWord (m.guest.get .sp + 8) = .error fault) :
    m.guest.printed = [] ∧ (m.step (.printing observe)).1
        = .error (.outOfBounds (m.guest.get .sp + 8) 4 m.guest.memory.length) ∧
      (m.step (.printing observe)).2.guest = m.guest
  /-- A call with another identifier prints nothing and fails. -/
  unknown {id : Word} (hcall : m.guest.calls? = some id) (hbyte : id ≠ 1) (hnumber : id ≠ 2) :
    m.guest.printed = [] ∧ (m.step (.printing observe)).1 = .error (.unhandledSyscall id) ∧
      (m.step (.printing observe)).2.guest = m.guest

theorem prints (observe : Event → β → β) (m : Machine (List UInt8 × β)) : m.Prints observe where
  written := written_step observe m
  byte hcall argument hargument :=
    Guest.printed_of_answer hcall (Console.answer_of_readable (Or.inl rfl) hargument)
  number hcall argument hargument := by
    rw [Guest.printed_of_answer hcall (Console.answer_of_readable (Or.inr rfl) hargument)]
    exact Console.writesNumber_signedDecimal argument
  quiet hcall := Guest.printed_of_not_calls hcall
  lent id world := by
    simp only [Environment.beside, Console.handler_eq]
    cases Console.answer id m.guest <;> rfl
  returned {id} hcall hid argument target hargument htarget := by
    have hret : m.guest.ret
        = (.ok (), (m.guest.set .sp (m.guest.get .sp + 4)).set .pc target) := by
      rw [Guest.ret, Guest.reading]
      simp only [htarget]
    rw [step_of_answer hcall (Console.answer_of_readable hid hargument), hret]
    refine ⟨rfl, rfl, fun r => ?_⟩
    show ((m.guest.set .sp (m.guest.get .sp + 4)).set .pc target).get r = _
    rw [Guest.get_set, Guest.get_set]
  stranded {id} hcall hid argument fault hargument htarget := by
    have hret : m.guest.ret = (.error fault, m.guest) := by
      rw [Guest.ret, Guest.reading]
      simp only [htarget]
    rw [step_of_answer hcall (Console.answer_of_readable hid hargument), hret,
      (Memory.readWord_eq_error.mp htarget).1]
    exact ⟨rfl, rfl⟩
  unreadable {id} hcall hid fault hargument := by
    have hanswer := Console.answer_of_unreadable hid hargument
    rw [Guest.printed_of_answer_error hcall hanswer, step_of_answer_error hcall hanswer,
      (Memory.readWord_eq_error.mp hargument).1]
    exact ⟨rfl, rfl, rfl⟩
  unknown {id} hcall hbyte hnumber := by
    have hanswer := Console.answer_of_unknown m.guest hbyte hnumber
    rw [Guest.printed_of_answer_error hcall hanswer, step_of_answer_error hcall hanswer]
    exact ⟨rfl, rfl, rfl⟩

end Machine

namespace Engine

open Machine

variable {β : Type} {observe : Event → β → β}

/-- The end of an execution prints nothing and leaves the guest alone. -/
theorem conclude_printing (observe : Event → β → β) (ending : Ending)
    (e : Engine (List UInt8 × β)) :
    (e.conclude (.printing observe) ending).2.machine.world.1 = e.machine.world.1 ∧
      (e.conclude (.printing observe) ending).2.machine.guest = e.machine.guest := by
  cases ending <;> exact ⟨rfl, rfl⟩

theorem written_atStart (image : List UInt8) (e : Engine (List UInt8 × β)) :
    (e.atStart (.printing observe) image).machine.world.1 = e.machine.world.1 := by
  rw [world_atStart]
  rfl

/-- **A run prints, call by call, what its calls ask for.**

Every step prints as `Machine.Prints` says.  An execution writes what the guests that it visits
print, in order, behind what has been written before.  It is left with the guest to which the
steps lead that it has counted, and a step that fails is the last one: its fault is the result,
and what has been written stays.  An image that is too large makes no steps. -/
theorem run_prints (observe : Event → β → β) :
    let env := Environment.printing observe
    (∀ m, Machine.Prints observe m) ∧
    ∀ (e : Engine (List UInt8 × β)) (patience : Nat) (image : List UInt8),
      let outcome := e.execute env patience image
      let start := (e.atStart env image).machine
      let visited := start.visited env outcome.2.executed
      outcome.2.machine.world.1 = e.machine.world.1 ++ visited.flatMap (·.guest.printed) ∧
      outcome.2.machine.guest = (start.later env outcome.2.executed).guest ∧
      ∀ m ∈ visited, ∀ fault, (m.step env).1 = .error fault →
        outcome.1 = .faulted fault ∧ outcome.2.machine = (m.step env).2 := by
  intro env
  refine ⟨Machine.prints observe, fun e patience image => ?_⟩
  intro outcome start visited
  rcases Nat.lt_or_ge e.config.ramBytes image.length with hlarge | hfits
  · have houtcome : outcome = _ := execute_too_large env patience e hlarge
    have hexecuted : outcome.2.executed = 0 := by
      rw [houtcome]
      rfl
    have hvisited : visited = [] := by
      show start.visited env outcome.2.executed = []
      rw [hexecuted]
      rfl
    have hstart : start.guest = outcome.2.machine.guest := by
      show (e.prepare env image).2.machine.guest = _
      rw [prepare_too_large env e hlarge, houtcome]
    rw [hvisited, hexecuted]
    refine ⟨?_, hstart.symm, by simp⟩
    rw [houtcome]
    exact (List.append_nil _).symm
  · obtain ⟨k, m', ending, hstopped, hexecute, hcounted⟩ := execute_cases env e patience hfits
    have hlater : start.later env k = m' := hstopped.later_eq
    have houtcome : outcome = ((e.atStart env image).after m' k).conclude env ending := hexecute
    obtain ⟨hworld, hguest⟩ :=
      conclude_printing observe ending ((e.atStart env image).after m' k)
    have hwritten : m'.world.1 = e.machine.world.1 ++ visited.flatMap (·.guest.printed) := by
      rw [← hlater, written_later, written_atStart]
      show _ = _ ++ List.flatMap _ (start.visited env outcome.2.executed)
      rw [hcounted]
    refine ⟨?_, ?_, fun m hm fault hfault => ?_⟩
    · rw [houtcome]
      exact hworld.trans hwritten
    · rw [hcounted, hlater, houtcome]
      exact hguest
    · have hmade : m ∈ start.visited env k := hcounted ▸ hm
      obtain ⟨rfl, rfl⟩ := hstopped.of_step_error hmade hfault
      rw [houtcome]
      exact ⟨rfl, rfl⟩

/-- A program that prints an H and the number -7 and then makes a call that nobody provides. -/
def printsTwice : List UInt8 :=
  [0x1f, 0, 0, 0, 0] ++
    [0x07, 0x10, 0x48, 0, 0, 0] ++ [0x16, 0x10] ++
    [0x07, 0x10, 1, 0, 0, 0] ++ [0x16, 0x10] ++ [0x1b, 0, 0, 0, 0] ++
    [0x07, 0x10, 0xf9, 0xff, 0xff, 0xff] ++ [0x16, 0x10] ++
    [0x07, 0x10, 2, 0, 0, 0] ++ [0x16, 0x10] ++ [0x1b, 0, 0, 0, 0] ++
    [0x07, 0x10, 9, 0, 0, 0] ++ [0x16, 0x10] ++ [0x1b, 0, 0, 0, 0]

theorem run_prints_printsTwice :
    let env := Environment.printing fun _ (heard : Nat) => heard + 1
    let e : Engine (List UInt8 × Nat) := create .standard ([], 0)
    let outcome := e.execute env 100 printsTwice
    let start := (e.atStart env printsTwice).machine
    let byte := start.later env 5
    let number := start.later env 11
    let unknown := start.later env 15
    byte.guest.calls? = some 1 ∧ byte.guest.printed = [0x48] ∧
      (byte.step env).1 = .ok .continues ∧
      number.guest.calls? = some 2 ∧ Console.WritesNumber 0xfffffff9 number.guest.printed ∧
      unknown.guest.calls? = some 9 ∧ unknown.guest.printed = [] ∧
      outcome.1 = .faulted (.unhandledSyscall 9) ∧
      outcome.2.machine.guest = unknown.guest ∧ outcome.2.executed = 16 ∧
      outcome.2.machine.world.1 = [0x48, 0x2d, 0x37, 0x0a] := by
  intro env e outcome start byte number unknown
  obtain ⟨hsteps, hruns⟩ := run_prints fun _ (heard : Nat) => heard + 1
  have hbyte : byte.guest.calls? = some 1 := by decide +kernel
  have hletter : byte.guest.memory.readWord (byte.guest.get .sp + 8) = .ok 0x48 :=
    Memory.readWord_eq_ok.mpr (by decide +kernel)
  have hback : byte.guest.memory.readWord (byte.guest.get .sp) = .ok 26 :=
    Memory.readWord_eq_ok.mpr (by decide +kernel)
  have hnumber : number.guest.calls? = some 2 := by decide +kernel
  have hminus : number.guest.memory.readWord (number.guest.get .sp + 8) = .ok 0xfffffff9 :=
    Memory.readWord_eq_ok.mpr (by decide +kernel)
  have hunknown : unknown.guest.calls? = some 9 := by decide +kernel
  obtain ⟨hnothing, hfault, hguest⟩ := (hsteps unknown).unknown hunknown (by decide) (by decide)
  have hexecuted : outcome.2.executed = 16 := by decide +kernel
  obtain ⟨hwritten, -, hfails⟩ := hruns e 100 printsTwice
  have hmade : unknown ∈ start.visited env outcome.2.executed := by
    rw [hexecuted]
    exact later_mem_visited (by decide) start
  obtain ⟨hresult, hmachine⟩ := hfails unknown hmade _ hfault
  refine ⟨hbyte, (hsteps byte).byte hbyte hletter,
    ((hsteps byte).returned hbyte (Or.inl rfl) hletter hback).1, hnumber,
    (hsteps number).number hnumber hminus, hunknown, hnothing, hresult,
    (congrArg Machine.guest hmachine).trans hguest, hexecuted, ?_⟩
  rw [hwritten]
  decide +kernel

end Engine
end RegisterMachine

