/-
A full sink keeps the front of a trace.

A sink takes whole lines, so it cannot hold a part of one.  What stands behind it is a device
that takes characters, in portions of its own choice, and a writer that offers it every line
until nothing is left of the line, and then a line break.  `Writer.Follows` says how the two
are related, and every line keeps it: while there is room the device ends up with the line and
its break, however it has been cut, and a device with no room left refuses already the first
character.  No line has a break of its own, so the device counts lines as the sink does.

The first refusal is put aside, and from then on nothing is offered.  So there is at most one,
and it is what `finish` returns.  The sink itself is told by the lines that it has been offered,
in `Sink.Offered`; a multi-line event is no different from its lines one after another.
-/
import RegisterMachine.Proofs.Trace.Lines
import RegisterMachine.Proofs.Trace.Log

namespace RegisterMachine.Trace

/-! ### What is printed -/

namespace Printer

/-- The lines for events, one after another. -/
def linesAll (printer : Printer) : List Event → List String
  | [] => []
  | event :: events => printer.lines event ++ (printer.after event).linesAll events

theorem oneLine_of_mem_lines {printer : Printer} (hp : printer.palette.OnOneLine)
    (event : Event) : ∀ line ∈ printer.lines event, OneLine line := by
  intro line hline
  cases event with
  | halt registers =>
      obtain ⟨rest, hreport, hrest⟩ := registers.reportLines_eq
      have hmem : line ∈ registers.reportLines := hline
      rw [hreport, List.mem_cons] at hmem
      rcases hmem with rfl | hmem
      · decide
      · exact (hrest line hmem).1
  | _ => exact (plain_lines hp (by simp) line hline).oneLine

theorem oneLine_of_mem_linesAll {printer : Printer} (hp : printer.palette.OnOneLine)
    (events : List Event) : ∀ line ∈ printer.linesAll events, OneLine line := by
  induction events generalizing printer with
  | nil => simp [linesAll]
  | cons event events ih =>
      intro line hline
      rcases List.mem_append.mp hline with hfirst | hrest
      · exact oneLine_of_mem_lines hp event line hfirst
      · refine ih ?_ line hrest
        rwa [palette_after]

end Printer

theorem count_newline {lines : List String} (h : ∀ line ∈ lines, OneLine line) :
    (lines.flatMap fun line => line.toList ++ ['\n']).count '\n' = lines.length := by
  induction lines with
  | nil => rfl
  | cons line lines ih =>
      obtain ⟨hline, hrest⟩ := List.forall_mem_cons.mp h
      rw [List.flatMap_cons, List.count_append, List.count_append, ih hrest,
        List.count_eq_zero_of_not_mem hline, List.count_singleton_self, List.length_cons]
      omega

/-! ### What a sink has taken -/

namespace Sink

variable {sink : Sink}

theorem push_of_refused (h : sink.refused = true) (line : String) : sink.push line = sink :=
  if_pos h

theorem push_of_full (hopen : sink.refused = false) (hfull : sink.isFull = true)
    (line : String) : sink.push line = { sink with refused := true } := by
  rw [push, if_neg (Bool.eq_false_iff.mp hopen), if_pos hfull]

theorem push_of_room (hopen : sink.refused = false) (hroom : sink.isFull = false)
    (line : String) : sink.push line = { sink with lines := sink.lines.push line } := by
  rw [push, if_neg (Bool.eq_false_iff.mp hopen), if_neg (Bool.eq_false_iff.mp hroom)]

/-- The lines that a sink takes of those that it is offered. -/
def front (capacity? : Option Nat) (lines : List String) : List String :=
  match capacity? with
  | none => lines
  | some n => lines.take n

/-- The sink has been offered these lines since it was empty. -/
structure Offered (capacity? : Option Nat) (lines : List String) (sink : Sink) : Prop where
  capacity : sink.capacity? = capacity?
  taken : sink.lines.toList = front capacity? lines
  refused : sink.refused = true ↔ ∃ n, capacity? = some n ∧ n < lines.length

namespace Offered

variable {capacity? : Option Nat} {lines : List String} {sink : Sink}

theorem empty (capacity? : Option Nat) : Offered capacity? [] (empty capacity?) where
  capacity := rfl
  taken := by cases capacity? <;> simp [Sink.empty, front]
  refused := by simp [Sink.empty]

theorem push_unlimited (h : Offered none lines sink) (line : String) :
    Offered none (lines ++ [line]) (sink.push line) := by
  have hopen : sink.refused = false := by simpa using h.refused
  have hroom : sink.isFull = false := by rw [isFull, h.capacity, Option.any_none]
  rw [push_of_room hopen hroom]
  exact ⟨h.capacity, by rw [Array.toList_push, h.taken]; rfl, by simp [hopen]⟩

theorem push_limited {n : Nat} (h : Offered (some n) lines sink) (line : String) :
    Offered (some n) (lines ++ [line]) (sink.push line) := by
  have htaken : sink.lines.toList = lines.take n := h.taken
  have hrefused : sink.refused = true ↔ n < lines.length := by simpa using h.refused
  have hfull : sink.isFull = true ↔ n ≤ lines.length := by
    have hsize : sink.lines.size = min n lines.length := by
      rw [← Array.length_toList, htaken, List.length_take]
    rw [isFull, h.capacity, Option.any_some, decide_eq_true_eq, hsize]
    omega
  have hlength : (lines ++ [line]).length = lines.length + 1 := List.length_append
  -- There is room before line `n`, the line itself is refused, and after it nothing changes.
  rcases Nat.lt_trichotomy n lines.length with hlt | heq | hgt
  · rw [push_of_refused (hrefused.mpr hlt)]
    refine ⟨h.capacity, ?_, iff_of_true (hrefused.mpr hlt) ⟨n, rfl, by omega⟩⟩
    rw [htaken, front, List.take_append_of_le_length (Nat.le_of_lt hlt)]
  · have hopen : sink.refused = false :=
      Bool.eq_false_iff.mpr fun h => Nat.ne_of_lt (hrefused.mp h) heq
    rw [push_of_full hopen (hfull.mpr (Nat.le_of_eq heq))]
    refine ⟨h.capacity, ?_, iff_of_true rfl ⟨n, rfl, by omega⟩⟩
    rw [htaken, front, List.take_append_of_le_length (Nat.le_of_eq heq)]
  · have hopen : sink.refused = false :=
      Bool.eq_false_iff.mpr fun h => Nat.lt_asymm hgt (hrefused.mp h)
    have hroom : sink.isFull = false :=
      Bool.eq_false_iff.mpr fun h => Nat.not_lt.mpr (hfull.mp h) hgt
    rw [push_of_room hopen hroom]
    refine ⟨h.capacity, ?_, iff_of_false (Bool.eq_false_iff.mp hopen) ?_⟩
    · rw [Array.toList_push, htaken, front, List.take_of_length_le (Nat.le_of_lt hgt),
        List.take_of_length_le (by rwa [hlength])]
    · rintro ⟨n', hn', hlt⟩
      obtain rfl := Option.some.inj hn'
      omega

theorem push (h : Offered capacity? lines sink) (line : String) :
    Offered capacity? (lines ++ [line]) (sink.push line) := by
  cases capacity? with
  | none => exact h.push_unlimited line
  | some n => exact h.push_limited line

theorem pushAll (h : Offered capacity? lines sink) (more : List String) :
    Offered capacity? (lines ++ more) (sink.pushAll more) := by
  induction more generalizing lines sink with
  | nil => simpa [Sink.pushAll] using h
  | cons line more ih =>
      have hrest := ih (h.push line)
      rwa [List.append_assoc] at hrest

end Offered

end Sink

/-- A log's sink has been offered the lines for the events. -/
theorem Log.sink_recordAll (log : Log) (events : List Event) :
    (log.recordAll events).sink = log.sink.pushAll (log.printer.linesAll events) := by
  induction events generalizing log with
  | nil => rfl
  | cons event events ih =>
      have hrest := ih (log.record event)
      rw [Printer.linesAll, Sink.pushAll, List.foldl_append]
      exact hrest

/-! ### Devices -/

/-- A destination for characters.

It takes what it is offered in portions of its own choice, until it holds a number of complete
lines.  From then on it refuses everything. -/
structure Device (ε : Type) where
  /-- The number of complete lines that it takes. -/
  capacity? : Option Nat
  /-- How many characters it takes at most of an offer beside the first one, by the number of
  offers before. -/
  portion : Nat → Nat
  /-- Why it refuses an offer, by the number of offers before. -/
  reason : Nat → ε
  /-- What flushing it gives. -/
  flush : Except ε Unit
  /-- The number of offers so far. -/
  offers : Nat
  /-- All that it has taken. -/
  taken : List Char
  /-- The reasons that it has given. -/
  refusals : List ε

namespace Device

variable {ε : Type}

/-- A device that has not been offered anything. -/
def new (capacity? : Option Nat) (portion : Nat → Nat) (reason : Nat → ε)
    (flush : Except ε Unit) : Device ε :=
  ⟨capacity?, portion, reason, flush, 0, [], []⟩

def completeLines (d : Device ε) : Nat :=
  d.taken.count '\n'

def isFull (d : Device ε) : Bool :=
  d.capacity?.any (· ≤ d.completeLines)

/-- The device after it has taken a portion. -/
def take (d : Device ε) (portion : List Char) : Device ε :=
  { d with offers := d.offers + 1, taken := d.taken ++ portion }

/-- The device after it has refused an offer. -/
def refuse (d : Device ε) : Device ε :=
  { d with offers := d.offers + 1, refusals := d.refusals ++ [d.reason d.offers] }

/-- Offers a text: the device refuses it, or takes a portion and leaves the rest. -/
def offer (d : Device ε) (text : List Char) : Except ε (List Char) × Device ε :=
  if d.isFull then (.error (d.reason d.offers), d.refuse)
  else
    let size := d.portion d.offers + 1
    (.ok (text.drop size), d.take (text.take size))

theorem length_lt_of_offer {d d' : Device ε} {text rest : List Char} (hne : text ≠ [])
    (h : d.offer text = (.ok rest, d')) : rest.length < text.length := by
  unfold offer at h
  split at h
  · simp at h
  · obtain rfl := Except.ok.inj (Prod.mk.inj h).1
    have hpos := List.length_pos_iff.mpr hne
    rw [List.length_drop]
    omega

/-- Offers a text until nothing is left of it, or an offer is refused. -/
def writeAll (d : Device ε) (text : List Char) : Except ε Unit × Device ε :=
  if _hne : text = [] then (.ok (), d)
  else
    match _h : d.offer text with
    | (.error e, d) => (.error e, d)
    | (.ok rest, d) => d.writeAll rest
termination_by text.length
decreasing_by exact length_lt_of_offer _hne _h

/-- Writes a text and then a line break. -/
def writeLine (d : Device ε) (line : String) : Except ε Unit × Device ε :=
  match d.writeAll line.toList with
  | (.ok (), d) => d.writeAll ['\n']
  | (.error e, d) => (.error e, d)

theorem writeAll_nil (d : Device ε) : d.writeAll [] = (.ok (), d) := by
  rw [writeAll, dif_pos rfl]

theorem writeAll_of_taken {d d' : Device ε} {text rest : List Char} (hne : text ≠ [])
    (h : d.offer text = (.ok rest, d')) : d.writeAll text = d'.writeAll rest := by
  rw [writeAll, dif_neg hne]
  split
  · rename_i hrefused
    rw [h] at hrefused
    simp at hrefused
  · rename_i htaken
    rw [h] at htaken
    obtain ⟨hrest, rfl⟩ := Prod.mk.inj htaken
    rw [Except.ok.inj hrest]

theorem writeAll_of_refused {d d' : Device ε} {text : List Char} {e : ε} (hne : text ≠ [])
    (h : d.offer text = (.error e, d')) : d.writeAll text = (.error e, d') := by
  rw [writeAll, dif_neg hne]
  split
  · rename_i hrefused
    rw [h] at hrefused
    obtain ⟨herror, rfl⟩ := Prod.mk.inj hrefused
    rw [Except.error.inj herror]
  · rename_i htaken
    rw [h] at htaken
    simp at htaken

theorem isFull_take {d : Device ε} {text : List Char} (hline : '\n' ∉ text) :
    (d.take text).isFull = d.isFull := by
  have hcount : (d.take text).completeLines = d.completeLines := by
    rw [completeLines, take, List.count_append, List.count_eq_zero_of_not_mem hline]
    rfl
  rw [isFull, hcount]
  rfl

theorem offer_of_room {d : Device ε} (hroom : d.isFull = false) (text : List Char) :
    ∃ front rest, front ++ rest = text ∧ d.offer text = (.ok rest, d.take front) :=
  ⟨_, _, List.take_append_drop (d.portion d.offers + 1) text,
    if_neg (Bool.eq_false_iff.mp hroom)⟩

/-- **While there is room for a line, its characters are taken in whatever portions.** -/
theorem writeAll_of_room {d : Device ε} {text : List Char} (hroom : d.isFull = false)
    (hline : '\n' ∉ text) :
    ∃ offers, d.writeAll text = (.ok (), { d with offers, taken := d.taken ++ text }) := by
  induction hlength : text.length using Nat.strong_induction_on generalizing d text with
  | _ length ih =>
      subst hlength
      by_cases hne : text = []
      · subst hne
        exact ⟨d.offers, by rw [writeAll_nil, List.append_nil]⟩
      · obtain ⟨front, rest, rfl, hoffer⟩ := offer_of_room hroom text
        rw [List.mem_append, not_or] at hline
        obtain ⟨offers, hrest⟩ := ih _ (length_lt_of_offer hne hoffer)
          ((isFull_take hline.1).trans hroom) hline.2 rfl
        refine ⟨offers, ?_⟩
        rw [writeAll_of_taken hne hoffer, hrest, take]
        simp only [List.append_assoc]

theorem writeAll_newline_of_room {d : Device ε} (hroom : d.isFull = false) :
    d.writeAll ['\n'] = (.ok (), d.take ['\n']) := by
  have hoffer : d.offer ['\n'] = (.ok [], d.take ['\n']) := by
    simp [offer, hroom]
  rw [writeAll_of_taken (List.cons_ne_nil _ _) hoffer, writeAll_nil]

/-- A device that is full refuses a text at its first character. -/
theorem writeAll_of_full {d : Device ε} {text : List Char} (hfull : d.isFull = true)
    (hne : text ≠ []) : d.writeAll text = (.error (d.reason d.offers), d.refuse) :=
  writeAll_of_refused hne (if_pos hfull)

theorem writeLine_of_room {d : Device ε} {line : String} (hroom : d.isFull = false)
    (hline : OneLine line) :
    ∃ offers, d.writeLine line
      = (.ok (), { d with offers, taken := d.taken ++ (line.toList ++ ['\n']) }) := by
  obtain ⟨offers, htext⟩ := writeAll_of_room hroom hline
  have hstill : { d with offers, taken := d.taken ++ line.toList }.isFull = false :=
    (isFull_take hline).trans hroom
  refine ⟨offers + 1, ?_⟩
  rw [writeLine, htext]
  simp only [writeAll_newline_of_room hstill, take, List.append_assoc]

theorem writeLine_of_full {d : Device ε} (hfull : d.isFull = true) (line : String) :
    d.writeLine line = (.error (d.reason d.offers), d.refuse) := by
  unfold writeLine
  by_cases hne : line.toList = []
  · rw [hne, writeAll_nil]
    exact writeAll_of_full hfull (List.cons_ne_nil _ _)
  · rw [writeAll_of_full hfull hne]

end Device

/-! ### Writers -/

/-- A printer whose lines are written to a device. -/
structure Writer (ε : Type) where
  printer : Printer
  device : Device ε
  /-- Why a line could not be written.  Once there is a reason, no line is written. -/
  failure? : Option ε

namespace Writer

variable {ε : Type}

def new (verbosity : Verbosity) (palette : Palette) (device : Device ε) : Writer ε :=
  ⟨.new verbosity palette, device, none⟩

/-- Writes a line, unless writing has failed before. -/
def push (w : Writer ε) (line : String) : Writer ε :=
  match w.failure? with
  | some _ => w
  | none =>
    match w.device.writeLine line with
    | (.ok (), device) => { w with device }
    | (.error e, device) => { w with device, failure? := some e }

theorem push_of_failure {w : Writer ε} {e : ε} (h : w.failure? = some e) (line : String) :
    w.push line = w := by
  rw [push, h]

theorem push_of_full {w : Writer ε} (hopen : w.failure? = none) (hfull : w.device.isFull = true)
    (line : String) :
    w.push line = { w with
      device := w.device.refuse, failure? := some (w.device.reason w.device.offers) } := by
  rw [push, hopen]
  dsimp only
  rw [Device.writeLine_of_full hfull]

theorem push_of_room {w : Writer ε} (hopen : w.failure? = none)
    (hroom : w.device.isFull = false) {line : String} (hline : OneLine line) :
    ∃ offers, w.push line
      = { w with device := { w.device with
          offers, taken := w.device.taken ++ (line.toList ++ ['\n']) } } := by
  obtain ⟨offers, hwritten⟩ := Device.writeLine_of_room hroom hline
  refine ⟨offers, ?_⟩
  rw [push, hopen]
  dsimp only
  rw [hwritten]

/-- Writes the lines for an event. -/
def record (w : Writer ε) (event : Event) : Writer ε :=
  { (w.printer.lines event).foldl push w with printer := w.printer.after event }

/-- The events one after another. -/
def recordAll (w : Writer ε) (events : List Event) : Writer ε :=
  events.foldl record w

/-- Flushes the device and hands it back, or tells why a line could not be written. -/
def finish (w : Writer ε) : Except ε (Device ε) :=
  match w.failure? with
  | some e => .error e
  | none => do
    w.device.flush
    return w.device

/-- The writer prints like the log, its device holds what the sink has taken, and it has put a
reason aside exactly if the sink has refused a line. -/
structure Follows (w : Writer ε) (log : Log) : Prop where
  printer : w.printer = log.printer
  capacity : w.device.capacity? = log.sink.capacity?
  taken : w.device.taken = log.sink.lines.toList.flatMap fun line => line.toList ++ ['\n']
  oneLine : ∀ line ∈ log.sink.lines.toList, OneLine line
  refused : log.sink.refused = w.failure?.isSome
  refusals : w.device.refusals = w.failure?.toList
  flush : w.device.flush = .ok ()

namespace Follows

variable {w : Writer ε} {log : Log}

theorem isFull (h : Follows w log) : w.device.isFull = log.sink.isFull := by
  rw [Device.isFull, Device.completeLines, h.capacity, h.taken, count_newline h.oneLine]
  rfl

/-- **A line is written if the sink takes it, and not if the sink refuses it.** -/
theorem push (h : Follows w log) {line : String} (hline : OneLine line) :
    Follows (w.push line) { log with sink := log.sink.push line } := by
  cases hfailure : w.failure? with
  | some e =>
      have hrefused : log.sink.refused = true := by rw [h.refused, hfailure]; rfl
      rw [push_of_failure hfailure, Sink.push_of_refused hrefused]
      exact h
  | none =>
      have hopen : log.sink.refused = false := by rw [h.refused, hfailure]; rfl
      have hrefusals : w.device.refusals = [] := by rw [h.refusals, hfailure]; rfl
      cases hfull : w.device.isFull with
      | true =>
          rw [push_of_full hfailure hfull, Sink.push_of_full hopen (h.isFull ▸ hfull)]
          exact { h with
            refused := rfl
            refusals := by rw [Device.refuse, hrefusals]; rfl }
      | false =>
          obtain ⟨offers, hpush⟩ := push_of_room hfailure hfull hline
          rw [hpush, Sink.push_of_room hopen (h.isFull ▸ hfull)]
          exact { h with
            taken := by simp [h.taken]
            oneLine := by
              intro l hl
              rcases Array.mem_push.mp (Array.mem_toList_iff.mp hl) with hmem | rfl
              · exact h.oneLine l (Array.mem_toList_iff.mpr hmem)
              · exact hline }

theorem pushAll (h : Follows w log) {lines : List String}
    (hlines : ∀ line ∈ lines, OneLine line) :
    Follows (lines.foldl Writer.push w) { log with sink := log.sink.pushAll lines } := by
  induction lines generalizing w log with
  | nil => exact h
  | cons line lines ih =>
      obtain ⟨hline, hrest⟩ := List.forall_mem_cons.mp hlines
      exact ih (h.push hline) hrest

theorem record (h : Follows w log) (hp : log.printer.palette.OnOneLine) (event : Event) :
    Follows (w.record event) (log.record event) := by
  have hpushed := h.pushAll (Printer.oneLine_of_mem_lines hp event)
  have hrecord : w.record event = { (log.printer.lines event).foldl Writer.push w with
      printer := log.printer.after event } := by
    rw [Writer.record, h.printer]
  rw [hrecord]
  exact { hpushed with printer := rfl }

theorem recordAll (h : Follows w log) (hp : log.printer.palette.OnOneLine)
    (events : List Event) : Follows (w.recordAll events) (log.recordAll events) := by
  induction events generalizing w log with
  | nil => exact h
  | cons event events ih =>
      refine ih (h.record hp event) ?_
      show (log.printer.after event).palette.OnOneLine
      rwa [Printer.palette_after]

theorem finish_eq_error_iff (h : Follows w log) {e : ε} :
    w.finish = .error e ↔ w.failure? = some e := by
  unfold finish
  cases w.failure? with
  | some e' => simp
  | none =>
      rw [h.flush]
      simp [bind, Except.bind, pure, Except.pure]

theorem finish_of_open (h : Follows w log) (hopen : log.sink.refused = false) :
    w.finish = .ok w.device := by
  rw [h.refused, Option.isSome_eq_false_iff, Option.isNone_iff_eq_none] at hopen
  rw [finish, hopen]
  simp only [h.flush]
  rfl

end Follows

end Writer

/-- **A full sink keeps the front of a trace.**

Let a printer of any verbosity, in colours or not, be told any events.  The lines that it gives
have no line breaks of their own, and a sink without a limit takes them all.  A sink that takes
`n` lines ends up with the first `n` of them, which are all if there are not more, and it has
refused a line exactly if there are more.

What is written to a device that takes characters, in whatever portions, is the text of the
lines that such a sink takes: no part of another line and no line behind it.  If flushing the
device succeeds, `finish` returns an error exactly if there are more than `n` lines, and this is
the first error that the device has given, and its only one; otherwise it hands the device
back. -/
theorem full_sink_keeps_front {ε : Type} (verbosity : Verbosity) (colored : Bool)
    (events : List Event) (n : Nat) (portion : Nat → Nat) (reason : Nat → ε)
    {flush : Except ε Unit} (hflush : flush = .ok ()) :
    let palette := Palette.ofBool colored
    let produced := (Printer.new verbosity palette).linesAll events
    let log (capacity? : Option Nat) := (Log.new verbosity palette capacity?).recordAll events
    let writer (capacity? : Option Nat) :=
      (Writer.new verbosity palette (.new capacity? portion reason flush)).recordAll events
    (∀ line ∈ produced, OneLine line) ∧
      ((log none).sink.lines.toList = produced ∧ (log none).sink.refused = false) ∧
      ((log (some n)).sink.lines.toList = produced.take n ∧
        ((log (some n)).sink.refused = true ↔ n < produced.length)) ∧
      (∀ capacity?, (writer capacity?).device.taken = (log capacity?).sink.text.toList) ∧
      ((∃ e, (writer (some n)).finish = .error e) ↔ n < produced.length) ∧
      (∀ e, (writer (some n)).finish = .error e → (writer (some n)).device.refusals = [e]) ∧
      (produced.length ≤ n → (writer (some n)).finish = .ok (writer (some n)).device) := by
  intro palette produced log writer
  have hp : palette.OnOneLine := Palette.onOneLine_ofBool colored
  have hoffered : ∀ capacity?, Sink.Offered capacity? produced (log capacity?).sink := by
    intro capacity?
    have hall := (Sink.Offered.empty capacity?).pushAll produced
    rw [List.nil_append] at hall
    rw [Log.sink_recordAll]
    exact hall
  have hfollows : ∀ capacity?, (writer capacity?).Follows (log capacity?) := by
    intro capacity?
    refine Writer.Follows.recordAll ?_ hp events
    exact ⟨rfl, rfl, rfl, by simp [Log.new, Sink.empty], rfl, rfl, hflush⟩
  have hrefused : (log (some n)).sink.refused = true ↔ n < produced.length := by
    simpa using (hoffered (some n)).refused
  refine ⟨Printer.oneLine_of_mem_linesAll hp events, ⟨(hoffered none).taken, ?_⟩,
    ⟨(hoffered (some n)).taken, hrefused⟩, fun capacity? => ?_, ?_, fun e he => ?_, fun hfits => ?_⟩
  · simpa using (hoffered none).refused
  · rw [(hfollows capacity?).taken, Sink.text, Text.toList_join_lines _ fun line => line,
      List.flatMap_map]
  · rw [← hrefused, (hfollows (some n)).refused, Option.isSome_iff_exists]
    exact exists_congr fun e => (hfollows (some n)).finish_eq_error_iff
  · rw [(hfollows (some n)).refusals, (hfollows (some n)).finish_eq_error_iff.mp he]
    rfl
  · refine (hfollows (some n)).finish_of_open (Bool.eq_false_iff.mpr fun h => ?_)
    exact Nat.not_lt.mpr hfits (hrefused.mp h)

/-- The events around an instruction that sets a register, and the end of the run. -/
def setsRegister : List Event :=
  let before := RegisterFile.zero.set .pc 5
  let after := (before.set .sp 7).set .pc 11
  [.instruction 5 [0x07, 0xe0, 7, 0, 0, 0] (.mov .sp (.imm 7)) before, .retired after, .halt after]

/-- A device that takes up to three characters at a time and has room for two lines. -/
def twoLineDevice : Device Nat :=
  .new (some 2) (· % 3) id (.ok ())

/-- The second of the two changed registers is one line too many. -/
theorem full_sink_keeps_front_setsRegister :
    let writer := (Writer.new .allChanges (.ofBool false) twoLineDevice).recordAll setsRegister
    twoLineDevice.flush = .ok () ∧
      writer.device.taken = ("  0x00000005  07 e0 07 00 00 00  mov sp, 7\n" ++
        "                                 sp = 0x00000007\n").toList ∧
      ∃ e, writer.finish = .error e ∧ writer.device.refusals = [e] := by
  intro writer
  obtain ⟨-, -, ⟨hfront, -⟩, htaken, herror, hfirst, -⟩ :=
    full_sink_keeps_front .allChanges false setsRegister 2 (· % 3) id
      (show twoLineDevice.flush = .ok () from rfl)
  have hlines : ((Printer.new .allChanges (.ofBool false)).linesAll setsRegister).take 2
      = ["  0x00000005  07 e0 07 00 00 00  mov sp, 7",
        "                                 sp = 0x00000007"] := by decide +kernel
  have hmore : 2 < ((Printer.new .allChanges (.ofBool false)).linesAll setsRegister).length := by
    decide +kernel
  obtain ⟨e, he⟩ := herror.mpr hmore
  refine ⟨rfl, ?_, e, he, hfirst e he⟩
  rw [show writer.device.taken = _ from htaken (some 2), Sink.text, hfront, hlines]
  rfl

end RegisterMachine.Trace
