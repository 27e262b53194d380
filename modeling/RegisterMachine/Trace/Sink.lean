/-
Where the lines of a trace go.

A sink takes whole lines.  One with a capacity refuses everything once it is full; from
the first refusal on nothing more is offered to it, and the refusal is reported at the
end.  What it has taken is then exactly the front of what an unlimited sink would have
taken.
-/
import RegisterMachine.Trace.Printer

namespace RegisterMachine.Trace

/-- A destination for lines. -/
structure Sink where
  /-- The number of lines it takes before it refuses. -/
  capacity? : Option Nat
  /-- The lines it has taken. -/
  lines : Array String
  /-- Whether it has refused a line. -/
  refused : Bool
  deriving DecidableEq

namespace Sink

/-- A sink that is empty. -/
def empty (capacity? : Option Nat) : Sink := ⟨capacity?, #[], false⟩

/-- Whether the sink has taken all that it takes. -/
def isFull (sink : Sink) : Bool :=
  sink.capacity?.any (· ≤ sink.lines.size)

/-- Offers a line to the sink. -/
def push (sink : Sink) (line : String) : Sink :=
  if sink.refused then sink
  else if sink.isFull then { sink with refused := true }
  else { sink with lines := sink.lines.push line }

/-- Offers lines to the sink, one after another. -/
def pushAll (sink : Sink) (lines : List String) : Sink :=
  lines.foldl push sink

/-- The lines that a sink has taken as text; every line ends in a line break. -/
def text (sink : Sink) : String :=
  String.join (sink.lines.toList.map (· ++ "\n"))

end Sink

/-- A printer with the sink that its lines go to. -/
structure Log where
  printer : Printer
  sink : Sink
  deriving DecidableEq

namespace Log

/-- A log without entries. -/
def new (verbosity : Verbosity) (palette : Palette) (capacity? : Option Nat) : Log :=
  ⟨.new verbosity palette, .empty capacity?⟩

/-- Prints an event. -/
def record (event : Event) (log : Log) : Log :=
  ⟨log.printer.after event, log.sink.pushAll (log.printer.lines event)⟩

/-- The events one after another. -/
def recordAll (log : Log) (events : List Event) : Log :=
  events.foldl (fun log event => log.record event) log

end Log

end RegisterMachine.Trace
