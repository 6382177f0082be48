import TabMarkup.Line.Read
import TabMarkup.Outline

/-!
# Compiling sources

A source is read line by line, and its lines are put into an outline. Where a line cannot be
read, nothing but the error and the events up to it is left.
-/

namespace TabMarkup

/-- What came of a source: its fragments or its first error, and the events on the way. -/
structure Compilation where
  result : Except ParseError FragmentQueue
  events : List Event

namespace Compilation

/-- The outcome of lines that were read. -/
def ofReading (reading : Line.Reading) : Compilation :=
  let outline := Outline.ofLines reading.lines
  match reading.stop? with
  | none =>
    { result := .ok outline.finish.fragments, events := outline.finish.events.toList }
  | some stop =>
    { result := .error stop.error, events := (outline.abandon stop.reached).events.toList }

/-- Parses a source whose size may be known. -/
def parse (source : Source) (size? : Option Nat := none) : Compilation :=
  ofReading (Line.readAll (Scanner.ofSource source size?))

/-- The event that ends a compilation. -/
def ending : Except ParseError FragmentQueue → Event
  | .ok fragments => .parseFinished fragments.size
  | .error error => .parseFailed error

/-- Parses a source and notes how it ended. -/
def run (source : Source) (size? : Option Nat := none) : Compilation :=
  let c := parse source size?
  { c with events := c.events ++ [ending c.result] }

end Compilation

/-- Compiles a source of unknown size. -/
def compile (source : Source) : Compilation :=
  Compilation.run source

/-- A compiler keeps the fragments of the last source that it compiled, if it could. -/
structure Compiler where
  output? : Option FragmentQueue := none
  deriving Repr, DecidableEq

namespace Compiler

/-- The compiler after a compilation: an error leaves it without output. -/
def take (_ : Compiler) (c : Compilation) : Compiler :=
  { output? := c.result.toOption }

/-- The composed document of the last compilation. -/
def compose (c : Compiler) : Option String :=
  c.output?.map FragmentQueue.compose

end Compiler

end TabMarkup
