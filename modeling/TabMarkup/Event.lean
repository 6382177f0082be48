import TabMarkup.ParseError

/-!
# Events

What is worth a log entry while documents are compiled, rendered and cached.
-/

namespace TabMarkup

/-- Something that happened. Depths count open levels: of an opened tag before it opens, of a
closed tag before it closes. -/
inductive Event where
  | opened (tag : String) (depth : Nat)
  | closed (tag : String) (depth : Nat)
  | unknownTag (tag : String) (line : Nat)
  | parseFinished (fragments : Nat)
  | parseFailed (error : ParseError)
  | compilingFile (path : String) (size : Nat)
  | rendered (directives : Nat)
  | cacheHit (view : String)
  | compilingView (view cache : String)
  deriving Repr, DecidableEq

namespace Event

/-- How much an event matters. -/
inductive Level where
  | trace
  | debug
  | info
  | warn
  deriving Repr, DecidableEq

/-- A detail of an event. -/
inductive Detail where
  | number (n : Nat)
  | text (s : String)
  deriving Repr, DecidableEq

/-- The name of a level in a log. -/
def Level.name : Level → String
  | .trace => "TRACE"
  | .debug => "DEBUG"
  | .info => "INFO"
  | .warn => "WARN"

/-- How much each event matters. -/
def level : Event → Level
  | .opened .. | .closed .. => .trace
  | .unknownTag .. => .warn
  | .compilingView .. => .info
  | .parseFinished _ | .parseFailed _ | .compilingFile .. | .rendered _ | .cacheHit _ => .debug

/-- The message of an event. -/
def message : Event → String
  | .opened .. => "open"
  | .closed .. => "close"
  | .unknownTag .. => "unknown html tag"
  | .parseFinished _ => "parse finished"
  | .parseFailed _ => "parse failed"
  | .compilingFile .. | .compilingView .. => "compiling view"
  | .rendered _ => "rendered"
  | .cacheHit _ => "cache hit"

/-- The named details of an event. -/
def details : Event → List (String × Detail)
  | .opened tag depth | .closed tag depth => [("tag", .text tag), ("depth", .number depth)]
  | .unknownTag tag line => [("tag", .text tag), ("line", .number line)]
  | .parseFinished fragments => [("fragments", .number fragments)]
  | .parseFailed error =>
    [("line", .number error.line), ("code", .text error.fault.summary),
      ("error", .text error.fault.message)]
  | .compilingFile path size => [("path", .text path), ("size", .number size)]
  | .rendered directives => [("directives", .number directives)]
  | .cacheHit view => [("view", .text view)]
  | .compilingView view cache => [("view", .text view), ("cache", .text cache)]

end Event

end TabMarkup
