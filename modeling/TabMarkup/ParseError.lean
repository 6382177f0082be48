import TabMarkup.Pattern

/-!
# Parse errors

Reading a source stops at its first error. An error says what went wrong and on which line.
-/

namespace TabMarkup

/-- What can be wrong with a source. -/
inductive Fault where
  /-- A required byte is another one. -/
  | unexpectedByte (expected : Pattern) (found : UInt8)
  /-- A required byte is missing. -/
  | unexpectedEnd (expected : Pattern)
  /-- Two braces are followed by no known embedding. -/
  | malformedEmbedding
  /-- A complete embedding is not closed by two braces; its text up to there. -/
  | unclosedEmbedding (embedding : String)
  /-- The source could not be opened or read. -/
  | unreadable (reason : String)
  deriving Repr, DecidableEq

namespace Fault

/-- The number of the kind of fault. -/
def code : Fault → Nat
  | .unexpectedByte .. => 0
  | .unexpectedEnd _ => 1
  | .malformedEmbedding => 2
  | .unclosedEmbedding _ => 3
  | .unreadable _ => 4

/-- The kind of fault in a few words. -/
def summary : Fault → String
  | .unexpectedByte .. => "unexpected byte"
  | .unexpectedEnd _ => "unexpected end of input"
  | .malformedEmbedding => "unknown variable/function embedding"
  | .unclosedEmbedding _ => "missing '\x7d\x7d' after embedding"
  | .unreadable _ => "i/o failure"

/-- The fault with its details. -/
def message : Fault → String
  | .unexpectedByte expected found =>
    "expected " ++ expected.describe ++ ", found " ++ Quoted.byte found
  | .unexpectedEnd expected => "expected " ++ expected.describe ++ ", found end of input"
  | .malformedEmbedding => "unknown variable/function embedding"
  | .unclosedEmbedding embedding => "missing '\x7d\x7d' after " ++ embedding
  | .unreadable reason => "i/o failure: " ++ reason

end Fault

/-- A fault and the line, from 1, on which it was met. -/
structure ParseError where
  fault : Fault
  line : Nat
  deriving Repr, DecidableEq

/-- The full text of an error. -/
def ParseError.message (e : ParseError) : String :=
  "line " ++ toString e.line ++ ": " ++ e.fault.message

end TabMarkup
