import TabMarkup.Fragment
import TabMarkup.ParseError

/-!
# Lines

What a line of a source says, the fragments that it gives, and how far the reading of a line
came when it stopped.
-/

namespace TabMarkup

/-- One of the things that follow a tag name, each after a space. -/
inductive Item where
  /-- A name with its quoted value, as the source has them. -/
  | attr (text : String)
  | directive (d : Directive)
  deriving Repr, DecidableEq

/-- What follows a tag name on its line. -/
inductive TagBody where
  | bare
  /-- Literal text, after a bar. -/
  | text (content : String)
  | items (entries : List Item)
  deriving Repr, DecidableEq

/-- A line of a source. -/
inductive Line where
  /-- Tabs only. -/
  | blank
  | directive (tabs : Nat) (d : Directive)
  /-- A tag; `number` is the number of the line. -/
  | tag (tabs number : Nat) (name : String) (body : TagBody)
  deriving Repr, DecidableEq

/-- The fragments of an item. -/
def Item.fragments : Item → List Fragment
  | .attr text => [.attr text]
  | .directive d => [.rawText " ", .directive d]

namespace TagBody

/-- The fragment that opens a tag with this body. -/
def opening (name : String) : TagBody → Fragment
  | .bare | .text _ => .openTag name
  | .items _ => .halfOpenTag name

/-- The fragments between the opening of a tag and its children. -/
def fragments : TagBody → List Fragment
  | .bare => []
  | .text content => [.rawText content]
  | .items entries => entries.flatMap Item.fragments ++ [.rawText ">"]

end TagBody

namespace Line

/-- How much of a line was known when the reading of it stopped. -/
inductive Reached where
  /-- Not even its indentation. -/
  | margin
  /-- Its indentation. -/
  | indented (tabs : Nat)
  /-- Its tag, but not what belongs to the tag. -/
  | opened (tabs number : Nat) (name : String)
  deriving Repr, DecidableEq

/-- An error inside a line. -/
structure Stop where
  error : ParseError
  reached : Reached
  deriving Repr, DecidableEq

end Line

end TabMarkup
