import TabMarkup.Directive
import TabMarkup.Text.Blank

/-!
# Fragments

The pieces that a document is composed of, and how each is written. Text that comes from a
source has every `<%` doubled up to `<%%`, so that only directives begin with a live mark.
-/

namespace TabMarkup

/-- A piece of a document. -/
inductive Fragment where
  | openTag (name : String)
  | closeTag (name : String)
  /-- A tag whose attributes follow, then a raw `>`. -/
  | halfOpenTag (name : String)
  | rawText (text : String)
  /-- A name with its quoted value, as the source has them. -/
  | attr (text : String)
  | directive (d : Directive)
  deriving Repr, DecidableEq

namespace Fragment

/-- A text with `<%%` for every `<%`. -/
def escape : List Char → List Char
  | '<' :: '%' :: text => '<' :: '%' :: '%' :: escape text
  | c :: text => c :: escape text
  | [] => []

/-- A fragment as it stands in a composed document. -/
def written : Fragment → List Char
  | .openTag name => '<' :: name.toList ++ ['>']
  | .closeTag name => '<' :: '/' :: name.toList ++ ['>']
  | .halfOpenTag name => '<' :: name.toList
  | .rawText text => escape text.toList
  | .attr text => ' ' :: escape (Text.trim text.toList)
  | .directive d => d.composed

/-- A fragment as text. -/
def text (f : Fragment) : String :=
  String.ofList f.written

/-- Whether a fragment asks for a value. -/
def isDirective : Fragment → Bool
  | .directive _ => true
  | _ => false

end Fragment

end TabMarkup
