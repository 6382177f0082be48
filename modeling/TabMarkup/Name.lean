import TabMarkup.Text.Cut

/-!
# Identifiers and paths

The names that directives are made of. A path is a list of identifiers with backslashes between
them; one more backslash may stand in front and does not change what the path names.
-/

namespace TabMarkup.Name

/-- ASCII letters, ASCII digits and `_`. -/
def isIdentifierChar (c : Char) : Bool :=
  c.isAlphanum || c == '_'

/-- One identifier character or more. -/
def isIdentifier (name : List Char) : Bool :=
  !name.isEmpty && name.all isIdentifierChar

/-- A path without the backslash that may stand in front of it. -/
def withoutRoot : List Char → List Char
  | '\\' :: path => path
  | path => path

/-- Identifiers with one backslash between each two, and at most one in front. -/
def isPath (path : List Char) : Bool :=
  (Text.splitOn '\\' (withoutRoot path)).all isIdentifier

end TabMarkup.Name
