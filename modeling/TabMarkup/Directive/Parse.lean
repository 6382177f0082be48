import TabMarkup.Directive
import TabMarkup.Name
import TabMarkup.Text.Blank

/-!
# Directives in composed documents

The directive that a text between `<%=` and `%>` stands for. White space around it does not
count; a text that is none of the four forms has no directive.
-/

namespace TabMarkup.Directive

open Name Text

/-- The directive of a text that begins with a dollar sign, from what follows it. -/
def ofBound? (text : List Char) : Option Directive :=
  match cut? ['-', '>'] text with
  | none => if isIdentifier text then some (.value (String.ofList text)) else none
  | some (object, member) => do
    let method ← stripEnd? ['(', ')'] member
    if isIdentifier object && isIdentifier method then
      some (.call (String.ofList object) (String.ofList method))
    else none

/-- The directive of a text that begins with a path. -/
def ofStatic? (text : List Char) : Option Directive := do
  let (path, member) ← cut? [':', ':'] text
  match member with
  | '$' :: property =>
    if isPath path && isIdentifier property then
      some (.staticProperty (String.ofList path) (String.ofList property))
    else none
  | _ =>
    let method ← stripEnd? ['(', ')'] member
    if isPath path && isIdentifier method then
      some (.staticCall (String.ofList path) (String.ofList method))
    else none

/-- The directive of a text, if it has the form of one. -/
def ofText? (text : List Char) : Option Directive :=
  match trim text with
  | '$' :: rest => ofBound? rest
  | body => ofStatic? body

end TabMarkup.Directive
