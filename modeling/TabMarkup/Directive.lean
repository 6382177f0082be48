/-!
# Directives

A directive asks for a value when a document is rendered. It is written in two ways: between
double braces in a source, and between `<%=` and `%>` in a composed document. The text between
the marks is the same in both.
-/

namespace TabMarkup

/-- A value that a document asks for. -/
inductive Directive where
  /-- The value bound to a name. -/
  | value (name : String)
  /-- The answer of a method of the object bound to a name. -/
  | call (object method : String)
  /-- The answer of a method of the accessor at a path. -/
  | staticCall (path method : String)
  /-- A property of the accessor at a path. -/
  | staticProperty (path property : String)
  deriving Repr, DecidableEq

namespace Directive

/-- The text of a directive between its marks. -/
def body : Directive → List Char
  | .value name => '$' :: name.toList
  | .call object method => '$' :: object.toList ++ ['-', '>'] ++ method.toList ++ ['(', ')']
  | .staticCall path method => path.toList ++ [':', ':'] ++ method.toList ++ ['(', ')']
  | .staticProperty path property => path.toList ++ [':', ':', '$'] ++ property.toList

/-- A directive in a source, up to its closing braces. -/
def opening (d : Directive) : List Char :=
  ['\x7b', '\x7b'] ++ d.body

/-- A directive in a composed document. -/
def composed (d : Directive) : List Char :=
  ['<', '%', '=', ' '] ++ d.body ++ [' ', '%', '>']

end Directive

end TabMarkup
