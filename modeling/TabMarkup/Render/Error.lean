/-!
# Render errors

Rendering stops at the first directive that cannot be evaluated.
-/

namespace TabMarkup

/-- Why a document cannot be rendered. -/
inductive RenderError where
  /-- The mark at this byte opens a directive that is never closed. -/
  | unclosedDirective (offset : Nat)
  | malformedDirective (text : String)
  | unboundName (name : String)
  | notValue (name : String)
  | notObject (name : String)
  | unknownMethod (object method : String)
  | unknownStatic (path : String)
  | unknownMember (path member : String)
  deriving Repr, DecidableEq

/-- The text of a render error. -/
def RenderError.message : RenderError → String
  | .unclosedDirective offset => "directive at byte " ++ toString offset ++ " is never closed"
  | .malformedDirective text => "malformed directive `" ++ text ++ "`"
  | .unboundName name => "no binding named `" ++ name ++ "`"
  | .notValue name => "`" ++ name ++ "` is bound to an object, not a value"
  | .notObject name => "`" ++ name ++ "` is bound to a value, not an object"
  | .unknownMethod object method => "`" ++ object ++ "` has no method `" ++ method ++ "`"
  | .unknownStatic path => "no static accessor registered for `" ++ path ++ "`"
  | .unknownMember path member => "`" ++ path ++ "` has no member `" ++ member ++ "`"

end TabMarkup
