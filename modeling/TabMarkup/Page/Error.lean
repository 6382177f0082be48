import TabMarkup.FileSystem
import TabMarkup.ParseError
import TabMarkup.Render.Error

/-!
# Page errors

What can keep a page from being shown.
-/

namespace TabMarkup

/-- Why a page cannot be compiled or shown. -/
inductive PageError where
  | invalidViewName (name : String)
  | file (path : String) (error : FileError)
  | compile (path : String) (error : ParseError)
  | render (error : RenderError)
  deriving Repr, DecidableEq

/-- The text of a page error. -/
def PageError.message : PageError → String
  | .invalidViewName name => "invalid view name `" ++ name ++ "`"
  | .file path error => path ++ ": " ++ error.message
  | .compile path error => "failed to compile " ++ path ++ ": " ++ error.message
  | .render error => error.message

end TabMarkup
