/-!
# Open tags

The tags that are open at a place in a document, the innermost on top.
-/

namespace TabMarkup

/-- The names of open tags, innermost first. -/
structure TagStack where
  names : List String := []
  deriving Repr, DecidableEq

namespace TagStack

/-- The stack with one more tag open. -/
def push (stack : TagStack) (name : String) : TagStack :=
  { names := name :: stack.names }

/-- The innermost tag, if one is open, and the stack without it. -/
def pop (stack : TagStack) : Option String × TagStack :=
  match stack.names with
  | [] => (none, stack)
  | name :: names => (some name, { names })

end TagStack

end TabMarkup
