/-!
# View names

The name of a view becomes the name of a file. Characters that could lead elsewhere are left
out, and so a view always stands in its directory.
-/

namespace TabMarkup.ViewName

/-- The characters that a view name keeps: ASCII letters and digits, `_`, `.` and `-`. -/
def keeps (c : Char) : Bool :=
  c.isAlphanum || c == '_' || c == '.' || c == '-'

/-- The file name of a view. A name of which nothing or only dots are left has none. -/
def sanitize? (name : String) : Option String :=
  let clean := name.toList.filter keeps
  if clean.all (· == '.') then none else some (String.ofList clean)

end TabMarkup.ViewName
