/-!
# Page configuration

The directories of a page: where its views are read from, and where compiled documents are kept.
A configuration is read from a record by name or from a list by position; what is not given
keeps its default.
-/

namespace TabMarkup

/-- A value of a configuration file. -/
inductive ConfigValue where
  | text (s : String)
  | list (values : List ConfigValue)
  | record (fields : List (String × ConfigValue))
  /-- Anything else: nothing, a truth value or a number. -/
  | other
  deriving Inhabited

/-- The directories of a page. -/
structure PageConfig where
  viewDir : String := "views"
  cacheDir : String := "cache"
  deriving Repr, DecidableEq

namespace PageConfig

/-- A directory, where one is given. -/
def directory? (default : String) : Option ConfigValue → Option String
  | none => some default
  | some (.text path) => some path
  | some _ => none

/-- The configuration with these values, of those that are given. -/
def ofFields? (viewDir? cacheDir? : Option ConfigValue) : Option PageConfig := do
  let defaults : PageConfig := {}
  let viewDir ← directory? defaults.viewDir viewDir?
  let cacheDir ← directory? defaults.cacheDir cacheDir?
  return { viewDir, cacheDir }

/-- Reads a configuration. Fields of other names are passed over; a list has no more than the
two directories. -/
def ofValue? : ConfigValue → Option PageConfig
  | .record fields => ofFields? (fields.lookup "view_dir") (fields.lookup "cache_dir")
  | .list [] => ofFields? none none
  | .list [viewDir] => ofFields? viewDir none
  | .list [viewDir, cacheDir] => ofFields? viewDir cacheDir
  | _ => none

end PageConfig

end TabMarkup
