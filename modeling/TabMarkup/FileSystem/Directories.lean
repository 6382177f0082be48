import TabMarkup.FileSystem

/-!
# Making directories

One directory is made in a directory that exists; making a directory with its parents makes those
on the way first. A place that is a directory already is as good as a new one.
-/

namespace TabMarkup.FileSystem

/-- Names without the empty ones that end them. -/
def withoutEnd (names : List String) : List String :=
  (names.reverse.dropWhile (· = "")).reverse

/-- Makes a directory in one that exists. -/
def makeDirectory (fs : FileSystem) (names : List String) : Except FileError FileSystem := do
  if pathLimit < pathSize names then .error .nameTooLong
  let names := withoutEnd names
  let parent ← fs.walk [] names.dropLast
  match fs.entry? parent, names.getLast? with
  | none, _ => .error .notFound
  | some (.file ..), _ => .error .notDirectory
  | some (.directory ..), none => .error .alreadyExists
  | some (.directory _ contents), some name =>
    if name = "." ∨ name = ".." then .error .alreadyExists
    else if nameLimit < name.utf8ByteSize then .error .nameTooLong
    else if (contents.get? name).isSome then .error .alreadyExists
    else .ok (fs.make parent name .emptyDirectory)

/-- Whether the names of a path lead to a directory. -/
def isDirectory (fs : FileSystem) (names : List String) : Bool :=
  match fs.follow names with
  | .error _ => false
  | .ok trail => (fs.entry? trail).any Entry.isDirectory

/-- The names of the directory in which the last name stands. Empty names count for nothing,
and neither does `.`, except in front. -/
def parentNames : List String → List String
  | [] => []
  | first :: rest =>
    let kept := rest.filter fun name => name ≠ "" ∧ name ≠ "."
    (if first = "" then kept else first :: kept).dropLast

theorem length_parentNames_lt {names : List String} (h : names ≠ []) :
    (parentNames names).length < names.length := by
  cases names with
  | nil => exact absurd rfl h
  | cons first rest =>
    have hkept := List.length_filter_le (fun name => decide (name ≠ "" ∧ name ≠ ".")) rest
    unfold parentNames
    dsimp only
    split <;> simp only [List.length_dropLast, List.length_cons] <;> omega

/-- The outcome of making a directory that cannot be made for this reason: it is there already,
or the reason is passed on. -/
def settle (fs : FileSystem) (names : List String) (error : FileError) :
    Except FileError Unit × FileSystem :=
  (if fs.isDirectory names then .ok () else .error error, fs)

/-- Makes a directory with its parents. Parents that were made stay even where the directory
itself cannot be made. -/
def makeDirectories (fs : FileSystem) (names : List String) : Except FileError Unit × FileSystem :=
  if h : names = [] ∨ names = [""] then (.ok (), fs)
  else
    match fs.makeDirectory names with
    | .ok made => (.ok (), made)
    | .error .notFound =>
      have := length_parentNames_lt (fun hnil => h (Or.inl hnil))
      match fs.makeDirectories (parentNames names) with
      | (.error error, parents) => (.error error, parents)
      | (.ok (), parents) =>
        match parents.makeDirectory names with
        | .ok made => (.ok (), made)
        | .error error => parents.settle names error
    | .error error => fs.settle names error
termination_by names.length

/-- Writes a file and sets its time, after making the directories on the way. -/
def place (fs : FileSystem) (path : String) (bytes : List UInt8) (time : Time) :
    Except FileError FileSystem := do
  match fs.makeDirectories (parentNames (names path)) with
  | (.error error, _) => .error error
  | (.ok (), fs) => fs.write path bytes time

end TabMarkup.FileSystem
