import TabMarkup.FileSystem.Entry
import TabMarkup.Text.Cut

/-!
# File systems

Files and directories under paths. A path is a text with slashes; it leads to a place by way of
directories that exist, and the trail to that place tells what stands on the way. Operations
answer with the new file system, or with an error that leaves the old one.
-/

namespace TabMarkup

/-- Why an operation on files is refused. -/
inductive FileError where
  | notFound
  | alreadyExists
  | notDirectory
  | isDirectory
  | nameTooLong
  /-- A file that should hold text holds other bytes. -/
  | notText
  deriving Repr, DecidableEq

/-- The text of a file error. -/
def FileError.message : FileError → String
  | .notFound => "No such file or directory (os error 2)"
  | .alreadyExists => "File exists (os error 17)"
  | .notDirectory => "Not a directory (os error 20)"
  | .isDirectory => "Is a directory (os error 21)"
  | .nameTooLong => "File name too long (os error 36)"
  | .notText => "stream did not contain valid UTF-8"

/-- A directory with all that is in it. -/
structure FileSystem where
  top : FileSystem.Entry

namespace FileSystem

/-- The file system with no more than its topmost directory. -/
def empty : FileSystem :=
  { top := .emptyDirectory }

/-- The way from the top to a place, innermost first: each name with what stands there. At the
end of a way there can be nothing. -/
abbrev Trail := List (String × Option Entry)

/-- What stands at the end of a trail. -/
def entry? (fs : FileSystem) : Trail → Option Entry
  | [] => some fs.top
  | (_, entry?) :: _ => entry?

/-- The file system with something else at the end of a trail. -/
def put (fs : FileSystem) : Trail → Entry → FileSystem
  | [], entry => { top := entry }
  | (name, _) :: trail, entry =>
    match fs.entry? trail with
    | some (.directory time? contents) =>
      fs.put trail (.directory time? (contents.insert name entry))
    | _ => fs

/-- The names of a path, between its slashes. -/
def names (path : String) : List String :=
  (Text.splitOn '/' path.toList).map String.ofList

/-- The most bytes that a name may have. -/
def nameLimit : Nat := 255

/-- The most bytes that a path may have. -/
def pathLimit : Nat := 4095

/-- The number of bytes of the path that these names make. -/
def pathSize (names : List String) : Nat :=
  ("/".intercalate names).utf8ByteSize

/-- Follows names from the end of a trail. Empty names and `.` stay where they are, and `..` goes
up; there is no way on from a file or from nothing. -/
def walk (fs : FileSystem) (trail : Trail) : List String → Except FileError Trail
  | [] => .ok trail
  | name :: names =>
    match fs.entry? trail with
    | none => .error .notFound
    | some (.file ..) => .error .notDirectory
    | some (.directory _ contents) =>
      if name = "" ∨ name = "." then fs.walk trail names
      else if name = ".." then fs.walk trail.tail names
      else if nameLimit < name.utf8ByteSize then .error .nameTooLong
      else fs.walk ((name, contents.get? name) :: trail) names

/-- The trail along the names of a path. A path that is empty leads nowhere, and one that is too
long is not followed. -/
def follow (fs : FileSystem) (names : List String) : Except FileError Trail :=
  if names = [] ∨ names = [""] then .error .notFound
  else if pathLimit < pathSize names then .error .nameTooLong
  else fs.walk [] names

/-- The trail along a path. -/
def locate (fs : FileSystem) (path : String) : Except FileError Trail :=
  fs.follow (names path)

/-- What stands where a path leads. -/
def stat (fs : FileSystem) (path : String) : Except FileError Entry := do
  match fs.entry? (← fs.locate path) with
  | some entry => .ok entry
  | none => .error .notFound

/-- The bytes of a file. -/
def readBytes (fs : FileSystem) (path : String) : Except FileError (List UInt8) := do
  match ← fs.stat path with
  | .file bytes _ => .ok bytes
  | .directory .. => .error .isDirectory

/-- Makes something new under a name, in the directory at the end of a trail. When that directory
was last changed is not known any more. -/
def make (fs : FileSystem) (trail : Trail) (name : String) (entry : Entry) : FileSystem :=
  match fs.entry? trail with
  | some (.directory _ contents) => fs.put trail (.directory none (contents.insert name entry))
  | _ => fs

/-- Removes what stands at the end of a trail. The topmost directory is only emptied. -/
def unmake (fs : FileSystem) : Trail → FileSystem
  | [] => empty
  | (name, _) :: trail =>
    match fs.entry? trail with
    | some (.directory _ contents) => fs.put trail (.directory none (contents.erase name))
    | _ => fs

/-- Writes a file and sets its time. -/
def write (fs : FileSystem) (path : String) (bytes : List UInt8) (time : Time) :
    Except FileError FileSystem := do
  match ← fs.locate path with
  | (name, none) :: trail => .ok (fs.make trail name (.file bytes time))
  | trail =>
    match fs.entry? trail with
    | some (.file ..) => .ok (fs.put trail (.file bytes time))
    | _ => .error .isDirectory

/-- Sets the time of a file or a directory. -/
def touch (fs : FileSystem) (path : String) (time : Time) : Except FileError FileSystem := do
  let trail ← fs.locate path
  match fs.entry? trail with
  | some entry => .ok (fs.put trail (entry.setTime time))
  | none => .error .notFound

/-- Removes a file, or a directory with all that is in it. -/
def remove (fs : FileSystem) (path : String) : Except FileError FileSystem := do
  let trail ← fs.locate path
  match fs.entry? trail with
  | some _ => .ok (fs.unmake trail)
  | none => .error .notFound

end FileSystem

end TabMarkup
