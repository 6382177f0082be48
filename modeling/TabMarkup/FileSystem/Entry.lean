import TabMarkup.Table

/-!
# What stands at a place

An entry is a file, or a directory with what is in it. So all that has a place stands in a
directory, and a file has nothing under it.
-/

namespace TabMarkup

/-- A moment, to the nanosecond. -/
structure Time where
  seconds : Nat
  nanoseconds : Nat
  deriving Repr, DecidableEq

namespace FileSystem

/-- What can stand at a place. The time of a directory is known only while nothing has been made
or removed in it since it was set; an unknown time is like no other. -/
inductive Entry where
  | file (bytes : List UInt8) (time : Time)
  | directory (time? : Option Time) (contents : Table Entry)

namespace Entry

/-- A new directory. -/
def emptyDirectory : Entry :=
  .directory none {}

/-- Whether an entry is a directory. -/
def isDirectory : Entry → Bool
  | .file .. => false
  | .directory .. => true

/-- When an entry was last changed, if that is known. -/
def time? : Entry → Option Time
  | .file _ time => some time
  | .directory time? _ => time?

/-- The same entry, last changed at another time. -/
def setTime (time : Time) : Entry → Entry
  | .file bytes _ => .file bytes time
  | .directory _ contents => .directory (some time) contents

end Entry

end FileSystem

end TabMarkup
