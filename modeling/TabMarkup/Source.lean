/-!
# Byte sources

A source is the schedule by which bytes arrive: pieces of data, interruptions and failures, in
order. One read looks at the first item that is left and takes a bounded number of bytes from it.
-/

namespace TabMarkup

/-- What a source has in store next. -/
inductive Delivery where
  | data (bytes : List UInt8)
  | interrupted
  | failure (message : String)
  deriving Repr, DecidableEq

/-- Everything that a source will still deliver; its end is the end of the list. -/
abbrev Source := List Delivery

namespace Source

/-- The most bytes that one read takes. -/
def readLimit : Nat := 4096

/-- A source that has all its bytes at once. -/
def ofBytes (bytes : List UInt8) : Source :=
  [.data bytes]

/-- The number of bytes that are still to come. -/
def unread : Source → Nat
  | [] => 0
  | .data bytes :: rest => bytes.length + unread rest
  | .interrupted :: rest => unread rest
  | .failure _ :: rest => unread rest

/-- One read. Interrupted reads are tried again; a failure is passed on once. What a read leaves
of a piece of data is delivered next, and a read that gives no bytes means the end, which an
empty piece of data also does. -/
def read : Source → Except String (List UInt8) × Source
  | [] => (.ok [], [])
  | .interrupted :: rest => read rest
  | .failure message :: rest => (.error message, rest)
  | .data bytes :: rest =>
    if bytes.length ≤ readLimit then (.ok bytes, rest)
    else (.ok (bytes.take readLimit), .data (bytes.drop readLimit) :: rest)

/-- Bytes are neither lost nor made up: those read are those that the source has fewer. -/
theorem read_ok_unread {source rest : Source} {bytes : List UInt8}
    (h : read source = (.ok bytes, rest)) : bytes.length + unread rest = unread source := by
  induction source with
  | nil => cases h; rfl
  | cons item source ih =>
    cases item with
    | data d =>
      rw [read] at h
      split at h
      · cases h; rfl
      · cases h
        simp only [unread, List.length_take, List.length_drop]
        omega
    | interrupted => exact ih h
    | failure message => cases h

/-- A failed read takes no bytes. -/
theorem read_error_unread {source rest : Source} {message : String}
    (h : read source = (.error message, rest)) : unread rest = unread source := by
  induction source with
  | nil => cases h
  | cons item source ih =>
    cases item with
    | data d =>
      rw [read] at h
      split at h <;> cases h
    | interrupted => exact ih h
    | failure message => cases h; rfl

end Source

end TabMarkup
