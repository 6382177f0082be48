import TabMarkup.Source

/-!
# Cursors

A cursor walks over a source byte by byte, keeps the chunk that the last read brought, can step
back over the byte just taken, and counts lines. The line number grows when the byte after a
newline is taken, so the newline still belongs to the line that it ends. Main statement: every
byte taken is one byte fewer to come, and stepping back returns at most that one.
-/

namespace TabMarkup

/-- A position in a source that arrives in chunks. -/
structure Cursor where
  /-- What has not been read yet. -/
  source : Source
  /-- The bytes of the last read. -/
  chunk : Array UInt8 := #[]
  /-- The index in `chunk` of the next byte. -/
  pos : Nat := 0
  /-- The number of bytes before the next one. -/
  offset : Nat := 0
  /-- The announced size of the source, which may be wrong. -/
  size? : Option Nat := none
  /-- No more reads are made: one came back empty, or the announced size is reached. -/
  ended : Bool := false
  /-- The line of the last byte taken, from 1. -/
  line : Nat := 1
  /-- A newline was taken, and the next byte begins a new line. -/
  owed : Bool := false
  /-- The last step began a new line. -/
  paid : Bool := false
  /-- The byte that stepping back returns. -/
  last? : Option UInt8 := none

namespace Cursor

/-- The start of a source whose size may be known. -/
def ofSource (source : Source) (size? : Option Nat := none) : Cursor :=
  { source, size?, ended := size? == some 0 }

/-- The end has been met and no byte is left in the chunk. -/
def isEof (c : Cursor) : Bool :=
  c.ended && c.pos == c.chunk.size

/-- The number of bytes that are still to come. -/
def unread (c : Cursor) : Nat :=
  (c.chunk.size - c.pos) + c.source.unread

/-- Makes the next byte available if there is one: reads a new chunk when the old one is used up
and the end has not been met. -/
def refill (c : Cursor) : Except String Unit × Cursor :=
  if c.pos < c.chunk.size ∨ c.ended then (.ok (), c)
  else
    match c.source.read with
    | (.error message, source) => (.error message, { c with source })
    | (.ok bytes, source) =>
      (.ok (), { c with source, chunk := bytes.toArray, pos := 0, ended := bytes.isEmpty })

/-- Steps over the byte `b`. -/
def advance (c : Cursor) (b : UInt8) : Cursor :=
  { c with
    pos := c.pos + 1
    offset := c.offset + 1
    ended := c.ended || c.size?.any (· ≤ c.offset + 1)
    line := if c.owed then c.line + 1 else c.line
    owed := b == 10
    paid := c.owed
    last? := some b }

/-- Takes the next byte; `none` at the end of the source. A failed read leaves the byte before
it to be stepped back over, though no longer over a line that it began. -/
def next (c : Cursor) : Except String (Option UInt8) × Cursor :=
  match refill { c with paid := false } with
  | (.error message, c) => (.error message, c)
  | (.ok (), c) =>
    match c.chunk[c.pos]? with
    | none => (.ok none, { c with last? := none })
    | some b => (.ok (some b), c.advance b)

/-- Steps back over the last byte taken; at most one step, and none after the end was met. A
line that the byte began is owed again. -/
def pushBack (c : Cursor) : Cursor :=
  match c.last? with
  | none => c
  | some _ =>
    { c with
      pos := c.pos - 1
      offset := c.offset - 1
      ended := c.ended && !c.size?.any (c.offset - 1 < ·)
      line := if c.paid then c.line - 1 else c.line
      owed := c.paid
      paid := false
      last? := none }

/-- Reading ahead changes where the bytes are, not how many are to come. -/
theorem refill_unread {c d : Cursor} {r : Except String Unit} (h : c.refill = (r, d)) :
    d.unread = c.unread := by
  unfold refill at h
  split at h
  · cases h; rfl
  · rename_i hpos
    have hchunk : c.chunk.size - c.pos = 0 := by omega
    split at h
    · rename_i message source hread
      cases h
      simp only [unread, Source.read_error_unread hread]
    · rename_i bytes source hread
      cases h
      have := Source.read_ok_unread hread
      simp only [unread, List.size_toArray]
      omega

/-- Every byte taken is one byte fewer to come. -/
theorem next_some_unread {c d : Cursor} {b : UInt8} (h : c.next = (.ok (some b), d)) :
    d.unread + 1 = c.unread := by
  unfold next at h
  split at h
  · cases h
  · rename_i e hrefill
    have hunread := refill_unread hrefill
    split at h
    · cases h
    · rename_i b' hget
      cases h
      obtain ⟨hpos, _⟩ := Array.getElem?_eq_some_iff.mp hget
      simp only [unread, advance] at hunread ⊢
      omega

/-- No step makes bytes. -/
theorem next_unread_le {c d : Cursor} {r : Except String (Option UInt8)} (h : c.next = (r, d)) :
    d.unread ≤ c.unread := by
  match r with
  | .ok (some b) => have := next_some_unread h; omega
  | .ok none =>
    unfold next at h
    split at h
    · cases h
    · rename_i e hrefill
      have hunread := refill_unread hrefill
      split at h
      · cases h
        simp only [unread] at hunread ⊢
        omega
      · cases h
  | .error message =>
    unfold next at h
    split at h
    · rename_i m e hrefill
      have hunread := refill_unread hrefill
      cases h
      simp only [unread] at hunread ⊢
      omega
    · split at h <;> cases h

/-- Stepping back returns at most one byte. -/
theorem pushBack_unread_le (c : Cursor) : c.pushBack.unread ≤ c.unread + 1 := by
  unfold pushBack
  split
  · omega
  · simp only [unread]
    omega

end Cursor

end TabMarkup
