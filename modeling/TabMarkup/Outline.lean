import TabMarkup.Element
import TabMarkup.Event
import TabMarkup.FragmentQueue
import TabMarkup.Line
import TabMarkup.TagStack

/-!
# Outlines

An outline turns lines into nested tags by their indentation alone. It keeps a depth beside the
open tags: a line closes one tag for each level that it lies below the depth, as long as tags are
open, and then sets the depth to its own indentation; a tag that opens adds one level.
-/

namespace TabMarkup

/-- A document while its lines come in. -/
structure Outline where
  /-- The level at which a line neither closes tags nor skips levels. -/
  depth : Nat := 0
  openTags : TagStack := {}
  fragments : FragmentQueue := {}
  events : Array Event := #[]
  deriving Repr, DecidableEq

namespace Outline

/-- Appends fragments. -/
def emit (o : Outline) (fragments : List Fragment) : Outline :=
  { o with fragments := o.fragments.appendAll fragments }

/-- Notes an event. -/
def note (o : Outline) (event : Event) : Outline :=
  { o with events := o.events.push event }

/-- Goes up one level. The innermost open tag is closed; a level without one only counts. -/
def closeLevel (o : Outline) : Outline :=
  match o.openTags.pop with
  | (none, _) => { o with depth := o.depth - 1 }
  | (some name, openTags) =>
    { (o.note (.closed name o.depth)).emit [.closeTag name] with
      openTags
      depth := o.depth - 1 }

/-- Goes up a number of levels. -/
def closeLevels (o : Outline) : (levels : Nat) → Outline
  | 0 => o
  | levels + 1 => o.closeLevel.closeLevels levels

/-- Makes room for a line with this indentation. -/
def indentTo (o : Outline) (tabs : Nat) : Outline :=
  { o.closeLevels (o.depth - tabs) with depth := tabs }

/-- Reports a tag that is not the name of an element. -/
def checkTag (o : Outline) (number : Nat) (name : String) : Outline :=
  if Element.isKnown name then o else o.note (.unknownTag name number)

/-- Opens a tag on line `number`. -/
def openTag (o : Outline) (number : Nat) (name : String) (opening : Fragment) : Outline :=
  let o := o.checkTag number name
  { (o.note (.opened name o.depth)).emit [opening] with
    openTags := o.openTags.push name
    depth := o.depth + 1 }

/-- Adds a line. -/
def add (o : Outline) : Line → Outline
  | .blank => o
  | .directive tabs d => (o.indentTo tabs).emit [.directive d]
  | .tag tabs number name body =>
    ((o.indentTo tabs).openTag number name (body.opening name)).emit body.fragments

/-- The events of a line that could not be read to its end. -/
def abandon (o : Outline) : Line.Reached → Outline
  | .margin => o
  | .indented tabs => o.indentTo tabs
  | .opened tabs number name => (o.indentTo tabs).openTag number name (.openTag name)

/-- Closes everything that is open. -/
def finish (o : Outline) : Outline :=
  o.indentTo 0

/-- The outline of some lines. -/
def ofLines (lines : List Line) : Outline :=
  lines.foldl add {}

end Outline

end TabMarkup
