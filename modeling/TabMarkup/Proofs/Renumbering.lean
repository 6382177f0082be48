import TabMarkup.Compilation

/-!
# Renumbering lines

The number of a line is carried along and never looked at. So where the lines that are read are
renumbered, and with them what stopped the reading, the errors and events that come of them are
renumbered as well and nothing else changes (`Compilation.ofReading_renumber`).
-/

namespace TabMarkup

/-- The error on another line. -/
def ParseError.renumber (f : Nat → Nat) (e : ParseError) : ParseError :=
  { e with line := f e.line }

/-- The event with the lines renumbered that it speaks of. -/
def Event.renumber (f : Nat → Nat) : Event → Event
  | .unknownTag tag line => .unknownTag tag (f line)
  | .parseFailed error => .parseFailed (error.renumber f)
  | event => event

namespace Line

/-- The line with another number. -/
def renumber (f : Nat → Nat) : Line → Line
  | .tag tabs number name body => .tag tabs (f number) name body
  | line => line

/-- As much known of a line with another number. -/
def Reached.renumber (f : Nat → Nat) : Reached → Reached
  | .opened tabs number name => .opened tabs (f number) name
  | reached => reached

/-- The same stop in a line with another number. -/
def Stop.renumber (f : Nat → Nat) (stop : Stop) : Stop :=
  { error := stop.error.renumber f, reached := stop.reached.renumber f }

/-- The same reading with the lines renumbered. -/
def Reading.renumber (f : Nat → Nat) (r : Reading) : Reading :=
  { lines := r.lines.map (Line.renumber f), stop? := r.stop?.map (Stop.renumber f) }

theorem renumber_renumber (f g : Nat → Nat) (line : Line) :
    (line.renumber f).renumber g = line.renumber (g ∘ f) := by
  cases line <;> rfl

theorem Stop.renumber_renumber (f g : Nat → Nat) (stop : Stop) :
    (stop.renumber f).renumber g = stop.renumber (g ∘ f) := by
  obtain ⟨error, reached⟩ := stop
  cases reached <;> rfl

/-- Renumbering twice is renumbering once. -/
theorem Reading.renumber_renumber (f g : Nat → Nat) (r : Reading) :
    (r.renumber f).renumber g = r.renumber (g ∘ f) := by
  simp [renumber, Function.comp_def, Line.renumber_renumber, Stop.renumber_renumber]

end Line

/-! ## Outlines -/

namespace Outline

variable (f : Nat → Nat) (o : Outline)

/-- The outline with the lines renumbered that its events speak of. -/
def renumber : Outline :=
  { o with events := o.events.map (Event.renumber f) }

theorem toList_events_renumber :
    (o.renumber f).events.toList = o.events.toList.map (Event.renumber f) :=
  Array.toList_map

theorem note_renumber (event : Event) :
    (o.renumber f).note (event.renumber f) = (o.note event).renumber f := by
  simp [renumber, note]

theorem emit_renumber (fragments : List Fragment) :
    (o.renumber f).emit fragments = (o.emit fragments).renumber f :=
  rfl

theorem closeLevel_renumber : (o.renumber f).closeLevel = o.closeLevel.renumber f := by
  obtain ⟨depth, ⟨names⟩, fragments, events⟩ := o
  cases names with
  | nil => rfl
  | cons name names => simp [closeLevel, TagStack.pop, emit, note, renumber, Event.renumber]

theorem closeLevels_renumber (levels : Nat) :
    (o.renumber f).closeLevels levels = (o.closeLevels levels).renumber f := by
  induction levels generalizing o with
  | zero => rfl
  | succ levels ih => rw [closeLevels, closeLevels, closeLevel_renumber, ih]

theorem indentTo_renumber (tabs : Nat) :
    (o.renumber f).indentTo tabs = (o.indentTo tabs).renumber f := by
  have hclose := closeLevels_renumber f o (o.depth - tabs)
  change { (o.renumber f).closeLevels (o.depth - tabs) with depth := tabs } = _
  rw [hclose]
  rfl

theorem checkTag_renumber (number : Nat) (name : String) :
    (o.renumber f).checkTag (f number) name = (o.checkTag number name).renumber f := by
  unfold checkTag
  split
  · rfl
  · exact note_renumber f o (.unknownTag name number)

theorem openTag_renumber (number : Nat) (name : String) (opening : Fragment) :
    (o.renumber f).openTag (f number) name opening =
      (o.openTag number name opening).renumber f := by
  unfold openTag
  rw [checkTag_renumber]
  generalize o.checkTag number name = checked
  simp [note, emit, renumber, Event.renumber]

/-- A line with another number does the same to an outline. -/
theorem add_renumber (line : Line) :
    (o.renumber f).add (line.renumber f) = (o.add line).renumber f := by
  cases line with
  | blank => rfl
  | directive tabs d =>
    change ((o.renumber f).indentTo tabs).emit [.directive d] = _
    rw [indentTo_renumber, emit_renumber]
    rfl
  | tag tabs number name body =>
    change (((o.renumber f).indentTo tabs).openTag (f number) name (body.opening name)).emit
      body.fragments = _
    rw [indentTo_renumber, openTag_renumber, emit_renumber]
    rfl

theorem abandon_renumber (reached : Line.Reached) :
    (o.renumber f).abandon (reached.renumber f) = (o.abandon reached).renumber f := by
  cases reached with
  | margin => rfl
  | indented tabs => exact indentTo_renumber f o tabs
  | opened tabs number name =>
    change ((o.renumber f).indentTo tabs).openTag (f number) name (.openTag name) = _
    rw [indentTo_renumber, openTag_renumber]
    rfl

theorem foldl_add_renumber (lines : List Line) :
    (lines.map (Line.renumber f)).foldl add (o.renumber f) = (lines.foldl add o).renumber f := by
  induction lines generalizing o with
  | nil => rfl
  | cons line lines ih => rw [List.map_cons, List.foldl_cons, add_renumber, ih, List.foldl_cons]

theorem ofLines_renumber (lines : List Line) :
    ofLines (lines.map (Line.renumber f)) = (ofLines lines).renumber f := by
  have hempty : ({} : Outline).renumber f = {} := by simp [renumber]
  have hfoldl := foldl_add_renumber f {} lines
  rwa [hempty] at hfoldl

end Outline

/-! ## Compilations -/

namespace Compilation

/-- The outcome with the lines renumbered of which its error and its events speak. -/
def renumber (f : Nat → Nat) (c : Compilation) : Compilation :=
  { result := c.result.mapError (ParseError.renumber f), events := c.events.map (Event.renumber f) }

/-- Renumbered lines come to a renumbered outcome, and to nothing else. -/
theorem ofReading_renumber (f : Nat → Nat) (r : Line.Reading) :
    ofReading (r.renumber f) = (ofReading r).renumber f := by
  obtain ⟨lines, stop?⟩ := r
  cases stop? with
  | none =>
    have hfinish : (Outline.ofLines (lines.map (Line.renumber f))).finish =
        (Outline.ofLines lines).finish.renumber f := by
      rw [Outline.ofLines_renumber]
      exact Outline.indentTo_renumber f _ 0
    simp only [ofReading, Line.Reading.renumber, Option.map_none, hfinish,
      Outline.toList_events_renumber]
    rfl
  | some stop =>
    have habandon : (Outline.ofLines (lines.map (Line.renumber f))).abandon
        (stop.renumber f).reached = ((Outline.ofLines lines).abandon stop.reached).renumber f := by
      rw [Outline.ofLines_renumber]
      exact Outline.abandon_renumber f _ stop.reached
    simp only [ofReading, Line.Reading.renumber, Option.map_some, habandon,
      Outline.toList_events_renumber]
    rfl

/-- Where the parsing comes to a renumbered outcome, so does the event that ends it. -/
theorem compile_renumber {f : Nat → Nat} {source source' : Source}
    (h : parse source' = (parse source).renumber f) :
    compile source' = (compile source).renumber f := by
  have hending : ending ((parse source).result.mapError (ParseError.renumber f)) =
      (ending (parse source).result).renumber f := by
    cases (parse source).result <;> rfl
  unfold compile run
  rw [h]
  simp [renumber, hending]

end Compilation

end TabMarkup
