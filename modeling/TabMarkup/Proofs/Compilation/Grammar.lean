import TabMarkup.Compilation
import TabMarkup.Proofs.Line.Document
import TabMarkup.Proofs.Outline

/-!
# Compiling is reading the grammar and counting depths

A source compiles exactly if each of its lines is in the grammar, and its fragments are then what
a depth counter makes of what the lines say (`compile_ok_iff_grammar`). What a line says is
determined by its text, so there is nothing to choose.
-/

namespace TabMarkup

open Grammar

namespace Grammar

/-- A text says one thing at most: read with a newline behind it, it can only be read as that. -/
theorem LineText.unique {number : Nat} {w : List UInt8} {entry entry' : Line}
    (hw : LineText number w entry) (hw' : LineText number w entry') : entry = entry' := by
  have hsource := Cursor.at_ofSource (Source.ofBytes (w ++ [10])) none
  rw [Source.deliver_ofBytes] at hsource
  let s : Scanner :=
    { cursor := { Cursor.ofSource (Source.ofBytes (w ++ [10])) none with line := number } }
  have hs : s.cursor.At { bytes := w ++ [10] } number false :=
    ⟨⟨hsource.sound.pos_le, hsource.sound.ended_of_size, hsource.sound.size_of_ended⟩,
      hsource.ahead_eq, rfl, hsource.owed_eq⟩
  have hend : Scan.LineEnd [10] := Scan.lineEnd_newline []
  obtain ⟨t, hread, _⟩ := Scan.read_of_lineText hs rfl hw hend fun _ => List.cons_ne_nil _ _
  obtain ⟨t', hread', _⟩ := Scan.read_of_lineText hs rfl hw' hend fun _ => List.cons_ne_nil _ _
  cases hread.symm.trans hread'
  rfl

/-- Each text of a document is a line. -/
theorem Document.lineText {number : Nat} {ws : List (List UInt8)} {lines : List Line}
    (hws : Document number ws lines) {w : List UInt8} (hw : w ∈ ws) :
    ∃ n line, LineText n w line := by
  induction hws with
  | nil number => cases hw
  | cons hfirst hws ih =>
    rcases List.mem_cons.mp hw with rfl | hw
    · exact ⟨_, _, hfirst⟩
    · exact ih hw

/-- What the lines of a document say is said by texts of the grammar. -/
theorem Document.lineText_of_mem {number : Nat} {ws : List (List UInt8)} {lines : List Line}
    (hws : Document number ws lines) {line : Line} (hline : line ∈ lines) :
    ∃ n w, LineText n w line := by
  induction hws with
  | nil number => cases hline
  | cons hfirst hws ih =>
    rcases List.mem_cons.mp hline with rfl | hline
    · exact ⟨_, _, hfirst⟩
    · exact ih hline

/-- Lines of texts are determined by the texts. -/
theorem Document.unique {number : Nat} {ws : List (List UInt8)} {lines lines' : List Line}
    (hws : Document number ws lines) (hws' : Document number ws lines') : lines = lines' := by
  induction hws generalizing lines' with
  | nil number =>
    cases hws'
    rfl
  | cons hw hws ih =>
    cases hws' with
    | cons hw' hws' => rw [hw.unique hw', ih hws']

/-- A line that is not blank has something behind its tabs. -/
theorem LineText.exists_content {number count : Nat} {w : List UInt8} {line : Line}
    (hw : LineText number w line) (hcount : line.tabs? = some count) :
    ∃ b v, w = tabs count ++ b :: v ∧ b ≠ 9 := by
  cases hw with
  | blank => cases hcount
  | directive hw =>
    cases hcount
    cases hw <;> exact ⟨'\x7b'.toUInt8, _, rfl, by decide⟩
  | @tag _ x w body hx hw =>
    cases hcount
    obtain ⟨b, x, rfl⟩ := List.exists_cons_of_ne_nil hx.1
    refine ⟨b, x ++ w, by simp, ?_⟩
    rintro rfl
    exact absurd (hx.2 9 List.mem_cons_self) (by decide)

/-- Further down and further in a line is still a line, the same one there. -/
theorem LineText.moved {number : Nat} {w : List UInt8} {line : Line} (hw : LineText number w line)
    (down inward : Nat) :
    LineText (number + down) (tabs inward ++ w) (line.moved down inward) := by
  have htabs (count : Nat) : tabs inward ++ tabs count = tabs (count + inward) := by
    rw [tabs, tabs, tabs, List.replicate_append_replicate, Nat.add_comm]
  cases hw with
  | blank count =>
    rw [htabs]
    exact LineText.blank _
  | directive hw =>
    rw [← List.append_assoc, htabs]
    exact LineText.directive hw
  | tag hx hw =>
    rw [← List.append_assoc, ← List.append_assoc, htabs]
    exact LineText.tag hx hw

/-- Further down a document says the same, further down. -/
theorem Document.moved {number : Nat} {ws : List (List UInt8)} {lines : List Line}
    (hws : Document number ws lines) (down : Nat) :
    Document (number + down) ws (lines.map (Line.moved down 0)) := by
  induction hws with
  | nil number => exact Document.nil _
  | cons hw hws ih =>
    rw [Nat.add_right_comm] at ih
    exact Document.cons (hw.moved down 0) ih

end Grammar

/-- The lines that are read of a source. -/
def Source.lines (source : Source) : List Line :=
  (Line.readAll (Scanner.ofSource source)).lines

namespace Compilation

/-- A reading that came to its end gives the fragments of its outline. -/
theorem ofReading_result_ok {reading : Line.Reading} {q : FragmentQueue}
    (h : (ofReading reading).result = .ok q) :
    reading.stop? = none ∧ q = (Outline.ofLines reading.lines).finish.fragments := by
  unfold ofReading at h
  split at h
  · rename_i hstop
    cases h
    exact ⟨hstop, rfl⟩
  · cases h

theorem ofReading_result_of_none {reading : Line.Reading} (h : reading.stop? = none) :
    (ofReading reading).result = .ok (Outline.ofLines reading.lines).finish.fragments := by
  unfold ofReading
  split
  · rfl
  · rename_i stop hstop
    rw [h] at hstop
    cases hstop

/-- A source that compiles is read to its end, and its fragments are those that the depth counter
gives for its lines. They are what the source delivers says, but for tabs behind its last
newline. -/
theorem exists_document_lines {source : Source} {q : FragmentQueue}
    (hq : (compile source).result = .ok q) :
    q.toList = Nesting.fragmentsOf 0 [] source.lines ∧
      ∃ bytes trailing, source.deliver none = { bytes } ∧ (trailing = [] ∨ trailing = [.blank]) ∧
        Document 1 (bytes.splitOn 10) (source.lines ++ trailing) := by
  have hs : (Scanner.ofSource source).cursor.At (source.deliver none) 1 false :=
    Cursor.at_ofSource source none
  obtain ⟨hstop, rfl⟩ := ofReading_result_ok hq
  refine ⟨Outline.finish_ofLines _, ?_⟩
  generalize source.deliver none = tape at hs ⊢
  obtain ⟨bytes, failure?⟩ := tape
  obtain ⟨rfl, trailing, htrailing, hlines⟩ := Scan.readAll_sound hs rfl hstop
  exact ⟨bytes, trailing, rfl, htrailing, hlines⟩

/-- A source that compiles delivers lines of the grammar, and its fragments are those that the
depth counter gives for what the lines say. -/
theorem exists_document {source : Source} {q : FragmentQueue}
    (hq : (compile source).result = .ok q) :
    ∃ bytes lines, source.deliver none = { bytes } ∧ Document 1 (bytes.splitOn 10) lines ∧
      q.toList = Nesting.fragmentsOf 0 [] lines := by
  obtain ⟨hfragments, bytes, trailing, hdeliver, htrailing, hlines⟩ := exists_document_lines hq
  refine ⟨bytes, _, hdeliver, hlines, ?_⟩
  rcases htrailing with rfl | rfl
  · rwa [List.append_nil]
  · rwa [Nesting.fragmentsOf_append_blank]

/-- A text that compiles has lines of the grammar, and its fragments are those that the depth
counter gives for what the lines say. -/
theorem exists_document_ofBytes {bytes : List UInt8} {q : FragmentQueue}
    (hq : (compile (.ofBytes bytes)).result = .ok q) :
    ∃ lines, Document 1 (bytes.splitOn 10) lines ∧ q.toList = Nesting.fragmentsOf 0 [] lines := by
  obtain ⟨bytes', lines, hdeliver, hlines, hfragments⟩ := exists_document hq
  rw [Source.deliver_ofBytes] at hdeliver
  cases hdeliver
  exact ⟨lines, hlines, hfragments⟩

/-- Whatever lines a text that compiles is made of, its fragments come from them. -/
theorem toList_of_document {bytes : List UInt8} {q : FragmentQueue} {lines : List Line}
    (hq : (compile (.ofBytes bytes)).result = .ok q)
    (hlines : Document 1 (bytes.splitOn 10) lines) :
    q.toList = Nesting.fragmentsOf 0 [] lines := by
  obtain ⟨lines', hlines', hfragments⟩ := exists_document_ofBytes hq
  rw [hfragments, hlines'.unique hlines]

end Compilation

/-- A source compiles exactly if all its lines are in the grammar, and then to the fragments that
the depth counter gives for what the lines say. -/
theorem compile_ok_iff_grammar (bytes : List UInt8) :
    ((∃ q, (compile (.ofBytes bytes)).result = .ok q) ↔
      ∀ w ∈ bytes.splitOn 10, ∃ number line, LineText number w line) ∧
    ∀ q, (compile (.ofBytes bytes)).result = .ok q →
      ∃ lines, Document 1 (bytes.splitOn 10) lines ∧
        (∀ lines', Document 1 (bytes.splitOn 10) lines' → lines' = lines) ∧
        q.toList = Nesting.fragmentsOf 0 [] lines := by
  refine ⟨⟨?_, ?_⟩, ?_⟩
  · rintro ⟨q, hq⟩ w hw
    obtain ⟨lines, hlines, _⟩ := Compilation.exists_document_ofBytes hq
    exact hlines.lineText hw
  · intro hall
    have hs : (Scanner.ofSource (Source.ofBytes bytes)).cursor.At { bytes } 1 false := by
      have hsource := Cursor.at_ofSource (Source.ofBytes bytes) none
      rwa [Source.deliver_ofBytes] at hsource
    have hstop := Scan.readAll_complete hs rfl hall
    exact ⟨_, Compilation.ofReading_result_of_none hstop⟩
  · intro q hq
    obtain ⟨lines, hlines, hfragments⟩ := Compilation.exists_document_ofBytes hq
    exact ⟨lines, hlines, fun lines' hlines' => hlines'.unique hlines, hfragments⟩

end TabMarkup
