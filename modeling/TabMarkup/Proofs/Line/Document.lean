import TabMarkup.Proofs.Line.Completeness
import TabMarkup.Proofs.Line.Soundness
import TabMarkup.Proofs.Rows

/-!
# Whole documents

Reading all lines of a source comes to its end exactly where every line, cut off at the newlines,
is in the grammar, and what is read is then what the lines say. Only the tabs behind the last
newline are not read as a line of their own.
-/

namespace TabMarkup.Scan

open Grammar Line

/-- A line of the grammar is one whatever its number is. -/
theorem LineText.renumber {number : Nat} {w : List UInt8} {entry : Line}
    (hw : LineText number w entry) (number' : Nat) : ∃ entry', LineText number' w entry' := by
  cases hw with
  | blank count => exact ⟨_, LineText.blank count⟩
  | directive hw => exact ⟨_, LineText.directive hw⟩
  | tag hx hw => exact ⟨_, LineText.tag hx hw⟩

/-- Past the newline that ended a line is the start of the next one. -/
theorem AfterLine.of_newline {s : Scanner} {bytes : List UInt8} {failure? : Option String}
    {line : Nat} (hs : AfterLine s { bytes := 10 :: bytes, failure? } line) :
    s.cursor.At { bytes, failure? } line true := by
  rcases hs with ⟨rest, htape, hat⟩ | ⟨htape, _⟩
  · cases rest
    cases htape
    exact hat
  · cases htape

/-- What is read to the end of the source are its lines. -/
theorem readAll_sound {s : Scanner} {bytes : List UInt8} {failure? : Option String}
    {line number : Nat} {owed : Bool} (hs : s.cursor.At { bytes, failure? } line owed)
    (hnumber : (if owed then line + 1 else line) = number)
    (hall : (readAll s).stop? = none) :
    failure? = none ∧ ∃ trailing, (trailing = [] ∨ trailing = [.blank]) ∧
      Document number (bytes.splitOn 10) ((readAll s).lines ++ trailing) := by
  induction hn : s.unread using Nat.strongRecOn generalizing s bytes line number owed with
  | ind n ih =>
    generalize hread : Line.read s = r
    cases r with
    | error stop t =>
      rw [readAll_of_error hread] at hall
      cases hall
    | ok found? t =>
      rcases read_ok hs hnumber hread with ⟨entry, w, rest, rfl, rfl, hw, hafter⟩ |
        ⟨count, rfl, rfl, rfl⟩
      · rw [readAll_of_some hread] at hall ⊢
        have hlt : t.unread < n := hn ▸ read_unread_lt hread
        rcases hafter with ⟨⟨rest', _⟩, htape, ht⟩ | ⟨htape, ht⟩
        · cases htape
          obtain ⟨hfailure, trailing, htrailing, hrest⟩ := ih t.unread hlt ht rfl hall rfl
          refine ⟨hfailure, trailing, htrailing, ?_⟩
          change Document number ((w ++ 10 :: rest').splitOn 10) _
          rw [List.splitOn_append_cons_self_of_not_mem hw.newline_notMem]
          exact Document.cons hw hrest
        · cases htape
          obtain ⟨u, hover⟩ := read_over ht
          refine ⟨rfl, [], Or.inl rfl, ?_⟩
          rw [readAll_of_none hover, List.append_nil, List.splitOn_eq_singleton hw.newline_notMem]
          exact Document.cons hw (Document.nil _)
      · have hw : LineText number (tabs count) .blank := LineText.blank count
        refine ⟨rfl, [.blank], Or.inr rfl, ?_⟩
        rw [readAll_of_none hread, List.splitOn_eq_singleton hw.newline_notMem]
        exact Document.cons hw (Document.nil _)

/-- Where every line is in the grammar, the source is read to its end. -/
theorem readAll_complete {s : Scanner} {bytes : List UInt8} {line number : Nat} {owed : Bool}
    (hs : s.cursor.At { bytes } line owed)
    (hnumber : (if owed then line + 1 else line) = number)
    (hall : ∀ w ∈ bytes.splitOn 10, ∃ n entry, LineText n w entry) :
    (readAll s).stop? = none := by
  induction bytes using newlineInduction generalizing s line number owed with
  | newline w rest hnotMem ih =>
    rw [List.splitOn_append_cons_self_of_not_mem hnotMem] at hall
    obtain ⟨_, entry, hw⟩ := hall w (by simp)
    obtain ⟨entry, hw⟩ := LineText.renumber hw number
    obtain ⟨t, hread, hafter⟩ := read_of_lineText hs hnumber hw
      (lineEnd_newline rest) (fun _ => by simp)
    rw [readAll_of_some hread]
    exact ih hafter.of_newline rfl fun v hv => hall v (by simp [hv])
  | last bytes hnotMem =>
    rw [List.splitOn_eq_singleton hnotMem] at hall
    obtain ⟨_, entry, hw⟩ := hall bytes (by simp)
    obtain ⟨entry, hw⟩ := LineText.renumber hw number
    by_cases hblank : entry = .blank
    · subst hblank
      cases hw with
      | blank count =>
        obtain ⟨t, hread⟩ := read_of_tabs hs
        rw [readAll_of_none hread]
    · rw [← List.append_nil bytes] at hs
      obtain ⟨t, hread, hafter⟩ := read_of_lineText hs hnumber hw
        lineEnd_nil (fun h => absurd h hblank)
      rw [readAll_of_some hread]
      rcases hafter with ⟨⟨rest, _⟩, htape, _⟩ | ⟨_, ht⟩
      · cases htape
      · obtain ⟨u, hover⟩ := read_over ht
        rw [readAll_of_none hover]

end TabMarkup.Scan
