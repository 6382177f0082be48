import TabMarkup.Line.Read
import TabMarkup.Proofs.Scanner

/-!
# The end of a line

A line ends at its newline or at the end of the tape. Asking for the end takes the newline, if
there is one, and leaves the scanner where the next line begins.
-/

namespace TabMarkup.Scan

open Line

/-- The scanner has just passed the end of line `line`, when `t` was still ahead: it is behind
the newline that came next, or at the end of the tape. -/
def AfterLine (s : Scanner) (t : Tape) (line : Nat) : Prop :=
  (∃ rest : Tape, t = rest.prepend [10] ∧ s.cursor.At rest line true) ∨
    (t = { bytes := [] } ∧ s.cursor.At t line false)

variable {s : Scanner} {b : UInt8} {bytes : List UInt8} {failure? : Option String} {line : Nat}

/-- At a newline the line ends. -/
theorem atEndOfLine_newline (hs : s.cursor.At { bytes := 10 :: bytes, failure? } line false) :
    ∃ t, atEndOfLine s = .ok true t ∧ t.cursor.At { bytes, failure? } line true := by
  obtain ⟨t, htest, ht, _⟩ := test_admitted false (p := .char '\n') hs rfl
  exact ⟨t, by rw [atEndOfLine, skip, bind_of_ok htest]; rfl, ht⟩

/-- At the end of the tape the line ends. -/
theorem atEndOfLine_over (hs : s.cursor.At { bytes := [] } line false) :
    ∃ t, atEndOfLine s = .ok true t ∧ t.cursor.At { bytes := [] } line false := by
  obtain ⟨t, htest, ht, _, heof⟩ := test_over false (p := .char '\n') hs
  refine ⟨t, ?_, ht⟩
  rw [atEndOfLine, skip, bind_of_ok htest]
  change isEof t = _
  rw [isEof, heof]

/-- Before another byte the line goes on. -/
theorem atEndOfLine_inside (hs : s.cursor.At { bytes := b :: bytes, failure? } line false)
    (hb : b ≠ 10) :
    ∃ t, atEndOfLine s = .ok false t ∧
      t.cursor.At { bytes := b :: bytes, failure? } line false ∧ t.scratch = s.scratch := by
  obtain ⟨t, htest, ht, hscratch, heof⟩ :=
    test_rejected false (p := .char '\n') hs (beq_false_of_ne hb)
  refine ⟨t, ?_, ht, hscratch⟩
  rw [atEndOfLine, skip, bind_of_ok htest]
  change isEof t = _
  rw [isEof, heof]

/-- A failure is passed on where the end of the line is asked for. -/
theorem atEndOfLine_failure {message : String}
    (hs : s.cursor.At { bytes := [], failure? := some message } line false) :
    ∃ t, atEndOfLine s = .error ⟨.unreadable message, line⟩ t := by
  obtain ⟨t, htest⟩ := test_failure false (p := .char '\n') hs
  exact ⟨t, by rw [atEndOfLine, skip, bind_of_error htest]⟩

/-- Where the line must end, another byte is in the way. -/
theorem endOfLine_inside (hs : s.cursor.At { bytes := b :: bytes, failure? } line false)
    (hb : b ≠ 10) :
    ∃ t, endOfLine s = .error ⟨.unexpectedByte (.char '\n') b, line⟩ t := by
  obtain ⟨u, hend, hu, _⟩ := atEndOfLine_inside hs hb
  obtain ⟨t, hfault⟩ := demand_rejected false (p := .char '\n') hu (beq_false_of_ne hb)
  refine ⟨t, ?_⟩
  rw [endOfLine, bind_of_ok hend]
  exact hfault

/-- If the line is found to end, it has ended; otherwise nothing has changed. -/
theorem atEndOfLine_ok {t : Tape} {a : Bool} {s' : Scanner} (hs : s.cursor.At t line false)
    (hok : atEndOfLine s = .ok a s') :
    (a = true ∧ AfterLine s' t line) ∨ (a = false ∧ s'.cursor.At t line false) := by
  obtain ⟨newline, u, hskip, hok⟩ := bind_eq_ok.mp hok
  rcases test_ok hs hskip with ⟨rfl, b, rest, hb, ht, hat, _⟩ | ⟨rfl, hat, _, heof, _⟩
  · obtain rfl : b = 10 := eq_of_beq hb
    cases hok
    exact Or.inl ⟨rfl, Or.inl ⟨{ bytes := rest, failure? := t.failure? }, ht, hat⟩⟩
  · cases hok
    rw [heof]
    by_cases hover : t = { bytes := [] }
    · exact Or.inl ⟨by simp [hover], Or.inr ⟨hover, hat⟩⟩
    · exact Or.inr ⟨by simp [hover], hat⟩

/-- Where the line must end and does, it has ended. -/
theorem endOfLine_ok {t : Tape} {s' : Scanner} (hs : s.cursor.At t line false)
    (hok : endOfLine s = .ok () s') : AfterLine s' t line := by
  obtain ⟨a, u, hend, hok⟩ := bind_eq_ok.mp hok
  rcases atEndOfLine_ok hs hend with ⟨rfl, hu⟩ | ⟨rfl, hu⟩
  · cases hok
    exact hu
  · obtain ⟨b, rest, hb, ht, hat, _⟩ := demand_ok hu hok
    obtain rfl : b = 10 := eq_of_beq hb
    exact Or.inl ⟨{ bytes := rest, failure? := t.failure? }, ht, hat⟩

end TabMarkup.Scan
