import TabMarkup.Compilation
import TabMarkup.Proofs.Rounds
import TabMarkup.Proofs.StepBack

/-!
# Parsing makes progress

No byte comes only where the end is noted, and the end stays noted whatever is called then. Every
loop of the parser takes bytes in each of its rounds, the one over the lines too. So whatever a
source delivers, however it fails and whatever its announced size is, parsing comes to an end after
no more lines than there are bytes (`parse_makes_progress`).
-/

namespace TabMarkup

open Scan Directive Line

namespace Cursor

/-- The end is noted, and there is nothing to step back over. -/
structure Over (c : Cursor) : Prop where
  isEof : c.isEof = true
  last_eq : c.last? = none

variable {c d : Cursor}

/-- At the end, another try finds no byte either. -/
theorem Over.next (h : c.Over) : c.next = (.ok none, { c with paid := false }) := by
  obtain ⟨hended, hpos⟩ := Bool.and_eq_true_iff.mp h.isEof
  have hget : c.chunk[c.pos]? = none := Array.getElem?_eq_none (Nat.le_of_eq (eq_of_beq hpos).symm)
  have hrefill : { c with paid := false }.refill = (.ok (), { c with paid := false }) := by
    rw [refill, if_pos (Or.inr hended)]
  unfold Cursor.next
  rw [hrefill]
  simp only [hget, h.last_eq]

/-- No call leads away from the end. -/
theorem Over.move (h : c.Over) (move : Move) : (c.move move).Over := by
  cases move with
  | next =>
    change c.next.2.Over
    rw [h.next]
    exact ⟨h.isEof, h.last_eq⟩
  | back =>
    change c.pushBack.Over
    rw [pushBack, h.last_eq]
    exact h

theorem Over.run (h : c.Over) (moves : List Move) : (moves.foldl Cursor.move c).Over := by
  induction moves generalizing c with
  | nil => exact h
  | cons move moves ih => exact ih (h.move move)

/-- Where no byte came, it is the end. -/
theorem Sound.over_of_next (hc : c.Sound) (h : c.next = (.ok none, d)) : d.Over := by
  rcases hc.at_ahead.next_cases with ⟨b, rest, e, _, hnext, _⟩ | ⟨e, _, hnext, _, heof⟩ |
    ⟨message, e, _, hnext, _⟩
  · cases h.symm.trans hnext
  · cases h.symm.trans hnext
    refine ⟨heof, ?_⟩
    have hlast := last?_move c .next
    change c.next.2.last? = holdAfter c.last? (some c.next.1) at hlast
    rwa [hnext] at hlast
  · cases h.symm.trans hnext

end Cursor

/-- For every source and every announced size:

* after any calls the cursor is sound, and where no byte comes then, the end is noted and stays
  noted: no further calls find a byte;
* the runs of bytes, leading tabs among them, the segments of a path and the items of a tag are
  loops, and each of their rounds takes bytes from a sound cursor;
* so does a line, and parsing makes rounds over the lines, no more than bytes are delivered, and one
  last try. That finds the end, and there are fragments, or it stops with the error. -/
theorem parse_makes_progress (source : Source) (size? : Option Nat) :
    let start := Scanner.ofSource source size?
    (∀ moves : List Move,
      let c := moves.foldl Cursor.move start.cursor
      c.Sound ∧ ∀ d, c.next = (.ok none, d) → ∀ later : List Move,
        (later.foldl Cursor.move d).isEof = true ∧
          (later.foldl Cursor.move d).next.1 = .ok none) ∧
    (∀ keep p, Repeats (NextByte keep p) (countWhile keep p) (endRun keep p) ∧
      Progresses (NextByte keep p)) ∧
    (Repeats (NextEntry true (.char '\\') word)
        (separatedBy true (.char '\\') word forward_word) (endList true (.char '\\') word) ∧
      Progresses (NextEntry true (.char '\\') word)) ∧
    (Repeats (NextEntry false (.char ' ') item)
        (separatedBy false (.char ' ') item forward_item) (endList false (.char ' ') item) ∧
      Progresses (NextEntry false (.char ' ') item)) ∧
    Progresses NextLine ∧
    ∃ lines t, Rounds NextLine start lines t ∧
      lines.length ≤ (source.deliver size?).bytes.length ∧
      ((∃ u fragments, Line.read t = .ok none u ∧
          (Compilation.parse source size?).result = .ok fragments) ∨
        ∃ stop u, Line.read t = .error stop u ∧
          (Compilation.parse source size?).result = .error stop.error) := by
  intro start
  refine ⟨fun moves => ?_, fun keep p => ⟨repeats_countWhile keep p, progresses_nextByte keep p⟩,
    ⟨repeats_separatedBy _ _ _ _, progresses_nextEntry takes_word⟩,
    ⟨repeats_separatedBy _ _ _ _, progresses_nextEntry takes_item⟩, progresses_nextLine, ?_⟩
  · intro c
    have hsound : c.Sound := ((Cursor.steady_ofSource source size?).run moves).toSound
    refine ⟨hsound, fun d hnone later => ?_⟩
    have hover := (hsound.over_of_next hnone).run later
    exact ⟨hover.isEof, by rw [hover.next]⟩
  · have hat : start.cursor.At (source.deliver size?) 1 false := Cursor.at_ofSource source size?
    obtain ⟨lines, t, hrounds, hend⟩ := readAll_rounds start
    obtain ⟨_, w, hle, hahead⟩ := hrounds.takes progresses_nextLine hat.sound
    have hbytes : lines.length ≤ (source.deliver size?).bytes.length := by
      rw [← hat.ahead_eq, hahead, Tape.prepend, List.length_append]
      omega
    refine ⟨lines, t, hrounds, hbytes, ?_⟩
    unfold Compilation.parse
    rcases hend with ⟨u, hread, hall⟩ | ⟨stop, u, hread, hall⟩
    · exact Or.inl ⟨u, _, hread, by rw [hall]; rfl⟩
    · exact Or.inr ⟨stop, u, hread, by rw [hall]; rfl⟩

end TabMarkup
