import TabMarkup.Proofs.Line.RowByRow

/-!
# A newline behind the last line

A text without a newline is read beside the same text with a newline behind it. The end of the
source is met by the one where the newline is met by the other, and both end a line. So the same
line is read, and where a byte is missing for the one the newline is in the way of the other
(`newlineBehind_of_notMem`).
-/

namespace TabMarkup

open Grammar Scan

/-- The fault where a newline comes in place of the end of the source. -/
def Fault.atNewline : Fault → Fault
  | .unexpectedEnd expected => .unexpectedByte expected 10
  | fault => fault

theorem Fault.atNewline_atNewline (fault : Fault) :
    fault.atNewline.atNewline = fault.atNewline := by
  cases fault <;> rfl

/-- The error where a newline comes in place of the end of the source. -/
def ParseError.atNewline (e : ParseError) : ParseError :=
  { e with fault := e.fault.atNewline }

theorem ParseError.atNewline_atNewline (e : ParseError) : e.atNewline.atNewline = e.atNewline := by
  rw [atNewline, atNewline, Fault.atNewline_atNewline]

/-- The second error is the first one at a newline. -/
def AtNewline (e e' : ParseError) : Prop :=
  e' = e.atNewline

/-- Two cursors inside a line, the second with a newline behind all that is left to the first. -/
def NewlineLeft (number : Nat) (c d : Cursor) : Prop :=
  ∃ w, (10 : UInt8) ∉ w ∧ c.At { bytes := w } number false ∧
    d.At { bytes := w ++ [10] } number false

namespace NewlineLeft

variable {number : Nat} {s t : Scanner}

/-- Trying a byte comes to the same, since no byte of the line is a newline. -/
theorem test (h : NewlineLeft number s.cursor t.cursor) (keep : Bool) {p : Pattern}
    (hp : p.admits 10 = false) :
    Alike AtNewline (fun a u a' v => a = a' ∧ NewlineLeft number u.cursor v.cursor ∧
      (s.scratch = t.scratch → u.scratch = v.scratch))
      (Scan.test keep p s) (Scan.test keep p t) := by
  obtain ⟨w, hnotMem, hs, ht⟩ := h
  cases w with
  | nil =>
    obtain ⟨x, hsx, hx, hscratchx, _⟩ := test_over keep (p := p) hs
    obtain ⟨y, hty, hy, hscratchy, _⟩ := test_rejected keep ht hp
    rw [hsx, hty]
    exact .ok ⟨rfl, ⟨[], hnotMem, hx, hy⟩, fun h => by rw [hscratchx, hscratchy, h]⟩
  | cons b w =>
    have hne : b ≠ 10 := (List.ne_of_not_mem_cons hnotMem).symm
    have hrest : (10 : UInt8) ∉ w := List.not_mem_of_not_mem_cons hnotMem
    apply alike_test_cons keep hs ht
    · intro _ x y hx hy hkeep
      rw [beq_false_of_ne hne] at hx hy
      exact ⟨rfl, ⟨w, hrest, hx, hy⟩, hkeep⟩
    · intro _ x y hx hy hkeep _
      exact ⟨rfl, ⟨b :: w, hnotMem, hx, hy⟩, hkeep⟩

/-- A byte that is demanded is missing for the one where the other has the newline instead. -/
theorem demand (h : NewlineLeft number s.cursor t.cursor) (keep : Bool) {p : Pattern}
    (hp : p.admits 10 = false) :
    Alike AtNewline (fun _ u _ v => NewlineLeft number u.cursor v.cursor ∧
      (s.scratch = t.scratch → u.scratch = v.scratch))
      (Scan.demand keep p s) (Scan.demand keep p t) := by
  obtain ⟨w, hnotMem, hs, ht⟩ := h
  cases w with
  | nil =>
    obtain ⟨x, hsx⟩ := demand_over keep (p := p) hs
    obtain ⟨y, hty⟩ := demand_rejected keep ht hp
    rw [hsx, hty]
    exact .error rfl
  | cons b w =>
    have hne : b ≠ 10 := (List.ne_of_not_mem_cons hnotMem).symm
    have hrest : (10 : UInt8) ∉ w := List.not_mem_of_not_mem_cons hnotMem
    apply alike_demand_cons keep hs ht
    · intro _ x y hx hy hkeep
      rw [beq_false_of_ne hne] at hx hy
      exact ⟨⟨w, hrest, hx, hy⟩, hkeep⟩
    · exact rfl

/-- The line ends in both or in none. -/
theorem atEndOfLine (h : NewlineLeft number s.cursor t.cursor) :
    Alike AtNewline (fun a u a' v => a = a' ∧ (a = false → NewlineLeft number u.cursor v.cursor ∧
      (s.scratch = t.scratch → u.scratch = v.scratch)))
      (Line.atEndOfLine s) (Line.atEndOfLine t) := by
  obtain ⟨w, hnotMem, hs, ht⟩ := h
  cases w with
  | nil =>
    obtain ⟨x, hsx, _⟩ := atEndOfLine_over hs
    obtain ⟨y, hty, _⟩ := atEndOfLine_newline ht
    rw [hsx, hty]
    exact .ok ⟨rfl, fun hfalse => by cases hfalse⟩
  | cons b w =>
    have hne : b ≠ 10 := (List.ne_of_not_mem_cons hnotMem).symm
    obtain ⟨x, hsx, hx, hscratchx⟩ := atEndOfLine_inside hs hne
    obtain ⟨y, hty, hy, hscratchy⟩ := atEndOfLine_inside ht hne
    rw [hsx, hty]
    exact .ok ⟨rfl, fun _ => ⟨⟨_, hnotMem, hx, hy⟩, fun h => by rw [hscratchx, hscratchy, h]⟩⟩

/-- Where the line must end, it does in both, or the same byte is in the way. -/
theorem endOfLine (h : NewlineLeft number s.cursor t.cursor) :
    Alike AtNewline (fun _ _ _ _ => True) (Line.endOfLine s) (Line.endOfLine t) := by
  obtain ⟨w, hnotMem, hs, ht⟩ := h
  cases w with
  | nil =>
    obtain ⟨x, hsx, _⟩ := endOfLine_of_lineEnd hs lineEnd_nil
    obtain ⟨y, hty, _⟩ := endOfLine_of_lineEnd ht (lineEnd_newline [])
    rw [hsx, hty]
    exact .ok trivial
  | cons b w =>
    have hne : b ≠ 10 := (List.ne_of_not_mem_cons hnotMem).symm
    obtain ⟨x, hsx⟩ := endOfLine_inside hs hne
    obtain ⟨y, hty⟩ := endOfLine_inside ht hne
    rw [hsx, hty]
    exact .error rfl

/-- A newline behind the line is a simulation up to its end. -/
theorem simulation : EndSimulation number number (NewlineLeft number) AtNewline where
  line_eq _ _ := by
    rintro ⟨_, _, hc, hd⟩
    exact ⟨hc.line_eq, hd.line_eq⟩
  fault fault hfault := by
    cases hfault <;> rfl
  test keep _ _ _ hp hst := hst.test keep hp
  demand keep _ _ _ hp hst := hst.demand keep hp
  atEndOfLine _ _ hst := hst.atEndOfLine
  endOfLine _ _ hst := hst.endOfLine

end NewlineLeft

/-! ## Reading the line -/

/-- The same line is read, or a blank one where tabs in front of the end are none. -/
inductive SameOrBlank : Option Line → Option Line → Prop where
  | same (found? : Option Line) : SameOrBlank found? found?
  | blank : SameOrBlank none (some .blank)

/-- The second one stopped with the error of the first, at a newline if the first was at the end. -/
def StopAtNewline (stop stop' : Line.Stop) : Prop :=
  AtNewline stop.error stop'.error

/-- Behind the tabs the second one comes to its newline exactly where the first comes to the end. -/
theorem NewlineLeft.skip_newline {number : Nat} {s t : Scanner}
    (hst : SameToken (NewlineLeft number) s t) :
    Alike AtNewline (fun a u a' v => a = false ∧ ((a' = true ∧ u.cursor.isEof = true) ∨
      (a' = false ∧ u.cursor.isEof = false ∧ v.cursor.isEof = false ∧
        SameToken (NewlineLeft number) u v)))
      (skip (.char '\n') s) (skip (.char '\n') t) := by
  obtain ⟨⟨w, hnotMem, hs, ht⟩, hscratch⟩ := hst
  cases w with
  | nil =>
    obtain ⟨x, hsx, _, _, heof⟩ := test_over false (p := .char '\n') hs
    obtain ⟨y, hty, _⟩ := test_admitted false (p := .char '\n') ht rfl
    rw [skip, hsx, hty]
    exact .ok ⟨rfl, Or.inl ⟨rfl, heof⟩⟩
  | cons b w =>
    have hb : (Pattern.char '\n').admits b = false :=
      beq_false_of_ne (List.ne_of_not_mem_cons hnotMem).symm
    obtain ⟨x, hsx, hx, hscratchx, heof⟩ := test_rejected false hs hb
    obtain ⟨y, hty, hy, hscratchy, heof'⟩ := test_rejected false ht hb
    rw [skip, hsx, hty]
    have hxy : SameToken (NewlineLeft number) x y :=
      ⟨⟨b :: w, hnotMem, hx, hy⟩, by rw [hscratchx, hscratchy, hscratch]⟩
    exact .ok ⟨rfl, Or.inr ⟨rfl, heof, heof', hxy⟩⟩

/-- Behind its tabs a last line says the same with a newline behind it. -/
theorem NewlineLeft.content {number : Nat} {s t : Scanner}
    (hst : SameToken (NewlineLeft number) s t) (tabs : Nat) :
    Alike StopAtNewline (fun line _ line' _ => line = line') (Line.content tabs s)
      (Line.content tabs t) := by
  have hsimulation : EndSimulation number number (NewlineLeft number) AtNewline :=
    NewlineLeft.simulation
  have hbrace : Alike AtNewline (fun a u a' v => a = a' ∧
      (a = true → NewlineLeft number u.cursor v.cursor) ∧
      (a = false → SameToken (NewlineLeft number) u v))
      (skip (.char '\x7b') s) (skip (.char '\x7b') t) :=
    (hsimulation.simulation.respects_skip rfl s t hst).mono fun _ _ _ _ h =>
      ⟨h.1, fun _ => h.2.1, fun _ => h.2⟩
  have hcontent := hsimulation.content tabs tabs hbrace fun u v huv =>
    hsimulation.simulation.respects_tagName u v huv
  exact (hcontent.mono_error fun _ _ h => h.1).mono fun _ _ _ _ h => h.eq

/-- With a newline behind it a last line is read as it is without. -/
theorem alike_read_newlineLeft {number : Nat} {s t : Scanner}
    (hst : SameToken (NewlineLeft number) s t) :
    Alike StopAtNewline (fun found? _ found?' _ => SameOrBlank found? found?') (Line.read s)
      (Line.read t) := by
  have htabs : Respects (SameToken (NewlineLeft number)) AtNewline (skipWhile (.char '\t')) :=
    respects_countWhile (NewlineLeft.simulation.simulation.test false _ rfl)
  have hmargin {α : Type} {m : Scan α} {u v : Scanner} {post : α → Scanner → α → Scanner → Prop}
      (hm : Alike AtNewline post (m u) (m v)) :
      Alike StopAtNewline post (Line.reaching .margin m u) (Line.reaching .margin m v) :=
    Alike.reaching (fun _ _ he => he) hm
  refine (hmargin (htabs s t hst)).bind fun tabs u tabs' v _ huv => ?_
  obtain ⟨rfl, huv⟩ := huv
  refine (hmargin (NewlineLeft.skip_newline huv)).bind fun a x a' y _ hxy => ?_
  obtain ⟨rfl, ⟨rfl, heof⟩ | ⟨rfl, heof, heof', hxy⟩⟩ := hxy
  · have hisEof : isEof x = .ok true x := by rw [isEof, heof]
    change Alike StopAtNewline _ ((Line.reaching .margin isEof >>= _) x) (.ok (some Line.blank) y)
    rw [bind_of_ok (reaching_of_ok hisEof)]
    exact .ok .blank
  · have hisEof : isEof x = .ok false x := by rw [isEof, heof]
    have hisEof' : isEof y = .ok false y := by rw [isEof, heof']
    change Alike StopAtNewline _ ((Line.reaching .margin isEof >>= _) x)
      ((Line.reaching .margin isEof >>= _) y)
    rw [bind_of_ok (reaching_of_ok hisEof), bind_of_ok (reaching_of_ok hisEof')]
    refine (NewlineLeft.content hxy tabs).bind fun line _ line' _ _ hline => ?_
    obtain rfl := hline
    exact .ok (.same _)

/-! ## Readings -/

namespace Line.Reading

/-- What is read with a newline behind the text: at most a blank line more, and stopped at the
newline by what is stopped at the end without it. -/
structure NewlineBehind (r r' : Reading) : Prop where
  lines : r'.lines = r.lines ∨ r'.lines = r.lines ++ [.blank]
  error? : r'.stop?.map (·.error) = r.stop?.map (·.error.atNewline)

namespace NewlineBehind

variable {r r' : Reading}

theorem renumber (h : r.NewlineBehind r') (f : Nat → Nat) :
    (r.renumber f).NewlineBehind (r'.renumber f) where
  lines := by
    rcases h.lines with hlines | hlines
    · left
      simp [Reading.renumber, hlines]
    · right
      simp [Reading.renumber, hlines, Line.renumber]
  error? := by
    have herror := congrArg (Option.map (ParseError.renumber f)) h.error?
    simpa [Reading.renumber, Stop.renumber, ParseError.renumber, ParseError.atNewline,
      Function.comp_def] using herror

/-- What a newline stops is stopped by a newline. -/
theorem atNewline_eq (h : r.NewlineBehind r') : ∀ stop ∈ r'.stop?,
    stop.error.atNewline = stop.error := by
  intro stop hstop
  have herror := h.error?
  rw [Option.mem_def.mp hstop, Option.map_some] at herror
  obtain ⟨_, _, heq⟩ := Option.map_eq_some_iff.mp herror.symm
  rw [← heq, ParseError.atNewline_atNewline]

/-- In front of both stands something else, which has its own newline behind it. -/
theorem append {front : Reading} (hfront : ∀ stop ∈ front.stop?, stop.error.atNewline = stop.error)
    (h : r.NewlineBehind r') : (front.append r).NewlineBehind (front.append r') := by
  cases hstop : front.stop? with
  | some stop =>
    rw [append_of_some hstop, append_of_some hstop]
    refine ⟨Or.inl rfl, ?_⟩
    rw [hstop, Option.map_some, Option.map_some, hfront stop hstop]
  | none =>
    rw [append_of_none hstop, append_of_none hstop]
    refine ⟨?_, h.error?⟩
    rcases h.lines with hlines | hlines
    · exact Or.inl (by rw [hlines])
    · exact Or.inr (by rw [hlines, List.append_assoc])

end NewlineBehind

/-- A text without a newline is read as its only row. -/
theorem ofRows_of_notMem {w : List UInt8} (hw : (10 : UInt8) ∉ w) (number : Nat) :
    ofRows number (rows w) = (ofBytes w).renumber fun _ => number := by
  by_cases hne : w = []
  · subst hne
    rw [ofBytes, readAll_over (Cursor.at_ofBytes [])]
    rfl
  · rw [rows_of_notMem hne hw, ofRows_single]

/-- A text without a newline is read as with one behind it. -/
theorem newlineBehind_of_notMem {w : List UInt8} (hw : (10 : UInt8) ∉ w) :
    (ofBytes w).NewlineBehind (ofBytes (w ++ [10])) := by
  by_cases hne : w = []
  · subst hne
    have hover : ofBytes [] = { lines := [], stop? := none } :=
      readAll_over (Cursor.at_ofBytes [])
    have hblank : ofBytes ([] ++ [10]) = blank := ofBytes_blank 0
    rw [hover, hblank]
    exact ⟨Or.inr rfl, rfl⟩
  · have hs := Cursor.at_ofBytes w
    have ht := Cursor.at_ofBytes (w ++ [10])
    have hst : SameToken (NewlineLeft 1) (Scanner.ofSource (Source.ofBytes w))
        (Scanner.ofSource (Source.ofBytes (w ++ [10]))) := ⟨⟨w, hw, hs, ht⟩, rfl⟩
    have halike := alike_read_newlineLeft hst
    generalize hread : Line.read (Scanner.ofSource (Source.ofBytes w)) = result at halike
    generalize hread' : Line.read (Scanner.ofSource (Source.ofBytes (w ++ [10]))) = result'
      at halike
    cases halike with
    | cut hcut => exact hcut.elim
    | error hstop =>
      rw [ofBytes, ofBytes, readAll_of_error hread, readAll_of_error hread']
      exact ⟨Or.inl rfl, congrArg some hstop⟩
    | ok hfound =>
      have hrow : rows w = [w] := rows_of_notMem hne hw
      have hrow' : rows (w ++ [10]) = [w ++ [10]] := rows_append_newline hw []
      rw [ofBytes, ofBytes, readAll_of_only_row hs hrow hread,
        readAll_of_only_row ht hrow' hread']
      cases hfound with
      | same => exact ⟨Or.inl rfl, rfl⟩
      | blank => exact ⟨Or.inr rfl, rfl⟩

/-- Rows are read as with a newline behind the last of them, or as with an empty row behind them. -/
theorem newlineBehind_ofRows (bytes : List UInt8) (number : Nat) :
    (ofRows number (rows bytes)).NewlineBehind (ofRows number (rows (bytes ++ [10]))) := by
  induction bytes using newlineInduction generalizing number with
  | last w hw =>
    rw [ofRows_of_notMem hw, rows_append_newline hw [], rows, ofRows_single]
    exact (newlineBehind_of_notMem hw).renumber _
  | newline w rest hw ih =>
    have hended := ((newlineBehind_of_notMem hw).renumber fun _ => number).atNewline_eq
    rw [List.append_assoc, List.cons_append, rows_append_newline hw, rows_append_newline hw,
      ofRows, ofRows]
    exact .append hended (ih (number + 1))

end Line.Reading

end TabMarkup
