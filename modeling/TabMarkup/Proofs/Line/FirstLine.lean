import TabMarkup.Proofs.Line.Completeness
import TabMarkup.Proofs.Line.EndSimulation

/-!
# What stops a line depends on the line alone

Two texts with the same first line are compared, whatever the numbers of the line are, whatever
stands behind its newline and whatever token was left by the line before. The same line is read in
both, each with its own number, or both stop with the same fault and as much of the line known
(`alike_read`).
-/

namespace TabMarkup

open Grammar Scan

/-- The same up to the first newline, or to the end if there is none. -/
inductive SameFirstLine : List UInt8 → List UInt8 → Prop where
  | nil : SameFirstLine [] []
  | cons {b : UInt8} {u v : List UInt8} (h : b ≠ 10 → SameFirstLine u v) :
      SameFirstLine (b :: u) (b :: v)

namespace SameFirstLine

theorem refl (bytes : List UInt8) : SameFirstLine bytes bytes := by
  induction bytes with
  | nil => exact nil
  | cons b bytes ih => exact cons fun _ => ih

/-- What stands behind the newline makes no difference. -/
theorem of_newline (w u v : List UInt8) : SameFirstLine (w ++ 10 :: u) (w ++ 10 :: v) := by
  induction w with
  | nil => exact cons fun h => absurd rfl h
  | cons b w ih => exact cons fun _ => ih

/-- Both texts begin with as many tabs. -/
theorem exists_tabs {bytes bytes' : List UInt8} (h : SameFirstLine bytes bytes') :
    ∃ count w w', bytes = tabs count ++ w ∧ bytes' = tabs count ++ w' ∧ SameFirstLine w w' ∧
      Stops (.char '\t') w ∧ Stops (.char '\t') w' := by
  induction h with
  | nil => exact ⟨0, [], [], rfl, rfl, nil, stops_nil _, stops_nil _⟩
  | @cons b u v h ih =>
    by_cases hb : b = 9
    · obtain ⟨count, w, w', rfl, rfl, hsame, hw, hw'⟩ := ih (by simp [hb])
      exact ⟨count + 1, w, w', by rw [hb]; rfl, by rw [hb]; rfl, hsame, hw, hw'⟩
    · have hstops : (Pattern.char '\t').admits b = false := beq_false_of_ne hb
      exact ⟨0, b :: u, b :: v, rfl, rfl, cons h, stops_cons hstops, stops_cons hstops⟩

end SameFirstLine

/-- The same fault, on line `number` and on line `number'`. -/
def SameFault (number number' : Nat) (e e' : ParseError) : Prop :=
  e.fault = e'.fault ∧ e.line = number ∧ e'.line = number'

/-- Two cursors inside line `number` and line `number'`, of which the same is left, up to the same
failure if there is one. -/
def SameLine (number number' : Nat) (c d : Cursor) : Prop :=
  ∃ bytes bytes' failure?, SameFirstLine bytes bytes' ∧ c.At { bytes, failure? } number false ∧
    d.At { bytes := bytes', failure? } number' false

/-- Two scanners before a first byte of line `number` and line `number'`, which begin alike. -/
def SameStart (number number' : Nat) (s t : Scanner) : Prop :=
  ∃ b u v failure? line line' owed owed', b ≠ 10 ∧ SameFirstLine u v ∧
    s.cursor.At { bytes := b :: u, failure? } line owed ∧
    t.cursor.At { bytes := b :: v, failure? } line' owed' ∧
    (if owed then line + 1 else line) = number ∧ (if owed' then line' + 1 else line') = number'

variable {number number' : Nat} {s t : Scanner}

/-! ## Single bytes -/

/-- A byte that the pattern admits is no newline. -/
theorem ne_newline_of_admits {p : Pattern} {b : UInt8} (hp : p.admits 10 = false)
    (hb : p.admits b = true) : b ≠ 10 := by
  rintro rfl
  rw [hp] at hb
  cases hb

namespace SameStart

/-- The first byte is taken in both or in none. -/
theorem test (h : SameStart number number' s t) (keep : Bool) (p : Pattern) :
    Alike (SameFault number number') (fun a u a' v => a = a' ∧
      (a = true → SameLine number number' u.cursor v.cursor) ∧
      (a = false → SameStart number number' u v))
      (Scan.test keep p s) (Scan.test keep p t) := by
  obtain ⟨b, u, v, failure?, line, line', owed, owed', hne, hsame, hs, ht, hnumber, hnumber'⟩ := h
  apply alike_test_cons keep hs ht
  · intro _ x y hx hy _
    rw [hnumber, beq_false_of_ne hne] at hx
    rw [hnumber', beq_false_of_ne hne] at hy
    have hline : SameLine number number' x.cursor y.cursor := ⟨u, v, _, hsame, hx, hy⟩
    exact ⟨rfl, fun _ => hline, Bool.noConfusion⟩
  · intro _ x y hx hy _ _
    have hstart : SameStart number number' x y :=
      ⟨b, u, v, _, line, line', owed, owed', hne, hsame, hx, hy, hnumber, hnumber'⟩
    exact ⟨rfl, Bool.noConfusion, fun _ => hstart⟩

/-- The first byte is what is demanded in both, or the same fault in both. -/
theorem demand (h : SameStart number number' s t) (hscratch : s.scratch = t.scratch) (keep : Bool)
    (p : Pattern) :
    Alike (SameFault number number') (fun _ u _ v => SameToken (SameLine number number') u v)
      (Scan.demand keep p s) (Scan.demand keep p t) := by
  obtain ⟨b, u, v, failure?, line, line', owed, owed', hne, hsame, hs, ht, hnumber, hnumber'⟩ := h
  apply alike_demand_cons keep hs ht
  · intro _ x y hx hy hkeep
    rw [hnumber, beq_false_of_ne hne] at hx
    rw [hnumber', beq_false_of_ne hne] at hy
    exact ⟨⟨u, v, _, hsame, hx, hy⟩, hkeep hscratch⟩
  · exact ⟨rfl, hnumber, hnumber'⟩

end SameStart

namespace SameLine

/-- Trying a byte comes to the same in both lines, and keeps tokens the same. -/
theorem test (h : SameLine number number' s.cursor t.cursor) (keep : Bool) {p : Pattern}
    (hp : p.admits 10 = false) :
    Alike (SameFault number number') (fun a u a' v => a = a' ∧
      SameLine number number' u.cursor v.cursor ∧ (s.scratch = t.scratch → u.scratch = v.scratch))
      (Scan.test keep p s) (Scan.test keep p t) := by
  obtain ⟨bytes, bytes', failure?, hsame, hs, ht⟩ := h
  cases hsame with
  | nil =>
    cases failure? with
    | none =>
      obtain ⟨x, hsx, hx, hscratchx, _⟩ := test_over keep (p := p) hs
      obtain ⟨y, hty, hy, hscratchy, _⟩ := test_over keep (p := p) ht
      rw [hsx, hty]
      exact .ok ⟨rfl, ⟨[], [], none, .nil, hx, hy⟩, fun h => by rw [hscratchx, hscratchy, h]⟩
    | some message =>
      obtain ⟨x, hsx⟩ := test_failure keep (p := p) hs
      obtain ⟨y, hty⟩ := test_failure keep (p := p) ht
      rw [hsx, hty]
      exact .error ⟨rfl, rfl, rfl⟩
  | @cons b u v h =>
    apply alike_test_cons keep hs ht
    · intro hb x y hx hy hkeep
      have hne : b ≠ 10 := ne_newline_of_admits hp hb
      rw [beq_false_of_ne hne] at hx hy
      exact ⟨rfl, ⟨u, v, _, h hne, hx, hy⟩, hkeep⟩
    · intro _ x y hx hy hkeep _
      exact ⟨rfl, ⟨_, _, _, .cons h, hx, hy⟩, hkeep⟩

/-- Demanding a byte comes to the same in both lines, and keeps tokens the same. -/
theorem demand (h : SameLine number number' s.cursor t.cursor) (keep : Bool) {p : Pattern}
    (hp : p.admits 10 = false) :
    Alike (SameFault number number') (fun _ u _ v => SameLine number number' u.cursor v.cursor ∧
      (s.scratch = t.scratch → u.scratch = v.scratch))
      (Scan.demand keep p s) (Scan.demand keep p t) := by
  obtain ⟨bytes, bytes', failure?, hsame, hs, ht⟩ := h
  cases hsame with
  | nil =>
    cases failure? with
    | none =>
      obtain ⟨x, hsx⟩ := demand_over keep (p := p) hs
      obtain ⟨y, hty⟩ := demand_over keep (p := p) ht
      rw [hsx, hty]
      exact .error ⟨rfl, rfl, rfl⟩
    | some message =>
      obtain ⟨x, hsx⟩ := demand_failure keep (p := p) hs
      obtain ⟨y, hty⟩ := demand_failure keep (p := p) ht
      rw [hsx, hty]
      exact .error ⟨rfl, rfl, rfl⟩
  | @cons b u v h =>
    apply alike_demand_cons keep hs ht
    · intro hb x y hx hy hkeep
      have hne : b ≠ 10 := ne_newline_of_admits hp hb
      rw [beq_false_of_ne hne] at hx hy
      exact ⟨⟨u, v, _, h hne, hx, hy⟩, hkeep⟩
    · exact ⟨rfl, rfl, rfl⟩

/-- The line ends in both or in none. -/
theorem atEndOfLine (h : SameLine number number' s.cursor t.cursor) :
    Alike (SameFault number number') (fun a u a' v => a = a' ∧
      (a = false → SameLine number number' u.cursor v.cursor ∧
        (s.scratch = t.scratch → u.scratch = v.scratch)))
      (Line.atEndOfLine s) (Line.atEndOfLine t) := by
  obtain ⟨bytes, bytes', failure?, hsame, hs, ht⟩ := h
  cases hsame with
  | nil =>
    cases failure? with
    | none =>
      obtain ⟨x, hsx, _⟩ := atEndOfLine_over hs
      obtain ⟨y, hty, _⟩ := atEndOfLine_over ht
      rw [hsx, hty]
      exact .ok ⟨rfl, fun hfalse => by cases hfalse⟩
    | some message =>
      obtain ⟨x, hsx⟩ := atEndOfLine_failure hs
      obtain ⟨y, hty⟩ := atEndOfLine_failure ht
      rw [hsx, hty]
      exact .error ⟨rfl, rfl, rfl⟩
  | @cons b u v h =>
    by_cases hb : b = 10
    · subst hb
      obtain ⟨x, hsx, _⟩ := atEndOfLine_newline hs
      obtain ⟨y, hty, _⟩ := atEndOfLine_newline ht
      rw [hsx, hty]
      exact .ok ⟨rfl, fun hfalse => by cases hfalse⟩
    · obtain ⟨x, hsx, hx, hscratchx⟩ := atEndOfLine_inside hs hb
      obtain ⟨y, hty, hy, hscratchy⟩ := atEndOfLine_inside ht hb
      rw [hsx, hty]
      refine .ok ⟨rfl, fun _ => ⟨⟨_, _, _, .cons h, hx, hy⟩, fun h => ?_⟩⟩
      rw [hscratchx, hscratchy, h]

/-- Where the line must end, it does in both, or the same byte is in the way. -/
theorem endOfLine (h : SameLine number number' s.cursor t.cursor) :
    Alike (SameFault number number') (fun _ _ _ _ => True) (Line.endOfLine s)
      (Line.endOfLine t) := by
  obtain ⟨bytes, bytes', failure?, hsame, hs, ht⟩ := h
  cases hsame with
  | nil =>
    cases failure? with
    | none =>
      obtain ⟨x, hsx, _⟩ := endOfLine_of_lineEnd hs lineEnd_nil
      obtain ⟨y, hty, _⟩ := endOfLine_of_lineEnd ht lineEnd_nil
      rw [hsx, hty]
      exact .ok trivial
    | some message =>
      obtain ⟨x, hsx⟩ := atEndOfLine_failure hs
      obtain ⟨y, hty⟩ := atEndOfLine_failure ht
      rw [Line.endOfLine, bind_of_error hsx, bind_of_error hty]
      exact .error ⟨rfl, rfl, rfl⟩
  | @cons b u v h =>
    by_cases hb : b = 10
    · subst hb
      obtain ⟨x, hsx, _⟩ := atEndOfLine_newline hs
      obtain ⟨y, hty, _⟩ := atEndOfLine_newline ht
      rw [Line.endOfLine, bind_of_ok hsx, bind_of_ok hty]
      exact .ok trivial
    · obtain ⟨x, hsx⟩ := endOfLine_inside hs hb
      obtain ⟨y, hty⟩ := endOfLine_inside ht hb
      rw [hsx, hty]
      exact .error ⟨rfl, rfl, rfl⟩

/-- Being in the same line is a simulation up to its end. -/
theorem simulation :
    EndSimulation number number' (SameLine number number') (SameFault number number') where
  line_eq _ _ := by
    rintro ⟨_, _, _, _, hc, hd⟩
    exact ⟨hc.line_eq, hd.line_eq⟩
  fault _ _ := ⟨rfl, rfl, rfl⟩
  test keep _ _ _ hp hst := hst.test keep hp
  demand keep _ _ _ hp hst := hst.demand keep hp
  atEndOfLine _ _ hst := hst.atEndOfLine
  endOfLine _ _ hst := hst.endOfLine

end SameLine

/-! ## Lines -/

/-- The name of a tag, from its first letter on. -/
theorem SameStart.tagName (h : SameStart number number' s t) :
    Alike (SameFault number number')
      (fun name u name' v => name = name' ∧ SameToken (SameLine number number') u v)
      (Line.tagName s) (Line.tagName t) := by
  have hclear : Alike (SameFault number number')
      (fun _ u _ v => SameStart number number' u v ∧ u.scratch = v.scratch)
      (clearScratch s) (clearScratch t) := .ok ⟨h, rfl⟩
  have hmore : Respects (SameToken (SameLine number number')) (SameFault number number')
      (acceptWhile .letter) := SameLine.simulation.simulation.respects_acceptWhile rfl
  refine hclear.bind fun _ u _ v _ huv => ?_
  have hrun : Alike (SameFault number number')
      (fun _ u _ v => SameToken (SameLine number number') u v)
      (expectRun .letter u) (expectRun .letter v) := by
    refine (huv.1.demand huv.2 true .letter).bind fun _ x _ y _ hxy => ?_
    exact (hmore x y hxy).bind fun _ _ _ _ _ hpost => .ok hpost.2
  exact hrun.bind fun _ x _ y _ hxy => SameLine.simulation.simulation.takeScratch x y hxy

/-- What was read of two texts, if anything, is the same line in two places. -/
abbrev SameFound (tabs number tabs' number' : Nat) : Option Line → Option Line → Prop :=
  Option.Rel (Line.Counterpart tabs number tabs' number')

/-- Both stopped with the same fault, each in its own place. -/
abbrev SameStop (tabs number tabs' number' : Nat) : Line.Stop → Line.Stop → Prop :=
  Line.StopsAlike (SameFault number number') tabs number tabs' number'

/-- Two texts begin alike behind their tabs: the same line is read in both or the same stops
both. -/
theorem alike_read_behind_tabs {count count' : Nat} {w w' : List UInt8} {line line' : Nat}
    {owed owed' : Bool} (hsame : SameFirstLine w w') (hw : Stops (.char '\t') w)
    (hw' : Stops (.char '\t') w') (hs : s.cursor.At { bytes := tabs count ++ w } line owed)
    (ht : t.cursor.At { bytes := tabs count' ++ w' } line' owed')
    (hnumber : (if owed then line + 1 else line) = number)
    (hnumber' : (if owed' then line' + 1 else line') = number') :
    Alike (SameStop count number count' number')
      (fun found? _ found?' _ => SameFound count number count' number' found? found?')
      (Line.read s) (Line.read t) := by
  cases hsame with
  | nil =>
    rw [List.append_nil] at hs ht
    obtain ⟨x, hsx⟩ := read_of_tabs hs
    obtain ⟨y, hty⟩ := read_of_tabs ht
    rw [hsx, hty]
    exact .ok .none
  | @cons b u v h =>
    by_cases hb : b = 10
    · subst hb
      obtain ⟨x, hsx, _⟩ :=
        read_of_lineText hs hnumber (LineText.blank count) (lineEnd_newline u) (by simp)
      obtain ⟨y, hty, _⟩ :=
        read_of_lineText ht hnumber' (LineText.blank count') (lineEnd_newline v) (by simp)
      rw [hsx, hty]
      exact .ok (.some .blank)
    · have htab : b ≠ 9 := ne_of_beq_false (hw b rfl)
      obtain ⟨x, k, o, hsx, hx, hk⟩ := read_eq_content hs htab hb
      obtain ⟨y, k', o', hty, hy, hk'⟩ := read_eq_content ht htab hb
      rw [hsx, hty]
      have hstart : SameStart number number' x y :=
        ⟨b, u, v, none, k, k', o, o', hb, h hb, hx, hy, hk.trans hnumber, hk'.trans hnumber'⟩
      have hcontent := SameLine.simulation.content count count'
        (hstart.test false (.char '\x7b')) fun _ _ huv => huv.tagName
      exact hcontent.bind fun _ _ _ _ _ hline => .ok (.some hline)

/-- The same line is read in both of two texts that begin with it, or the same stops both. -/
theorem alike_read {bytes bytes' : List UInt8} {line line' : Nat} {owed owed' : Bool}
    (hsame : SameFirstLine bytes bytes') (hs : s.cursor.At { bytes } line owed)
    (ht : t.cursor.At { bytes := bytes' } line' owed')
    (hnumber : (if owed then line + 1 else line) = number)
    (hnumber' : (if owed' then line' + 1 else line') = number') :
    ∃ count, Alike (SameStop count number count number')
      (fun found? _ found?' _ => SameFound count number count number' found? found?')
      (Line.read s) (Line.read t) := by
  obtain ⟨count, w, w', rfl, rfl, hsame, hw, hw'⟩ := hsame.exists_tabs
  exact ⟨count, alike_read_behind_tabs hsame hw hw' hs ht hnumber hnumber'⟩

end TabMarkup
