import TabMarkup.Proofs.Line.FirstLine
import TabMarkup.Proofs.Line.Soundness

/-!
# Where the reading of a line stops

A line that cannot be read is stopped at with its own number, unless a failure comes before its
first byte: that one still belongs to the line before. What is then known of the line is what it
begins with (`read_error`).
-/

namespace TabMarkup.Scan

open Grammar Line

/-- How much is known of line `number` where the reading of it stopped, and what the line begins
with then. -/
inductive StoppedAt (number : Nat) : List UInt8 → Reached → Prop where
  | margin (bytes : List UInt8) : StoppedAt number bytes .margin
  | indented (count : Nat) {b : UInt8} (rest : List UInt8) (htab : b ≠ 9) (hnewline : b ≠ 10) :
      StoppedAt number (tabs count ++ b :: rest) (.indented count)
  | opened (count : Nat) {x rest : List UInt8} (hx : IsRun .letter x) (hrest : Stops .letter rest) :
      StoppedAt number (tabs count ++ (x ++ rest)) (.opened count number (text x))

variable {s t : Scanner} {bytes : List UInt8} {failure? : Option String} {line number count : Nat}
  {owed keep : Bool} {p : Pattern} {e : ParseError} {stop : Stop}

theorem reaching_eq_error {α : Type} {reached : Reached} {m : Scan α} :
    reaching reached m s = .error stop t ↔ ∃ e, m s = .error e t ∧ stop = ⟨e, reached⟩ := by
  unfold reaching
  cases m s with
  | ok a u => exact ⟨nofun, nofun⟩
  | error e u =>
    refine ⟨fun h => ?_, fun h => ?_⟩
    · cases h
      exact ⟨e, rfl, rfl⟩
    · obtain ⟨_, herror, rfl⟩ := h
      cases herror
      rfl

/-! ## Runs of bytes -/

/-- Trying a byte fails only where there is none, and on the line of the one before. -/
theorem test_error (hs : s.cursor.At { bytes, failure? } line owed)
    (h : test keep p s = .error e t) : bytes = [] ∧ e.line = line := by
  cases bytes with
  | cons b bytes =>
    cases hb : p.admits b with
    | true =>
      obtain ⟨u, hok, _⟩ := test_admitted keep hs hb
      cases hok.symm.trans h
    | false =>
      obtain ⟨u, hok, _⟩ := test_rejected keep hs hb
      cases hok.symm.trans h
  | nil =>
    cases failure? with
    | none =>
      obtain ⟨u, hok, _⟩ := test_over keep (p := p) hs
      cases hok.symm.trans h
    | some message =>
      obtain ⟨u, herror⟩ := test_failure keep (p := p) hs
      cases herror.symm.trans h
      exact ⟨rfl, rfl⟩

/-- A run fails where it comes to the failure, on the line of the last byte. -/
theorem countWhile_error (hp : p.admits 10 = false)
    (hs : s.cursor.At { bytes, failure? } line owed) (h : countWhile keep p s = .error e t) :
    e.line = lineAfter line owed bytes := by
  induction hn : s.unread using Nat.strongRecOn generalizing s bytes line owed with
  | ind n ih =>
    rw [countWhile_eq] at h
    rcases bind_eq_error.mp h with htest | ⟨taken, u, htest, h⟩
    · obtain ⟨rfl, hline⟩ := test_error hs htest
      rw [lineAfter_nil, hline]
    · obtain ⟨w, rest, rfl, _, hu⟩ := takes_test keep hp hs htest
      cases taken with
      | false => cases h
      | true =>
        rcases bind_eq_error.mp h with hrun | ⟨k, v, _, h⟩
        · rw [ih u.unread (hn ▸ test_unread_lt htest) hu hrun rfl, lineAfter_append]
        · cases h

/-- A run that succeeds has taken all that it could. -/
theorem stops_of_countWhile {k : Nat} (hs : s.cursor.Sound) (h : countWhile keep p s = .ok k t) :
    Stops p t.cursor.ahead.bytes := by
  induction hn : s.unread using Nat.strongRecOn generalizing s k with
  | ind n ih =>
    rw [countWhile_eq] at h
    obtain ⟨taken, u, htest, h⟩ := bind_eq_ok.mp h
    rcases test_ok hs.at_ahead htest with ⟨rfl, _, _, _, _, hu, _⟩ | ⟨rfl, hu, _, _, hstops⟩
    · obtain ⟨k', v, hrun, h⟩ := bind_eq_ok.mp h
      cases h
      exact ih u.unread (hn ▸ test_unread_lt htest) hu.sound hrun rfl
    · cases h
      rw [hu.ahead_eq]
      exact hstops

/-- A tag name ends where no letter comes. -/
theorem stops_of_tagName {name : String} (hs : s.cursor.At { bytes, failure? } line owed)
    (h : tagName s = .ok name t) : Stops .letter t.cursor.ahead.bytes := by
  obtain ⟨_, u, hclear, h⟩ := bind_eq_ok.mp h
  obtain ⟨_, v, hrun, htake⟩ := bind_eq_ok.mp h
  obtain ⟨_, x, hfirst, hmore⟩ := bind_eq_ok.mp hrun
  obtain ⟨k, y, hwhile, hmore⟩ := bind_eq_ok.mp hmore
  cases hclear
  cases hmore
  cases htake
  obtain ⟨_, _, _, _, hx⟩ := takes_demand true rfl (s := { s with scratch := #[] }) hs hfirst
  have hstops := stops_of_countWhile hx.sound hwhile
  exact hstops

/-! ## Lines -/

/-- Behind its tabs a line is stopped at with its own number. -/
theorem content_error {b : UInt8} {rest : List UInt8} (hb : b ≠ 10)
    (hs : s.cursor.At { bytes := b :: rest, failure? } line owed)
    (hnumber : (if owed then line + 1 else line) = number)
    (h : content count s = .error stop t) :
    stop.error.line = number ∧ (stop.reached = .indented count ∨
      ∃ x rest', b :: rest = x ++ rest' ∧ IsRun .letter x ∧ Stops .letter rest' ∧
        stop.reached = .opened count number (text x)) := by
  constructor
  · -- The line is compared with itself, since what stops both is then on this line.
    have hstart : SameStart number number s s :=
      ⟨b, rest, rest, failure?, line, line, owed, owed, hb, .refl rest, hs, hs, hnumber, hnumber⟩
    have hsame := SameLine.simulation.content count count (hstart.test false (.char '\x7b'))
      fun _ _ huv => huv.tagName
    rw [h] at hsame
    cases hsame with
    | error hstop => exact hstop.1.2.1
    | cut hcut => exact hcut.elim
  · rcases bind_eq_error.mp h with hskip | ⟨brace, u, hskip, h⟩
    · obtain ⟨e, _, rfl⟩ := reaching_eq_error.mp hskip
      exact Or.inl rfl
    obtain ⟨_, rest', hbytes, hbrace, hu⟩ := takes_skip rfl hs (reaching_eq_ok.mp hskip)
    rcases hbrace with ⟨rfl, rfl, _⟩ | ⟨rfl, rfl, _⟩
    · rcases bind_eq_error.mp h with hline | ⟨d, v, _, h⟩
      · obtain ⟨e, _, rfl⟩ := reaching_eq_error.mp hline
        exact Or.inl rfl
      · cases h
    rcases bind_eq_error.mp h with hname | ⟨name, v, hname, h⟩
    · obtain ⟨e, _, rfl⟩ := reaching_eq_error.mp hname
      exact Or.inl rfl
    have hname := reaching_eq_ok.mp hname
    have hstops := stops_of_tagName hu hname
    obtain ⟨x, rest'', hrest, ⟨hx, rfl⟩, hv⟩ := takes_tagName hu hname
    rw [hv.ahead_eq] at hstops
    rcases bind_eq_error.mp h with hline | ⟨k, v', hline, h⟩
    · obtain ⟨e, hline, _⟩ := reaching_eq_error.mp hline
      cases hline
    cases reaching_eq_ok.mp hline
    have hvline : v.cursor.line = number := by
      rw [hv.line_eq, lineAfter_append, lineAfter_of_ne_nil _ _ (by simpa using hx.1), hnumber]
    rw [hvline] at h
    rcases bind_eq_error.mp h with hbody | ⟨body, x', _, h⟩
    · rcases bind_eq_error.mp hbody with hend | ⟨ended, y, _, hbody⟩
      · obtain ⟨e, _, rfl⟩ := reaching_eq_error.mp hend
        exact Or.inl rfl
      cases ended with
      | true => cases hbody
      | false =>
        rcases bind_eq_error.mp hbody with hbar | ⟨bar, z, _, hbody⟩
        · obtain ⟨e, _, rfl⟩ := reaching_eq_error.mp hbar
          exact Or.inl rfl
        · obtain ⟨e, _, rfl⟩ := reaching_eq_error.mp hbody
          exact Or.inr ⟨x, rest'', hbytes.trans hrest, hx, hstops, rfl⟩
    · cases h

/-- A line is stopped at with its own number, unless a failure comes before its first byte. -/
theorem read_error (hs : s.cursor.At { bytes, failure? } line owed)
    (hnumber : (if owed then line + 1 else line) = number)
    (h : Line.read s = .error stop t) :
    (bytes = [] ∧ stop.error.line = line ∧ stop.reached = .margin) ∨
      (stop.error.line = number ∧ StoppedAt number bytes stop.reached) := by
  have hafter : ∀ w : List UInt8, w ≠ [] → lineAfter line owed w = number := by
    intro w hw
    rw [lineAfter_of_ne_nil _ _ hw, hnumber]
  rcases bind_eq_error.mp h with hmargin | ⟨count, u, hmargin, h⟩
  · obtain ⟨e, htabs, rfl⟩ := reaching_eq_error.mp hmargin
    have hline := countWhile_error rfl hs htabs
    by_cases hbytes : bytes = []
    · exact Or.inl ⟨hbytes, by simpa [hbytes] using hline, rfl⟩
    · exact Or.inr ⟨hline.trans (hafter bytes hbytes), .margin bytes⟩
  have hmargin := reaching_eq_ok.mp hmargin
  have hstops := stops_of_countWhile hs.sound hmargin
  obtain ⟨_, rest, rfl, ⟨rfl, _⟩, hu⟩ := takes_margin hs hmargin
  rw [hu.ahead_eq] at hstops
  rcases bind_eq_error.mp h with hskip | ⟨newline, v, hskip, h⟩
  · obtain ⟨e, htest, rfl⟩ := reaching_eq_error.mp hskip
    obtain ⟨rfl, hline⟩ := test_error hu htest
    cases count with
    | zero => exact Or.inl ⟨rfl, by simpa [tabs] using hline, rfl⟩
    | succ count => exact Or.inr ⟨hline.trans (hafter _ (by simp [tabs])), .margin _⟩
  rcases test_ok hu (reaching_eq_ok.mp hskip) with ⟨rfl, _⟩ | ⟨rfl, hv, _, heof, hnewline⟩
  · cases h
  rcases bind_eq_error.mp h with hisEof | ⟨eof, v', hisEof, h⟩
  · obtain ⟨e, hisEof, _⟩ := reaching_eq_error.mp hisEof
    cases hisEof
  cases reaching_eq_ok.mp hisEof
  rw [heof] at h
  have hmore : rest ≠ [] := by
    rintro rfl
    cases failure? with
    | none => simp at h; cases h
    | some message =>
      -- Had the failure come next, trying the newline would have met it.
      obtain ⟨x, herror⟩ := test_failure false (p := .char '\n') hu
      cases herror.symm.trans (reaching_eq_ok.mp hskip)
  obtain ⟨b, rest, rfl⟩ := List.exists_cons_of_ne_nil hmore
  have hb : b ≠ 10 := ne_of_beq_false (hnewline b rfl)
  rcases bind_eq_error.mp h with hcontent | ⟨entry, x, _, h⟩
  · have hnumber' : (if owedAfter owed (tabs count) then lineAfter line owed (tabs count) + 1
        else lineAfter line owed (tabs count)) = number := by
      cases owed <;> cases count <;> exact hnumber
    obtain ⟨hline, hreached⟩ := content_error hb hv hnumber' hcontent
    refine Or.inr ⟨hline, ?_⟩
    rcases hreached with hreached | ⟨x, rest', hrest, hx, hrest', hreached⟩
    · rw [hreached]
      exact .indented count rest (ne_of_beq_false (hstops b rfl)) hb
    · rw [hreached, hrest]
      exact .opened count hx hrest'
  · cases h

end TabMarkup.Scan
