import TabMarkup.Proofs.Cursor
import TabMarkup.Scanner

/-!
# Scanning along a tape

What trying, demanding and collecting bytes come to, said of the tape ahead of the cursor. A byte
that is tried in vain leaves the tape, the line and the token as they were; the end of a line can
be asked for right after it, since the end is then met exactly where the tape is used up.
-/

namespace TabMarkup.Scan

/-- After a first part that succeeds, the second part runs. -/
theorem bind_of_ok {ε α β : Type} {m : EStateM ε Scanner α} {f : α → EStateM ε Scanner β}
    {s t : Scanner} {a : α} (h : m s = .ok a t) : (m >>= f) s = f a t := by
  change EStateM.bind m f s = _
  rw [EStateM.bind, h]

/-- After a first part that stops, nothing runs. -/
theorem bind_of_error {ε α β : Type} {m : EStateM ε Scanner α} {f : α → EStateM ε Scanner β}
    {s t : Scanner} {e : ε} (h : m s = .error e t) : (m >>= f) s = .error e t := by
  change EStateM.bind m f s = _
  rw [EStateM.bind, h]

/-- A sequence stops where its first part does, or where its second part does after it. -/
theorem bind_eq_error {ε α β : Type} {m : EStateM ε Scanner α} {f : α → EStateM ε Scanner β}
    {s u : Scanner} {e : ε} :
    (m >>= f) s = .error e u ↔
      m s = .error e u ∨ ∃ a t, m s = .ok a t ∧ f a t = .error e u := by
  cases hm : m s with
  | error e' t => simp [bind_of_error hm]
  | ok a t =>
    rw [bind_of_ok hm]
    refine ⟨fun h => Or.inr ⟨a, t, rfl, h⟩, fun h => ?_⟩
    rcases h with h | ⟨_, _, hok, h⟩
    · cases h
    · cases hok
      exact h

variable {s : Scanner} {b : UInt8} {bytes : List UInt8} {failure? : Option String} {line : Nat}
  {owed : Bool} (keep : Bool) {p : Pattern}

/-! ## Taking a byte -/

/-- Before a byte, taking succeeds, and giving the byte back is as if it had not been taken. -/
theorem next_cons (hs : s.cursor.At { bytes := b :: bytes, failure? } line owed) :
    ∃ t : Scanner, next s = .ok (some b) t ∧
      t.cursor.At { bytes, failure? } (if owed then line + 1 else line) (b == 10) ∧
      t.scratch = s.scratch ∧
      t.cursor.pushBack.At { bytes := b :: bytes, failure? } line owed ∧
      t.cursor.pushBack.isEof = false := by
  obtain ⟨d, hnext, hd, hback⟩ := hs.next_cons
  exact ⟨{ s with cursor := d }, by rw [next, hnext], hd, rfl, hback⟩

/-- At the end of the tape no byte is taken, and the end is met. -/
theorem next_over (hs : s.cursor.At { bytes := [] } line owed) :
    ∃ t : Scanner, next s = .ok none t ∧ t.cursor.At { bytes := [] } line owed ∧
      t.scratch = s.scratch ∧ t.cursor.isEof = true := by
  obtain ⟨d, hnext, hd, heof⟩ := hs.next_nil
  exact ⟨{ s with cursor := d }, by rw [next, hnext], hd, rfl, heof⟩

/-- A failure is passed on with the line before it. -/
theorem next_failure {message : String}
    (hs : s.cursor.At { bytes := [], failure? := some message } line owed) :
    ∃ t, next s = .error ⟨.unreadable message, line⟩ t := by
  obtain ⟨d, hnext, rfl⟩ := hs.next_failure
  exact ⟨{ s with cursor := d }, by rw [next, hnext]⟩

/-- A byte is appended to the token, or dropped. -/
theorem store_eq (keep : Bool) (b : UInt8) (s : Scanner) :
    store keep b s =
      .ok () { s with scratch := if keep then s.scratch.push b else s.scratch } := by
  cases keep <;> rfl

/-! ## Trying a byte -/

/-- A byte that the pattern admits is taken, and kept if it is to be kept. -/
theorem test_admitted (hs : s.cursor.At { bytes := b :: bytes, failure? } line owed)
    (hb : p.admits b = true) :
    ∃ t : Scanner, test keep p s = .ok true t ∧
      t.cursor.At { bytes, failure? } (if owed then line + 1 else line) (b == 10) ∧
      t.scratch = if keep then s.scratch.push b else s.scratch := by
  obtain ⟨u, hnext, hu, hscratch, _⟩ := next_cons hs
  refine ⟨{ u with scratch := if keep then u.scratch.push b else u.scratch }, ?_, hu, ?_⟩
  · rw [test, bind_of_ok hnext]
    simp only [hb, if_true]
    rw [bind_of_ok (store_eq keep b u)]
    rfl
  · rw [hscratch]

/-- A byte that the pattern does not admit is given back, and it is not the end. -/
theorem test_rejected (hs : s.cursor.At { bytes := b :: bytes, failure? } line owed)
    (hb : p.admits b = false) :
    ∃ t : Scanner, test keep p s = .ok false t ∧
      t.cursor.At { bytes := b :: bytes, failure? } line owed ∧ t.scratch = s.scratch ∧
      t.cursor.isEof = false := by
  obtain ⟨u, hnext, _, hscratch, hback, heof⟩ := next_cons hs
  refine ⟨{ u with cursor := u.cursor.pushBack }, ?_, hback, hscratch, heof⟩
  rw [test, bind_of_ok hnext]
  simp only [hb, Bool.false_eq_true, if_false]
  rfl

/-- At the end of the tape no byte is taken, and it is the end. -/
theorem test_over (hs : s.cursor.At { bytes := [] } line owed) :
    ∃ t : Scanner, test keep p s = .ok false t ∧ t.cursor.At { bytes := [] } line owed ∧
      t.scratch = s.scratch ∧ t.cursor.isEof = true := by
  obtain ⟨u, hnext, hu⟩ := next_over hs
  exact ⟨u, by rw [test, bind_of_ok hnext]; rfl, hu⟩

/-- A failure is passed on where a byte is tried. -/
theorem test_failure {message : String}
    (hs : s.cursor.At { bytes := [], failure? := some message } line owed) :
    ∃ t, test keep p s = .error ⟨.unreadable message, line⟩ t := by
  obtain ⟨u, hnext⟩ := next_failure hs
  exact ⟨u, by rw [test, bind_of_error hnext]⟩

/-! ## Demanding a byte -/

/-- A demanded byte that the pattern admits is taken, and kept if it is to be kept. -/
theorem demand_admitted (hs : s.cursor.At { bytes := b :: bytes, failure? } line owed)
    (hb : p.admits b = true) :
    ∃ t : Scanner, demand keep p s = .ok () t ∧
      t.cursor.At { bytes, failure? } (if owed then line + 1 else line) (b == 10) ∧
      t.scratch = if keep then s.scratch.push b else s.scratch := by
  obtain ⟨u, hnext, hu, hscratch, _⟩ := next_cons hs
  refine ⟨{ u with scratch := if keep then u.scratch.push b else u.scratch }, ?_, hu, ?_⟩
  · rw [demand, bind_of_ok hnext]
    simp only [hb, if_true]
    exact store_eq keep b u
  · rw [hscratch]

/-- A demanded byte that the pattern does not admit is reported on its own line. -/
theorem demand_rejected (hs : s.cursor.At { bytes := b :: bytes, failure? } line owed)
    (hb : p.admits b = false) :
    ∃ t, demand keep p s =
      .error ⟨.unexpectedByte p b, if owed then line + 1 else line⟩ t := by
  obtain ⟨u, hnext, hu, _⟩ := next_cons hs
  refine ⟨u, ?_⟩
  rw [demand, bind_of_ok hnext]
  simp only [hb, Bool.false_eq_true, if_false]
  rw [fail, hu.line_eq]

/-- At the end of the tape a demanded byte is missing. -/
theorem demand_over (hs : s.cursor.At { bytes := [] } line owed) :
    ∃ t, demand keep p s = .error ⟨.unexpectedEnd p, line⟩ t := by
  obtain ⟨u, hnext, hu, _⟩ := next_over hs
  refine ⟨u, ?_⟩
  rw [demand, bind_of_ok hnext]
  change fail _ u = _
  rw [fail, hu.line_eq]

/-- A failure is passed on where a byte is demanded. -/
theorem demand_failure {message : String}
    (hs : s.cursor.At { bytes := [], failure? := some message } line owed) :
    ∃ t, demand keep p s = .error ⟨.unreadable message, line⟩ t := by
  obtain ⟨u, hnext⟩ := next_failure hs
  exact ⟨u, by rw [demand, bind_of_error hnext]⟩

/-! ## What success tells -/

variable {keep}

/-- Trying that succeeds has taken a byte that the pattern admits, or changed nothing but whether
the end is met, which it is where the tape is used up. -/
theorem test_ok {t : Tape} {a : Bool} {s' : Scanner} (hs : s.cursor.At t line owed)
    (hok : test keep p s = .ok a s') :
    (a = true ∧ ∃ b rest, p.admits b = true ∧ t = { bytes := b :: rest, failure? := t.failure? } ∧
      s'.cursor.At { bytes := rest, failure? := t.failure? } (if owed then line + 1 else line)
        (b == 10) ∧
      s'.scratch = if keep then s.scratch.push b else s.scratch) ∨
    (a = false ∧ s'.cursor.At t line owed ∧ s'.scratch = s.scratch ∧
      s'.cursor.isEof = decide (t = { bytes := [] }) ∧
      ∀ b ∈ t.bytes.head?, p.admits b = false) := by
  obtain ⟨bytes, failure?⟩ := t
  cases bytes with
  | cons b bytes =>
    cases hb : p.admits b with
    | true =>
      obtain ⟨u, hu, hat, hscratch⟩ := test_admitted keep hs hb
      cases hu.symm.trans hok
      exact Or.inl ⟨rfl, b, bytes, hb, rfl, hat, hscratch⟩
    | false =>
      obtain ⟨u, hu, hat, hscratch, heof⟩ := test_rejected keep hs hb
      cases hu.symm.trans hok
      exact Or.inr ⟨rfl, hat, hscratch, by simp [heof], by simp [hb]⟩
  | nil =>
    cases failure? with
    | none =>
      obtain ⟨u, hu, hat, hscratch, heof⟩ := test_over keep (p := p) hs
      cases hu.symm.trans hok
      exact Or.inr ⟨rfl, hat, hscratch, by simp [heof], by simp⟩
    | some message =>
      obtain ⟨u, hu⟩ := test_failure keep (p := p) hs
      cases hu.symm.trans hok

/-- A demand that succeeds has taken a byte that the pattern admits. -/
theorem demand_ok {t : Tape} {s' : Scanner} (hs : s.cursor.At t line owed)
    (hok : demand keep p s = .ok () s') :
    ∃ b rest, p.admits b = true ∧ t = { bytes := b :: rest, failure? := t.failure? } ∧
      s'.cursor.At { bytes := rest, failure? := t.failure? } (if owed then line + 1 else line)
        (b == 10) ∧
      s'.scratch = if keep then s.scratch.push b else s.scratch := by
  obtain ⟨bytes, failure?⟩ := t
  cases bytes with
  | cons b bytes =>
    cases hb : p.admits b with
    | true =>
      obtain ⟨u, hu, hat, hscratch⟩ := demand_admitted keep hs hb
      cases hu.symm.trans hok
      exact ⟨b, bytes, hb, rfl, hat, hscratch⟩
    | false =>
      obtain ⟨u, hu⟩ := demand_rejected keep hs hb
      cases hu.symm.trans hok
  | nil =>
    cases failure? with
    | none =>
      obtain ⟨u, hu⟩ := demand_over keep (p := p) hs
      cases hu.symm.trans hok
    | some message =>
      obtain ⟨u, hu⟩ := demand_failure keep (p := p) hs
      cases hu.symm.trans hok

/-! ## Runs and lists -/

/-- A run goes on as long as trying the next byte succeeds. -/
theorem countWhile_eq (keep : Bool) (p : Pattern) (s : Scanner) :
    countWhile keep p s =
      (do if ← test keep p then return (← countWhile keep p) + 1 else return 0 : Scan Nat) s := by
  rw [countWhile]
  split
  · rename_i e t h
    rw [bind_of_error h]
  · rename_i t h
    rw [bind_of_ok h]
    rfl
  · rename_i t h
    rw [bind_of_ok h]
    simp only [if_true]
    cases hrun : countWhile keep p t with
    | ok n u => rw [bind_of_ok hrun]; rfl
    | error e u => rw [bind_of_error hrun]

/-- Before a byte that is admitted, one byte or more are as many as there are. -/
theorem expectRun_eq (hs : s.cursor.At { bytes := b :: bytes, failure? } line owed)
    (hb : p.admits b = true) :
    expectRun p s = (do let _ ← countWhile true p : Scan Unit) s := by
  obtain ⟨x, hnext, _⟩ := next_cons hs
  have hdemand : demand true p s = .ok () { x with scratch := x.scratch.push b } := by
    rw [demand, bind_of_ok hnext]
    simp only [hb, if_true]
    exact store_eq true b x
  have htest : test true p s = .ok true { x with scratch := x.scratch.push b } := by
    rw [test, bind_of_ok hnext]
    simp only [hb, if_true]
    rw [bind_of_ok (store_eq true b x)]
    rfl
  have hcount := countWhile_eq true p s
  rw [bind_of_ok htest, if_pos rfl] at hcount
  rw [expectRun, expect, bind_of_ok hdemand, acceptWhile]
  cases hrun : countWhile true p { x with scratch := x.scratch.push b } with
  | ok n y =>
    rw [bind_of_ok hrun] at hcount
    rw [bind_of_ok hrun, bind_of_ok hcount]
  | error e y =>
    rw [bind_of_error hrun] at hcount
    rw [bind_of_error hrun, bind_of_error hcount]

/-- A list goes on with the next item as long as a mark comes. -/
theorem separatedBy_eq {α : Type} (keep : Bool) (mark : Pattern) (item : Scan α)
    (hitem : Forward item) (s : Scanner) :
    separatedBy keep mark item hitem s =
      (do
        let a ← item
        if ← test keep mark then return a :: (← separatedBy keep mark item hitem)
        else return [a] : Scan (List α)) s := by
  rw [separatedBy]
  split
  · rename_i e t h
    rw [bind_of_error h]
  · rename_i a t h
    rw [bind_of_ok h]
    split
    · rename_i e u hmark
      rw [bind_of_error hmark]
    · rename_i u hmark
      rw [bind_of_ok hmark]
      rfl
    · rename_i u hmark
      rw [bind_of_ok hmark]
      simp only [if_true]
      cases hrest : separatedBy keep mark item hitem u with
      | ok as v => rw [bind_of_ok hrest]; rfl
      | error e v => rw [bind_of_error hrest]

end TabMarkup.Scan
