import TabMarkup.Proofs.Position

/-!
# What stepping back shows

A caller sees what its calls answer, the line and the note of the end. Stepping back returns the
byte that the calls so far have left in hand, which is the last one given, unless it was given back
or the end was met since. A failed read leaves the byte before it in hand. Main statement: a step
back can be noticed exactly when a byte is in hand, and then taking that byte again leaves
everything as it was (`pushBack_unseen_iff`). So it is noticed after a failed read too, if a byte
was taken just before.
-/

namespace TabMarkup.Cursor

/-! ## What is seen of a cursor -/

/-- The answer of a move, if it has one. -/
def answer? (c : Cursor) : Move → Option (Except String (Option UInt8))
  | .next => some c.next.1
  | .back => none

/-- What is seen of a move: its answer, and the line and the note of the end after it. -/
structure Sight where
  answer? : Option (Except String (Option UInt8))
  line : Nat
  isEof : Bool

/-- What is seen of moves, one after the other. -/
def sights : Cursor → List Move → List Sight
  | _, [] => []
  | c, move :: moves =>
    { answer? := c.answer? move, line := (c.move move).line, isEof := (c.move move).isEof } ::
      (c.move move).sights moves

/-- No calls tell one cursor from the other. -/
structure LooksLike (c d : Cursor) : Prop where
  line_eq : c.line = d.line
  isEof_eq : c.isEof = d.isEof
  sights_eq : ∀ moves, c.sights moves = d.sights moves

/-- The byte in hand after one more answer. Stepping back has no answer and gives the byte back; a
failed read changes nothing. -/
def holdAfter (held? : Option UInt8) : Option (Except String (Option UInt8)) → Option UInt8
  | none => none
  | some (.ok b?) => b?
  | some (.error _) => held?

/-- The byte that moves leave in hand, from what they answer. -/
def held? (c : Cursor) (moves : List Move) : Option UInt8 :=
  ((c.sights moves).map Sight.answer?).foldl holdAfter none

variable {c d : Cursor} {b : UInt8}

theorem LooksLike.refl (c : Cursor) : c.LooksLike c :=
  ⟨rfl, rfl, fun _ => rfl⟩

/-! ## What a move comes to -/

/-- A read that fails takes something from the source and changes nothing else. -/
theorem eq_of_refill_error {message : String} (h : c.refill = (.error message, d)) :
    ∃ source, d = { c with source } := by
  unfold refill at h
  split at h
  · cases h
  · split at h
    · cases h
      exact ⟨_, rfl⟩
    · cases h

/-- Reading ahead begins no line. -/
theorem paid_refill (c : Cursor) : c.refill.2.paid = c.paid := by
  unfold refill
  split
  · rfl
  · split <;> rfl

/-- Taking a byte comes to a failed read, to the end, or to a byte that has been read ahead. -/
theorem next_ways (c : Cursor) :
    (∃ message source, c.next = (.error message, { c with paid := false, source })) ∨
    ∃ d, { c with paid := false }.refill = (.ok (), d) ∧
      (c.next = (.ok none, { d with last? := none }) ∨
        ∃ b, d.chunk[d.pos]? = some b ∧ c.next = (.ok (some b), d.advance b)) := by
  unfold next
  split
  · rename_i message d hrefill
    obtain ⟨source, rfl⟩ := eq_of_refill_error hrefill
    exact Or.inl ⟨message, source, rfl⟩
  · rename_i d hrefill
    refine Or.inr ⟨d, hrefill, ?_⟩
    cases hget : d.chunk[d.pos]? with
    | none => exact Or.inl rfl
    | some b => exact Or.inr ⟨b, rfl, rfl⟩

/-- What a cursor can return after a move is what the answer of the move leaves in hand. -/
theorem last?_move (c : Cursor) (move : Move) :
    (c.move move).last? = holdAfter c.last? (c.answer? move) := by
  cases move with
  | back =>
    change c.pushBack.last? = none
    unfold pushBack
    cases hlast : c.last? with
    | none => exact hlast
    | some b => rfl
  | next =>
    change c.next.2.last? = holdAfter c.last? (some c.next.1)
    rcases c.next_ways with ⟨message, source, hnext⟩ | ⟨d, _, hnext | ⟨b, _, hnext⟩⟩
    all_goals
      rw [hnext]
      rfl

theorem last?_foldl (c : Cursor) (moves : List Move) :
    (moves.foldl Cursor.move c).last? =
      ((c.sights moves).map Sight.answer?).foldl holdAfter c.last? := by
  induction moves generalizing c with
  | nil => rfl
  | cons move moves ih =>
    rw [List.foldl_cons, ih, last?_move]
    rfl

/-! ## What every move keeps -/

/-- What is so after any moves, failed reads included: the note about the end agrees with the
position, and the byte that stepping back returns is the one behind the position. -/
structure Steady (c : Cursor) : Prop extends c.Sound where
  /-- Lines are counted from 1, and a line that was begun is not the first. -/
  line_pos : 0 < c.line
  line_of_paid : c.paid = true → 1 < c.line
  behind : ∀ b, c.last? = some b → 0 < c.pos ∧ 0 < c.offset ∧ c.chunk[c.pos - 1]? = some b ∧
    c.owed = (b == 10)
  /-- With a byte in hand, the end is noted only because the announced size is reached. -/
  size_of_last : c.last? ≠ none → c.ended = true → ∃ size ∈ c.size?, size ≤ c.offset

theorem steady_ofSource (source : Source) (size? : Option Nat) :
    (ofSource source size?).Steady where
  toSound := (at_ofSource source size?).sound
  line_pos := Nat.one_pos
  line_of_paid := by simp [ofSource]
  behind := by simp [ofSource]
  size_of_last := by simp [ofSource]

/-- A byte that was stepped over is behind the position. -/
theorem Sound.steady_advance (h : c.Sound) (hline : 0 < c.line) (hget : c.chunk[c.pos]? = some b) :
    (c.advance b).Steady where
  toSound := h.advance (Array.getElem?_eq_some_iff.mp hget).1 b
  line_pos := by
    simp only [Cursor.advance]
    split <;> omega
  line_of_paid := by
    intro hpaid
    have howed : c.owed = true := hpaid
    simp only [Cursor.advance, howed, if_true]
    omega
  behind := by
    intro b' hlast
    cases hlast
    exact ⟨Nat.succ_pos _, Nat.succ_pos _, hget, rfl⟩
  size_of_last := by
    intro _ hended
    obtain ⟨hpos, _⟩ := Array.getElem?_eq_some_iff.mp hget
    rcases Bool.or_eq_true_iff.mp hended with hended | hsize
    · rcases h.size_of_ended hended with hused | ⟨size, hmem, hle⟩
      · omega
      · exact ⟨size, hmem, Nat.le_succ_of_le hle⟩
    · obtain ⟨size, hmem, hle⟩ := (Option.any_eq_true _ _).mp hsize
      exact ⟨size, hmem, of_decide_eq_true hle⟩

theorem Steady.next (h : c.Steady) : c.next.2.Steady := by
  rcases c.next_ways with ⟨message, source, hnext⟩ | ⟨d, hrefill, hd⟩
  · rw [hnext]
    exact ⟨⟨h.pos_le, h.ended_of_size, h.size_of_ended⟩, h.line_pos, by simp, h.behind,
      h.size_of_last⟩
  · have hfresh : { c with paid := false }.At c.ahead c.line c.owed :=
      At.forget ⟨h.toSound, rfl, rfl, rfl⟩ false c.last?
    have hat := (hfresh.refill_ok hrefill).1
    have hline : 0 < d.line := hat.line_eq ▸ h.line_pos
    rcases hd with hnext | ⟨b, hget, hnext⟩
    · have hpaid : d.paid = false := by
        have hsame := paid_refill { c with paid := false }
        rwa [hrefill] at hsame
      rw [hnext]
      exact ⟨⟨hat.sound.pos_le, hat.sound.ended_of_size, hat.sound.size_of_ended⟩, hline,
        by simp [hpaid], by simp, by simp⟩
    · rw [hnext]
      exact hat.sound.steady_advance hline hget

theorem Steady.pushBack (h : c.Steady) : c.pushBack.Steady := by
  cases hlast : c.last? with
  | none =>
    rw [Cursor.pushBack, hlast]
    exact h
  | some b =>
    obtain ⟨hpos, hoffset, hget, howed⟩ := h.behind b hlast
    rw [Cursor.pushBack, hlast]
    refine ⟨⟨?_, ?_, ?_⟩, ?_, by simp, by simp, by simp⟩
    · exact Nat.le_trans (Nat.sub_le _ _) h.pos_le
    · intro size hsize hle
      have hsize : c.size? = some size := hsize
      have hle : size ≤ c.offset - 1 := hle
      have hended := h.ended_of_size size hsize (by omega)
      simp [hended, hsize, hle]
    · intro hended
      obtain ⟨hended, hnot⟩ := Bool.and_eq_true_iff.mp hended
      obtain ⟨size, hsize, _⟩ := h.size_of_last (by simp [hlast]) hended
      have hsize' : c.size? = some size := hsize
      refine Or.inr ⟨size, hsize, ?_⟩
      simpa [hsize'] using hnot
    · have hline := h.line_pos
      have hbegan := h.line_of_paid
      dsimp only
      split
      · rename_i hpaid
        have := hbegan hpaid
        omega
      · exact hline

theorem Steady.move (h : c.Steady) (move : Move) : (c.move move).Steady := by
  cases move with
  | next => exact h.next
  | back => exact h.pushBack

theorem Steady.run (h : c.Steady) (moves : List Move) :
    (moves.foldl Cursor.move c).Steady := by
  induction moves generalizing c with
  | nil => exact h
  | cons move moves ih => exact ih (h.move move)

/-! ## Taking the byte again -/

/-- The note of the end is the same after stepping back over a byte and taking it again. -/
theorem Steady.ended_again (h : c.Steady) (hlast : c.last? = some b) :
    (c.ended && !c.size?.any (c.offset - 1 < ·) || c.size?.any (· ≤ c.offset)) = c.ended := by
  cases hended : c.ended with
  | true =>
    obtain ⟨size, hsize, hle⟩ := h.size_of_last (by simp [hlast]) hended
    have hsize : c.size? = some size := hsize
    simp [hsize, hle]
  | false =>
    have hnot : ∀ size, c.size? = some size → c.offset < size := by
      intro size hsize
      refine Nat.lt_of_not_le fun hle => ?_
      rw [h.ended_of_size size hsize hle] at hended
      cases hended
    cases hsize : c.size? with
    | none => rfl
    | some size => simpa using hnot size hsize

/-- Stepping back and taking the byte again leaves everything as it was. -/
theorem Steady.next_pushBack (h : c.Steady) (hlast : c.last? = some b) :
    c.pushBack.next = (.ok (some b), c) := by
  obtain ⟨hpos, hoffset, hget, howed⟩ := h.behind b hlast
  obtain ⟨hlt, _⟩ := Array.getElem?_eq_some_iff.mp hget
  have hrefill : { c.pushBack with paid := false }.refill =
      (.ok (), { c.pushBack with paid := false }) := by
    rw [refill, if_pos]
    left
    simpa only [Cursor.pushBack, hlast] using hlt
  have hpos' : c.pos - 1 + 1 = c.pos := by omega
  have hoffset' : c.offset - 1 + 1 = c.offset := by omega
  have hline : (if c.paid then (if c.paid then c.line - 1 else c.line) + 1
      else if c.paid then c.line - 1 else c.line) = c.line := by
    split
    · have := h.line_pos
      omega
    · rfl
  rw [Cursor.next, hrefill]
  simp only [Cursor.pushBack, hlast, hget, Cursor.advance, hpos', hoffset', hline,
    h.ended_again hlast]
  rw [← howed, ← hlast]

/-- Only so often does a cursor answer with a byte. -/
theorem le_unread_of_sights {n : Nat}
    (h : ∀ answer? ∈ (c.sights (List.replicate n .next)).map Sight.answer?,
      ∃ b, answer? = some (.ok (some b))) : n ≤ c.unread := by
  induction n generalizing c with
  | zero => exact Nat.zero_le _
  | succ n ih =>
    obtain ⟨b, hb⟩ := h (some c.next.1) List.mem_cons_self
    have hnext : c.next = (.ok (some b), c.next.2) := Prod.ext (Option.some.inj hb) rfl
    have hunread := next_some_unread hnext
    have hrest := ih fun answer? hmem => h answer? (List.mem_cons_of_mem _ hmem)
    have hrest : n ≤ c.next.2.unread := hrest
    omega

/-- Stepping back over a byte in hand is noticed: the byte comes once more than without. -/
theorem Steady.not_looksLike (h : c.Steady) (hlast : c.last? = some b) :
    ¬ c.pushBack.LooksLike c := by
  intro hlooks
  have hagain := h.next_pushBack hlast
  have hall : ∀ n, ∀ answer? ∈ (c.sights (List.replicate n .next)).map Sight.answer?,
      ∃ b, answer? = some (.ok (some b)) := by
    intro n
    induction n with
    | zero => simp [sights]
    | succ n ih =>
      intro answer? hmem
      rw [← hlooks.sights_eq, List.replicate_succ, sights, List.map_cons, List.mem_cons] at hmem
      have hmove : c.pushBack.move .next = c := congrArg Prod.snd hagain
      rw [hmove] at hmem
      rcases hmem with hhead | hmem
      · refine ⟨b, hhead.trans ?_⟩
        change some c.pushBack.next.1 = _
        rw [hagain]
      · exact ih answer? hmem
  have := le_unread_of_sights (hall (c.unread + 1))
  omega

/-- After any calls on any source, failed reads included, nobody can tell whether one more step back
was made if and only if no byte is in hand. With a byte in hand the step back returns it: taken
again, it leaves the cursor as it was without the step back. -/
theorem pushBack_unseen_iff (source : Source) (size? : Option Nat) (moves : List Move) :
    let start := ofSource source size?
    let c := moves.foldl Cursor.move start
    (c.pushBack.LooksLike c ↔ start.held? moves = none) ∧
      ∀ b, start.held? moves = some b → c.pushBack.next = (.ok (some b), c) := by
  intro start c
  have hsteady : c.Steady := (steady_ofSource source size?).run moves
  have hlast : c.last? = start.held? moves := last?_foldl start moves
  rw [← hlast]
  refine ⟨⟨fun hlooks => ?_, fun hnone => ?_⟩, fun b hb => hsteady.next_pushBack hb⟩
  · cases hb : c.last? with
    | none => rfl
    | some b => exact absurd hlooks (hsteady.not_looksLike hb)
  · have hsame : c.pushBack = c := by
      rw [pushBack, hnone]
    rw [hsame]
    exact LooksLike.refl c

/-- A byte is taken, and the read after it fails. Stepping back then makes the byte come again,
where without it the end is met. -/
theorem pushBack_seen_after_failure :
    let start := ofSource [.data [0x61], .failure "gone"]
    let c := [Move.next, .next].foldl Cursor.move start
    ((start.sights [.next, .next]).filterMap Sight.answer?).getLast? = some (.error "gone") ∧
      c.next.1 = .ok none ∧ c.pushBack.next.1 = .ok (some 0x61) ∧ ¬ c.pushBack.LooksLike c := by
  intro start c
  have hsteady : c.Steady := (steady_ofSource _ none).run [.next, .next]
  exact ⟨rfl, rfl, rfl, hsteady.not_looksLike (b := 0x61) rfl⟩

end TabMarkup.Cursor
