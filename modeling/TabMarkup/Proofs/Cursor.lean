import TabMarkup.Cursor
import TabMarkup.Proofs.Tape

/-!
# The tape ahead of a cursor

A cursor keeps a chunk, an index into it, an offset, two notes about the end and two about
newlines. All that they amount to is the tape ahead, the line of the byte before, and whether
the next byte begins a new line (`Cursor.At`). Taking a byte takes it off the tape, and stepping
back over it puts it there again, wherever the chunks end.
-/

namespace TabMarkup.Cursor

/-- The note about the end agrees with the position: reading stops exactly where the announced
size is reached, or after a read that came back empty and left no byte in the chunk. -/
structure Sound (c : Cursor) : Prop where
  pos_le : c.pos ≤ c.chunk.size
  /-- At the announced size the end is noted. -/
  ended_of_size : ∀ size ∈ c.size?, size ≤ c.offset → c.ended = true
  /-- The end is noted nowhere else while bytes are left. -/
  size_of_ended : c.ended = true → c.pos = c.chunk.size ∨ ∃ size ∈ c.size?, size ≤ c.offset

/-- How many bytes the cursor still wants from its source, if the size is announced. -/
def wanted? (c : Cursor) : Option Nat :=
  c.size?.map (· - (c.offset + (c.chunk.size - c.pos)))

/-- What repeated taking will bring: the rest of the chunk, then what the source delivers. -/
def ahead (c : Cursor) : Tape :=
  (if c.ended then { bytes := [] } else c.source.deliver c.wanted?).prepend
    (c.chunk.toList.drop c.pos)

/-- A cursor before the tape `t`, on line `line`; if `owed`, the next byte begins a new line. -/
structure At (c : Cursor) (t : Tape) (line : Nat) (owed : Bool) : Prop where
  sound : c.Sound
  ahead_eq : c.ahead = t
  line_eq : c.line = line
  owed_eq : c.owed = owed

/-- A cursor whose notes agree is before all that is ahead of it. -/
theorem Sound.at_ahead {c : Cursor} (h : c.Sound) : c.At c.ahead c.line c.owed :=
  ⟨h, rfl, rfl, rfl⟩

/-- A cursor at the start of a source is before all that the source delivers. -/
theorem at_ofSource (source : Source) (size? : Option Nat) :
    (ofSource source size?).At (source.deliver size?) 1 false where
  sound := by
    refine ⟨Nat.le_refl _, fun size hsize hle => ?_, fun _ => Or.inl rfl⟩
    have hzero : size = 0 := Nat.le_zero.mp hle
    subst hzero
    simp_all [ofSource]
  ahead_eq := by
    by_cases hzero : size? = some 0
    · subst hzero
      simp [ahead, ofSource, Source.deliver_zero, Tape.prepend]
    · have hended : (size? == some 0) = false := beq_false_of_ne hzero
      have hwanted : size?.map (· - (0 + ((#[] : Array UInt8).size - 0))) = size? := by
        cases size? <;> simp
      simp only [ahead, ofSource, wanted?, hended, hwanted, Bool.false_eq_true, if_false]
      simp
  line_eq := rfl
  owed_eq := rfl

/-- A cursor at the start of bytes that come all at once is before these bytes. -/
theorem at_ofBytes (bytes : List UInt8) :
    (ofSource (Source.ofBytes bytes)).At { bytes } 1 false := by
  have hsource := at_ofSource (Source.ofBytes bytes) none
  rwa [Source.deliver_ofBytes] at hsource

/-! ## Reading ahead -/

/-- With the chunk used up and no end noted, the tape is what the source delivers, and more
bytes are wanted. -/
theorem At.deliver_eq {c : Cursor} {t : Tape} {line : Nat} {owed : Bool} (hc : c.At t line owed)
    (hready : ¬ (c.pos < c.chunk.size ∨ c.ended = true)) :
    c.wanted? ≠ some 0 ∧ c.source.deliver c.wanted? = t := by
  obtain ⟨hpos, hended⟩ := not_or.mp hready
  have hdrop : c.chunk.toList.drop c.pos = [] := by
    rw [List.drop_eq_nil_iff, Array.length_toList]
    omega
  constructor
  · intro hzero
    obtain ⟨size, hsize, hle⟩ := Option.map_eq_some_iff.mp hzero
    exact hended (hc.sound.ended_of_size size hsize (by omega))
  · have hahead := hc.ahead_eq
    simpa [ahead, hended, hdrop] using hahead

/-- Reading ahead changes nothing of the tape. Afterwards a byte is in the chunk or the end is
noted. -/
theorem At.refill_ok {c d : Cursor} {t : Tape} {line : Nat} {owed : Bool}
    (hc : c.At t line owed) (h : c.refill = (.ok (), d)) :
    d.At t line owed ∧ (d.pos < d.chunk.size ∨ d.ended = true) := by
  unfold refill at h
  split at h
  · rename_i hready
    cases h
    exact ⟨hc, hready⟩
  · rename_i hready
    obtain ⟨hwanted, hahead⟩ := hc.deliver_eq hready
    obtain ⟨hpos, hended⟩ := not_or.mp hready
    split at h
    · cases h
    · rename_i bytes source hread
      cases h
      cases bytes with
      | nil =>
        have hover : t = { bytes := [] } := by
          rw [← hahead, Source.deliver_of_nil hwanted hread]
        refine ⟨⟨⟨Nat.le_refl _, fun _ _ _ => rfl, fun _ => Or.inl rfl⟩, ?_, hc.line_eq,
          hc.owed_eq⟩, Or.inr rfl⟩
        rw [hover]
        rfl
      | cons b bytes =>
        refine ⟨⟨⟨Nat.zero_le _, fun size hsize hle => ?_, fun hcons => by cases hcons⟩, ?_,
          hc.line_eq, hc.owed_eq⟩, Or.inl (by simp)⟩
        · exact absurd (hc.sound.ended_of_size size hsize hle) hended
        · have hless : c.wanted?.map (· - (b :: bytes).length) =
              c.size?.map (· - (c.offset + (b :: bytes).length)) := by
            unfold wanted?
            rw [Option.map_map]
            congr 1
            funext size
            simp only [Function.comp_apply]
            omega
          rw [← hahead, Source.deliver_of_ok hwanted (by simp) hread, hless]
          rfl

/-- Reading ahead fails only where a failure is all that is left of the tape. -/
theorem At.refill_error {c d : Cursor} {t : Tape} {line : Nat} {owed : Bool} {message : String}
    (hc : c.At t line owed) (h : c.refill = (.error message, d)) :
    t = { bytes := [], failure? := some message } ∧ d.line = line := by
  unfold refill at h
  split at h
  · cases h
  · rename_i hready
    obtain ⟨hwanted, hahead⟩ := hc.deliver_eq hready
    split at h
    · rename_i m source hread
      cases h
      exact ⟨by rw [← hahead, Source.deliver_of_error hwanted hread], hc.line_eq⟩
    · cases h

/-! ## Taking a byte and stepping back -/

/-- The notes of the last step have no part in where a cursor stands. -/
theorem At.forget {c : Cursor} {t : Tape} {line : Nat} {owed : Bool} (hc : c.At t line owed)
    (paid : Bool) (last? : Option UInt8) : { c with paid, last? }.At t line owed :=
  ⟨⟨hc.sound.pos_le, hc.sound.ended_of_size, hc.sound.size_of_ended⟩, hc.ahead_eq, hc.line_eq,
    hc.owed_eq⟩

/-- Stepping over a byte keeps the note about the end in agreement with the position. -/
theorem Sound.advance {c : Cursor} (hc : c.Sound) (hpos : c.pos < c.chunk.size) (b : UInt8) :
    (c.advance b).Sound where
  pos_le := hpos
  ended_of_size := by
    intro size hsize hle
    have hsize' : c.size? = some size := hsize
    have hle' : size ≤ c.offset + 1 := hle
    simp [Cursor.advance, hsize', hle']
  size_of_ended := by
    intro hended
    rcases Bool.or_eq_true_iff.mp hended with hended | hany
    · rcases hc.size_of_ended hended with hused | ⟨size, hsize, hle⟩
      · omega
      · exact Or.inr ⟨size, hsize, Nat.le_succ_of_le hle⟩
    · obtain ⟨size, hsize, hle⟩ := (Option.any_eq_true _ _).mp hany
      exact Or.inr ⟨size, hsize, of_decide_eq_true hle⟩

/-- A byte in the chunk is the first of what is ahead, and stepping over it leaves the others. -/
theorem ahead_eq_prepend_advance {c : Cursor} {b : UInt8} (hget : c.chunk[c.pos]? = some b) :
    c.ahead = (c.advance b).ahead.prepend [b] := by
  obtain ⟨hpos, hb⟩ := Array.getElem?_eq_some_iff.mp hget
  have hdrop : c.chunk.toList.drop c.pos = b :: c.chunk.toList.drop (c.pos + 1) := by
    rw [List.drop_eq_getElem_cons (by simpa using hpos)]
    simp [hb]
  have hwanted : (c.advance b).wanted? = c.wanted? := by
    simp only [wanted?, Cursor.advance]
    congr 1
    funext size
    omega
  -- An end noted by this step is at the announced size, past which the source delivers nothing.
  have hcoming : (if (c.advance b).ended then { bytes := [] } else
      c.source.deliver (c.advance b).wanted?) =
      (if c.ended then { bytes := [] } else c.source.deliver c.wanted? : Tape) := by
    rw [hwanted]
    by_cases hended : c.ended = true
    · simp [Cursor.advance, hended]
    · cases hsize : c.size? with
      | none => simp [Cursor.advance, hsize]
      | some size =>
        by_cases hle : size ≤ c.offset + 1
        · have hzero : c.wanted? = some 0 := by
            simp only [wanted?, hsize, Option.map_some, Option.some.injEq]
            omega
          simp [hzero, Source.deliver_zero]
        · simp [Cursor.advance, hsize, hle]
  unfold ahead
  rw [hdrop, ← hcoming]
  rfl

/-- With a byte in the chunk, that byte is the first of the tape, and stepping over it leaves
the others. -/
theorem At.advance {c : Cursor} {t : Tape} {line : Nat} {owed : Bool} {b : UInt8}
    (hc : c.At t line owed) (hget : c.chunk[c.pos]? = some b) :
    ∃ rest, t = { bytes := b :: rest, failure? := t.failure? } ∧
      (c.advance b).At { bytes := rest, failure? := t.failure? }
        (if owed then line + 1 else line) (b == 10) := by
  obtain ⟨hpos, _⟩ := Array.getElem?_eq_some_iff.mp hget
  have hahead := ahead_eq_prepend_advance hget
  rw [hc.ahead_eq] at hahead
  refine ⟨(c.advance b).ahead.bytes, ?_, hc.sound.advance hpos b, ?_, ?_, rfl⟩
  · rw [hahead]
    rfl
  · rw [hahead]
    rfl
  · have hline := hc.line_eq
    have howed := hc.owed_eq
    subst hline howed
    rfl

/-- Stepping back over the byte just taken undoes the step, the note about the end and the line
included. -/
theorem Sound.pushBack_advance {c : Cursor} {b : UInt8} (hc : c.Sound)
    (hget : c.chunk[c.pos]? = some b) :
    (c.advance b).pushBack = { c with paid := false, last? := none } := by
  obtain ⟨hpos, _⟩ := Array.getElem?_eq_some_iff.mp hget
  have hended : ((c.ended || c.size?.any (· ≤ c.offset + 1)) &&
      !c.size?.any (c.offset + 1 - 1 < ·)) = c.ended := by
    cases hsize : c.size? with
    | none => simp
    | some size =>
      by_cases hlt : c.offset < size
      · have hnot : c.ended = false := by
          refine Bool.eq_false_iff.mpr fun hended => ?_
          rcases hc.size_of_ended hended with hused | ⟨size', hsize', hle⟩
          · omega
          · have hsame : size = size' := by simpa [hsize] using hsize'
            omega
        simp [hnot, hlt]
      · have hyes := hc.ended_of_size size hsize (by omega)
        simp [hyes, hlt]
  rw [Nat.add_sub_cancel] at hended
  cases howed : c.owed <;> simp [pushBack, Cursor.advance, howed, hended]

/-- Once read ahead, a cursor has a byte in its chunk, or nothing is left of the tape and the end
is met. -/
theorem At.get_or_over {c : Cursor} {t : Tape} {line : Nat} {owed : Bool}
    (hc : c.At t line owed) (hready : c.pos < c.chunk.size ∨ c.ended = true) :
    (∃ b, c.chunk[c.pos]? = some b) ∨
      c.chunk[c.pos]? = none ∧ t = { bytes := [] } ∧ c.isEof = true := by
  by_cases hpos : c.pos < c.chunk.size
  · exact Or.inl ⟨_, Array.getElem?_eq_getElem hpos⟩
  · have hended := hready.resolve_left hpos
    have hused : c.pos = c.chunk.size := Nat.le_antisymm hc.sound.pos_le (Nat.le_of_not_lt hpos)
    have hdrop : c.chunk.toList.drop c.pos = [] := by
      rw [List.drop_eq_nil_iff, Array.length_toList]
      omega
    refine Or.inr ⟨by simp [hused], ?_, by simp [isEof, hended, hused]⟩
    rw [← hc.ahead_eq, ahead, hended, hdrop]
    rfl

/-- What taking a byte comes to: the first byte of the tape, the end, or the failure. -/
theorem At.next_cases {c : Cursor} {t : Tape} {line : Nat} {owed : Bool}
    (hc : c.At t line owed) :
    (∃ b rest d, t = { bytes := b :: rest, failure? := t.failure? } ∧ c.next = (.ok (some b), d) ∧
      d.At { bytes := rest, failure? := t.failure? } (if owed then line + 1 else line) (b == 10) ∧
      d.pushBack.At t line owed ∧ d.pushBack.isEof = false) ∨
    (∃ d, t = { bytes := [] } ∧ c.next = (.ok none, d) ∧ d.At t line owed ∧ d.isEof = true) ∨
    (∃ message d, t = { bytes := [], failure? := some message } ∧ c.next = (.error message, d) ∧
      d.line = line) := by
  have hfresh := hc.forget false c.last?
  unfold next
  split
  · rename_i message d hrefill
    obtain ⟨hfailure, hline⟩ := hfresh.refill_error hrefill
    exact Or.inr (Or.inr ⟨message, d, hfailure, rfl, hline⟩)
  · rename_i d hrefill
    obtain ⟨hd, hready⟩ := hfresh.refill_ok hrefill
    rcases hd.get_or_over hready with ⟨b, hget⟩ | ⟨hget, hover, heof⟩
    · obtain ⟨rest, hrest, hadvance⟩ := hd.advance hget
      obtain ⟨hpos, _⟩ := Array.getElem?_eq_some_iff.mp hget
      rw [hget]
      refine Or.inl ⟨b, rest, _, hrest, rfl, hadvance, ?_⟩
      rw [hd.sound.pushBack_advance hget]
      refine ⟨hd.forget false none, ?_⟩
      simp only [isEof, Bool.and_eq_false_imp, beq_eq_false_iff_ne]
      omega
    · rw [hget]
      exact Or.inr (Or.inl ⟨_, hover, rfl, hd.forget d.paid none, heof⟩)

/-- Before a byte, taking succeeds, and stepping back is as if it had not been taken. -/
theorem At.next_cons {c : Cursor} {b : UInt8} {bytes : List UInt8} {failure? : Option String}
    {line : Nat} {owed : Bool} (hc : c.At { bytes := b :: bytes, failure? } line owed) :
    ∃ d, c.next = (.ok (some b), d) ∧
      d.At { bytes, failure? } (if owed then line + 1 else line) (b == 10) ∧
      d.pushBack.At { bytes := b :: bytes, failure? } line owed ∧ d.pushBack.isEof = false := by
  rcases hc.next_cases with ⟨b', rest, d, ht, hnext, hd⟩ | ⟨d, ht, _⟩ | ⟨message, d, ht, _⟩
  · cases ht
    exact ⟨d, hnext, hd⟩
  · cases ht
  · cases ht

/-- At the end of the tape nothing is taken, and the end is met. -/
theorem At.next_nil {c : Cursor} {line : Nat} {owed : Bool}
    (hc : c.At { bytes := [] } line owed) :
    ∃ d, c.next = (.ok none, d) ∧ d.At { bytes := [] } line owed ∧ d.isEof = true := by
  rcases hc.next_cases with ⟨b, rest, d, ht, _⟩ | ⟨d, _, hnext, hd⟩ | ⟨message, d, ht, _⟩
  · cases ht
  · exact ⟨d, hnext, hd⟩
  · cases ht

/-- Where only a failure is left, taking fails on the same line. -/
theorem At.next_failure {c : Cursor} {message : String} {line : Nat} {owed : Bool}
    (hc : c.At { bytes := [], failure? := some message } line owed) :
    ∃ d, c.next = (.error message, d) ∧ d.line = line := by
  rcases hc.next_cases with ⟨b, rest, d, ht, _⟩ | ⟨d, ht, _⟩ | ⟨message', d, ht, hnext, hline⟩
  · cases ht
  · cases ht
  · cases ht
    exact ⟨d, hnext, hline⟩

end TabMarkup.Cursor
