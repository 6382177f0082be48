import TabMarkup.Proofs.Cursor

/-!
# A cursor is a position

What a cursor shows of itself is a position in the bytes that its source delivers, whatever chunks
they come in: a number of bytes before it, and whether the last of them can be given back. Taking a
byte and stepping back move the cursor as they move the position (`step`), so after any calls both
show the same (`cursor_follows_position`).
-/

namespace TabMarkup

/-- A position in bytes that are all there. -/
structure Position where
  /-- The number of bytes before it. -/
  index : Nat := 0
  /-- The last byte taken has not been given back, and no end was met behind it. -/
  taken : Bool := false
  /-- The end was met. -/
  sawEnd : Bool := false
  deriving Repr, DecidableEq

/-- The ways to move. -/
inductive Move where
  | next
  | back
  deriving Repr, DecidableEq

namespace Position

/-- The byte at a position, if it is not the end, and the position behind it. -/
def next (bytes : List UInt8) (p : Position) : Option UInt8 × Position :=
  match bytes[p.index]? with
  | some b => (some b, { p with index := p.index + 1, taken := true })
  | none => (none, { p with taken := false, sawEnd := true })

/-- One byte back, if one was taken last. -/
def back (p : Position) : Position :=
  if p.taken then { p with index := p.index - 1, taken := false } else p

/-- The position after a move. -/
def move (bytes : List UInt8) (p : Position) : Move → Position
  | .next => (p.next bytes).2
  | .back => p.back

/-- The line of the byte before the position; the newline at its end belongs to it. -/
def line (bytes : List UInt8) (p : Position) : Nat :=
  1 + (bytes.take (p.index - 1)).count 10

/-- Whether the byte before the position is a newline. -/
def endsLine (bytes : List UInt8) (p : Position) : Bool :=
  (bytes.take p.index).getLast? == some 10

/-- At the end, an announced size that was reached tells that nothing comes, and so does the end
once it was met. -/
def isEof (bytes : List UInt8) (size? : Option Nat) (p : Position) : Bool :=
  p.index == bytes.length && (p.sawEnd || size?.any (· ≤ bytes.length))

variable {bytes : List UInt8} {p : Position} {b : UInt8}

theorem take_succ (h : bytes[p.index]? = some b) :
    bytes.take (p.index + 1) = bytes.take p.index ++ [b] := by
  rw [List.take_add_one, h]
  rfl

/-- Behind one more byte, the line is a new one if the byte before it was a newline. -/
theorem line_next (h : bytes[p.index]? = some b) :
    (p.next bytes).2.line bytes = if p.endsLine bytes then p.line bytes + 1 else p.line bytes := by
  obtain ⟨hlt, _⟩ := List.getElem?_eq_some_iff.mp h
  have hline : (p.next bytes).2.line bytes = 1 + (bytes.take p.index).count 10 := by
    rw [next, h]
    rfl
  have hbefore : bytes.take (p.index - 1) = (bytes.take p.index).dropLast :=
    (List.dropLast_take hlt).symm
  rw [hline]
  unfold line endsLine
  rw [hbefore]
  rcases List.eq_nil_or_concat (bytes.take p.index) with hnil | ⟨w, a, hw⟩
  · simp [hnil]
  · by_cases ha : a = 10
    · simp [hw, ha, Nat.add_assoc]
    · simp [hw, ha]

theorem endsLine_next (h : bytes[p.index]? = some b) :
    (p.next bytes).2.endsLine bytes = (b == 10) := by
  rw [next, h]
  simp [endsLine, take_succ h]

end Position

namespace Cursor

/-- The cursor after a move. -/
def move (c : Cursor) : Move → Cursor
  | .next => c.next.2
  | .back => c.pushBack

/-- Nothing is counted below zero, and no byte is looked for outside of the chunk. -/
structure InBounds (c : Cursor) : Prop where
  /-- Where a byte is looked for, it is in the chunk, or the chunk is used up and the end noted. -/
  lookup : ∀ d, { c with paid := false }.refill = (.ok (), d) →
    d.pos < d.chunk.size ∨ d.pos = d.chunk.size ∧ d.ended = true
  /-- Where stepping back takes one off a count, there is one to take off, and the lines, which are
  counted from 1, do not come to 0. -/
  back : c.last? ≠ none → 0 < c.pos ∧ 0 < c.offset ∧ (c.paid = true → 1 < c.line)

/-- The cursor is at a position of these bytes, of which this may be the announced number. -/
structure IsAt (bytes : List UInt8) (size? : Option Nat) (c : Cursor) (p : Position) : Prop where
  tape : c.At { bytes := bytes.drop p.index } (p.line bytes) (p.endsLine bytes)
  index_le : p.index ≤ bytes.length
  offset_eq : c.offset = p.index
  size_eq : c.size? = size?
  /-- The end is noted for one of two reasons. -/
  sawEnd_or_size : c.ended = true → p.sawEnd = true ∨ ∃ size ∈ size?, size ≤ p.index
  isEof_of_sawEnd : p.sawEnd = true → c.isEof = true

/-- The cursor is at a position, and stepping back brings both one byte back or neither. -/
structure Follows (bytes : List UInt8) (size? : Option Nat) (c : Cursor) (p : Position) : Prop
    extends c.IsAt bytes size? p where
  last_eq : p.taken = false → c.last? = none
  /-- The byte that can be given back was stepped over from the position before. -/
  before : p.taken = true → ∃ (d : Cursor) (b : UInt8), c = d.advance b ∧ d.chunk[d.pos]? = some b ∧
    d.IsAt bytes size? { p with index := p.index - 1, taken := false }

variable {bytes : List UInt8} {size? : Option Nat} {c d : Cursor} {p : Position}

/-! ## Where a cursor is -/

/-- At the end that it notes, a cursor has nothing ahead. -/
theorem At.bytes_of_isEof {t : Tape} {line : Nat} {owed : Bool} (h : c.At t line owed)
    (heof : c.isEof = true) : t.bytes = [] := by
  obtain ⟨hended, hpos⟩ := Bool.and_eq_true_iff.mp heof
  have hdrop : c.chunk.toList.drop c.pos = [] := by
    rw [List.drop_eq_nil_iff, Array.length_toList]
    exact Nat.le_of_eq (beq_iff_eq.mp hpos).symm
  rw [← h.ahead_eq, ahead, hended, hdrop]
  rfl

/-- A cursor notes the end exactly where its position does. -/
theorem IsAt.isEof_eq (h : c.IsAt bytes size? p) : c.isEof = p.isEof bytes size? := by
  have hsame : c.isEof = true ↔ p.isEof bytes size? = true := by
    constructor
    · intro heof
      have hnone : bytes.drop p.index = [] := h.tape.bytes_of_isEof heof
      have hindex : p.index = bytes.length :=
        Nat.le_antisymm h.index_le (List.drop_eq_nil_iff.mp hnone)
      have hwhy := h.sawEnd_or_size (Bool.and_eq_true_iff.mp heof).1
      simpa [Position.isEof, hindex, Option.any_eq_true] using hwhy
    · intro heof
      obtain ⟨hindex, hwhy⟩ := Bool.and_eq_true_iff.mp heof
      have hindex : p.index = bytes.length := beq_iff_eq.mp hindex
      rcases Bool.or_eq_true_iff.mp hwhy with hsaw | hsize
      · exact h.isEof_of_sawEnd hsaw
      · obtain ⟨size, hmem, hle⟩ := (Option.any_eq_true _ _).mp hsize
        have hended : c.ended = true := by
          apply h.tape.sound.ended_of_size size (h.size_eq ▸ hmem)
          rw [h.offset_eq, hindex]
          exact of_decide_eq_true hle
        -- Nothing is ahead, so nothing is left in the chunk either.
        have hahead := congrArg Tape.bytes h.tape.ahead_eq
        rw [ahead, hended, hindex, List.drop_length] at hahead
        have hdrop : c.chunk.toList.drop c.pos = [] := by
          simpa [Tape.prepend] using hahead
        rw [List.drop_eq_nil_iff, Array.length_toList] at hdrop
        have hpos : c.pos = c.chunk.size := Nat.le_antisymm h.tape.sound.pos_le hdrop
        simp [isEof, hended, hpos]
  exact Bool.eq_iff_iff.mpr hsame

/-- What the last move left for stepping back has no part in where a cursor is. -/
theorem IsAt.forget (h : c.IsAt bytes size? p) (paid : Bool) (last? : Option UInt8)
    (taken : Bool) : { c with paid, last? }.IsAt bytes size? { p with taken } where
  tape := h.tape.forget paid last?
  index_le := h.index_le
  offset_eq := h.offset_eq
  size_eq := h.size_eq
  sawEnd_or_size := h.sawEnd_or_size
  isEof_of_sawEnd := h.isEof_of_sawEnd

/-- A cursor at the start of a source is at the start of what the source delivers. -/
theorem follows_ofSource {source : Source} (h : source.deliver size? = { bytes }) :
    (ofSource source size?).Follows bytes size? {} where
  tape := by
    have hat := at_ofSource source size?
    rwa [h] at hat
  index_le := Nat.zero_le _
  offset_eq := rfl
  size_eq := rfl
  sawEnd_or_size := by
    intro hended
    have hzero : size? = some 0 := beq_iff_eq.mp hended
    exact Or.inr ⟨0, hzero, Nat.le_refl 0⟩
  isEof_of_sawEnd := by simp
  last_eq := fun _ => rfl
  before := by simp

/-! ## Moves -/

/-- Reading ahead moves nothing, and notes the end only where nothing was read. -/
theorem refill_same (h : c.refill = (.ok (), d)) :
    d.offset = c.offset ∧ d.size? = c.size? ∧
      (d.ended = true → c.ended = true ∨ d.chunk = #[]) := by
  unfold refill at h
  split at h
  · cases h
    exact ⟨rfl, rfl, Or.inl⟩
  · split at h
    · cases h
    · rename_i bytes source hread
      cases h
      refine ⟨rfl, rfl, fun hended => Or.inr ?_⟩
      simpa using hended

/-- Where a byte is found after reading ahead, the cursor is still where it was. -/
theorem IsAt.refill (h : c.IsAt bytes size? p) (hd : c.refill = (.ok (), d)) {b : UInt8}
    (hget : d.chunk[d.pos]? = some b) : d.IsAt bytes size? p := by
  obtain ⟨hoffset, hsize, hended⟩ := refill_same hd
  have hchunk : d.chunk ≠ #[] := by
    rintro hempty
    simp [hempty] at hget
  refine ⟨(h.tape.refill_ok hd).1, h.index_le, by rw [hoffset, h.offset_eq],
    by rw [hsize, h.size_eq], fun hnoted => ?_, fun hsaw => ?_⟩
  · exact h.sawEnd_or_size ((hended hnoted).resolve_right hchunk)
  · have heof := h.isEof_of_sawEnd hsaw
    have hsame : c.refill = (.ok (), c) := by
      rw [Cursor.refill, if_pos (Or.inr (Bool.and_eq_true_iff.mp heof).1)]
    rw [hsame] at hd
    cases hd
    exact heof

/-- Stepping over the byte that is next brings the cursor to the next position. -/
theorem IsAt.advance (h : c.IsAt bytes size? p) {b : UInt8} (hget : c.chunk[c.pos]? = some b) :
    bytes[p.index]? = some b ∧ (c.advance b).Follows bytes size? (p.next bytes).2 := by
  obtain ⟨rest, hrest, hadvance⟩ := h.tape.advance hget
  have hdrop : bytes.drop p.index = b :: rest := congrArg Tape.bytes hrest
  have hbyte : bytes[p.index]? = some b := by
    rw [← List.head?_drop, hdrop]
    rfl
  obtain ⟨hlt, _⟩ := List.getElem?_eq_some_iff.mp hbyte
  have hbehind : bytes.drop (p.index + 1) = rest := by
    rw [← List.drop_drop, hdrop]
    rfl
  have hnext : (p.next bytes).2 = { p with index := p.index + 1, taken := true } := by
    rw [Position.next, hbyte]
  have hnotSeen : p.sawEnd ≠ true := by
    intro hsaw
    have hnone : bytes.drop p.index = [] := h.tape.bytes_of_isEof (h.isEof_of_sawEnd hsaw)
    rw [hdrop] at hnone
    cases hnone
  refine ⟨hbyte, ⟨?_, ?_, ?_, h.size_eq, ?_, ?_⟩, ?_, ?_⟩
  · rw [Position.line_next hbyte, Position.endsLine_next hbyte, hnext, hbehind]
    exact hadvance
  · rw [hnext]
    exact hlt
  · rw [hnext]
    exact congrArg (· + 1) h.offset_eq
  · intro hended
    rw [hnext]
    rcases Bool.or_eq_true_iff.mp hended with hended | hsize
    · rcases h.sawEnd_or_size hended with hsaw | ⟨size, hmem, hle⟩
      · exact absurd hsaw hnotSeen
      · exact Or.inr ⟨size, hmem, Nat.le_succ_of_le hle⟩
    · obtain ⟨size, hmem, hle⟩ := (Option.any_eq_true _ _).mp hsize
      rw [h.offset_eq] at hle
      exact Or.inr ⟨size, h.size_eq ▸ hmem, of_decide_eq_true hle⟩
  · intro hsaw
    rw [hnext] at hsaw
    exact absurd hsaw hnotSeen
  · intro htaken
    rw [hnext] at htaken
    cases htaken
  · intro _
    rw [hnext]
    exact ⟨c, b, rfl, hget, h.forget c.paid c.last? false⟩

/-- Taking a byte answers with the byte at the position, and moves both alike. -/
theorem IsAt.next (h : c.IsAt bytes size? p) :
    c.next.1 = .ok (p.next bytes).1 ∧ c.next.2.Follows bytes size? (p.next bytes).2 := by
  have hfresh : { c with paid := false }.IsAt bytes size? p := h.forget false c.last? p.taken
  unfold Cursor.next
  split
  · rename_i message d hrefill
    obtain ⟨hfailure, _⟩ := hfresh.tape.refill_error hrefill
    cases congrArg Tape.failure? hfailure
  · rename_i d hrefill
    obtain ⟨hd, hready⟩ := hfresh.tape.refill_ok hrefill
    rcases hd.get_or_over hready with ⟨b, hget⟩ | ⟨hget, hnothing, heof⟩
    · obtain ⟨hbyte, hfollows⟩ := (hfresh.refill hrefill hget).advance hget
      rw [hget]
      exact ⟨by rw [Position.next, hbyte], hfollows⟩
    · have hnone : bytes.drop p.index = [] := congrArg Tape.bytes hnothing
      have hend : bytes[p.index]? = none := List.getElem?_eq_none (List.drop_eq_nil_iff.mp hnone)
      obtain ⟨hoffset, hsize, _⟩ := refill_same hrefill
      have hnext : p.next bytes = (none, { p with taken := false, sawEnd := true }) := by
        rw [Position.next, hend]
      rw [hget, hnext]
      refine ⟨rfl, ⟨hd.forget d.paid none, h.index_le, ?_, ?_, fun _ => Or.inl rfl, fun _ => heof⟩,
        fun _ => rfl, by simp⟩
      · exact hoffset.trans h.offset_eq
      · exact hsize.trans h.size_eq

/-- Stepping back moves both alike. -/
theorem Follows.pushBack (h : c.Follows bytes size? p) : c.pushBack.Follows bytes size? p.back := by
  cases htaken : p.taken with
  | false =>
    have hsame : c.pushBack = c := by
      rw [Cursor.pushBack, h.last_eq htaken]
    rw [hsame, Position.back, htaken]
    exact h
  | true =>
    obtain ⟨d, b, rfl, hget, hd⟩ := h.before htaken
    rw [hd.tape.sound.pushBack_advance hget, Position.back, htaken, if_pos rfl]
    exact ⟨hd.forget false none false, fun _ => rfl, by simp⟩

/-- One move. -/
theorem Follows.step (h : c.Follows bytes size? p) (move : Move) :
    (c.move move).Follows bytes size? (p.move bytes move) := by
  cases move with
  | next => exact h.toIsAt.next.2
  | back => exact h.pushBack

/-- Any number of moves. -/
theorem Follows.run (h : c.Follows bytes size? p) (moves : List Move) :
    (moves.foldl Cursor.move c).Follows bytes size? (moves.foldl (Position.move bytes) p) := by
  induction moves generalizing c p with
  | nil => exact h
  | cons move moves ih => exact ih (h.step move)

/-- A cursor that follows a position keeps within its bounds. -/
theorem Follows.inBounds (h : c.Follows bytes size? p) : c.InBounds where
  lookup := by
    intro d hrefill
    have hfresh := h.tape.forget false c.last?
    obtain ⟨hd, hready⟩ := hfresh.refill_ok hrefill
    rcases Nat.lt_or_eq_of_le hd.sound.pos_le with hlt | heq
    · exact Or.inl hlt
    · exact Or.inr ⟨heq, hready.resolve_left (by omega)⟩
  back := by
    intro hlast
    cases htaken : p.taken with
    | false => exact absurd (h.last_eq htaken) hlast
    | true =>
      obtain ⟨d, b, rfl, _, hd⟩ := h.before htaken
      refine ⟨Nat.succ_pos _, Nat.succ_pos _, fun howed => ?_⟩
      have hline : d.line = Position.line bytes _ := hd.tape.line_eq
      have howed : d.owed = true := howed
      simp only [Cursor.advance, howed, if_true, hline, Position.line]
      omega

end Cursor

namespace Source

/-- Without failures, no read fails, and what is left has none either. -/
theorem read_of_no_failure {source : Source} (h : ∀ message, .failure message ∉ source) :
    ∃ bytes rest, source.read = (.ok bytes, rest) ∧ ∀ message, .failure message ∉ rest := by
  induction source with
  | nil => exact ⟨[], [], rfl, h⟩
  | cons item source ih =>
    have hrest : ∀ message, .failure message ∉ source :=
      fun message hmem => h message (List.mem_cons_of_mem item hmem)
    cases item with
    | interrupted => exact ih hrest
    | failure message => exact absurd List.mem_cons_self (h message)
    | data bytes =>
      rw [read]
      split
      · exact ⟨bytes, source, rfl, hrest⟩
      · exact ⟨_, _, rfl, by simpa using hrest⟩

/-- Without failures, a source delivers bytes and then ends. -/
theorem exists_deliver {source : Source} (h : ∀ message, .failure message ∉ source)
    (wanted? : Option Nat) : ∃ bytes, source.deliver wanted? = { bytes } := by
  induction hn : source.unread using Nat.strongRecOn generalizing source wanted? with
  | ind n ih =>
    by_cases hwanted : wanted? = some 0
    · exact ⟨[], by rw [hwanted, deliver_zero]⟩
    obtain ⟨bytes, rest, hread, hrest⟩ := read_of_no_failure h
    by_cases hbytes : bytes = []
    · subst hbytes
      exact ⟨[], deliver_of_nil hwanted hread⟩
    · have hlt : rest.unread < n := by
        have hunread := read_ok_unread hread
        have hlength := List.length_pos_iff.mpr hbytes
        omega
      obtain ⟨behind, hbehind⟩ := ih rest.unread hlt hrest (wanted?.map (· - bytes.length)) rfl
      exact ⟨bytes ++ behind, by rw [deliver_of_ok hwanted hbytes hread, hbehind]; rfl⟩

end Source

/-- Over a source without failures, whatever its announced size is, a cursor is a position in the
bytes that are delivered. After any moves its next answer, its line and its note of the end are
those of the position after the same moves, and it is within its bounds. -/
theorem cursor_follows_position {source : Source} (h : ∀ message, .failure message ∉ source)
    (size? : Option Nat) :
    ∃ bytes, source.deliver size? = { bytes } ∧ ∀ moves : List Move,
      let c := moves.foldl Cursor.move (Cursor.ofSource source size?)
      let p := moves.foldl (Position.move bytes) {}
      c.next.1 = .ok (p.next bytes).1 ∧ c.line = p.line bytes ∧ c.isEof = p.isEof bytes size? ∧
        c.InBounds := by
  obtain ⟨bytes, hdeliver⟩ := Source.exists_deliver h size?
  refine ⟨bytes, hdeliver, fun moves => ?_⟩
  have hfollows := (Cursor.follows_ofSource hdeliver).run moves
  exact ⟨hfollows.toIsAt.next.1, hfollows.tape.line_eq, hfollows.isEof_eq, hfollows.inBounds⟩

/-- The pieces are `a` with a newline, then a newline, and behind an empty piece `b`, which is never
read. The second newline is taken, given back once though that is asked for twice, and taken again,
and then the end is met. -/
theorem cursor_follows_position_to_the_end :
    let source : Source := [.data [0x61, 0x0A], .interrupted, .data [0x0A], .data [], .data [0x62]]
    let c := [Move.next, .next, .next, .back, .back, .next, .next, .back].foldl Cursor.move
      (.ofSource source (some 9))
    source.deliver (some 9) = { bytes := [0x61, 0x0A, 0x0A] } ∧ c.next.1 = .ok none ∧ c.line = 2 ∧
      c.isEof = true ∧ c.InBounds := by
  intro source c
  have hsource : ∀ message, .failure message ∉ source := by simp [source]
  have hdeliver : source.deliver (some 9) = { bytes := [0x61, 0x0A, 0x0A] } := by decide +kernel
  obtain ⟨bytes, hbytes, hmoves⟩ := cursor_follows_position hsource (some 9)
  obtain rfl : [0x61, 0x0A, 0x0A] = bytes := congrArg Tape.bytes (hdeliver.symm.trans hbytes)
  exact ⟨hdeliver, hmoves [.next, .next, .next, .back, .back, .next, .next, .back]⟩

end TabMarkup
