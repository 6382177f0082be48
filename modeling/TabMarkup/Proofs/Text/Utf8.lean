import TabMarkup.Text.Utf8

/-!
# ASCII bytes stand for themselves

A byte below 0x80 belongs to no longer sequence. So a text is decoded up to such a byte and after
it on its own, whatever ill-formed stretches there are, and the byte itself is a character.
-/

namespace TabMarkup.Utf8

/-- The character of an ASCII byte. -/
def asciiChar (b : UInt8) : Char :=
  Char.ofNat b.toNat

/-- The second byte of a sequence is never an ASCII byte. -/
theorem le_low_of_lead {b : UInt8} {l : Lead} (h : lead b = some l) : 0x80 ≤ l.low := by
  unfold lead at h
  split at h
  · cases h
    exact UInt8.le_refl _
  split at h
  · cases h
  split at h
  · cases h
    exact UInt8.le_refl _
  split at h
  · cases h
    dsimp only
    split <;> decide
  split at h
  · cases h
    dsimp only
    split <;> decide
  · cases h

/-- A sequence that begins before an ASCII byte ends before it or breaks off there. -/
theorem follow_append_ascii {b : UInt8} (hb : b < 0x80) (v : List UInt8) (more : Nat)
    {low : UInt8} (hlow : 0x80 ≤ low) (high : UInt8) (bits : Nat) (u : List UInt8) :
    follow more low high bits (u ++ b :: v) =
      ((follow more low high bits u).1, (follow more low high bits u).2 ++ b :: v) := by
  induction u generalizing more low high bits with
  | nil =>
    cases more with
    | zero => simp [follow]
    | succ more =>
      have hbelow : ¬ (low ≤ b ∧ b ≤ high) := by
        rintro ⟨hle, _⟩
        exact absurd (UInt8.le_trans hlow hle) (UInt8.not_le.mpr hb)
      simp [follow, hbelow]
  | cons c u ih =>
    cases more with
    | zero => simp [follow]
    | succ more =>
      rw [List.cons_append, follow, follow]
      split
      · exact ih more (by decide) _ _
      · rfl

/-- The parts before an ASCII byte, the byte, and the parts after it. -/
theorem parts_append_ascii {b : UInt8} (hb : b < 0x80) (u v : List UInt8) :
    parts (u ++ b :: v) = parts u ++ some (asciiChar b) :: parts v := by
  induction hn : u.length using Nat.strongRecOn generalizing u with
  | ind n ih =>
    cases u with
    | nil =>
      rw [List.nil_append, parts, parts]
      simp [lead, hb, follow, asciiChar]
    | cons c u =>
      rw [List.cons_append, parts, parts.eq_def (c :: u)]
      dsimp only
      cases hlead : lead c with
      | none =>
        dsimp only
        rw [ih u.length (by rw [← hn]; exact Nat.lt_succ_self _) u rfl]
        rfl
      | some l =>
        have hle := follow_length_le l.more l.low l.high l.bits u
        dsimp only
        rw [follow_append_ascii hb v l.more (le_low_of_lead hlead)]
        dsimp only
        rw [ih _ (by rw [← hn]; exact Nat.lt_succ_of_le hle) _ rfl]
        rfl

theorem parts_nil : parts [] = [] := by
  rw [parts]

@[simp] theorem decodeLossy_nil : decodeLossy [] = [] := by
  rw [decodeLossy, parts_nil]
  rfl

/-- Lossy decoding goes on its own on both sides of an ASCII byte. -/
theorem decodeLossy_append_ascii {b : UInt8} (hb : b < 0x80) (u v : List UInt8) :
    decodeLossy (u ++ b :: v) = decodeLossy u ++ asciiChar b :: decodeLossy v := by
  simp [decodeLossy, parts_append_ascii hb]

/-- An ASCII byte at the front is the first character. -/
theorem decodeLossy_cons_ascii {b : UInt8} (hb : b < 0x80) (v : List UInt8) :
    decodeLossy (b :: v) = asciiChar b :: decodeLossy v := by
  simpa using decodeLossy_append_ascii hb [] v

/-- ASCII bytes decode one by one. -/
theorem decodeLossy_ascii {w : List UInt8} (hw : ∀ b ∈ w, b < 0x80) (v : List UInt8) :
    decodeLossy (w ++ v) = w.map asciiChar ++ decodeLossy v := by
  induction w with
  | nil => rfl
  | cons b w ih =>
    rw [List.cons_append, decodeLossy_cons_ascii (hw b (by simp)),
      ih fun c hc => hw c (by simp [hc])]
    rfl

end TabMarkup.Utf8
