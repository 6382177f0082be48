/-!
# UTF-8

Bytes are read as UTF-8 part by part. A well-formed sequence is a part that holds a character,
and a longest stretch of bytes that begins some sequence without completing it is a part that
holds none. Lossy decoding shows U+FFFD for every part without a character; strict decoding
refuses a text that has such a part.
-/

namespace TabMarkup.Utf8

/-- What the first byte of a sequence announces: how many bytes follow it, the range in which
the second byte lies, and the bits that the first byte contributes. -/
structure Lead where
  more : Nat
  low : UInt8
  high : UInt8
  bits : Nat
  deriving Repr, DecidableEq

/-- The announcement of a first byte. Bytes that begin no sequence have none; the narrowed
ranges exclude overlong forms, surrogates and code points beyond U+10FFFF. -/
def lead (b : UInt8) : Option Lead :=
  if b < 0x80 then some ⟨0, 0x80, 0xBF, b.toNat⟩
  else if b < 0xC2 then none
  else if b < 0xE0 then some ⟨1, 0x80, 0xBF, b.toNat - 0xC0⟩
  else if b < 0xF0 then
    some ⟨2, if b = 0xE0 then 0xA0 else 0x80, if b = 0xED then 0x9F else 0xBF, b.toNat - 0xE0⟩
  else if b < 0xF5 then
    some ⟨3, if b = 0xF0 then 0x90 else 0x80, if b = 0xF4 then 0x8F else 0xBF, b.toNat - 0xF0⟩
  else none

/-- Reads `more` continuation bytes, the first of them between `low` and `high`, onto `bits`.
The first byte that does not fit is left in the input. -/
def follow : (more : Nat) → (low high : UInt8) → (bits : Nat) → List UInt8 →
    Option Nat × List UInt8
  | 0, _, _, bits, input => (some bits, input)
  | _ + 1, _, _, _, [] => (none, [])
  | more + 1, low, high, bits, b :: input =>
    if low ≤ b ∧ b ≤ high then
      follow more 0x80 0xBF (bits * 64 + (b.toNat - 0x80)) input
    else (none, b :: input)

/-- Continuation bytes are only taken from the input, never put into it. -/
theorem follow_length_le (more : Nat) (low high : UInt8) (bits : Nat) (input : List UInt8) :
    (follow more low high bits input).2.length ≤ input.length := by
  induction input generalizing more low high bits with
  | nil => cases more <;> simp [follow]
  | cons b input ih =>
    cases more with
    | zero => simp [follow]
    | succ more =>
      rw [follow]
      split
      · exact Nat.le_succ_of_le (ih _ _ _ _)
      · exact Nat.le_refl _

/-- The parts of a byte text: `some c` for a well-formed sequence that encodes `c`, and `none`
for an ill-formed stretch. -/
def parts : List UInt8 → List (Option Char)
  | [] => []
  | b :: input =>
    match lead b with
    | none => none :: parts input
    | some l =>
      have := follow_length_le l.more l.low l.high l.bits input
      (follow l.more l.low l.high l.bits input).1.map Char.ofNat ::
        parts (follow l.more l.low l.high l.bits input).2
termination_by input => input.length

/-- Shown in place of an ill-formed part. -/
def replacement : Char := '\uFFFD'

/-- The characters of a byte text, with one U+FFFD for every ill-formed part. -/
def decodeLossy (bytes : List UInt8) : List Char :=
  (parts bytes).map (·.getD replacement)

/-- The characters of a byte text without ill-formed parts. -/
def decode? (bytes : List UInt8) : Option (List Char) :=
  (parts bytes).mapM id

/-- The bytes of a text. -/
def encode (text : List Char) : List UInt8 :=
  text.flatMap String.utf8EncodeChar

end TabMarkup.Utf8
