import TabMarkup.Text.Quoted

/-!
# Byte patterns

The classes of bytes that the line grammar asks for, and how an error message names each.
-/

namespace TabMarkup

/-- What the next byte of a source may be asked to be. -/
inductive Pattern where
  /-- This byte. -/
  | byte (b : UInt8)
  | digit
  | letter
  /-- ASCII punctuation other than quotes and `=`. -/
  | symbol
  /-- A letter, a digit or `_`. -/
  | identifier
  /-- Anything but a newline. -/
  | content
  /-- A letter, a digit or `-`. -/
  | attributeName
  /-- Anything but a newline and the quote that ends the text. -/
  | quoted (quote : UInt8)
  deriving Repr, DecidableEq

namespace Pattern

/-- The pattern of one ASCII character. -/
def char (c : Char) : Pattern :=
  .byte c.toUInt8

/-- The ASCII digits. -/
def isDigit (b : UInt8) : Bool :=
  0x30 ≤ b && b ≤ 0x39

/-- The ASCII letters. -/
def isLetter (b : UInt8) : Bool :=
  (0x41 ≤ b && b ≤ 0x5A) || (0x61 ≤ b && b ≤ 0x7A)

/-- The ASCII characters that print and are neither letters, digits nor the space. -/
def isPunctuation (b : UInt8) : Bool :=
  0x21 ≤ b && b ≤ 0x7E && !isDigit b && !isLetter b

/-- Whether a byte answers the pattern. -/
def admits : Pattern → UInt8 → Bool
  | .byte want, b => b == want
  | .digit, b => isDigit b
  | .letter, b => isLetter b
  | .symbol, b => isPunctuation b && b != 0x22 && b != 0x27 && b != 0x3D
  | .identifier, b => isLetter b || isDigit b || b == 0x5F
  | .content, b => b != 0x0A
  | .attributeName, b => isLetter b || isDigit b || b == 0x2D
  | .quoted quote, b => b != 0x0A && b != quote

/-- The pattern in the words of an error message. -/
def describe : Pattern → String
  | .byte b => Quoted.byte b
  | .digit => "a digit"
  | .letter => "a letter"
  | .symbol => "a symbol"
  | .identifier => "an identifier character"
  | .content => "content"
  | .attributeName => "an attribute name character"
  | .quoted quote => "quoted text or " ++ Quoted.byte quote

end Pattern

end TabMarkup
