/-!
# Quoted forms

How a byte or a short text is shown in a message: between quotes, with the quote, the backslash
and the characters that do not print written as escapes. A byte is shown as the character of
the same number.
-/

namespace TabMarkup.Quoted

/-- Characters up to U+00FF that show as themselves: all but the two control ranges, the
no-break space and the soft hyphen. -/
def prints (c : Char) : Bool :=
  let n := c.toNat
  0x20 ≤ n && !(0x7F ≤ n && n ≤ 0xA0) && n != 0xAD

/-- The shown form of one character between two `quote`s. -/
def escape (quote c : Char) : List Char :=
  if c = '\x00' then ['\\', '0']
  else if c = '\t' then ['\\', 't']
  else if c = '\n' then ['\\', 'n']
  else if c = '\r' then ['\\', 'r']
  else if c = '\\' ∨ c = quote then ['\\', c]
  else if prints c then [c]
  else ['\\', 'u', '\x7b'] ++ Nat.toDigits 16 c.toNat ++ ['\x7d']

/-- A byte between single quotes. -/
def byte (b : UInt8) : String :=
  String.ofList (['\x27'] ++ escape '\x27' (Char.ofNat b.toNat) ++ ['\x27'])

/-- An ASCII text between double quotes. -/
def text (s : String) : String :=
  String.ofList (['\x22'] ++ s.toList.flatMap (escape '\x22') ++ ['\x22'])

end TabMarkup.Quoted
