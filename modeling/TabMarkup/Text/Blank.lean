/-!
# White space

The characters with the Unicode property White_Space, and the text that is left when they are
taken from both ends.
-/

namespace TabMarkup.Text

/-- The characters with the Unicode property White_Space. -/
def isBlank (c : Char) : Bool :=
  let n := c.toNat
  (0x09 ≤ n && n ≤ 0x0D) || n == 0x20 || n == 0x85 || n == 0xA0 || n == 0x1680 ||
    (0x2000 ≤ n && n ≤ 0x200A) || n == 0x2028 || n == 0x2029 || n == 0x202F || n == 0x205F ||
    n == 0x3000

/-- A text without the white space that begins it. -/
def trimStart (text : List Char) : List Char :=
  text.dropWhile isBlank

/-- A text without the white space that ends it. -/
def trimEnd (text : List Char) : List Char :=
  (text.reverse.dropWhile isBlank).reverse

/-- A text without the white space around it. -/
def trim (text : List Char) : List Char :=
  trimEnd (trimStart text)

end TabMarkup.Text
