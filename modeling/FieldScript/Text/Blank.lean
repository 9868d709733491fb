/-!
# Blank characters

The Unicode white space that separates tokens and is trimmed from both
ends of a line. It is wider than the ASCII blanks: no-break spaces, the
separators `U+001C` to `U+001F` and the typographic spaces belong to it;
the zero-width space does not.
-/

namespace FieldScript

/-- A character that only separates. -/
def isBlank (c : Char) : Bool :=
  let n := c.toNat
  (9 ≤ n && n ≤ 13) || (28 ≤ n && n ≤ 32) || n == 0x85 || n == 0xa0 || n == 0x1680
    || (0x2000 ≤ n && n ≤ 0x200a) || n == 0x2028 || n == 0x2029 || n == 0x202f
    || n == 0x205f || n == 0x3000

/-- The text without the blanks at its end. -/
def trimEnd (s : List Char) : List Char :=
  (s.reverse.dropWhile isBlank).reverse

/-- The text without the blanks at either end. -/
def trim (s : List Char) : List Char :=
  trimEnd (s.dropWhile isBlank)

end FieldScript
