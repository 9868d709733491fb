import FieldScript.Text.Digit

/-!
# Characters of names

Which characters a name in an expression may begin with and consist of:
letters of any script, digits and the underscore. Outside ASCII the
characters that are no letters are listed by block: punctuation, spaces,
symbols, pictographs and private use.
-/

namespace FieldScript

/-- Blocks above ASCII that hold no letters, as first and last code. -/
def wordlessBlocks : List (Nat × Nat) :=
  [(0x80, 0xA9), (0xAB, 0xB4), (0xB6, 0xB9), (0xBB, 0xBF), (0xD7, 0xD7), (0xF7, 0xF7),
   (0x2C2, 0x2C5), (0x2D2, 0x2DF), (0x37E, 0x37E), (0x387, 0x387), (0x589, 0x58F), (0x600, 0x60F),
   (0x964, 0x965), (0x1680, 0x1680), (0x2000, 0x203E), (0x2041, 0x2053), (0x2055, 0x2070),
   (0x2072, 0x207E), (0x2080, 0x208F), (0x20A0, 0x20CF), (0x2100, 0x2101), (0x2103, 0x2106),
   (0x2108, 0x2109), (0x2114, 0x2114), (0x2116, 0x2117), (0x211E, 0x2123), (0x2125, 0x2125),
   (0x2127, 0x2127), (0x2129, 0x2129), (0x2150, 0x215F), (0x2190, 0x2BFF), (0x2E00, 0x2E2E),
   (0x2E30, 0x3004), (0x3008, 0x3020), (0x3030, 0x3030), (0x303D, 0x3040), (0x3200, 0x33FF),
   (0x4DC0, 0x4DFF), (0xD800, 0xF8FF), (0xFE10, 0xFE1F), (0xFE30, 0xFE32), (0xFE35, 0xFE4C),
   (0xFE50, 0xFE6F), (0xFF00, 0xFF0F), (0xFF1A, 0xFF20), (0xFF3B, 0xFF3E), (0xFF40, 0xFF40),
   (0xFF5B, 0xFF65), (0xFFE0, 0xFFFF), (0x1F000, 0x1FAFF), (0xE0000, 0xE00FF), (0xF0000, 0x10FFFF)]

/-- Whether the character can stand in a name, digits apart. -/
def isWordLetter (c : Char) : Bool :=
  if c.toNat < 0x80 then c.isAlpha || c == '_'
  else !wordlessBlocks.any (fun b => b.1 ≤ c.toNat && c.toNat ≤ b.2) && !isDecimalDigit c

/-- Whether the character can stand behind the first one of a name. -/
def isWordChar (c : Char) : Bool := isWordLetter c || isDecimalDigit c

end FieldScript
