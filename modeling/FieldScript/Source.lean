import FieldScript.Text.Blank

/-!
# Logical lines

A program is written in physical lines. `logicalLines` turns them into
the lines that statements are read from, in two passes:

1. comments and outer blanks go, empty lines disappear, and a line that
   ends in a backslash is joined with the next by one blank (`joinLines`);
2. a definition absorbs the lines below it until one starts with a
   keyword, so that a body may be wrapped (`absorbWrapped`).

Every logical line keeps the number of the physical line on which it
starts.
-/

namespace FieldScript

structure LogicalLine where
  text : List Char
  line : Nat
  deriving DecidableEq, Repr

namespace Source

/-- The line up to the first `#` outside quotes; `quote` is the quote
that is still open. -/
def stripCommentFrom : Option Char → List Char → List Char
  | _, [] => []
  | some q, c :: rest => c :: stripCommentFrom (if c == q then none else some q) rest
  | none, c :: rest =>
    if c == '#' then []
    else c :: stripCommentFrom (if c == '"' || c == '\'' then some c else none) rest

def stripComment (s : List Char) : List Char :=
  stripCommentFrom none s

/-- The physical lines, numbered from `n` on. -/
def numbered (n : Nat) : List (List Char) → List (Nat × List Char)
  | [] => []
  | l :: rest => (n, l) :: numbered (n + 1) rest

/-- The pieces between the line ends. -/
def splitLines : List Char → List (List Char)
  | [] => [[]]
  | c :: rest =>
    if c == '\n' then [] :: splitLines rest
    else match splitLines rest with
      | [] => [[c]]
      | l :: ls => (c :: l) :: ls

/-- How many physical lines a source has. -/
def lineCount (s : List Char) : Nat :=
  (splitLines s).length

/-- What remains of every physical line: no comment, no outer blanks, no
empty lines. -/
def pieces (s : List Char) : List (Nat × List Char) :=
  ((numbered 1 (splitLines s)).map fun l => (l.1, trim (stripComment l.2))).filter (!·.2.isEmpty)

/-- The text without the backslash at its end, if it has one. -/
def continued? (s : List Char) : Option (List Char) :=
  if s.getLast? == some '\\' then some (trimEnd s.dropLast) else none

/-- Joins continued lines. `buffer` is the text so far of a line that
started on line `start`; it is empty between logical lines. -/
def joinLines (buffer : List Char) (start : Nat) : List (Nat × List Char) → List LogicalLine
  | [] => if buffer.isEmpty then [] else [⟨buffer, start⟩]
  | (n, piece) :: rest =>
    let start := if buffer.isEmpty then n else start
    let text := if buffer.isEmpty then piece else buffer ++ ' ' :: piece
    match continued? text with
    | some buffer => joinLines buffer start rest
    | none => ⟨text, start⟩ :: joinLines [] 0 rest

/-- Letters that are the same but for their case; the long s and the
dotless i have the capitals S and I. -/
def foldLetter (c : Char) : Char :=
  if c == 'ſ' then 's' else if c == 'ı' || c == 'İ' then 'i' else c.toLower

/-- Whether a line starts with this word, followed by a blank or by
nothing. -/
def startsWithWord (word : String) (s : List Char) : Bool :=
  let w := word.toList.map foldLetter
  (s.take w.length).map foldLetter == w
    && ((s.drop w.length).head?.map isBlank).getD true

/-- The words that start a statement, apart from `DEF`. -/
def statementWords : List String :=
  ["SET", "COLOR", "PLOT3D", "PLOT_VECFIELD", "PLOT_TENSOR", "ANIMATE", "PARTICLES", "CONTOUR",
   "LABEL"]

def startsDefinition (s : List Char) : Bool :=
  startsWithWord "DEF" s

def startsStatement (s : List Char) : Bool :=
  statementWords.any (startsWithWord · s)

/-- Lets a pending definition absorb the lines that start nothing; they
are appended without a separator. -/
def absorbWrapped : Option LogicalLine → List LogicalLine → List LogicalLine
  | pending, [] => pending.toList
  | pending, l :: rest =>
    if startsDefinition l.text then pending.toList ++ absorbWrapped (some l) rest
    else match pending with
      | none => l :: absorbWrapped none rest
      | some d =>
        if startsStatement l.text then d :: l :: absorbWrapped none rest
        else absorbWrapped (some ⟨d.text ++ l.text, d.line⟩) rest

end Source

/-- The logical lines of a source, in order. -/
def logicalLines (source : List Char) : List LogicalLine :=
  Source.absorbWrapped none (Source.joinLines [] 0 (Source.pieces source))

end FieldScript
