import FieldScript.Text.Blank
import FieldScript.Text.Digit
import FieldScript.Text.Upper

/-!
# Tokens

A line of a program, or an expression, as a list of tokens with their
positions. Blanks are dropped; a character that begins no token is a
token of its own (`Kind.unknown`), so that no character is lost. The text
of a part of a line is always cut from the line (`sliceText`), never
glued together from tokens.
-/

namespace FieldScript

inductive Kind where
  | string | number | ident | compare | power | equals | plus | minus | multiply | divide
  | lparen | rparen | lbracket | rbracket | comma | unknown
  deriving DecidableEq, Repr, BEq, ReflBEq, LawfulBEq

namespace Kind

/-- The printed name of a kind. -/
def name : Kind → String
  | .string => "STRING" | .number => "NUMBER" | .ident => "IDENT" | .compare => "COMPARE"
  | .power => "POWER" | .equals => "EQUALS" | .plus => "PLUS" | .minus => "MINUS"
  | .multiply => "MULTIPLY" | .divide => "DIVIDE" | .lparen => "LPAREN" | .rparen => "RPAREN"
  | .lbracket => "LBRACKET" | .rbracket => "RBRACKET" | .comma => "COMMA"
  | .unknown => "MISMATCH"

def all : List Kind :=
  [.string, .number, .ident, .compare, .power, .equals, .plus, .minus, .multiply, .divide,
   .lparen, .rparen, .lbracket, .rbracket, .comma, .unknown]

def ofName? (s : String) : Option Kind :=
  all.find? (·.name == s)

/-- The bracket that closes this one. -/
def closer? : Kind → Option Kind
  | .lparen => some .rparen
  | .lbracket => some .rbracket
  | _ => none

def isOpener (k : Kind) : Bool :=
  k == .lparen || k == .lbracket

def isCloser (k : Kind) : Bool :=
  k == .rparen || k == .rbracket

end Kind

structure Token where
  kind : Kind
  text : List Char
  position : Nat
  deriving DecidableEq, Repr, BEq

namespace Token

def value (t : Token) : String := String.ofList t.text

/-- The position just behind the token. -/
def stop (t : Token) : Nat := t.position + t.text.length

/-- Whether the token is one of these words, which are given in upper
case, in any letter case. -/
def isWord (t : Token) (words : List String) : Bool :=
  t.kind == .ident && words.contains (upperName t.value)

def describe (t : Token) : String :=
  t.kind.name ++ ":" ++ t.value ++ "@" ++ toString t.position

end Token

/-! ## Scanning -/

namespace Scan

def isNameStart (c : Char) : Bool := c.isAlpha || c == '_'

def isNameChar (c : Char) : Bool := c.isAlphanum || c == '_'

/-- How many characters of the class come first. -/
def run (p : Char → Bool) (s : List Char) : Nat :=
  (s.takeWhile p).length

/-- The length of an exponent part: a letter, a sign and digits. -/
def exponent : List Char → Nat
  | [] => 0
  | c :: rest =>
    if c == 'e' || c == 'E' then
      let sign := match rest with
        | s :: _ => if s == '+' || s == '-' then 1 else 0
        | [] => 0
      let digits := run isDecimalDigit (rest.drop sign)
      if digits == 0 then 0 else 1 + sign + digits
    else 0

/-- The length of a point and the digits behind it. -/
def fraction : List Char → Nat
  | '.' :: rest => 1 + run isDecimalDigit rest
  | _ => 0

/-- What of a number follows its first character, a digit. -/
def afterDigit (rest : List Char) : Nat :=
  let whole := run isDecimalDigit rest
  let places := fraction (rest.drop whole)
  whole + places + exponent (rest.drop (whole + places))

/-- What of a number follows its first character, a point, when a digit
comes next. -/
def afterPoint (rest : List Char) : Nat :=
  let places := run isDecimalDigit rest
  places + exponent (rest.drop places)

def nextIs (c : Char) : List Char → Bool
  | [] => false
  | d :: _ => d == c

/-- The token that begins with `c`: its kind and how many of the
following characters belong to it. -/
def lexeme (c : Char) (rest : List Char) : Kind × Nat :=
  if c == '"' || c == '\'' then
    match rest.findIdx? (· == c) with
    | some i => (.string, i + 1)
    | none => (.unknown, 0)
  else if isDecimalDigit c then (.number, afterDigit rest)
  else if c == '.' && (rest.head?.map isDecimalDigit).getD false then (.number, afterPoint rest)
  else if isNameStart c then (.ident, run isNameChar rest)
  else match c with
    | '>' | '<' => (.compare, if nextIs '=' rest then 1 else 0)
    | '=' => if nextIs '=' rest then (.compare, 1) else (.equals, 0)
    | '!' => if nextIs '=' rest then (.compare, 1) else (.unknown, 0)
    | '^' => (.power, 0)
    | '*' => if nextIs '*' rest then (.power, 1) else (.multiply, 0)
    | '+' => (.plus, 0)
    | '-' => (.minus, 0)
    | '/' => (.divide, 0)
    | '(' => (.lparen, 0)
    | ')' => (.rparen, 0)
    | '[' => (.lbracket, 0)
    | ']' => (.rbracket, 0)
    | ',' => (.comma, 0)
    | _ => (.unknown, 0)

/-- The tokens of a text that begins at the given position. -/
def tokensFrom (position : Nat) : List Char → List Token
  | [] => []
  | c :: rest =>
    if isBlank c then tokensFrom (position + 1) rest
    else
      let (kind, more) := lexeme c rest
      ⟨kind, c :: rest.take more, position⟩ ::
        tokensFrom (position + 1 + (rest.take more).length) (rest.drop more)
termination_by s => s.length
decreasing_by
  · simp only [List.length_cons]; omega
  · simp only [List.length_cons, List.length_drop]; omega

end Scan

def tokenize (s : List Char) : List Token :=
  Scan.tokensFrom 0 s

def tokenizeText (s : String) : List Token :=
  tokenize s.toList

/-! ## Brackets -/

/-- Reads tokens against the closing brackets that are still due, the
innermost first. -/
def nestsWith : List Kind → List Token → Bool
  | due, [] => due.isEmpty
  | due, t :: rest =>
    match t.kind.closer? with
    | some k => nestsWith (k :: due) rest
    | none =>
      if t.kind.isCloser then
        match due with
        | k :: due' => k == t.kind && nestsWith due' rest
        | [] => false
      else nestsWith due rest

/-- Round and square brackets match by kind and nest properly. -/
def properlyNested (ts : List Token) : Bool :=
  nestsWith [] ts

/-- The bracket depth behind a token. -/
def depthAfter (depth : Int) (t : Token) : Int :=
  if t.kind.isOpener then depth + 1 else if t.kind.isCloser then depth - 1 else depth

/-- Puts a token in front of the first group. -/
def consFirst (t : Token) : List (List Token) → List (List Token)
  | [] => [[t]]
  | g :: gs => (t :: g) :: gs

def splitFrom (separator : Kind) (depth : Int) : List Token → List (List Token)
  | [] => [[]]
  | t :: rest =>
    let depth := depthAfter depth t
    if t.kind == separator && depth == 0 then [] :: splitFrom separator depth rest
    else consFirst t (splitFrom separator depth rest)

/-- The groups between the separators that stand outside all brackets;
empty groups are kept. -/
def splitTopLevel (ts : List Token) (separator : Kind := .comma) : List (List Token) :=
  splitFrom separator 0 ts

def findFrom (word : String) (start index : Nat) (depth : Int) : List Token → Option Nat
  | [] => none
  | t :: rest =>
    if !t.kind.isOpener && !t.kind.isCloser && start ≤ index && depth == 0
        && t.isWord [word] then some index
    else findFrom word start (index + 1) (depthAfter depth t) rest

/-- The index of the first token outside all brackets, from index
`start` on, that is this word. -/
def findTopLevel (ts : List Token) (word : String) (start : Nat := 0) : Option Nat :=
  findFrom word start 0 0 ts

/-- Scans with the depth behind each token: no bracket but the last one
brings it back to zero. -/
def closesOnlyAtEnd (depth : Int) : List Token → Bool
  | [] => true
  | t :: rest =>
    let depth := depthAfter depth t
    !(t.kind.isCloser && depth == 0 && !rest.isEmpty) && closesOnlyAtEnd depth rest

/-- The tokens are exactly one group in square brackets. -/
def isBracketed (ts : List Token) : Bool :=
  2 ≤ ts.length && (ts.head?.map (·.kind)) == some .lbracket
    && (ts.getLast?.map (·.kind)) == some .rbracket && properlyNested ts && closesOnlyAtEnd 0 ts

/-- The tokens between the first and the last. -/
def inner (ts : List Token) : List Token :=
  (ts.drop 1).dropLast

/-! ## Text of tokens -/

/-- The part of a line from the first of the tokens to the last. -/
def rawSlice (line : List Char) (ts : List Token) : List Char :=
  match ts.head?, ts.getLast? with
  | some a, some b => (line.take b.stop).drop a.position
  | _, _ => []

/-- The raw slice without blanks at its ends. -/
def sliceText (line : List Char) (ts : List Token) : List Char :=
  trim (rawSlice line ts)

/-- The texts of the tokens, one behind the other. -/
def joinedText (ts : List Token) : String :=
  String.ofList (ts.flatMap (·.text))

/-- The names that an expression mentions, in the order of their first
use. -/
def identifiers (s : List Char) : List String :=
  (tokenize s).foldl
    (fun seen t => if t.kind == .ident && !seen.contains t.value then seen ++ [t.value] else seen) []

/-- The texts of the components of `[a, b, c]` or of the cells of
`[[a, b], [c, d]]`, row by row; nothing if one of them is empty. -/
def splitComponents? (body : List Char) : Option (List String) :=
  let text? (g : List Token) : Option String :=
    if g.isEmpty then none else some (String.ofList (rawSlice body g))
  let texts? (g : List Token) : Option (List String) :=
    if (g.head?.map Token.kind) == some .lbracket then (splitTopLevel (inner g)).mapM text?
    else [g].mapM text?
  ((splitTopLevel (inner (tokenize body))).mapM texts?).map List.flatten

end FieldScript
