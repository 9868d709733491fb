import FieldScript.Decimal.Numeral
import FieldScript.Expr.Number
import FieldScript.Text.Upper
import FieldScript.Text.Word

/-!
# Lexemes of expressions

The text of an expression as numerals, names, texts and operators. A
numeral with a point or an exponent is rounded to as many digits as it
shows, and to fifteen at least; all other numerals are exact. Digits in
square brackets behind a decimal fraction repeat without end. Text behind
`#` does not count, and a line may end only inside brackets.

A postfix `!` becomes a call of the factorial: it takes the last lexeme,
or the last group in brackets together with the name before it.
-/

namespace FieldScript

inductive Lexeme where
  | number (n : Num)
  /-- A number times the imaginary unit. -/
  | imaginary (n : Num)
  | name (s : String)
  | text (s : String)
  | op (s : String)
  deriving Repr, BEq

namespace Lexeme

/-! ## Numerals -/

/-- A numeral as it is written. -/
inductive Written where
  | whole (value : Nat)
  /-- Digits before and behind the point, and whether there is a point;
  an exponent. -/
  | decimal (before behind : List Nat) (point : Bool) (exponent : Option Int)

/-- The digits of a number to a base, with single underscores; a
digit follows each underscore. -/
def basedDigits? (base : Nat) (value : Nat) (underscore : Bool) : List Char → Option (Nat × List Char)
  | [] => if underscore then none else some (value, [])
  | c :: rest =>
    let digit? : Option Nat :=
      if c.isDigit then some (c.toNat - '0'.toNat)
      else if 'a' ≤ c.toLower && c.toLower ≤ 'f' then some (c.toLower.toNat - 'a'.toNat + 10)
      else none
    match digit? with
    | some d => if d < base then basedDigits? base (value * base + d) false rest
        else none
    | none =>
      if c == '_' && !underscore then basedDigits? base value true rest
      else if underscore then none
      else some (value, c :: rest)

/-- A run of ASCII digits with single underscores between them. -/
def digitsFrom (after : Bool) : List Char → List Nat × List Char
  | [] => ([], [])
  | c :: rest =>
    if c.isDigit then
      let (ds, r) := digitsFrom true rest
      ((c.toNat - '0'.toNat) :: ds, r)
    else if c == '_' && after && (rest.head?.map Char.isDigit).getD false then digitsFrom false rest
    else ([], c :: rest)

/-- The exponent, if one is complete. -/
def exponent? (s : List Char) : Option Int × List Char :=
  match s with
  | c :: rest =>
    if c == 'e' || c == 'E' then
      let (neg, body) := match rest with
        | '-' :: r => (true, r)
        | '+' :: r => (false, r)
        | r => (false, r)
      match digitsFrom false body with
      | ([], _) => (none, s)
      | (ds, r) =>
        let v : Int := Numeral.ofDigits ds
        (some (if neg then -v else v), r)
    else (none, s)
  | [] => (none, [])

/-- A numeral at the start of the text; none if it is ill-formed. An
integer other than zero does not begin with a zero. -/
def written? (s : List Char) : Option (Written × List Char) :=
  let based? : Option Nat := match s with
    | '0' :: c :: _ =>
      if c == 'x' || c == 'X' then some 16
      else if c == 'o' || c == 'O' then some 8
      else if c == 'b' || c == 'B' then some 2
      else none
    | _ => none
  match based? with
  | some base => do
    let digits := s.drop 2
    let first := match digits with
      | '_' :: r => r
      | r => r
    let (v, rest) ← basedDigits? base 0 true first
    return (.whole v, rest)
  | none =>
    let (before, rest) := digitsFrom false s
    let (point, behind, rest) := match rest with
      | '.' :: r => let (ds, r) := digitsFrom false r; (true, ds, r)
      | r => (false, [], r)
    let (e, rest) := exponent? rest
    if point || e.isSome then some (.decimal before behind point e, rest)
    else if before.length > 1 && before.head? == some 0 && before.any (· != 0) then
      -- Leading zeros are allowed before the letter of the imaginary unit.
      match rest with
      | 'j' :: _ | 'J' :: _ => some (.whole (Numeral.ofDigits before), rest)
      | _ => none
    else some (.whole (Numeral.ofDigits before), rest)

/-- The number that a numeral stands for. -/
def Written.value : Written → Num
  | .whole n => .exact n
  | .decimal before behind point e =>
    let digits := before ++ behind
    let significant := digits.dropWhile (· == 0)
    let power : Int := e.getD 0 - behind.length
    let n := Numeral.ofDigits digits
    let value : Rat := if 0 ≤ power then ((n * tenPow power.toNat : Nat) : Rat)
      else mkRat n (tenPow (-power).toNat)
    let shown := if !point && value.den == 1 then
      max significant.length (toString value.num.natAbs).length else significant.length
    let bits := bitsOfDigits (max 15 shown)
    .rounded (roundBits value bits) bits

/-- The fraction whose places end in digits that repeat. -/
def repeating (before behind cycle : List Nat) : Num :=
  let zeros := tenPow behind.length
  .exact ((Numeral.ofDigits before : Rat) + mkRat (Numeral.ofDigits behind) zeros
    + mkRat (Numeral.ofDigits cycle) ((tenPow cycle.length - 1) * zeros))

/-- Digits in square brackets. -/
def cycle? : List Char → Option (List Nat × List Char)
  | '[' :: rest =>
    let blank (c : Char) : Bool := c == ' ' || c == '\t'
    match digitsFrom false (rest.dropWhile blank) with
    | ([], _) => none
    | (d :: ds, r) =>
      match r.dropWhile blank with
      | ']' :: r => if d == 0 then none else some (d :: ds, r)
      | _ => none
  | _ => none

/-- The numeral at the start of the text as a lexeme. -/
def numeral? (s : List Char) : Option (Lexeme × List Char) := do
  let (w, rest) ← written? s
  let clean (r : List Char) : Bool := !((r.head?.map isWordChar).getD false)
  match rest with
  | 'j' :: r | 'J' :: r => if clean r then some (.imaginary w.value, r) else none
  | rest =>
    if !clean rest then none
    else
      match w with
      | .decimal before behind true none =>
        match cycle? (rest.dropWhile fun c => c == ' ' || c == '\t') with
        | some (ds, r) => some (.number (repeating before behind ds), r)
        | none => some (.number w.value, rest)
      | w => some (.number w.value, rest)

/-! ## Texts -/

/-- The body of a text up to the closing quote, in which a backslash takes
the next character along. -/
def quotedBody (quote : Char) : List Char → Option (List Char × List Char)
  | [] => none
  | '\\' :: c :: rest =>
    (quotedBody quote rest).map fun (b, r) => ('\\' :: c :: b, r)
  | c :: rest =>
    if c == quote then some ([], rest)
    else if c == '\n' then none
    else (quotedBody quote rest).map fun (b, r) => (c :: b, r)

/-- The body up to three closing quotes. -/
def longBody (quote : Char) : List Char → Option (List Char × List Char)
  | [] => none
  | '\\' :: c :: rest => (longBody quote rest).map fun (b, r) => ('\\' :: c :: b, r)
  | c :: rest =>
    if c == quote && rest.take 2 == [quote, quote] then some ([], rest.drop 2)
    else (longBody quote rest).map fun (b, r) => (c :: b, r)

/-- A text that begins with this quote, which has been read. -/
def text? (quote : Char) (s : List Char) : Option (Lexeme × List Char) :=
  let body := if s.take 2 == [quote, quote] then longBody quote (s.drop 2) else quotedBody quote s
  body.map fun (b, r) => (.text (String.ofList b), r)

/-! ## Scanning -/

/-- The operators, longer ones first. -/
def operators : List String :=
  ["**=", "//=", "<<=", ">>=", "...", "**", "//", "<<", ">>", "<=", ">=", "==", "!=", "->", ":=",
   "+=", "-=", "*=", "/=", "%=", "&=", "|=", "^=", "@=", "<>", "+", "-", "*", "/", "%", "@", "&",
   "|", "^", "~", "<", ">", "(", ")", "[", "]", "\x7b", "\x7d", ",", ":", ".", ";", "=", "!"]

/-- The operator at the start of the text. A circumflex is a power. -/
def operator? (s : List Char) : Option (Lexeme × List Char) :=
  (operators.find? fun o => o.toList.isPrefixOf s).map fun o =>
    (.op (if o == "^" then "**" else o), s.drop o.length)

/-- Letters that may stand before the quote of a text. -/
def isTextMark (s : List Char) : Bool :=
  ["r", "u", "b", "br", "rb", "f", "fr", "rf"].contains (lowerName (String.ofList s))

/-- One lexeme. -/
def next? (c : Char) (rest : List Char) : Option (Lexeme × List Char) :=
  if c.isDigit || (c == '.' && (rest.head?.map Char.isDigit).getD false) then numeral? (c :: rest)
  else if isWordLetter c then
    let word := c :: rest.takeWhile isWordChar
    let after := rest.dropWhile isWordChar
    match after with
    | q :: body =>
      if (q == '\'' || q == '"') && isTextMark word then text? q body
      else some (.name (String.ofList word), after)
    | [] => some (.name (String.ofList word), [])
  else if c == '\'' || c == '"' then text? c rest
  else operator? (c :: rest)

def isOpening (s : String) : Bool := s == "(" || s == "[" || s == "\x7b"

def isClosing (s : String) : Bool := s == ")" || s == "]" || s == "\x7d"

/-- How deep brackets may nest. -/
def maxNesting : Nat := 200

/-- The bracket depth behind a lexeme; none if it is too deep. -/
def nesting? (depth : Nat) : Lexeme → Option Nat
  | op s =>
    if isOpening s then (if depth + 1 < maxNesting then some (depth + 1) else none)
    else some (if isClosing s then depth - 1 else depth)
  | _ => some depth

/-- Reads lexemes; every one takes a character at least, so that the
length of the text is fuel enough. -/
def scan? : Nat → Nat → List Char → Option (List Lexeme)
  | _, _, [] => some []
  | 0, _, _ => none
  | fuel + 1, depth, c :: rest =>
    if c == ' ' || c == '\t' || c == '\x0c' then scan? fuel depth rest
    else if c == '#' then scan? fuel depth (rest.dropWhile (· != '\n'))
    else if c == '\n' || c == '\r' then (if depth == 0 then none else scan? fuel depth rest)
    else if c == '\\' then
      match rest with
      | '\n' :: rest => scan? fuel depth rest
      | _ => none
    else do
      let (l, rest) ← next? c rest
      let depth ← nesting? depth l
      let ls ← scan? fuel depth rest
      return l :: ls

/-! ## Factorials -/

/-- Where the last lexeme begins that a factorial applies to: splits the
lexemes, last one first, into the operand and what stands before it. -/
def operandFrom (depth : Nat) : List Lexeme → Option (List Lexeme × List Lexeme)
  | [] => none
  | l :: before =>
    let depth := match l with
      | op ")" => depth + 1
      | op "(" => depth - 1
      | _ => depth
    if depth == 0 then some ([l], before)
    else (operandFrom depth before).map fun (a, b) => (l :: a, b)

/-- Puts the last operand into a call of the factorial. `known` tells the
names that have a meaning. The lexemes come last one first. -/
def applyFactorial? (known : String → Bool) (before : List Lexeme) : Option (List Lexeme) := do
  match before with
  | [] | op "(" :: _ => none
  | _ =>
    let (operand, front) ← operandFrom 0 before
    let (operand, front) ← match operand, front with
      | op ")" :: _ :: _, name n :: more =>
        if known n then some (operand ++ [name n], more) else none
      | _, _ => some (operand, front)
    return op ")" :: (operand ++ op "(" :: name "factorial" :: front)

/-- Replaces postfix exclamation marks by calls; two in a row have no
meaning. `done` holds the lexemes so far, the last one first. -/
def expandFactorials? (known : String → Bool) (done : List Lexeme) : List Lexeme → Option (List Lexeme)
  | [] => some done.reverse
  | op "!" :: op "!" :: _ => none
  | op "!" :: rest => do
    let done ← applyFactorial? known done
    expandFactorials? known done rest
  | l :: rest => expandFactorials? known (l :: done) rest

/-- The lexemes of the text of an expression. -/
def ofText? (known : String → Bool) (s : List Char) : Option (List Lexeme) := do
  let ls ← scan? (s.length + 1) 0 s
  expandFactorials? known [] ls

end Lexeme
end FieldScript
