import FieldScript.Expr.Lexeme

/-!
# Terms

The structure of the text of an expression, before any name has a
meaning. From loose to tight: a choice `a if c else b`, `or`, `and`,
`not`, comparisons (which may be chained), `|`, `&`, shifts, sums,
products, signs, powers (to the right), calls and indices.

`Term.ofLexemes?` gives the term that all of the lexemes make up. Each
parser takes fuel; one that reads a lexeme goes through a fixed number of
levels, so that fuel in proportion to the lexemes is enough.
-/

namespace FieldScript

inductive UnaryOp where
  | plus | minus | complement | negation
  deriving DecidableEq, Repr

inductive BinaryOp where
  | add | sub | mul | div | floorDiv | mod | pow | shiftLeft | shiftRight | meet | join
  deriving DecidableEq, Repr

inductive CompareOp where
  | less | lessEq | greater | greaterEq | equal | notEqual
  deriving DecidableEq, Repr

inductive Term where
  | number (n : Num)
  | imaginary (n : Num)
  /-- A name; `called` says that arguments follow it at once. -/
  | name (s : String) (called : Bool)
  | text (s : String)
  | group (items : List Term)
  /-- A set or a table in braces. -/
  | braces (items : List Term)
  | unary (op : UnaryOp) (a : Term)
  | binary (op : BinaryOp) (a b : Term)
  | compare (first : Term) (ops : List CompareOp) (rest : List Term)
  | both (a b : Term)
  | either (a b : Term)
  | choose (cond a b : Term)
  | call (f : Term) (args : List Term)
  | index (a i : Term)
  deriving Repr

namespace Term

/-- Names that are no operands. -/
def reserved : List String :=
  ["and", "as", "assert", "async", "await", "break", "class", "continue", "def", "del", "elif",
   "else", "except", "finally", "for", "from", "global", "if", "import", "in", "is", "lambda",
   "nonlocal", "not", "or", "pass", "raise", "return", "try", "while", "with", "yield"]

/-- How tightly an expression is read: the levels of the grammar. -/
inductive Level where
  | choice | either | both | negation | comparison | join | meet | shift | sum | product | sign
  | power | operand
  deriving DecidableEq, Repr

namespace Level

def tighter : Level → Level
  | choice => either | either => both | both => negation | negation => comparison
  | comparison => join | join => meet | meet => shift | shift => sum | sum => product
  | product => sign | sign => power | power => operand | operand => operand

/-- The binary operators that associate to the left, by level. -/
def operator? : Level → String → Option BinaryOp
  | join, "|" => some .join
  | meet, "&" => some .meet
  | shift, "<<" => some .shiftLeft
  | shift, ">>" => some .shiftRight
  | sum, "+" => some .add
  | sum, "-" => some .sub
  | product, "*" => some .mul
  | product, "/" => some .div
  | product, "//" => some .floorDiv
  | product, "%" => some .mod
  | _, _ => none

def isLeftAssociative : Level → Bool
  | join | meet | shift | sum | product => true
  | _ => false

end Level

def comparison? : String → Option CompareOp
  | "<" => some .less
  | "<=" => some .lessEq
  | ">" => some .greater
  | ">=" => some .greaterEq
  | "==" => some .equal
  | "!=" => some .notEqual
  | _ => none

def sign? : String → Option UnaryOp
  | "+" => some .plus
  | "-" => some .minus
  | "~" => some .complement
  | _ => none

mutual

/-- An expression of the given level. -/
def expr? (fuel : Nat) (level : Level) (ls : List Lexeme) : Option (Term × List Lexeme) :=
  match fuel with
  | 0 => none
  | fuel + 1 =>
    match level with
    | .choice => do
      let (a, rest) ← expr? fuel .either ls
      match rest with
      | .name "if" :: rest =>
        let (c, rest) ← expr? fuel .either rest
        match rest with
        | .name "else" :: rest =>
          let (b, rest) ← expr? fuel .choice rest
          return (.choose c a b, rest)
        | _ => none
      | _ => return (a, rest)
    | .either => do
      let (a, rest) ← expr? fuel .both ls
      match rest with
      | .name "or" :: rest =>
        let (b, rest) ← expr? fuel .either rest
        return (.either a b, rest)
      | _ => return (a, rest)
    | .both => do
      let (a, rest) ← expr? fuel .negation ls
      match rest with
      | .name "and" :: rest =>
        let (b, rest) ← expr? fuel .both rest
        return (.both a b, rest)
      | _ => return (a, rest)
    | .negation =>
      match ls with
      | .name "not" :: rest => do
        let (a, rest) ← expr? fuel .negation rest
        return (.unary .negation a, rest)
      | _ => expr? fuel .comparison ls
    | .comparison => do
      let (a, rest) ← expr? fuel .join ls
      let (ops, more, rest) ← comparisons? fuel rest
      return (if ops.isEmpty then a else .compare a ops more, rest)
    | .sign =>
      match ls with
      | .op s :: rest =>
        match sign? s with
        | some op => do
          let (a, rest) ← expr? fuel .sign rest
          return (.unary op a, rest)
        | none => expr? fuel .power ls
      | _ => expr? fuel .power ls
    | .power => do
      let (a, rest) ← expr? fuel .operand ls
      match rest with
      | .op "**" :: rest =>
        let (b, rest) ← expr? fuel .sign rest
        return (.binary .pow a b, rest)
      | _ => return (a, rest)
    | .operand => do
      let (a, rest) ← atom? fuel ls
      trailers? fuel a rest
    | level => do
      let (a, rest) ← expr? fuel level.tighter ls
      chain? fuel level a rest

/-- Further operands of a level, joined to the left. -/
def chain? (fuel : Nat) (level : Level) (a : Term) (ls : List Lexeme) :
    Option (Term × List Lexeme) :=
  match fuel with
  | 0 => none
  | fuel + 1 =>
    match ls with
    | .op s :: rest =>
      match level.operator? s with
      | some op => do
        let (b, rest) ← expr? fuel level.tighter rest
        chain? fuel level (.binary op a b) rest
      | none => some (a, ls)
    | _ => some (a, ls)

/-- The links of a chained comparison. -/
def comparisons? (fuel : Nat) (ls : List Lexeme) :
    Option (List CompareOp × List Term × List Lexeme) :=
  match fuel with
  | 0 => none
  | fuel + 1 =>
    match ls with
    | .op s :: rest =>
      match comparison? s with
      | some op => do
        let (b, rest) ← expr? fuel .join rest
        let (ops, more, rest) ← comparisons? fuel rest
        return (op :: ops, b :: more, rest)
      | none => some ([], [], ls)
    | _ => some ([], [], ls)

/-- Calls and indices behind an operand. -/
def trailers? (fuel : Nat) (a : Term) (ls : List Lexeme) : Option (Term × List Lexeme) :=
  match fuel with
  | 0 => none
  | fuel + 1 =>
    match ls with
    | .op "(" :: rest => do
      let (args, _, rest) ← items? fuel ")" rest
      trailers? fuel (.call a args) rest
    | .op "[" :: rest => do
      let (items, comma, rest) ← items? fuel "]" rest
      match items, comma with
      | [], _ => none
      | [i], false => trailers? fuel (.index a i) rest
      | is, _ => trailers? fuel (.index a (.group is)) rest
    | _ => some (a, ls)

/-- Expressions between commas up to a closing bracket; the flag says
whether there was a comma. A comma may end the list. -/
def items? (fuel : Nat) (close : String) (ls : List Lexeme) :
    Option (List Term × Bool × List Lexeme) :=
  match fuel with
  | 0 => none
  | fuel + 1 =>
    match ls with
    | .op s :: rest' =>
      if s == close then some ([], false, rest') else itemsFrom? fuel close ls
    | _ => itemsFrom? fuel close ls

/-- One expression at least. -/
def itemsFrom? (fuel : Nat) (close : String) (ls : List Lexeme) :
    Option (List Term × Bool × List Lexeme) :=
  match fuel with
  | 0 => none
  | fuel + 1 => do
    let (a, rest) ← expr? fuel .choice ls
    match rest with
    | .op "," :: rest =>
      let (as, _, rest) ← items? fuel close rest
      return (a :: as, true, rest)
    | .op s :: rest => if s == close then return ([a], false, rest) else none
    | _ => none

/-- What stands in braces: items, or pairs of items with colons. -/
def braces? (fuel : Nat) (ls : List Lexeme) : Option (List Term × List Lexeme) :=
  match fuel with
  | 0 => none
  | fuel + 1 =>
    match ls with
    | .op "\x7d" :: rest => some ([], rest)
    | _ => do
      let (a, rest) ← expr? fuel .choice ls
      let (as, rest) ← match rest with
        | .op ":" :: rest => do
          let (b, rest) ← expr? fuel .choice rest
          pure ([a, b], rest)
        | rest => pure ([a], rest)
      match rest with
      | .op "," :: rest =>
        let (bs, rest) ← braces? fuel rest
        return (as ++ bs, rest)
      | .op "\x7d" :: rest => return (as, rest)
      | _ => none

def atom? (fuel : Nat) (ls : List Lexeme) : Option (Term × List Lexeme) :=
  match fuel with
  | 0 => none
  | fuel + 1 =>
    match ls with
    | .number n :: rest => some (.number n, rest)
    | .imaginary n :: rest => some (.imaginary n, rest)
    | .text s :: .text t :: rest => atom? fuel (.text (s ++ t) :: rest)
    | .text s :: rest => some (.text s, rest)
    | .name s :: rest =>
      if reserved.contains s then none else some (.name s (rest.head? == some (.op "(")), rest)
    | .op "(" :: rest => do
      let (items, comma, rest) ← items? fuel ")" rest
      match items, comma with
      | [a], false => return (a, rest)
      | as, _ => return (.group as, rest)
    | .op "[" :: rest => do
      let (items, _, rest) ← items? fuel "]" rest
      return (.group items, rest)
    | .op "\x7b" :: rest => do
      let (items, rest) ← braces? fuel rest
      return (.braces items, rest)
    | _ => none

end

/-- Fuel for this many lexemes: an operand is read through all levels. -/
def fuelFor (count : Nat) : Nat := 20 * (count + 2)

/-- The term of all the lexemes; several with commas between them are a
group. -/
def ofLexemes? (ls : List Lexeme) : Option Term := do
  let fuel := fuelFor ls.length
  let (items, comma, rest) ← itemsFrom? fuel ")" (ls ++ [.op ")"])
  match items, comma, rest with
  | [a], false, [] => return a
  | as, true, [] => return .group as
  | _, _, _ => none

end Term
end FieldScript
