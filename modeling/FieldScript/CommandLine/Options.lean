import FieldScript.Decimal.Numeral
import FieldScript.Example
import FieldScript.Point

/-!
# Command line options

An option may be shortened as long as no other one begins in the same
way, and its value may follow after an equals sign. What looks like a
negative number is a value, every other word with a leading hyphen an
option. Words that belong to no option are not allowed.
-/

namespace FieldScript.CommandLine

/-- What a command line asks for. -/
structure Options where
  exampleName : Option String := none
  file : Option String := none
  time : Option Float := none
  steps : Int := 0
  seed : Option Int := none
  streamlines : Bool := false
  contours : Bool := false
  lyapunov : Option Int := none
  mesh : Option Int := none
  geodesic : Option (Point2 Float × Point2 Float) := none
  exportFile : Option String := none

/-- Why there is nothing to do. -/
inductive Refusal where
  | usage
  | help
  deriving Repr, DecidableEq

inductive Key where
  | help
  | exampleName
  | file
  | time
  | steps
  | seed
  | streamlines
  | contours
  | lyapunov
  | mesh
  | geodesic
  | exportFile
  deriving Repr, DecidableEq

namespace Key

/-- The options as they are written. -/
def spellings : List (String × Key) :=
  [("-h", help), ("--help", help), ("--example", exampleName), ("--file", file), ("--time", time),
   ("--steps", steps), ("--seed", seed), ("--streamlines", streamlines), ("--contours", contours),
   ("--lyapunov", lyapunov), ("--mesh", mesh), ("--geodesic", geodesic), ("--export", exportFile)]

def ofSpelling? (s : String) : Option Key := spellings.lookup s

/-- The options that begin with a text. -/
def beginningWith (s : String) : List Key :=
  spellings.filterMap fun (t, k) => if s.toList.isPrefixOf t.toList then some k else none

end Key

/-- A word of the command line. -/
inductive Word where
  | option (key : Key) (attached : Option String)
  | value (text : String)
  /-- A word that belongs to no option. -/
  | stray
  deriving Repr

namespace Word

/-- Whether the characters are a number without sign, in plain digits. -/
def isPlainNumber (s : List Char) : Bool :=
  let rest := s.dropWhile isDecimalDigit
  match rest with
  | [] => !s.isEmpty
  | '.' :: places => !places.isEmpty && places.all isDecimalDigit
  | _ => false

/-- Cuts a word at its first equals sign. -/
def cutAtEquals (s : List Char) : List Char × Option String :=
  match s.dropWhile (· != '=') with
  | [] => (s, none)
  | _ :: rest => (s.takeWhile (· != '='), some (String.ofList rest))

/-- A word with two leading hyphens that is no option as it stands. -/
def ofLong (s : List Char) : Except Refusal (Option Word) :=
  let (head, attached) := cutAtEquals s
  let name := String.ofList head
  match Key.ofSpelling? name, attached with
  | some k, some v => .ok (some (.option k (some v)))
  | _, _ =>
    match Key.beginningWith name with
    | [] => .ok none
    | [k] => .ok (some (.option k attached))
    | _ => .error .usage

/-- A word that begins with the short form of an option. -/
def ofShort (rest : List Char) : Word :=
  if rest.all (· == 'h') then .option .help none
  else .option .help (some (String.ofList rest))

/-- What a word is on its own. -/
def ofText (text : String) : Except Refusal Word :=
  match text.toList with
  | '-' :: '-' :: [] => .ok .stray
  | '-' :: c :: rest =>
    match Key.ofSpelling? text with
    | some k => .ok (.option k none)
    | none =>
      let found : Except Refusal (Option Word) :=
        if c == '-' then ofLong ('-' :: c :: rest)
        else if c == 'h' then .ok (some (ofShort rest))
        else .ok none
      found.map fun w => w.getD <|
        if isPlainNumber (c :: rest) || rest.contains ' ' || c == ' ' then .value text else .stray
  | _ => .ok (.value text)

/-- The words of a command line; after two hyphens there are no options. -/
def ofTexts : List String → Except Refusal (List Word)
  | [] => .ok []
  | "--" :: rest => .ok (.stray :: rest.map .value)
  | t :: rest => do return (← ofText t) :: (← ofTexts rest)

end Word

namespace Options

/-- Two numbers with a comma between them. -/
def readPoint? (text : String) : Option (Point2 Float) :=
  match text.splitOn "," with
  | [a, b] => do return ⟨← readFloat? a, ← readFloat? b⟩
  | _ => none

/-- A value, or a refusal if there is none. -/
def orUsage {β : Type} : Option β → Except Refusal β
  | some x => .ok x
  | none => .error .usage

/-- Sets an option that takes one value. -/
def setValue (o : Options) (k : Key) (v : String) : Except Refusal Options := do
  match k with
  | .exampleName =>
    if Example.names.contains v then return { o with exampleName := some v } else throw .usage
  | .file => return { o with file := some v }
  | .exportFile => return { o with exportFile := some v }
  | .time => return { o with time := some (← orUsage (readFloat? v)) }
  | .steps => return { o with steps := ← orUsage (readInteger? v) }
  | .seed => return { o with seed := some (← orUsage (readInteger? v)) }
  | .lyapunov => return { o with lyapunov := some (← orUsage (readInteger? v)) }
  | .mesh => return { o with mesh := some (← orUsage (readInteger? v)) }
  | .help | .streamlines | .contours | .geodesic => throw .usage

/-- Sets an option that stands without a value, if it may. -/
def setBare (o : Options) : Key → Except Refusal Options
  | .help => .error .help
  | .streamlines => .ok { o with streamlines := true }
  | .contours => .ok { o with contours := true }
  | .lyapunov => .ok { o with lyapunov := some 24 }
  | .mesh => .ok { o with mesh := some 60 }
  | _ => .error .usage

/-- Whether an option takes the next word as its value. -/
def takesValue : Key → Bool
  | .help | .streamlines | .contours => false
  | _ => true

/-- Reads the words one after the other; `strays` counts those that belong
to no option. -/
def ofWords (o : Options) (strays : Nat) : List Word → Except Refusal Options
  | [] => if strays == 0 then .ok o else .error .usage
  | .option .geodesic none :: .value a :: .value b :: rest => do
    let p ← orUsage (readPoint? a)
    let q ← orUsage (readPoint? b)
    ofWords { o with geodesic := some (p, q) } strays rest
  | .option k (some v) :: rest => do ofWords (← o.setValue k v) strays rest
  | .option k none :: .value v :: rest => do
    if takesValue k then ofWords (← o.setValue k v) strays rest
    else ofWords (← o.setBare k) (strays + 1) rest
  | .option k none :: rest => do ofWords (← o.setBare k) strays rest
  | .value _ :: rest => ofWords o (strays + 1) rest
  | .stray :: rest => ofWords o (strays + 1) rest

/-- The options of a command line. -/
def ofTexts (texts : List String) : Except Refusal Options := do
  ofWords {} 0 (← Word.ofTexts texts)

end Options
end FieldScript.CommandLine
