import FieldScript.Decimal.Numeral
import FieldScript.Failure
import FieldScript.Source
import FieldScript.Token

/-!
# Statements

A logical line is one statement: its first word says which, and
`Statement.parse` hands the tokens to the reader for that word. A reader
keeps the texts of expressions as they are written and checks only what
concerns the statement by itself.
-/

namespace FieldScript

inductive Axis where
  | x | y | z
  deriving DecidableEq, Repr, BEq

def Axis.name : Axis → String
  | .x => "x"
  | .y => "y"
  | .z => "z"

/-- The color maps that a program may name. -/
def colorMapNames : List String :=
  ["viridis", "plasma", "inferno", "magma", "hot", "cool", "default"]

def glyphKinds : List String := ["ELLIPSOID"]

def maxParticles : Nat := 5000

def maxGridSize : Nat := 200

def defaultGridSize : Nat := 15

/-- What a statement says. -/
inductive StatementBody where
  | range (axis : Axis) (low high : Float)
  | colorMap (name : String)
  | particles (count : Nat)
  | contour (levels : List Float)
  | label (text : String) (position : String × String × String)
  | define (name : String) (params : List String) (body : String)
  | surface (expr : String)
  | vectorField (name : String) (gridSize : Nat)
  | tensorField (name : String) (glyph : String)
  | animate (parameter start stop step : String)
  deriving Repr

/-- A statement and the line on which it starts. -/
structure Statement where
  line : Nat
  body : StatementBody
  deriving Repr

namespace Statement

/-- A fault in the statement on this line. -/
def fail {α : Type} (l : LogicalLine) (f : StatementFault) : Except Failure α :=
  .error (.statement l.line f (some (String.ofList l.text)))

/-! ## Reading tokens -/

/-- Reads one token of this kind; `wanted` is its name in the fault. -/
def expect (l : LogicalLine) (kind : Kind) (wanted : String) :
    List Token → Except Failure (Token × List Token)
  | [] => fail l (.expected wanted none)
  | t :: rest => if t.kind == kind then .ok (t, rest) else fail l (.expected wanted (some t.value))

/-- Reads one of these words. -/
def expectWord (l : LogicalLine) (words : List String) : List Token → Except Failure (List Token)
  | [] => fail l (.expectedWord words none)
  | t :: rest => if t.isWord words then .ok rest else fail l (.expectedWord words (some t.value))

def expectEnd (l : LogicalLine) : List Token → Except Failure Unit
  | [] => .ok ()
  | t :: _ => fail l (.trailing t.value)

/-- The finite number that the tokens write together. -/
def number (l : LogicalLine) (context : String) (ts : List Token) : Except Failure Float :=
  let literal := joinedText ts
  match readFloat? literal with
  | some x => if x.isFinite then .ok x else fail l (.invalidNumber literal context)
  | none => fail l (.invalidNumber literal context)

/-- The longest numeral that is read as a whole number. -/
def maxNumeralLength : Nat := 4300

/-- The whole number that the tokens write together; nothing if they are
not all digits. Digits in form only are no numeral. -/
def wholeNumber (ts : List Token) : Except Failure (Option Nat) :=
  let literal := ts.flatMap (·.text)
  if literal.isEmpty || !literal.all isDigitForm then .ok none
  else if literal.length > maxNumeralLength then .error .invalidValue
  else match readNatural? literal with
    | some n => .ok (some n)
    | none => .error .invalidValue

/-- The text of a run of tokens, without outer blanks. -/
def textOf (l : LogicalLine) (ts : List Token) : String :=
  String.ofList (sliceText l.text ts)

/-- The tokens from index `start` up to, and excluding, `stop`. -/
def between (ts : List Token) (start stop : Nat) : List Token :=
  (ts.take stop).drop start

/-! ## One reader per statement -/

/-- `SET RANGE <X|Y|Z> <min> TO <max>` -/
def readRange (l : LogicalLine) (ts : List Token) : Except Failure StatementBody := do
  let rest ← expectWord l ["SET"] ts
  let rest ← expectWord l ["RANGE"] rest
  let (name, _) ← expect l .ident "axis X, Y or Z" rest
  let axis ← match upperName name.value with
    | "X" => pure Axis.x
    | "Y" => pure Axis.y
    | "Z" => pure Axis.z
    | _ => fail l (.unknownAxis name.value)
  match findTopLevel ts "TO" 3 with
  | none => fail l .missingTo
  | some i =>
    let low ← number l "RANGE" (between ts 3 i)
    let high ← number l "RANGE" (ts.drop (i + 1))
    if low ≥ high then fail l .emptyRange
    return .range axis low high

/-- `COLOR MAP <name>` -/
def readColorMap (l : LogicalLine) (ts : List Token) : Except Failure StatementBody := do
  let rest ← expectWord l ["COLOR"] ts
  let rest ← expectWord l ["MAP"] rest
  let (token, rest) ← expect l .ident "color map name" rest
  let name := lowerName token.value
  expectEnd l rest
  if !colorMapNames.contains name then fail l (.invalidColorMap name colorMapNames)
  return .colorMap name

/-- `PARTICLES <count>` -/
def readParticles (l : LogicalLine) (ts : List Token) : Except Failure StatementBody := do
  let rest ← expectWord l ["PARTICLES"] ts
  match ← wholeNumber rest with
  | none => fail l .invalidCount
  | some n =>
    if n == 0 then fail l .invalidCount
    if n > maxParticles then fail l (.countTooLarge maxParticles)
    return .particles n

/-- `CONTOUR LEVELS <n1>, <n2>, ...` -/
def readContour (l : LogicalLine) (ts : List Token) : Except Failure StatementBody := do
  let rest ← expectWord l ["CONTOUR"] ts
  let rest ← expectWord l ["LEVELS"] rest
  let groups := (splitTopLevel rest).filter (!·.isEmpty)
  if groups.isEmpty then fail l .noLevels
  return .contour (← groups.mapM (number l "CONTOUR LEVELS"))

/-- The index of the last such word outside all brackets. -/
def findLastTopLevel (ts : List Token) (word : String) (start : Nat) : Option Nat :=
  (List.range ts.length).foldl
    (fun last i => if start ≤ i && findTopLevel ts word i == some i then some i else last) none

/-- `LABEL <text> AT <x>, <y>, <z>` -/
def readLabel (l : LogicalLine) (ts : List Token) : Except Failure StatementBody := do
  let _ ← expectWord l ["LABEL"] ts
  match findLastTopLevel ts "AT" 1 with
  | none => fail l .labelForm
  | some i =>
    if i == 1 then fail l .labelForm
    match splitTopLevel (ts.drop (i + 1)) with
    | [x, y, z] =>
      if x.isEmpty || y.isEmpty || z.isEmpty then fail l .labelPosition
      return .label (textOf l (between ts 1 i)) (textOf l x, textOf l y, textOf l z)
    | _ => fail l .labelPosition

/-- The names of parameters up to the closing bracket. -/
def readParams (l : LogicalLine) : Nat → List Token → Except Failure (List String × List Token)
  | 0, ts => .ok ([], ts)
  | fuel + 1, ts => do
    let (p, rest) ← expect l .ident "parameter name" ts
    match rest with
    | t :: rest' =>
      if t.kind == .comma then
        let (ps, rest'') ← readParams l fuel rest'
        return (p.value :: ps, rest'')
      else if t.kind == .rparen then return ([p.value], rest')
      else fail l (.expected "')'" (some t.value))
    | [] => fail l (.expected "')'" none)

/-- The parameter list, if one follows. -/
def readParamList (l : LogicalLine) :
    List Token → Except Failure (Option (List String) × List Token)
  | t :: rest =>
    if t.kind == .lparen then
      match rest with
      | u :: rest' =>
        if u.kind == .rparen then .ok (some [], rest')
        else (readParams l rest.length rest).map fun (ps, r) => (some ps, r)
      | [] => (readParams l 1 rest).map fun (ps, r) => (some ps, r)
    else .ok (none, t :: rest)
  | [] => .ok (none, [])

/-- The body of a vector: `[ex, ey, ez]` with scalar components. -/
def checkVectorBody (l : LogicalLine) (ts : List Token) : Except Failure Unit := do
  if !isBracketed ts then fail l .vectorBrackets
  let parts := splitTopLevel (inner ts)
  if parts.length != 3 || parts.any (·.isEmpty) then fail l (.vectorComponents parts.length)
  if parts.any isBracketed then fail l .vectorNested

/-- The body of a tensor: `[[a, b], [c, d]]` with scalar cells. -/
def checkTensorBody (l : LogicalLine) (ts : List Token) : Except Failure Unit := do
  if !(isBracketed ts && ts.length > 2 && (ts[1]?.map (·.kind)) == some .lbracket) then
    fail l .tensorBrackets
  let rows := splitTopLevel (inner ts)
  if rows.length != 2 || !rows.all isBracketed then fail l .tensorShape
  for row in rows do
    let cells := splitTopLevel (inner row)
    if cells.length != 2 || cells.any (·.isEmpty) || cells.any isBracketed then
      fail l .tensorShape

/-- Names of definitions start in one of these ways. -/
def definitionPrefixes : List String := ["FN", "VEC_", "TENSOR_"]

/-- `DEF <name> = <body>` or `DEF <name>(<params>) = <body>` -/
def readDefinition (l : LogicalLine) (ts : List Token) : Except Failure StatementBody := do
  let rest ← expectWord l ["DEF"] ts
  let (token, rest) ← expect l .ident "definition name" rest
  let name := token.value
  let upper := upperName name
  let (params?, rest) ← readParamList l rest
  let params := params?.getD []
  match (params.filter fun p => params.count p > 1).mergeSort (· ≤ ·) with
  | p :: _ => fail l (.duplicateParameter p name)
  | [] => pure ()
  let (_, bodyTokens) ← expect l .equals "'='" rest
  let body := textOf l bodyTokens
  let legal := definitionPrefixes.any fun p => upper.startsWith p
  if params?.isNone then
    if !legal then fail l .constantName
    if body.isEmpty then fail l .emptyConstant
  else
    if !legal then fail l (.functionName name)
    if body.isEmpty then fail l .emptyBody
  if upper.startsWith "VEC_" then checkVectorBody l bodyTokens
  else if upper.startsWith "TENSOR_" then checkTensorBody l bodyTokens
  else if !properlyNested bodyTokens then fail l (.unbalanced name)
  return .define name params body

/-- `PLOT3D <expr>` -/
def readSurface (l : LogicalLine) (ts : List Token) : Except Failure StatementBody := do
  let rest ← expectWord l ["PLOT3D"] ts
  let expr := textOf l rest
  if expr.isEmpty then fail l .emptyPlot
  return .surface expr

/-- `PLOT_VECFIELD <name> [GRID <n>]` -/
def readVectorField (l : LogicalLine) (ts : List Token) : Except Failure StatementBody := do
  let rest ← expectWord l ["PLOT_VECFIELD"] ts
  let (token, rest) ← expect l .ident "vector function name" rest
  let name := token.value
  if !(upperName name).startsWith "VEC_" then fail l (.vectorName name)
  match rest with
  | t :: more =>
    if t.isWord ["GRID"] then
      match ← wholeNumber more with
      | some n =>
        if n < 2 || n > maxGridSize then fail l (.gridSize maxGridSize)
        return .vectorField name n
      | none => fail l (.gridSize maxGridSize)
    else fail l (.trailing t.value)
  | [] => return .vectorField name defaultGridSize

/-- `PLOT_TENSOR <name> AS GLYPH '<glyph>'` -/
def readTensorField (l : LogicalLine) (ts : List Token) : Except Failure StatementBody := do
  let rest ← expectWord l ["PLOT_TENSOR"] ts
  let (token, rest) ← expect l .ident "tensor function name" rest
  let name := token.value
  if !(upperName name).startsWith "TENSOR_" then fail l (.tensorName name)
  let rest ← expectWord l ["AS"] rest
  let rest ← expectWord l ["GLYPH"] rest
  let (quoted, rest) ← expect l .string "quoted glyph kind" rest
  let glyph := String.ofList (upper (trim (quoted.text.drop 1).dropLast))
  expectEnd l rest
  if !glyphKinds.contains glyph then fail l (.unknownGlyph glyph glyphKinds)
  return .tensorField name glyph

/-- `ANIMATE <param> FROM <expr> TO <expr> STEP <expr>` -/
def readAnimation (l : LogicalLine) (ts : List Token) : Except Failure StatementBody := do
  let rest ← expectWord l ["ANIMATE"] ts
  let (parameter, _) ← expect l .ident "animation parameter" rest
  let fromIndex := findTopLevel ts "FROM" 2
  let toIndex := findTopLevel ts "TO" (fromIndex.getD 0 + 1)
  let stepIndex := findTopLevel ts "STEP" (toIndex.getD 0 + 1)
  match fromIndex, toIndex, stepIndex with
  | some 2, some i, some j =>
    let start := textOf l (between ts 3 i)
    let stop := textOf l (between ts (i + 1) j)
    let step := textOf l (ts.drop (j + 1))
    if start.isEmpty || stop.isEmpty || step.isEmpty then fail l .animateEmpty
    return .animate parameter.value start stop step
  | _, _, _ => fail l .animateForm

/-- The reader for the first word of a statement. -/
def reader? (word : String) : Option (LogicalLine → List Token → Except Failure StatementBody) :=
  match word with
  | "SET" => some readRange
  | "COLOR" => some readColorMap
  | "PARTICLES" => some readParticles
  | "CONTOUR" => some readContour
  | "LABEL" => some readLabel
  | "DEF" => some readDefinition
  | "PLOT3D" => some readSurface
  | "PLOT_VECFIELD" => some readVectorField
  | "PLOT_TENSOR" => some readTensorField
  | "ANIMATE" => some readAnimation
  | _ => none

/-- Reads one logical line. -/
def parse (l : LogicalLine) : Except Failure Statement :=
  let ts := tokenize l.text
  let reader := ts.head?.bind fun t => if t.kind == .ident then reader? (upperName t.value) else none
  match reader with
  | some read => (read l ts).map (⟨l.line, ·⟩)
  | none => fail l (.unknownStatement (String.ofList l.text))

end Statement
end FieldScript
