import FieldScript.Decimal.Format
import FieldScript.Evaluator

/-!
# Labels

The text of a label is a sum of quoted texts and numbers: from the first
text on everything is joined, before it numbers are added up. `STR` and
`TEXT` format one number. A label always has a text and a position: what
cannot be evaluated is shown as it was written, and a coordinate without
a finite value is zero.
-/

namespace FieldScript

structure Label where
  text : String
  position : List String
  deriving Repr, DecidableEq

/-- Two decimal places. -/
def formatFixed (x : Float) : String := fixedText 2 x

/-- Four significant digits; without places there is no point. -/
def formatPrecision (x : Float) : String :=
  let text := significantText 4 x
  if text.contains 'e' then text
  else if text.endsWith "." then String.ofList text.toList.dropLast
  else text

/-- An integer without a point, any other number with the fewest digits
that read back. -/
def formatNumber (x : Float) : String :=
  let r := Binary64.toRat x
  if x.isFinite && r.den == 1 then toString r.num else shortestText x

namespace Label

/-- What a part of a label's text stands for. -/
inductive Piece where
  | text (s : String)
  | number (x : Float)

namespace Piece

def render : Piece → String
  | text s => s
  | number x => formatNumber x

/-- Numbers are added, texts joined. -/
def join : Piece → Piece → Piece
  | number x, number y => number (x + y)
  | a, b => text (a.render ++ b.render)

end Piece

/-- The single number among the samples. -/
def single (s : Samples) : Except Failure Float :=
  if s.data.size == 1 then .ok s.first else .error .notApplicable

def number (ev : Evaluator) (values : Assignment) (text : String) : Except Failure Float := do
  single (← ev.evaluate text values)

/-- The formats that a label can ask for by name. -/
def format? (name : String) : Option (Float → String) :=
  if name == "STR" then some formatFixed
  else if name == "TEXT" then some formatPrecision
  else none

/-- The call of a format: the format and the text of its argument. -/
def formatCall? (line : List Char) (term : List Token) : Option ((Float → String) × String) :=
  match term with
  | head :: opening :: inside :: more =>
    if head.kind == .ident && opening.kind == .lparen && !more.isEmpty
        && (more.getLast?.map Token.kind) == some .rparen then
      (format? (upperName head.value)).map fun f =>
        (f, String.ofList (rawSlice line (inside :: more.dropLast)))
    else none
  | _ => none

/-- One term of a label's text. -/
def piece (ev : Evaluator) (values : Assignment) (line : List Char) (term : List Token) :
    Except Failure Piece :=
  match term with
  | [⟨.string, quoted, _⟩] => .ok (.text (String.ofList (quoted.drop 1).dropLast))
  | term =>
    match formatCall? line term with
    | some (format, source) => do return .text (format (← number ev values source))
    | none => do return .number (← number ev values (String.ofList (rawSlice line term)))

/-- Names that stand for something else in a label's text. -/
def textNames : List String := ["self", "text_expr"]

/-- The text of a label. -/
def renderText (ev : Evaluator) (text : String) (values : Assignment) : Except Failure String := do
  if values.any fun v => textNames.contains v.1 then throw .notApplicable
  let line := text.toList
  let terms := (splitTopLevel (tokenize line) .plus).filter fun t => !t.isEmpty
  let pieces ← terms.mapM (piece ev values line)
  match pieces with
  | [] => return ""
  | p :: ps => return (ps.foldl Piece.join p).render

/-- A coordinate of a label. -/
def coordinate (ev : Evaluator) (values : Assignment) (text : String) : Except Failure Float :=
  match number ev values text with
  | .ok x => .ok (if x.isFinite then x else 0)
  | .error f => if f.isEvaluation then .ok 0 else .error f

/-- Names that stand for something else in a label. -/
def ownNames : List String := ["self", "label"]

/-- Text and position of a label. -/
def evaluate (ev : Evaluator) (l : Label) (values : Assignment) :
    Except Failure (String × List Float) := do
  if values.any fun v => ownNames.contains v.1 then throw .notApplicable
  let text ← match renderText ev l.text values with
    | .ok t => pure t
    | .error f => if f.isEvaluation then pure l.text else throw f
  let position ← l.position.mapM (coordinate ev values)
  return (text, position)

end Label
end FieldScript
