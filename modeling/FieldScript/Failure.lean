import FieldScript.Decimal.Format

/-!
# Failures

Everything that can go wrong, as causes; the wording of each cause is in
one function beside it. A fault in a statement carries the line on which
the statement starts (`Failure.statement`), a fault in an expression
carries the text of the expression.
-/

namespace FieldScript

/-- What is wrong with a statement, or with the statements of a program
taken together. -/
inductive StatementFault where
  | unknownStatement (text : String)
  | expected (wanted : String) (got : Option String)
  | expectedWord (words : List String) (got : Option String)
  | trailing (token : String)
  | unknownAxis (name : String)
  | missingTo
  | invalidNumber (literal context : String)
  | emptyRange
  | invalidColorMap (name : String) (valid : List String)
  | invalidCount
  | countTooLarge (limit : Nat)
  | noLevels
  | labelForm
  | labelPosition
  | duplicateParameter (parameter name : String)
  | constantName
  | emptyConstant
  | functionName (name : String)
  | emptyBody
  | vectorBrackets
  | vectorComponents (count : Nat)
  | vectorNested
  | tensorBrackets
  | tensorShape
  | unbalanced (name : String)
  | emptyPlot
  | vectorName (name : String)
  | gridSize (limit : Nat)
  | tensorName (name : String)
  | unknownGlyph (glyph : String) (valid : List String)
  | animateForm
  | animateEmpty
  | repeated (what : String)
  | alreadyDefined (name : String)
  | circular (cycle : List String)
  | undefinedField (kind name : String)
  | nothingToRender
  | notConstant (text : String)
  | notFinite (text : String)
  | stepSign
  deriving Repr, DecidableEq

/-- The chain of a circular definition. -/
def cycleText (cycle : List String) : String :=
  "Circular definition: " ++ " -> ".intercalate cycle

namespace StatementFault

private def quoted (s : String) : String := "'" ++ s ++ "'"

def message : StatementFault → String
  | unknownStatement t => "Unknown or invalid statement: \"" ++ t ++ "\""
  | expected w (some g) => "Expected " ++ w ++ " but got " ++ quoted g
  | expected w none => "Expected " ++ w ++ " but reached end of statement"
  | expectedWord ws (some g) => "Expected " ++ " or ".intercalate ws ++ " but got " ++ quoted g
  | expectedWord ws none => "Expected " ++ " or ".intercalate ws ++ " but got end of statement"
  | trailing t => "Unexpected " ++ quoted t ++ " after statement"
  | unknownAxis n => "Unknown axis " ++ quoted n ++ " in RANGE statement."
  | missingTo => "Expected TO in RANGE statement."
  | invalidNumber l c => "Invalid number " ++ quoted l ++ " in " ++ c ++ " statement."
  | emptyRange => "Min value must be less than max value in RANGE statement."
  | invalidColorMap n valid =>
    "Invalid color map \"" ++ n ++ "\". Valid maps are: " ++ ", ".intercalate valid
  | invalidCount => "Invalid particle count. Must be a positive integer."
  | countTooLarge m => "Particle count exceeds the maximum limit of " ++ toString m ++ "."
  | noLevels => "No valid numbers found in CONTOUR LEVELS statement."
  | labelForm => "LABEL statement must have the form LABEL <text> AT <x>, <y>, <z>."
  | labelPosition => "LABEL position must have exactly 3 comma-separated expressions."
  | duplicateParameter p n =>
    "Duplicate parameter " ++ quoted p ++ " in definition of " ++ quoted n ++ "."
  | constantName => "Constant definition name must start with FN, VEC_, or TENSOR_."
  | emptyConstant => "Constant definition cannot be empty."
  | functionName n => "Function name " ++ quoted n ++ " must start with FN, VEC_, or TENSOR_."
  | emptyBody => "Function body cannot be empty."
  | vectorBrackets => "Vector function body must be enclosed in square brackets []."
  | vectorComponents n =>
    "Vector function body must have exactly 3 components, got " ++ toString n ++ "."
  | vectorNested => "Vector function components must be scalar expressions."
  | tensorBrackets =>
    "Tensor function body must be a matrix enclosed in double square brackets [[]]."
  | tensorShape => "Tensor function body must be a 2x2 matrix [[a, b], [c, d]]."
  | unbalanced n => "Unbalanced brackets in definition of " ++ quoted n ++ "."
  | emptyPlot => "PLOT3D expression cannot be empty."
  | vectorName n => "PLOT_VECFIELD expects a VEC_ function, got " ++ quoted n ++ "."
  | gridSize m => "Vector field grid size must be an integer between 2 and " ++ toString m ++ "."
  | tensorName n => "PLOT_TENSOR expects a TENSOR_ function, got " ++ quoted n ++ "."
  | unknownGlyph g valid =>
    "Unknown glyph kind " ++ quoted g ++ ". Valid kinds are: " ++ ", ".intercalate valid
  | animateForm =>
    "ANIMATE statement must have the form ANIMATE <param> FROM <a> TO <b> STEP <s>."
  | animateEmpty => "ANIMATE bounds and step cannot be empty."
  | repeated w => "Multiple " ++ w ++ " statements found. Only one is allowed."
  | alreadyDefined n => "Constant or function " ++ quoted n ++ " is already defined."
  | circular c => cycleText c
  | undefinedField k n => k ++ " function " ++ quoted n ++ " is not defined."
  | nothingToRender =>
    "No PLOT3D, PLOT_VECFIELD, or PLOT_TENSOR statement found. Nothing to render."
  | notConstant t => "Invalid number in ANIMATE statement: " ++ quoted t ++ " is not a constant."
  | notFinite t => "Invalid number in ANIMATE statement: " ++ quoted t ++ " is not finite."
  | stepSign => "STEP value must be positive."

end StatementFault

/-- Why an expression has no value. -/
inductive ExpressionFault where
  | malformed (text : String)
  | notScalar (text : String)
  | withoutArguments (text : String)
  | undefinedFunctions (names : List String) (text : String)
  | undefinedVariable (name text : String)
  | notDefined (name : String)
  | wrongKind (name kind : String) (expected : List String)
  | notBound (name : String) (reason : String)
  deriving Repr, DecidableEq

namespace ExpressionFault

private def quotedText (s : String) : String := "'" ++ s ++ "'"

def message : ExpressionFault → String
  | malformed t => "Malformed expression " ++ quotedText t
  | notScalar t => quotedText t ++ " is not a scalar expression"
  | withoutArguments t => "Function used without arguments in " ++ quotedText t
  | undefinedFunctions ns t => "Undefined function " ++ ", ".intercalate ns ++ " in " ++ quotedText t
  | undefinedVariable n t => "Undefined variable " ++ quotedText n ++ " in " ++ quotedText t
  | notDefined n => "Function " ++ quotedText n ++ " is not defined"
  | wrongKind n k ex =>
    quotedText n ++ " is a " ++ k ++ " definition, expected " ++ " or ".intercalate ex
  | notBound n r => "Function " ++ quotedText n ++ " is not bound: " ++ r

end ExpressionFault

/-- The ways an operation can fail. -/
inductive Failure where
  /-- A statement is wrong. `text` is its logical line, and missing for a
  fault between statements. -/
  | statement (line : Nat) (fault : StatementFault) (text : Option String)
  | circular (cycle : List String)
  | expression (fault : ExpressionFault)
  /-- A range must have a lower bound below its upper bound. -/
  | emptyRange (low high : Float)
  | unknownStrategy (name : String) (valid : List String)
  | unknownExample (name : String) (valid : List String)
  | nothingCompiled
  | argumentCount (text : String) (expected got : Nat)
  /-- A text or a count that is no number of the wanted kind. -/
  | invalidValue
  /-- Arrays whose shapes do not go together, or a reduction of nothing. -/
  | shapeMismatch
  /-- An operation was applied to something it has no meaning for. -/
  | notApplicable
  /-- The expression contains a pole. -/
  | pole
  /-- A name that was never bound was asked for. -/
  | missing
  /-- A parameter stands twice in a definition. -/
  | repeatedParameter
  /-- An input stands twice in a callable. -/
  | repeatedInput
  /-- The definitions of a program could not be bound, so that nothing can
  be evaluated. -/
  | noEvaluator
  /-- A function stands where a number is needed. -/
  | unresolvedName
  | outOfBounds
  | tooLarge
  | divisionByZero
  deriving Repr

namespace Failure

/-- Wording of the failures that have one. -/
def message? : Failure → Option String
  | statement line fault _ => some ("Line " ++ toString line ++ ": " ++ fault.message)
  | circular c => some (cycleText c)
  | expression f => some f.message
  | emptyRange a b =>
    some ("Range requires min < max, got " ++ shortestText a ++ " >= " ++ shortestText b)
  | unknownStrategy n valid =>
    some ("Unknown seed strategy '" ++ n ++ "'. Valid strategies are: " ++ ", ".intercalate valid)
  | unknownExample n valid =>
    some ("Unknown example: " ++ n ++ ". Choose from ["
      ++ ", ".intercalate (valid.map fun v => "'" ++ v ++ "'") ++ "]")
  | nothingCompiled => some "No compiled program. Call compile_dsl() first."
  | argumentCount t e g =>
    some ("'" ++ t ++ "' expects " ++ toString e ++ " arguments, got " ++ toString g)
  | _ => none

/-- Failures that concern a single evaluation: the expression has no
value for these arguments, while other arguments may do. -/
def isEvaluation : Failure → Bool
  | expression _ | argumentCount .. | invalidValue | shapeMismatch | notApplicable
  | repeatedParameter
  | emptyRange .. | circular _ | unknownStrategy .. | unknownExample .. => true
  | _ => false

/-- A text for every failure. -/
def describe (f : Failure) : String :=
  f.message?.getD <|
    match f with
    | tooLarge => "int too large to convert to float"
    | divisionByZero => "float division by zero"
    | shapeMismatch => "operands could not be broadcast together"
    | _ => "not applicable"

/-- Failures of arithmetic. -/
def isArithmetic : Failure → Bool
  | tooLarge | divisionByZero => true
  | _ => false

end Failure

end FieldScript
