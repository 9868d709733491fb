import FieldScript.CommandLine.Report

/-!
# The program

Reads the command line and the file that it names, prints the report and
writes the export. All decisions are made by `CommandLine.run`.
-/

namespace FieldScript

/-- What is printed when help is asked for. -/
def helpText : String :=
  "usage: g3d [-h] [--example NAME] [--file FILE] [--time T] [--steps N] [--seed N]\n"
    ++ "           [--streamlines] [--contours] [--lyapunov [N]] [--mesh [STEPS]]\n"
    ++ "           [--geodesic X,Y X,Y] [--export FILE]\n"

/-- Numbers between zero and one that follow from a seed. -/
def randomNumbers (seed : Nat) : RandomSource Float :=
  let next (g : StdGen × List Float) : StdGen × List Float :=
    let (n, gen) := randNat g.1 0 (twoPow 53 - 1)
    (gen, Float.ofNat n / Float.ofNat (twoPow 53) :: g.2)
  .ofList ((List.range 4096).foldl (fun g _ => next g) (mkStdGen seed, [])).2

end FieldScript

open FieldScript in
def main (args : List String) : IO UInt32 := do
  let name := match CommandLine.Options.ofTexts args with
    | .ok o => o.file
    | .error _ => none
  let text ← match name with
    | none => pure none
    | some n => try pure (some (← IO.FS.readFile n)) catch _ => pure none
  let chance ← IO.rand 0 (twoPow 31)
  let random (seed : Option Int) : RandomSource Float :=
    randomNumbers ((seed.map Int.natAbs).getD chance)
  match CommandLine.run args (fun _ => text) random helpText with
  | .error f =>
    IO.eprintln f.describe
    return 1
  | .ok o =>
    for w in o.warnings do IO.eprintln w
    IO.print o.output
    if let some (file, value) := o.exported then IO.FS.writeFile file (value.render ++ "\n")
    return o.code.toUInt32
