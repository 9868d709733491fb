import FieldScript.Session.Summary

/-!
# Example programs

Programs that come with the library, by name.
-/

namespace FieldScript.Example

/-- An animated potential with four exceptional points. -/
def exceptionalPoints : List String :=
  ["",
   "# Quantum exceptional point dynamics",
   "SET RANGE X -8 TO 8",
   "SET RANGE Y -8 TO 8",
   "SET RANGE Z -4 TO 12",
   "COLOR MAP plasma",
   "",
   "DEF FNPI = 3.1415926535",
   "DEF FNMANIFOLD(x,y) = EXP(-0.3*(x^2 + y^2)) * COS(SQRT(x^2 + y^2))",
   "",
   "# Time-dependent coherence ripples",
   "DEF FNPSI1(x,y,t) = (x^2 - y^2) * EXP(-0.15*(x^2 + y^2)) * SIN(2*FNPI*SQRT(x^2 + y^2)/8 - t)",
   "DEF FNPSI2(x,y,t) = 2*x*y * EXP(-0.15*(x^2 + y^2)) * COS(2*FNPI*SQRT(x^2 + y^2)/8 - t)",
   "",
   "DEF FNEP1_RESIDUE = 2.5",
   "DEF FNEP2_RESIDUE = 3.0",
   "DEF FNEP3_RESIDUE = 2.0",
   "DEF FNEP4_RESIDUE = 2.8",
   "DEF FNEP(x,y) = FNEP1_RESIDUE/((x-3)^2+(y-2)^2+0.3) + FNEP2_RESIDUE/((x+2)^2+(y-4)^2+0.3) + \\",
   "                FNEP3_RESIDUE/((x+4)^2+(y+3)^2+0.3) + FNEP4_RESIDUE/((x-2)^2+(y+4)^2+0.3)",
   "",
   "DEF FNSURFACE(x,y,t) = FNMANIFOLD(x,y) + 0.4*FNPSI1(x,y,t) + 0.4*FNPSI2(x,y,t) + 0.8*FNEP(x,y)",
   "",
   "DEF VEC_FLOW(x, y) = [-y * 0.3, x * 0.3, 0.5 * SIN(x/2)]",
   "DEF TENSOR_SHEAR(x, y) = [[1, 0.5*SIN(y/2)], [0.5*SIN(y/2), 1]]",
   "",
   "LABEL \"EP1\" AT 3, 2, FNSURFACE(3,2,t) + 0.5",
   "LABEL \"EP2\" AT -2, 4, FNSURFACE(-2,4,t) + 0.5",
   "LABEL \"EP3\" AT -4, -3, FNSURFACE(-4,-3,t) + 0.5",
   "LABEL \"EP4\" AT 2, -4, FNSURFACE(2,-4,t) + 0.5",
   "",
   "PARTICLES 500",
   "ANIMATE t FROM 0 TO 6.28 STEP 0.05",
   "",
   "PLOT3D FNSURFACE(x,y,t)",
   "PLOT_VECFIELD VEC_FLOW",
   "PLOT_TENSOR TENSOR_SHEAR AS GLYPH 'ELLIPSOID'"]

/-- A hyperbolic saddle with level sets. -/
def saddle : List String :=
  ["",
   "SET RANGE X -2 TO 2",
   "SET RANGE Y -2 TO 2",
   "COLOR MAP viridis",
   "DEF FNSADDLE(x,y) = x^2 - y^2",
   "PLOT3D FNSADDLE(x,y)",
   "CONTOUR LEVELS -1, -0.5, 0, 0.5, 1",
   "LABEL \"saddle \" + STR(FNSADDLE(0,0)) AT 0, 0, 0.5"]

/-- A potential with two wells, each with a basin of attraction. -/
def doubleWell : List String :=
  ["",
   "SET RANGE X -2 TO 2",
   "SET RANGE Y -1.5 TO 1.5",
   "SET RANGE Z -1 TO 3",
   "COLOR MAP inferno",
   "DEF FNWELL(x,y) = (x^2 - 1)^2 + 0.5*y^2",
   "PLOT3D FNWELL(x,y)",
   "CONTOUR LEVELS 0.1, 0.5, 1",
   "PARTICLES 200"]

/-- A travelling radial wave. -/
def ripple : List String :=
  ["",
   "SET RANGE X -6 TO 6",
   "SET RANGE Y -6 TO 6",
   "COLOR MAP cool",
   "DEF FNR(x,y) = SQRT(x^2 + y^2)",
   "DEF FNWAVE(x,y,p) = SIN(FNR(x,y) - p) * EXP(-0.1*FNR(x,y))",
   "ANIMATE p FROM 0 TO 2*PI STEP PI/16",
   "PLOT3D FNWAVE(x,y,p)",
   "LABEL \"phase = \" + TEXT(p) AT 0, 0, 1.5"]

/-- Vector and tensor fields without an explicit surface. -/
def vortex : List String :=
  ["",
   "SET RANGE X -3 TO 3",
   "SET RANGE Y -3 TO 3",
   "DEF VEC_VORTEX(x,y) = [-y, x, 0]",
   "DEF TENSOR_STRAIN(x,y) = [",
   "  [1 + x^2, x*y],",
   "  [x*y, 1 + y^2]]",
   "PLOT_VECFIELD VEC_VORTEX GRID 12",
   "PLOT_TENSOR TENSOR_STRAIN AS GLYPH 'ELLIPSOID'"]

/-- The examples by name. -/
def all : List (String × List String) :=
  [("exceptional_points", exceptionalPoints),
   ("saddle", saddle),
   ("double_well", doubleWell),
   ("ripple", ripple),
   ("vortex", vortex)]

def names : List String := all.map (·.1)

/-- The text of an example. -/
def source? (name : String) : Option String := (all.lookup name).map Session.unlines

/-- Compiles an example. If wanted, a report tells about it. -/
def run (name : String) (verbose : Bool) : Session.Action (Compilation × String) := do
  match source? name with
  | none => throw (.unknownExample name names)
  | some source =>
    set Session.empty
    match ← Session.compile source with
    | .rejected f =>
      let report := "Compilation failed: " ++ f.describe ++ "\n"
      return (.rejected f, if verbose then report else "")
    | .compiled c =>
      if !verbose then return (.compiled c, "")
      let head := ["", Session.rule, "Successfully compiled: " ++ name,
        "Plots: " ++ ", ".intercalate c.plots, Session.rule, ""]
      return (.compiled c, Session.unlines head ++ (← Session.summary))

end FieldScript.Example
