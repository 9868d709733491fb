import FieldScript.Expr.Basic

/-!
# Induction over expressions

An expression has no operands, or it is a node. Facts about a node follow
from those about its operands.
-/

namespace FieldScript

/-- The expression is no operation. -/
def Expr.IsLeaf (e : Expr) : Prop := ∀ h as, e ≠ .node h as

/-- An expression is a leaf, or a node whose operands have the property. -/
theorem Expr.nodeInduction {P : Expr → Prop} (leaf : ∀ e, e.IsLeaf → P e)
    (node : ∀ h as, (∀ a ∈ as, P a) → P (.node h as)) (e : Expr) : P e := by
  refine @Expr.rec P (fun as => ∀ a ∈ as, P a) ?_ ?_ ?_ ?_ ?_ ?_ ?_ ?_ ?_
    node (List.forall_mem_nil _) (fun a as ha has => List.forall_mem_cons.mpr ⟨ha, has⟩) e
  all_goals
    intros
    exact leaf _ fun _ _ h => by cases h

end FieldScript
