import StackLang.Parse.Expr
import StackLang.Proofs.Tree.Induction

/-!
# Formed trees

What the analyses take for granted about a tree: a unary operator is one of five, counting up or
down applies to a bare name, a counting loop begins with a declaration or an expression, and neither
variables nor parameters are void.

* `Expr.Formed`, `Stmt.Formed`, `Function.Formed` — the trees that are formed like that.
-/

namespace StackLang

namespace Expr

variable {τ : Type}

/-- A unary operator changes a value, or counts a bare name up or down. -/
def Shape.OperandFits : Shape (Expr τ) → Prop
  | .unary op e _ =>
    (op.kind = .operator .not ∨ op.kind = .operator .minus ∨ op.kind = .operator .plus) ∨
      ((op.kind = .operator .increment ∨ op.kind = .operator .decrement) ∧ e.isName = true)
  | _ => True

/-- Every unary operator of the expression has an operand that it can be applied to. -/
def Formed (e : Expr τ) : Prop :=
  e.All fun _ shape => shape.OperandFits

theorem formed_node {t : τ} {shape : Shape (Expr τ)} (root : shape.OperandFits)
    (children : ∀ e ∈ shape.children, e.Formed) : (node t shape).Formed :=
  .node root children

end Expr

namespace Stmt

variable {τ : Type}

/-- Whether the statement is a declaration or an expression. -/
def isSimple : Stmt τ → Bool
  | node _ (.var _ _ _) | node _ (.array _ _ _ _) | node _ (.expression _) => true
  | _ => false

/-- A counting loop begins with a declaration or an expression, and no variable is void. -/
def Shape.PartsFit : Shape (Stmt τ) (Expr τ) → Prop
  | .forLoop (some s) _ _ _ => s.isSimple = true
  | .var _ type _ | .array _ type _ _ => type ≠ .void
  | _ => True

/-- Every loop and every expression of the statement is formed. -/
def Formed (s : Stmt τ) : Prop :=
  s.All fun _ shape => shape.PartsFit ∧ ∀ e ∈ shape.exprs, e.Formed

theorem formed_node {t : τ} {shape : Shape (Stmt τ) (Expr τ)} (parts : shape.PartsFit)
    (exprs : ∀ e ∈ shape.exprs, e.Formed) (children : ∀ s ∈ shape.children, s.Formed) :
    (node t shape).Formed :=
  .node ⟨parts, exprs⟩ children

end Stmt

/-- The body of the function is formed, and no parameter is void. -/
structure Function.Formed {τ : Type} (f : Function (Stmt τ)) : Prop where
  body : f.body.Formed
  params : ∀ p ∈ f.params, p.type ≠ .void

end StackLang
