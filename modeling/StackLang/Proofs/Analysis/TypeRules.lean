import Mathlib.Data.List.Forall2
import StackLang.Proofs.Analysis.Bound
import StackLang.Proofs.Program.Notes
import StackLang.Typing

/-!
# Type rules

What the types noted at an expression and its children have to do with each other, and what a
statement asks of its expressions, said for one node at a time.

* `Expr.Typed` — every node of an expression has a type that follows from those of its children.
* `Stmt.Typed` — every node of a statement is used as the types of its expressions allow.
* `Notes.Retains` — notes that say the same about names and places, and may differ in the types.
-/

namespace StackLang

variable {shape : Stmt.Shape (Stmt Mark) (Expr Mark)} {n : Notes} {ret : ValueType}
  {loop : Option StmtId}

/-! ## Rules -/

namespace Notes

/-- The type noted at an expression. -/
def typeOf (n : Notes) (e : Expr Mark) : Option ValueType :=
  (n.expr e.tag.id).type

/-- The variable that the name at an expression stands for. -/
def variableAt (t : Tree) (n : Notes) (m : Mark) : Option VarInfo :=
  (n.expr m.id).binding.bind (t.varInfo? n)

/-- The value of the expression can be stored as `target`. -/
def Stores (n : Notes) (target : ValueType) (e : Expr Mark) : Prop :=
  ∃ source, n.typeOf e = some source ∧ (target.store? source).isSome = true

end Notes

/-- A node of the given mark and shape has type `T`. -/
def Expr.Shape.Rule (t : Tree) (n : Notes) (m : Mark) (T : ValueType) :
    Shape (Expr Mark) → Prop
  | binary l op r =>
    ∃ a b, n.typeOf l = some a ∧ n.typeOf r = some b ∧ ValueType.binary? op.kind a b = some T
  | grouping e => n.typeOf e = some T
  | literal v => v.type = T
  | unary op e _ => n.typeOf e = some T ∧ T.takesUnary op.kind = true
  | name _ => ∃ info, n.variableAt t m = some info ∧ info.length = none ∧ info.type = T
  | assign _ none v =>
    ∃ info, n.variableAt t m = some info ∧ info.length = none ∧ n.Stores info.type v ∧
      info.type = T
  | assign _ (some i) v =>
    ∃ info, n.variableAt t m = some info ∧ info.length.isSome = true ∧
      n.typeOf i = some .int ∧ n.Stores info.type v ∧ info.type = T
  | call _ args =>
    ∃ id f, (n.expr m.id).binding = some (.function id) ∧ t.functions[id]? = some f ∧
      List.Forall₂ (fun p e => n.Stores p.type e) f.params args ∧ f.returnType = T
  | element _ i =>
    ∃ info, n.variableAt t m = some info ∧ info.length.isSome = true ∧
      n.typeOf i = some .int ∧ info.type = T
  | braces _ => False
  | random _ e => n.typeOf e = some .int ∧ T = .int

/-- Every node of the expression has a type. -/
def Expr.Typed (t : Tree) (n : Notes) (e : Expr Mark) : Prop :=
  e.All fun m shape => ∃ T, (n.expr m.id).type = some T ∧ shape.Rule t n m T

/-- Every node of the expression has a type, and it has the given one. -/
structure Expr.HasType (t : Tree) (n : Notes) (e : Expr Mark) (T : ValueType) : Prop where
  typed : e.Typed t n
  type : n.typeOf e = some T

/-- The expression has a type, and its value can be stored as `target`. -/
def Expr.FitsAs (t : Tree) (n : Notes) (target : ValueType) (e : Expr Mark) : Prop :=
  e.Typed t n ∧ n.Stores target e

/-- A node in a function that returns `ret`, with the given innermost loop around it, is used as the
types of its expressions allow. -/
def Stmt.Shape.Rule (t : Tree) (n : Notes) (ret : ValueType) (loop : Option StmtId) (m : Mark) :
    Shape (Stmt Mark) (Expr Mark) → Prop
  | block _ => True
  | .ret _ none => ret = .void
  | .ret _ (some e) => ret ≠ .void ∧ e.FitsAs t n ret
  | expression e => e.Typed t n
  | choice branches _ => ∀ b ∈ branches, b.1.HasType t n .bool
  | whileLoop c _ => c.HasType t n .bool
  | forLoop _ c u _ => (∀ e ∈ c, e.HasType t n .bool) ∧ ∀ e ∈ u, e.Typed t n
  | output _ values => ∀ e ∈ values, ∃ T, T ≠ .void ∧ e.HasType t n T
  | input _ => ∃ info, (n.stmt m.id).binding.bind (t.varInfo? n) = some info ∧ info.length = none
  | var _ type init => ∀ e ∈ init, e.FitsAs t n type
  | array _ type length init => ∀ e ∈ init, ∃ m' es, e = .node m' (.braces es) ∧
      (n.expr m'.id).type = some type ∧ es.length ≤ length ∧ ∀ a ∈ es, a.FitsAs t n type
  | stop _ | skip _ => ∃ l, loop = some l ∧ (n.stmt m.id).target = some l

/-- The innermost loop around the statements in a node. -/
def Stmt.Shape.innerLoop {ρ ε : Type} (m : Mark) (loop : Option StmtId) (shape : Shape ρ ε) :
    Option StmtId :=
  if shape.isLoop then some m.id else loop

/-- Every node of the statement is used as the types of its expressions allow. -/
inductive Stmt.Typed (t : Tree) (n : Notes) (ret : ValueType) :
    Option StmtId → Stmt Mark → Prop where
  | node {loop : Option StmtId} {m : Mark} {shape : Shape (Stmt Mark) (Expr Mark)}
    (root : shape.Rule t n ret loop m)
    (children : ∀ s ∈ shape.children, Typed t n ret (shape.innerLoop m loop) s) :
    Typed t n ret loop (node m shape)

theorem Stmt.Typed.root {t : Tree} {m : Mark} (h : Stmt.Typed t n ret loop (Stmt.node m shape)) :
    shape.Rule t n ret loop m := by
  cases h
  assumption

theorem Stmt.Typed.child {t : Tree} {m : Mark} (h : Stmt.Typed t n ret loop (Stmt.node m shape)) :
    ∀ s ∈ shape.children, Stmt.Typed t n ret (shape.innerLoop m loop) s := by
  cases h
  assumption

/-! ## Notes that differ in types only -/

/-- Names, places and links are noted as before. -/
structure Notes.Retains (n n' : Notes) : Prop where
  exprs : ∀ id, (n'.expr id).binding = (n.expr id).binding
  bindings : ∀ id, (n'.stmt id).binding = (n.stmt id).binding
  slots : ∀ id, (n'.stmt id).slot = (n.stmt id).slot
  parents : ∀ id, (n'.stmt id).parent = (n.stmt id).parent
  params : ∀ id, (n'.function id).slots = (n.function id).slots
  frames : ∀ id, (n'.function id).frameSlots = (n.function id).frameSlots

namespace Notes

variable {n n' n'' : Notes} {t : Tree}

theorem Retains.refl (n : Notes) : n.Retains n :=
  ⟨fun _ => rfl, fun _ => rfl, fun _ => rfl, fun _ => rfl, fun _ => rfl, fun _ => rfl⟩

theorem Retains.trans (h : n.Retains n') (h' : n'.Retains n'') : n.Retains n'' where
  exprs id := (h'.exprs id).trans (h.exprs id)
  bindings id := (h'.bindings id).trans (h.bindings id)
  slots id := (h'.slots id).trans (h.slots id)
  parents id := (h'.parents id).trans (h.parents id)
  params id := (h'.params id).trans (h.params id)
  frames id := (h'.frames id).trans (h.frames id)

theorem Retains.varInfo? (h : n.Retains n') : t.varInfo? n' = t.varInfo? n := by
  funext b
  cases b <;> simp only [Tree.varInfo?, h.params, h.slots]

theorem Retains.variableAt (h : n.Retains n') (m : Mark) :
    n'.variableAt t m = n.variableAt t m := by
  rw [Notes.variableAt, Notes.variableAt, h.exprs, h.varInfo?]

/-- The surroundings of a statement are noted in its parents. -/
theorem Retains.enclosingFunction (h : n.Retains n') (s : StmtId) :
    t.enclosingFunction n' s = t.enclosingFunction n s := by
  have above : ∀ fuel o, Tree.functionAbove n' fuel o = Tree.functionAbove n fuel o := by
    intro fuel
    induction fuel with
    | zero => rintro (_ | (_ | _)) <;> rfl
    | succ fuel ih =>
      rintro (_ | (_ | _))
      · rfl
      · rw [Tree.functionAbove, Tree.functionAbove, h.parents, ih]
      · rfl
  rw [Tree.enclosingFunction, Tree.enclosingFunction, h.parents, above]

theorem Retains.enclosingLoop (h : n.Retains n') (s : StmtId) :
    t.enclosingLoop n' s = t.enclosingLoop n s := by
  have above : ∀ fuel o, t.loopAbove n' fuel o = t.loopAbove n fuel o := by
    intro fuel
    induction fuel with
    | zero => rintro (_ | (_ | _)) <;> rfl
    | succ fuel ih =>
      rintro (_ | (_ | _))
      · rfl
      · rw [Tree.loopAbove, Tree.loopAbove, h.parents, ih]
      · rfl
  rw [Tree.enclosingLoop, Tree.enclosingLoop, h.parents, above]

end Notes

end StackLang
