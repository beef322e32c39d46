import Mathlib.Algebra.GroupWithZero.Nat
import StackLang.Proofs.Program.Held

/-!
# Names and places

When the names of a program are resolved, every use of a name is bound to a declaration, and the
declarations of a function have places in its frame, one behind the other in the order of their
marks.

* `Stmt.Bound` — every use of a name in a statement is bound.
* `Tree.Slotted` — the declarations among some marks have consecutive places.
-/

namespace StackLang

variable {ms : List Mark} {V : Binding → Prop}

/-! ## Marks -/

/-- The marks have different numbers. -/
def Naming.Distinct (ms : List Mark) : Prop :=
  (ms.map Mark.id).Nodup

theorem Naming.Distinct.append {ms' : List Mark} :
    Distinct (ms ++ ms') ↔ Distinct ms ∧ Distinct ms' ∧ ∀ m ∈ ms, ∀ m' ∈ ms', m'.id ≠ m.id := by
  simp only [Distinct, List.map_append, List.nodup_append, List.mem_map]
  grind

theorem Naming.Distinct.of_ascending (h : Mark.Ascending ms) : Distinct ms := by
  rw [Distinct, List.Nodup, List.pairwise_map]
  exact h.imp Nat.ne_of_lt

/-! ## Bound names -/

/-- The kind of the name that an expression uses itself. -/
def Expr.Shape.use? {ε : Type} : Shape ε → Option NameKind
  | name _ | assign _ _ _ | element _ _ => some .variableName
  | call _ _ => some .functionName
  | _ => none

/-- The kind of the name that a statement uses itself. -/
def Stmt.Shape.use? {ρ ε : Type} : Shape ρ ε → Option NameKind
  | input _ => some .variableName
  | _ => none

/-- The binding is one of the given kind that satisfies `V`. -/
def Binding.Fits (V : Binding → Prop) (kind : NameKind) (b : Option Binding) : Prop :=
  ∃ b', b = some b' ∧ b'.kind = kind ∧ V b'

/-- Every use of a name in the expression is bound to a declaration that satisfies `V`. -/
def Expr.Bound (V : Binding → Prop) (n : Notes) (e : Expr Mark) : Prop :=
  e.All fun m shape => ∀ kind, shape.use? = some kind → Binding.Fits V kind (n.expr m.id).binding

/-- Every use of a name in the statement is bound to a declaration that satisfies `V`. -/
def Stmt.Bound (V : Binding → Prop) (n : Notes) (s : Stmt Mark) : Prop :=
  s.All fun m shape => (∀ e ∈ shape.exprs, e.Bound V n) ∧
    ∀ kind, shape.use? = some kind → Binding.Fits V kind (n.stmt m.id).binding

/-- Whether an expression is bound depends on the bindings at its nodes. -/
theorem Expr.Bound.congr {n n' : Notes} {e : Expr Mark} (h : e.Bound V n)
    (hn : ∀ m ∈ e.tags, (n'.expr m.id).binding = (n.expr m.id).binding) : e.Bound V n' := by
  refine All.imp h fun m shape hm _ hb kind hk => ?_
  rw [hn m hm]
  exact hb kind hk

theorem Stmt.Bound.congr {n n' : Notes} {s : Stmt Mark} (h : s.Bound V n)
    (he : ∀ m ∈ s.exprTags, (n'.expr m.id).binding = (n.expr m.id).binding)
    (hs : ∀ m ∈ s.tags, (n'.stmt m.id).binding = (n.stmt m.id).binding) : s.Bound V n' := by
  induction s using Stmt.induction with
  | step m shape ih =>
    refine .node ⟨fun e hmem => ?_, fun kind hk => ?_⟩ fun s hmem => ?_
    · exact (h.root.1 e hmem).congr fun u hu => he u (mem_exprTags_node.mpr (.inl ⟨e, hmem, hu⟩))
    · rw [hs m (mem_tags_self m shape)]
      exact h.root.2 kind hk
    · exact ih s hmem (h.child s hmem)
        (fun u hu => he u (mem_exprTags_node.mpr (.inr ⟨s, hmem, hu⟩)))
        fun u hu => hs u (mem_tags_of_child hmem hu)

/-! ## Places in the frame -/

/-- The number of cells that a declaration takes. -/
def Stmt.Shape.cells? {ρ ε : Type} : Shape ρ ε → Option Nat
  | var _ _ _ => some 1
  | array _ _ length _ => some length
  | _ => none

namespace Tree

/-- The number of cells that the declaration at a statement takes, if it is one. -/
def cells? (t : Tree) (s : StmtId) : Option Nat :=
  t.stmts[s]?.bind fun node => node.shape.cells?

/-- The number of cells that the declarations among the marks take. -/
def cells (t : Tree) (ms : List Mark) : Nat :=
  (ms.map fun m => (t.cells? m.id).getD 0).sum

/-- The declarations among the marks have places one behind the other, from `k` on. -/
def Slotted (t : Tree) (n : Notes) : Int → List Mark → Prop
  | _, [] => True
  | k, m :: ms =>
    (∀ c, t.cells? m.id = some c → (n.stmt m.id).slot = some k) ∧
      t.Slotted n (k + (t.cells? m.id).getD 0) ms

variable {t : Tree} {n n' : Notes}

theorem cells?_of_held {m : Mark} {shape : Stmt.Shape (Stmt Mark) (Expr Mark)}
    (h : (Stmt.node m shape).Held t) : t.cells? m.id = shape.cells? := by
  rw [cells?, h.root.1]
  cases shape <;> rfl

@[simp] theorem cells_nil : t.cells [] = 0 := rfl

@[simp] theorem cells_append (as bs : List Mark) :
    t.cells (as ++ bs) = t.cells as + t.cells bs := by
  simp [cells]

theorem cells_singleton (m : Mark) : t.cells [m] = (t.cells? m.id).getD 0 := by
  simp [cells]

theorem slotted_append {k : Int} {as bs : List Mark} :
    t.Slotted n k (as ++ bs) ↔ t.Slotted n k as ∧ t.Slotted n (k + t.cells as) bs := by
  induction as generalizing k with
  | nil => simp [Slotted]
  | cons a as ih =>
    have : k + (t.cells? a.id).getD 0 + t.cells as = k + t.cells (a :: as) := by
      simp [cells]
      omega
    rw [List.cons_append, Slotted, Slotted, ih, and_assoc, this]

theorem Slotted.congr {k : Int} (h : t.Slotted n k ms)
    (hn : ∀ m ∈ ms, (n'.stmt m.id).slot = (n.stmt m.id).slot) : t.Slotted n' k ms := by
  induction ms generalizing k with
  | nil => trivial
  | cons m ms ih =>
    refine ⟨fun c hc => ?_, ih h.2 fun u hu => hn u (by simp [hu])⟩
    rw [hn m (by simp)]
    exact h.1 c hc

end Tree

end StackLang
