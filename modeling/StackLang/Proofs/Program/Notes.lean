import StackLang.Program.Basic

/-!
# Notes

How a change of one note shows in the others.
-/

namespace StackLang.Notes

variable {n : Notes} {i j : Nat} {f : StmtNote → StmtNote}

theorem getD_modify {α : Type} {as : Array α} {f : α → α} {d : α} :
    (as.modify i f).getD j d = if i = j ∧ j < as.size then f (as.getD j d) else as.getD j d := by
  simp only [Array.getD_eq_getD_getElem?, Array.getElem?_modify]
  by_cases hij : i = j <;> by_cases hj : j < as.size <;> simp [hij, hj]

/-! ## Expressions -/

theorem expr_of_le {id : ExprId} (h : n.exprs.size ≤ id) : n.expr id = {} := by
  simp [Notes.expr, h]

/-! ## Statements -/

theorem stmt_of_le {id : StmtId} (h : n.stmts.size ≤ id) : n.stmt id = {} := by
  simp [Notes.stmt, h]

theorem stmt_modifyStmt :
    (n.modifyStmt i f).stmt j = if i = j ∧ j < n.stmts.size then f (n.stmt j) else n.stmt j :=
  getD_modify

theorem stmt_modifyStmt_self (h : i < n.stmts.size) : (n.modifyStmt i f).stmt i = f (n.stmt i) := by
  rw [stmt_modifyStmt, if_pos ⟨rfl, h⟩]

theorem stmt_modifyStmt_of_ne (h : i ≠ j) : (n.modifyStmt i f).stmt j = n.stmt j := by
  rw [stmt_modifyStmt, if_neg fun h' => h h'.1]

@[simp] theorem size_stmts_modifyStmt : (n.modifyStmt i f).stmts.size = n.stmts.size := by
  simp [modifyStmt]

/-! ## Functions -/

theorem function_of_le {id : FunctionId} (h : n.functions.size ≤ id) : n.function id = {} := by
  simp [Notes.function, h]

end StackLang.Notes
