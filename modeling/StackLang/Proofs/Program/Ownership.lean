import StackLang.Proofs.Analysis.Names
import StackLang.Proofs.Parse.Completeness
import StackLang.Proofs.Parse.Soundness
import StackLang.Proofs.Program.Grounded

/-!
# Every node has one owner

A program that is parsed is a forest.  Nodes refer to nodes before them, every statement is part of
one statement or the body of one function, and every expression that can be reached from a function
has one place.  Only what is laid out for the target of an assignment is not reached.

* `Stmt.Held.perm_parts`, `Stmt.Held.perm_values` — a view refers to each of its nodes once.
* `Tree.reachesExpr_iff` — what is reached is what is in view.
* `Program.parse_forest` — a program that is parsed.
-/

namespace StackLang

namespace Tree

/-! ## References -/

variable (t : Tree)

/-- The statements that the statement refers to. -/
def stmtParts (id : StmtId) : List StmtId :=
  (t.stmts[id]?.map fun node => node.shape.children).getD []

/-- The expressions that the statement refers to. -/
def values (id : StmtId) : List ExprId :=
  (t.stmts[id]?.map fun node => node.shape.exprs).getD []

/-- The expressions that the expression refers to. -/
def exprParts (id : ExprId) : List ExprId :=
  (t.exprs[id]?.map fun node => node.shape.children).getD []

/-- The statement is in the body of a function. -/
inductive ReachesStmt : StmtId → Prop where
  | body {f : Function StmtId} (hf : f ∈ t.functions) : ReachesStmt f.body
  | part {parent child : StmtId} (hp : ReachesStmt parent) (h : t.StmtBelow child parent) :
    ReachesStmt child

/-- The expression is in a statement in the body of a function. -/
inductive ReachesExpr : ExprId → Prop where
  | value {s : StmtId} {e : ExprId} (hs : t.ReachesStmt s) (h : e ∈ t.values s) : ReachesExpr e
  | part {parent child : ExprId} (hp : ReachesExpr parent) (h : t.ExprBelow child parent) :
    ReachesExpr child

variable {t}

theorem mem_stmtParts {child parent : StmtId} :
    child ∈ t.stmtParts parent ↔ t.StmtBelow child parent := by
  unfold stmtParts StmtBelow
  cases t.stmts[parent]? <;> simp

theorem mem_exprParts {child parent : ExprId} :
    child ∈ t.exprParts parent ↔ t.ExprBelow child parent := by
  unfold exprParts ExprBelow
  cases t.exprs[parent]? <;> simp

end Tree

/-! ## References in a view -/

theorem perm_flatMap_append {α : Type} {f g h : α → List Nat} {as : List α}
    (H : ∀ a ∈ as, (f a ++ g a).Perm (h a)) : (as.flatMap f ++ as.flatMap g).Perm (as.flatMap h) :=
  (List.flatMap_append_perm as f g).trans (List.Perm.flatMap_left as H)

section

variable {t : Tree}

/-- All nodes of an expression but its root are referred to once in it. -/
theorem Expr.Held.perm_parts {e : Expr Mark} (h : e.Held t) :
    ([e.tag.id] ++ e.tags.flatMap fun m => t.exprParts m.id).Perm (e.tags.map Mark.id) := by
  induction e using Expr.induction with
  | step m shape ih =>
    have hroot : t.exprParts m.id = shape.children.flatMap fun e => [e.tag.id] := by
      rw [Tree.exprParts, h.root, Option.map_some, Option.getD_some, Shape.ids, Shape.children_map,
        List.map_eq_flatMap]
    have hchildren := perm_flatMap_append fun e he => ih e he (h.child e he)
    simp only [tags_node, List.flatMap_append, List.flatMap_assoc, List.flatMap_singleton, hroot,
      List.map_append, List.map_flatMap, List.map_singleton]
    exact (((List.perm_append_comm.trans hchildren).append_left _).trans List.perm_append_comm)

namespace Stmt

/-- All nodes of a statement but its root are referred to once in it. -/
theorem Held.perm_parts {s : Stmt Mark} (h : s.Held t) :
    ([s.tag.id] ++ s.tags.flatMap fun m => t.stmtParts m.id).Perm (s.tags.map Mark.id) := by
  induction s using Stmt.induction with
  | step m shape ih =>
    have hroot : t.stmtParts m.id = shape.children.flatMap fun s => [s.tag.id] := by
      rw [Tree.stmtParts, h.root.1, Option.map_some, Option.getD_some, Shape.ids,
        Shape.children_map, List.map_eq_flatMap]
    have hchildren := perm_flatMap_append fun s hs => ih s hs (h.child s hs)
    simp only [tags_node, List.flatMap_append, List.flatMap_assoc, List.flatMap_singleton, hroot,
      List.map_append, List.map_flatMap, List.map_singleton]
    exact (((List.perm_append_comm.trans hchildren).append_left _).trans List.perm_append_comm)

/-- All expressions of a statement are referred to once in it. -/
theorem Held.perm_values {s : Stmt Mark} (h : s.Held t) :
    ((s.tags.flatMap fun m => t.values m.id) ++ s.exprTags.flatMap fun m => t.exprParts m.id).Perm
      (s.exprTags.map Mark.id) := by
  induction s using Stmt.induction with
  | step m shape ih =>
    have hroot : t.values m.id = shape.exprs.flatMap fun e => [e.tag.id] := by
      rw [Tree.values, h.root.1, Option.map_some, Option.getD_some, Shape.ids, Shape.exprs_map,
        List.map_eq_flatMap]
    have hown := perm_flatMap_append fun e he => (h.root.2 e he).1.perm_parts
    have hchildren := perm_flatMap_append fun s hs => ih s hs (h.child s hs)
    have hperm := exprTags_node_perm m shape
    refine (List.Perm.append_left _ (hperm.flatMap_right _)).trans
      (.trans ?_ (hperm.map Mark.id).symm)
    simp only [tags_node, List.flatMap_append, List.flatMap_assoc, List.flatMap_singleton, hroot,
      List.map_append, List.map_flatMap]
    refine .trans ?_ (hown.append hchildren)
    rw [List.perm_iff_count]
    intro i
    simp only [List.count_append]
    omega

end Stmt

end

/-! ## Nodes that are reached -/

namespace Tree

/-- The expressions in view. -/
def exprsInView (t : Tree) : List ExprId :=
  (t.views.flatMap fun v => v.2.body.exprTags).map Mark.id

variable {t : Tree} (ht : t.Orderly) (hf : t.Filled)

theorem Filled.stmt_lt (hf : t.Filled) {child parent : StmtId} (h : t.StmtBelow child parent) :
    child < parent := by
  obtain ⟨node, hnode, hchild⟩ := h
  obtain hold | hlt := hf.grows.stmts_lt _ _ hnode
  · simp at hold
  · exact hlt child hchild

theorem Filled.expr_lt (hf : t.Filled) {child parent : ExprId} (h : t.ExprBelow child parent) :
    child < parent := by
  obtain ⟨node, hnode, hchild⟩ := h
  obtain hold | hlt := hf.grows.exprs_lt _ _ hnode
  · simp at hold
  · exact hlt child hchild

include ht hf

/-- Every statement is referred to once. -/
theorem perm_stmts : (t.functions.toList.map Function.body ++
    (List.range t.stmts.size).flatMap t.stmtParts).Perm (List.range t.stmts.size) := by
  have hall := perm_flatMap_append fun v hv => (ht.held v hv).perm_parts
  have hfill := List.range_eq_range' ▸ hf.stmts.2
  rw [toList_functions ht, List.map_map, List.map_eq_flatMap]
  refine (List.Perm.append_left _ (hfill.symm.flatMap_right _)).trans (.trans ?_ hfill)
  simp only [List.map_flatMap, List.flatMap_assoc, List.flatMap_map]
  exact hall

/-- Every expression in view is referred to once from what is in view. -/
theorem perm_exprs : ((List.range t.stmts.size).flatMap t.values ++
    t.exprsInView.flatMap t.exprParts).Perm t.exprsInView := by
  have hall := perm_flatMap_append fun v hv => (ht.held v hv).perm_values
  have hfill := List.range_eq_range' ▸ hf.stmts.2
  refine (List.Perm.append_right _ (hfill.symm.flatMap_right _)).trans ?_
  simpa only [exprsInView, List.map_flatMap, List.flatMap_assoc, List.flatMap_map] using hall

theorem reachesStmt {s : StmtId} (hs : s < t.stmts.size) : t.ReachesStmt s := by
  -- What refers to a statement has a greater number.
  induction hk : t.stmts.size - s using Nat.strongRecOn generalizing s with
  | _ k ih =>
    have hmem := (perm_stmts ht hf).mem_iff.mpr (List.mem_range.mpr hs)
    rw [List.mem_append, List.mem_map, List.mem_flatMap] at hmem
    obtain ⟨f, hf, rfl⟩ | ⟨parent, hparent, hchild⟩ := hmem
    · exact .body (Array.mem_toList_iff.mp hf)
    · have hbelow := mem_stmtParts.mp hchild
      have hless := Nat.sub_lt_sub_left hs (hf.stmt_lt hbelow)
      exact .part (ih _ (hk ▸ hless) (List.mem_range.mp hparent) rfl) hbelow

/-- What is reached is what is in view. -/
theorem reachesExpr_iff {e : ExprId} : t.ReachesExpr e ↔ e ∈ t.exprsInView := by
  have hperm := perm_exprs ht hf
  obtain ⟨ps, hfill, -⟩ := hf.exprs
  have hlt : ∀ e ∈ t.exprsInView, e < t.exprs.size := fun e he =>
    (hfill.mem_iff.mp (List.mem_append_left _ he)).2
  constructor
  · intro h
    induction h with
    | @value s e _ he =>
      refine hperm.mem_iff.mp (List.mem_append_left _ (List.mem_flatMap.mpr ⟨s, ?_, he⟩))
      rw [List.mem_range]
      by_contra hs
      rw [values, Array.getElem?_eq_none (Nat.le_of_not_lt hs)] at he
      cases he
    | part _ h ih =>
      refine hperm.mem_iff.mp (List.mem_append_right _ (List.mem_flatMap.mpr ⟨_, ih, ?_⟩))
      exact mem_exprParts.mpr h
  · intro he
    induction hk : t.exprs.size - e using Nat.strongRecOn generalizing e with
    | _ k ih =>
      have hmem := hperm.mem_iff.mpr he
      rw [List.mem_append, List.mem_flatMap, List.mem_flatMap] at hmem
      obtain ⟨s, hs, hvalue⟩ | ⟨parent, hparent, hchild⟩ := hmem
      · exact .value (reachesStmt ht hf (List.mem_range.mp hs)) hvalue
      · have hbelow := mem_exprParts.mp hchild
        have hless := Nat.sub_lt_sub_left (hlt e he) (hf.expr_lt hbelow)
        exact .part (ih _ (hk ▸ hless) hparent rfl) hbelow

omit ht hf in
/-- Each assignment has its target. -/
theorem Targets.mem_iff_isAssign {ids : List ExprId} {ps : List (ExprId × ExprId)}
    (h : t.Targets ids ps) (hfill : Fills 0 t.exprs.size (ids ++ ps.map Prod.snd)) {e : ExprId} :
    e ∈ ps.map Prod.fst ↔ t.isAssign e = true := by
  rw [h.assigns, List.mem_filter, and_iff_right_iff_imp]
  intro he
  have hlt : e < t.exprs.size := by
    by_contra hge
    rw [isAssign, Array.getElem?_eq_none (Nat.le_of_not_lt hge)] at he
    cases he
  obtain hid | htarget := List.mem_append.mp (hfill.mem_iff.mpr ⟨Nat.zero_le e, hlt⟩)
  · exact hid
  · obtain ⟨q, hq, rfl⟩ := List.mem_map.mp htarget
    obtain ⟨n, i, v, line, -, hnode⟩ := h.targets q hq
    rw [isAssign, hnode] at he
    cases i <;> cases he

end Tree

/-! ## Programs -/

namespace Program

theorem filled_of_parse {tokens : List Token} {p : Program} (h : parse tokens = .ok p) :
    p.tree.Orderly ∧ p.tree.Filled := by
  rw [parse] at h
  cases hfs : Parse.functions.run (.start tokens) with
  | error e => simp [hfs, Except.map] at h
  | ok r =>
    simp only [hfs, Except.map, Except.ok.injEq] at h
    obtain ⟨horderly, hfilled, -⟩ := orderly_layFunctions (Parse.functions_formed hfs)
    exact h ▸ ⟨horderly, hfilled⟩

/-- A program that is parsed is a forest.  A statement has a smaller number than the one it is part
of, and is part of one statement, or the body of one function, and no other.  An operand has a
smaller number than the expression it is part of, and among the expressions that are reached from a
function each has one place.  The others are the names and elements that were laid out for the
targets of assignments, one for each assignment.  So what recurses over the nodes ends; and the
views, over which programs are linked, resolved, checked and generated, show every function, every
statement and every expression that is reached, once. -/
theorem parse_forest {tokens : List Token} {p : Program} (h : parse tokens = .ok p) :
    (∀ child parent, p.tree.StmtBelow child parent → child < parent) ∧
    (p.tree.functions.toList.map Function.body ++
      (List.range p.tree.stmts.size).flatMap p.tree.stmtParts).Perm (List.range p.tree.stmts.size) ∧
    (∀ child parent, p.tree.ExprBelow child parent → child < parent) ∧
    (∃ (reached : List ExprId) (targets : List (ExprId × ExprId)),
      reached.Nodup ∧ (∀ e, e ∈ reached ↔ p.tree.ReachesExpr e) ∧
      ((List.range p.tree.stmts.size).flatMap p.tree.values ++
        reached.flatMap p.tree.exprParts).Perm reached ∧
      (targets.map Prod.snd).Nodup ∧
      (∀ e, e ∈ targets.map Prod.snd ↔ e < p.tree.exprs.size ∧ ¬p.tree.ReachesExpr e) ∧
      (targets.map Prod.fst).Nodup ∧
      (∀ e, e ∈ targets.map Prod.fst ↔ p.tree.isAssign e = true) ∧
      (∀ q ∈ targets, p.tree.TargetOf q.1 q.2) ∧
      (p.tree.views.flatMap fun v => v.2.body.exprTags).map Mark.id = reached) ∧
    (WellFounded p.tree.StmtBelow ∧ WellFounded p.tree.ExprBelow) ∧
    p.tree.views.map Prod.fst = List.range p.tree.functions.size ∧
    ((p.tree.views.flatMap fun v => v.2.body.tags).map Mark.id).Perm
      (List.range p.tree.stmts.size) := by
  obtain ⟨ht, hf⟩ := filled_of_parse h
  obtain ⟨ps, hfill, hps⟩ := hf.exprs
  have hnodup : (p.tree.exprsInView ++ ps.map Prod.snd).Nodup :=
    hfill.2.nodup_iff.mpr List.nodup_range'
  refine ⟨fun _ _ => hf.stmt_lt, Tree.perm_stmts ht hf, fun _ _ => hf.expr_lt,
    ⟨p.tree.exprsInView, ps, hnodup.of_append_left, fun e => (Tree.reachesExpr_iff ht hf).symm,
      Tree.perm_exprs ht hf, hnodup.of_append_right, fun e => ?_, ?_,
      fun e => hps.mem_iff_isAssign hfill, hps.targets, rfl⟩,
    ⟨Subrelation.wf hf.stmt_lt Nat.lt_wfRel.wf, Subrelation.wf hf.expr_lt Nat.lt_wfRel.wf⟩, ht.ids,
    List.range_eq_range' ▸ hf.stmts.2⟩
  · rw [Tree.reachesExpr_iff ht hf]
    refine ⟨fun he => ⟨?_, fun hview => List.disjoint_of_nodup_append hnodup hview he⟩,
      fun he => ?_⟩
    · exact (hfill.mem_iff.mp (List.mem_append_right _ he)).2
    · exact (List.mem_append.mp (hfill.mem_iff.mpr ⟨Nat.zero_le e, he.1⟩)).resolve_left he.2
  · rw [hps.assigns]
    exact hnodup.of_append_left.filter _

/-- What is laid out for the target of the outer of two assignments is not reached. -/
theorem parse_forest_chained : ∃ p, parse chainedTokens = .ok p ∧ p.tree.isAssign 12 = true ∧
    ∃ e, p.tree.TargetOf 12 e ∧ ¬p.tree.ReachesExpr e := by
  have hassign : ((parse chainedTokens).toOption.any fun p => p.tree.isAssign 12) = true := by
    decide +kernel
  obtain ⟨p, hp, hassign⟩ := any_toOption_iff.mp hassign
  obtain ⟨-, -, -, ⟨-, ps, -, -, -, -, hunreached, -, hassigns, htargets, -⟩, -⟩ := parse_forest hp
  obtain ⟨q, hq, hfst⟩ := List.mem_map.mp ((hassigns 12).mpr hassign)
  have htarget := htargets q hq
  rw [hfst] at htarget
  exact ⟨p, hp, hassign, q.2, htarget, ((hunreached q.2).mp (List.mem_map_of_mem hq)).2⟩

end Program

end StackLang
