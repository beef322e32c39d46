import Mathlib.Data.List.Basic
import Mathlib.Data.List.Induction
import StackLang.Program.Layout
import StackLang.Proofs.Tree.Bare

/-!
# Laying out a program

What a program is laid out as can be viewed again: every function has a view, the numbers of all
statements are different, and so are those of all expressions.

* `orderly_layFunctions` — what is laid out is an orderly tree, with the parsed functions in view.
-/

namespace StackLang

variable {t t' t₁ : Tree} {α : Type} {line : Line} {es : List (Expr Mark)} {ms : List Mark}
  {fs : List (Function (Stmt Line))} {i : Nat} {n : ExprNode} {ss : List (Stmt Mark)}

/-! ## Growing trees -/

namespace Tree

/-- Nodes are only added, and none are changed.  Those that are added refer to nodes before them. -/
structure Grows (t t' : Tree) : Prop where
  exprs : ∀ (i : Nat) node, t.exprs[i]? = some node → t'.exprs[i]? = some node
  stmts : ∀ (i : Nat) node, t.stmts[i]? = some node → t'.stmts[i]? = some node
  exprs_lt : ∀ (i : Nat) node, t'.exprs[i]? = some node →
    t.exprs[i]? = some node ∨ ∀ c ∈ node.shape.children, c < i
  stmts_lt : ∀ (i : Nat) node, t'.stmts[i]? = some node →
    t.stmts[i]? = some node ∨ ∀ c ∈ node.shape.children, c < i

theorem Grows.refl (t : Tree) : t.Grows t :=
  ⟨fun _ _ h => h, fun _ _ h => h, fun _ _ h => .inl h, fun _ _ h => .inl h⟩

theorem Grows.trans {t'' : Tree} (h : t.Grows t') (h' : t'.Grows t'') : t.Grows t'' where
  exprs i node hn := h'.exprs i node (h.exprs i node hn)
  stmts i node hn := h'.stmts i node (h.stmts i node hn)
  exprs_lt i node hn := (h'.exprs_lt i node hn).elim (h.exprs_lt i node) .inr
  stmts_lt i node hn := (h'.stmts_lt i node hn).elim (h.stmts_lt i node) .inr

theorem getElem?_push_of_some {as : Array α} {a b : α} (h : as[i]? = some b) :
    (as.push a)[i]? = some b := by
  have hi := (Array.getElem?_eq_some_iff.mp h).1
  rw [Array.getElem?_push, if_neg (by omega), h]

theorem getElem?_of_push {P : α → Nat → Prop} {as : Array α} {a b : α} (ha : P a as.size)
    (h : (as.push a)[i]? = some b) : as[i]? = some b ∨ P b i := by
  rw [Array.getElem?_push] at h
  split at h
  case isTrue hi =>
    cases h
    exact .inr (hi ▸ ha)
  case isFalse => exact .inl h

theorem grows_addExpr (t : Tree) (hn : ∀ c ∈ n.shape.children, c < t.exprs.size) :
    t.Grows (t.addExpr n).2 where
  exprs _ _ h := getElem?_push_of_some h
  stmts _ _ h := h
  exprs_lt _ _ h := getElem?_of_push (P := fun n i => ∀ c ∈ n.shape.children, c < i) hn h
  stmts_lt _ _ h := .inl h

theorem grows_addStmt (t : Tree) {n : StmtNode} (hn : ∀ c ∈ n.shape.children, c < t.stmts.size) :
    t.Grows (t.addStmt n).2 where
  exprs _ _ h := h
  stmts _ _ h := getElem?_push_of_some h
  exprs_lt _ _ h := .inl h
  stmts_lt _ _ h := getElem?_of_push (P := fun n i => ∀ c ∈ n.shape.children, c < i) hn h

end Tree

theorem Expr.Held.grows {e : Expr Mark} (h : e.Held t) (hg : t.Grows t') : e.Held t' :=
  All.imp h fun m _ _ _ hm => hg.exprs m.id _ hm

theorem Stmt.Held.grows (s : Stmt Mark) (h : s.Held t) (hg : t.Grows t') : s.Held t' := by
  induction s using Stmt.induction with
  | step m shape ih =>
    refine .node ⟨hg.stmts _ _ h.root.1, fun e he => ?_⟩ fun s hs => ih s hs (h.child s hs)
    exact ⟨(h.root.2 e he).1.grows hg, (h.root.2 e he).2⟩

/-! ## Numbers without gaps -/

/-- The numbers are those from `a` up to `b`, each once. -/
def Fills (a b : Nat) (ids : List Nat) : Prop :=
  a ≤ b ∧ ids.Perm (List.range' a (b - a))

namespace Fills

variable {a b c : Nat} {as bs : List Nat}

theorem mem_iff (h : Fills a b as) : i ∈ as ↔ a ≤ i ∧ i < b := by
  have := h.1
  rw [h.2.mem_iff, List.mem_range'_1]
  omega

theorem append (h : Fills a b as) (h' : Fills b c bs) : Fills a c (as ++ bs) := by
  obtain ⟨k, rfl⟩ := Nat.exists_eq_add_of_le h.1
  obtain ⟨l, rfl⟩ := Nat.exists_eq_add_of_le h'.1
  refine ⟨Nat.le_trans h.1 h'.1, (h.2.append h'.2).trans (.of_eq ?_)⟩
  rw [Nat.add_sub_cancel_left, Nat.add_sub_cancel_left, List.range'_append_1]
  congr 1
  omega

theorem succ (h : Fills a b as) : Fills a (b + 1) (as ++ [b]) :=
  h.append ⟨Nat.le_succ b, by simp⟩

theorem perm (h : Fills a b as) (hp : ∀ i, as.count i = bs.count i) : Fills a b bs :=
  ⟨h.1, (List.perm_iff_count.mpr hp).symm.trans h.2⟩

end Fills

/-! ## Targets of assignments -/

/-- What the target of an assignment is laid out as. -/
def Expr.Shape.target {ε : Type} (n : Token) : Option ε → Expr.Shape ε
  | none => .name n
  | some i => .element n i

namespace Tree

variable {ids : List ExprId} {ps : List (ExprId × ExprId)}

/-- Whether the expression is an assignment. -/
def isAssign (t : Tree) (id : ExprId) : Bool :=
  match t.exprs[id]? with
  | some ⟨.assign _ _ _, _⟩ => true
  | _ => false

/-- The one expression is an assignment, and the other one was laid out for its target. -/
def TargetOf (t : Tree) (assign target : ExprId) : Prop :=
  ∃ n i v line, t.exprs[assign]? = some ⟨.assign n i v, line⟩ ∧
    t.exprs[target]? = some ⟨.target n i, n.line⟩

/-- The assignments among the expressions, in their order, each with what was laid out for its
target. -/
structure Targets (t : Tree) (ids : List ExprId) (ps : List (ExprId × ExprId)) : Prop where
  assigns : ps.map Prod.fst = ids.filter t.isAssign
  targets : ∀ p ∈ ps, t.TargetOf p.1 p.2

theorem Targets.grows (h : t.Targets ids ps) (hids : ∀ i ∈ ids, i < t.exprs.size)
    (hg : t.Grows t') :
    t'.Targets ids ps where
  assigns := by
    rw [h.assigns]
    refine List.filter_congr fun i hi => ?_
    have hi := Array.getElem?_eq_getElem (hids i hi)
    rw [isAssign, isAssign, hi, hg.exprs i _ hi]
  targets p hp := by
    obtain ⟨n, i, v, line, hassign, htarget⟩ := h.targets p hp
    exact ⟨n, i, v, line, hg.exprs _ _ hassign, hg.exprs _ _ htarget⟩

theorem Targets.append {ids' : List ExprId} {ps' : List (ExprId × ExprId)} (h : t.Targets ids ps)
    (h' : t.Targets ids' ps') : t.Targets (ids ++ ids') (ps ++ ps') where
  assigns := by rw [List.map_append, h.assigns, h'.assigns, List.filter_append]
  targets p hp := (List.mem_append.mp hp).elim (h.targets p) (h'.targets p)

end Tree

/-! ## Parts that have been laid out -/

/-- Between `t` and `t'` the expressions `es` and the statements `ss` have been laid out; `marks`
are those of all expressions laid out, also of the ones in `ss`.  The other expressions are the
targets of assignments; those of `loose` still wait for theirs. -/
structure Laid (t t' : Tree) (es : List (Expr Mark)) (ss : List (Stmt Mark))
    (marks : List Mark) (loose : List ExprId := []) : Prop where
  grows : t.Grows t'
  functions : t'.functions = t.functions
  exprs : ∀ e ∈ es, e.Held t' ∧ Mark.Ascending e.tags
  stmts : ∀ s ∈ ss, s.Held t'
  exprIds : Mark.Ascending marks
  exprFill :
    ∃ ps, Fills t.exprs.size t'.exprs.size (marks.map Mark.id ++ ps.map Prod.snd ++ loose) ∧
      t'.Targets (marks.map Mark.id) ps
  stmtIds : Mark.Ascending (ss.flatMap Stmt.tags)
  stmtFill : Fills t.stmts.size t'.stmts.size ((ss.flatMap Stmt.tags).map Mark.id)

namespace Laid

variable {t t₁ t₂ : Tree} {es es' : List (Expr Mark)} {ss ss' : List (Stmt Mark)}
  {ms ms' : List Mark} {loose loose' : List ExprId}

theorem nil (t : Tree) : Laid t t [] [] [] where
  grows := .refl t
  functions := rfl
  exprs := by simp
  stmts := by simp
  exprIds := List.Pairwise.nil
  exprFill := ⟨[], ⟨Nat.le_refl _, by simp⟩, rfl, by simp⟩
  stmtIds := List.Pairwise.nil
  stmtFill := ⟨Nat.le_refl _, by simp⟩

theorem exprBounds (h : Laid t t₁ es ss ms loose) {m : Mark} (hm : m ∈ ms) :
    t.exprs.size ≤ m.id ∧ m.id < t₁.exprs.size := by
  obtain ⟨ps, hfill, -⟩ := h.exprFill
  exact hfill.mem_iff.mp (by simp [List.mem_map_of_mem hm])

theorem exprFill_of_grows (h : Laid t t₁ es ss ms loose) (hg : t₁.Grows t₂) :
    ∃ ps, Fills t.exprs.size t₁.exprs.size (ms.map Mark.id ++ ps.map Prod.snd ++ loose) ∧
      t₂.Targets (ms.map Mark.id) ps := by
  obtain ⟨ps, hfill, hps⟩ := h.exprFill
  refine ⟨ps, hfill, hps.grows (fun i hi => (hfill.mem_iff.mp ?_).2) hg⟩
  simp only [List.mem_append, hi, true_or]

theorem stmtBounds (h : Laid t t₁ es ss ms loose) {m : Mark} (hm : m ∈ ss.flatMap Stmt.tags) :
    t.stmts.size ≤ m.id ∧ m.id < t₁.stmts.size :=
  h.stmtFill.mem_iff.mp (List.mem_map_of_mem hm)

theorem ascending_append {as bs : List Mark} {mid : Nat} (ha : Mark.Ascending as)
    (hb : Mark.Ascending bs) (has : ∀ m ∈ as, m.id < mid) (hbs : ∀ m ∈ bs, mid ≤ m.id) :
    Mark.Ascending (as ++ bs) := by
  refine List.pairwise_append.mpr ⟨ha, hb, fun a h b h' => ?_⟩
  have := has a h
  have := hbs b h'
  omega

theorem append (h : Laid t t₁ es ss ms loose) (h' : Laid t₁ t₂ es' ss' ms' loose') :
    Laid t t₂ (es ++ es') (ss ++ ss') (ms ++ ms') (loose ++ loose') where
  grows := h.grows.trans h'.grows
  functions := h'.functions.trans h.functions
  exprs e he := by
    rcases List.mem_append.mp he with he | he
    · exact ⟨(h.exprs e he).1.grows h'.grows, (h.exprs e he).2⟩
    · exact h'.exprs e he
  stmts s hs := by
    rcases List.mem_append.mp hs with hs | hs
    · exact (h.stmts s hs).grows s h'.grows
    · exact h'.stmts s hs
  exprIds := ascending_append h.exprIds h'.exprIds (fun _ hm => (h.exprBounds hm).2)
    fun _ hm => (h'.exprBounds hm).1
  exprFill := by
    obtain ⟨ps, hfill, hps⟩ := h.exprFill_of_grows h'.grows
    obtain ⟨ps', hfill', hps'⟩ := h'.exprFill
    refine ⟨ps ++ ps', (hfill.append hfill').perm fun i => ?_, List.map_append ▸ hps.append hps'⟩
    simp only [List.map_append, List.count_append]
    omega
  stmtIds := by
    rw [List.flatMap_append]
    exact ascending_append h.stmtIds h'.stmtIds (fun _ hm => (h.stmtBounds hm).2)
      fun _ hm => (h'.stmtBounds hm).1
  stmtFill := by
    rw [List.flatMap_append, List.map_append]
    exact h.stmtFill.append h'.stmtFill

/-- A node that nothing refers to may be added behind. -/
theorem addExpr (h : Laid t t₁ es ss ms) (hn : ∀ c ∈ n.shape.children, c < t₁.exprs.size) :
    Laid t (t₁.addExpr n).2 es ss ms [t₁.exprs.size] := by
  have step : Laid t₁ (t₁.addExpr n).2 [] [] [] [t₁.exprs.size] :=
    { nil t₁ with
      grows := t₁.grows_addExpr hn
      exprs := by simp
      stmts := by simp
      exprFill := ⟨[], ⟨by simp [Tree.addExpr], by simp [Tree.addExpr]⟩, rfl, by simp⟩ }
  simpa using h.append step

/-- The targets that wait for the node: an assignment has one, all other nodes have none. -/
def Loose (t : Tree) (loose : List ExprId) : Expr.Shape ExprId → Prop
  | .assign n i _ => ∃ o, loose = [o] ∧ t.exprs[o]? = some ⟨.target n i, n.line⟩
  | _ => loose = []

theorem Loose.targets {shape : Expr.Shape ExprId} (h : Loose t loose shape) (line : Line) :
    (t.addExpr ⟨shape, line⟩).2.Targets [t.exprs.size] (loose.map (t.exprs.size, ·)) := by
  cases shape with
  | assign n i v =>
    obtain ⟨o, rfl, ho⟩ := h
    refine ⟨by simp [Tree.isAssign, Tree.addExpr], ?_⟩
    simp only [List.map_singleton, List.mem_singleton, forall_eq]
    exact ⟨n, i, v, line, by simp [Tree.addExpr], Tree.getElem?_push_of_some ho⟩
  | _ =>
    subst h
    exact ⟨by simp [Tree.isAssign, Tree.addExpr], by simp⟩

/-- An expression is laid out behind its children. -/
theorem putExpr {shape : Expr.Shape (Expr Mark)}
    (h : Laid t t₁ shape.children [] (shape.children.flatMap Expr.tags) loose)
    (hl : Loose t₁ loose shape.ids) (line : Line) :
    Laid t (t₁.addExpr ⟨shape.ids, line⟩).2 [.node ⟨t₁.exprs.size, line⟩ shape] []
      (Expr.node ⟨t₁.exprs.size, line⟩ shape).tags := by
  have hg : t₁.Grows (t₁.addExpr ⟨shape.ids, line⟩).2 := by
    refine t₁.grows_addExpr fun c hc => ?_
    rw [Expr.Shape.ids, Expr.Shape.children_map] at hc
    obtain ⟨e, he, rfl⟩ := List.mem_map.mp hc
    exact (h.exprBounds (List.mem_flatMap.mpr ⟨e, he, e.tag_mem_tags⟩)).2
  have hasc : Mark.Ascending (Expr.node ⟨t₁.exprs.size, line⟩ shape).tags := by
    rw [Expr.tags_node]
    refine ascending_append h.exprIds (List.pairwise_singleton _ _)
      (fun _ hm => (h.exprBounds hm).2) ?_
    simp
  exact
    { grows := h.grows.trans hg
      functions := h.functions
      exprs := by
        simp only [List.mem_singleton, forall_eq]
        refine ⟨.node (by simp [Tree.addExpr]) fun e he => (h.exprs e he).1.grows hg, hasc⟩
      stmts := by simp
      exprIds := hasc
      exprFill := by
        obtain ⟨ps, hfill, hps⟩ := h.exprFill_of_grows hg
        rw [Expr.tags_node, List.map_append, List.map_singleton, Tree.addExpr, Array.size_push]
        refine ⟨_, hfill.succ.perm fun i => ?_, hps.append (hl.targets line)⟩
        simp only [List.map_append, List.map_map, Function.comp_def, List.map_id',
          List.count_append, List.count_nil]
        omega
      stmtIds := List.Pairwise.nil
      stmtFill := h.stmtFill }

/-- A statement is laid out behind its expressions and the statements in it. -/
theorem putStmt {shape : Stmt.Shape (Stmt Mark) (Expr Mark)}
    (h : Laid t t₁ shape.exprs shape.children (Stmt.node ⟨t₁.stmts.size, line⟩ shape).exprTags) :
    Laid t (t₁.addStmt ⟨shape.ids, line⟩).2 [] [.node ⟨t₁.stmts.size, line⟩ shape]
      (Stmt.node ⟨t₁.stmts.size, line⟩ shape).exprTags := by
  have hg : t₁.Grows (t₁.addStmt ⟨shape.ids, line⟩).2 := by
    refine t₁.grows_addStmt fun c hc => ?_
    rw [Stmt.Shape.ids, Stmt.Shape.children_map] at hc
    obtain ⟨s, hs, rfl⟩ := List.mem_map.mp hc
    exact (h.stmtBounds (List.mem_flatMap.mpr ⟨s, hs, s.tag_mem_tags⟩)).2
  exact
    { grows := h.grows.trans hg
      functions := h.functions
      exprs := by simp
      stmts := by
        simp only [List.mem_singleton, forall_eq]
        refine .node ⟨by simp [Tree.addStmt], fun e he => ?_⟩ fun s hs => (h.stmts s hs).grows s hg
        exact ⟨(h.exprs e he).1.grows hg, (h.exprs e he).2⟩
      exprIds := h.exprIds
      exprFill := h.exprFill_of_grows hg
      stmtIds := by
        rw [List.flatMap_singleton, Stmt.tags_node]
        refine ascending_append h.stmtIds (List.pairwise_singleton _ _)
          (fun _ hm => (h.stmtBounds hm).2) ?_
        simp
      stmtFill := by
        rw [List.flatMap_singleton, Stmt.tags_node, List.map_append]
        simpa [Tree.addStmt] using h.stmtFill.succ }

end Laid

/-! ## Expressions -/

namespace Expr

/-- Laying out `e` from `t` on gives `r`, and what has been laid out is `e'`. -/
structure LaidAs (e : Expr Line) (t : Tree) (r : ExprId × Tree) (e' : Expr Mark) : Prop where
  id : r.1 = e'.tag.id
  laid : Laid t r.2 [e'] [] e'.tags
  bare : e'.bare = e.bare

/-- Laying out `es` from `t` on gives `r`, and what has been laid out is `es'`. -/
structure LaidListAs (es : List (Expr Line)) (t : Tree) (r : List ExprId × Tree)
    (es' : List (Expr Mark)) : Prop where
  ids : r.1 = es'.map fun e => e.tag.id
  laid : Laid t r.2 es' [] (es'.flatMap tags)
  bare : es'.map Expr.bare = es.map Expr.bare

theorem layList_laid {es : List (Expr Line)}
    (h : ∀ e ∈ es, ∀ t, ∃ e', LaidAs e t ((lay e).run t) e') :
    ∀ t, ∃ es', LaidListAs es t ((layList es).run t) es' := by
  induction es with
  | nil =>
    refine fun t => ⟨[], ?_, ?_, rfl⟩
    · rw [layList]
      rfl
    · rw [layList]
      exact Laid.nil t
  | cons e es ih =>
    intro t
    obtain ⟨e', he⟩ := h e (by simp) t
    obtain ⟨es', hes⟩ := ih (fun a ha => h a (by simp [ha])) ((lay e).run t).2
    have run : (layList (e :: es)).run t =
        (((lay e).run t).1 :: ((layList es).run ((lay e).run t).2).1,
          ((layList es).run ((lay e).run t).2).2) := by
      rw [layList]
      rfl
    refine ⟨e' :: es', ?_, ?_, ?_⟩
    · rw [run, he.id, hes.ids, List.map_cons]
    · rw [run]
      simpa using he.laid.append hes.laid
    · rw [List.map_cons, List.map_cons, he.bare, hes.bare]

/-- A node is laid out behind its children. -/
theorem laidAs_put {shape : Shape (Expr Line)} {loose : List ExprId} {r : ExprId × Tree}
    (shape' : Shape (Expr Mark)) (h : Laid t t₁ es [] ms loose)
    (hl : Laid.Loose t₁ loose shape'.ids) (hc : shape'.children = es) (hm : es.flatMap tags = ms)
    (hr : r = t₁.addExpr ⟨shape'.ids, line⟩) (hb : shape'.map bare = shape.map bare) :
    ∃ e', LaidAs (node line shape) t r e' := by
  subst hr hc hm
  refine ⟨node ⟨t₁.exprs.size, line⟩ shape', rfl, h.putExpr hl line, ?_⟩
  rw [bare_node, bare_node, hb]

/-- An expression can be laid out behind any tree. -/
theorem lay_laid (e : Expr Line) : ∀ t, ∃ e', LaidAs e t ((lay e).run t) e' := by
  induction e using Expr.induction with
  | step line shape ih =>
    intro t
    cases shape with
    | binary l op r =>
      obtain ⟨l', hl⟩ := ih l (by simp) t
      obtain ⟨r', hr⟩ := ih r (by simp) ((lay l).run t).2
      refine laidAs_put (.binary l' op r') (hl.laid.append hr.laid) rfl rfl (by simp) ?_ ?_
      · rw [lay, Shape.ids, Shape.map, ← hl.id, ← hr.id]
        rfl
      · rw [Shape.map, Shape.map, hl.bare, hr.bare]
    | grouping e =>
      obtain ⟨e', he⟩ := ih e (by simp) t
      refine laidAs_put (.grouping e') he.laid rfl rfl (by simp) ?_ ?_
      · rw [lay, Shape.ids, Shape.map, ← he.id]
        rfl
      · rw [Shape.map, Shape.map, he.bare]
    | literal v =>
      refine laidAs_put (.literal v) (Laid.nil t) rfl rfl rfl ?_ rfl
      rw [lay]
      rfl
    | unary op e trailing =>
      obtain ⟨e', he⟩ := ih e (by simp) t
      refine laidAs_put (.unary op e' trailing) he.laid rfl rfl (by simp) ?_ ?_
      · rw [lay, Shape.ids, Shape.map, ← he.id]
        rfl
      · rw [Shape.map, Shape.map, he.bare]
    | name n =>
      refine laidAs_put (.name n) (Laid.nil t) rfl rfl rfl ?_ rfl
      rw [lay]
      rfl
    | assign n i v =>
      -- The target is laid out as a node of its own that no other node refers to.
      cases i with
      | none =>
        have start := (Laid.nil t).addExpr (n := ⟨.name n, n.line⟩) (by simp)
        obtain ⟨v', hv⟩ := ih v (by simp) (t.addExpr ⟨.name n, n.line⟩).2
        have htarget : ((lay v).run (t.addExpr ⟨.name n, n.line⟩).2).2.exprs[t.exprs.size]? =
            some ⟨.name n, n.line⟩ := hv.laid.grows.exprs _ _ (by simp [Tree.addExpr])
        refine laidAs_put (.assign n none v') (start.append hv.laid) ⟨_, rfl, htarget⟩ rfl
          (by simp) ?_ ?_
        · rw [lay, Shape.ids, Shape.map, ← hv.id]
          rfl
        · rw [Shape.map, Shape.map, hv.bare, Option.map_none, Option.map_none]
      | some i =>
        obtain ⟨i', hi⟩ := ih i (by simp) t
        have start := hi.laid.addExpr (n := ⟨.element n ((lay i).run t).1, n.line⟩)
          (by simpa [hi.id] using (hi.laid.exprBounds (tag_mem_tags i')).2)
        obtain ⟨v', hv⟩ := ih v (by simp)
          (((lay i).run t).2.addExpr ⟨.element n ((lay i).run t).1, n.line⟩).2
        refine laidAs_put (.assign n (some i') v') (start.append hv.laid) ⟨_, rfl, ?_⟩ rfl
          (by simp) ?_ ?_
        · refine hv.laid.grows.exprs _ _ ?_
          simp [Tree.addExpr, hi.id, Shape.target]
        · rw [lay, Shape.ids, Shape.map, Option.map_some, ← hi.id, ← hv.id]
          rfl
        · rw [Shape.map, Shape.map, hv.bare, Option.map_some, Option.map_some, hi.bare]
    | call n args =>
      obtain ⟨args', ha⟩ := layList_laid ih t
      refine laidAs_put (.call n args') ha.laid rfl rfl rfl ?_ ?_
      · rw [lay, Shape.ids, Shape.map, ← ha.ids]
        rfl
      · rw [Shape.map, Shape.map, ha.bare]
        rfl
    | element n i =>
      obtain ⟨i', hi⟩ := ih i (by simp) t
      refine laidAs_put (.element n i') hi.laid rfl rfl (by simp) ?_ ?_
      · rw [lay, Shape.ids, Shape.map, ← hi.id]
        rfl
      · rw [Shape.map, Shape.map, hi.bare]
    | braces es =>
      obtain ⟨es', he⟩ := layList_laid ih t
      refine laidAs_put (.braces es') he.laid rfl rfl rfl ?_ ?_
      · rw [lay, Shape.ids, Shape.map, ← he.ids]
        rfl
      · rw [Shape.map, Shape.map, he.bare]
        rfl
    | random k e =>
      obtain ⟨e', he⟩ := ih e (by simp) t
      refine laidAs_put (.random k e') he.laid rfl rfl (by simp) ?_ ?_
      · rw [lay, Shape.ids, Shape.map, ← he.id]
        rfl
      · rw [Shape.map, Shape.map, he.bare]

/-- Optional expressions are laid out as a list of at most one. -/
theorem layOption_laid (e : Option (Expr Line)) (t : Tree) :
    ∃ e' : Option (Expr Mark), ((layOption e).run t).1 = e'.map (fun e => e.tag.id) ∧
      Laid t ((layOption e).run t).2 e'.toList [] (e'.toList.flatMap tags) ∧
      e'.map bare = e.map bare := by
  cases e with
  | none => exact ⟨none, rfl, Laid.nil t, rfl⟩
  | some e =>
    obtain ⟨e', he⟩ := lay_laid e t
    refine ⟨some e', ?_, ?_, ?_⟩
    · exact congrArg some he.id
    · have hm : ((some e').toList.flatMap tags) = e'.tags := by simp
      rw [hm]
      exact he.laid
    · exact congrArg some he.bare

end Expr

/-! ## Statements -/

namespace Stmt

/-- Laying out `s` from `t` on gives `r`, and what has been laid out is `s'`. -/
structure LaidAs (s : Stmt Line) (t : Tree) (r : StmtId × Tree) (s' : Stmt Mark) : Prop where
  id : r.1 = s'.tag.id
  laid : Laid t r.2 [] [s'] s'.exprTags
  bare : s'.bare = s.bare

/-- A node is laid out behind its parts. -/
theorem laidAs_put {shape : Shape (Stmt Line) (Expr Line)} {r : StmtId × Tree}
    (shape' : Shape (Stmt Mark) (Expr Mark)) (h : Laid t t₁ es ss ms) (he : shape'.exprs = es)
    (hs : shape'.children = ss)
    (hm : (node (τ := Mark) ⟨t₁.stmts.size, line⟩ shape').exprTags = ms)
    (hr : r = t₁.addStmt ⟨shape'.ids, line⟩)
    (hb : shape'.map bare Expr.bare = shape.map bare Expr.bare) :
    ∃ s', LaidAs (node line shape) t r s' := by
  subst hr he hs hm
  refine ⟨node ⟨t₁.stmts.size, line⟩ shape', rfl, h.putStmt, ?_⟩
  rw [bare_node, bare_node, hb]

theorem layList_laid {ss : List (Stmt Line)}
    (h : ∀ s ∈ ss, ∀ t, ∃ s', LaidAs s t ((lay s).run t) s') :
    ∀ t, ∃ ss' : List (Stmt Mark), ((layList ss).run t).1 = ss'.map (fun s => s.tag.id) ∧
      Laid t ((layList ss).run t).2 [] ss' (ss'.flatMap exprTags) ∧
      ss'.map bare = ss.map bare := by
  induction ss with
  | nil =>
    refine fun t => ⟨[], ?_, ?_, rfl⟩
    · rw [layList]
      rfl
    · rw [layList]
      exact Laid.nil t
  | cons s ss ih =>
    intro t
    obtain ⟨s', hs⟩ := h s (by simp) t
    obtain ⟨ss', hids, hlaid, hbare⟩ := ih (fun s hs => h s (by simp [hs])) ((lay s).run t).2
    refine ⟨s' :: ss', ?_, ?_, ?_⟩
    · rw [layList, List.map_cons, ← hs.id, ← hids]
      rfl
    · rw [layList, List.flatMap_cons]
      exact hs.laid.append hlaid
    · rw [List.map_cons, List.map_cons, hs.bare, hbare]

theorem layBranches_laid {bs : List (Expr Line × Stmt Line)}
    (h : ∀ b ∈ bs, ∀ t, ∃ s', LaidAs b.2 t ((lay b.2).run t) s') :
    ∀ t, ∃ bs' : List (Expr Mark × Stmt Mark),
      ((layBranches bs).run t).1 = bs'.map (fun b => (b.1.tag.id, b.2.tag.id)) ∧
      Laid t ((layBranches bs).run t).2 (bs'.map Prod.fst) (bs'.map Prod.snd)
        (bs'.flatMap fun b => b.1.tags ++ b.2.exprTags) ∧
      (bs'.map fun b => (b.1.bare, b.2.bare)) = bs.map fun b => (b.1.bare, b.2.bare) := by
  induction bs with
  | nil =>
    refine fun t => ⟨[], ?_, ?_, rfl⟩
    · rw [layBranches]
      rfl
    · rw [layBranches]
      exact Laid.nil t
  | cons b bs ih =>
    intro t
    obtain ⟨c, s⟩ := b
    obtain ⟨c', hc⟩ := c.lay_laid t
    obtain ⟨s', hs⟩ := h (c, s) (by simp) (c.lay.run t).2
    obtain ⟨bs', hids, hlaid, hbare⟩ :=
      ih (fun b hb => h b (by simp [hb])) ((lay s).run (c.lay.run t).2).2
    refine ⟨(c', s') :: bs', ?_, ?_, ?_⟩
    · rw [layBranches, List.map_cons, ← hc.id, ← hs.id, ← hids]
      rfl
    · rw [layBranches, List.flatMap_cons]
      exact (hc.laid.append hs.laid).append hlaid
    · rw [List.map_cons, List.map_cons, hbare, hc.bare, hs.bare]

theorem layOption_laid {s : Option (Stmt Line)}
    (h : ∀ a ∈ s, ∀ t, ∃ s', LaidAs a t ((lay a).run t) s') (t : Tree) :
    ∃ s' : Option (Stmt Mark), ((layOption s).run t).1 = s'.map (fun s => s.tag.id) ∧
      Laid t ((layOption s).run t).2 [] s'.toList (s'.toList.flatMap exprTags) ∧
      s'.map bare = s.map bare := by
  cases s with
  | none =>
    refine ⟨none, ?_, ?_, rfl⟩
    · rw [layOption]
      rfl
    · rw [layOption]
      exact Laid.nil t
  | some s =>
    obtain ⟨s', hs⟩ := h s rfl t
    refine ⟨some s', ?_, ?_, ?_⟩
    · rw [layOption]
      exact congrArg some hs.id
    · have hm : (some s').toList.flatMap exprTags = s'.exprTags := by simp
      rw [hm, layOption]
      exact hs.laid
    · exact congrArg some hs.bare

/-- A statement can be laid out behind any tree. -/
theorem lay_laid (s : Stmt Line) : ∀ t, ∃ s', LaidAs s t ((lay s).run t) s' := by
  induction s using Stmt.induction with
  | step line shape ih =>
    intro t
    cases shape with
    | block body =>
      obtain ⟨body', hids, hlaid, hbare⟩ := layList_laid ih t
      refine laidAs_put (.block body') hlaid rfl rfl ?_ ?_ ?_
      · rw [exprTags, exprTagsList_eq]
      · rw [lay, Shape.ids, Shape.map, ← hids]
        rfl
      · exact congrArg Shape.block hbare
    | ret k v =>
      obtain ⟨v', hid, hlaid, hbare⟩ := Expr.layOption_laid v t
      refine laidAs_put (.ret k v') hlaid rfl rfl rfl ?_ ?_
      · rw [lay, Shape.ids, Shape.map, ← hid]
        rfl
      · rw [Shape.map, Shape.map, hbare]
    | expression e =>
      obtain ⟨e', he⟩ := e.lay_laid t
      refine laidAs_put (.expression e') he.laid rfl rfl rfl ?_ ?_
      · rw [lay, Shape.ids, Shape.map, ← he.id]
        rfl
      · rw [Shape.map, Shape.map, he.bare]
    | choice branches otherwise =>
      have ihb : ∀ b ∈ branches, ∀ t, ∃ s', LaidAs b.2 t ((lay b.2).run t) s' := fun b hb =>
        ih b.2 (List.mem_append_left _ (List.mem_map_of_mem hb))
      have iho : ∀ s ∈ otherwise, ∀ t, ∃ s', LaidAs s t ((lay s).run t) s' := fun s hs =>
        ih s (List.mem_append_right _ (Option.mem_toList.mpr hs))
      obtain ⟨bs, hbids, hblaid, hbbare⟩ := layBranches_laid ihb t
      obtain ⟨o, hoid, holaid, hobare⟩ := layOption_laid iho ((layBranches branches).run t).2
      refine laidAs_put (.choice bs o) (hblaid.append holaid) (by simp) rfl ?_ ?_ ?_
      · rw [exprTags, exprTagsBranches_eq, exprTagsOption_eq]
      · rw [lay, Shape.ids, Shape.map, ← hbids, ← hoid]
        rfl
      · rw [Shape.map, Shape.map, hbbare, hobare]
    | whileLoop c body =>
      obtain ⟨c', hc⟩ := c.lay_laid t
      obtain ⟨b', hb⟩ := ih body (by simp) (c.lay.run t).2
      refine laidAs_put (.whileLoop c' b') (hc.laid.append hb.laid) rfl rfl rfl ?_ ?_
      · rw [lay, Shape.ids, Shape.map, ← hc.id, ← hb.id]
        rfl
      · rw [Shape.map, Shape.map, hc.bare, hb.bare]
    | forLoop init c u body =>
      have ihi : ∀ s ∈ init, ∀ t, ∃ s', LaidAs s t ((lay s).run t) s' := fun s hs =>
        ih s (List.mem_append_left _ (Option.mem_toList.mpr hs))
      obtain ⟨i', hiid, hilaid, hibare⟩ := layOption_laid ihi t
      obtain ⟨c', hcid, hclaid, hcbare⟩ := Expr.layOption_laid c ((layOption init).run t).2
      obtain ⟨u', huid, hulaid, hubare⟩ := Expr.layOption_laid u
        ((Expr.layOption c).run ((layOption init).run t).2).2
      obtain ⟨b', hb⟩ := ih body (by simp)
        ((Expr.layOption u).run ((Expr.layOption c).run ((layOption init).run t).2).2).2
      refine laidAs_put (.forLoop i' c' u' b')
        (((hilaid.append hclaid).append hulaid).append hb.laid) (by simp)
        (by simp) ?_ ?_ ?_
      · rw [exprTags, exprTagsOption_eq]
        rfl
      · rw [lay, Shape.ids, Shape.map, ← hiid, ← hcid, ← huid, ← hb.id]
        rfl
      · rw [Shape.map, Shape.map, hibare, hcbare, hubare, hb.bare]
    | output k vs =>
      obtain ⟨vs', hv⟩ := Expr.layList_laid (fun e (_ : e ∈ vs) => e.lay_laid) t
      refine laidAs_put (.output k vs') hv.laid rfl rfl rfl ?_ ?_
      · rw [lay, Shape.ids, Shape.map, ← hv.ids]
        rfl
      · rw [Shape.map, Shape.map, hv.bare]
    | input n =>
      refine laidAs_put (.input n) (Laid.nil t) rfl rfl rfl ?_ rfl
      rw [lay]
      rfl
    | var n type init =>
      obtain ⟨i', hid, hlaid, hbare⟩ := Expr.layOption_laid init t
      refine laidAs_put (.var n type i') hlaid rfl rfl rfl ?_ ?_
      · rw [lay, Shape.ids, Shape.map, ← hid]
        rfl
      · rw [Shape.map, Shape.map, hbare]
    | array n type length init =>
      obtain ⟨i', hid, hlaid, hbare⟩ := Expr.layOption_laid init t
      refine laidAs_put (.array n type length i') hlaid rfl rfl rfl ?_ ?_
      · rw [lay, Shape.ids, Shape.map, ← hid]
        rfl
      · rw [Shape.map, Shape.map, hbare]
    | stop k =>
      refine laidAs_put (.stop k) (Laid.nil t) rfl rfl rfl ?_ rfl
      rw [lay]
      rfl
    | skip k =>
      refine laidAs_put (.skip k) (Laid.nil t) rfl rfl rfl ?_ rfl
      rw [lay]
      rfl

end Stmt

/-! ## Functions -/

/-- The function with the number of its body. -/
def Function.ids (f : Function (Stmt Mark)) : Function StmtId :=
  { f with body := f.body.tag.id }

theorem Tree.grows_functions (t : Tree) (F : Array (Function StmtId)) :
    t.Grows { t with functions := F } :=
  ⟨fun _ _ h => h, fun _ _ h => h, fun _ _ h => .inl h, fun _ _ h => .inl h⟩

/-- What is laid out does not depend on the functions there are. -/
theorem Laid.withFunctions (h : Laid t t' es ss ms) (F : Array (Function StmtId)) :
    Laid { t with functions := F } { t' with functions := F } es ss ms where
  grows := ⟨h.grows.exprs, h.grows.stmts, h.grows.exprs_lt, h.grows.stmts_lt⟩
  functions := rfl
  exprs e he := ⟨(h.exprs e he).1.grows (t'.grows_functions F), (h.exprs e he).2⟩
  stmts s hs := (h.stmts s hs).grows s (t'.grows_functions F)
  exprIds := h.exprIds
  exprFill := h.exprFill_of_grows (t'.grows_functions F)
  stmtIds := h.stmtIds
  stmtFill := h.stmtFill

/-- Functions can be laid out behind any tree. -/
theorem layFunctions_laid (fs : List (Function (Stmt Line))) : ∀ t : Tree,
    ∃ vs : List (Function (Stmt Mark)),
      ((layFunctions fs).run t).2.functions = t.functions ++ (vs.map Function.ids).toArray ∧
      Laid t { ((layFunctions fs).run t).2 with functions := t.functions } []
        (vs.map Function.body) ((vs.map Function.body).flatMap Stmt.exprTags) ∧
      vs.map Function.bare = fs.map Function.bare := by
  induction fs with
  | nil =>
    refine fun t => ⟨[], ?_, ?_, rfl⟩
    · rw [layFunctions, List.map_nil, Array.append_empty]
      rfl
    · rw [layFunctions]
      exact Laid.nil t
  | cons f fs ih =>
    intro t
    obtain ⟨body, hb⟩ := f.body.lay_laid t
    obtain ⟨vs, hfun, hlaid, hbare⟩ := ih (f.lay.run t).2
    have hpush : (f.lay.run t).2.functions =
        t.functions.push ({ f with body := body } : Function (Stmt Mark)).ids := by
      rw [Function.ids, ← hb.id, ← hb.laid.functions]
      rfl
    have hsame : { (f.lay.run t).2 with functions := t.functions } = (f.body.lay.run t).2 := by
      rw [← hb.laid.functions]
      rfl
    refine ⟨{ f with body := body } :: vs, ?_, ?_, ?_⟩
    · rw [layFunctions, List.map_cons]
      refine hfun.trans ?_
      rw [hpush, Array.push_eq_append, Array.append_assoc]
      simp
    · rw [layFunctions, List.map_cons, List.flatMap_cons]
      have hrest := hlaid.withFunctions t.functions
      rw [hsame] at hrest
      exact hb.laid.append hrest
    · rw [List.map_cons, List.map_cons, hbare, Function.bare, Function.bare, hb.bare]

/-! ## Views -/

/-- Every function of the tree is in view, and no two places in view have the same node. -/
structure Tree.Orderly (t : Tree) : Prop where
  ids : t.views.map Prod.fst = List.range t.functions.size
  functions : ∀ v ∈ t.views, t.functions[v.1]? = some v.2.ids
  held : ∀ v ∈ t.views, v.2.body.Held t
  stmtIds : Mark.Ascending (t.views.flatMap fun v => v.2.body.tags)
  exprIds : Mark.Ascending (t.views.flatMap fun v => v.2.body.exprTags)
  formed : ∀ v ∈ t.views, v.2.Formed

/-- Every node of the tree is at one place in view, but for the targets of assignments. -/
structure Tree.Filled (t : Tree) : Prop where
  grows : Grows { functions := t.functions } t
  stmts : Fills 0 t.stmts.size ((t.views.flatMap fun v => v.2.body.tags).map Mark.id)
  exprs : ∃ ps, Fills 0 t.exprs.size
      ((t.views.flatMap fun v => v.2.body.exprTags).map Mark.id ++ ps.map Prod.snd) ∧
    t.Targets ((t.views.flatMap fun v => v.2.body.exprTags).map Mark.id) ps

theorem filterMap_range_getElem? (as : List α) :
    (List.range as.length).filterMap (fun i => as[i]?.map (i, ·)) = as.zipIdx.map Prod.swap := by
  induction as using List.reverseRecOn with
  | nil => rfl
  | append_singleton as a ih =>
    rw [List.length_append, List.length_singleton, List.range_succ, List.filterMap_append,
      List.zipIdx_append, List.map_append, ← ih]
    congr 1
    · refine List.filterMap_congr fun i hi => ?_
      rw [List.getElem?_append_left (List.mem_range.mp hi)]
    · simp

/-- A program that is laid out is orderly and filled, and its views are the functions that were laid
out. -/
theorem orderly_layFunctions (h : ∀ f ∈ fs, f.Formed) :
    ((layFunctions fs).run {}).2.Orderly ∧ ((layFunctions fs).run {}).2.Filled ∧
      (((layFunctions fs).run {}).2.views.map fun v => v.2.bare) = fs.map Function.bare := by
  obtain ⟨vs, hfun, hlaid, hbare⟩ := layFunctions_laid fs {}
  generalize ((layFunctions fs).run {}).2 = t at *
  have hlaid : Laid { functions := t.functions } t [] _ _ := hlaid.withFunctions t.functions
  have hheld : ∀ f ∈ vs, f.body.Held t := fun f hf => hlaid.stmts f.body (List.mem_map_of_mem hf)
  have hasc : ∀ f ∈ vs, Mark.Ascending f.body.tags := fun f hf => by
    obtain ⟨as, bs, hab⟩ := List.append_of_mem hf
    have := hlaid.stmtIds
    rw [hab, List.map_append, List.flatMap_append, List.map_cons, List.flatMap_cons] at this
    exact (List.pairwise_append.mp (List.pairwise_append.mp this).2.1).1
  have hfunctions : t.functions.toList = vs.map Function.ids := by simp [hfun]
  have hsize : t.functions.size = vs.length := by simp [hfun]
  -- The views are read off the nodes again, in the order of the functions.
  have hview : ∀ i, t.function? i = vs[i]? := by
    intro i
    rw [Tree.function?, ← Array.getElem?_toList, hfunctions, List.getElem?_map]
    cases hi : vs[i]? with
    | none => rfl
    | some f =>
      have hf := List.mem_of_getElem? hi
      have := Stmt.stmt?_of_held (hheld f hf) (hasc f hf)
      simp [Function.ids, this]
  have hviews : t.views = vs.zipIdx.map Prod.swap := by
    rw [Tree.views, hsize, funext hview]
    exact filterMap_range_getElem? vs
  have hfst : t.views.map Prod.fst = List.range vs.length := by
    simp [hviews, Function.comp_def, List.range_eq_range']
  have hsnd : t.views.map Prod.snd = vs := by
    simp [hviews, Function.comp_def]
  have hmem : ∀ v ∈ t.views, vs[v.1]? = some v.2 := by
    intro v hv
    rw [hviews, List.mem_map] at hv
    obtain ⟨w, hw, rfl⟩ := hv
    exact List.mem_zipIdx_iff_getElem?.mp hw
  have flat : ∀ F : Stmt Mark → List Mark,
      (t.views.flatMap fun v => F v.2.body) = (vs.map Function.body).flatMap F := by
    intro F
    rw [← hsnd, List.map_map, List.flatMap_map]
    rfl
  refine ⟨?_, ⟨hlaid.grows, ?_, ?_⟩, by rw [← hbare, ← hsnd, List.map_map]; rfl⟩
  rotate_left
  · rw [flat Stmt.tags]
    exact hlaid.stmtFill
  · rw [flat Stmt.exprTags]
    simpa using hlaid.exprFill
  exact
    { ids := by rw [hfst, hsize]
      functions := fun v hv => by
        rw [← Array.getElem?_toList, hfunctions, List.getElem?_map, hmem v hv]
        rfl
      held := fun v hv => hheld v.2 (List.mem_of_getElem? (hmem v hv))
      stmtIds := (flat Stmt.tags).symm ▸ hlaid.stmtIds
      exprIds := (flat Stmt.exprTags).symm ▸ hlaid.exprIds
      formed := fun v hv => by
        obtain ⟨f, hf, hvf⟩ : ∃ f ∈ fs, f.bare = v.2.bare := by
          have : v.2.bare ∈ fs.map Function.bare :=
            hbare ▸ List.mem_map_of_mem (List.mem_of_getElem? (hmem v hv))
          exact List.mem_map.mp this
        exact (h f hf).of_bare hvf }

/-- What is in view in a program are the functions that were parsed. -/
theorem Program.views_of_functions {tokens : List Token} {c : Cursor}
    (h : Parse.functions (.start tokens) = .ok (fs, c)) (hfs : ∀ f ∈ fs, f.Formed) :
    parse tokens = .ok (ofFunctions fs) ∧ (ofFunctions fs).tree.Orderly ∧
      ((ofFunctions fs).tree.views.map fun v => v.2.bare) = fs.map Function.bare := by
  refine ⟨?_, (orderly_layFunctions hfs).1, (orderly_layFunctions hfs).2.2⟩
  rw [parse, show Parse.functions.run (.start tokens) = .ok (fs, c) from h]
  rfl

/-- A result that passes a test is there. -/
theorem any_toOption_iff {ε : Type} {x : Except ε α} {p : α → Bool} :
    x.toOption.any p = true ↔ ∃ a, x = .ok a ∧ p a = true := by
  cases x <;> simp [Except.toOption]

end StackLang
