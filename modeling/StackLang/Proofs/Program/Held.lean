import StackLang.Proofs.Tree.Induction

/-!
# Trees that are held

A nested tree is held by a flat one if every node of it stands, under its number, in the flat tree.
A held tree whose numbers increase from the leaves to the root is what the view of its root shows.

* `Expr.expr?_of_held`, `Stmt.stmt?_of_held` — the view of the root of a held tree is the tree.
-/

namespace StackLang

variable {m : Mark} {α β : Type} {f : α → β} {g : β → Option α}

/-- The marks have increasing numbers. -/
def Mark.Ascending (marks : List Mark) : Prop :=
  marks.Pairwise fun a b => a.id < b.id

/-! ## Expressions -/

namespace Expr

variable {t : Tree} {e : Expr Mark}

/-- Replaces the children of a node. -/
def Shape.map {α β : Type} (f : α → β) : Shape α → Shape β
  | binary l op r => binary (f l) op (f r)
  | grouping e => grouping (f e)
  | literal v => literal v
  | unary op e trailing => unary op (f e) trailing
  | name n => name n
  | assign n i v => assign n (i.map f) (f v)
  | call n args => call n (args.map f)
  | element n i => element n (f i)
  | braces es => braces (es.map f)
  | random k e => random k (f e)

theorem mapM_map_eq_some {as : List α} (h : ∀ a ∈ as, g (f a) = some a) :
    (as.map f).mapM g = some as := by
  induction as with
  | nil => rfl
  | cons a as ih =>
    rw [List.map_cons, List.mapM_cons, h a (by simp), ih fun b hb => h b (by simp [hb])]
    rfl

/-- Children that can be told from their replacements can be put back. -/
theorem Shape.traverse_map {shape : Shape α} (h : ∀ a ∈ shape.children, g (f a) = some a) :
    (shape.map f).traverse g = some shape := by
  cases shape with
  | assign n i v =>
    cases i <;> simp at h <;> simp [Shape.map, Shape.traverse, h]
  | call n args | braces es =>
    simp only [Shape.children] at h
    rw [Shape.map, Shape.traverse, mapM_map_eq_some h]
    rfl
  | _ =>
    simp at h
    simp [Shape.map, Shape.traverse, h]

/-- The shape with the numbers of the children. -/
def Shape.ids (shape : Shape (Expr Mark)) : Shape ExprId :=
  shape.map fun e => e.tag.id

/-- Every node of the expression stands in the tree. -/
def Held (t : Tree) (e : Expr Mark) : Prop :=
  e.All fun m shape => t.exprs[m.id]? = some ⟨shape.ids, m.line⟩

theorem Held.lt_size (h : e.Held t) : e.tag.id < t.exprs.size := by
  cases h with
  | node root _ => exact (Array.getElem?_eq_some_iff.mp root).1

theorem Held.lt_size_of_mem (h : e.Held t) (hm : m ∈ e.tags) : m.id < t.exprs.size := by
  induction e using Expr.induction with
  | step u shape ih =>
    rw [tags_node, List.mem_append, List.mem_flatMap, List.mem_singleton] at hm
    rcases hm with ⟨e, he, hm⟩ | rfl
    · exact ih e he (h.child e he) hm
    · exact h.lt_size

theorem ascending_child {shape : Shape (Expr Mark)} (h : Mark.Ascending (node m shape).tags)
    (he : e ∈ shape.children) : Mark.Ascending e.tags ∧ e.tag.id < m.id := by
  rw [Mark.Ascending, tags_node, List.pairwise_append] at h
  refine ⟨?_, h.2.2 e.tag (List.mem_flatMap.mpr ⟨e, he, tag_mem_tags e⟩) m (by simp)⟩
  refine List.Pairwise.sublist ?_ h.1
  obtain ⟨as, bs, hab⟩ := List.append_of_mem he
  rw [hab, List.flatMap_append, List.flatMap_cons]
  exact List.Sublist.trans (List.sublist_append_left _ _) (List.sublist_append_right _ _)

theorem exprWithin_of_held (e : Expr Mark) (h : e.Held t) (ha : Mark.Ascending e.tags) :
    ∀ fuel, e.tag.id < fuel →
      t.exprWithin fuel e.tag.id = some e := by
  induction e using Expr.induction with
  | step m shape ih =>
    intro fuel hf
    cases fuel with
    | zero => omega
    | succ fuel =>
      have hc : shape.ids.traverse (t.exprWithin fuel) = some shape := by
        refine Shape.traverse_map fun c hc => ?_
        obtain ⟨hac, hlt⟩ := ascending_child ha hc
        exact ih c hc (h.child c hc) hac fuel (by simp only [tag] at hf; omega)
      simp only [tag] at hf ⊢
      rw [Tree.exprWithin, h.root]
      simp [hc]

/-- The view of the root of a held expression is the expression. -/
theorem expr?_of_held (h : e.Held t) (ha : Mark.Ascending e.tags) : t.expr? e.tag.id = some e :=
  exprWithin_of_held e h ha _ h.lt_size

end Expr

/-! ## Statements -/

namespace Stmt

variable {t : Tree} {s : Stmt Mark}

/-- Replaces the sub-statements by `f` and the expressions by `g`. -/
def Shape.map {α β γ δ : Type} (f : α → β) (g : γ → δ) : Shape α γ → Shape β δ
  | block body => block (body.map f)
  | ret k v => ret k (v.map g)
  | expression e => expression (g e)
  | choice branches otherwise =>
    choice (branches.map fun b => (g b.1, f b.2)) (otherwise.map f)
  | whileLoop c b => whileLoop (g c) (f b)
  | forLoop i c u b => forLoop (i.map f) (c.map g) (u.map g) (f b)
  | output k vs => output k (vs.map g)
  | input n => input n
  | var n t i => var n t (i.map g)
  | array n t len i => array n t len (i.map g)
  | stop k => stop k
  | skip k => skip k

theorem traverseOption_map {a : Option α} (h : ∀ x ∈ a, g (f x) = some x) :
    Shape.traverseOption g (a.map f) = some a := by
  cases a with
  | none => rfl
  | some x => simp [Shape.traverseOption, h x rfl]

/-- Children that can be told from their replacements can be put back. -/
theorem Shape.traverse_map {γ δ : Type} {f' : β → Option α} {g : γ → δ} {g' : δ → Option γ}
    {shape : Shape α γ} (hf : ∀ a ∈ shape.children, f' (f a) = some a)
    (hg : ∀ a ∈ shape.exprs, g' (g a) = some a) : (shape.map f g).traverse f' g' = some shape := by
  cases shape with
  | block body =>
    simp only [Shape.children] at hf
    rw [Shape.map, Shape.traverse, Expr.mapM_map_eq_some hf]
    rfl
  | ret k v =>
    simp only [Shape.exprs, Option.mem_toList] at hg
    rw [Shape.map, Shape.traverse, traverseOption_map hg]
    rfl
  | choice branches otherwise =>
    simp only [Shape.children, Shape.exprs, List.mem_append, List.mem_map,
      Option.mem_toList] at hf hg
    have hb : (branches.map fun b => (g b.1, f b.2)).mapM
        (fun b => do return (← g' b.1, ← f' b.2)) = some branches := by
      refine Expr.mapM_map_eq_some fun b hb => ?_
      rw [hg b.1 ⟨b, hb, rfl⟩, hf b.2 (Or.inl ⟨b, hb, rfl⟩)]
      rfl
    have ho := traverseOption_map fun x hx => hf x (Or.inr hx)
    simp only [Shape.map, Shape.traverse]
    rw [hb, ho]
    rfl
  | forLoop i c u b =>
    simp only [Shape.children, Shape.exprs, List.mem_append, Option.mem_toList,
      List.mem_singleton] at hf hg
    simp [Shape.map, Shape.traverse, traverseOption_map fun x hx => hf x (Or.inl hx),
      traverseOption_map fun x hx => hg x (Or.inl hx),
      traverseOption_map fun x hx => hg x (Or.inr hx), hf b (Or.inr rfl)]
  | output k vs =>
    simp only [Shape.exprs] at hg
    rw [Shape.map, Shape.traverse, Expr.mapM_map_eq_some hg]
    rfl
  | var n t i | array n t len i =>
    simp only [Shape.exprs, Option.mem_toList] at hg
    rw [Shape.map, Shape.traverse, traverseOption_map hg]
    rfl
  | _ =>
    simp at hf hg
    simp [Shape.map, Shape.traverse, hf, hg]

/-- The shape with the numbers of its parts. -/
def Shape.ids (shape : Shape (Stmt Mark) (Expr Mark)) : Shape StmtId ExprId :=
  shape.map (fun s => s.tag.id) fun e => e.tag.id

/-- Every node of the statement and of its expressions stands in the tree. -/
def Held (t : Tree) (s : Stmt Mark) : Prop :=
  s.All fun m shape =>
    t.stmts[m.id]? = some ⟨shape.ids, m.line⟩ ∧
      ∀ e ∈ shape.exprs, e.Held t ∧ Mark.Ascending e.tags

theorem Held.lt_size (h : s.Held t) : s.tag.id < t.stmts.size := by
  cases h with
  | node root _ => exact (Array.getElem?_eq_some_iff.mp root.1).1

theorem Held.lt_size_of_mem (h : s.Held t) (hm : m ∈ s.tags) : m.id < t.stmts.size := by
  obtain ⟨shape, hshape⟩ := exists_shape_of_mem_tags hm
  exact (Array.getElem?_eq_some_iff.mp (hshape _ h).1).1

theorem Held.expr_lt_size_of_mem (h : s.Held t) (hm : m ∈ s.exprTags) : m.id < t.exprs.size := by
  induction s using Stmt.induction with
  | step u shape ih =>
    rcases mem_exprTags_node.mp hm with ⟨e, he, hm⟩ | ⟨s, hs, hm⟩
    · exact (h.root.2 e he).1.lt_size_of_mem hm
    · exact ih s hs (h.child s hs) hm

theorem ascending_child {shape : Shape (Stmt Mark) (Expr Mark)}
    (h : Mark.Ascending (node m shape).tags) (hs : s ∈ shape.children) :
    Mark.Ascending s.tags ∧ s.tag.id < m.id := by
  rw [Mark.Ascending, tags_node, List.pairwise_append] at h
  refine ⟨?_, h.2.2 s.tag (List.mem_flatMap.mpr ⟨s, hs, tag_mem_tags s⟩) m (by simp)⟩
  refine List.Pairwise.sublist ?_ h.1
  obtain ⟨as, bs, hab⟩ := List.append_of_mem hs
  rw [hab, List.flatMap_append, List.flatMap_cons]
  exact List.Sublist.trans (List.sublist_append_left _ _) (List.sublist_append_right _ _)

theorem stmtWithin_of_held (s : Stmt Mark) (h : s.Held t) (ha : Mark.Ascending s.tags) :
    ∀ fuel, s.tag.id < fuel →
      t.stmtWithin fuel s.tag.id = some s := by
  induction s using Stmt.induction with
  | step m shape ih =>
    intro fuel hf
    cases fuel with
    | zero => omega
    | succ fuel =>
      have hc : shape.ids.traverse (t.stmtWithin fuel) t.expr? = some shape := by
        refine Shape.traverse_map (fun c hc => ?_) fun e he => ?_
        · obtain ⟨hac, hlt⟩ := ascending_child ha hc
          exact ih c hc (h.child c hc) hac fuel (by simp only [tag] at hf; omega)
        · exact Expr.expr?_of_held (h.root.2 e he).1 (h.root.2 e he).2
      simp only [tag] at hf ⊢
      rw [Tree.stmtWithin, h.root.1]
      simp [hc]

/-- The view of the root of a held statement is the statement. -/
theorem stmt?_of_held (h : s.Held t) (ha : Mark.Ascending s.tags) : t.stmt? s.tag.id = some s :=
  stmtWithin_of_held s h ha _ h.lt_size

end Stmt

end StackLang
