import Mathlib.Data.List.Perm.Basic
import StackLang.Program.View

/-!
# Induction over trees

Expressions and statements are nested through lists and options.  Here they get one induction
principle each, over the list of the children of a node, and predicates that hold at every node.

* `Expr.All Q` and `Stmt.All Q` — `Q` holds of the tag and the shape of every node.
* `Expr.tags_node`, `Stmt.tags_node` — the tags of a node are those of its children, then its own.
-/

namespace StackLang

/-! ## Expressions -/

namespace Expr

variable {τ : Type}

/-- The sub-expressions, in source order. -/
@[simp] def Shape.children {ε : Type} : Shape ε → List ε
  | binary l _ r => [l, r]
  | grouping e => [e]
  | literal _ => []
  | unary _ e _ => [e]
  | name _ => []
  | assign _ none v => [v]
  | assign _ (some i) v => [i, v]
  | call _ args => args
  | element _ i => [i]
  | braces es => es
  | random _ e => [e]

theorem sizeOf_child_lt {t : τ} {shape : Shape (Expr τ)} {e : Expr τ} (h : e ∈ shape.children) :
    sizeOf e < sizeOf (node t shape) := by
  cases shape with
  | binary l op r => simp at h; rcases h with rfl | rfl <;> simp <;> omega
  | grouping e => simp at h; subst h; simp; omega
  | literal v => simp at h
  | unary op e trailing => simp at h; subst h; simp; omega
  | name n => simp at h
  | assign n i v =>
    cases i with
    | none => simp at h; subst h; simp; omega
    | some i => simp at h; rcases h with rfl | rfl <;> simp <;> omega
  | call n args =>
    have : sizeOf e < sizeOf args := List.sizeOf_lt_of_mem h
    simp
    omega
  | element n i => simp at h; subst h; simp; omega
  | braces es =>
    have : sizeOf e < sizeOf es := List.sizeOf_lt_of_mem h
    simp
    omega
  | random k e => simp at h; subst h; simp; omega

/-- What a node inherits from its children holds everywhere. -/
theorem induction {P : Expr τ → Prop}
    (step : ∀ t shape, (∀ e ∈ shape.children, P e) → P (node t shape)) : ∀ e, P e
  | node t shape => step t shape fun e _he => induction step e
termination_by e => sizeOf e
decreasing_by exact sizeOf_child_lt _he

/-- `Q` holds of the tag and the shape of every node. -/
inductive All (Q : τ → Shape (Expr τ) → Prop) : Expr τ → Prop where
  | node {t : τ} {shape : Shape (Expr τ)} (root : Q t shape)
    (children : ∀ e ∈ shape.children, All Q e) : All Q (node t shape)

theorem All.root {Q : τ → Shape (Expr τ) → Prop} {t : τ} {shape : Shape (Expr τ)}
    (h : All Q (Expr.node t shape)) : Q t shape := by
  cases h
  assumption

theorem All.child {Q : τ → Shape (Expr τ) → Prop} {t : τ} {shape : Shape (Expr τ)}
    (h : All Q (Expr.node t shape)) : ∀ e ∈ shape.children, All Q e := by
  cases h
  assumption

/-! ### Tags -/

theorem tagsList_eq (es : List (Expr τ)) : tagsList es = es.flatMap tags := by
  induction es with
  | nil => rfl
  | cons e es ih => rw [tagsList, ih, List.flatMap_cons]

theorem tags_node (t : τ) (shape : Shape (Expr τ)) :
    (node t shape).tags = shape.children.flatMap tags ++ [t] := by
  cases shape with
  | assign n i v => cases i <;> simp [tags]
  | call n args | braces es => simp [tags, tagsList_eq]
  | _ => simp [tags]

theorem mem_tags_self (t : τ) (shape : Shape (Expr τ)) : t ∈ (node t shape).tags := by
  simp [tags_node]

theorem mem_tags_of_child {t u : τ} {shape : Shape (Expr τ)} {e : Expr τ}
    (he : e ∈ shape.children) (hu : u ∈ e.tags) : u ∈ (node t shape).tags := by
  rw [tags_node, List.mem_append, List.mem_flatMap]
  exact Or.inl ⟨e, he, hu⟩

theorem tag_mem_tags (e : Expr τ) : e.tag ∈ e.tags := by
  cases e with
  | node t shape => exact mem_tags_self t shape

/-- A predicate may be replaced by one that follows from it at the nodes of the expression. -/
theorem All.imp {Q R : τ → Shape (Expr τ) → Prop} {e : Expr τ} (h : All Q e)
    (hQR : ∀ t shape, t ∈ e.tags → (∀ c ∈ shape.children, ∀ u ∈ c.tags, u ∈ e.tags) →
      Q t shape → R t shape) : All R e := by
  induction h with
  | node hq _ ih =>
    refine .node (hQR _ _ (mem_tags_self _ _) (fun c hc u hu => mem_tags_of_child hc hu) hq) ?_
    intro e he
    refine ih e he fun t shape ht hs => hQR t shape (mem_tags_of_child he ht) ?_
    exact fun c hc u hu => mem_tags_of_child he (hs c hc u hu)

end Expr

/-! ## Statements -/

namespace Stmt

variable {τ : Type}

attribute [simp] Shape.children

/-- The expressions of a statement itself, in source order. -/
@[simp] def Shape.exprs {ρ ε : Type} : Shape ρ ε → List ε
  | ret _ v => v.toList
  | expression e => [e]
  | choice branches _ => branches.map Prod.fst
  | whileLoop c _ => [c]
  | forLoop _ c u _ => c.toList ++ u.toList
  | output _ vs => vs
  | var _ _ i => i.toList
  | array _ _ _ i => i.toList
  | _ => []

theorem sizeOf_child_lt {t : τ} {shape : Shape (Stmt τ) (Expr τ)} {s : Stmt τ}
    (h : s ∈ shape.children) : sizeOf s < sizeOf (node t shape) := by
  cases shape with
  | block body =>
    have : sizeOf s < sizeOf body := List.sizeOf_lt_of_mem h
    simp
    omega
  | choice branches otherwise =>
    simp only [Shape.children, List.mem_append, List.mem_map, Option.mem_toList] at h
    rcases h with ⟨⟨c, b⟩, hb, rfl⟩ | h
    · have := List.sizeOf_lt_of_mem hb
      simp at this ⊢
      omega
    · subst h
      simp
      omega
  | whileLoop c body => simp at h; subst h; simp; omega
  | forLoop init c u body =>
    simp only [Shape.children, List.mem_append, Option.mem_toList, List.mem_singleton] at h
    rcases h with h | rfl
    · subst h; simp; omega
    · simp; omega
  | _ => simp at h

/-- What a node inherits from its children holds everywhere. -/
theorem induction {P : Stmt τ → Prop}
    (step : ∀ t shape, (∀ s ∈ shape.children, P s) → P (node t shape)) : ∀ s, P s
  | node t shape => step t shape fun s _hs => induction step s
termination_by s => sizeOf s
decreasing_by exact sizeOf_child_lt _hs

/-- `Q` holds of the tag and the shape of every node. -/
inductive All (Q : τ → Shape (Stmt τ) (Expr τ) → Prop) : Stmt τ → Prop where
  | node {t : τ} {shape : Shape (Stmt τ) (Expr τ)} (root : Q t shape)
    (children : ∀ s ∈ shape.children, All Q s) : All Q (node t shape)

theorem All.root {Q : τ → Shape (Stmt τ) (Expr τ) → Prop} {t : τ}
    {shape : Shape (Stmt τ) (Expr τ)} (h : All Q (Stmt.node t shape)) : Q t shape := by
  cases h
  assumption

theorem All.child {Q : τ → Shape (Stmt τ) (Expr τ) → Prop} {t : τ}
    {shape : Shape (Stmt τ) (Expr τ)} (h : All Q (Stmt.node t shape)) :
    ∀ s ∈ shape.children, All Q s := by
  cases h
  assumption

/-! ### Nesting -/

/-- The statements in a statement, which itself comes first, in the order of the source.  Each has
the statements around it, the innermost first; `path` are those around the whole. -/
def nested (path : List (Stmt τ)) : Stmt τ → List (Stmt τ × List (Stmt τ))
  | node t shape => (node t shape, path) ::
      shape.children.attach.flatMap fun s => nested (node t shape :: path) s.1
termination_by s => sizeOf s
decreasing_by exact sizeOf_child_lt s.2

theorem nested_node (path : List (Stmt τ)) (t : τ) (shape : Shape (Stmt τ) (Expr τ)) :
    (node t shape).nested path =
      (node t shape, path) :: shape.children.flatMap (nested (node t shape :: path)) := by
  rw [nested]
  simp

/-- A predicate holds everywhere if it does of every statement in the statement. -/
theorem all_of_nested {Q R : τ → Shape (Stmt τ) (Expr τ) → Prop} {s : Stmt τ} (h : All Q s) :
    ∀ path, (∀ x ∈ s.nested path, Q x.1.tag x.1.shape → R x.1.tag x.1.shape) → All R s := by
  induction h with
  | node root _ ih =>
    intro path hx
    rw [nested_node, List.forall_mem_cons] at hx
    exact .node (hx.1 root) fun s hs => ih s hs _ fun x hmem =>
      hx.2 x (List.mem_flatMap.mpr ⟨s, hs, hmem⟩)

/-! ### Tags -/

theorem tagsList_eq (ss : List (Stmt τ)) : tagsList ss = ss.flatMap tags := by
  induction ss with
  | nil => rfl
  | cons s ss ih => rw [tagsList, ih, List.flatMap_cons]

theorem tagsBranches_eq (bs : List (Expr τ × Stmt τ)) :
    tagsBranches bs = (bs.map Prod.snd).flatMap tags := by
  induction bs with
  | nil => rfl
  | cons b bs ih => rw [tagsBranches, ih, List.map_cons, List.flatMap_cons]

theorem tagsOption_eq (s : Option (Stmt τ)) : tagsOption s = s.toList.flatMap tags := by
  cases s <;> simp [tagsOption]

theorem tags_node (t : τ) (shape : Shape (Stmt τ) (Expr τ)) :
    (node t shape).tags = shape.children.flatMap tags ++ [t] := by
  cases shape <;>
    simp [tags, tagsList_eq, tagsBranches_eq, tagsOption_eq, List.flatMap_append]

theorem mem_tags_self (t : τ) (shape : Shape (Stmt τ) (Expr τ)) : t ∈ (node t shape).tags := by
  simp [tags_node]

theorem mem_tags_of_child {t u : τ} {shape : Shape (Stmt τ) (Expr τ)} {s : Stmt τ}
    (hs : s ∈ shape.children) (hu : u ∈ s.tags) : u ∈ (node t shape).tags := by
  rw [tags_node, List.mem_append, List.mem_flatMap]
  exact Or.inl ⟨s, hs, hu⟩

theorem tag_mem_tags (s : Stmt τ) : s.tag ∈ s.tags := by
  cases s with
  | node t shape => exact mem_tags_self t shape

/-- A predicate may be replaced by one that follows from it at the nodes of the statement. -/
theorem All.imp {Q R : τ → Shape (Stmt τ) (Expr τ) → Prop} {s : Stmt τ} (h : All Q s)
    (hQR : ∀ t shape, t ∈ s.tags → Q t shape → R t shape) : All R s := by
  induction h with
  | node hq _ ih =>
    refine .node (hQR _ _ (mem_tags_self _ _) hq) fun s hs => ih s hs fun t shape ht => ?_
    exact hQR t shape (mem_tags_of_child hs ht)

/-- Behind every tag of a statement there is a node. -/
theorem exists_shape_of_mem_tags {s : Stmt τ} {u : τ} (hu : u ∈ s.tags) :
    ∃ shape, ∀ Q : τ → Shape (Stmt τ) (Expr τ) → Prop, s.All Q → Q u shape := by
  induction s using Stmt.induction with
  | step t shape ih =>
    rw [tags_node, List.mem_append, List.mem_flatMap, List.mem_singleton] at hu
    rcases hu with ⟨s, hs, hu⟩ | rfl
    · obtain ⟨shape', h⟩ := ih s hs hu
      exact ⟨shape', fun Q hQ => h Q (hQ.child s hs)⟩
    · exact ⟨shape, fun Q hQ => hQ.root⟩

/-! ### Tags of expressions -/

theorem exprTagsList_eq (ss : List (Stmt τ)) :
    exprTagsList ss = ss.flatMap exprTags := by
  induction ss with
  | nil => rfl
  | cons s ss ih => rw [exprTagsList, ih, List.flatMap_cons]

theorem exprTagsBranches_eq (bs : List (Expr τ × Stmt τ)) :
    exprTagsBranches bs = bs.flatMap fun b => b.1.tags ++ b.2.exprTags := by
  induction bs with
  | nil => rfl
  | cons b bs ih => rw [exprTagsBranches, ih, List.flatMap_cons]

theorem exprTagsOption_eq (s : Option (Stmt τ)) :
    exprTagsOption s = s.toList.flatMap exprTags := by
  cases s <;> simp [exprTagsOption]

/-- The expressions of a node are its own and those of its children, in some order. -/
theorem exprTags_node_perm (t : τ) (shape : Shape (Stmt τ) (Expr τ)) :
    (node t shape).exprTags.Perm
      (shape.exprs.flatMap Expr.tags ++ shape.children.flatMap exprTags) := by
  cases shape with
  | choice branches otherwise =>
    simp only [exprTags, exprTagsBranches_eq, exprTagsOption_eq, Shape.exprs, Shape.children,
      List.flatMap_append, List.flatMap_map, ← List.append_assoc]
    exact List.Perm.append_right _ (List.flatMap_append_perm ..).symm
  | forLoop init c u body =>
    simp only [exprTags, exprTagsOf, exprTagsOption_eq, Shape.exprs, Shape.children,
      List.flatMap_append, List.flatMap_singleton, ← List.append_assoc]
    refine List.Perm.append_right _ ?_
    rw [List.append_assoc]
    exact List.perm_append_comm
  | _ => simp [exprTags, exprTagsOf, exprTagsList_eq]

theorem mem_exprTags_node {t u : τ} {shape : Shape (Stmt τ) (Expr τ)} :
    u ∈ (node t shape).exprTags ↔
      (∃ e ∈ shape.exprs, u ∈ e.tags) ∨ ∃ s ∈ shape.children, u ∈ s.exprTags := by
  rw [(exprTags_node_perm t shape).mem_iff, List.mem_append, List.mem_flatMap, List.mem_flatMap]

end Stmt

end StackLang
