import Mathlib.Data.Finset.Card
import Mathlib.Data.Finset.Range
import Mathlib.Logic.Relation
import StackLang.Proofs.Tree.Induction

/-!
# Trees without cycles

A flat tree may be put together by hand: its nodes may be shared and stand in any order.  All its
functions have a view if every reference in it is to a node of it and no node is below itself.  For
then a node has fewer nodes below it than the nodes it is part of, so that the number of nodes is
enough fuel.

* `Tree.Grounded` — references are in range and have no cycles.
* `Tree.Grounded.ids` — every function of such a tree has a view.
-/

namespace StackLang

/-! ## Nodes that have all their children -/

theorem exists_mapM_eq_some {α β : Type} {f : α → Option β} {as : List α}
    (h : ∀ a ∈ as, ∃ b, f a = some b) : ∃ bs, as.mapM f = some bs := by
  induction as with
  | nil => exact ⟨[], rfl⟩
  | cons a as ih =>
    obtain ⟨b, hb⟩ := h a List.mem_cons_self
    obtain ⟨bs, hbs⟩ := ih fun x hx => h x (List.mem_cons_of_mem a hx)
    exact ⟨b :: bs, by rw [List.mapM_cons, hb, hbs]; rfl⟩

/-- All children can be replaced if each can. -/
theorem Expr.Shape.exists_traverse {α β : Type} {f : α → Option β} {shape : Expr.Shape α}
    (h : ∀ a ∈ shape.children, ∃ b, f a = some b) : ∃ shape', shape.traverse f = some shape' := by
  cases shape with
  | binary l op r =>
    obtain ⟨l', hl⟩ := h l (by simp [children])
    obtain ⟨r', hr⟩ := h r (by simp [children])
    exact ⟨_, by rw [traverse, hl, hr]; rfl⟩
  | assign n i v =>
    cases i with
    | none =>
      obtain ⟨v', hv⟩ := h v (by simp [children])
      exact ⟨_, by rw [traverse, hv]; rfl⟩
    | some i =>
      obtain ⟨i', hi⟩ := h i (by simp [children])
      obtain ⟨v', hv⟩ := h v (by simp [children])
      exact ⟨_, by rw [traverse, hi, hv]; rfl⟩
  | call n args =>
    obtain ⟨args', hargs⟩ : ∃ bs, args.mapM f = some bs := exists_mapM_eq_some h
    exact ⟨_, by rw [traverse, hargs]; rfl⟩
  | braces es =>
    obtain ⟨es', hes⟩ : ∃ bs, es.mapM f = some bs := exists_mapM_eq_some h
    exact ⟨_, by rw [traverse, hes]; rfl⟩
  | literal v | name n => exact ⟨_, rfl⟩
  | grouping e | unary op e trailing | element n e | random k e =>
    obtain ⟨e', he⟩ := h e (by simp [children])
    exact ⟨_, by rw [traverse, he]; rfl⟩

namespace Stmt.Shape

variable {α β γ δ : Type} {f : α → Option β} {g : γ → Option δ}

theorem exists_traverseOption {a : Option α} (h : ∀ x ∈ a.toList, ∃ y, f x = some y) :
    ∃ b, traverseOption f a = some b := by
  cases a with
  | none => exact ⟨none, rfl⟩
  | some x =>
    obtain ⟨y, hy⟩ := h x (by simp)
    exact ⟨some y, by rw [traverseOption, hy]; rfl⟩

/-- All parts can be replaced if each can. -/
theorem exists_traverse {shape : Stmt.Shape α γ} (hf : ∀ a ∈ shape.children, ∃ b, f a = some b)
    (hg : ∀ e ∈ shape.exprs, ∃ d, g e = some d) : ∃ shape', shape.traverse f g = some shape' := by
  cases shape with
  | block body =>
    obtain ⟨body', hbody⟩ : ∃ bs, body.mapM f = some bs := exists_mapM_eq_some hf
    exact ⟨_, by rw [traverse, hbody]; rfl⟩
  | ret k v | var n t v | array n t len v =>
    obtain ⟨v', hv⟩ := exists_traverseOption hg
    exact ⟨_, by rw [traverse, hv]; rfl⟩
  | expression e =>
    obtain ⟨e', he⟩ := hg e (by simp [exprs])
    exact ⟨_, by rw [traverse, he]; rfl⟩
  | choice branches otherwise =>
    simp only [children, exprs, List.mem_append, List.mem_map] at hf hg
    obtain ⟨branches', hbranches⟩ : ∃ bs, branches.mapM
        (fun b => do return (← g b.1, ← f b.2)) = some bs := by
      refine exists_mapM_eq_some fun b hb => ?_
      obtain ⟨d, hd⟩ := hg b.1 ⟨b, hb, rfl⟩
      obtain ⟨s, hs⟩ := hf b.2 (.inl ⟨b, hb, rfl⟩)
      exact ⟨(d, s), by simp only [hd, hs]; rfl⟩
    obtain ⟨otherwise', hotherwise⟩ := exists_traverseOption fun x hx => hf x (.inr hx)
    refine ⟨.choice branches' otherwise', ?_⟩
    simp only [traverse]
    rw [hbranches, hotherwise]
    rfl
  | whileLoop c b =>
    obtain ⟨c', hc⟩ := hg c (by simp [exprs])
    obtain ⟨b', hb⟩ := hf b (by simp [children])
    exact ⟨_, by rw [traverse, hc, hb]; rfl⟩
  | forLoop i c u b =>
    simp only [children, exprs, List.mem_append, List.mem_singleton] at hf hg
    obtain ⟨i', hi⟩ := exists_traverseOption fun x hx => hf x (.inl hx)
    obtain ⟨c', hc⟩ := exists_traverseOption fun x hx => hg x (.inl hx)
    obtain ⟨u', hu⟩ := exists_traverseOption fun x hx => hg x (.inr hx)
    obtain ⟨b', hb⟩ := hf b (.inr rfl)
    exact ⟨_, by rw [traverse, hi, hc, hu, hb]; rfl⟩
  | output k vs =>
    obtain ⟨vs', hvs⟩ : ∃ bs, vs.mapM g = some bs := exists_mapM_eq_some hg
    exact ⟨_, by rw [traverse, hvs]; rfl⟩
  | input n | stop k | skip k => exact ⟨_, rfl⟩

end Stmt.Shape

/-! ## Trees -/

namespace Tree

variable {t : Tree}

/-- The one expression is a part of the other. -/
def ExprBelow (t : Tree) (child parent : ExprId) : Prop :=
  ∃ node, t.exprs[parent]? = some node ∧ child ∈ node.shape.children

/-- The one statement is a part of the other. -/
def StmtBelow (t : Tree) (child parent : StmtId) : Prop :=
  ∃ node, t.stmts[parent]? = some node ∧ child ∈ node.shape.children

/-- All references are to nodes of the tree, and no node is below itself. -/
structure Grounded (t : Tree) : Prop where
  bodies : ∀ f ∈ t.functions, f.body < t.stmts.size
  stmts : ∀ child parent, t.StmtBelow child parent → child < t.stmts.size
  values : ∀ node ∈ t.stmts, ∀ e ∈ node.shape.exprs, e < t.exprs.size
  exprs : ∀ child parent, t.ExprBelow child parent → child < t.exprs.size
  stmts_acyclic : ∀ id, ¬Relation.TransGen t.StmtBelow id id
  exprs_acyclic : ∀ id, ¬Relation.TransGen t.ExprBelow id id

/-- Numbers that only refer to smaller numbers have no cycles. -/
theorem acyclic_of_lt {R : Nat → Nat → Prop} (h : ∀ child parent, R child parent → child < parent)
    (id : Nat) : ¬Relation.TransGen R id id := by
  intro hcycle
  have hlt : ∀ a b, Relation.TransGen R a b → a < b := by
    intro a b hab
    induction hab with
    | single hab => exact h _ _ hab
    | tail _ hbc ih => exact Nat.lt_trans ih (h _ _ hbc)
  exact Nat.lt_irrefl id (hlt id id hcycle)

/-- A tree whose nodes refer to nodes before them is grounded. -/
theorem grounded_of_lt (hbodies : ∀ f ∈ t.functions, f.body < t.stmts.size)
    (hstmts : ∀ id (h : id < t.stmts.size), ∀ c ∈ t.stmts[id].shape.children, c < id)
    (hvalues : ∀ id (h : id < t.stmts.size), ∀ e ∈ t.stmts[id].shape.exprs, e < t.exprs.size)
    (hexprs : ∀ id (h : id < t.exprs.size), ∀ c ∈ t.exprs[id].shape.children, c < id) :
    t.Grounded := by
  have hstmt : ∀ child parent, t.StmtBelow child parent →
      child < parent ∧ parent < t.stmts.size := by
    rintro child parent ⟨node, hnode, hchild⟩
    obtain ⟨hlt, rfl⟩ := Array.getElem?_eq_some_iff.mp hnode
    exact ⟨hstmts parent hlt child hchild, hlt⟩
  have hexpr : ∀ child parent, t.ExprBelow child parent →
      child < parent ∧ parent < t.exprs.size := by
    rintro child parent ⟨node, hnode, hchild⟩
    obtain ⟨hlt, rfl⟩ := Array.getElem?_eq_some_iff.mp hnode
    exact ⟨hexprs parent hlt child hchild, hlt⟩
  refine ⟨hbodies, ?_, ?_, ?_, ?_, ?_⟩
  · exact fun child parent h => Nat.lt_trans (hstmt child parent h).1 (hstmt child parent h).2
  · intro node hnode e he
    obtain ⟨id, hid, rfl⟩ := Array.mem_iff_getElem.mp hnode
    exact hvalues id hid e he
  · exact fun child parent h => Nat.lt_trans (hexpr child parent h).1 (hexpr child parent h).2
  · exact acyclic_of_lt fun child parent h => (hstmt child parent h).1
  · exact acyclic_of_lt fun child parent h => (hexpr child parent h).1

/-- Without cycles, every number has a height, and there are not more heights than numbers. -/
theorem exists_height {n : Nat} {R : Nat → Nat → Prop}
    (hlt : ∀ child parent, R child parent → child < n)
    (hacyclic : ∀ id, ¬Relation.TransGen R id id) :
    ∃ height : Nat → Nat, (∀ child parent, R child parent → height child < height parent) ∧
      ∀ id < n, height id < n := by
  classical
  -- the height is the number of nodes below
  let below : Nat → Finset Nat := fun id => {x ∈ Finset.range n | Relation.TransGen R x id}
  have hself : ∀ id, id ∉ below id := fun id hid => hacyclic id (Finset.mem_filter.mp hid).2
  refine ⟨fun id => (below id).card, fun child parent hR => ?_, fun id hid => ?_⟩
  · refine Finset.card_lt_card (Finset.ssubset_iff_of_subset ?_ |>.mpr ⟨child, ?_, hself child⟩)
    · intro x hx
      obtain ⟨hx, hbelow⟩ := Finset.mem_filter.mp hx
      exact Finset.mem_filter.mpr ⟨hx, hbelow.tail hR⟩
    · exact Finset.mem_filter.mpr ⟨Finset.mem_range.mpr (hlt _ _ hR), .single hR⟩
  · have hsub : below id ⊂ Finset.range n :=
      (Finset.ssubset_iff_of_subset (Finset.filter_subset _ _)).mpr
        ⟨id, Finset.mem_range.mpr hid, hself id⟩
    have hcard := Finset.card_lt_card hsub
    rwa [Finset.card_range] at hcard

/-- Every expression of a grounded tree has a view. -/
theorem Grounded.exists_expr (h : t.Grounded) {id : ExprId} (hid : id < t.exprs.size) :
    ∃ e, t.expr? id = some e := by
  obtain ⟨height, hdown, hbound⟩ := exists_height h.exprs h.exprs_acyclic
  have hfuel : ∀ fuel id, id < t.exprs.size → height id < fuel →
      ∃ e, t.exprWithin fuel id = some e := by
    intro fuel
    induction fuel with
    | zero => exact fun id _ hf => absurd hf (Nat.not_lt_zero _)
    | succ fuel ih =>
      intro id hid hf
      have hnode := Array.getElem?_eq_getElem hid
      obtain ⟨shape, hshape⟩ : ∃ shape,
          t.exprs[id].shape.traverse (t.exprWithin fuel) = some shape := by
        refine Expr.Shape.exists_traverse fun c hc => ?_
        have hbelow : t.ExprBelow c id := ⟨_, hnode, hc⟩
        have := hdown c id hbelow
        exact ih c (h.exprs c id hbelow) (by omega)
      exact ⟨_, by rw [exprWithin, hnode]; simp [hshape]; rfl⟩
  exact hfuel _ id hid (hbound id hid)

/-- Every statement of a grounded tree has a view. -/
theorem Grounded.exists_stmt (h : t.Grounded) {id : StmtId} (hid : id < t.stmts.size) :
    ∃ s, t.stmt? id = some s := by
  obtain ⟨height, hdown, hbound⟩ := exists_height h.stmts h.stmts_acyclic
  have hfuel : ∀ fuel id, id < t.stmts.size → height id < fuel →
      ∃ s, t.stmtWithin fuel id = some s := by
    intro fuel
    induction fuel with
    | zero => exact fun id _ hf => absurd hf (Nat.not_lt_zero _)
    | succ fuel ih =>
      intro id hid hf
      have hnode := Array.getElem?_eq_getElem hid
      obtain ⟨shape, hshape⟩ : ∃ shape,
          t.stmts[id].shape.traverse (t.stmtWithin fuel) t.expr? = some shape := by
        refine Stmt.Shape.exists_traverse (fun c hc => ?_) fun e he => ?_
        · have hbelow : t.StmtBelow c id := ⟨_, hnode, hc⟩
          have := hdown c id hbelow
          exact ih c (h.stmts c id hbelow) (by omega)
        · exact h.exists_expr (h.values _ (Array.getElem_mem hid) e he)
      exact ⟨_, by rw [stmtWithin, hnode]; simp [hshape]; rfl⟩
  exact hfuel _ id hid (hbound id hid)

/-- Every function of a grounded tree has a view. -/
theorem Grounded.ids (h : t.Grounded) : t.views.map Prod.fst = List.range t.functions.size := by
  have hview : ∀ id ∈ List.range t.functions.size,
      ((t.function? id).map (id, ·)).map Prod.fst = some id := by
    intro id hid
    have hid : id < t.functions.size := List.mem_range.mp hid
    obtain ⟨s, hs⟩ := h.exists_stmt (h.bodies _ (Array.getElem_mem hid))
    rw [function?, Array.getElem?_eq_getElem hid]
    simp [hs]
  rw [views, List.map_filterMap, List.filterMap_congr hview, List.filterMap_some]

end Tree

end StackLang
