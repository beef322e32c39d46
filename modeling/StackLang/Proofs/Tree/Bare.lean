import StackLang.Proofs.Program.Held
import StackLang.Proofs.Tree.Formed

/-!
# Trees without tags

The same program is a tree with lines, when it is parsed, and one with numbers, when it is laid out
and viewed.  Without the tags they are equal.

* `Expr.bare`, `Stmt.bare`, `Function.bare` — the tree without its tags.
-/

namespace StackLang

/-! ## Expressions -/

namespace Expr

variable {τ : Type}

mutual

/-- The expression without its tags. -/
def bare : Expr τ → Expr Unit
  | .node _ (.binary l op r) => .node () (.binary l.bare op r.bare)
  | .node _ (.grouping e) => .node () (.grouping e.bare)
  | .node _ (.literal v) => .node () (.literal v)
  | .node _ (.unary op e trailing) => .node () (.unary op e.bare trailing)
  | .node _ (.name n) => .node () (.name n)
  | .node _ (.assign n none v) => .node () (.assign n none v.bare)
  | .node _ (.assign n (some i) v) => .node () (.assign n (some i.bare) v.bare)
  | .node _ (.call n args) => .node () (.call n (bareList args))
  | .node _ (.element n i) => .node () (.element n i.bare)
  | .node _ (.braces es) => .node () (.braces (bareList es))
  | .node _ (.random k e) => .node () (.random k e.bare)

/-- Several expressions without their tags. -/
def bareList : List (Expr τ) → List (Expr Unit)
  | [] => []
  | e :: es => e.bare :: bareList es

end

theorem bareList_eq (es : List (Expr τ)) : bareList es = es.map bare := by
  induction es with
  | nil => rfl
  | cons e es ih => rw [bareList, ih, List.map_cons]

theorem bare_node (t : τ) (shape : Shape (Expr τ)) :
    (node t shape).bare = node () (shape.map bare) := by
  cases shape with
  | assign n i v => cases i <;> simp [bare, Shape.map]
  | _ => simp [bare, bareList_eq, Shape.map]

theorem Shape.children_map {α β : Type} (f : α → β) (shape : Shape α) :
    (shape.map f).children = shape.children.map f := by
  cases shape with
  | assign n i v => cases i <;> rfl
  | _ => rfl

@[simp] theorem isName_bare (e : Expr τ) : e.bare.isName = e.isName := by
  obtain ⟨t, shape⟩ := e
  rw [bare_node]
  cases shape <;> rfl

/-- What is formed does not depend on the tags. -/
theorem formed_bare_iff (e : Expr τ) : e.bare.Formed ↔ e.Formed := by
  induction e using Expr.induction with
  | step t shape ih =>
    have hroot : (shape.map bare).OperandFits ↔ shape.OperandFits := by
      cases shape with
      | unary op e trailing => simp only [Shape.map, Shape.OperandFits, isName_bare]
      | _ => rfl
    rw [bare_node]
    constructor
    · intro h
      refine formed_node (hroot.mp h.root) fun e he => (ih e he).mp (h.child _ ?_)
      rw [Shape.children_map]
      exact List.mem_map_of_mem he
    · intro h
      refine formed_node (hroot.mpr h.root) fun e he => ?_
      rw [Shape.children_map] at he
      obtain ⟨c, hc, rfl⟩ := List.mem_map.mp he
      exact (ih c hc).mpr (h.child c hc)

end Expr

/-! ## Statements -/

namespace Stmt

variable {τ : Type}

mutual

/-- The statement without its tags. -/
def bare : Stmt τ → Stmt Unit
  | .node _ (.block body) => .node () (.block (bareList body))
  | .node _ (.ret k v) => .node () (.ret k (v.map Expr.bare))
  | .node _ (.expression e) => .node () (.expression e.bare)
  | .node _ (.choice branches otherwise) =>
    .node () (.choice (bareBranches branches) (bareOption otherwise))
  | .node _ (.whileLoop c body) => .node () (.whileLoop c.bare body.bare)
  | .node _ (.forLoop init c u body) =>
    .node () (.forLoop (bareOption init) (c.map Expr.bare) (u.map Expr.bare) body.bare)
  | .node _ (.output k vs) => .node () (.output k (vs.map Expr.bare))
  | .node _ (.input n) => .node () (.input n)
  | .node _ (.var n type init) => .node () (.var n type (init.map Expr.bare))
  | .node _ (.array n type length init) => .node () (.array n type length (init.map Expr.bare))
  | .node _ (.stop k) => .node () (.stop k)
  | .node _ (.skip k) => .node () (.skip k)

def bareList : List (Stmt τ) → List (Stmt Unit)
  | [] => []
  | s :: ss => s.bare :: bareList ss

def bareBranches : List (Expr τ × Stmt τ) → List (Expr Unit × Stmt Unit)
  | [] => []
  | (c, s) :: rest => (c.bare, s.bare) :: bareBranches rest

def bareOption : Option (Stmt τ) → Option (Stmt Unit)
  | none => none
  | some s => some s.bare

end

theorem bareList_eq (ss : List (Stmt τ)) : bareList ss = ss.map bare := by
  induction ss with
  | nil => rfl
  | cons s ss ih => rw [bareList, ih, List.map_cons]

theorem bareBranches_eq (bs : List (Expr τ × Stmt τ)) :
    bareBranches bs = bs.map fun b => (b.1.bare, b.2.bare) := by
  induction bs with
  | nil => rfl
  | cons b bs ih => rw [bareBranches, ih, List.map_cons]

theorem bareOption_eq (s : Option (Stmt τ)) : bareOption s = s.map bare := by
  cases s <;> rfl

theorem bare_node (t : τ) (shape : Shape (Stmt τ) (Expr τ)) :
    (node t shape).bare = node () (shape.map bare Expr.bare) := by
  cases shape <;> simp [bare, bareList_eq, bareBranches_eq, bareOption_eq, Shape.map]

theorem Shape.children_map {α β γ δ : Type} (f : α → β) (g : γ → δ) (shape : Shape α γ) :
    (shape.map f g).children = shape.children.map f := by
  cases shape <;> simp [Shape.map, Option.toList_map, Function.comp_def]

theorem Shape.exprs_map {α β γ δ : Type} (f : α → β) (g : γ → δ) (shape : Shape α γ) :
    (shape.map f g).exprs = shape.exprs.map g := by
  cases shape <;> simp [Shape.map, Option.toList_map, Function.comp_def]

@[simp] theorem isSimple_bare (s : Stmt τ) : s.bare.isSimple = s.isSimple := by
  obtain ⟨t, shape⟩ := s
  rw [bare_node]
  cases shape <;> rfl

theorem formed_bare_iff (s : Stmt τ) : s.bare.Formed ↔ s.Formed := by
  induction s using Stmt.induction with
  | step t shape ih =>
    have hroot : (shape.map bare Expr.bare).PartsFit ↔ shape.PartsFit := by
      cases shape with
      | forLoop i c u b => cases i <;> simp [Shape.map, Shape.PartsFit]
      | _ => rfl
    rw [bare_node]
    constructor
    · intro h
      refine formed_node (hroot.mp h.root.1) (fun e he => ?_) fun s hs =>
        (ih s hs).mp (h.child _ ?_)
      · refine (Expr.formed_bare_iff e).mp (h.root.2 _ ?_)
        rw [Shape.exprs_map]
        exact List.mem_map_of_mem he
      · rw [Shape.children_map]
        exact List.mem_map_of_mem hs
    · intro h
      refine formed_node (hroot.mpr h.root.1) (fun e he => ?_) fun s hs => ?_
      · rw [Shape.exprs_map] at he
        obtain ⟨c, hc, rfl⟩ := List.mem_map.mp he
        exact (Expr.formed_bare_iff c).mpr (h.root.2 c hc)
      · rw [Shape.children_map] at hs
        obtain ⟨c, hc, rfl⟩ := List.mem_map.mp hs
        exact (ih c hc).mpr (h.child c hc)

end Stmt

/-! ## Functions -/

/-- The function without the tags of its body. -/
def Function.bare {τ : Type} (f : Function (Stmt τ)) : Function (Stmt Unit) :=
  { f with body := f.body.bare }

/-- What is formed does not depend on the tags. -/
theorem Function.Formed.of_bare {σ τ : Type} {f : Function (Stmt σ)} {g : Function (Stmt τ)}
    (h : f.Formed) (hb : f.bare = g.bare) : g.Formed := by
  have hbody : f.body.bare = g.body.bare := congrArg Function.body hb
  have hparams : f.params = g.params := congrArg Function.params hb
  exact ⟨g.body.formed_bare_iff.mp (hbody ▸ f.body.formed_bare_iff.mpr h.body), hparams ▸ h.params⟩

end StackLang
