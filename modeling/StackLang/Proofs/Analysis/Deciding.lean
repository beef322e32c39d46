import StackLang.Proofs.Analysis.Nesting

/-!
# The type checker decides the type system

If the names of a program are resolved, the type checker reports nothing exactly if the program is
well-typed, and then every expression is noted to have the type that the rules give it.

* `Expr.Annotated`, `Stmt.Annotated` — the one type of every expression is noted.
* `Function.returnIds_ne_nil_iff` — the return statements that are collected are those that there
  are.
* `check_decides` — the decision, for every program that is parsed.
-/

namespace StackLang

variable {t : Tree} {n : Notes} {ret : ValueType} {inLoop : Bool}
  {shape : Stmt.Shape (Stmt Mark) (Expr Mark)}

/-! ## Annotations -/

/-- Every node of the expression has one type, and `n'` notes it. -/
def Expr.Annotated (t : Tree) (n n' : Notes) (e : Expr Mark) : Prop :=
  e.All fun m shape => ∃ T, (n'.expr m.id).type = some T ∧
    ∀ T', (Expr.node m shape).OfType t n T' ↔ T' = T

/-- Every expression of the node is annotated; for a list in braces the type of the elements is
noted. -/
def Stmt.Shape.Annotated (t : Tree) (n n' : Notes) : Shape (Stmt Mark) (Expr Mark) → Prop
  | array _ type _ (some (.node m (.braces es))) =>
    (n'.expr m.id).type = some type ∧ ∀ e ∈ es, e.Annotated t n n'
  | shape => ∀ e ∈ shape.exprs, e.Annotated t n n'

/-- Every expression in the statement is annotated. -/
def Stmt.Annotated (t : Tree) (n n' : Notes) (s : Stmt Mark) : Prop :=
  s.All fun _ shape => shape.Annotated t n n'

theorem Expr.OfType.annotated {n' : Notes} {e : Expr Mark} {T : ValueType} (hT : e.OfType t n T)
    (h : e.Agrees t n n'.TypedAs) : e.Annotated t n n' := by
  induction e using Expr.induction generalizing T with
  | step m shape ih =>
    refine .node ⟨T, h.root T hT, fun T' => ⟨fun h' => h'.unique hT, ?_⟩⟩ fun e he => ?_
    · rintro rfl
      exact hT
    · obtain ⟨S, hS⟩ := Typing.exists_ofType_child hT e he
      exact ih e he hS (h.child e he)

/-- Only a list in braces that initializes an array has no type. -/
theorem Stmt.WellTyped.exists_ofType {m : Mark} (h : (Stmt.node m shape).WellTyped t n ret inLoop)
    (hlist : shape.list? = none) : ∀ e ∈ shape.exprs, ∃ T, e.OfType t n T := by
  intro e he
  cases h with
  | forLoop _ hc hu _ =>
    rcases List.mem_append.mp he with he | he
    · exact ⟨_, hc e (Option.mem_toList.mp he)⟩
    · exact hu e (Option.mem_toList.mp he)
  | var hinit =>
    obtain ⟨S, hS, -⟩ := hinit e (Option.mem_toList.mp he)
    exact ⟨S, hS⟩
  | _ => grind [Shape.exprs, Shape.list?]

theorem Stmt.WellTyped.child {m : Mark} (h : (Stmt.node m shape).WellTyped t n ret inLoop) :
    ∀ s ∈ shape.children, ∃ b, s.WellTyped t n ret b := by
  intro s hs
  cases h with
  | choice _ hb ho =>
    rcases List.mem_append.mp hs with hs | hs
    · obtain ⟨b, hmem, rfl⟩ := List.mem_map.mp hs
      exact ⟨_, hb b hmem⟩
    · exact ⟨_, ho s (Option.mem_toList.mp hs)⟩
  | forLoop hi _ _ hb =>
    rcases List.mem_append.mp hs with hs | hs
    · exact ⟨_, hi s (Option.mem_toList.mp hs)⟩
    · exact ⟨_, List.mem_singleton.mp hs ▸ hb⟩
  | _ => grind [Shape.children]

theorem Stmt.WellTyped.annotated {n' : Notes} {s : Stmt Mark} (hw : s.WellTyped t n ret inLoop)
    (h : s.Agrees t n n'.TypedAs) : s.Annotated t n n' := by
  induction s using Stmt.induction generalizing inLoop with
  | step m shape ih =>
    refine .node ?_ fun s hs => ?_
    · unfold Shape.Annotated
      split
      · cases hw with
        | arrayInit hlength hes =>
          refine ⟨h.root.2 _ rfl, fun e he => ?_⟩
          obtain ⟨S, hS, -⟩ := hes e he
          exact hS.annotated ((h.root.1 _ (Option.mem_toList.mpr rfl)).child e he)
      · rename_i hlist
        have hnone : shape.list? = none := by
          unfold Shape.list?
          split
          · exact (hlist _ _ _ _ _ rfl).elim
          · rfl
        intro e he
        obtain ⟨T, hT⟩ := hw.exists_ofType hnone e he
        exact hT.annotated (h.root.1 e he)
    · obtain ⟨_, hs'⟩ := hw.child s hs
      exact ih s hs hs' (h.child s hs)

/-! ## Functions -/

theorem Stmt.exists_nested_isReturn_iff {s : Stmt Mark} : ∀ path,
    (∃ x ∈ s.nested path, x.1.isReturn = true) ↔ s.HasReturn := by
  induction s using Stmt.induction with
  | step m shape ih =>
    intro path
    have own : (node m shape).isReturn = true ↔ ∃ k value, shape = .ret k value := by
      cases shape <;> simp [isReturn]
    rw [nested_node, hasReturn_node, ← own]
    simp only [List.mem_cons, List.mem_flatMap, exists_eq_or_imp]
    refine or_congr_right ⟨?_, ?_⟩
    · rintro ⟨x, ⟨s, hs, hx⟩, hret⟩
      exact ⟨s, hs, (ih s hs _).mp ⟨x, hx, hret⟩⟩
    · rintro ⟨s, hs, h⟩
      obtain ⟨x, hx, hret⟩ := (ih s hs (.node m shape :: path)).mpr h
      exact ⟨x, ⟨s, hs, hx⟩, hret⟩

theorem Function.returnIds_ne_nil_iff {f : Function (Stmt Mark)} :
    f.returnIds ≠ [] ↔ f.body.HasReturn := by
  rw [returnIds, ← Stmt.exists_nested_isReturn_iff [], ne_eq, List.map_eq_nil_iff,
    List.filter_eq_nil_iff]
  simp

/-! ## Programs -/

/-- The type checker reports nothing about a parsed program with resolved names exactly if it is
well-typed, and then it notes the one type of every expression. -/
theorem check_decides {tokens : List Token} {p : Program} (hparse : Program.parse tokens = .ok p)
    (hnames : p.resolve.2 = []) :
    (p.resolve.1.check.2 = [] ↔ p.resolve.1.WellTyped) ∧
      (p.resolve.1.WellTyped → ∀ v ∈ p.tree.views,
        v.2.body.Annotated p.tree p.resolve.1.notes p.resolve.1.check.1.notes) := by
  obtain ⟨t, ht, rfl⟩ := orderly_of_parse hparse
  obtain ⟨named, covers, parents⟩ := resolve_named ht (covers_link ht) hnames
  have hn : t.Resolved (Program.ofTree t).resolve.1.notes := ⟨named, covers, parents⟩
  have hiff : (Program.ofTree t).resolve.1.check.2 = [] ↔
      (Program.ofTree t).resolve.1.WellTyped := by
    rw [check_eq_nil_iff ht rfl hn]
    have returns : ∀ v ∈ t.views, Typing.counted t (Program.ofTree t).resolve.1.notes v.1 v.2 ≠ [] ↔
        v.2.body.HasReturn := fun v hv => by
      rw [(links_body ht hn.covers hn.parents hv).counted_eq, Function.returnIds_ne_nil_iff]
    constructor
    · exact fun h =>
        ⟨fun v hv => ⟨(h.1 v hv).1, fun hret => (returns v hv).mp ((h.1 v hv).2 hret)⟩, h.2⟩
    · exact fun h => ⟨fun v hv => ⟨(h.functions v hv).body, fun hret =>
        (returns v hv).mpr ((h.functions v hv).returns hret)⟩, h.main⟩
  refine ⟨hiff, fun hw v hv => (hw.functions v hv).body.annotated ?_⟩
  exact (ready_of_check ht rfl hn (hiff.mpr hw) hv).1.right

/-- A program with an array, a call, a loop and a narrowing is well-typed. -/
theorem check_decides_narrowing :
    ∃ tokens p, Program.parse tokens = .ok p ∧ p.resolve.2 = [] ∧ p.tree.views.length = 2 ∧
      p.resolve.1.check.2 = [] ∧ p.resolve.1.WellTyped ∧ ∀ v ∈ p.tree.views,
        v.2.body.Annotated p.tree p.resolve.1.notes p.resolve.1.check.1.notes := by
  obtain ⟨tokens, h⟩ : ∃ tokens, ((Program.parse tokens).toOption.any fun p =>
      p.resolve.2.isEmpty && (decide (p.tree.views.length = 2) && p.resolve.1.check.2.isEmpty)) =
        true := by
    refine ⟨((Token.scan ("int f(float x) \x7b return x * 2.0; \x7d " ++
      "int main() \x7b int a[3] = \x7b1, 2.5\x7d; int i = 0; " ++
      "while (i < 3 and !false) \x7b a[i] = f(1.0 + i); ++i; if (i == 2) \x7b break; \x7d \x7d " ++
      "print(a[0]); return a[1] % 2; \x7d")).toOption).getD [], ?_⟩
    decide +kernel
  simp only [any_toOption_iff, Bool.and_eq_true, List.isEmpty_iff, decide_eq_true_eq] at h
  obtain ⟨p, hp, hnames, hviews, hnone⟩ := h
  obtain ⟨hiff, hannotated⟩ := check_decides hp hnames
  exact ⟨tokens, p, hp, hnames, hviews, hnone, hiff.mp hnone, hannotated (hiff.mp hnone)⟩

end StackLang
