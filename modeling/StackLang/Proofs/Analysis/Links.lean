import StackLang.Proofs.Analysis.Bound
import StackLang.Proofs.Program.Laying
import StackLang.Proofs.Program.Notes

/-!
# What statements are part of

Every statement of a program is linked to what it is part of, so that the function and the innermost
loop around it are found by going upwards.

* `link_linked` — the statements of all functions are linked.
* `Surrounds` — what is found above an owner, however much fuel there is beyond a bound.
-/

namespace StackLang

open Naming (Distinct)

variable {n : Notes} {o : Owner} {shape : Stmt.Shape (Stmt Mark) (Expr Mark)} {t : Tree}
  {loop : Option StmtId}

/-! ## Linked statements -/

/-- The statement is linked to its owner, and the statements in it to the statement. -/
inductive Stmt.Linked (n : Notes) : Owner → Stmt Mark → Prop where
  | node {o : Owner} {m : Mark} {shape : Shape (Stmt Mark) (Expr Mark)}
    (root : (n.stmt m.id).parent = some o)
    (children : ∀ s ∈ shape.children, Linked n (.stmt m.id) s) : Linked n o (node m shape)

/-- Whether a statement is linked depends on the parents noted at its nodes. -/
theorem Stmt.Linked.congr {n' : Notes} {s : Stmt Mark} (h : s.Linked n o)
    (hp : ∀ m ∈ s.tags, (n'.stmt m.id).parent = (n.stmt m.id).parent) : s.Linked n' o := by
  induction h with
  | node root _ ih =>
    refine .node ((hp _ (mem_tags_self _ _)).trans root) fun s hs => ?_
    exact ih s hs fun u hu => hp u (mem_tags_of_child hs hu)

/-- The notes `n'` differ from `n` at the given statements only, and not in the targets of jumps. -/
structure Notes.LinkedFrom (n n' : Notes) (ms : List Mark) : Prop where
  exprs : n'.exprs = n.exprs
  functions : n'.functions = n.functions
  size : n'.stmts.size = n.stmts.size
  stmt : ∀ id, (∀ m ∈ ms, m.id ≠ id) → n'.stmt id = n.stmt id
  target : ∀ id, (n'.stmt id).target = (n.stmt id).target

theorem Notes.LinkedFrom.refl (n : Notes) : n.LinkedFrom n [] :=
  ⟨rfl, rfl, rfl, fun _ _ => rfl, fun _ => rfl⟩

theorem Notes.LinkedFrom.trans {n₁ n₂ : Notes} {ms ms' : List Mark} (h : n.LinkedFrom n₁ ms)
    (h' : n₁.LinkedFrom n₂ ms') : n.LinkedFrom n₂ (ms ++ ms') where
  exprs := h'.exprs.trans h.exprs
  functions := h'.functions.trans h.functions
  size := h'.size.trans h.size
  stmt id hid := by
    simp only [List.mem_append] at hid
    rw [h'.stmt id fun m hm => hid m (.inr hm), h.stmt id fun m hm => hid m (.inl hm)]
  target id := (h'.target id).trans (h.target id)

/-- The change of notes links the given statements to an owner. -/
def LinksTo (F : Notes → Notes) (o : Owner) (ss : List (Stmt Mark)) : Prop :=
  ∀ n : Notes, Distinct (ss.flatMap Stmt.tags) →
    (∀ m ∈ ss.flatMap Stmt.tags, m.id < n.stmts.size) →
    n.LinkedFrom (F n) (ss.flatMap Stmt.tags) ∧ ∀ s ∈ ss, s.Linked (F n) o

namespace LinksTo

variable {F G : Notes → Notes} {o : Owner} {ss ts : List (Stmt Mark)}

theorem nil : LinksTo id o [] :=
  fun n _ _ => ⟨.refl n, by simp⟩

theorem seq (hF : LinksTo F o ss) (hG : LinksTo G o ts) : LinksTo (G ∘ F) o (ss ++ ts) := by
  intro n hd hlt
  rw [List.flatMap_append] at hd hlt ⊢
  obtain ⟨hds, hdt, hdisj⟩ := Distinct.append.mp hd
  obtain ⟨hf, hs⟩ := hF n hds fun m hm => hlt m (List.mem_append_left _ hm)
  obtain ⟨hg, ht⟩ := hG (F n) hdt fun m hm => hf.size ▸ hlt m (List.mem_append_right _ hm)
  refine ⟨hf.trans hg, fun s hmem => ?_⟩
  rcases List.mem_append.mp hmem with hmem | hmem
  · refine (hs s hmem).congr fun m hm => congrArg _ (hg.stmt m.id fun m' hm' => ?_)
    exact hdisj m (List.mem_flatMap.mpr ⟨s, hmem, hm⟩) m' hm'
  · exact ht s hmem

/-- A node is linked before its children. -/
theorem node {m : Mark} (hF : LinksTo F (.stmt m.id) shape.children) :
    LinksTo (fun n => F (n.modifyStmt m.id ({ · with parent := some o }))) o [.node m shape] := by
  intro n hd hlt
  rw [List.flatMap_singleton, Stmt.tags_node] at hd hlt ⊢
  obtain ⟨hdc, -, hdisj⟩ := Distinct.append.mp hd
  have hm : m.id < n.stmts.size := hlt m (by simp)
  have first : n.LinkedFrom (n.modifyStmt m.id ({ · with parent := some o })) [m] :=
    ⟨rfl, rfl, Notes.size_stmts_modifyStmt, fun id hid =>
      Notes.stmt_modifyStmt_of_ne (hid m (by simp)), fun id => by
        rw [Notes.stmt_modifyStmt]
        split <;> rfl⟩
  obtain ⟨rest, linked⟩ := hF (n.modifyStmt m.id ({ · with parent := some o })) hdc
    fun u hu => first.size ▸ hlt u (List.mem_append_left _ hu)
  refine ⟨?_, ?_⟩
  · have both := first.trans rest
    refine { both with stmt := fun id hid => both.stmt id fun u hu => ?_ }
    exact hid u (List.perm_append_comm.mem_iff.mp hu)
  · simp only [List.mem_singleton, forall_eq]
    refine .node ?_ linked
    rw [rest.stmt m.id fun u hu heq => hdisj u hu m (by simp) heq.symm,
      Notes.stmt_modifyStmt_self hm]

end LinksTo

namespace Stmt

theorem linkList_linksTo {ss : List (Stmt Mark)} (h : ∀ s ∈ ss, LinksTo (link o s) o [s]) :
    LinksTo (linkList o ss) o ss := by
  induction ss with
  | nil =>
    rw [show linkList o [] = id from funext fun n => by rw [linkList]; rfl]
    exact .nil
  | cons s ss ih =>
    rw [show linkList o (s :: ss) = linkList o ss ∘ link o s from
      funext fun n => by rw [linkList]; rfl]
    exact (h s (by simp)).seq (ih fun a ha => h a (by simp [ha]))

theorem linkBranches_linksTo {bs : List (Expr Mark × Stmt Mark)}
    (h : ∀ b ∈ bs, LinksTo (link o b.2) o [b.2]) :
    LinksTo (linkBranches o bs) o (bs.map Prod.snd) := by
  induction bs with
  | nil =>
    rw [show linkBranches o [] = id from funext fun n => by rw [linkBranches]; rfl]
    exact .nil
  | cons b bs ih =>
    rw [show linkBranches o (b :: bs) = linkBranches o bs ∘ link o b.2 from
      funext fun n => by rw [linkBranches]; rfl]
    exact (h b (by simp)).seq (ih fun a ha => h a (by simp [ha]))

theorem linkOption_linksTo {s : Option (Stmt Mark)} (h : ∀ a ∈ s.toList, LinksTo (link o a) o [a]) :
    LinksTo (linkOption o s) o s.toList := by
  cases s with
  | none =>
    rw [show linkOption o none = id from funext fun n => by rw [linkOption]; rfl]
    exact .nil
  | some s =>
    rw [show linkOption o (some s) = link o s from funext fun n => by rw [linkOption]]
    exact h s (by simp)

/-- Every statement can be linked. -/
theorem link_linksTo (s : Stmt Mark) : ∀ o, LinksTo (link o s) o [s] := by
  induction s using Stmt.induction with
  | step m shape ih =>
    intro o
    cases shape with
    | block body =>
      rw [show link o (node m (.block body)) = fun n => linkList (.stmt m.id) body
        (n.modifyStmt m.id ({ · with parent := some o })) from funext fun n => by rw [link]]
      exact .node (linkList_linksTo fun s hs => ih s hs _)
    | choice branches otherwise =>
      rw [show link o (node m (.choice branches otherwise)) = fun n =>
        (linkOption (.stmt m.id) otherwise ∘ linkBranches (.stmt m.id) branches)
          (n.modifyStmt m.id ({ · with parent := some o })) from
        funext fun n => by rw [link]; rfl]
      exact .node ((linkBranches_linksTo fun b hb =>
        ih b.2 (List.mem_append_left _ (List.mem_map_of_mem hb)) _).seq
        (linkOption_linksTo fun s hs => ih s (List.mem_append_right _ hs) _))
    | whileLoop c body =>
      rw [show link o (node m (.whileLoop c body)) = fun n => link (.stmt m.id) body
        (n.modifyStmt m.id ({ · with parent := some o })) from funext fun n => by rw [link]]
      exact .node (ih body (by simp) _)
    | forLoop init c u body =>
      rw [show link o (node m (.forLoop init c u body)) = fun n =>
        (link (.stmt m.id) body ∘ linkOption (.stmt m.id) init)
          (n.modifyStmt m.id ({ · with parent := some o })) from
        funext fun n => by rw [link]; rfl]
      exact .node ((linkOption_linksTo fun s hs => ih s (List.mem_append_left _ hs) _).seq
        (ih body (List.mem_append_right _ (by simp)) _))
    | _ =>
      rw [show link o (node m _) = fun n =>
        id (n.modifyStmt m.id ({ · with parent := some o })) from
        funext fun n => by simp [link]]
      exact .node .nil

end Stmt

/-- The statements of all functions are linked. -/
theorem link_linked (ht : t.Orderly) (hn : n.stmts.size = t.stmts.size) :
    n.LinkedFrom (t.link n) (t.views.flatMap fun v => v.2.body.tags) ∧
      ∀ v ∈ t.views, v.2.body.Linked (t.link n) (.function v.1) := by
  have walk : ∀ (vs : List (FunctionId × Function (Stmt Mark))) (n : Notes),
      Distinct (vs.flatMap fun v => v.2.body.tags) →
      (∀ m ∈ vs.flatMap fun v => v.2.body.tags, m.id < n.stmts.size) →
      n.LinkedFrom (vs.foldl (fun n v => v.2.body.link (.function v.1) n) n)
        (vs.flatMap fun v => v.2.body.tags) ∧
      ∀ v ∈ vs, v.2.body.Linked (vs.foldl (fun n v => v.2.body.link (.function v.1) n) n)
        (.function v.1) := by
    intro vs
    induction vs with
    | nil => exact fun n _ _ => ⟨.refl n, by simp⟩
    | cons v vs ih =>
      intro n hd hlt
      rw [List.flatMap_cons] at hd hlt ⊢
      obtain ⟨hdv, hdvs, hdisj⟩ := Distinct.append.mp hd
      have body := v.2.body.link_linksTo (.function v.1) n
      rw [List.flatMap_singleton] at body
      obtain ⟨first, linked⟩ := body hdv fun m hm => hlt m (List.mem_append_left _ hm)
      obtain ⟨rest, others⟩ := ih (v.2.body.link (.function v.1) n) hdvs
        fun m hm => first.size ▸ hlt m (List.mem_append_right _ hm)
      refine ⟨first.trans rest, fun w hw => ?_⟩
      rcases List.mem_cons.mp hw with rfl | hw
      · refine (linked _ (by simp)).congr fun m hm => congrArg _ (rest.stmt m.id fun m' hm' => ?_)
        exact hdisj m hm m' hm'
      · exact others w hw
  refine walk t.views n (.of_ascending ht.stmtIds) fun m hm => ?_
  obtain ⟨v, hv, hm⟩ := List.mem_flatMap.mp hm
  exact hn ▸ (ht.held v hv).lt_size_of_mem hm

/-! ## Going upwards -/

/-- From the owner upwards there are the function `id` and the innermost loop `loop`, at most `k`
steps away. -/
def Surrounds (t : Tree) (n : Notes) (o : Owner) (id : FunctionId) (loop : Option StmtId)
    (k : Nat) : Prop :=
  ∀ fuel, k ≤ fuel →
    Tree.functionAbove n fuel (some o) = some id ∧ t.loopAbove n fuel (some o) = loop

theorem surrounds_function (t : Tree) (n : Notes) (id : FunctionId) :
    Surrounds t n (.function id) id none 0 := by
  intro fuel _
  cases fuel <;> exact ⟨rfl, rfl⟩

/-- A statement that is linked to `o` surrounds the statements in it. -/
theorem Surrounds.step {id : FunctionId} {k : Nat} (h : Surrounds t n o id loop k) {m : Mark}
    (hheld : (Stmt.node m shape).Held t) (hp : (n.stmt m.id).parent = some o) :
    Surrounds t n (.stmt m.id) id (if shape.isLoop then some m.id else loop) (k + 1) := by
  have hloop : t.isLoop m.id = shape.isLoop := by
    rw [Tree.isLoop, hheld.root.1]
    cases shape <;> rfl
  intro fuel hfuel
  obtain ⟨fuel, rfl⟩ : ∃ f, fuel = f + 1 := ⟨fuel - 1, by omega⟩
  obtain ⟨hf, hl⟩ := h fuel (by omega)
  rw [Tree.functionAbove, Tree.loopAbove, hp, hloop, hl]
  exact ⟨hf, rfl⟩

/-- What surrounds the owner of a statement is found from the statement. -/
theorem Surrounds.enclosing {id : FunctionId} {k : Nat} (h : Surrounds t n o id loop k) {s : StmtId}
    (hp : (n.stmt s).parent = some o) (hk : k ≤ t.stmts.size) :
    t.enclosingFunction n s = some id ∧ t.enclosingLoop n s = loop := by
  rw [Tree.enclosingFunction, Tree.enclosingLoop, hp]
  exact h _ hk

end StackLang
