import Mathlib.Data.List.Nodup
import Mathlib.Data.List.Perm.Subperm
import StackLang.Compile
import StackLang.Proofs.Analysis.Cells
import StackLang.Proofs.Analysis.TypingWalk
import StackLang.Proofs.Parse.Soundness

/-!
# Checked programs

What is known about a program whose analysis reports nothing: its tree is orderly, its names are
resolved, its types are right, and the cells of every function can be counted in a word.

* `checked_of_analyzeSource` — a text that is accepted spells out a checked program.
-/

namespace StackLang

variable {t : Tree} {n : Notes} {v : FunctionId × Function (Stmt Mark)} {p : Program}

/-! ## Types that are noted -/

/-- The expression is noted to have the type. -/
def Notes.TypedAs (n : Notes) (id : ExprId) (T : ValueType) : Prop :=
  (n.expr id).type = some T

theorem Stmt.Agrees.imp {R R' : ExprId → ValueType → Prop} {s : Stmt Mark} (h : s.Agrees t n R)
    (hR : ∀ m ∈ s.exprTags, ∀ T, R m.id T → R' m.id T) : s.Agrees t n R' := by
  induction s using Stmt.induction with
  | step m shape ih =>
    have own := fun e he u hu => hR u (mem_exprTags_node.mpr (.inl ⟨e, he, hu⟩))
    refine .node ⟨fun e he => ?_, fun x hx => ?_⟩ fun s hs => ih s hs (h.child s hs) fun u hu =>
      hR u (mem_exprTags_node.mpr (.inr ⟨s, hs, hu⟩))
    · exact (h.root.1 e he).imp fun u _ hu _ hT T hof => own e he u hu T (hT T hof)
    · have hroot := h.root.2 x hx
      unfold Shape.list? at hx
      split at hx
      · cases hx
        exact own _ (Option.mem_toList.mpr rfl) _ (Expr.mem_tags_self _ _) _ hroot
      · cases hx

namespace Typing

variable {t : Tree} {n n' : Notes} {V : Binding → Prop} {shape : Expr.Shape (Expr Mark)}
  {T : ValueType}

/-- What a typed node consists of has types as well. -/
theorem exists_ofType_child {m : Mark} (h : (Expr.node m shape).OfType t n T) :
    ∀ e ∈ shape.children, ∃ S, e.OfType t n S := by
  intro e he
  cases h with
  | call _ _ hlength hargs _ =>
    rw [Expr.Shape.children, ← List.map_fst_zip (Nat.le_of_eq hlength)] at he
    obtain ⟨a, ha, rfl⟩ := List.mem_map.mp he
    exact ⟨a.2, hargs a ha⟩
  | _ => grind [Expr.Shape.children]

theorem stores_of_types {ps : List Param} {types : List ValueType}
    (h : List.Forall₂ (fun p S => p.type.Assignable S) ps types) (hp : ∀ p ∈ ps, p.type ≠ .void)
    {es : List (Expr Mark)} (hlength : es.length = types.length)
    (hes : ∀ a ∈ es.zip types, n'.typeOf a.1 = some a.2) :
    List.Forall₂ (fun p e => n'.Stores p.type e) ps es := by
  induction h generalizing es with
  | nil =>
    obtain rfl := List.length_eq_zero_iff.mp hlength
    exact .nil
  | cons hS _ ih =>
    rcases es with _ | ⟨e, es⟩
    · cases hlength
    rw [List.zip_cons_cons, List.forall_mem_cons] at hes
    rw [List.forall_mem_cons] at hp
    exact .cons ⟨_, hes.1, hS.store? hp.1⟩ (ih hp.2 (Nat.succ.inj hlength) hes.2)

/-- A typed node follows the rule if the types of its children are noted. -/
theorem Ready.rule {m : Mark} (h : Ready t n n'.TypedAs V (.node m shape))
    (hT : (Expr.node m shape).OfType t n T) (hr : n.Retains n') : shape.Rule t n' m T := by
  have hc : ∀ e ∈ shape.children, ∀ S, e.OfType t n S → n'.typeOf e = some S := by
    rintro ⟨m', shape'⟩ he S hS
    exact (h.child he).right.root S hS
  cases hT with
  | binary hop hl hr hrule =>
    exact ⟨_, _, hc _ (by simp) _ hl, hc _ (by simp) _ hr, hop ▸ hrule.binary?⟩
  | grouping he => exact hc _ (by simp) _ he
  | literal => rfl
  | unary hop he hrule => exact ⟨hc _ (by simp) _ he, hop ▸ hrule.takesUnary⟩
  | name hv hlength => exact ⟨_, (hr.variableAt m).trans hv, hlength, rfl⟩
  | assign hv hlength he hstore =>
    exact ⟨_, (hr.variableAt m).trans hv, hlength,
      ⟨_, hc _ (by simp) _ he, hstore.store? (h.ne_void rfl hv)⟩, rfl⟩
  | assignElement hv hlength hi he hstore =>
    exact ⟨_, (hr.variableAt m).trans hv, hlength, hc _ (by simp) _ hi,
      ⟨_, hc _ (by simp) _ he, hstore.store? (h.ne_void rfl hv)⟩, rfl⟩
  | call hb hf hlength hargs hstore =>
    obtain ⟨_, _, hb', hf', hp⟩ := h.exists_callee rfl
    cases hb.symm.trans hb'
    cases hf.symm.trans hf'
    exact ⟨_, _, (hr.exprs m.id).trans hb, hf, stores_of_types hstore hp hlength fun a ha =>
      hc a.1 (List.of_mem_zip ha).1 _ (hargs a ha), rfl⟩
  | element hv hlength hi =>
    exact ⟨_, (hr.variableAt m).trans hv, hlength, hc _ (by simp) _ hi, rfl⟩
  | random he => exact ⟨hc _ (by simp) _ he, rfl⟩

theorem Ready.typed {e : Expr Mark} (h : Ready t n n'.TypedAs V e) (hT : e.OfType t n T)
    (hr : n.Retains n') : e.HasType t n' T := by
  induction e using Expr.induction generalizing T with
  | step m shape ih =>
    have htype := h.right.root T hT
    refine ⟨.node ⟨T, htype, h.rule hT hr⟩ fun e he => ?_, htype⟩
    obtain ⟨S, hS⟩ := exists_ofType_child hT e he
    exact (ih e he (h.child he) hS).typed

theorem Ready.fitsAs {e : Expr Mark} {target : ValueType} (h : Ready t n n'.TypedAs V e)
    (hvoid : target ≠ .void) (he : ∃ S, e.OfType t n S ∧ target.Assignable S) (hr : n.Retains n') :
    e.FitsAs t n' target := by
  obtain ⟨S, hS, hstore⟩ := he
  exact ⟨(h.typed hS hr).typed, S, (h.typed hS hr).type, hstore.store? hvoid⟩

/-- The target of every jump is noted. -/
def Targets (t : Tree) (n n' : Notes) (s : Stmt Mark) : Prop :=
  s.All fun m shape => (Stmt.node m shape).jump?.isSome = true →
    ∀ l, t.enclosingLoop n m.id = some l → (n'.stmt m.id).target = some l

/-- A well-typed statement is typed if its types and its jumps are noted. -/
theorem ReadyStmt.typed {g : FunctionId} {ret : ValueType} {inLoop : Bool} {s : Stmt Mark}
    (hw : s.WellTyped t n ret inLoop) (hr : n.Retains n') :
    ∀ loop, loop.isSome = inLoop → ReadyStmt t n n'.TypedAs V g ret loop s → Targets t n n' s →
      s.Typed t n' ret loop := by
  induction hw with
  | block _ ih =>
    intro loop hloop h hg
    exact .node trivial fun s hs => ih s hs _ hloop (h.child hs) (hg.child s hs)
  | ret hret he hstore =>
    intro loop hloop h hg
    exact .node ⟨hret, (h.expr (by simp)).fitsAs hret ⟨_, he, hstore⟩ hr⟩ (by simp)
  | retVoid hret => exact fun _ _ _ _ => .node hret (by simp)
  | expression he =>
    intro loop hloop h hg
    exact .node ((h.expr (by simp)).typed he hr).typed (by simp)
  | choice hc _ _ ihb iho =>
    intro loop hloop h hg
    refine .node (fun b hb => (h.expr (List.mem_map_of_mem hb)).typed (hc b hb) hr) fun s hs => ?_
    have hchild := h.child hs
    have htargets := hg.child s hs
    rcases List.mem_append.mp hs with hs | hs
    · obtain ⟨b, hb, rfl⟩ := List.mem_map.mp hs
      exact ihb b hb _ hloop hchild htargets
    · exact iho s (Option.mem_toList.mp hs) _ hloop hchild htargets
  | whileLoop hc _ ih =>
    intro loop hloop h hg
    refine .node ((h.expr (by simp)).typed hc hr) fun s hs => ?_
    have hchild := h.child hs
    have htargets := hg.child s hs
    obtain rfl := List.mem_singleton.mp hs
    exact ih _ rfl hchild htargets
  | forLoop _ hc hu _ ihi ihb =>
    intro loop hloop h hg
    refine .node ⟨fun e he => ?_, fun e he => ?_⟩ fun s hs => ?_
    · exact (h.expr (List.mem_append_left _ (Option.mem_toList.mpr he))).typed (hc e he) hr
    · obtain ⟨T, hT⟩ := hu e he
      exact ((h.expr (List.mem_append_right _ (Option.mem_toList.mpr he))).typed hT hr).typed
    · have hchild := h.child hs
      have htargets := hg.child s hs
      rcases List.mem_append.mp hs with hs | hs
      · exact ihi s (Option.mem_toList.mp hs) _ rfl hchild htargets
      · obtain rfl := List.mem_singleton.mp hs
        exact ihb _ rfl hchild htargets
  | output hes =>
    intro loop hloop h hg
    refine .node (fun e he => ?_) (by simp)
    obtain ⟨T, hT, hty⟩ := hes e he
    exact ⟨T, hT, (h.expr he).typed hty hr⟩
  | input hv hlength =>
    intro loop hloop h hg
    exact .node ⟨_, by rw [hr.bindings, hr.varInfo?, hv], hlength⟩ (by simp)
  | var hinit =>
    intro loop hloop h hg
    refine .node (fun e he => ?_) (by simp)
    exact (h.expr (Option.mem_toList.mpr he)).fitsAs h.formed.root.1 (hinit e he) hr
  | array => exact fun _ _ _ _ => .node (by simp [Stmt.Shape.Rule]) (by simp)
  | arrayInit hlength hes =>
    intro loop hloop h hg
    refine .node (fun e he => ?_) (by simp)
    cases he
    refine ⟨_, _, rfl, h.right.root.2 _ rfl, hlength, fun a ha => ?_⟩
    have hbraces := h.expr (e := .node _ (.braces _)) (Option.mem_toList.mpr rfl)
    exact (hbraces.child ha).fitsAs h.formed.root.1 (hes a ha) hr
  | stop | skip =>
    intro loop hloop h hg
    obtain ⟨l, rfl⟩ := Option.isSome_iff_exists.mp hloop
    exact .node ⟨l, rfl, hg.root rfl l h.enclosing.2⟩ (by simp)

end Typing

/-! ## Right types -/

theorem subperm_flatMap {α β : Type} {as : List α} {f g : α → List β}
    (h : ∀ a ∈ as, (f a).Subperm (g a)) : (as.flatMap f).Subperm (as.flatMap g) := by
  induction as with
  | nil => exact .refl _
  | cons a as ih =>
    rw [List.forall_mem_cons] at h
    exact h.1.append (ih h.2)

/-- The numbers of the lists in a statement that arrays are initialized with, and their types. -/
def Stmt.lists (s : Stmt Mark) : List (ExprId × ValueType) :=
  (s.nested []).filterMap fun x => x.1.shape.list?

/-- The lists are expressions of the statement, each of them once. -/
theorem Stmt.subperm_lists (s : Stmt Mark) :
    (s.lists.map Prod.fst).Subperm (s.exprTags.map Mark.id) := by
  suffices h : ∀ path, (((s.nested path).filterMap fun x => x.1.shape.list?).map Prod.fst).Subperm
      (s.exprTags.map Mark.id) from h []
  induction s using Stmt.induction with
  | step m shape ih =>
    intro path
    have own : (shape.list?.toList.map Prod.fst).Subperm
        ((shape.exprs.flatMap Expr.tags).map Mark.id) := by
      unfold Shape.list?
      split
      · simp [Expr.tags_node]
      · simp
    have all := own.append (subperm_flatMap fun s hs => ih s hs (.node m shape :: path))
    simp only [← List.map_flatMap, ← List.map_append] at all
    refine List.Subperm.trans ?_ (all.trans ((exprTags_node_perm m shape).map Mark.id).symm.subperm)
    rw [nested_node, List.filterMap_cons, List.filterMap_flatMap, Stmt.shape]
    cases shape.list? <;> exact .refl _

/-- The type is that of the expression, or of the array that is initialized with the list. -/
def Tree.RightType (t : Tree) (n : Notes) (id : ExprId) (T : ValueType) : Prop :=
  ∃ e, t.expr? id = some e ∧ (e.OfType t n T ∨ (∃ es, e.shape = .braces es) ∧
    ∃ v ∈ t.views, (id, T) ∈ v.2.body.lists)

theorem Tree.RightType.unique (ht : t.Orderly) {id : ExprId} {T T' : ValueType}
    (h : t.RightType n id T) (h' : t.RightType n id T') : T = T' := by
  obtain ⟨e, he, h⟩ := h
  obtain ⟨e', he', h'⟩ := h'
  cases he.symm.trans he'
  have braces : ∀ {T}, e.OfType t n T → ¬∃ es, e.shape = .braces es := by
    rintro T hT ⟨es, hes⟩
    cases hT <;> cases hes
  rcases h with h | ⟨hes, v, hv, h⟩ <;> rcases h' with h' | ⟨hes', v', hv', h'⟩
  · exact h.unique h'
  · exact absurd hes' (braces h)
  · exact absurd hes (braces h')
  · have nodup : ((t.views.flatMap fun v => v.2.body.lists).map Prod.fst).Nodup := by
      rw [List.map_flatMap]
      obtain ⟨l, hl, hsub⟩ := subperm_flatMap fun (v : FunctionId × Function (Stmt Mark))
        (_ : v ∈ t.views) => v.2.body.subperm_lists
      rw [← List.map_flatMap] at hsub
      exact hl.nodup ((Naming.Distinct.of_ascending ht.exprIds).sublist hsub)
    exact congrArg Prod.snd (List.inj_on_of_nodup_map nodup (List.mem_flatMap.mpr ⟨v, hv, h⟩)
      (List.mem_flatMap.mpr ⟨v', hv', h'⟩) rfl)

/-- The types of the expressions in a function are the right ones. -/
theorem agrees_rightType (ht : t.Orderly) (n : Notes) (hv : v ∈ t.views) :
    v.2.body.Agrees t n (t.RightType n) := by
  have exprs : ∀ e : Expr Mark, e.Held t → Mark.Ascending e.tags →
      e.Agrees t n (t.RightType n) := by
    intro e
    induction e using Expr.induction with
    | step m shape ih =>
      intro h ha
      refine .node (fun T hT => ⟨_, Expr.expr?_of_held h ha, .inl hT⟩) fun e he => ?_
      exact ih e he (h.child e he) (Expr.ascending_child ha he).1
  refine Stmt.all_of_nested (ht.held v hv) [] fun x hx h => ⟨fun e he => ?_, fun y hy => ?_⟩
  · exact exprs e (h.2 e he).1 (h.2 e he).2
  · have hmem : y ∈ v.2.body.lists := List.mem_filterMap.mpr ⟨x, hx, hy⟩
    unfold Stmt.Shape.list? at hy
    split at hy
    · rename_i heq
      cases hy
      have hheld := h.2 _ (by rw [heq]; exact Option.mem_toList.mpr rfl)
      exact ⟨_, Expr.expr?_of_held hheld.1 hheld.2, .inr ⟨⟨_, rfl⟩, v, hv, hmem⟩⟩
    · cases hy

/-! ## Programs -/

/-- What the analysis of a program without errors establishes. -/
structure Program.Checked (p : Program) : Prop where
  orderly : p.tree.Orderly
  named : ∀ v ∈ p.tree.views, p.tree.Named p.notes v.1 v.2
  typed : ∀ v ∈ p.tree.views, v.2.body.Typed p.tree p.notes v.2.returnType none
  main : ∀ f, (p.tree.findFunction? "main").bind (p.tree.functions[·]?) = some f →
    f.params = [] ∧ (f.returnType = .int ∨ f.returnType = .void)
  frames : ∀ v ∈ p.tree.views, p.tree.cells v.2.body.tags < 0x8000000000000000

/-- The names of the expression are those that the function may use, and its types are right. -/
structure Program.Checks (p : Program) (id : FunctionId) (f : Function (Stmt Mark))
    (e : Expr Mark) : Prop where
  typed : e.Typed p.tree p.notes
  bound : e.Bound (p.tree.Usable id f) p.notes

/-- The statement is one of the function, the names in it are those that the function may use, and
its types are right. -/
structure Program.Allows (p : Program) (id : FunctionId) (f : Function (Stmt Mark))
    (s : Stmt Mark) : Prop where
  typed : ∃ loop, s.Typed p.tree p.notes f.returnType loop
  bound : s.Bound (p.tree.Usable id f) p.notes
  held : s.Held p.tree
  within : ∀ m ∈ s.tags, m ∈ f.body.tags

theorem Program.Checked.allows (hp : p.Checked) (hv : v ∈ p.tree.views) :
    p.Allows v.1 v.2 v.2.body :=
  ⟨⟨none, hp.typed v hv⟩, (hp.named v hv).bound, hp.orderly.held v hv, fun _ hm => hm⟩

section

variable {id : FunctionId} {f : Function (Stmt Mark)} {m : Mark}

theorem Program.Checks.child {shape : Expr.Shape (Expr Mark)} {e : Expr Mark}
    (h : p.Checks id f (.node m shape)) (he : e ∈ shape.children) : p.Checks id f e :=
  ⟨h.typed.child e he, h.bound.child e he⟩

namespace Program.Allows

variable {shape : Stmt.Shape (Stmt Mark) (Expr Mark)}

theorem child {s : Stmt Mark} (h : p.Allows id f (.node m shape)) (hs : s ∈ shape.children) :
    p.Allows id f s := by
  obtain ⟨_, typed⟩ := h.typed
  exact ⟨⟨_, typed.child s hs⟩, h.bound.child s hs, h.held.child s hs,
    fun u hu => h.within u (Stmt.mem_tags_of_child hs hu)⟩

theorem checks {e : Expr Mark} (h : p.Allows id f (.node m shape)) (he : e ∈ shape.exprs)
    (ht : e.Typed p.tree p.notes) : p.Checks id f e :=
  ⟨ht, h.bound.root.1 e he⟩

/-- The cells of a declaration. -/
theorem cell {slot : Int} (h : p.Allows id f (.node m shape))
    (hslot : (p.notes.stmt m.id).slot = some slot) {cells i : Nat}
    (hcells : shape.cells? = some cells) (hi : i < cells) :
    p.tree.CellAt p.notes id f (.localVar m.id) i (slot + i) :=
  Tree.cellAt_of_held h.held (h.within m (Stmt.mem_tags_self m shape)) hslot hcells hi

end Program.Allows

end

theorem Tree.Orderly.mem_views_of_functions (ht : t.Orderly) {id : FunctionId}
    {f : Function StmtId} (hf : t.functions[id]? = some f) :
    ∃ v ∈ t.views, v.1 = id ∧ f = v.2.ids := by
  have hlt : id < t.functions.size := (Array.getElem?_eq_some_iff.mp hf).1
  have hid : id ∈ t.views.map Prod.fst := by
    rw [ht.ids]
    exact List.mem_range.mpr hlt
  obtain ⟨v, hv, rfl⟩ := List.mem_map.mp hid
  exact ⟨v, hv, rfl, Option.some.inj (hf.symm.trans (ht.functions v hv))⟩

theorem Tree.function?_of_mem_views (hv : v ∈ t.views) : t.function? v.1 = some v.2 := by
  obtain ⟨id, -, hid⟩ := List.mem_filterMap.mp hv
  obtain ⟨f, hview, rfl⟩ := Option.map_eq_some_iff.mp hid
  exact hview

/-- The function `main` of a checked program has no parameters. -/
theorem Program.Checked.mem_views_main (hp : p.Checked) {main : FunctionId}
    (hmain : p.tree.findFunction? "main" = some main) :
    ∃ f, (main, f) ∈ p.tree.views ∧ f.params = [] := by
  obtain ⟨hlt, -⟩ := Array.findIdx?_eq_some_iff_getElem.mp hmain
  have hf : p.tree.functions[main]? = some p.tree.functions[main] := Array.getElem?_eq_getElem hlt
  obtain ⟨hparams, -⟩ := hp.main _ (by rw [hmain, Option.bind_some, hf])
  obtain ⟨v, hv, rfl, heq⟩ := hp.orderly.mem_views_of_functions hf
  rw [heq] at hparams
  exact ⟨v.2, hv, hparams⟩

theorem covers_link (ht : t.Orderly) : (t.link (.blank t)).Covers t := by
  have hblank : (Notes.blank t).stmts.size = t.stmts.size := by simp [Notes.blank]
  obtain ⟨hl, -⟩ := link_linked ht hblank
  refine ⟨?_, hl.size.trans hblank, ?_⟩
  · rw [hl.exprs]
    simp [Notes.blank]
  · rw [hl.functions]
    simp [Notes.blank]

/-- The statements of an orderly program are placed for the walk of the checker. -/
theorem placed_body (ht : t.Orderly)
    (hn : ∀ id, (n.stmt id).parent = ((t.link (.blank t)).stmt id).parent) (hv : v ∈ t.views) :
    Typing.Placed t n v.1 v.2.returnType (.function v.1) none 0 v.2.body where
  held := ht.held v hv
  ascending := by
    obtain ⟨as, bs, hab⟩ := List.append_of_mem hv
    have hids := ht.stmtIds
    rw [hab, List.flatMap_append, List.flatMap_cons] at hids
    exact (List.pairwise_append.mp (List.pairwise_append.mp hids).2.1).1
  linked := by
    have hblank : (Notes.blank t).stmts.size = t.stmts.size := by simp [Notes.blank]
    exact ((link_linked ht hblank).2 v hv).congr fun m _ => hn m.id
  surrounds := surrounds_function t n v.1
  depth := by
    rw [Nat.zero_add]
    exact (ht.held v hv).lt_size
  function := ⟨v.2.ids, ht.functions v hv, rfl⟩

theorem inRange_frameSlots (h : p.framesFit = true) (id : FunctionId) :
    Word.inRange (p.notes.function id).frameSlots = true := by
  rw [Notes.function, Array.getD_eq_getD_getElem?]
  cases hid : p.notes.functions[id]? with
  | none => rfl
  | some f =>
    obtain ⟨hlt, rfl⟩ := Array.getElem?_eq_some_iff.mp hid
    exact Array.all_eq_true.mp h id hlt

/-- What may be used in a parsed function is there, and not void. -/
theorem sound_usable (ht : t.Orderly) (n : Notes) (hv : v ∈ t.views) :
    Typing.Sound t n (t.Usable v.1 v.2) where
  vars b hb hk := by
    cases b with
    | param g i =>
      obtain ⟨rfl, hi⟩ := hb
      have hp : v.2.ids.params[i]? = some v.2.params[i] := List.getElem?_eq_getElem hi
      rw [Tree.varInfo?, ht.functions v hv, Option.bind_eq_bind, Option.bind_some, hp]
      exact ⟨_, rfl, (ht.formed v hv).params _ (List.getElem_mem hi)⟩
    | localVar s =>
      obtain ⟨⟨m, hm, rfl⟩, hcells⟩ := hb
      obtain ⟨shape, hshape⟩ := Stmt.exists_shape_of_mem_tags hm
      have hnode := (hshape _ (ht.held v hv)).1
      have hfits := (hshape _ (ht.formed v hv).body).1
      rw [Tree.cells?, hnode] at hcells
      rw [Tree.varInfo?, hnode]
      cases shape with
      | var name type init | array name type length init => exact ⟨_, rfl, hfits⟩
      | _ => cases hcells
    | function g => cases hk
  functions b hb hk := by
    cases b with
    | param g i | localVar s => cases hk
    | function g =>
      have hf : t.functions[g]? = some t.functions[g] := Array.getElem?_eq_getElem hb
      obtain ⟨w, hw, -, heq⟩ := ht.mem_views_of_functions hf
      exact ⟨g, _, rfl, hf, heq ▸ (ht.formed w hw).params⟩

/-- The names of the program are resolved. -/
structure Tree.Resolved (t : Tree) (n : Notes) : Prop where
  named : ∀ v ∈ t.views, t.Named n v.1 v.2
  covers : n.Covers t
  parents : ∀ id, (n.stmt id).parent = ((t.link (.blank t)).stmt id).parent

/-- The body of a function is ready for the walk. -/
theorem ready_body (ht : t.Orderly) (hn : t.Resolved n) (hv : v ∈ t.views)
    {R : ExprId → ValueType → Prop} (hR : v.2.body.Agrees t n R) :
    Typing.ReadyStmt t n R (t.Usable v.1 v.2) v.1 v.2.returnType none v.2.body :=
  ⟨⟨_, _, placed_body ht hn.parents hv⟩, sound_usable ht _ hv, (hn.named v hv).bound,
    (ht.formed v hv).body, hR⟩

section Resolved

variable {t : Tree} (ht : t.Orderly) {p : Program} (htree : p.tree = t) (hn : t.Resolved p.notes)
include ht htree hn

/-- The checker reports nothing exactly if the bodies are well-typed, if there are returns where
there have to be, and `main` takes nothing and returns an integer or nothing. -/
theorem check_eq_nil_iff : p.check.2 = [] ↔
    (∀ v ∈ t.views, v.2.body.WellTyped t p.notes v.2.returnType false ∧
      (v.2.returnType ≠ .void → Typing.counted t p.notes v.1 v.2 ≠ [])) ∧
    ∀ f, (t.findFunction? "main").bind (t.functions[·]?) = some f →
      f.params = [] ∧ (f.returnType = .int ∨ f.returnType = .void) := by
  obtain ⟨d, es, -, hcheck, hdecides⟩ :=
    Program.exists_check_decides t p.notes (t.RightType p.notes) fun v => t.Usable v.1 v.2
  rw [hcheck p htree ⟨.refl _, rfl⟩]
  exact (hdecides fun v hv => ready_body ht hn hv (agrees_rightType ht _ hv)).2

/-- Then the types of all expressions are noted, and the loops of all jumps. -/
theorem ready_of_check (h : p.check.2 = []) (hv : v ∈ t.views) :
    Typing.ReadyStmt t p.notes p.check.1.notes.TypedAs (t.Usable v.1 v.2) v.1 v.2.returnType none
      v.2.body ∧ Typing.Targets t p.notes p.check.1.notes v.2.body := by
  obtain ⟨d, es, hd, hcheck, hdecides⟩ :=
    Program.exists_check_decides t p.notes (t.RightType p.notes) fun v => t.Usable v.1 v.2
  rw [hcheck p htree ⟨.refl _, rfl⟩] at h ⊢
  have agrees := agrees_rightType ht p.notes hv
  have noted := (hdecides fun v hv => ready_body ht hn hv (agrees_rightType ht _ hv)).1 h
  refine ⟨ready_body ht hn hv (agrees.imp fun m hm T hT => ?_), ?_⟩
  · obtain ⟨T', hT', hset⟩ := noted.all m (List.mem_flatMap.mpr ⟨v, hv, hm⟩)
    rw [Notes.TypedAs, Edit.expr_apply,
      if_pos (hn.covers.exprs ▸ (ht.held v hv).expr_lt_size_of_mem hm), hset, hT.unique ht hT']
  · refine Stmt.all_of_nested (ht.held v hv) [] fun x hx hheld hjump l hl => ?_
    have visited : (Typing.events t p.notes).any (Typing.Event.jumpsAt x.1.tag.id) = true := by
      refine List.any_eq_true.mpr ⟨.visit x.1, ?_, ?_⟩
      · exact List.mem_flatMap.mpr ⟨v, hv, List.mem_append_left _
          (List.mem_cons_of_mem _ (List.mem_map_of_mem hx))⟩
      · obtain ⟨⟨m, shape⟩, path⟩ := x
        exact Bool.and_eq_true_iff.mpr ⟨hjump, decide_eq_true rfl⟩
    have hid := (Array.getElem?_eq_some_iff.mp hheld.1).1
    rw [Edit.stmt_apply, if_pos (hn.covers.stmts ▸ hid), hd.stmt, Typing.Event.target_edits,
      if_pos visited, hl, Option.some_or]

end Resolved

/-- What the checker finds out about a program whose names are resolved. -/
theorem typed_of_check (ht : t.Orderly) (hp : p = .ofTree t) (hnames : p.resolve.2 = []) :
    p.resolve.1.notes.Retains p.resolve.1.check.1.notes ∧
      (p.resolve.1.check.2 = [] →
        (∀ v ∈ t.views, v.2.body.Typed t p.resolve.1.check.1.notes v.2.returnType none) ∧
        ∀ f, (t.findFunction? "main").bind (t.functions[·]?) = some f →
          f.params = [] ∧ (f.returnType = .int ∨ f.returnType = .void)) := by
  subst hp
  obtain ⟨named, covers, parents⟩ := resolve_named ht (covers_link ht) hnames
  have hn : t.Resolved (Program.ofTree t).resolve.1.notes := ⟨named, covers, parents⟩
  have hr := (Program.ofTree t).resolve.1.resembles_check.toRetains
  refine ⟨hr, fun hnone => ?_⟩
  obtain ⟨bodies, main⟩ := (check_eq_nil_iff ht rfl hn).mp hnone
  refine ⟨fun v hv => ?_, main⟩
  obtain ⟨ready, targets⟩ := ready_of_check ht rfl hn hnone hv
  exact Typing.ReadyStmt.typed (bodies v hv).1 hr none rfl ready targets

/-- An orderly program without errors whose frames fit is checked. -/
theorem checked_of_analyze (ht : t.Orderly) (hnames : (Program.ofTree t).analyze.2.1 = [])
    (htypes : (Program.ofTree t).analyze.2.2 = [])
    (hfit : (Program.ofTree t).analyze.1.framesFit = true) :
    (Program.ofTree t).analyze.1.Checked := by
  obtain ⟨named, -, -⟩ := resolve_named ht (covers_link ht) hnames
  obtain ⟨hr, hchecked⟩ := typed_of_check ht rfl hnames
  obtain ⟨typed, main⟩ := hchecked htypes
  have named' : ∀ v ∈ t.views, t.Named (Program.ofTree t).analyze.1.notes v.1 v.2 := fun v hv =>
    (named v hv).congr (fun m _ => hr.exprs m.id) (fun m _ => hr.bindings m.id)
      (fun m _ => hr.slots m.id) (hr.params v.1) (hr.frames v.1)
  exact
    { orderly := ht
      named := named'
      typed := typed
      main := main
      frames := fun v hv => by
        have hrange := inRange_frameSlots hfit v.1
        rw [(named' v hv).frame, Word.inRange_iff] at hrange
        exact Int.ofNat_lt.mp hrange.2 }

/-- A program that is parsed is laid out from formed functions. -/
theorem orderly_of_parse {tokens : List Token} (h : Program.parse tokens = .ok p) :
    ∃ t : Tree, t.Orderly ∧ p = .ofTree t := by
  rw [Program.parse] at h
  cases hparse : Parse.functions.run (.start tokens) with
  | error e => simp [hparse, Except.map] at h
  | ok r =>
    simp only [hparse, Except.map, Except.ok.injEq] at h
    refine ⟨_, (orderly_layFunctions (Parse.functions_formed hparse)).1, ?_⟩
    rw [← h, Program.ofFunctions]

theorem orderly_of_parseSource {s : String} (h : parseSource s = .ok p) :
    ∃ t : Tree, t.Orderly ∧ p = .ofTree t := by
  rw [parseSource] at h
  cases hscan : Token.scan s with
  | error e => simp [hscan, Except.mapError, bind, Except.bind] at h
  | ok tokens =>
    simp only [hscan, Except.mapError, bind, Except.bind] at h
    cases hparse : Program.parse tokens with
    | error e => simp [hparse] at h
    | ok q =>
      simp only [hparse, Except.ok.injEq] at h
      exact orderly_of_parse (h ▸ hparse)

/-- What comes of the analysis of a parsed text. -/
theorem analyzeSource_of_parseSource {s : String} (hparse : parseSource s = .ok p) :
    analyzeSource s =
      if !p.analyze.1.framesFit then .error .frameOverflow
      else if p.analyze.2.1.isEmpty && p.analyze.2.2.isEmpty then .ok p.analyze.1
      else .error (.diagnostics p.analyze.2.1 p.analyze.2.2) := by
  rw [analyzeSource, hparse]
  rfl

/-- The frames of a text that is accepted fit, and its names and types are right. -/
theorem exists_analyze_of_analyzeSource {s : String} (h : analyzeSource s = .ok p) :
    ∃ q, parseSource s = .ok q ∧ q.analyze.1.framesFit = true ∧ q.analyze.2.1 = [] ∧
      q.analyze.2.2 = [] ∧ p = q.analyze.1 := by
  cases hparse : parseSource s with
  | error e => simp [analyzeSource, hparse, bind, Except.bind] at h
  | ok q =>
    rw [analyzeSource_of_parseSource hparse] at h
    split at h
    · cases h
    · rename_i hfit
      split at h
      · rename_i hnone
        cases h
        rw [Bool.and_eq_true, List.isEmpty_iff, List.isEmpty_iff] at hnone
        exact ⟨q, rfl, by simpa using hfit, hnone.1, hnone.2, rfl⟩
      · cases h

/-- A text that is accepted spells out a checked program. -/
theorem checked_of_analyzeSource {s : String} (h : analyzeSource s = .ok p) : p.Checked := by
  obtain ⟨q, hparse, hfit, hnames, htypes, rfl⟩ := exists_analyze_of_analyzeSource h
  obtain ⟨t, ht, rfl⟩ := orderly_of_parseSource hparse
  exact checked_of_analyze ht hnames htypes hfit

end StackLang
