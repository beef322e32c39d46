import StackLang.Proofs.Analysis.Repeating

/-!
# Nesting

The links from statements upwards say how the statements are nested, and what the checker notes at
jumps and functions, and reports about them, follows from the nesting alone.

* `Stmt.innermostLoop`, `Function.returnIds`, `Function.placeErrors` — what the nesting says.
* `Typing.Placed.nested` — every statement is linked along the statements around it.
* `Typing.returns_events` — what is noted when statements are come by.
* `check_nesting` — the notes and errors of a checked program are those of its nesting.
-/

namespace StackLang

variable {v : FunctionId × Function (Stmt Mark)} {n : Notes} {id : FunctionId} {t : Tree}

/-! ## What the nesting says -/

namespace Stmt

def isLoop {τ : Type} (s : Stmt τ) : Bool :=
  s.shape.isLoop

def isReturn {τ : Type} : Stmt τ → Bool
  | node _ (.ret _ _) => true
  | _ => false

/-- The innermost loop of the statements around a statement. -/
def innermostLoop (path : List (Stmt Mark)) : Option StmtId :=
  (path.find? isLoop).map (·.tag.id)

end Stmt

namespace Function

/-- The return statements of a function, in the order of the source. -/
def returnIds (f : Function (Stmt Mark)) : List StmtId :=
  (((f.body.nested []).map Prod.fst).filter Stmt.isReturn).map (·.tag.id)

/-- What is wrong with the places of jumps and the lack of return statements: each jump without a
loop around it, in the order of the source, and a result that is never returned. -/
def placeErrors (f : Function (Stmt Mark)) : List TypeError :=
  ((f.body.nested []).filterMap fun x =>
    if (Stmt.innermostLoop x.2).isNone then
      x.1.jump?.map fun k => ⟨.outsideLoop k.lexeme, x.1.tag.line⟩
    else none) ++
  if f.returnType ≠ .void && f.returnIds.isEmpty then [⟨.noReturn f.name.lexeme, f.name.line⟩]
  else []

end Function

/-- From the statement upwards there are the given statements, and then the function. -/
inductive Notes.Ascends (n : Notes) (id : FunctionId) : StmtId → List StmtId → Prop where
  | top {s : StmtId} (h : (n.stmt s).parent = some (.function id)) : Ascends n id s []
  | up {s above : StmtId} {path : List StmtId} (h : (n.stmt s).parent = some (.stmt above))
    (rest : Ascends n id above path) : Ascends n id s (above :: path)

theorem Notes.Ascends.lt_size {s : StmtId} {path : List StmtId} (h : n.Ascends id s path) :
    s < n.stmts.size := by
  refine Nat.lt_of_not_le fun hle => ?_
  cases h <;> simp_all [Notes.stmt_of_le hle]

namespace Typing

variable {t : Tree} {n₀ : Notes} {id : FunctionId} {ret : ValueType} {loop : Option StmtId}

/-- Every statement is linked along the statements around it.  The invariant is that what is linked
to the owner of the statement is linked along `path`. -/
theorem Placed.nested {s : Stmt Mark} : ∀ {o : Owner} {path : List (Stmt Mark)} {k : Nat},
    Placed t n₀ id ret o (Stmt.innermostLoop path) k s →
    (∀ a, (n₀.stmt a).parent = some o → n₀.Ascends id a (path.map (·.tag.id))) →
    ∀ x ∈ s.nested path, n₀.Ascends id x.1.tag.id (x.2.map (·.tag.id)) ∧
      t.enclosingFunction n₀ x.1.tag.id = some id ∧
      t.enclosingLoop n₀ x.1.tag.id = Stmt.innermostLoop x.2 := by
  induction s using Stmt.induction with
  | step m shape ih =>
    intro o path k h hup x hx
    have root : (n₀.stmt m.id).parent = some o := by
      cases h.linked with
      | node root _ => exact root
    rw [Stmt.nested_node, List.mem_cons, List.mem_flatMap] at hx
    rcases hx with rfl | ⟨s, hs, hx⟩
    · exact ⟨hup m.id root, h.enclosing⟩
    · have inner : shape.innerLoop m (Stmt.innermostLoop path) =
          Stmt.innermostLoop (.node m shape :: path) := by
        rw [Stmt.Shape.innerLoop, Stmt.innermostLoop, Stmt.innermostLoop, List.find?_cons,
          Stmt.isLoop, Stmt.shape]
        cases shape.isLoop <;> rfl
      have below := h.child hs
      rw [inner] at below
      exact ih s hs below (fun a ha => .up ha (hup m.id root)) x hx

/-! ## What is noted -/

namespace Event

theorem returns_visit (s : Stmt Mark) (id : FunctionId) (x : FunctionNote) :
    (((visit s).edit t n₀).function id x).returns = x.returns ++
      if s.isReturn && t.enclosingFunction n₀ s.tag.id = some id then [s.tag.id] else [] := by
  obtain ⟨m, shape⟩ := s
  have idle : x.returns = x.returns ++ [] := (List.append_nil _).symm
  cases shape with
  | ret k v =>
    cases h : t.enclosingFunction n₀ m.id with
    | none => simp [edit, h, Stmt.tag, Edit.none]
    | some f =>
      by_cases hid : id = f
      · simp [edit, h, hid, Stmt.tag, Stmt.isReturn, Edit.onFunction]
      · have hne : f ≠ id := fun h => hid h.symm
        simp [edit, h, hid, hne, Stmt.tag, Edit.onFunction]
  | stop k | skip k =>
    cases h : t.enclosingLoop n₀ m.id <;> simp [edit, h, Stmt.isReturn, Edit.none, Edit.onStmt]
  | _ => exact idle

/-- The return statements of a function are added as they are come by. -/
theorem returns_edits (ss : List (Stmt Mark)) (id : FunctionId) : ∀ x : FunctionNote,
    ((edits t n₀ (ss.map visit)).function id x).returns = x.returns ++ (ss.filter fun s =>
      s.isReturn && t.enclosingFunction n₀ s.tag.id = some id).map (·.tag.id) := by
  induction ss with
  | nil => exact fun x => (List.append_nil _).symm
  | cons s ss ih =>
    intro x
    refine (ih _).trans ?_
    rw [returns_visit, List.filter_cons, List.append_assoc]
    split <;> rfl

end Event

/-! ## Functions -/

/-- What the proofs below need to know about notes: all statements of the function are linked, and
there is room for the function. -/
structure Links (t : Tree) (n₀ : Notes) (v : FunctionId × Function (Stmt Mark)) : Prop where
  room : v.1 < n₀.functions.size
  function : ∀ x ∈ v.2.body.nested [], t.enclosingFunction n₀ x.1.tag.id = some v.1
  loop : ∀ x ∈ v.2.body.nested [], t.enclosingLoop n₀ x.1.tag.id = Stmt.innermostLoop x.2

variable {v : FunctionId × Function (Stmt Mark)}

/-- Behind the body of a function its return statements are noted, whatever there was before, and
those of the others are as before. -/
theorem Links.returns_body (h : Links t n₀ v) (id : FunctionId) (x : FunctionNote) :
    ((Event.edits t n₀ (.enter v.1 :: visits [] v.2.body)).function id x).returns =
      if id = v.1 then v.2.returnIds else x.returns := by
  have hvisits : visits [] v.2.body = ((v.2.body.nested []).map Prod.fst).map .visit := by
    rw [visits, List.map_map]
    rfl
  have hown : ((v.2.body.nested []).map Prod.fst).filter (fun s =>
      s.isReturn && t.enclosingFunction n₀ s.tag.id = some id) =
      ((v.2.body.nested []).map Prod.fst).filter fun s => s.isReturn && decide (id = v.1) := by
    refine List.filter_congr fun s hs => ?_
    obtain ⟨y, hy, rfl⟩ := List.mem_map.mp hs
    simp [h.function y hy, eq_comm]
  refine (hvisits ▸ Event.returns_edits _ id _).trans ?_
  rw [hown, Function.returnIds, Event.edit, Edit.onFunction]
  by_cases hid : id = v.1 <;> simp [hid]

theorem Links.counted_eq (h : Links t n₀ v) : counted t n₀ v.1 v.2 = v.2.returnIds := by
  rw [Typing.counted, if_pos h.room, h.returns_body, if_pos rfl]

theorem Links.returns_function (h : Links t n₀ v) (id : FunctionId) (x : FunctionNote) :
    ((Event.edits t n₀ (functionEvents t n₀ v.1 v.2)).function id x).returns =
      if id = v.1 then v.2.returnIds else x.returns := by
  rw [← h.returns_body, functionEvents, Event.edits_append]
  split <;> rfl

theorem Links.returns_others {vs : List (FunctionId × Function (Stmt Mark))}
    (h : ∀ v ∈ vs, Links t n₀ v) (hid : id ∉ vs.map Prod.fst) : ∀ x : FunctionNote,
    ((Event.edits t n₀ (vs.flatMap fun v => functionEvents t n₀ v.1 v.2)).function id x).returns =
      x.returns := by
  induction vs with
  | nil => exact fun _ => rfl
  | cons v vs ih =>
    intro x
    rw [List.map_cons, List.mem_cons, not_or] at hid
    rw [List.forall_mem_cons] at h
    rw [List.flatMap_cons, Event.edits_append]
    refine (ih h.2 hid.2 _).trans ?_
    rw [h.1.returns_function, if_neg hid.1]

/-- The return statements of a function are noted behind all functions. -/
theorem returns_events (h : ∀ v ∈ t.views, Links t n₀ v) (hids : (t.views.map Prod.fst).Nodup)
    (hv : v ∈ t.views) (x : FunctionNote) :
    ((Event.edits t n₀ (events t n₀)).function v.1 x).returns = v.2.returnIds := by
  rw [events]
  obtain ⟨before, behind, hviews⟩ := List.append_of_mem hv
  rw [hviews] at h hids ⊢
  rw [List.map_append, List.map_cons] at hids
  have hbehind := (List.nodup_cons.mp (List.nodup_append.mp hids).2.1).1
  rw [List.flatMap_append, List.flatMap_cons, Event.edits_append, Event.edits_append]
  refine (Links.returns_others (fun w hw => h w (by simp [hw])) hbehind _).trans ?_
  rw [(h v (by simp)).returns_function, if_pos rfl]

/-- What is reported about the places in a function. -/
theorem Links.errors (h : Links t n₀ v) :
    (functionEvents t n₀ v.1 v.2).filterMap (Event.error? t n₀) = v.2.placeErrors := by
  have jumps : (visits [] v.2.body).filterMap (Event.error? t n₀) =
      (v.2.body.nested []).filterMap fun x => if (Stmt.innermostLoop x.2).isNone then
        x.1.jump?.map fun k => ⟨.outsideLoop k.lexeme, x.1.tag.line⟩ else none := by
    rw [visits, List.filterMap_map]
    refine List.filterMap_congr fun x hx => ?_
    rw [← h.loop x hx]
    obtain ⟨⟨m, shape⟩, path⟩ := x
    cases shape with
    | stop k => rfl
    | skip k => rfl
    | _ => simp [Event.error?, Stmt.jump?]
  rw [functionEvents, h.counted_eq, List.cons_append, List.filterMap_cons_none rfl,
    List.filterMap_append, jumps, Function.placeErrors]
  split <;> rfl

end Typing

/-! ## Programs -/

/-- The statements of an orderly program are linked along the statements around them. -/
theorem nested_body (ht : t.Orderly)
    (hn : ∀ id, (n.stmt id).parent = ((t.link (.blank t)).stmt id).parent) (hv : v ∈ t.views)
    {x : Stmt Mark × List (Stmt Mark)} (hx : x ∈ v.2.body.nested []) :
    n.Ascends v.1 x.1.tag.id (x.2.map (·.tag.id)) ∧
      t.enclosingFunction n x.1.tag.id = some v.1 ∧
      t.enclosingLoop n x.1.tag.id = Stmt.innermostLoop x.2 :=
  (placed_body ht hn hv).nested (fun _ h => .top h) x hx

theorem links_body (ht : t.Orderly) (hc : n.Covers t)
    (hn : ∀ id, (n.stmt id).parent = ((t.link (.blank t)).stmt id).parent) (hv : v ∈ t.views) :
    Typing.Links t n v where
  room := hc.functions ▸ (Array.getElem?_eq_some_iff.mp (ht.functions v hv)).1
  function _ hx := (nested_body ht hn hv hx).2.1
  loop _ hx := (nested_body ht hn hv hx).2.2

/-- Neither linking nor resolving names gives a jump its target. -/
theorem target_eq_none (ht : t.Orderly) {q : Program}
    (hq : q = .ofTree t ∨ q = (Program.ofTree t).resolve.1) (id : StmtId) :
    (q.notes.stmt id).target = none := by
  have hblank : (Notes.blank t).stmts.size = t.stmts.size := by simp [Notes.blank]
  have hlink : ((Program.ofTree t).notes.stmt id).target = none := by
    refine ((link_linked ht hblank).1.target id).trans ?_
    rw [Notes.stmt, Array.getD_eq_getD_getElem?, Notes.blank, Array.getElem?_map]
    cases t.stmts[id]? <;> rfl
  rcases hq with rfl | rfl
  · exact hlink
  · obtain ⟨b, s, h⟩ := (names_nameEdit t).exists_stmt_apply (t.link (.blank t)).unscoped id
    obtain ⟨hnotes, -⟩ := resolve_empty ht (t.link (.blank t))
    rw [← hnotes, Notes.stmt_unscoped, Notes.stmt_unscoped] at h
    have hsame := congrArg StmtNote.target h
    simp only at hsame
    exact hsame.trans hlink

/-- The links from the statements of a parsed program upwards say how they are nested: from a
statement one comes through the statements around it to its function, and the function and the loop
that are found that way are the function it is part of and the innermost loop around it.  Checking
the program, with or without its names resolved, notes that loop at every jump and the return
statements of every function, in the order of the source, and reports each jump without a loop and
each function that lacks return statements once, and no other place. -/
theorem check_nesting {tokens : List Token} {p q : Program} (hparse : Program.parse tokens = .ok p)
    (hq : q = p ∨ q = p.resolve.1) :
    (∀ v ∈ p.tree.views,
      (∀ x ∈ v.2.body.nested [],
        q.notes.Ascends v.1 x.1.tag.id (x.2.map (·.tag.id)) ∧
        q.tree.enclosingFunction q.notes x.1.tag.id = some v.1 ∧
        q.tree.enclosingLoop q.notes x.1.tag.id = Stmt.innermostLoop x.2 ∧
        (x.1.jump?.isSome →
          (q.check.1.notes.stmt x.1.tag.id).target = Stmt.innermostLoop x.2)) ∧
      (q.check.1.notes.function v.1).returns = v.2.returnIds) ∧
    q.check.2.filter (·.fault.ofPlace) = p.tree.views.flatMap fun v => v.2.placeErrors := by
  obtain ⟨t, ht, rfl⟩ := orderly_of_parse hparse
  obtain ⟨-, resolved, kept⟩ := resolve_framed ht (covers_link ht)
  have htree : q.tree = t := by rcases hq with rfl | rfl <;> rfl
  have covers : q.notes.Covers t := by
    rcases hq with rfl | rfl
    · exact covers_link ht
    · exact resolved
  have parents : ∀ id, (q.notes.stmt id).parent = ((t.link (.blank t)).stmt id).parent := by
    rcases hq with rfl | rfl
    · exact fun _ => rfl
    · exact kept
  have links : ∀ v ∈ t.views, Typing.Links t q.notes v :=
    fun v hv => links_body ht covers parents hv
  obtain ⟨d, es, hd, hcheck⟩ := Program.exists_check_effect t q.notes
  rw [hcheck q htree ⟨.refl _, rfl⟩, htree]
  refine ⟨fun v hv => ⟨fun x hx => ?_, ?_⟩, ?_⟩
  · obtain ⟨ascends, hfunction, hloop⟩ := nested_body ht parents hv hx
    refine ⟨ascends, hfunction, hloop, fun hjump => ?_⟩
    have visited : (Typing.events t q.notes).any (Typing.Event.jumpsAt x.1.tag.id) = true := by
      refine List.any_eq_true.mpr ⟨.visit x.1, ?_, by simp [Typing.Event.jumpsAt, hjump]⟩
      exact List.mem_flatMap.mpr ⟨v, hv, List.mem_append_left _
        (List.mem_cons_of_mem _ (List.mem_map_of_mem hx))⟩
    rw [Edit.stmt_apply, if_pos ascends.lt_size, hd.stmt, Typing.Event.target_edits, if_pos visited,
      hloop, target_eq_none ht hq, Option.or_none]
  · rw [Edit.function_apply, if_pos (links v hv).room, hd.function]
    exact Typing.returns_events links (ht.ids ▸ List.nodup_range) hv _
  · show es.filter (·.fault.ofPlace) = t.views.flatMap _
    rw [hd.errors, Typing.events, List.filterMap_flatMap]
    exact List.flatMap_congr fun v hv => (links v hv).errors

set_option maxRecDepth 20000 in
/-- A function that lacks return statements, with jumps in a loop, in a loop of a loop and in none,
and one with two return statements and a jump in no loop. -/
theorem check_nesting_jumps :
    ∃ tokens p, Program.parse tokens = .ok p ∧
      p.resolve.1.check.2 = [⟨.outsideLoop "break", 3⟩, ⟨.noReturn "f", 1⟩,
        ⟨.outsideLoop "continue", 5⟩] ∧
      (p.tree.views.flatMap fun v => v.2.placeErrors) = p.resolve.1.check.2 ∧
      (p.tree.views.map fun v => v.2.returnIds.length) = [0, 2] := by
  obtain ⟨tokens, h⟩ : ∃ tokens, ((Program.parse tokens).toOption.any fun p =>
      decide (p.resolve.1.check.2 = [⟨.outsideLoop "break", 3⟩, ⟨.noReturn "f", 1⟩,
        ⟨.outsideLoop "continue", 5⟩]) &&
      decide ((p.tree.views.map fun v => (p.resolve.1.check.1.notes.function v.1).returns.length) =
        [0, 2])) = true := by
    refine ⟨((Token.scan ("int f(int n) \x7b while (n > 0) \x7b continue;\n" ++
      " for (;;) \x7b if (n == 1) \x7b break; \x7d \x7d \x7d\n break; \x7d\n" ++
      "void main() \x7b if (true) \x7b return; \x7d\n continue; return; \x7d")).toOption).getD [],
        ?_⟩
    decide +kernel
  simp only [any_toOption_iff, Bool.and_eq_true, decide_eq_true_eq] at h
  obtain ⟨p, hp, h⟩ := h
  obtain ⟨places, errors⟩ := check_nesting hp (.inr rfl)
  refine ⟨tokens, p, hp, h.1, ?_, h.2 ▸ List.map_congr_left fun v hv => ?_⟩
  · rw [← errors, h.1]
    rfl
  · rw [(places v hv).2]

end StackLang
