import StackLang.Proofs.Analysis.TypeRules
import StackLang.Proofs.Program.Edits

/-!
# Checking types is an edit

The checker goes by the names, the places and the links, and not by what it has noted itself.  What
is noted at statements and functions follows from the statements that the checker comes by.

* `Notes.Resembles` — notes that the checker cannot tell apart.
* `Typing.Event` — what the checker comes by, and `Typing.Effect` what it does then.
* `Edit.Annotates` — an edit that notes types at expressions.
-/

namespace StackLang

/-- The notes say the same, on as many functions, apart from scopes, types, loops and returns. -/
structure Notes.Resembles (n n' : Notes) : Prop extends n.Retains n' where
  size : n'.functions.size = n.functions.size

namespace Notes

variable {n n' n'' : Notes} {d : Edit}

theorem Resembles.trans (h : n.Resembles n') (h' : n'.Resembles n'') : n.Resembles n'' :=
  ⟨h.toRetains.trans h'.toRetains, h'.size.trans h.size⟩

/-- An edit of types leaves everything else. -/
theorem resembles_apply {cleared : List FunctionId} (hd : d.Types cleared) :
    n.Resembles (d.apply n) := by
  have hexpr : ∀ id, ((d.apply n).expr id).binding = (n.expr id).binding := by
    intro id
    obtain ⟨T, hT⟩ := hd.expr id
    rw [Edit.expr_apply, hT]
    split
    · rfl
    · rename_i hid
      rw [expr_of_le (Nat.le_of_not_lt hid)]
  have hstmt : ∀ id, ∃ target, (d.apply n).stmt id = { n.stmt id with target := target } := by
    intro id
    obtain ⟨l, hl⟩ := hd.stmt id
    rw [Edit.stmt_apply, hl]
    split
    · exact ⟨_, rfl⟩
    · rename_i hid
      exact ⟨none, by rw [stmt_of_le (Nat.le_of_not_lt hid)]⟩
  have hfunction : ∀ id, ∃ returns, (d.apply n).function id =
      { n.function id with returns := returns } := by
    intro id
    obtain ⟨keeps, added, -, hadded⟩ := hd.function id
    rw [Edit.function_apply, hadded]
    split
    · exact ⟨_, rfl⟩
    · rename_i hid
      exact ⟨[], by rw [function_of_le (Nat.le_of_not_lt hid)]⟩
  refine ⟨⟨hexpr, fun id => ?_, fun id => ?_, fun id => ?_, fun id => ?_, fun id => ?_⟩, by simp⟩
  · obtain ⟨_, h⟩ := hstmt id
    rw [h]
  · obtain ⟨_, h⟩ := hstmt id
    rw [h]
  · obtain ⟨_, h⟩ := hstmt id
    rw [h]
  · obtain ⟨_, h⟩ := hfunction id
    rw [h]
  · obtain ⟨_, h⟩ := hfunction id
    rw [h]

/-- Notes that differ in scopes only resemble each other. -/
theorem resembles_of_unscoped (h : n'.unscoped = n.unscoped) : n.Resembles n' := by
  have hexpr : ∀ id, n'.unscoped.expr id = n.unscoped.expr id := fun _ => by rw [h]
  have hstmt : ∀ id, n'.unscoped.stmt id = n.unscoped.stmt id := fun _ => by rw [h]
  have hfunction : ∀ id, n'.unscoped.function id = n.unscoped.function id := fun _ => by rw [h]
  simp only [expr_unscoped, stmt_unscoped, function_unscoped, ExprNote.mk.injEq, StmtNote.mk.injEq,
    FunctionNote.mk.injEq, true_and] at hexpr hstmt hfunction
  exact
    { exprs := fun id => (hexpr id).2
      bindings := fun id => (hstmt id).2.1
      slots := fun id => (hstmt id).2.2.1
      parents := fun id => (hstmt id).1
      params := fun id => (hfunction id).1
      frames := fun id => (hfunction id).2.2
      size := by rw [← size_functions_unscoped, h, size_functions_unscoped] }

end Notes

/-- The fault is one of the place of a jump, or of the lack of return statements. -/
def TypeFault.ofPlace : TypeFault → Bool
  | outsideLoop _ | noReturn _ => true
  | _ => false

namespace Stmt

/-- The keyword of a jump. -/
def jump? {τ : Type} : Stmt τ → Option Token
  | node _ (.stop k) | node _ (.skip k) => some k
  | _ => none

end Stmt

namespace Typing

/-! ## Events -/

/-- What the walk comes by. -/
inductive Event where
  | enter (id : FunctionId)
  | visit (s : Stmt Mark)
  /-- The end of a function with a result in which there is no return statement. -/
  | lack (f : Function (Stmt Mark))

namespace Event

def entered? : Event → Option FunctionId
  | enter id => some id
  | _ => none

/-- What is noted at statements and functions. -/
def edit (t : Tree) (n₀ : Notes) : Event → Edit
  | enter id => .onFunction id ({ · with returns := [] })
  | visit (.node m (.ret _ _)) => (t.enclosingFunction n₀ m.id).elim .none fun id =>
      .onFunction id fun n => { n with returns := n.returns ++ [m.id] }
  | visit (.node m (.stop _)) | visit (.node m (.skip _)) => (t.enclosingLoop n₀ m.id).elim .none
      fun loop => .onStmt m.id ({ · with target := some loop })
  | _ => .none

/-- What is reported. -/
def error? (t : Tree) (n₀ : Notes) : Event → Option TypeError
  | visit (.node m (.stop k)) | visit (.node m (.skip k)) =>
    if (t.enclosingLoop n₀ m.id).isNone then some ⟨.outsideLoop k.lexeme, m.line⟩ else none
  | lack f => some ⟨.noReturn f.name.lexeme, f.name.line⟩
  | _ => none

/-- What is noted when the events happen in order. -/
def edits (t : Tree) (n₀ : Notes) (events : List Event) : Edit :=
  .all (events.map (edit t n₀))

theorem edits_append (t : Tree) (n₀ : Notes) (E E' : List Event) :
    edits t n₀ (E ++ E') = (edits t n₀ E).andThen (edits t n₀ E') := by
  rw [edits, List.map_append, Edit.all_append]
  rfl

variable {t : Tree} {n₀ : Notes}

/-- A jump is come by. -/
def jumpsAt (id : StmtId) : Event → Bool
  | visit s => s.jump?.isSome && s.tag.id = id
  | _ => false

theorem target_edit (e : Event) (id : StmtId) (x : StmtNote) :
    ((e.edit t n₀).stmt id x).target =
      (if e.jumpsAt id then t.enclosingLoop n₀ id else none).or x.target := by
  cases e with
  | enter _ => rfl
  | lack _ => rfl
  | visit s =>
    obtain ⟨m, shape⟩ := s
    have jumps : (((t.enclosingLoop n₀ m.id).elim .none fun loop =>
        .onStmt m.id ({ · with target := some loop }) : Edit).stmt id x).target =
        (if (decide (m.id = id)) then t.enclosingLoop n₀ id else none).or x.target := by
      by_cases hid : m.id = id
      · subst hid
        cases t.enclosingLoop n₀ m.id <;> simp [Edit.onStmt, Edit.none]
      · have hne : id ≠ m.id := fun h => hid h.symm
        cases t.enclosingLoop n₀ m.id <;> simp [Edit.onStmt, Edit.none, hid, hne]
    cases shape with
    | stop k | skip k => exact jumps
    | ret k v =>
      cases h : t.enclosingFunction n₀ m.id <;> simp [edit, h, jumpsAt, Stmt.jump?] <;> rfl
    | _ => rfl

/-- The target of a jump is the loop around it, once the jump has been come by. -/
theorem target_edits (E : List Event) (id : StmtId) : ∀ x : StmtNote,
    ((edits t n₀ E).stmt id x).target =
      (if E.any (jumpsAt id) then t.enclosingLoop n₀ id else none).or x.target := by
  induction E with
  | nil => exact fun _ => rfl
  | cons e E ih =>
    intro x
    refine (ih _).trans ?_
    rw [target_edit, ← Option.or_assoc, List.any_cons]
    cases e.jumpsAt id <;> cases E.any (jumpsAt id) <;> simp

end Event

variable {t : Tree} {n₀ : Notes} {E E' : List Event}

/-- An edit and the errors that are reported with it, when the events happen. -/
structure Effect (t : Tree) (n₀ : Notes) (E : List Event) (d : Edit) (es : List TypeError) :
    Prop where
  types : d.Types (E.filterMap Event.entered?)
  stmt : d.stmt = (Event.edits t n₀ E).stmt
  function : d.function = (Event.edits t n₀ E).function
  errors : es.filter (·.fault.ofPlace) = E.filterMap (Event.error? t n₀)

theorem Effect.none : Effect t n₀ [] .none [] :=
  ⟨.none, rfl, rfl, rfl⟩

theorem Effect.single {e : Event} {d : Edit} {es : List TypeError} (hd : e.edit t n₀ = d)
    (types : d.Types ([e].filterMap Event.entered?))
    (errors : es.filter (·.fault.ofPlace) = [e].filterMap (Event.error? t n₀)) :
    Effect t n₀ [e] d es := by
  subst hd
  exact ⟨types, rfl, rfl, errors⟩

theorem Effect.append {d d' : Edit} {es es' : List TypeError} (h : Effect t n₀ E d es)
    (h' : Effect t n₀ E' d' es') : Effect t n₀ (E ++ E') (d.andThen d') (es ++ es') where
  types := by
    rw [List.filterMap_append]
    exact h.types.andThen h'.types
  stmt := by
    rw [Event.edits_append, Edit.andThen, h.stmt, h'.stmt]
    rfl
  function := by
    rw [Event.edits_append, Edit.andThen, h.function, h'.function]
    rfl
  errors := by rw [List.filter_append, List.filterMap_append, h.errors, h'.errors]

/-! ## Functions and statements -/

/-- The statements that are come by in a statement. -/
def visits (path : List (Stmt Mark)) (s : Stmt Mark) : List Event :=
  (s.nested path).map fun x => .visit x.1

theorem visits_node (path : List (Stmt Mark)) (m : Mark)
    (shape : Stmt.Shape (Stmt Mark) (Expr Mark)) : visits path (.node m shape) =
      .visit (.node m shape) :: shape.children.flatMap (visits (.node m shape :: path)) := by
  rw [visits, Stmt.nested_node, List.map_cons, List.map_flatMap]
  rfl

/-- The returns of a function, as they are counted behind its body. -/
def counted (t : Tree) (n₀ : Notes) (id : FunctionId) (f : Function (Stmt Mark)) : List StmtId :=
  if id < n₀.functions.size then
    ((Event.edits t n₀ (.enter id :: visits [] f.body)).function id {}).returns
  else []

/-- What is come by in a function. -/
def functionEvents (t : Tree) (n₀ : Notes) (id : FunctionId) (f : Function (Stmt Mark)) :
    List Event :=
  .enter id :: visits [] f.body ++
    if f.returnType ≠ .void && (counted t n₀ id f).isEmpty then [.lack f] else []

/-- What is come by in a program. -/
def events (t : Tree) (n₀ : Notes) : List Event :=
  t.views.flatMap fun v => functionEvents t n₀ v.1 v.2

theorem entered_events (t : Tree) (n₀ : Notes) :
    (events t n₀).filterMap Event.entered? = t.views.map Prod.fst := by
  rw [events, List.filterMap_flatMap, List.map_eq_flatMap]
  refine congrArg (List.flatMap · t.views) (funext fun v => ?_)
  have hbody : (visits [] v.2.body).filterMap Event.entered? = [] := by
    rw [visits, List.filterMap_map]
    exact List.filterMap_eq_nil_iff.2 fun _ _ => rfl
  simp only [functionEvents, List.filterMap_append, List.filterMap_cons, Event.entered?, hbody]
  split <;> rfl

end Typing

/-! ## Types of expressions -/

/-- The edit notes a type that is `Right`. -/
def Edit.Sets (d : Edit) (Right : ExprId → ValueType → Prop) (id : ExprId) : Prop :=
  ∃ T, Right id T ∧ ∀ x, d.expr id x = { x with type := some T }

/-- Wherever the edit notes types they are `Right`, and it does so at the expressions of `F`. -/
structure Edit.Annotates (d : Edit) (Right : ExprId → ValueType → Prop) (F : List Mark) : Prop where
  right : ∀ id, (∀ x, d.expr id x = x) ∨ d.Sets Right id
  all : ∀ m ∈ F, d.Sets Right m.id

namespace Edit.Annotates

variable {d d' : Edit} {Right : ExprId → ValueType → Prop} {F F' : List Mark}

theorem none : Edit.none.Annotates Right [] :=
  ⟨fun _ => .inl fun _ => rfl, by simp⟩

theorem onExpr {m : Mark} {T : ValueType} (h : Right m.id T) :
    (Edit.onExpr m.id ({ · with type := some T })).Annotates Right [m] := by
  refine ⟨fun id => ?_, fun u hu => ?_⟩
  · by_cases hid : id = m.id
    · exact .inr ⟨T, hid ▸ h, fun x => if_pos hid⟩
    · exact .inl fun x => if_neg hid
  · obtain rfl := List.mem_singleton.mp hu
    exact ⟨T, h, fun x => if_pos rfl⟩

/-- What is noted later is right as well. -/
theorem andThen (h : d.Annotates Right F) (h' : d'.Annotates Right F') :
    (d.andThen d').Annotates Right (F ++ F') := by
  have first : ∀ {id}, d.Sets Right id → (d.andThen d').Sets Right id := by
    rintro id ⟨T, hT, hd⟩
    rcases h'.right id with hd' | ⟨T', hT', hd'⟩
    · exact ⟨T, hT, fun x => (hd' _).trans (hd x)⟩
    · exact ⟨T', hT', fun x => (hd' _).trans (by rw [hd])⟩
  have second : ∀ {id}, d'.Sets Right id → (d.andThen d').Sets Right id := by
    rintro id ⟨T, hT, hd'⟩
    refine ⟨T, hT, fun x => (hd' _).trans ?_⟩
    rcases h.right id with hd | ⟨_, _, hd⟩ <;> rw [hd]
  refine ⟨fun id => ?_, fun m hm => ?_⟩
  · rcases h.right id with hd | hd
    · exact (h'.right id).imp (fun hd' x => (hd' _).trans (hd x)) second
    · exact .inr (first hd)
  · exact (List.mem_append.mp hm).elim (fun hm => first (h.all m hm)) fun hm => second (h'.all m hm)

end Edit.Annotates

end StackLang
