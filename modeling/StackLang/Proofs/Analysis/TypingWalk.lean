import StackLang.Proofs.Analysis.Links
import StackLang.Proofs.Analysis.TypeSystem
import StackLang.Proofs.Analysis.TypingEdits

/-!
# The walk of the type checker

Every step does the same to all notes that it cannot tell apart.  Over what is parsed and resolved
it reports nothing exactly if the rules are followed, and then it notes the types that they give.

* `Typing.Decides` — a step that decides whether something holds of its result.
* `Typing.Ready`, `Typing.ReadyStmt` — what is known about a tree before its types are checked.
* `Typing.expr_decides`, `Typing.stmt_decides` — expressions and statements.
* `Program.exists_check_decides` — the whole walk.
-/

namespace StackLang

/-- `R` holds of the types that the nodes of the expression have. -/
def Expr.Agrees (t : Tree) (n : Notes) (R : ExprId → ValueType → Prop) (e : Expr Mark) : Prop :=
  e.All fun m shape => ∀ T, (Expr.node m shape).OfType t n T → R m.id T

/-- The type of an array that is initialized with a list in braces, and the number of the list. -/
def Stmt.Shape.list? : Shape (Stmt Mark) (Expr Mark) → Option (ExprId × ValueType)
  | array _ type _ (some (.node m (.braces _))) => some (m.id, type)
  | _ => none

/-- `R` holds of the types of the expressions in the statement, and of those of arrays at the lists
that they are initialized with. -/
def Stmt.Agrees (t : Tree) (n : Notes) (R : ExprId → ValueType → Prop) (s : Stmt Mark) : Prop :=
  s.All fun _ shape => (∀ e ∈ shape.exprs, e.Agrees t n R) ∧
    ∀ x, shape.list? = some x → R x.1 x.2

namespace Typing

variable {α β : Type} {t : Tree} {n₀ : Notes} {R : ExprId → ValueType → Prop} {C C' P : Prop}
  {x : Typing α} {f : α → Typing β} {E E' : List Event} {F F' : List Mark} {G G' : α → Prop}
  {m : Mark} {fault : TypeFault} {e : Expr Mark} {es : List (Expr Mark)} {V : Binding → Prop}
  {op k : Token} {type : ValueType}

/-! ## Steps -/

/-- With all notes that resemble `n₀` the step has the same result, makes the same edit and reports
the same errors, those of the events `E` among them.  If `C` holds, it reports nothing exactly if
there is a result for which `G` holds, which is then its own, and it notes types for which `R`
holds, at the expressions of `F` at least. -/
def Decides (t : Tree) (n₀ : Notes) (R : ExprId → ValueType → Prop) (C : Prop) (x : Typing α)
    (E : List Event) (F : List Mark) (G : α → Prop) : Prop :=
  ∃ (a : α) (d : Edit) (es : List TypeError), Effect t n₀ E d es ∧
    (∀ st : State, n₀.Resembles st.notes → x.run st = (a, ⟨d.apply st.notes, st.errors ++ es⟩)) ∧
    (C → (es = [] → G a ∧ d.Annotates R F) ∧ ∀ b, G b → es = [] ∧ b = a)

namespace Decides

theorem pure {a : α} (h : C → ∀ b, G b ↔ b = a) : Decides t n₀ R C (pure a) [] [] G := by
  refine ⟨a, .none, [], .none, fun st _ => ?_, fun hC => ⟨fun _ => ⟨(h hC a).mpr rfl, .none⟩, ?_⟩⟩
  · rw [Edit.apply_none, List.append_nil]
    rfl
  · exact fun b hb => ⟨rfl, (h hC b).mp hb⟩

/-- One step after another. -/
theorem bind {G' : α → β → Prop} (hx : Decides t n₀ R C x E F G)
    (hf : ∀ a, Decides t n₀ R (C ∧ G a) (f a) E' F' (G' a)) :
    Decides t n₀ R C (x >>= f) (E ++ E') (F ++ F') fun b => ∃ a, G a ∧ G' a b := by
  obtain ⟨a, d, es, hd, hrun, hx⟩ := hx
  obtain ⟨b, d', es', hd', hrun', hf⟩ := hf a
  refine ⟨b, d.andThen d', es ++ es', hd.append hd', fun st hst => ?_,
    fun hC => ⟨fun hes => ?_, ?_⟩⟩
  · rw [StateT.run_bind, hrun st hst]
    refine (hrun' _ (hst.trans (Notes.resembles_apply hd.types))).trans ?_
    rw [Edit.apply_andThen, List.append_assoc]
  · rw [List.append_eq_nil_iff] at hes
    obtain ⟨ha, hF⟩ := (hx hC).1 hes.1
    obtain ⟨hb, hF'⟩ := (hf ⟨hC, ha⟩).1 hes.2
    exact ⟨⟨a, ha, hb⟩, hF.andThen hF'⟩
  · rintro c ⟨a', ha, hc⟩
    obtain ⟨rfl, rfl⟩ := (hx hC).2 a' ha
    exact (hf ⟨hC, ha⟩).2 c hc

theorem given (h : Decides t n₀ R C x E F G) (hC : C' → C) : Decides t n₀ R C' x E F G := by
  obtain ⟨a, d, es, hd, hrun, hx⟩ := h
  exact ⟨a, d, es, hd, hrun, fun h' => hx (hC h')⟩

theorem congr (h : Decides t n₀ R C x E F G) (hG : C → ∀ a, G a ↔ G' a) :
    Decides t n₀ R C x E F G' := by
  obtain ⟨a, d, es, hd, hrun, hx⟩ := h
  refine ⟨a, d, es, hd, hrun, fun hC => ?_⟩
  simp only [← hG hC]
  exact hx hC

theorem among (h : Decides t n₀ R C x E F G) (hF : ∀ m ∈ F', m ∈ F) :
    Decides t n₀ R C x E F' G := by
  obtain ⟨a, d, es, hd, hrun, hx⟩ := h
  refine ⟨a, d, es, hd, hrun, fun hC => ⟨fun hes => ?_, (hx hC).2⟩⟩
  obtain ⟨ha, hF'⟩ := (hx hC).1 hes
  exact ⟨ha, hF'.right, fun m hm => hF'.all m (hF m hm)⟩

theorem of_eq (h : Decides t n₀ R C x E F G) (hE : E = E') : Decides t n₀ R C x E' F G :=
  hE ▸ h

/-- A step that only decides something comes first. -/
theorem seq {x : Typing Unit} {y : Typing β} {G : β → Prop} (hx : Decides t n₀ R C x E F fun _ => P)
    (hy : Decides t n₀ R (C ∧ P) y E' F' G) :
    Decides t n₀ R C (x >>= fun _ => y) (E ++ E') (F ++ F') fun b => P ∧ G b :=
  (hx.bind fun _ => hy).congr fun _ _ => by simp

theorem of_run {y : Typing α} (h : Decides t n₀ R C x E F G)
    (hy : ∀ st : State, n₀.Resembles st.notes → y.run st = x.run st) :
    Decides t n₀ R C y E F G := by
  obtain ⟨a, d, es, hd, hrun, hx⟩ := h
  exact ⟨a, d, es, hd, fun st hst => (hy st hst).trans (hrun st hst), hx⟩

/-- What is read from the notes comes out the same. -/
theorem get {f : State → Typing β} {y : Typing β} {G : β → Prop}
    (h : ∀ st : State, n₀.Resembles st.notes → f st = y) (hy : Decides t n₀ R C y E F G) :
    Decides t n₀ R C (get >>= f) E F G := by
  refine hy.of_run fun st hst => ?_
  rw [← h st hst]
  rfl

/-- A variable is looked up. -/
theorem lookUp {f : Option VarInfo → Typing β} {G : β → Prop}
    (hf : Decides t n₀ R C (f (n₀.variableAt t m)) E F G) :
    Decides t n₀ R C (variableOf t m >>= f) E F G := by
  have hget : variableOf t m >>= f = (MonadState.get : Typing State) >>= fun st =>
    f (st.notes.variableAt t m) := rfl
  rw [hget]
  exact .get (fun st hst => by rw [hst.toRetains.variableAt]) hf

end Decides

/-! ## Checks -/

/-- An event may be reported. -/
theorem reports {line : Line} {G : Unit → Prop} (hd : Effect t n₀ E .none [⟨fault, line⟩])
    (hG : C → ¬G ()) : Decides t n₀ R C (report line fault) E [] G := by
  refine ⟨(), .none, [⟨fault, line⟩], hd, fun st _ => ?_, fun hC => ⟨by simp, fun _ h => ?_⟩⟩
  · rw [Edit.apply_none]
    rfl
  · exact absurd h (hG hC)

variable {line : Line}

theorem report_decides (h : fault.ofPlace = false) :
    Decides t n₀ R C (report line fault) [] [] fun _ => False :=
  reports ⟨.none, rfl, rfl, by simp [h]⟩ fun _ => id

theorem reportIf_decides {c : Bool} (h : fault.ofPlace = false) (hP : C → (c = false ↔ P)) :
    Decides t n₀ R C (reportIf c line fault) [] [] fun _ => P := by
  cases c with
  | false => exact .pure fun hC _ => by simp [← hP hC]
  | true => exact (report_decides h).congr fun hC _ => by simp [← hP hC]

theorem requireInt_decides {fault : ValueType → TypeFault} (h : ∀ T, (fault T).ofPlace = false)
    (found : Option ValueType) : Decides t n₀ R C (requireInt line fault found) [] []
      fun _ => ∀ T, found = some T → T = .int := by
  cases found with
  | none => exact .pure fun _ => by simp
  | some found => exact reportIf_decides (h found) fun _ => by simp

theorem requireStore_decides {fault : ValueType → TypeFault} (h : ∀ T, (fault T).ofPlace = false)
    (target : ValueType) (found : Option ValueType) :
    Decides t n₀ R C (requireStore line target fault found) [] []
      fun _ => ∀ T, found = some T → (target.store? T).isSome = true := by
  cases found with
  | none => exact .pure fun _ => by simp
  | some found => exact reportIf_decides (h found) fun _ => by simp

theorem noteType_decides (m : Mark) {type : Option ValueType}
    (h : C → ∃ T, type = some T ∧ R m.id T) :
    Decides t n₀ R C (noteType m type) [] [m] fun _ => True := by
  refine ⟨(), _, [], ⟨.onExpr m.id type, rfl, rfl, rfl⟩, fun st _ => ?_,
    fun hC => ⟨fun _ => ?_, ?_⟩⟩
  · rw [Edit.apply_onExpr, List.append_nil]
    rfl
  · obtain ⟨T, rfl, hT⟩ := h hC
    exact ⟨trivial, .onExpr hT⟩
  · exact fun _ _ => ⟨rfl, rfl⟩

/-! ## Operations -/

theorem binaryType_decides {l r : Option ValueType} (h : C → l.isSome = true ∧ r.isSome = true) :
    Decides t n₀ R C (binaryType line op l r) [] [] fun a =>
      ∃ L S T, l = some L ∧ r = some S ∧ ValueType.binary? op.kind L S = some T ∧ a = some T := by
  rcases l with _ | l
  · exact .pure fun hC => absurd (h hC).1 (by simp)
  rcases r with _ | r
  · exact .pure fun hC => absurd (h hC).2 (by simp)
  refine ((reportIf_decides rfl fun _ => .rfl).seq (.pure fun _ _ => .rfl)).congr fun _ a => ?_
  cases hT : ValueType.binary? op.kind l r <;> simp [hT]

theorem unaryType_decides {found : Option ValueType} (h : C → found.isSome = true) :
    Decides t n₀ R C (unaryType line op found) [] [] fun a =>
      ∃ T, found = some T ∧ T.takesUnary op.kind = true ∧ a = some T := by
  cases found with
  | none => exact .pure fun hC => absurd (h hC) (by simp)
  | some T =>
    exact ((reportIf_decides rfl fun _ => .rfl).seq (.pure fun _ _ => .rfl)).congr (by simp)

section Variables

variable (m : Mark) (name : Token) (hv : C → (n₀.variableAt t m).isSome = true)
include hv

theorem nameType_decides : Decides t n₀ R C (nameType t m name) [] [] fun a =>
    ∃ info, n₀.variableAt t m = some info ∧ info.length = none ∧ a = some info.type := by
  refine .lookUp ?_
  cases h : n₀.variableAt t m with
  | none => exact .pure fun hC => absurd (hv hC) (by simp [h])
  | some info =>
    exact ((reportIf_decides rfl fun _ => .rfl).seq (.pure fun _ _ => .rfl)).congr (by simp)

theorem elementType_decides (index : Option ValueType) :
    Decides t n₀ R C (elementType t m name index) [] [] fun a => (∀ T, index = some T → T = .int) ∧
      ∃ info, n₀.variableAt t m = some info ∧ info.length.isSome = true ∧ a = some info.type := by
  refine (requireInt_decides (fun _ => rfl) index).seq (.lookUp ?_)
  cases h : n₀.variableAt t m with
  | none => exact .pure fun hC => absurd (hv hC.1) (by simp [h])
  | some info =>
    exact ((reportIf_decides rfl fun _ => .rfl).seq (.pure fun _ _ => .rfl)).congr (by simp)

/-- An assignment is to an element exactly if there is an index. -/
theorem assignType_decides (index : Option (Option ValueType)) {source : Option ValueType}
    (hs : C → source.isSome = true) :
    Decides t n₀ R C (assignType t m name index source) [] [] fun a =>
      ∃ info S, n₀.variableAt t m = some info ∧ info.length.isSome = index.isSome ∧
        (∀ T, index = some (some T) → T = .int) ∧ source = some S ∧
        (info.type.store? S).isSome = true ∧ a = some info.type := by
  refine .lookUp ?_
  cases h : n₀.variableAt t m with
  | none => exact .pure fun hC => absurd (hv hC) (by simp [h])
  | some info =>
    have stores : ∀ {C : Prop}, Decides t n₀ R C (do
        requireStore m.line info.type (.assign name.lexeme info.type) source
        return source.map fun _ => info.type) [] [] fun a =>
          (∀ S, source = some S → (info.type.store? S).isSome = true) ∧
            a = source.map fun _ => info.type :=
      (requireStore_decides (fun _ => rfl) info.type source).seq (.pure fun _ _ => .rfl)
    cases index with
    | none =>
      refine ((reportIf_decides rfl fun _ => .rfl).seq stores).congr fun hC a => ?_
      obtain ⟨S, rfl⟩ := Option.isSome_iff_exists.mp (hs hC)
      simp
    | some found =>
      refine ((reportIf_decides rfl fun _ => .rfl).seq
        ((requireInt_decides (fun _ => rfl) found).seq stores)).congr fun hC a => ?_
      obtain ⟨S, rfl⟩ := Option.isSome_iff_exists.mp (hs hC)
      simp

end Variables

theorem arguments_decides (callee : Token) (ps : List Param) :
    ∀ (i : Nat) (as : List (Option ValueType)),
      Decides t n₀ R C (arguments line callee i ps as) [] [] fun _ =>
        ∀ x ∈ ps.zip as, ∀ T, x.2 = some T → (x.1.type.store? T).isSome = true := by
  induction ps with
  | nil =>
    intro i as
    rw [arguments]
    · exact .pure (by simp)
    · simp
  | cons p ps ih =>
    rintro i (_ | ⟨a, as⟩)
    · rw [arguments]
      · exact .pure (by simp)
      · simp
    · rw [arguments]
      exact ((requireStore_decides (fun _ => rfl) p.type a).seq
        ((ih (i + 1) as).given And.left)).congr (by simp)

theorem callType_decides (m : Mark) (callee : Token) (args : List (Option ValueType))
    (h : C → ∃ id f, (n₀.expr m.id).binding = some (.function id) ∧ t.functions[id]? = some f) :
    Decides t n₀ R C (callType t m callee args) [] [] fun a =>
      ∃ id f, (n₀.expr m.id).binding = some (.function id) ∧ t.functions[id]? = some f ∧
        f.params.length = args.length ∧
        (∀ x ∈ f.params.zip args, ∀ T, x.2 = some T → (x.1.type.store? T).isSome = true) ∧
        a = some f.returnType := by
  have hget : ∀ g : Option Binding → Typing (Option ValueType), bindingOf m >>= g =
    (MonadState.get : Typing State) >>= fun st => g (st.notes.expr m.id).binding := fun _ => rfl
  rw [callType, hget]
  refine .get (fun st hst => by rw [hst.exprs]) ?_
  split
  · rename_i id hid
    cases hf : t.functions[id]? with
    | none => exact .pure fun hC => absurd (h hC) (by simp [hid, hf])
    | some f =>
      simp only [hid, Option.some.injEq, Binding.function.injEq]
      split
      · rename_i hlength
        refine ((arguments_decides callee f.params 1 args).seq (.pure fun _ _ => .rfl)).congr ?_
        simp [hf, hlength]
      · rename_i hlength
        refine ((report_decides rfl).seq (.pure fun _ _ => .rfl)).congr ?_
        simp [hf, hlength]
  · rename_i hid
    refine .pure fun hC => ?_
    obtain ⟨id, _, hb, -⟩ := h hC
    exact absurd hb (hid id)

/-! ## Expressions -/

/-- The declarations that satisfy `V` are there, and neither variables nor parameters are void. -/
structure Sound (t : Tree) (n₀ : Notes) (V : Binding → Prop) : Prop where
  vars : ∀ b, V b → b.kind = .variableName → ∃ info, t.varInfo? n₀ b = some info ∧ info.type ≠ .void
  functions : ∀ b, V b → b.kind = .functionName → ∃ id f, b = .function id ∧
    t.functions[id]? = some f ∧ ∀ p ∈ f.params, p.type ≠ .void

/-- What is known about an expression before its types are checked: its names are bound, and `R`
holds of the types that its nodes have. -/
structure Ready (t : Tree) (n₀ : Notes) (R : ExprId → ValueType → Prop) (V : Binding → Prop)
    (e : Expr Mark) : Prop where
  sound : Sound t n₀ V
  bound : e.Bound V n₀
  formed : e.Formed
  right : e.Agrees t n₀ R

namespace Ready

variable {V : Binding → Prop} {m : Mark} {shape : Expr.Shape (Expr Mark)}

theorem child (h : Ready t n₀ R V (.node m shape)) (he : e ∈ shape.children) : Ready t n₀ R V e :=
  ⟨h.sound, h.bound.child e he, h.formed.child e he, h.right.child e he⟩

theorem exists_info (h : Ready t n₀ R V (.node m shape)) (hu : shape.use? = some .variableName) :
    ∃ info, n₀.variableAt t m = some info ∧ info.type ≠ .void := by
  obtain ⟨b, hb, hk, hv⟩ := h.bound.root _ hu
  rw [Notes.variableAt, hb]
  exact h.sound.vars b hv hk

theorem isSome (h : Ready t n₀ R V (.node m shape)) (hu : shape.use? = some .variableName) :
    (n₀.variableAt t m).isSome = true := by
  obtain ⟨info, hv, -⟩ := h.exists_info hu
  rw [hv, Option.isSome_some]

theorem ne_void (h : Ready t n₀ R V (.node m shape)) (hu : shape.use? = some .variableName)
    {info : VarInfo} (hv : n₀.variableAt t m = some info) : info.type ≠ .void := by
  obtain ⟨info', hv', hvoid⟩ := h.exists_info hu
  exact Option.some.inj (hv.symm.trans hv') ▸ hvoid

theorem exists_callee (h : Ready t n₀ R V (.node m shape)) (hu : shape.use? = some .functionName) :
    ∃ id f, (n₀.expr m.id).binding = some (.function id) ∧ t.functions[id]? = some f ∧
      ∀ p ∈ f.params, p.type ≠ .void := by
  obtain ⟨b, hb, hk, hv⟩ := h.bound.root _ hu
  obtain ⟨id, f, rfl, hf⟩ := h.sound.functions b hv hk
  exact ⟨id, f, hb, hf⟩

end Ready

/-- The type is one that the rules give to the expression. -/
def Finds (t : Tree) (n₀ : Notes) (e : Expr Mark) (a : Option ValueType) : Prop :=
  ∃ T, a = some T ∧ e.OfType t n₀ T

theorem Finds.isSome {a : Option ValueType} (h : Finds t n₀ e a) : a.isSome = true := by
  obtain ⟨T, rfl, -⟩ := h
  rfl

theorem exprs_decides (h : ∀ e ∈ es, Decides t n₀ R C (expr t e) [] e.tags (Finds t n₀ e)) :
    Decides t n₀ R C (exprs t es) [] (es.flatMap Expr.tags) (List.Forall₂ (Finds t n₀) es) := by
  induction es with
  | nil =>
    rw [exprs]
    exact .pure (by simp)
  | cons e es ih =>
    rw [List.forall_mem_cons] at h
    rw [exprs]
    refine (Decides.congr (h.1.bind fun _ => ((ih h.2).given And.left).bind fun _ =>
      .pure fun _ _ => .rfl) fun _ as => ?_).among (by simp)
    rw [List.forall₂_cons_left_iff]
    grind

/-- The type of a node is noted behind those of its children. -/
theorem Decides.noted {shape : Expr.Shape (Expr Mark)} {x : Typing (Option ValueType)}
    {G : Option ValueType → Prop} (hx : Decides t n₀ R (Ready t n₀ R V (.node m shape)) x [] F G)
    (hF : ∀ u ∈ shape.children.flatMap Expr.tags, u ∈ F)
    (hG : Ready t n₀ R V (.node m shape) → ∀ a, G a ↔ Finds t n₀ (.node m shape) a) :
    Decides t n₀ R (Ready t n₀ R V (.node m shape))
      (x >>= fun type => noteType m type >>= fun _ => Pure.pure type) [] (Expr.node m shape).tags
      (Finds t n₀ (.node m shape)) := by
  refine (Decides.congr ((hx.congr hG).bind fun a => (noteType_decides m ?_).seq
    (.pure fun _ _ => .rfl)) fun _ a => by simp).among ?_
  · rintro ⟨hC, T, rfl, hT⟩
    exact ⟨T, rfl, hC.right.root T hT⟩
  · rw [Expr.tags_node]
    simp only [List.mem_append, List.mem_singleton, List.append_nil]
    exact fun u hu => hu.imp_left (hF u)

/-- Arguments have types that can be stored in the parameters. -/
theorem exists_types_iff {ps : List Param} (hp : ∀ p ∈ ps, p.type ≠ .void) :
    (∃ as, List.Forall₂ (Finds t n₀) es as ∧ ps.length = as.length ∧
      ∀ x ∈ ps.zip as, ∀ T, x.2 = some T → (x.1.type.store? T).isSome = true) ↔
    ∃ types : List ValueType, es.length = types.length ∧ (∀ a ∈ es.zip types, a.1.OfType t n₀ a.2) ∧
      List.Forall₂ (fun p S => p.type.Assignable S) ps types := by
  constructor
  · rintro ⟨as, hes, hlength, hstore⟩
    induction hes generalizing ps with
    | nil =>
      obtain rfl := List.length_eq_zero_iff.mp hlength
      exact ⟨[], rfl, by simp, .nil⟩
    | cons ha _ ih =>
      obtain ⟨T, rfl, hT⟩ := ha
      rcases ps with _ | ⟨p, ps⟩
      · cases hlength
      rw [List.zip_cons_cons, List.forall_mem_cons] at hstore
      rw [List.forall_mem_cons] at hp
      obtain ⟨types, htypes, hof, hall⟩ := ih hp.2 (Nat.succ.inj hlength) hstore.2
      refine ⟨T :: types, by simp [htypes], ?_, .cons ?_ hall⟩
      · rw [List.zip_cons_cons, List.forall_mem_cons]
        exact ⟨hT, hof⟩
      · exact ValueType.assignable_of_store? (hstore.1 T rfl)
  · rintro ⟨types, hlength, hof, hall⟩
    refine ⟨types.map some, ?_, by simpa using hall.length_eq, ?_⟩
    · rw [List.forall₂_map_right_iff, List.forall₂_iff_zip]
      exact ⟨hlength, fun hab => ⟨_, rfl, hof _ hab⟩⟩
    · rw [List.zip_map_right, List.forall_mem_map]
      rintro ⟨p, S⟩ hx T hT
      cases hT
      exact ((List.forall₂_iff_zip.mp hall).2 hx).store? (hp p (List.of_mem_zip hx).1)

/-- The type of every expression is found if it has one. -/
theorem expr_decides (e : Expr Mark) :
    Decides t n₀ R (Ready t n₀ R V e) (expr t e) [] e.tags (Finds t n₀ e) := by
  induction e using Expr.induction with
  | step m shape ih =>
    replace ih := fun {C : Prop} (hC : C → Ready t n₀ R V (.node m shape)) e he =>
      (ih e he).given fun h => (hC h).child he
    -- Each case has two directions: what the checks have found out gives a rule, and a rule lets
    -- every check pass.
    cases shape with
    | binary l op r =>
      rw [expr]
      refine .noted (.bind (ih id l (by simp)) fun _ => .bind (ih And.left r (by simp)) fun _ =>
        binaryType_decides fun h => ⟨h.1.2.isSome, h.2.isSome⟩) (by simp) fun _ a => ⟨?_, ?_⟩
      · rintro ⟨_, ⟨_, rfl, hl⟩, _, ⟨_, rfl, hr⟩, _, _, T, ⟨⟩, ⟨⟩, hop, rfl⟩
        obtain ⟨_, hkind, hrule⟩ := ValueType.binaryRule_of_binary? hop
        exact ⟨T, rfl, .binary hkind hl hr hrule⟩
      · rintro ⟨T, rfl, hT⟩
        cases hT with
        | binary hop hl hr hrule =>
          exact ⟨_, ⟨_, rfl, hl⟩, _, ⟨_, rfl, hr⟩, _, _, _, rfl, rfl, hop ▸ hrule.binary?, rfl⟩
    | grouping e =>
      rw [expr]
      refine .noted (ih id e (by simp)) (by simp) fun _ a => ⟨?_, ?_⟩
      · rintro ⟨T, rfl, hT⟩
        exact ⟨T, rfl, .grouping hT⟩
      · rintro ⟨T, rfl, hT⟩
        cases hT with
        | grouping he => exact ⟨T, rfl, he⟩
    | literal v =>
      rw [expr]
      refine .noted (.pure fun _ _ => .rfl) (by simp) fun _ a => ⟨?_, ?_⟩
      · rintro rfl
        exact ⟨_, rfl, .literal⟩
      · rintro ⟨T, rfl, hT⟩
        cases hT
        rfl
    | unary op e trailing =>
      rw [expr]
      refine .noted (.bind (ih id e (by simp)) fun _ => unaryType_decides fun h => h.2.isSome)
        (by simp) fun h a => ⟨?_, ?_⟩
      · rintro ⟨_, ⟨_, rfl, hT⟩, _, ⟨⟩, htakes, rfl⟩
        obtain ⟨_, hkind, hrule⟩ := ValueType.unaryRule_of_takesUnary htakes h.formed.root
        exact ⟨_, rfl, .unary hkind hT hrule⟩
      · rintro ⟨T, rfl, hT⟩
        cases hT with
        | unary hop he hrule => exact ⟨_, ⟨_, rfl, he⟩, _, rfl, hop ▸ hrule.takesUnary, rfl⟩
    | name c =>
      rw [expr]
      refine .noted (nameType_decides m c fun h => h.isSome rfl) (by simp) fun _ a => ⟨?_, ?_⟩
      · rintro ⟨info, hv, hlength, rfl⟩
        exact ⟨_, rfl, .name hv hlength⟩
      · rintro ⟨T, rfl, hT⟩
        cases hT with
        | name hv hlength => exact ⟨_, hv, hlength, rfl⟩
    | assign c i v =>
      cases i with
      | none =>
        rw [expr]
        refine .noted (.bind (ih id v (by simp)) fun _ =>
          assignType_decides m c (fun h => h.1.isSome rfl) none fun h => h.2.isSome) (by simp)
            fun h a => ⟨?_, ?_⟩
        · rintro ⟨_, ⟨_, rfl, hS⟩, info, S, hv, hlength, -, ⟨⟩, hstore, rfl⟩
          exact ⟨_, rfl,
            .assign hv (by simpa using hlength) hS (ValueType.assignable_of_store? hstore)⟩
        · rintro ⟨T, rfl, hT⟩
          cases hT with
          | assign hv hlength he hstore =>
            exact ⟨_, ⟨_, rfl, he⟩, _, _, hv, by simpa using hlength, by simp, rfl,
              hstore.store? (h.ne_void rfl hv), rfl⟩
      | some i =>
        rw [expr]
        refine .noted (.bind (ih id v (by simp)) fun _ => .bind (ih And.left i (by simp))
          fun index => assignType_decides m c (fun h => h.1.1.isSome rfl) (some index)
            fun h => h.1.2.isSome)
          (by simp [or_comm]) fun h a => ⟨?_, ?_⟩
        · rintro ⟨_, ⟨_, rfl, hS⟩, _, ⟨I, rfl, hI⟩, info, S, hv, hlength, hint, ⟨⟩, hstore, rfl⟩
          obtain rfl := hint I rfl
          exact ⟨_, rfl, .assignElement hv hlength hI hS (ValueType.assignable_of_store? hstore)⟩
        · rintro ⟨T, rfl, hT⟩
          cases hT with
          | assignElement hv hlength hi he hstore =>
            exact ⟨_, ⟨_, rfl, he⟩, _, ⟨_, rfl, hi⟩, _, _, hv, hlength, by simp, rfl,
              hstore.store? (h.ne_void rfl hv), rfl⟩
    | call c args =>
      rw [expr]
      refine .noted (.bind (exprs_decides (ih id)) fun as => callType_decides m c as fun h => ?_)
        (by simp) fun h a => ?_
      · obtain ⟨id, f, hb, hf, -⟩ := h.1.exists_callee rfl
        exact ⟨id, f, hb, hf⟩
      obtain ⟨id, f, hb, hf, hp⟩ := h.exists_callee rfl
      constructor
      · rintro ⟨as, has, _, _, hb', hf', hlength, hstore, rfl⟩
        cases hb.symm.trans hb'
        cases hf.symm.trans hf'
        obtain ⟨types, htypes, hargs, hall⟩ := (exists_types_iff hp).mp ⟨as, has, hlength, hstore⟩
        exact ⟨_, rfl, .call hb hf htypes hargs hall⟩
      · rintro ⟨T, rfl, hT⟩
        cases hT with
        | call hb' hf' htypes hargs hall =>
          cases hb.symm.trans hb'
          cases hf.symm.trans hf'
          obtain ⟨as, has, hlength, hstore⟩ := (exists_types_iff hp).mpr ⟨_, htypes, hargs, hall⟩
          exact ⟨as, has, id, f, hb, hf, hlength, hstore, rfl⟩
    | element c i =>
      rw [expr]
      refine .noted (.bind (ih id i (by simp)) fun index =>
        elementType_decides m c (fun h => h.1.isSome rfl) index) (by simp) fun _ a => ⟨?_, ?_⟩
      · rintro ⟨_, ⟨I, rfl, hI⟩, hint, info, hv, hlength, rfl⟩
        obtain rfl := hint I rfl
        exact ⟨_, rfl, .element hv hlength hI⟩
      · rintro ⟨T, rfl, hT⟩
        cases hT with
        | element hv hlength hi => exact ⟨_, ⟨_, rfl, hi⟩, by simp, _, hv, hlength, rfl⟩
    | braces es =>
      rw [expr]
      refine .noted (.bind (exprs_decides (ih id)) fun _ => .seq (report_decides rfl)
        (.pure fun _ _ => .rfl)) (by simp) fun _ a => ⟨?_, ?_⟩
      · rintro ⟨_, -, ⟨⟩, -⟩
      · rintro ⟨_, -, ⟨⟩⟩
    | random k e =>
      rw [expr]
      refine .noted (.bind (ih id e (by simp)) fun found => .seq
        (requireInt_decides (fun _ => rfl) found) (.pure fun _ _ => .rfl)) (by simp) fun _ a =>
          ⟨?_, ?_⟩
      · rintro ⟨_, ⟨I, rfl, hI⟩, hint, rfl⟩
        obtain rfl := hint I rfl
        exact ⟨_, rfl, .random hI⟩
      · rintro ⟨T, rfl, hT⟩
        cases hT with
        | random he => exact ⟨_, ⟨_, rfl, he⟩, by simp, rfl⟩

/-! ## Parts of statements -/

theorem exists_finds_bool : (∃ a, Finds t n₀ e a ∧ a = some .bool) ↔ e.OfType t n₀ .bool := by
  simp [Finds]

theorem exists_finds_ne_void :
    (∃ a, Finds t n₀ e a ∧ a ≠ some .void) ↔ ∃ T, T ≠ .void ∧ e.OfType t n₀ T := by
  constructor
  · rintro ⟨_, ⟨T, rfl, hT⟩, hne⟩
    exact ⟨T, by simpa using hne, hT⟩
  · rintro ⟨T, hne, hT⟩
    exact ⟨_, ⟨T, rfl, hT⟩, by simpa using hne⟩

theorem exists_finds_store {target : ValueType} (h : target ≠ .void) :
    (∃ a, Finds t n₀ e a ∧ ∀ T, a = some T → (target.store? T).isSome = true) ↔
      ∃ S, e.OfType t n₀ S ∧ target.Assignable S := by
  constructor
  · rintro ⟨_, ⟨S, rfl, hS⟩, hstore⟩
    exact ⟨S, hS, ValueType.assignable_of_store? (hstore S rfl)⟩
  · rintro ⟨S, hS, hstore⟩
    refine ⟨_, ⟨S, rfl, hS⟩, fun T hT => ?_⟩
    cases hT
    exact hstore.store? h

/-- A condition is a truth value. -/
theorem condition_decides {c : Expr Mark}
    (h : Decides t n₀ R C (expr t c) [] c.tags (Finds t n₀ c)) :
    Decides t n₀ R C (condition t c) [] c.tags fun _ => c.OfType t n₀ .bool := by
  refine (Decides.congr (h.bind fun a =>
    (?_ : Decides t n₀ R _ _ [] [] fun _ => a = some .bool)) fun _ _ => exists_finds_bool).among
      (by simp)
  cases a with
  | none => exact .pure fun hC => absurd hC.2.isSome (by simp)
  | some T => exact reportIf_decides rfl fun _ => by simp

theorem outputs_decides (h : ∀ e ∈ es, Decides t n₀ R C (expr t e) [] e.tags (Finds t n₀ e)) :
    Decides t n₀ R C (outputs t es) [] (es.flatMap Expr.tags) fun _ =>
      ∀ e ∈ es, ∃ T, T ≠ .void ∧ e.OfType t n₀ T := by
  induction es with
  | nil =>
    rw [outputs]
    exact .pure (by simp)
  | cons e es ih =>
    rw [List.forall_mem_cons] at h
    rw [outputs]
    refine (Decides.congr (h.1.bind fun a => .seq (reportIf_decides rfl fun _ => .rfl)
      ((ih h.2).given fun h => h.1.1)) fun _ _ => ?_).among (by simp)
    rw [List.forall_mem_cons, ← exists_finds_ne_void]
    simp only [← and_assoc, exists_and_right, decide_eq_false_iff_not, ne_eq]

theorem elements_decides (name : Token) (hvoid : C → type ≠ .void)
    (h : ∀ e ∈ es, Decides t n₀ R C (expr t e) [] e.tags (Finds t n₀ e)) :
    Decides t n₀ R C (elements t name type es) [] (es.flatMap Expr.tags) fun _ =>
      ∀ e ∈ es, ∃ S, e.OfType t n₀ S ∧ type.Assignable S := by
  induction es with
  | nil =>
    rw [elements]
    exact .pure (by simp)
  | cons e es ih =>
    rw [List.forall_mem_cons] at h
    rw [elements]
    refine (Decides.congr (h.1.bind fun a => .seq (requireStore_decides (fun _ => rfl) type a)
      ((ih h.2).given fun h => h.1.1)) fun hC _ => ?_).among (by simp)
    rw [List.forall_mem_cons, ← exists_finds_store (hvoid hC)]
    simp only [← and_assoc, exists_and_right]

/-- An array is initialized with a list in braces, of which every element can be stored in it. -/
theorem arrayInit_decides (name : Token) (length : Nat) (hvoid : C → type ≠ .void)
    (hR : ∀ es, e.shape = .braces es → C → R e.tag.id type)
    (he : Decides t n₀ R C (expr t e) [] e.tags (Finds t n₀ e))
    (hes : ∀ a ∈ e.shape.children, Decides t n₀ R C (expr t a) [] a.tags (Finds t n₀ a)) :
    Decides t n₀ R C (arrayInit t line name type length e) [] e.tags fun _ =>
      ∃ m es, e = .node m (.braces es) ∧ es.length ≤ length ∧
        ∀ a ∈ es, ∃ S, a.OfType t n₀ S ∧ type.Assignable S := by
  obtain ⟨m, shape⟩ := e
  cases shape with
  | braces es =>
    rw [arrayInit]
    refine (((noteType_decides m fun hC => ⟨type, rfl, hR es rfl hC⟩).seq
      ((reportIf_decides rfl fun _ => .rfl).seq ((elements_decides name hvoid hes).given
        fun h => h.1.1))).congr fun _ _ => ?_).among ?_
    · simp [Expr.shape]
    · rw [Expr.tags_node]
      simp [Expr.shape, or_comm]
  | _ =>
    rw [arrayInit]
    · refine (Decides.congr (he.bind fun _ => report_decides rfl) fun _ _ => ?_).among (by simp)
      simp
    · simp

/-! ## Returns and jumps -/

theorem returnValue_decides (f : Function StmtId) (found : Option (Option ValueType)) :
    Decides t n₀ R C (returnValue line f found) [] [] fun _ =>
      (found = none → f.returnType = .void) ∧ ∀ a, found = some a → f.returnType ≠ .void ∧
        ∀ T, a = some T → (f.returnType.store? T).isSome = true := by
  cases found with
  | none => exact reportIf_decides rfl fun _ => by simp
  | some found =>
    rw [returnValue]
    split
    · rename_i hvoid
      exact (report_decides rfl).congr fun _ _ => by simp [hvoid]
    · rename_i hvoid
      exact (requireStore_decides (fun _ => rfl) f.returnType found).congr
        fun _ _ => by simp [hvoid]

/-- What a return statement gives back can be stored as the result of the function. -/
theorem ret_decides {value : Option (Expr Mark)} {ret : ValueType}
    (hp : C → ∃ id f, t.enclosingFunction n₀ m.id = some id ∧ t.functions[id]? = some f ∧
      f.returnType = ret)
    (hv : ∀ e ∈ value.toList, Decides t n₀ R C (expr t e) [] e.tags (Finds t n₀ e)) :
    Decides t n₀ R C (Typing.ret t m value) [.visit (.node m (.ret k value))]
      (value.toList.flatMap Expr.tags) fun _ => (value = none → ret = .void) ∧
        ∀ e ∈ value, ret ≠ .void ∧ ∃ S, e.OfType t n₀ S ∧ ret.Assignable S := by
  rw [Typing.ret]
  refine (Decides.congr ((exprs_decides hv).bind fun found =>
    (?_ : Decides t n₀ R _ _ [.visit (.node m (.ret k value))] [] fun _ =>
      (found.head? = none → ret = .void) ∧ ∀ a, found.head? = some a → ret ≠ .void ∧
        ∀ T, a = some T → (ret.store? T).isSome = true)) fun _ _ => ?_).among (by simp)
  · refine .get (fun st hst => by rw [hst.toRetains.enclosingFunction]) ?_
    cases hid : t.enclosingFunction n₀ m.id with
    | none =>
      exact reports (.single (by simp [Event.edit, hid]) .none rfl) fun hC => absurd (hp hC.1)
        (by simp [hid])
    | some id =>
      have added : Decides t n₀ R (C ∧ List.Forall₂ (Finds t n₀) value.toList found)
          (noteFunction id fun n => { n with returns := n.returns ++ [m.id] })
          [.visit (.node m (.ret k value))] [] fun _ => True := by
        refine ⟨(), _, [], .single (by simp [Event.edit, hid]) (.addReturn id m.id) rfl,
          fun st _ => ?_, fun _ => ⟨fun _ => ⟨trivial, ?_⟩, fun _ _ => ⟨rfl, rfl⟩⟩⟩
        · rw [Edit.apply_onFunction, List.append_nil]
          rfl
        · exact ⟨fun _ => .inl fun _ => rfl, by simp⟩
      refine (Decides.congr (added.seq ?_) fun _ _ => iff_of_eq (true_and _)).of_eq
        (List.append_nil _)
      cases hf : t.functions[id]? with
      | none => exact .pure fun hC => absurd (hp hC.1.1) (by simp [hid, hf])
      | some f =>
        refine (returnValue_decides f found.head?).congr fun hC _ => ?_
        obtain ⟨_, _, hid', hf', rfl⟩ := hp hC.1.1
        cases hid.symm.trans hid'
        cases hf.symm.trans hf'
        rfl
  cases value with
  | none => simp
  | some e =>
    constructor
    · rintro ⟨found, hfound, -, hstore⟩
      rw [Option.toList_some, List.forall₂_cons_left_iff] at hfound
      obtain ⟨a, _, ha, -, rfl⟩ := hfound
      obtain ⟨hvoid, hstore⟩ := hstore a rfl
      simpa [hvoid] using (exists_finds_store hvoid).mp ⟨a, ha, hstore⟩
    · rintro ⟨-, h⟩
      obtain ⟨hvoid, h⟩ := h e rfl
      obtain ⟨a, ha, hstore⟩ := (exists_finds_store hvoid).mpr h
      exact ⟨[a], .cons ha .nil, by simp, by simpa [hvoid] using hstore⟩

/-- A jump belongs to the loop around it. -/
theorem jump_decides {shape : Stmt.Shape (Stmt Mark) (Expr Mark)}
    (hs : shape = .stop k ∨ shape = .skip k) :
    Decides t n₀ R C (jump t m k) [.visit (.node m shape)] [] fun _ =>
      (t.enclosingLoop n₀ m.id).isSome = true := by
  rw [jump]
  refine .get (fun st hst => by rw [hst.toRetains.enclosingLoop]) ?_
  cases hl : t.enclosingLoop n₀ m.id with
  | none =>
    refine reports ?_ (by simp)
    rcases hs with rfl | rfl <;>
      exact .single (by simp [Event.edit, hl]) .none (by simp [Event.error?, hl, TypeFault.ofPlace])
  | some found =>
    refine ⟨(), .onStmt m.id ({ · with target := some found }), [], ?_, fun st _ => ?_,
      fun _ => ⟨fun _ => ⟨rfl, fun _ => .inl fun _ => rfl, by simp⟩, fun _ _ => ⟨rfl, rfl⟩⟩⟩
    · rcases hs with rfl | rfl <;>
        exact .single (by simp [Event.edit, hl]) (.onStmt m.id found) (by simp [Event.error?, hl])
    · rw [Edit.apply_onStmt, List.append_nil]
      rfl

/-- Input is read into a variable that is not an array. -/
theorem input_decides (m : Mark) (name : Token)
    (hv : C → ((n₀.stmt m.id).binding.bind (t.varInfo? n₀)).isSome = true) :
    Decides t n₀ R C (input t m name) [] [] fun _ => ∃ info,
      (n₀.stmt m.id).binding.bind (t.varInfo? n₀) = some info ∧ info.length = none := by
  have refused : Decides t n₀ R C (reportIf
      (((n₀.stmt m.id).binding.bind (t.varInfo? n₀)).bind VarInfo.length).isSome m.line
      (.inputArray name.lexeme)) [] [] fun _ => ∃ info,
        (n₀.stmt m.id).binding.bind (t.varInfo? n₀) = some info ∧ info.length = none := by
    refine reportIf_decides rfl fun hC => ?_
    obtain ⟨info, hinfo⟩ := Option.isSome_iff_exists.mp (hv hC)
    simp [hinfo]
  rw [input]
  refine .get (fun st hst => ?_) refused
  simp only [hst.bindings, hst.toRetains.varInfo?]

/-! ## Statements -/

/-- What is known about the place of a statement: it is part of the function `id`, which returns
`ret`, and the innermost loop around it is `loop`. -/
structure Placed (t : Tree) (n₀ : Notes) (id : FunctionId) (ret : ValueType) (o : Owner)
    (loop : Option StmtId) (k : Nat) (s : Stmt Mark) : Prop where
  held : s.Held t
  ascending : Mark.Ascending s.tags
  linked : s.Linked n₀ o
  surrounds : Surrounds t n₀ o id loop k
  depth : k + s.tag.id < t.stmts.size
  function : ∃ f, t.functions[id]? = some f ∧ f.returnType = ret

section Statements

variable {V : Binding → Prop} {g : FunctionId} {ret : ValueType} {loop : Option StmtId} {m : Mark}
  {shape : Stmt.Shape (Stmt Mark) (Expr Mark)} {path : List (Stmt Mark)} {W : Stmt Mark → Prop}
  {o : Owner} {s : Stmt Mark}

theorem Placed.child {k : Nat} (h : Placed t n₀ g ret o loop k (.node m shape))
    (hs : s ∈ shape.children) :
    Placed t n₀ g ret (.stmt m.id) (shape.innerLoop m loop) (k + 1) s := by
  obtain ⟨hasc, hlt⟩ := Stmt.ascending_child h.ascending hs
  have hdepth := h.depth
  cases h.linked with
  | node root children =>
    refine ⟨h.held.child s hs, hasc, children s hs, h.surrounds.step h.held root, ?_, h.function⟩
    simp only [Stmt.tag] at hdepth
    omega

theorem Placed.enclosing {k : Nat} (h : Placed t n₀ g ret o loop k (.node m shape)) :
    t.enclosingFunction n₀ m.id = some g ∧ t.enclosingLoop n₀ m.id = loop := by
  have hdepth := h.depth
  cases h.linked with
  | node root _ => exact h.surrounds.enclosing root (by omega)

/-- What is known about a statement before its types are checked. -/
structure ReadyStmt (t : Tree) (n₀ : Notes) (R : ExprId → ValueType → Prop) (V : Binding → Prop)
    (g : FunctionId) (ret : ValueType) (loop : Option StmtId) (s : Stmt Mark) : Prop where
  placed : ∃ o k, Placed t n₀ g ret o loop k s
  sound : Sound t n₀ V
  bound : s.Bound V n₀
  formed : s.Formed
  right : s.Agrees t n₀ R

namespace ReadyStmt

variable (h : ReadyStmt t n₀ R V g ret loop (.node m shape))
include h

theorem child (hs : s ∈ shape.children) : ReadyStmt t n₀ R V g ret (shape.innerLoop m loop) s := by
  obtain ⟨o, k, hp⟩ := h.placed
  exact ⟨⟨_, _, hp.child hs⟩, h.sound, h.bound.child s hs, h.formed.child s hs, h.right.child s hs⟩

theorem expr (he : e ∈ shape.exprs) : Ready t n₀ R V e :=
  ⟨h.sound, h.bound.root.1 e he, h.formed.root.2 e he, h.right.root.1 e he⟩

theorem enclosing : t.enclosingFunction n₀ m.id = some g ∧ t.enclosingLoop n₀ m.id = loop := by
  obtain ⟨_, _, hp⟩ := h.placed
  exact hp.enclosing

end ReadyStmt

theorem stmts_decides {ss : List (Stmt Mark)}
    (h : ∀ s ∈ ss, Decides t n₀ R C (stmt t s) (visits path s) s.exprTags fun _ => W s) :
    Decides t n₀ R C (stmts t ss) (ss.flatMap (visits path)) (ss.flatMap Stmt.exprTags)
      fun _ => ∀ s ∈ ss, W s := by
  induction ss with
  | nil =>
    rw [stmts]
    exact .pure (by simp)
  | cons s ss ih =>
    rw [List.forall_mem_cons] at h
    rw [stmts]
    exact (h.1.seq ((ih h.2).given And.left)).congr (by simp)

theorem optionalStmt_decides {s : Option (Stmt Mark)}
    (h : ∀ a ∈ s.toList, Decides t n₀ R C (stmt t a) (visits path a) a.exprTags fun _ => W a) :
    Decides t n₀ R C (optionalStmt t s) (s.toList.flatMap (visits path))
      (s.toList.flatMap Stmt.exprTags) fun _ => ∀ a ∈ s, W a := by
  cases s with
  | none =>
    rw [optionalStmt]
    exact .pure (by simp)
  | some s =>
    rw [optionalStmt]
    exact (((h s (by simp)).congr (by simp)).of_eq (by simp)).among (by simp)

/-- Every condition is a truth value, and the blocks are checked. -/
theorem arms_decides {bs : List (Expr Mark × Stmt Mark)}
    (he : ∀ b ∈ bs, Decides t n₀ R C (expr t b.1) [] b.1.tags (Finds t n₀ b.1))
    (hs : ∀ b ∈ bs, Decides t n₀ R C (stmt t b.2) (visits path b.2) b.2.exprTags fun _ => W b.2) :
    Decides t n₀ R C (arms t bs) ((bs.map Prod.snd).flatMap (visits path))
      (bs.flatMap fun b => b.1.tags ++ b.2.exprTags) fun _ =>
        (∀ b ∈ bs, b.1.OfType t n₀ .bool) ∧ ∀ b ∈ bs, W b.2 := by
  induction bs with
  | nil =>
    rw [arms]
    exact .pure (by simp)
  | cons b bs ih =>
    rw [List.forall_mem_cons] at he hs
    rw [arms]
    refine (((condition_decides he.1).seq ((hs.1.given And.left).seq
      ((ih he.2 hs.2).given fun h => h.1.1))).congr fun _ _ => ?_).among (by simp)
    rw [List.forall_mem_cons, List.forall_mem_cons]
    grind

/-- A statement that is neither a jump nor a return is come by without further notice. -/
theorem Decides.visit {x : Typing Unit} {G : Unit → Prop}
    (h : Decides t n₀ R C x (shape.children.flatMap (visits (.node m shape :: path))) F G)
    (hF : ∀ u, (∃ e ∈ shape.exprs, u ∈ e.tags) ∨ (∃ s ∈ shape.children, u ∈ s.exprTags) → u ∈ F)
    (hG : C → (G () ↔ P)) (hedit : (Event.visit (.node m shape)).edit t n₀ = .none := by rfl)
    (herror : (Event.visit (.node m shape)).error? t n₀ = none := by rfl) :
    Decides t n₀ R C x (visits path (.node m shape)) (Stmt.node m shape).exprTags fun _ => P := by
  obtain ⟨a, d, es, hd, hrun, hx⟩ := (h.congr fun hC _ => hG hC).among
    fun u hu => hF u (Stmt.mem_exprTags_node.mp hu)
  have first : Effect t n₀ [.visit (.node m shape)] .none [] :=
    .single hedit .none (by simp [herror])
  rw [visits_node]
  exact ⟨a, d, es, first.append hd, hrun, hx⟩

/-- Every statement is checked. -/
theorem stmt_decides (s : Stmt Mark) : ∀ path loop inLoop, loop.isSome = inLoop →
    Decides t n₀ R (ReadyStmt t n₀ R V g ret loop s) (stmt t s) (visits path s) s.exprTags
      fun _ => s.WellTyped t n₀ ret inLoop := by
  induction s using Stmt.induction with
  | step m shape ih =>
    intro path loop inLoop hloop
    -- A part that comes later is checked under what the earlier ones have found out, so the
    -- condition under which the statement is ready is left open.
    have inner := fun {C : Prop} (hC : C → ReadyStmt t n₀ R V g ret loop (.node m shape)) {b : Bool}
      (hb : (shape.innerLoop m loop).isSome = b) s hs =>
        (ih s hs (.node m shape :: path) _ b hb).given fun h => (hC h).child hs
    have own := fun {C : Prop} (hC : C → ReadyStmt t n₀ R V g ret loop (.node m shape))
      (e : Expr Mark) he => (expr_decides e).given fun h => (hC h).expr he
    clear ih
    cases shape with
    | block body =>
      rw [stmt]
      refine .visit (stmts_decides (inner id hloop)) (by simp) fun _ => ⟨.block, fun h => ?_⟩
      cases h
      assumption
    | ret k v =>
      have inside (h : ReadyStmt t n₀ R V g ret loop (.node m (.ret k v))) :
          ∃ id f, t.enclosingFunction n₀ m.id = some id ∧ t.functions[id]? = some f ∧
            f.returnType = ret := by
        obtain ⟨_, _, hp⟩ := h.placed
        obtain ⟨f, hf⟩ := hp.function
        exact ⟨g, f, hp.enclosing.1, hf⟩
      have gives := ret_decides (k := k) inside (own id)
      rw [stmt, visits_node]
      refine (gives.congr fun _ _ => ?_).among ?_
      · cases v with
        | none =>
          refine ⟨fun h => .retVoid (h.1 rfl), fun h => ?_⟩
          cases h with
          | retVoid hret => simpa using hret
        | some e =>
          constructor
          · rintro ⟨-, h⟩
            obtain ⟨hret, S, hS, hstore⟩ := h e rfl
            exact .ret hret hS hstore
          · intro h
            cases h with
            | ret hret he hstore => simpa [hret] using ⟨_, he, hstore⟩
      · simp [Stmt.exprTags, Stmt.exprTagsOf]
    | expression e =>
      rw [stmt]
      refine .visit (.bind (own id e (by simp)) fun _ => .pure fun _ _ => .rfl) (by simp)
        fun _ => ⟨?_, ?_⟩
      · rintro ⟨_, ⟨T, -, hT⟩, -⟩
        exact .expression hT
      · intro h
        cases h with
        | expression he => exact ⟨_, ⟨_, rfl, he⟩, rfl⟩
    | choice branches otherwise =>
      rw [stmt]
      refine .visit (.of_eq (.seq (arms_decides
        (fun b hb => own id b.1 (List.mem_map_of_mem hb))
        fun b hb => inner id hloop b.2 (List.mem_append_left _ (List.mem_map_of_mem hb)))
        (optionalStmt_decides fun s hs => inner And.left hloop s (List.mem_append_right _ hs)))
        List.flatMap_append.symm) ?_ fun _ => ⟨fun h => .choice h.1.1 h.1.2 h.2, fun h => ?_⟩
      · simp
        grind
      · cases h with
        | choice hc hb ho => exact ⟨⟨hc, hb⟩, ho⟩
    | whileLoop c body =>
      rw [stmt]
      refine .visit (.of_eq (.seq (condition_decides (own id c (by simp)))
        (inner And.left (b := true) rfl body (by simp))) (by simp)) (by simp)
        fun _ => ⟨fun h => .whileLoop h.1 h.2, fun h => ?_⟩
      cases h with
      | whileLoop hc hb => exact ⟨hc, hb⟩
    | forLoop init c u body =>
      have start := optionalStmt_decides fun s hs =>
        inner id (b := true) rfl s (List.mem_append_left _ hs)
      have rest := fun {C : Prop} hC =>
        (exprs_decides fun e he => own hC e (List.mem_append_right _ he)).bind fun _ =>
          inner (C := C ∧ _) (fun h => hC h.1) (b := true) rfl body
            (List.mem_append_right _ (by simp))
      have hupdate : (∃ found, List.Forall₂ (Finds t n₀) u.toList found) ↔
          ∀ e ∈ u, ∃ T, e.OfType t n₀ T := by
        cases u <;> simp [List.forall₂_cons_left_iff, Finds]
      rw [stmt]
      cases c with
      | none =>
        refine .visit (.of_eq (start.seq (rest And.left)) (by simp)) (by simp; grind) fun _ =>
          ⟨?_, ?_⟩
        · rintro ⟨hi, found, hu, hb⟩
          exact .forLoop hi (by simp) (hupdate.mp ⟨found, hu⟩) hb
        · intro h
          cases h with
          | forLoop hi _ hu hb =>
            obtain ⟨found, hu⟩ := hupdate.mpr hu
            exact ⟨hi, found, hu, hb⟩
      | some c =>
        refine .visit (.of_eq (start.seq (.seq (condition_decides (own And.left c (by simp)))
          (rest fun h => h.1.1))) (by simp)) (by simp; grind) fun _ => ⟨?_, ?_⟩
        · rintro ⟨hi, hc, found, hu, hb⟩
          exact .forLoop hi (by simpa using hc) (hupdate.mp ⟨found, hu⟩) hb
        · intro h
          cases h with
          | forLoop hi hc hu hb =>
            obtain ⟨found, hu⟩ := hupdate.mpr hu
            exact ⟨hi, hc c rfl, found, hu, hb⟩
    | output k values =>
      rw [stmt]
      refine .visit (outputs_decides (own id)) (by simp) fun _ => ⟨.output, fun h => ?_⟩
      cases h
      assumption
    | input name =>
      rw [stmt]
      refine .visit (input_decides m name fun h => ?_) (by simp) fun _ => ⟨?_, fun h => ?_⟩
      · obtain ⟨b, hb, hk, hv⟩ := h.bound.root.2 .variableName rfl
        obtain ⟨info, hinfo, -⟩ := h.sound.vars b hv hk
        simp [hb, hinfo]
      · rintro ⟨info, hv, hlength⟩
        exact .input hv hlength
      · cases h with
        | input hv hlength => exact ⟨_, hv, hlength⟩
    | var name type init =>
      cases init with
      | none =>
        rw [stmt]
        exact .visit (.pure fun _ _ => .rfl) (by simp) fun _ =>
          ⟨fun _ => .var (by simp), fun _ => rfl⟩
      | some e =>
        rw [stmt]
        refine .visit (.bind (own id e (by simp)) fun a =>
          requireStore_decides (fun _ => rfl) type a) (by simp) fun h => ?_
        rw [exists_finds_store h.formed.root.1]
        refine ⟨fun h => .var (by simpa using h), fun h => ?_⟩
        cases h with
        | var h => exact h e rfl
    | array name type length init =>
      cases init with
      | none =>
        rw [stmt]
        exact .visit (.pure fun _ _ => .rfl) (by simp) fun _ => ⟨fun _ => .array, fun _ => rfl⟩
      | some e =>
        rw [stmt]
        refine .visit (arrayInit_decides name length (fun h => h.formed.root.1) ?_
          (own id e (by simp)) ?_) (by simp) fun _ => ⟨?_, fun h => ?_⟩
        · obtain ⟨m', shape⟩ := e
          rintro es rfl h
          exact h.right.root.2 _ rfl
        · obtain ⟨m', shape⟩ := e
          exact fun a ha => (expr_decides a).given fun h =>
            (h.expr (e := .node m' shape) (by simp)).child ha
        · rintro ⟨m', es, rfl, hlength, hes⟩
          exact .arrayInit hlength hes
        · cases h with
          | arrayInit hlength hes => exact ⟨_, _, rfl, hlength, hes⟩
    | stop k =>
      rw [stmt, visits_node]
      refine ((jump_decides (.inl rfl)).congr fun h _ => ?_).among (by simp [Stmt.exprTags])
      -- The check looks for the loop along the links, and the rule knows it from outside.
      rw [h.enclosing.2, hloop]
      refine ⟨fun h => h ▸ .stop, fun h => ?_⟩
      cases h
      rfl
    | skip k =>
      rw [stmt, visits_node]
      refine ((jump_decides (.inr rfl)).congr fun h _ => ?_).among (by simp [Stmt.exprTags])
      rw [h.enclosing.2, hloop]
      refine ⟨fun h => h ▸ .skip, fun h => ?_⟩
      cases h
      rfl

end Statements

/-! ## Functions -/

/-- The returns of a function are cleared before they are counted. -/
theorem function_decides (g : FunctionId) (f : Function (Stmt Mark)) :
    Decides t n₀ R (ReadyStmt t n₀ R V g f.returnType none f.body) (function t g f)
      (functionEvents t n₀ g f) f.body.exprTags fun _ =>
        f.body.WellTyped t n₀ f.returnType false ∧
          (f.returnType ≠ .void → counted t n₀ g f ≠ []) := by
  have clear : ∀ {C : Prop},
      Decides t n₀ R C (noteFunction g ({ · with returns := [] })) [.enter g] [] fun _ => True := by
    refine ⟨(), .onFunction g ({ · with returns := [] }), [], .single rfl (.clearReturns g) rfl,
      fun st _ => ?_, fun _ => ⟨fun _ => ⟨trivial, fun _ => .inl fun _ => rfl, by simp⟩,
        fun _ _ => ⟨rfl, rfl⟩⟩⟩
    rw [Edit.apply_onFunction, List.append_nil]
    rfl
  have body : Decides t n₀ R (ReadyStmt t n₀ R V g f.returnType none f.body) _ _ _ _ :=
    stmt_decides f.body [] none false rfl
  have both := clear.seq (body.given And.left)
  obtain ⟨_, d, es, hd, hrun, -⟩ := id both
  obtain ⟨keeps, added, hkeeps, hadded⟩ := hd.types.function g
  -- What is counted does not depend on what was noted before.
  have hreturns : ∀ n : Notes, n₀.Resembles n → ((d.apply n).function g).returns =
      counted t n₀ g f := by
    intro n hn
    have hsame := hadded {}
    have hnone : keeps = false := hkeeps (by simp [Event.entered?])
    rw [hd.function, hnone] at hsame
    rw [Edit.function_apply, hadded, hnone, hn.size, counted]
    split
    · exact (congrArg FunctionNote.returns hsame).symm
    · rfl
  have last : ∀ {C : Prop},
      Decides t n₀ R C (reportIf (f.returnType ≠ .void && (counted t n₀ g f).isEmpty)
        f.name.line (.noReturn f.name.lexeme))
      (if f.returnType ≠ .void && (counted t n₀ g f).isEmpty then [.lack f] else []) []
      fun _ => f.returnType ≠ .void → counted t n₀ g f ≠ [] := by
    intro C
    rw [reportIf]
    split
    · rename_i hlack
      exact reports ⟨.none, rfl, rfl, rfl⟩ fun _ => by simpa using hlack
    · rename_i hlack
      exact .pure fun _ _ => by simpa using hlack
  have counts : ∀ st : State, n₀.Resembles st.notes → (function t g f).run st =
      ((noteFunction g ({ · with returns := [] }) >>= fun _ => stmt t f.body) >>= fun _ =>
        reportIf (f.returnType ≠ .void && (counted t n₀ g f).isEmpty) f.name.line
          (.noReturn f.name.lexeme) : Typing Unit).run st := by
    intro st hst
    rw [StateT.run_bind, hrun st hst, ← hreturns st.notes hst]
    show (((noteFunction g ({ · with returns := [] }) >>= fun _ => stmt t f.body) >>= fun _ =>
      get >>= fun s => reportIf (f.returnType ≠ .void && (s.notes.function g).returns.isEmpty)
        f.name.line (.noReturn f.name.lexeme) : Typing Unit)).run st = _
    rw [StateT.run_bind, hrun st hst]
    rfl
  exact (((both.seq last).congr fun _ _ => by rw [true_and]).among (by simp)).of_run counts

theorem functions_decides {W : FunctionId × Function (Stmt Mark) → Prop}
    {vs : List (FunctionId × Function (Stmt Mark))}
    (h : ∀ v ∈ vs, Decides t n₀ R C (function t v.1 v.2) (functionEvents t n₀ v.1 v.2)
      v.2.body.exprTags fun _ => W v) :
    Decides t n₀ R C (functions t vs) (vs.flatMap fun v => functionEvents t n₀ v.1 v.2)
      (vs.flatMap fun v => v.2.body.exprTags) fun _ => ∀ v ∈ vs, W v := by
  induction vs with
  | nil =>
    rw [functions]
    exact .pure (by simp)
  | cons v vs ih =>
    rw [List.forall_mem_cons] at h
    rw [functions]
    exact (h.1.seq ((ih h.2).given And.left)).congr fun _ _ => by rw [List.forall_mem_cons]

/-- The function that a program starts with takes nothing and returns an integer or nothing. -/
theorem entryPoint_decides : Decides t n₀ R C (entryPoint t) [] [] fun _ =>
    ∀ f, (t.findFunction? "main").bind (t.functions[·]?) = some f →
      f.params = [] ∧ (f.returnType = .int ∨ f.returnType = .void) := by
  rw [entryPoint]
  split
  · rename_i main hmain
    refine ((reportIf_decides rfl fun _ => .rfl).seq (reportIf_decides rfl fun _ => .rfl)).congr
      fun _ _ => ?_
    simp only [hmain, Option.some.injEq, forall_eq']
    refine and_congr (by simp) ?_
    by_cases hint : main.returnType = .int <;> simp [hint]
  · rename_i hnone
    exact .pure fun _ _ => by simp [hnone]

end Typing

/-- Checking a program is an edit of its notes, and the errors depend on names, places and links
only.  There are none exactly if the program is well-typed. -/
theorem Program.exists_check_decides (t : Tree) (n₀ : Notes) (R : ExprId → ValueType → Prop)
    (V : FunctionId × Function (Stmt Mark) → Binding → Prop) :
    ∃ (d : Edit) (es : List TypeError), Typing.Effect t n₀ (Typing.events t n₀) d es ∧
      (∀ p : Program, p.tree = t → n₀.Resembles p.notes →
        p.check = (⟨p.tree, d.apply p.notes, p.scopes⟩, es)) ∧
      ((∀ v ∈ t.views, Typing.ReadyStmt t n₀ R (V v) v.1 v.2.returnType none v.2.body) →
        (es = [] → d.Annotates R (t.views.flatMap fun v => v.2.body.exprTags)) ∧
        (es = [] ↔ (∀ v ∈ t.views, v.2.body.WellTyped t n₀ v.2.returnType false ∧
            (v.2.returnType ≠ .void → Typing.counted t n₀ v.1 v.2 ≠ [])) ∧
          ∀ f, (t.findFunction? "main").bind (t.functions[·]?) = some f →
            f.params = [] ∧ (f.returnType = .int ∨ f.returnType = .void))) := by
  have all : Typing.Decides t n₀ R (∀ v ∈ t.views,
      Typing.ReadyStmt t n₀ R (V v) v.1 v.2.returnType none v.2.body) (Typing.all t) _ _ _ :=
    .seq (Typing.functions_decides fun v hv =>
      (Typing.function_decides v.1 v.2).given fun h => h v hv) Typing.entryPoint_decides
  rw [List.append_nil, List.append_nil] at all
  obtain ⟨_, d, es, hd, hrun, h⟩ := all
  refine ⟨d, es, hd, fun p htree hn => ?_,
    fun hC => ⟨fun hes => ((h hC).1 hes).2, fun hes => ?_, ?_⟩⟩
  · rw [Program.check, htree, hrun ⟨p.notes, []⟩ hn]
    rfl
  · exact ((h hC).1 hes).1
  · exact fun hw => ((h hC).2 () hw).1

/-- Checking a program is an edit of its notes, and the errors depend on names, places and links
only. -/
theorem Program.exists_check_effect (t : Tree) (n₀ : Notes) :
    ∃ (d : Edit) (es : List TypeError), Typing.Effect t n₀ (Typing.events t n₀) d es ∧
      ∀ p : Program, p.tree = t → n₀.Resembles p.notes →
        p.check = (⟨p.tree, d.apply p.notes, p.scopes⟩, es) := by
  obtain ⟨d, es, hd, hrun, -⟩ := exists_check_decides t n₀ (fun _ _ => True) fun _ _ => True
  exact ⟨d, es, hd, hrun⟩

/-- The returns of every function are cleared. -/
theorem Program.exists_check_eq (t : Tree) (n₀ : Notes) :
    ∃ (d : Edit) (es : List TypeError), d.Types (t.views.map Prod.fst) ∧
      ∀ p : Program, p.tree = t → n₀.Resembles p.notes →
        p.check = (⟨p.tree, d.apply p.notes, p.scopes⟩, es) := by
  obtain ⟨d, es, hd, hrun⟩ := exists_check_effect t n₀
  exact ⟨d, es, Typing.entered_events t n₀ ▸ hd.types, hrun⟩

theorem Program.resembles_check (p : Program) : p.notes.Resembles p.check.1.notes := by
  obtain ⟨d, es, hd, hrun⟩ := Program.exists_check_eq p.tree p.notes
  rw [hrun p rfl ⟨.refl _, rfl⟩]
  exact Notes.resembles_apply hd

end StackLang
