import StackLang.Proofs.Safety.Continuations
import StackLang.Proofs.Safety.Locality

/-!
# Definite assignment

If every variable is declared with a value, a variable is written before it is read, on whatever way
the code gets to the place where it is read.  Said from the end: code is guarded if all that it
reads of the frame has been written, provided that some places have been written before it.

* `Guarded` — the rest of a function's code reads written places only.
* `Program.Assigned` — the variables that have been declared at a place of the source.
* `Stmt.Code.passes` — behind a statement the variables that it declares have been written as well.
* `GuardedAt` — the same of an address of the assembled code, closed under what an instruction does.
-/

namespace StackLang

variable {op step : Op} {T : ValueType} {slot : Int} {p : Program} {is : List Item}
  {ds : List Declaration} {m : Mark} {kind : Token.Kind} {J : Writes} {D : Word → Prop}

/-! ## The condition on the source -/

/-- Whether a statement itself declares a variable without a value. -/
def Stmt.Shape.leavesBlank {ρ ε : Type} : Shape ρ ε → Bool
  | var _ _ none => true
  | _ => false

/-- Every variable of the program is declared with a value. -/
def Program.initialized (p : Program) : Bool :=
  p.tree.stmts.all fun n => !n.shape.leavesBlank

/-! ## Guarded code -/

/-- Labels with the places that have been written when they are jumped to. -/
abbrev Writes : Type :=
  Jumps (Word → Prop)

/-- Whether the code goes on behind the operation, and it neither reads nor writes a variable. -/
def Op.isStraight : Op → Bool
  | peek | poke | jump | jumpZero | ret | retValue | exit => false
  | _ => true

theorem Op.isJump_of_isStraight (h : op.isStraight = true) : op.isJump = false := by
  cases op <;> first | rfl | cases h

/-- The code reads places of the frame that have been written, if those of `D` have been.  Places
are told by operands, and `live` are the labels that may be jumped to when some places have been
written. -/
inductive Guarded (live : Writes) : (Word → Prop) → List Item → Prop where
  | place {D : Word → Prop} {l : LabelId} {is : List Item} (h : Guarded live D is) :
    Guarded live D (.place l :: is)
  | peek {D : Word → Prop} {w : Word} {is : List Item} (hw : D w) (h : Guarded live D is) :
    Guarded live D (.withWord .peek w :: is)
  | poke {D : Word → Prop} {w : Word} {is : List Item}
    (h : Guarded live (fun x => D x ∨ x = w) is) : Guarded live D (.withWord .poke w :: is)
  | jump {D E : Word → Prop} {l : LabelId} {is : List Item} (hl : live E l)
    (hE : ∀ w, E w → D w) : Guarded live D (.withLabel .jump l :: is)
  | jumpZero {D E : Word → Prop} {l : LabelId} {is : List Item} (hl : live E l)
    (hE : ∀ w, E w → D w) (h : Guarded live D is) : Guarded live D (.withLabel .jumpZero l :: is)
  | leave {D : Word → Prop} {op : Op} {is : List Item}
      (hop : op = .ret ∨ op = .retValue ∨ op = .exit) :
    Guarded live D (.plain op :: is)
  | other {D : Word → Prop} {op : Op} {operands : List Operand} {is : List Item}
    (hop : op.isStraight = true) (h : Guarded live D is) : Guarded live D (.instr op operands :: is)

namespace Guarded

variable {live : Writes} {D E : Word → Prop} {is : List Item}

/-- More may have been written. -/
theorem mono (h : Guarded live D is) (hD : ∀ w, D w → E w) : Guarded live E is := by
  induction h generalizing E with
  | place _ ih => exact .place (ih hD)
  | peek hw _ ih => exact .peek (hD _ hw) (ih hD)
  | poke _ ih => exact .poke (ih fun x hx => hx.imp_left (hD x))
  | jump hl hE => exact .jump hl fun w hw => hD w (hE w hw)
  | jumpZero hl hE _ ih => exact .jumpZero hl (fun w hw => hD w (hE w hw)) (ih hD)
  | leave hop => exact .leave hop
  | other hop _ ih => exact .other hop (ih hD)

/-- Writing a place does no harm. -/
theorem write (h : Guarded live D is) (w : Word) : Guarded live D (.withWord .poke w :: is) :=
  .poke (h.mono fun _ => .inl)

theorem narrowing {target source : ValueType} (h : Guarded live D is) :
    Guarded live D (Item.narrowing target source ++ is) := by
  rw [Item.narrowing]
  split
  · exact .other rfl h
  · exact h

theorem widening {isFloat : Bool} (h : Guarded live D is) :
    Guarded live D (Item.widening isFloat op T ++ is) := by
  rw [Item.widening]
  split
  · exact .other rfl h
  · exact h

theorem counting {trailing : Bool} (hstep : step.isStraight = true) (hslot : D (Int64.ofInt slot))
    (h : Guarded live D is) : Guarded live D (Item.counting step trailing slot ++ is) := by
  cases trailing with
  | true => exact .peek hslot (.other rfl (.other rfl (.other hstep (h.write _))))
  | false => exact .peek hslot (.other rfl (.other hstep (.other rfl (h.write _))))

end Guarded

/-! ## Declared variables -/

/-- The operand is the place of a variable, not of an array, that is declared in one of the
scopes. -/
def Program.Assigned (p : Program) (scopes : Surroundings) (w : Word) : Prop :=
  ∃ ds ∈ scopes, ∃ d ∈ ds, ∃ info slot, p.tree.varInfo? p.notes d.binding = some info ∧
    info.length = none ∧ info.slot = some slot ∧ w = Int64.ofInt slot

section

variable {p : Program} {scopes : Surroundings} {w : Word} {init : Option (Expr Mark)}
  {name : String} {b : Binding} {n : Token}

/-- What a name stands for is declared in one of the scopes. -/
theorem Surroundings.exists_of_find? (h : scopes.find? name = some b) :
    ∃ ds ∈ scopes, ∃ d ∈ ds, d.binding = b := by
  obtain ⟨ds, hds, hfirst⟩ := List.exists_of_findSome?_eq_some h
  obtain ⟨d, hd, rfl⟩ := Option.map_eq_some_iff.mp hfirst
  exact ⟨ds, hds, d, List.mem_of_find?_eq_some hd, rfl⟩

theorem Program.assigned_of_find? {info : VarInfo} (hb : scopes.find? name = some b)
    (hinfo : p.tree.varInfo? p.notes b = some info) (hl : info.length = none)
    (hs : info.slot = some slot) : p.Assigned scopes (Int64.ofInt slot) := by
  obtain ⟨ds, hds, d, hd, rfl⟩ := Surroundings.exists_of_find? hb
  exact ⟨ds, hds, d, hd, info, slot, hinfo, hl, hs, rfl⟩

theorem Program.assigned_cons :
    p.Assigned (ds :: scopes) w ↔ p.Assigned [ds] w ∨ p.Assigned scopes w := by
  simp only [Program.Assigned, List.mem_cons, List.not_mem_nil, or_false, exists_eq_or_imp,
    exists_eq_left]

/-- What is declared last adds to what has been declared before. -/
theorem Program.assigned_append {here more : List Declaration} :
    p.Assigned ((here ++ more) :: scopes) w ↔
      p.Assigned (here :: scopes) w ∨ p.Assigned [more] w := by
  have hlast : p.Assigned [here ++ more] w ↔ p.Assigned [here] w ∨ p.Assigned [more] w := by
    simp only [Program.Assigned, List.mem_singleton, exists_eq_left, List.mem_append, or_and_right,
      exists_or]
  rw [Program.assigned_cons, hlast, or_right_comm, ← Program.assigned_cons]

theorem Program.assigned_nil : p.Assigned ([] :: scopes) w ↔ p.Assigned scopes w := by
  simp [Program.Assigned]

theorem Program.not_assigned_nil (w : Word) : ¬p.Assigned [[]] w := by
  simp [Program.Assigned]

/-- An array is not among the variables. -/
theorem Program.not_assigned_array {length : Nat}
    (h : (Stmt.node m (.array n T length init)).Held p.tree) (w : Word) :
    ¬p.Assigned [(Stmt.node m (.array n T length init)).declared] w := by
  have hinfo := Tree.varInfo?_of_held (n := p.notes) h
  simp [Program.Assigned, Stmt.declared, hinfo]

theorem Program.eq_of_assigned_var (h : (Stmt.node m (.var n T init)).Held p.tree)
    (hslot : (p.notes.stmt m.id).slot = some slot)
    (hw : p.Assigned [(Stmt.node m (.var n T init)).declared] w) : w = Int64.ofInt slot := by
  have hinfo := Tree.varInfo?_of_held (n := p.notes) h
  simpa [Program.Assigned, Stmt.declared, hinfo, hslot] using hw

end

/-! ## Expressions -/

theorem Op.isStraight_of_ofBinary? {l r : ValueType} {o : Op} (h : Op.ofBinary? kind l r = some o) :
    o.isStraight = true := by
  unfold Op.ofBinary? Op.ofFloatOperator? Op.ofOperator? at h
  split at h <;> split at h <;> cases h <;> rfl

theorem Op.isStraight_of_ofCounting? (h : Op.ofCounting? kind = some step) :
    step.isStraight = true := by
  unfold Op.ofCounting? at h
  split at h <;> cases h <;> rfl

section

variable {K : Compiled} {scopes : Surroundings} {live : Writes} {D : Word → Prop}

mutual

/-- The code of an expression reads variables that have been declared around it. -/
theorem Expr.Code.guarded {e : Expr Mark} {is : List Item}
    (hD : ∀ w, K.program.Assigned scopes w → D w) :
    e.Code K.context K.generated.strings is → K.Resolves scopes e → ∀ {rest : List Item},
      Guarded live D rest → Guarded live D (is ++ rest)
  | .literal _, _, _, h => .other rfl h
  | .grouping hc, he, _, h => hc.guarded hD (he.child (List.mem_singleton_self _)) h
  | .binary _ _ ho left right, he, _, h => by
    simp only [List.append_assoc]
    refine left.guarded hD (he.child (by simp)) (.widening ?_)
    refine right.guarded hD (he.child (by simp)) (.widening ?_)
    exact .other (Op.isStraight_of_ofBinary? ho) h
  | .plus _ hc, he, _, h => hc.guarded hD (he.child (List.mem_singleton_self _)) h
  | .minus _ _ hc, he, _, h => by
    simp only [List.append_assoc]
    refine .other rfl (hc.guarded hD (he.child (List.mem_singleton_self _)) (.other ?_ h))
    split <;> rfl
  | .not _ hc, he, _, h => by
    rw [List.append_assoc]
    exact hc.guarded hD (he.child (List.mem_singleton_self _)) (.other rfl h)
  | .count hop hv hs, he, _, h => by
    have hname := he.child (List.mem_singleton_self _)
    obtain ⟨T, -, info, hv', hl, -⟩ := hname.checks.typed.root
    cases hv.symm.trans hv'
    obtain ⟨b, hb, -, hinfo⟩ := hname.exists_binding rfl rfl hv
    exact .counting (Op.isStraight_of_ofCounting? hop)
      (hD _ (Program.assigned_of_find? hb hinfo hl hs)) h
  | .name hv hs, he, _, h => by
    obtain ⟨T, -, info, hv', hl, -⟩ := he.checks.typed.root
    cases hv.symm.trans hv'
    obtain ⟨b, hb, -, hinfo⟩ := he.exists_binding rfl rfl hv
    exact .peek (hD _ (Program.assigned_of_find? hb hinfo hl hs)) h
  | .assign _ _ _ value, he, _, h => by
    simp only [List.append_assoc]
    exact value.guarded hD (he.child (List.mem_singleton_self _))
      (.narrowing (.other rfl (h.write _)))
  | .assignElement _ _ _ value index, he, _, h => by
    simp only [List.append_assoc]
    refine value.guarded hD (he.child (by simp)) (.narrowing (.other rfl ?_))
    exact index.guarded hD (he.child (by simp)) (.other rfl h)
  | .call _ _ hargs, he, _, h => by
    simp only [List.append_assoc]
    refine .other rfl (hargs.guarded hD (fun e hmem => he.child hmem) (.other rfl ?_))
    split
    · exact .other rfl h
    · exact h
  | .element _ _ index, he, _, h => by
    rw [List.append_assoc]
    exact index.guarded hD (he.child (List.mem_singleton_self _)) (.other rfl h)
  | .random hc, he, _, h => by
    rw [List.append_assoc]
    exact hc.guarded hD (he.child (List.mem_singleton_self _)) (.other rfl h)

theorem Expr.ArgsCode.guarded {es : List (Expr Mark)} {ps : List Param} {is : List Item}
    (hD : ∀ w, K.program.Assigned scopes w → D w) :
    Expr.ArgsCode K.context K.generated.strings es ps is → (∀ e ∈ es, K.Resolves scopes e) →
      ∀ {rest : List Item}, Guarded live D rest → Guarded live D (is ++ rest)
  | .nil, _, _, h => h
  | .cons _ hc hcs, he, _, h => by
    rw [List.forall_mem_cons] at he
    simp only [List.append_assoc]
    exact hc.guarded hD he.1 (.narrowing (hcs.guarded hD he.2 h))

end

/-! ## Parts of statements -/

namespace Guarded

variable {is rest : List Item} {e : Option (Expr Mark)} {es : List (Expr Mark)}

section

variable (hD : ∀ w, K.program.Assigned scopes w → D w)

include hD

theorem optional {use : List Item} (h : Expr.OptionalCode K.context K.generated.strings use e is)
    (huse : Guarded live D rest → Guarded live D (use ++ rest))
    (he : ∀ x ∈ e.toList, K.Resolves scopes x) (hrest : Guarded live D rest) :
    Guarded live D (is ++ rest) := by
  cases h with
  | none => exact hrest
  | some hc =>
    rw [List.append_assoc]
    exact hc.guarded hD (he _ (List.mem_singleton_self _)) (huse hrest)

theorem outputs (h : Expr.OutputsCode K.context K.generated.strings es is)
    (he : ∀ x ∈ es, K.Resolves scopes x) (hrest : Guarded live D rest) :
    Guarded live D (is ++ rest) := by
  induction h with
  | nil => exact hrest
  | @cons e es T op is rest hT hop hc _ ih =>
    rw [List.forall_mem_cons] at he
    have hprint : op.isStraight = true := by
      cases T <;> cases hop <;> rfl
    simp only [List.append_assoc]
    exact hc.guarded hD he.1 (.other hprint (ih he.2))

theorem elements {type : ValueType}
    (h : Expr.ElementsCode K.context K.generated.strings type slot es is)
    (he : ∀ x ∈ es, K.Resolves scopes x) (hrest : Guarded live D rest) :
    Guarded live D (is ++ rest) := by
  induction h with
  | nil => exact hrest
  | cons _ hc _ ih =>
    rw [List.forall_mem_cons] at he
    simp only [List.append_assoc]
    exact hc.guarded hD he.1 (.narrowing ((ih he.2).write _))

end

end Guarded

end

/-! ## Statements -/

/-- Code that is guarded by what has been written where it begins. -/
def guarding : Continuation (Word → Prop) where
  Holds := Guarded
  Le D E := ∀ w, D w → E w
  refl _ _ hw := hw
  trans h h' w hw := h' w (h w hw)
  mono h hE := h.mono hE
  place h := .place h
  jump hl hE := .jump hl hE

/-- A program that is initialized declares no variable without a value. -/
theorem Program.not_held_of_initialized (h : p.initialized = true) {n : Token} :
    ¬(Stmt.node m (.var n T none)).Held p.tree := by
  intro hheld
  have hnode := Array.mem_of_getElem? hheld.root.1
  cases Array.all_eq_true_iff_forall_mem.mp h _ hnode

/-- A statement that declares no variable on its own. -/
theorem guarding.undeclared (h : guarding.Passes J D D is) (hds : ∀ w, ¬p.Assigned [ds] w) :
    guarding.Passes J D (fun w => D w ∨ p.Assigned [ds] w) is :=
  h.weaken fun w hw => hw.resolve_right (hds w)

section

variable {K : Compiled}

open Compiled Program guarding

mutual

/-- Behind the code of a statement the variables that it declares have been written as well. -/
theorem Stmt.Code.passes {loop : Option LoopLabels} {s : Stmt Mark} {is : List Item} {isBody : Bool}
    {here : List Declaration} {outer : Surroundings} {J : Writes} {D : Word → Prop}
    (hp : K.program.initialized = true) :
    s.Code K.context K.generated.strings loop is → K.Allows s →
      K.Binds (s.visits isBody here outer) → (∀ w, K.program.Assigned (here :: outer) w → D w) →
      guarding.Around J D loop →
        guarding.Passes J D (fun w => D w ∨ K.program.Assigned [s.declared] w) is
  | .block hbody, hs, hv, hD, hJ => by
    rw [Stmt.visits, binds_append] at hv
    refine undeclared ?_ not_assigned_nil
    cases isBody with
    | true => exact hbody.passes hp (fun x hx => hs.child hx) hv.1 hD hJ
    | false =>
      exact hbody.passes hp (fun x hx => hs.child hx) hv.1
        (fun w hw => hD w (assigned_nil.mp hw)) hJ
  | .ret _ hc, hs, hv, hD, _ => by
    obtain ⟨_, typed⟩ := hs.typed
    obtain ⟨-, htyped, -⟩ := typed.root
    rw [Stmt.visits, binds_append] at hv
    -- a return asks nothing of the code behind it
    refine .of_holds fun live rest _ _ => ?_
    simp only [List.append_assoc]
    exact hc.guarded hD ⟨hs.checks (List.mem_singleton_self _) htyped,
      hv.1.expr (List.mem_singleton_self _)⟩ (.narrowing (.leave (.inr (.inl rfl))))
  | .retVoid, _, _, _, _ => .of_holds fun _ _ _ _ => .leave (.inl rfl)
  | .expression hc, hs, hv, hD, _ => by
    obtain ⟨_, typed⟩ := hs.typed
    rw [Stmt.visits, binds_append] at hv
    refine undeclared (.of_holds fun live rest _ hrest => ?_) not_assigned_nil
    exact .optional hD hc (.other rfl) (List.forall_mem_singleton.mpr
      ⟨hs.checks (List.mem_singleton_self _) typed.root, hv.1⟩) hrest
  | .choice hbranches hotherwise, hs, hv, hD, hJ => by
    obtain ⟨_, typed⟩ := hs.typed
    rw [Stmt.visits, binds_append, binds_append] at hv
    obtain ⟨⟨harms, helse⟩, -⟩ := hv
    refine undeclared (.placeEnd (.append (hbranches.passes hp ?_ ?_ harms hD (.inr ⟨rfl, rfl⟩)
      hJ.insert) ((hotherwise.passes hp ?_ helse hD hJ.insert).weaken fun _ => .inl)))
      not_assigned_nil
    · exact fun b hb => hs.checks (List.mem_map_of_mem hb) (typed.root b hb).typed
    · exact fun b hb => hs.child (List.mem_append_left _ (List.mem_map_of_mem hb))
    · exact fun x hx => hs.child (List.mem_append_right _ (Option.mem_toList.mpr hx))
  | .whileLoop hguard hbody, hs, hv, hD, _ => by
    obtain ⟨_, typed⟩ := hs.typed
    rw [Stmt.visits, binds_append, binds_append] at hv
    obtain ⟨⟨hcond, hinner⟩, -⟩ := hv
    -- both labels are jumped to with what was written before the loop, so `D` is its invariant
    refine undeclared (.whileLoop (.of_holds fun live rest hJ hrest => ?_) fun hJ =>
      (hbody.passes hp (hs.child (by simp)) hinner
        (fun w hw => hD w (assigned_nil.mp hw)) hJ).weaken fun _ => .inl) not_assigned_nil
    exact .optional hD hguard (.jumpZero (hJ _ _ (.inl (.inr ⟨rfl, rfl⟩))) fun _ hw => hw)
      (List.forall_mem_singleton.mpr
        ⟨hs.checks (List.mem_singleton_self _) typed.root.typed, hcond⟩) hrest
  | @Stmt.Code.forLoop _ _ _ _ init _ _ _ _ _ _ _ _ _ _ hinit hguard hbody hupdate, hs, hv,
      hD, _ => by
    obtain ⟨_, typed⟩ := hs.typed
    rw [Stmt.visits, binds_append, binds_append, binds_append, binds_append] at hv
    obtain ⟨⟨⟨⟨hfirst, hcond⟩, hchange⟩, hinner⟩, -⟩ := hv
    have hstart := hinit.passes (J := J) hp
      (fun x hx => hs.child (List.mem_append_left _ (Option.mem_toList.mpr hx))) hfirst hD .none
    have hheader : ∀ w, K.program.Assigned (init.toList.flatMap Stmt.declared :: here :: outer) w →
        D w ∨ K.program.Assigned [init.toList.flatMap Stmt.declared] w :=
      fun w hw => (assigned_cons.mp hw).symm.imp_left (hD w)
    -- here the invariant has the variable of the header too, which is gone behind the loop
    simp only [List.append_assoc]
    refine undeclared (.weaken (hstart.append (.forLoop (.of_holds fun live rest hJ hrest => ?_)
      (fun hJ => (hbody.passes hp (hs.child (by simp)) hinner
        (fun w hw => hheader w (assigned_nil.mp hw)) hJ).weaken fun _ => .inl)
      (.of_holds fun live rest _ hrest => ?_))) fun _ => .inl) not_assigned_nil
    · exact .optional hheader hguard (.jumpZero (hJ _ _ (.inl (.inr ⟨rfl, rfl⟩))) fun _ hw => hw)
        (fun x hx => ⟨hs.checks (List.mem_append_left _ hx)
          (typed.root.1 x (Option.mem_toList.mp hx)).typed, hcond.expr hx⟩) hrest
    · exact .optional hheader hupdate (.other rfl)
        (fun x hx => ⟨hs.checks (List.mem_append_right _ hx)
          (typed.root.2 x (Option.mem_toList.mp hx)), hchange.expr hx⟩) hrest
  | .output hvalues, hs, hv, hD, _ => by
    obtain ⟨_, typed⟩ := hs.typed
    rw [Stmt.visits, binds_append] at hv
    refine undeclared (.of_holds fun live rest _ hrest => ?_) not_assigned_nil
    refine .outputs hD hvalues (fun x hx => ⟨?_, hv.1.expr hx⟩) hrest
    obtain ⟨T, -, hT⟩ := typed.root x hx
    exact hs.checks hx hT.typed
  | @Stmt.Code.input _ _ _ _ _ info _ _ _, _, _, _, _ => by
    refine undeclared (.of_holds fun live rest _ hrest => .other ?_ (hrest.write _))
      not_assigned_nil
    cases info.type <;> rfl
  | .var hslot _ hc, hs, hv, hD, _ => by
    obtain ⟨_, typed⟩ := hs.typed
    obtain ⟨htyped, -⟩ := typed.root _ rfl
    rw [Stmt.visits, binds_append] at hv
    refine .of_holds fun live rest _ hrest => ?_
    simp only [List.append_assoc]
    refine hc.guarded hD ⟨hs.checks (List.mem_singleton_self _) htyped,
      hv.1.expr (List.mem_singleton_self _)⟩ (.narrowing (.poke (hrest.mono fun w hw => ?_)))
    exact hw.imp_right (eq_of_assigned_var hs.held hslot)
  | .varBlank, hs, _, _, _ => (not_held_of_initialized hp hs.held).elim
  | .array hslot hes, hs, hv, hD, _ => by
    obtain ⟨_, typed⟩ := hs.typed
    obtain ⟨_, _, ⟨⟩, -, -, hfits⟩ := typed.root _ rfl
    rw [Stmt.visits, binds_append] at hv
    have hbraces := hv.1.expr (List.mem_singleton_self _)
    refine undeclared (.of_holds fun live rest _ hrest => ?_) ?_
    refine .elements hD hes (fun e he => ⟨⟨(hfits e he).1, ?_⟩, fun v hmem => ?_⟩) hrest
    · exact (hs.bound.root.1 _ (List.mem_singleton_self _)).child e he
    · exact hbraces v (Expr.visits_subset_of_child he hmem)
    · exact not_assigned_array hs.held
  | .arrayBlank, hs, _, _, _ =>
    undeclared (.of_holds fun _ _ _ hrest => hrest) (not_assigned_array hs.held)
  | .stop, _, _, _, hJ => .stop hJ
  | .skip, _, _, _, hJ => .skip hJ

theorem Stmt.ListCode.passes {loop : Option LoopLabels} {ss : List (Stmt Mark)} {is : List Item}
    {here : List Declaration} {outer : Surroundings} {J : Writes} {D : Word → Prop}
    (hp : K.program.initialized = true) :
    Stmt.ListCode K.context K.generated.strings loop ss is → (∀ s ∈ ss, K.Allows s) →
      K.Binds (Stmt.visitsAll here outer ss) → (∀ w, K.program.Assigned (here :: outer) w → D w) →
      guarding.Around J D loop → guarding.Passes J D D is
  | .nil, _, _, _, _ => .of_holds fun _ _ _ hrest => hrest
  | .cons hc hcs, hs, hv, hD, hJ => by
    rw [Stmt.visitsAll, binds_append] at hv
    rw [List.forall_mem_cons] at hs
    have hfirst := hc.passes hp hs.1 hv.1 hD hJ
    have hrest := hcs.passes hp hs.2 hv.2 (fun w hw => (assigned_append.mp hw).imp_left (hD w))
      (hJ.mono fun _ => .inl)
    exact (hfirst.append hrest).weaken fun _ => .inl

theorem Stmt.ArmsCode.passes {loop : Option LoopLabels} {stop : LabelId}
    {bs : List (Expr Mark × Stmt Mark)} {is : List Item} {outer : Surroundings} {J : Writes}
    {D : Word → Prop} (hp : K.program.initialized = true) :
    Stmt.ArmsCode K.context K.generated.strings loop stop bs is → (∀ b ∈ bs, K.Checks b.1) →
      (∀ b ∈ bs, K.Allows b.2) → K.Binds (Stmt.visitsArms outer bs) →
      (∀ w, K.program.Assigned outer w → D w) → J D stop → guarding.Around J D loop →
        guarding.Passes J D D is
  | .nil, _, _, _, _, _, _ => .of_holds fun _ _ _ hrest => hrest
  | .cons hguard hbody hrest, he, hs, hv, hD, hstop, hJ => by
    rw [Stmt.visitsArms, binds_append, binds_append] at hv
    obtain ⟨⟨hve, hvs⟩, hvr⟩ := hv
    rw [List.forall_mem_cons] at he hs
    refine .arm (.of_holds fun live rest hJ' h => ?_)
      (hbody.passes hp hs.1 hvs (fun w hw => hD w (assigned_nil.mp hw)) hJ.insert) hstop
      (fun _ => .inl) (hrest.passes hp he.2 hs.2 hvr hD hstop hJ)
    exact .optional hD hguard (.jumpZero (hJ' _ _ (.inr ⟨rfl, rfl⟩)) fun _ hw => hw)
      (List.forall_mem_singleton.mpr ⟨he.1, hve⟩) h

theorem Stmt.OptionCode.passes {loop : Option LoopLabels} {s : Option (Stmt Mark)}
    {is : List Item} {isBody : Bool} {outer : Surroundings} {J : Writes} {D : Word → Prop}
    (hp : K.program.initialized = true) : Stmt.OptionCode K.context K.generated.strings loop s is →
      (∀ x ∈ s, K.Allows x) → K.Binds (Stmt.visitsOption isBody outer s) →
      (∀ w, K.program.Assigned outer w → D w) → guarding.Around J D loop →
      guarding.Passes J D (fun w => D w ∨ K.program.Assigned [s.toList.flatMap Stmt.declared] w) is
  | .none, _, _, _, _ => undeclared (.of_holds fun _ _ _ hrest => hrest) not_assigned_nil
  | .some hc, hs, hv, hD, hJ => by
    rw [Stmt.visitsOption] at hv
    simpa using hc.passes hp (hs _ rfl) hv (fun w hw => hD w (assigned_nil.mp hw)) hJ

end

end

/-! ## Functions -/

/-- The code behind every label that may be jumped to is guarded. -/
def Writes.Closed (J : Writes) (is : List Item) : Prop :=
  ∀ D l, J D l → ∃ pre suf, is = pre ++ Item.place l :: suf ∧ Guarded J D suf

theorem Guarded.reserving {k : Nat} (h : Guarded J D is) :
    Guarded J D (Item.reserving k ++ is) := by
  rw [Item.reserving]
  split
  · exact .other rfl h
  · exact h

/-- The code of a function reads its parameters and places that have been written. -/
theorem Function.Code.guarded {K : Compiled} (hp : K.program.Checked)
    (hinit : K.program.initialized = true) (hv : (K.id, K.f) ∈ K.program.tree.views)
    (hb : K.Binds (K.f.visits K.id))
    (hcode : Function.Code K.program K.generated.strings K.id K.f is) :
    ∃ J : Writes, J.Closed is ∧ Guarded J (K.program.Assigned [K.f.declared K.id]) is := by
  obtain ⟨hbody⟩ := hcode
  have hallows : K.Allows K.f.body := hp.allows hv
  rw [Function.visits, Compiled.binds_append] at hb
  obtain ⟨N, hN⟩ := hbody.passes (J := fun _ _ => False) hinit hallows hb.2 (fun _ hw => hw) .none
  -- no label outside of the body is jumped to, so its own labels `N` are all there are
  obtain ⟨hall, hlabels⟩ := hN N (fun _ _ h => h.elim) (fun _ _ h => h) [Item.plain .ret]
    (.leave (.inl rfl))
  refine ⟨N, fun D l hl => ?_, by simpa using hall.reserving.place⟩
  obtain ⟨pre, suf, rfl, hsuf⟩ := hlabels D l hl
  exact ⟨Item.place K.id :: Item.reserving (K.program.tree.cells K.f.body.tags) ++ pre,
    suf ++ [Item.plain .ret], by simp, hsuf⟩

/-- The places of the parameters of a function. -/
theorem Program.Assigned.exists_param {v : FunctionId × Function (Stmt Mark)} {w : Word}
    (hn : p.tree.Named p.notes v.1 v.2) (h : p.Assigned [v.2.declared v.1] w) :
    ∃ i < v.2.params.length, w = Int64.ofInt (paramSlot i v.2.params.length) := by
  obtain ⟨_, hds, d, hd, info, slot, hinfo, hl, hs, rfl⟩ := h
  rw [List.mem_singleton.mp hds, Function.declared] at hd
  obtain ⟨⟨q, i⟩, hq, rfl⟩ := List.mem_map.mp hd
  have hi : i < v.2.params.length := by simpa using List.snd_lt_of_mem_zipIdx hq
  have hcell : p.tree.CellAt p.notes v.1 v.2 (.param v.1 i) 0 slot :=
    ⟨⟨rfl, hi⟩, info, slot, hinfo, hs, by simp [hl], by simp⟩
  rcases hcell.cases hn with ⟨j, hj, hb, -, rfl⟩ | ⟨m, _, _, _, hb, _⟩
  · exact ⟨j, hj, rfl⟩
  · cases hb

/-! ## Addresses -/

/-- From the address on, the code reads places of the frame that have been written, if those of `D`
have been. -/
def GuardedAt (code : Array Word) (env : Addresses) (a : Nat) (D : Word → Prop) : Prop :=
  ∃ (J : Writes) (start : Nat) (pre rest : List Item), a = start + Item.size pre ∧
    Item.Lies code env start (pre ++ rest) ∧ (∀ i ∈ pre ++ rest, i.Fits) ∧ J.Closed (pre ++ rest) ∧
    Guarded J D rest

section

variable {code : Array Word} {env : Addresses} {a : Nat} {D : Word → Prop} {J : Writes}
  {is : List Item} {g : Generated}

/-- Labels need no steps. -/
theorem Guarded.skip {items pre rest : List Item} (hitems : items = pre ++ rest)
    (h : Guarded J D rest) :
    ∃ pre' op operands rest', items = pre' ++ .instr op operands :: rest' ∧
      Item.size pre' = Item.size pre ∧ Guarded J D (.instr op operands :: rest') := by
  induction rest generalizing pre with
  | nil => cases h
  | cons i rest ih =>
    cases i with
    | place l =>
      cases h with
      | place h =>
        obtain ⟨pre', op, operands, rest', heq, hsize, hrest⟩ :=
          ih (hitems.trans (List.append_cons ..)) h
        exact ⟨pre', op, operands, rest', heq, by simpa using hsize, hrest⟩
    | instr op operands => exact ⟨pre, op, operands, rest, hitems, rfl, h⟩

/-- Guarded code has an instruction. -/
theorem Guarded.lt_size (h : Guarded J D is) (hl : Item.Lies code env a is) : a < code.size := by
  induction h with
  | place _ ih => exact ih hl.2
  | _ => exact (Array.getElem?_eq_some_iff.mp (hl.1 0 _ rfl)).1

/-- The next instruction of guarded code. -/
theorem GuardedAt.exists_instr (h : GuardedAt code env a D) (hop : code[a]? = some op.word) :
    ∃ (J : Writes) (start : Nat) (pre : List Item) (operands : List Operand) (rest : List Item),
      a = start + Item.size pre ∧ Item.Lies code env start (pre ++ .instr op operands :: rest) ∧
      (∀ i ∈ pre ++ .instr op operands :: rest, i.Fits) ∧
      J.Closed (pre ++ .instr op operands :: rest) ∧ Guarded J D (.instr op operands :: rest) := by
  obtain ⟨J, start, pre, rest, rfl, hlies, hfits, hclosed, hrest⟩ := h
  obtain ⟨pre', op', operands, rest', heq, hsize, hrest'⟩ := hrest.skip rfl
  rw [heq] at hlies hfits hclosed
  have hword := (Item.lies_append.mp hlies).2.1 0 _ rfl
  rw [hsize, Nat.add_zero, hop] at hword
  have hsame : some op = some op' := by
    rw [← Op.ofWord?_word op, ← Op.ofWord?_word op', Option.some.inj hword]
    rfl
  cases hsame
  exact ⟨J, start, pre', operands, rest', by rw [hsize], hlies, hfits, hclosed, hrest'⟩

/-- Where the code goes on behind an instruction. -/
theorem guardedAt_behind {start : Nat} {pre rest : List Item} {operands : List Operand}
    (ha : a = start + Item.size pre)
    (hlies : Item.Lies code env start (pre ++ .instr op operands :: rest))
    (hfits : ∀ i ∈ pre ++ .instr op operands :: rest, i.Fits)
    (hclosed : J.Closed (pre ++ .instr op operands :: rest)) (hrest : Guarded J D rest) :
    GuardedAt code env (a + (op.arity + 1)) D := by
  have harity : operands.length = op.arity := hfits (.instr op operands) (by simp)
  rw [List.append_cons] at hlies hfits hclosed
  refine ⟨J, start, _, rest, ?_, hlies, hfits, hclosed, hrest⟩
  rw [ha, Item.size_append, Item.size_instr, Item.size_nil, harity]
  omega

namespace GuardedAt

variable {w : Word}

/-- The variable that is read has been written. -/
theorem peek (h : GuardedAt code env a D) (hop : code[a]? = some Op.peek.word) :
    ∃ w, code[a + 1]? = some w ∧ D w := by
  obtain ⟨J, start, pre, operands, rest, rfl, hlies, -, -, hrest⟩ := h.exists_instr hop
  cases hrest with
  | peek hD _ => exact ⟨_, (Item.lies_append.mp hlies).2.1 1 _ rfl, hD⟩
  | leave hop => rcases hop with hop | hop | hop <;> cases hop
  | other hop _ => cases hop

/-- The variable that is written has been written then. -/
theorem poke (h : GuardedAt code env a D) (hop : code[a]? = some Op.poke.word)
    (hw : code[a + 1]? = some w) : GuardedAt code env (a + 2) fun x => D x ∨ x = w := by
  obtain ⟨J, start, pre, operands, rest, ha, hlies, hfits, hclosed, hrest⟩ := h.exists_instr hop
  cases hrest with
  | poke hrest =>
    have hword := (Item.lies_append.mp hlies).2.1 1 _ rfl
    rw [← ha, hw] at hword
    cases hword
    exact guardedAt_behind ha hlies hfits hclosed hrest
  | leave hop => rcases hop with hop | hop | hop <;> cases hop
  | other hop _ => cases hop

/-- The code may go on at a label. -/
theorem jump (h : GuardedAt code env a D) {op : Op} (hop : code[a]? = some op.word)
    (hjump : op.isJump = true) (hw : code[a + 1]? = some w) {t : Nat} (ht : w.toIndex? = some t)
    (hsize : code.size < 0x8000000000000000) :
    ∃ E : Word → Prop, (∀ x, E x → D x) ∧ GuardedAt code env t E := by
  obtain ⟨J, start, pre, operands, rest, rfl, hlies, hfits, hclosed, hrest⟩ := h.exists_instr hop
  obtain ⟨l, E, hoperands, hl, hE⟩ : ∃ l E, operands = [.label l] ∧ J E l ∧ ∀ x, E x → D x := by
    cases hrest with
    | jump hl hE | jumpZero hl hE _ => exact ⟨_, _, rfl, hl, hE⟩
    | leave hop => rcases hop with rfl | rfl | rfl <;> cases hjump
    | other hstraight _ =>
      rw [Op.isJump_of_isStraight hstraight] at hjump
      cases hjump
    | peek | poke => cases hjump
  subst hoperands
  -- the operand is the address of the label, and the code behind it is guarded as `J` is closed
  have hword := (Item.lies_append.mp hlies).2.1 1 _ rfl
  rw [hw] at hword
  obtain ⟨pre', suf, heq, hsuf⟩ := hclosed E l hl
  rw [heq] at hlies hfits hclosed
  have hlabel := (Item.lies_append.mp hlies).2.1
  have hbound := hsuf.lt_size (Item.lies_append.mp hlies).2.2
  rw [Operand.resolve_label hlabel] at hword
  cases hword
  rw [Word.toIndex?_ofNat (by omega)] at ht
  cases ht
  refine ⟨E, hE, J, start, pre' ++ [Item.place l], suf, by simp, ?_, ?_, ?_, hsuf⟩
  all_goals rwa [← List.append_cons]

/-- The code goes on behind an instruction, with what has been written before. -/
theorem next (h : GuardedAt code env a D) (hop : code[a]? = some op.word) (hjump : op ≠ .jump)
    (hleave : op ≠ .ret ∧ op ≠ .retValue ∧ op ≠ .exit) (hpoke : op ≠ .poke) :
    GuardedAt code env (a + (op.arity + 1)) D := by
  obtain ⟨J, start, pre, operands, rest, ha, hlies, hfits, hclosed, hrest⟩ := h.exists_instr hop
  refine guardedAt_behind ha hlies hfits hclosed ?_
  cases hrest with
  | peek _ hrest => exact hrest
  | poke => exact absurd rfl hpoke
  | jump => exact absurd rfl hjump
  | jumpZero _ _ hrest => exact hrest
  | leave hop => simp_all
  | other _ hrest => exact hrest

end GuardedAt

/-- At the beginning of the program nothing has been written. -/
theorem Program.Assembled.guardedAt_start (h : p.Assembled g env is) :
    GuardedAt g.code env 0 fun _ => False := by
  obtain ⟨hcode, hlies, -⟩ := h
  cases hcode with
  | mk hmain hfunctions =>
    refine ⟨fun _ _ => False, 0, [], _, rfl, (Item.lies_append.mp hlies).1, ?_, fun _ _ h => h.elim,
      .other rfl (.other rfl (.leave (.inr (.inr rfl))))⟩
    simp [Item.Fits, Item.withLabel, Item.withWord, Item.plain, Op.arity]

/-- At the beginning of a function its parameters have been written. -/
theorem Program.Assembled.guardedAt_callee {source : String} (h : p.Assembled g env is)
    (hp : analyzeSource source = .ok p) (hinit : p.initialized = true) {id : FunctionId}
    {f : Function StmtId} (hf : p.tree.functions[id]? = some f) (ha : env id = some a) :
    GuardedAt g.code env a fun w =>
      ∃ i < f.params.length, w = Int64.ofInt (paramSlot i f.params.length) := by
  have hchecked := checked_of_analyzeSource hp
  obtain ⟨v, hv, rfl, rfl⟩ := hchecked.orderly.mem_views_of_functions hf
  obtain ⟨a', js, hcode, hlies, ha'⟩ := h.function hv
  cases ha.symm.trans ha'
  have hbinds := bound_of_analyzeSource hp v hv
  obtain ⟨J, hclosed, hjs⟩ :=
    hcode.guarded (K := ⟨p, g, env, v.1, v.2, fun _ => True⟩) hchecked hinit hv hbinds
  have hreaches := hcode.reaches (K := ⟨p, g, env, v.1, v.2, fun _ => True⟩) hchecked hv hbinds
  exact ⟨J, a, [], js, rfl, hlies, hreaches.fits, hclosed,
    hjs.mono fun w hw => hw.exists_param (hchecked.named v hv)⟩

end

end StackLang
