import StackLang.Proofs.Code.Assembled
import StackLang.Proofs.Machine.Steps
import StackLang.Proofs.Safety.Continuations

/-!
# The words on the stack, seen from the code

At every place of the code of a function that can be reached it is known how many words of the
function are on the stack, and which of them are addresses of functions that are about to be called.
Said from the end: code flows if it can be executed with the given words on the stack, provided that
the code behind it can.  What follows a return or a jump need not flow, so code that cannot be
reached is left alone.

* `Flow` — the rest of a function's code can be executed with some words on the stack.
* `Expr.Code.flow`, `Stmt.Code.through` — expressions leave one word, statements leave none.
-/

namespace StackLang

open Generate (Context)

variable {slot : Int} {m : Mark} {step : Op} {c : Context} {V : Binding → Prop} {e : Expr Mark}
  {kind : Token.Kind}

/-! ## Conditions on the source -/

/-- Whether an expression itself accesses an element of an array. -/
def Expr.Shape.accessesElement {ε : Type} : Shape ε → Bool
  | element _ _ | assign _ (some _) _ => true
  | _ => false

/-- No expression of the program accesses an element of an array. -/
def Program.elementless (p : Program) : Bool :=
  p.tree.exprs.all fun n => !n.shape.accessesElement

namespace Stmt

variable {τ : Type}

mutual

/-- Whether the statement returns on all paths: it is a return, a block with such a statement, or a
choice all of whose blocks are such. -/
def returns : Stmt τ → Bool
  | node _ shape =>
    match shape with
    | .ret _ _ => true
    | .block body => anyReturns body
    | .choice branches (some s) => armsReturn branches && returns s
    | _ => false

def anyReturns : List (Stmt τ) → Bool
  | [] => false
  | s :: ss => returns s || anyReturns ss

def armsReturn : List (Expr τ × Stmt τ) → Bool
  | [] => true
  | b :: bs => returns b.2 && armsReturn bs

end

theorem returns_choice (t : τ) (branches : List (Expr τ × Stmt τ)) (otherwise : Option (Stmt τ)) :
    (node t (.choice branches otherwise)).returns =
      (armsReturn branches && otherwise.elim false returns) := by
  cases otherwise <;> simp [returns]

end Stmt

/-- Every function that has a result returns on all paths. -/
def Program.returnsEverywhere (p : Program) : Bool :=
  p.tree.views.all fun v => v.2.returnType = .void || v.2.body.returns

/-! ## Flow -/

/-- What a word on the stack is. -/
inductive Entry where
  | value
  /-- The address of a function that is about to be called. -/
  | callee (id : FunctionId)
  deriving DecidableEq

/-- What is known about the function that some code belongs to. -/
structure Routine where
  /-- The labels that may be jumped to with a number of reserved cells. -/
  live : Nat → LabelId → Prop
  /-- The number of its parameters. -/
  params : Nat
  /-- For each function of the program, the number of its parameters and whether it has a result. -/
  functions : FunctionId → Option (Nat × Bool)
  /-- Whether it has a result. -/
  hasResult : Bool
  /-- Whether it may return without a result, even if it has one. -/
  lenient : Prop
  /-- Whether it is the code that starts the program. -/
  isEntry : Prop

namespace Routine

/-- The place is one of a parameter, or of one of `k` reserved cells. -/
def Fits (K : Routine) (k : Nat) (slot : Int) : Prop :=
  0 ≤ slot ∧ slot < k ∨ -(3 + K.params : Int) ≤ slot ∧ slot < -3

/-- The words on the stack behind a call, over those below the address of the function. -/
def after (hasResult : Bool) (σ : List Entry) : List Entry :=
  if hasResult then .value :: σ else σ

end Routine

/-- The code can be executed with `k` reserved cells and the given words on the stack. -/
inductive Flow (K : Routine) : Nat → List Item → List Entry → Prop where
  | place {k : Nat} {l : LabelId} {is : List Item} {σ : List Entry} (h : Flow K k is σ) :
    Flow K k (.place l :: is) σ
  | binary {k : Nat} {op : Op} {f : Word → Word → Word} {is : List Item} {σ : List Entry}
    (hf : op.binary? = some f) (h : Flow K k is (.value :: σ)) :
    Flow K k (.plain op :: is) (.value :: .value :: σ)
  | division {k : Nat} {op : Op} {f : Word → Word → Word} {is : List Item} {σ : List Entry}
    (hf : op.division? = some f) (h : Flow K k is (.value :: σ)) :
    Flow K k (.plain op :: is) (.value :: .value :: σ)
  | unary {k : Nat} {op : Op} {f : Word → Word} {is : List Item} {σ : List Entry}
    (hf : op.unary? = some f) (h : Flow K k is (.value :: σ)) :
    Flow K k (.plain op :: is) (.value :: σ)
  | pop {k : Nat} {is : List Item} {σ : List Entry} (h : Flow K k is σ) :
    Flow K k (.plain .pop :: is) (.value :: σ)
  | dup {k : Nat} {is : List Item} {σ : List Entry} (h : Flow K k is (.value :: .value :: σ)) :
    Flow K k (.plain .dup :: is) (.value :: σ)
  | push {k : Nat} {w : Word} {is : List Item} {σ : List Entry} (h : Flow K k is (.value :: σ)) :
    Flow K k (.withWord .push w :: is) σ
  | callee {k : Nat} {id : FunctionId} {is : List Item} {σ : List Entry}
    (hid : (K.functions id).isSome = true) (h : Flow K k is (.callee id :: σ)) :
    Flow K k (.withLabel .push id :: is) σ
  | peek {k : Nat} {slot : Int} {is : List Item} {σ : List Entry} (hs : K.Fits k slot)
    (h : Flow K k is (.value :: σ)) : Flow K k (.withSlot .peek slot :: is) σ
  | poke {k : Nat} {slot : Int} {is : List Item} {σ : List Entry} (hs : K.Fits k slot)
    (h : Flow K k is σ) : Flow K k (.withSlot .poke slot :: is) (.value :: σ)
  | alloc {k : Nat} {is : List Item} (hentry : ¬K.isEntry) (hk : k < 0x8000000000000000)
    (h : Flow K k is []) : Flow K 0 (.withSlot .alloc k :: is) []
  | call {k n : Nat} {id : FunctionId} {hasResult : Bool} {is : List Item} {σ : List Entry}
    (hid : K.functions id = some (n, hasResult)) (h : Flow K k is (Routine.after hasResult σ))
    (hzero : hasResult = false → K.isEntry ∨ ∃ rest, is = .withWord .push 0 :: rest) :
    Flow K k (.withWord .call (Word.ofNat n) :: is)
      (List.replicate n .value ++ .callee id :: σ)
  | ret {k : Nat} {is : List Item} (hret : K.hasResult = false ∨ K.lenient) :
    Flow K k (.plain .ret :: is) []
  | retValue {k : Nat} {is : List Item} (hret : K.hasResult = true) :
    Flow K k (.plain .retValue :: is) [.value]
  | exit {k : Nat} {is : List Item} {σ : List Entry} (hentry : K.isEntry) :
    Flow K k (.plain .exit :: is) σ
  | jump {k : Nat} {l : LabelId} {is : List Item} (hl : K.live k l) :
    Flow K k (.withLabel .jump l :: is) []
  | jumpZero {k : Nat} {l : LabelId} {is : List Item} (hl : K.live k l) (h : Flow K k is []) :
    Flow K k (.withLabel .jumpZero l :: is) [.value]
  | text {k : Nat} {op : Op} {f : Word → String} {is : List Item} {σ : List Entry}
    (hf : op.text? = some f) (h : Flow K k is σ) : Flow K k (.plain op :: is) (.value :: σ)
  | outString {k : Nat} {is : List Item} {σ : List Entry} (h : Flow K k is σ) :
    Flow K k (.plain .outString :: is) (.value :: σ)
  | read {k : Nat} {type : ValueType} {is : List Item} {σ : List Entry}
    (h : Flow K k is (.value :: σ)) : Flow K k (.plain (Op.reading type) :: is) σ
  | random {k : Nat} {is : List Item} {σ : List Entry} (h : Flow K k is (.value :: σ)) :
    Flow K k (.plain .random :: is) (.value :: σ)

namespace Flow

variable {K : Routine} {k : Nat} {is : List Item} {σ : List Entry}

theorem narrowing {target source : ValueType} (h : Flow K k is (.value :: σ)) :
    Flow K k (Item.narrowing target source ++ is) (.value :: σ) := by
  rw [Item.narrowing]
  split
  · exact .unary rfl h
  · exact h

theorem widening {isFloat : Bool} {op : Op} {t : ValueType} (h : Flow K k is (.value :: σ)) :
    Flow K k (Item.widening isFloat op t ++ is) (.value :: σ) := by
  rw [Item.widening]
  split
  · exact .unary rfl h
  · exact h

theorem counting {f : Word → Word → Word} {trailing : Bool} (hf : step.binary? = some f)
    (hs : K.Fits k slot) (h : Flow K k is (.value :: σ)) :
    Flow K k (Item.counting step trailing slot ++ is) σ := by
  cases trailing with
  | true => exact .peek hs (.dup (.push (.binary hf (.poke hs h))))
  | false => exact .peek hs (.push (.binary hf (.dup (.poke hs h))))

end Flow

/-! ## Expressions -/

/-- The names and types of the expression are right, and it accesses no elements. -/
structure Expr.Tame (c : Context) (V : Binding → Prop) (e : Expr Mark) : Prop where
  bound : e.Bound V c.notes
  typed : e.Typed c.tree c.notes
  elementless : e.All fun _ shape => shape.accessesElement = false

theorem Expr.Tame.child {shape : Shape (Expr Mark)} (h : Expr.Tame c V (.node m shape))
    (he : e ∈ shape.children) : Expr.Tame c V e :=
  ⟨h.bound.child e he, h.typed.child e he, h.elementless.child e he⟩

/-- The routine is that of a function in which the variables of `V` may be used. -/
structure Routine.Serves (K : Routine) (c : Context) (V : Binding → Prop) (k : Nat) : Prop where
  slots : ∀ b info slot, V b → c.tree.varInfo? c.notes b = some info → info.length = none →
    info.slot = some slot → K.Fits k slot
  functions : ∀ id f, c.tree.functions[id]? = some f →
    K.functions id = some (f.params.length, decide (f.returnType ≠ .void))
  hasResult : K.hasResult = decide (c.returnType ≠ .void)

/-- The operation of a binary operator replaces two words by one. -/
theorem Op.kind_of_ofBinary? {l r : ValueType} {o : Op} (h : Op.ofBinary? kind l r = some o) :
    (∃ f, o.binary? = some f) ∨ ∃ f, o.division? = some f := by
  rw [Op.ofBinary?] at h
  split at h
  · unfold Op.ofFloatOperator? at h
    split at h <;> cases h <;> exact .inl ⟨_, rfl⟩
  · unfold Op.ofOperator? at h
    split at h <;> cases h <;> first | exact .inl ⟨_, rfl⟩ | exact .inr ⟨_, rfl⟩

theorem Op.binary?_of_ofCounting? (h : Op.ofCounting? kind = some step) :
    ∃ f, step.binary? = some f := by
  unfold Op.ofCounting? at h
  split at h <;> cases h <;> exact ⟨_, rfl⟩

section

variable {K : Routine} {k : Nat} {c : Context} {V : Binding → Prop} {P : StringPool}
  {e : Option (Expr Mark)} {rest is : List Item} {es : List (Expr Mark)}

theorem Routine.Serves.fits (hK : K.Serves c V k) {kind : NameKind} {info : VarInfo}
    (hb : Binding.Fits V kind (c.notes.expr m.id).binding)
    (hv : c.notes.variableAt c.tree m = some info) (hl : info.length = none)
    (hs : info.slot = some slot) : K.Fits k slot := by
  obtain ⟨b, hb, -, hV⟩ := hb
  rw [Notes.variableAt, hb] at hv
  exact hK.slots b info slot hV hv hl hs

mutual

/-- The code of an expression leaves one word. -/
theorem Expr.Code.flow {e : Expr Mark} {is : List Item} (hK : K.Serves c V k) :
    e.Code c P is → e.Tame c V → ∀ {rest : List Item} {σ : List Entry},
      Flow K k rest (.value :: σ) → Flow K k (is ++ rest) σ
  | .literal _, _, _, _, h => .push h
  | .grouping he, ht, _, _, h => he.flow hK (ht.child (by simp)) h
  | .binary _ _ ho left right, ht, rest, σ, h => by
    simp only [List.append_assoc]
    refine left.flow hK (ht.child (by simp)) (.widening ?_)
    refine right.flow hK (ht.child (by simp)) (.widening ?_)
    rcases Op.kind_of_ofBinary? ho with ⟨f, hf⟩ | ⟨f, hf⟩
    · exact .binary hf h
    · exact .division hf h
  | .plus _ he, ht, _, _, h => he.flow hK (ht.child (by simp)) h
  | .minus _ _ he, ht, rest, σ, h => by
    simp only [List.append_assoc]
    refine .push (he.flow hK (ht.child (by simp)) ?_)
    split
    · exact .binary rfl h
    · exact .binary rfl h
  | .not _ he, ht, _, _, h => by
    rw [List.append_assoc]
    exact he.flow hK (ht.child (by simp)) (.unary rfl h)
  | .count hop hv hs, ht, _, _, h => by
    have hname := ht.child (List.mem_singleton_self _)
    obtain ⟨_, -, info, hv', hl, -⟩ := hname.typed.root
    cases hv.symm.trans hv'
    obtain ⟨f, hf⟩ := Op.binary?_of_ofCounting? hop
    exact .counting hf (hK.fits (hname.bound.root _ rfl) hv hl hs) h
  | .name hv hs, ht, _, _, h => by
    obtain ⟨_, -, info, hv', hl, -⟩ := ht.typed.root
    cases hv.symm.trans hv'
    exact .peek (hK.fits (ht.bound.root _ rfl) hv hl hs) h
  | .assign hv hs _ value, ht, _, _, h => by
    obtain ⟨_, -, info, hv', hl, -, -⟩ := ht.typed.root
    cases hv.symm.trans hv'
    simp only [List.append_assoc]
    refine value.flow hK (ht.child (by simp)) (.narrowing (.dup (.poke ?_ h)))
    exact hK.fits (ht.bound.root _ rfl) hv hl hs
  | .assignElement _ _ _ _ _, ht, _, _, _ => by cases ht.elementless.root
  | .call hb hf hargs, ht, rest, σ, h => by
    have hfun := hK.functions _ _ hf
    simp only [List.append_assoc]
    refine .callee (by rw [hfun]; rfl) (hargs.flow hK (fun a ha => ht.child ha) ?_)
    rw [hargs.length_eq]
    refine .call hfun ?_ ?_
    · split
      · rename_i hvoid
        simpa [Routine.after, hvoid] using Flow.push h
      · rename_i hvoid
        simpa [Routine.after, hvoid] using h
    · intro hvoid
      rw [if_pos (by simpa using hvoid)]
      exact .inr ⟨rest, rfl⟩
  | .element _ _ _, ht, _, _, _ => by cases ht.elementless.root
  | .random he, ht, _, _, h => by
    rw [List.append_assoc]
    exact he.flow hK (ht.child (by simp)) (.random h)

/-- The code of arguments leaves one word each. -/
theorem Expr.ArgsCode.flow {es : List (Expr Mark)} {ps : List Param} {is : List Item}
    (hK : K.Serves c V k) : Expr.ArgsCode c P es ps is → (∀ e ∈ es, e.Tame c V) →
      ∀ {rest : List Item} {σ : List Entry},
        Flow K k rest (List.replicate ps.length .value ++ σ) → Flow K k (is ++ rest) σ
  | .nil, _, _, _, h => h
  | .cons _ he hes, ht, rest, σ, h => by
    simp only [List.append_assoc]
    refine he.flow hK (ht _ (by simp)) (.narrowing ?_)
    refine hes.flow hK (fun a ha => ht a (by simp [ha])) ?_
    rw [List.length_cons, List.replicate_succ', List.append_assoc] at h
    exact h

end

/-! ## Parts of statements -/

theorem Expr.OptionalCode.flow {use : List Item} (hK : K.Serves c V k)
    (h : Expr.OptionalCode c P use e is)
    (huse : Flow K k rest [] → Flow K k (use ++ rest) [.value]) (ht : ∀ a ∈ e, a.Tame c V)
    (hrest : Flow K k rest []) : Flow K k (is ++ rest) [] := by
  cases h with
  | none => exact hrest
  | some he =>
    rw [List.append_assoc]
    exact he.flow hK (ht _ rfl) (huse hrest)

theorem Expr.ElementsCode.flow {type : ValueType} (hK : K.Serves c V k)
    (h : Expr.ElementsCode c P type slot es is) (ht : ∀ a ∈ es, a.Tame c V)
    (hs : ∀ i : Nat, i < es.length → K.Fits k (slot + i)) (hrest : Flow K k rest []) :
    Flow K k (is ++ rest) [] := by
  induction h with
  | nil => exact hrest
  | cons _ he _ ih =>
    simp only [List.append_assoc]
    refine he.flow hK (ht _ (by simp)) (.narrowing (.poke ?_ (ih ?_ ?_)))
    · simpa using hs 0 (by simp)
    · exact fun a ha => ht a (by simp [ha])
    · intro i hi
      have := hs (i + 1) (by simpa using hi)
      rwa [Int.natCast_add, Int.add_comm (i : Int), ← Int.add_assoc] at this

theorem Op.printing?_kind {T : ValueType} {op : Op} (h : Op.printing? T = some op) :
    op = .outString ∨ ∃ f, op.text? = some f := by
  cases T <;> cases h <;> first | exact .inl rfl | exact .inr ⟨_, rfl⟩

theorem Expr.OutputsCode.flow (hK : K.Serves c V k) (h : Expr.OutputsCode c P es is)
    (ht : ∀ a ∈ es, a.Tame c V) (hrest : Flow K k rest []) : Flow K k (is ++ rest) [] := by
  induction h with
  | nil => exact hrest
  | cons _ hop he _ ih =>
    have hnext := ih fun a ha => ht a (by simp [ha])
    simp only [List.append_assoc]
    refine he.flow hK (ht _ (by simp)) ?_
    rcases Op.printing?_kind hop with rfl | ⟨f, hf⟩
    · exact .outString hnext
    · exact .text hf hnext

end

/-! ## Statements -/

/-- The routine with other labels that may be jumped to. -/
def Routine.withLive (K : Routine) (live : Nat → LabelId → Prop) : Routine :=
  { K with live := live }

theorem Routine.Serves.withLive {K : Routine} {k : Nat} (h : K.Serves c V k)
    (live : Nat → LabelId → Prop) : (K.withLive live).Serves c V k :=
  ⟨h.slots, h.functions, h.hasResult⟩

/-- Code that flows, with nothing on the stack, if it is reached. -/
def Routine.flowing (K : Routine) (k : Nat) : Continuation Bool where
  Holds live reached is := reached = true → Flow (K.withLive fun j l => j = k ∧ live true l) k is []
  Le reached reached' := reached' = true → reached = true
  refl _ h := h
  trans h h' hE := h (h' hE)
  mono h hle hE := h (hle hE)
  place h hD := .place (h hD)
  jump hl hle hE := .jump ⟨rfl, hle hE ▸ hl⟩

namespace Routine.flowing

variable {K : Routine} {k : Nat} {J : Jumps Bool} {r r' : Bool} {is : List Item}

/-- Code without labels that are jumped to. -/
theorem of_flow (h : ∀ live rest, Flow (K.withLive live) k rest [] →
    Flow (K.withLive live) k (is ++ rest) []) : (K.flowing k).Passes J true true is :=
  .of_holds fun _ rest _ hrest _ => h _ rest (hrest rfl)

/-- Code that is left before its end. -/
theorem of_left (h : ∀ live rest, Flow (K.withLive live) k (is ++ rest) []) :
    (K.flowing k).Passes J true r is :=
  .of_holds fun _ rest _ _ _ => h _ rest

/-- A test that may jump to the label. -/
theorem of_test {l : LabelId} (hl : J true l) (h : ∀ live rest, live k l →
    Flow (K.withLive live) k rest [] → Flow (K.withLive live) k (is ++ rest) []) :
    (K.flowing k).Passes J true true is :=
  .of_holds fun _ rest hJ hrest _ => h _ rest ⟨rfl, hJ _ _ hl⟩ (hrest rfl)

/-- Code that may not be reached. -/
theorem behind (h : (K.flowing k).Passes J true r' is) (r : Bool) :
    (K.flowing k).Passes J (!r) (!r && r') is := by
  cases r with
  | false => exact h
  | true => exact .of_holds fun _ _ _ _ hreached => Bool.noConfusion hreached

end Routine.flowing

/-- The names of the statement are bound, its declarations have places that fit, and it accesses no
elements. -/
structure Stmt.Tame (K : Routine) (k : Nat) (c : Context) (V : Binding → Prop) (s : Stmt Mark) :
    Prop where
  bound : s.Bound V c.notes
  elementless : s.All fun _ shape =>
    ∀ e ∈ shape.exprs, e.All fun _ shape => shape.accessesElement = false
  slots : s.All fun m shape => ∀ cells slot, shape.cells? = some cells →
    (c.notes.stmt m.id).slot = some slot → ∀ i < cells, K.Fits k (slot + (i : Nat))

section

variable {K : Routine} {k : Nat} {c : Context} {V : Binding → Prop} {P : StringPool}
  {shape : Stmt.Shape (Stmt Mark) (Expr Mark)}

theorem Stmt.Tame.child {s : Stmt Mark} (h : Stmt.Tame K k c V (.node m shape))
    (hs : s ∈ shape.children) : Stmt.Tame K k c V s :=
  ⟨h.bound.child s hs, h.elementless.child s hs, h.slots.child s hs⟩

theorem Stmt.Tame.expr (h : Stmt.Tame K k c V (.node m shape)) (he : e ∈ shape.exprs)
    (ht : e.Typed c.tree c.notes) : e.Tame c V :=
  ⟨h.bound.root.1 e he, ht, h.elementless.root e he⟩

open Routine.flowing

mutual

/-- The code of a statement leaves no words. -/
theorem Stmt.Code.through {loop : Option LoopLabels} {s : Stmt Mark} {is : List Item}
    {J : Jumps Bool} (hK : K.Serves c V k) : s.Code c P loop is → s.Tame K k c V →
      ∀ {target : Option StmtId}, s.Typed c.tree c.notes c.returnType target →
        (K.flowing k).Around J true loop → (K.flowing k).Passes J true (!s.returns) is
  | .block hbody, hs, _, ht, hJ => by
    rw [Stmt.returns]
    exact hbody.through hK (fun a ha => hs.child ha) ht.child hJ
  | .ret _ he, hs, _, ht, _ => by
    obtain ⟨hvoid, htyped, -⟩ := ht.root
    refine of_left fun live rest => ?_
    simp only [List.append_assoc]
    refine he.flow (hK.withLive live) (hs.expr (List.mem_singleton_self _) htyped)
      (.narrowing (.retValue ?_))
    rw [Routine.withLive, hK.hasResult]
    simpa using hvoid
  | .retVoid, _, _, ht, _ => by
    refine of_left fun live rest => .ret (.inl ?_)
    rw [Routine.withLive, hK.hasResult]
    have hvoid : c.returnType = .void := ht.root
    simp [hvoid]
  | .expression he, hs, _, ht, _ => by
    refine of_flow fun live rest hrest => he.flow (hK.withLive live) .pop ?_ hrest
    rintro _ ⟨⟩
    exact hs.expr (List.mem_singleton_self _) ht.root
  | @Stmt.Code.choice _ _ _ _ branches otherwise stop _ _ hbranches hotherwise, hs, _, ht, hJ => by
    -- the end is only reached if one of the blocks comes to its end
    let reached := !(Stmt.armsReturn branches && otherwise.elim false Stmt.returns)
    have harms := hbranches.through (J := J.insert reached stop) hK
      (fun b hb => hs.expr (List.mem_map_of_mem hb) (ht.root b hb).typed)
      (fun b hb => hs.child (List.mem_append_left _ (List.mem_map_of_mem hb)))
      (fun b hb => ht.child _ (List.mem_append_left _ (List.mem_map_of_mem hb)))
      (.inr ⟨rfl, rfl⟩) (fun hr => by simp [reached, hr]) hJ.insert
    have hlast := hotherwise.through (J := J.insert reached stop) hK
      (fun a ha => hs.child (List.mem_append_right _ (Option.mem_toList.mpr ha)))
      (fun a ha => ht.child _ (List.mem_append_right _ (Option.mem_toList.mpr ha))) hJ.insert
    rw [Stmt.returns_choice]
    refine .placeEnd (harms.append (hlast.weaken fun hr => ?_))
    simp_all [reached]
  | .whileLoop hguard hbody, hs, _, ht, _ => by
    refine .whileLoop (of_test (.inl (.inr ⟨rfl, rfl⟩)) fun live rest hl hrest =>
      hguard.flow (hK.withLive live) (.jumpZero hl) ?_ hrest) fun hJ =>
        (hbody.through hK (hs.child (by simp)) (ht.child _ (by simp)) hJ).weaken fun _ => rfl
    rintro _ ⟨⟩
    exact hs.expr (List.mem_singleton_self _) ht.root.typed
  | .forLoop hinit hguard hbody hupdate, hs, _, ht, _ => by
    have hfirst := hinit.through (J := J) hK
      (fun a ha => hs.child (List.mem_append_left _ (Option.mem_toList.mpr ha)))
      (fun a ha => ht.child _ (List.mem_append_left _ (Option.mem_toList.mpr ha))) .none
    simp only [List.append_assoc]
    refine (hfirst.weaken fun _ => rfl).append (.forLoop (of_test (.inl (.inr ⟨rfl, rfl⟩))
      fun live rest hl hrest => ?_) (fun hJ => (hbody.through hK
        (hs.child (List.mem_append_right _ (List.mem_singleton_self _)))
        (ht.child _ (List.mem_append_right _ (List.mem_singleton_self _))) hJ).weaken fun _ => rfl)
      (of_flow fun live rest hrest => ?_))
    · exact hguard.flow (hK.withLive live) (.jumpZero hl) (fun a ha => hs.expr
        (List.mem_append_left _ (Option.mem_toList.mpr ha)) (ht.root.1 a ha).typed) hrest
    · exact hupdate.flow (hK.withLive live) .pop (fun a ha => hs.expr
        (List.mem_append_right _ (Option.mem_toList.mpr ha)) (ht.root.2 a ha)) hrest
  | .output hvalues, hs, _, ht, _ => by
    refine of_flow fun live rest hrest => hvalues.flow (hK.withLive live) (fun a ha => ?_) hrest
    obtain ⟨T, -, hT⟩ := ht.root a ha
    exact hs.expr ha hT.typed
  | .input hv hslot, hs, _, ht, _ => by
    obtain ⟨info, hv', hl⟩ := ht.root
    cases hv.symm.trans hv'
    obtain ⟨b, hb, -, hVb⟩ := hs.bound.root.2 _ rfl
    rw [hb] at hv
    exact of_flow fun live rest hrest =>
      .read (.poke ((hK.withLive live).slots b _ _ hVb hv hl hslot) hrest)
  | .var hslot _ he, hs, _, ht, _ => by
    refine of_flow fun live rest hrest => ?_
    simp only [List.append_assoc]
    refine he.flow (hK.withLive live) (hs.expr (List.mem_singleton_self _) (ht.root _ rfl).1)
      (.narrowing (.poke ?_ hrest))
    have hfits := hs.slots.root 1 _ rfl hslot 0 (by omega)
    rwa [Int.natCast_zero, Int.add_zero] at hfits
  | .varBlank, _, _, _, _ => of_flow fun _ _ hrest => hrest
  | .array hslot hes, hs, _, ht, _ => by
    obtain ⟨_, _, ⟨⟩, -, hlen, hfits⟩ := ht.root _ rfl
    refine of_flow fun live rest hrest =>
      hes.flow (hK.withLive live) (fun a ha => ⟨?_, (hfits a ha).1, ?_⟩) (fun i hi => ?_) hrest
    · exact (hs.bound.root.1 _ (List.mem_singleton_self _)).child a ha
    · exact (hs.elementless.root _ (List.mem_singleton_self _)).child a ha
    · exact hs.slots.root _ _ rfl hslot i (Nat.lt_of_lt_of_le hi hlen)
  | .arrayBlank, _, _, _, _ => of_flow fun _ _ hrest => hrest
  | .stop, _, _, _, hJ => .stop hJ
  | .skip, _, _, _, hJ => .skip hJ

theorem Stmt.ListCode.through {loop : Option LoopLabels} {ss : List (Stmt Mark)} {is : List Item}
    {J : Jumps Bool} (hK : K.Serves c V k) : Stmt.ListCode c P loop ss is →
      (∀ s ∈ ss, s.Tame K k c V) → ∀ {target : Option StmtId},
      (∀ s ∈ ss, s.Typed c.tree c.notes c.returnType target) → (K.flowing k).Around J true loop →
        (K.flowing k).Passes J true (!Stmt.anyReturns ss) is
  | .nil, _, _, _, _ => of_flow fun _ _ hrest => hrest
  | .cons hs hss, htame, _, ht, hJ => by
    rw [Stmt.anyReturns, Bool.not_or]
    exact (hs.through hK (htame _ (by simp)) (ht _ (by simp)) hJ).append (behind (hss.through hK
      (fun a ha => htame a (by simp [ha])) (fun a ha => ht a (by simp [ha])) hJ) _)

/-- The end of the choice is reached from a branch that does not return. -/
theorem Stmt.ArmsCode.through {loop : Option LoopLabels} {stop : LabelId}
    {bs : List (Expr Mark × Stmt Mark)} {is : List Item} {J : Jumps Bool} {reached : Bool}
    (hK : K.Serves c V k) : Stmt.ArmsCode c P loop stop bs is → (∀ b ∈ bs, b.1.Tame c V) →
      (∀ b ∈ bs, b.2.Tame K k c V) → ∀ {target : Option StmtId},
      (∀ b ∈ bs, b.2.Typed c.tree c.notes c.returnType target) → J reached stop →
      (Stmt.armsReturn bs = false → reached = true) → (K.flowing k).Around J true loop →
        (K.flowing k).Passes J true true is
  | .nil, _, _, _, _, _, _, _ => of_flow fun _ _ hrest => hrest
  | .cons hguard hbody hrest, he, hs, _, ht, hstop, hr, hJ => by
    rw [Stmt.armsReturn] at hr
    refine .arm (of_test (.inr ⟨rfl, rfl⟩) fun live rest hl h =>
        hguard.flow (hK.withLive live) (.jumpZero hl) ?_ h)
      (hbody.through hK (hs _ List.mem_cons_self) (ht _ List.mem_cons_self) hJ.insert) hstop
      (fun h => hr (by simp_all)) (hrest.through hK (fun b hb => he b (by simp [hb]))
        (fun b hb => hs b (by simp [hb])) (fun b hb => ht b (by simp [hb])) hstop
        (fun h => hr (by simp [h])) hJ)
    rintro _ ⟨⟩
    exact he _ List.mem_cons_self

theorem Stmt.OptionCode.through {loop : Option LoopLabels} {s : Option (Stmt Mark)}
    {is : List Item} {J : Jumps Bool} (hK : K.Serves c V k) : Stmt.OptionCode c P loop s is →
      (∀ a ∈ s, a.Tame K k c V) → ∀ {target : Option StmtId},
      (∀ a ∈ s, a.Typed c.tree c.notes c.returnType target) → (K.flowing k).Around J true loop →
        (K.flowing k).Passes J true (!s.elim false Stmt.returns) is
  | .none, _, _, _, _ => of_flow fun _ _ hrest => hrest
  | .some hs, htame, _, ht, hJ => hs.through hK (htame _ rfl) (ht _ rfl) hJ

end

end

end StackLang
