import Mathlib.Algebra.Order.BigOperators.Group.List
import Mathlib.Algebra.Order.Group.Nat
import StackLang.Proofs.Analysis.Checked
import StackLang.Proofs.Code.Assembled
import StackLang.Proofs.Machine.Trace
import StackLang.Proofs.Semantics.Evaluation

/-!
# Runs that follow an evaluation

A run of the machine follows an evaluation if it comes to a state that fits whenever the evaluation
has a value, and ends in the right fault whenever the evaluation fails.  What fits is said by
assertions on the situation of the evaluation and the view that the machine shows.

* `Execution.Follows` — the run follows an evaluation, from one assertion to another.
* `Activation.At` — the machine executes the code of an activation, and the cells of its frame hold
  what the evaluation says.
-/

namespace StackLang

/-! ## Runs and evaluations -/

/-- The number of cells that the declarations of all functions take. -/
def Program.cells (p : Program) : Nat :=
  (p.tree.views.map fun v => p.tree.cells v.2.body.tags).sum

/-- What the cells of each activation hold when it begins is what the run from `m` has left in
them. -/
def Program.Inherits (p : Program) (fresh : Nat → Store) (m : Machine) : Prop :=
  ∀ n m', m.Entered n m' → ∀ b info slot, p.tree.varInfo? p.notes b = some info →
    info.slot = some slot → ∀ i, fresh n b i = m'.cell ((m'.bp : Int) + slot + i).toNat

/-- A run of generated code, and what the cells of its activations hold when they begin. -/
structure Execution where
  program : Program
  generated : Generated
  env : Addresses
  memory : Nat
  start : Machine
  fresh : Nat → Store

/-- What a situation of the evaluation has to do with a view of the machine. -/
abbrev Assertion := Situation → View → Prop

namespace Execution

variable {α β : Type} (X : Execution)

abbrev code : Array Word :=
  X.generated.code

/-- The evaluation of the program. -/
def reference : Reference :=
  ⟨X.program, X.generated.strings, X.fresh⟩

/-- The number of cells that one activation needs at most. -/
def frame : Nat :=
  X.code.size + X.program.cells + 3

/-- After some steps, the run has made the given number of calls and shows the view. -/
def Reaches (V : View) (calls : Nat) : Prop :=
  ∃ t m, X.start.after t = some m ∧ X.start.callCount t = calls ∧ m.Shows X.code X.memory V

/-- The run ends in a fault that reports the failure. -/
def Breaks (f : RunFailure) (output : String) : Prop :=
  ∃ t m e m', X.start.after t = some m ∧ Machine.step m = .error e m' ∧ e.failure? = some f ∧
    m'.output = output

/-- The run does what the result of an evaluation says. -/
def Meets (Q : α → Assertion) : EStateM.Result Halt Situation α → Prop
  | .ok a s => ∃ V, X.Reaches V s.calls ∧ Q a s V
  | .error (.failure f) s => X.Breaks f s.world.output
  | .error _ _ => True

/-- From wherever `P` holds, the run follows the evaluation to where `Q` holds. -/
def Follows (P : Assertion) (x : Eval α) (Q : α → Assertion) : Prop :=
  ∀ s V, X.Reaches V s.calls → P s V → X.Meets Q (x s)

/-- From wherever `P` holds, the run comes to where `P'` holds, in the same situation. -/
def Steps (P P' : Assertion) : Prop :=
  ∀ s V, X.Reaches V s.calls → P s V → ∃ V', X.Reaches V' s.calls ∧ P' s V'

variable {X} {P P' P'' : Assertion} {x : Eval α} {f : α → Eval β} {Q Q' : α → Assertion}

theorem Steps.refl (P : Assertion) : X.Steps P P :=
  fun _ V hV hP => ⟨V, hV, hP⟩

theorem Steps.trans (h : X.Steps P P') (h' : X.Steps P' P'') : X.Steps P P'' := by
  intro s V hV hP
  obtain ⟨V', hV', hP'⟩ := h s V hV hP
  exact h' s V' hV' hP'

theorem Follows.pure {a : α} : X.Follows (Q a) (pure a) Q :=
  fun _ V hV hQ => ⟨V, hV, hQ⟩

theorem Follows.halt {h : Halt} (hh : ∀ f, h ≠ .failure f) : X.Follows P (throw h) Q := by
  intro s V _ _
  show X.Meets Q (.error h s)
  cases h with
  | failure f => exact absurd rfl (hh f)
  | undefined => trivial
  | unfinished => trivial

theorem Follows.bind {R : α → Assertion} {Q : β → Assertion} (hx : X.Follows P x R)
    (hf : ∀ a, X.Follows (R a) (f a) Q) : X.Follows P (x >>= f) Q := by
  intro s V hV hP
  have h := hx s V hV hP
  show X.Meets Q (EStateM.bind x f s)
  rw [EStateM.bind]
  cases hr : x s with
  | ok a s' =>
    rw [hr] at h
    obtain ⟨V', hV', hR⟩ := h
    exact hf a s' V' hV' hR
  | error e s' =>
    rw [hr] at h
    cases e <;> exact h

/-- What does not depend on the situation may be assumed. -/
theorem Follows.given {φ : Prop} (h : φ → X.Follows P x Q) :
    X.Follows (fun s V => φ ∧ P s V) x Q :=
  fun s V hV hP => h hP.1 s V hV hP.2

/-- Steps before an evaluation. -/
theorem Steps.follows (h : X.Steps P P') (hx : X.Follows P' x Q) : X.Follows P x Q := by
  intro s V hV hP
  obtain ⟨V', hV', hP'⟩ := h s V hV hP
  exact hx s V' hV' hP'

/-- Steps behind an evaluation. -/
theorem Follows.steps (hx : X.Follows P x Q') (h : ∀ a, X.Steps (Q' a) (Q a)) :
    X.Follows P x Q := by
  intro s V hV hP
  have hm := hx s V hV hP
  cases hr : x s with
  | ok a s' =>
    rw [hr] at hm
    obtain ⟨V', hV', hQ⟩ := hm
    exact h a s' V' hV' hQ
  | error e s' =>
    rw [hr] at hm
    cases e <;> exact hm

theorem Follows.weaken (hx : X.Follows P x Q') (h : ∀ a s V, Q' a s V → Q a s V) :
    X.Follows P x Q :=
  hx.steps fun a s V hV hQ => ⟨V, hV, h a s V hQ⟩

/-- A step that is not a call, behind the state that the run has come to. -/
theorem Reaches.of_step {V V' : View} {t n : Nat} {m m' : Machine} {op : Op}
    (hafter : X.start.after t = some m) (hcount : X.start.callCount t = n)
    (hm : m.Shows X.code X.memory V) (hop : X.code[V.ip]? = some op.word) (hne : op ≠ .call)
    (hstep : Machine.step m = .ok none m') (hm' : m'.Shows X.code X.memory V') :
    X.Reaches V' n := by
  refine ⟨t + 1, m', Machine.after_succ hafter hstep, ?_, hm'⟩
  have hnext : X.start.opAt t = some op := by
    rw [Machine.opAt, hafter, Option.bind_some]
    exact hm.nextOp? (by rwa [hm.ip])
  rw [Machine.callCount, hcount, hnext, if_neg (by simpa using hne), Nat.add_zero]

theorem Reaches.step {V V' : View} {n : Nat} (h : X.Reaches V n) {op : Op}
    (hop : X.code[V.ip]? = some op.word) (hne : op ≠ .call)
    (hstep : Machine.Yields X.code X.memory Machine.step V none V') : X.Reaches V' n := by
  obtain ⟨t, m, hafter, hcount, hm⟩ := h
  obtain ⟨m', hrun, hm'⟩ := hstep m hm
  exact .of_step hafter hcount hm hop hne hrun hm'

theorem Reaches.breaks {V : View} {n : Nat} (h : X.Reaches V n) {e : Fault} {f : RunFailure}
    (hstep : Machine.Fails X.code X.memory Machine.step V e) (he : e.failure? = some f) :
    X.Breaks f V.world.output := by
  obtain ⟨t, m, hafter, -, hm⟩ := h
  obtain ⟨m', hrun, hout⟩ := hstep m hm
  exact ⟨t, m, e, m', hafter, hrun, he, hout⟩

/-! ## Code in its place -/

/-- The items lie at the address, and there is code behind them. -/
def Located (X : Execution) (ip : Nat) (is : List Item) : Prop :=
  Item.Lies X.code X.env ip is ∧ ip + Item.size is < X.code.size

theorem located_append {ip : Nat} {is js : List Item} :
    X.Located ip (is ++ js) ↔ X.Located ip is ∧ X.Located (ip + Item.size is) js := by
  rw [Located, Located, Located, Item.lies_append, Item.size_append, ← Nat.add_assoc]
  refine ⟨fun ⟨⟨h, h'⟩, hlt⟩ => ⟨⟨h, by omega⟩, h', hlt⟩, fun ⟨⟨h, _⟩, h', hlt⟩ => ⟨⟨h, h'⟩, hlt⟩⟩

theorem located_cons {ip : Nat} {i j : Item} {is : List Item} :
    X.Located ip (i :: j :: is) ↔ X.Located ip [i] ∧ X.Located (ip + Item.size [i]) (j :: is) :=
  @located_append X ip [i] (j :: is)

theorem located_place {ip : Nat} {l : LabelId} :
    X.Located ip [.place l] ↔ X.env l = some ip ∧ ip < X.code.size := by
  simp [Located, Item.Lies]

/-- The words of an instruction. -/
theorem Located.words {ip : Nat} {op : Op} {operands : List Operand}
    (h : X.Located ip [.instr op operands]) : X.code[ip]? = some op.word ∧
      ∀ o, operands[0]? = some o → X.code[ip + 1]? = some (o.resolve X.env) :=
  ⟨h.1.1 0 _ rfl, fun o ho => h.1.1 1 o ho⟩

/-- What is known about a run. -/
structure Valid (X : Execution) : Prop where
  checked : X.program.Checked
  assembled : ∃ is, X.program.Assembled X.generated X.env is
  memory : X.memory ≤ 0x4000000000000000
  fresh : X.program.Inherits X.fresh X.start

end Execution

/-! ## Activations -/

/-- An activation of a function in a run. -/
structure Activation (X : Execution) where
  id : FunctionId
  f : Function (Stmt Mark)
  bp : Nat
  /-- The memory when the activation began. -/
  base : Nat → Word

namespace Activation

variable {X : Execution} (A : Activation X)

/-- The number of cells that the activation reserves. -/
def cells : Nat :=
  X.program.tree.cells A.f.body.tags

/-- What the code of the activation depends on. -/
def context : Generate.Context :=
  ⟨X.program.tree, X.program.notes, A.f.returnType⟩

/-- The expression can be one of the function. -/
abbrev Checks (e : Expr Mark) : Prop :=
  X.program.Checks A.id A.f e

/-- The statement can be one of the function. -/
abbrev Allows (s : Stmt Mark) : Prop :=
  X.program.Allows A.id A.f s

/-- The view of a machine that executes the code of the activation. -/
def view (ip : Nat) (vs : List Word) (mem : Nat → Word) (world : World) : View :=
  ⟨ip, A.bp, A.bp + A.cells, vs, mem, world⟩

/-- The cell `i` of a declaration is at the address. -/
def Place (b : Binding) (i : Nat) (a : Nat) : Prop :=
  ∃ x, X.program.tree.CellAt X.program.notes A.id A.f b i x ∧ (a : Int) = A.bp + x

/-- The address is one of the cells of the activation. -/
def Owns (a : Nat) : Prop :=
  A.bp ≤ a ∧ a < A.bp + A.cells ∨ A.bp ≤ a + (A.f.params.length + 3) ∧ a + 3 < A.bp

/-- The cells of the activation hold what the store says; the others have not changed. -/
structure Holds (mem : Nat → Word) (σ : Store) : Prop where
  own : ∀ b i a, A.Place b i a → mem a = σ b i
  other : ∀ a < A.bp + A.cells, ¬A.Owns a → mem a = A.base a

/-- The machine is at an address of the code of the activation, with the words on the stack. -/
def At (ip : Nat) (vs : List Word) : Assertion := fun s V =>
  vs.length ≤ ip ∧ ∃ mem, V = A.view ip vs mem s.world ∧ A.Holds mem s.store

/-- The machine is at a return, with the word that is returned, if there is one. -/
def Returning (value : Option Word) : Assertion := fun s V =>
  ∃ ip, X.code[ip]? = some (if value.isSome then Op.retValue else Op.ret).word ∧
    (value.isSome = true → A.f.returnType ≠ .void) ∧ A.At ip value.toList s V

/-- Where the machine is when a statement in a loop is left; the code of the statement ends at
`ip`. -/
def Lands (loop : Option LoopLabels) (ip : Nat) : Completion → Assertion
  | .next => A.At ip []
  | .stop => fun s V => ∃ labels t, loop = some labels ∧ X.env labels.stop = some t ∧ A.At t [] s V
  | .skip => fun s V => ∃ labels t, loop = some labels ∧ X.env labels.next = some t ∧ A.At t [] s V
  | .ret value => A.Returning value

/-- The activation belongs to a function, and there is room for `depth` others above it. -/
structure Valid (depth : Nat) : Prop where
  run : X.Valid
  home : (A.id, A.f) ∈ X.program.tree.views
  below : X.code.size + A.f.params.length + 4 ≤ A.bp
  room : A.bp + (depth + 1) * X.frame ≤ X.memory

variable {A} {depth : Nat}

/-- A statement that stands in no loop is left as one that stands in some loop may be. -/
theorem Lands.of_none {ip : Nat} {c : Completion} {s : Situation} {V : View}
    (h : A.Lands none ip c s V) (loop : Option LoopLabels) : A.Lands loop ip c s V := by
  cases c with
  | next => exact h
  | stop | skip =>
    obtain ⟨_, _, hnone, -⟩ := h
    cases hnone
  | ret value => exact h

/-- Steps behind a statement. -/
theorem Lands.steps {loop : Option LoopLabels} {ip ip' : Nat}
    (h : X.Steps (A.At ip []) (A.At ip' [])) (c : Completion) :
    X.Steps (A.Lands loop ip c) (A.Lands loop ip' c) := by
  cases c with
  | next => exact h
  | stop | skip | ret value => exact .refl _

theorem Valid.named (hA : A.Valid depth) : X.program.tree.Named X.program.notes A.id A.f :=
  hA.run.checked.named _ hA.home

theorem Valid.cells_le (hA : A.Valid depth) : A.cells ≤ X.program.cells :=
  List.single_le_sum (fun _ _ => Nat.zero_le _) _ (List.mem_map.mpr ⟨_, hA.home, rfl⟩)

/-- There is room for a word on the stack. -/
theorem Valid.fits (hA : A.Valid depth) {ip n : Nat} (hn : n ≤ ip) (hip : ip < X.code.size) :
    A.bp + A.cells + n + 3 < X.memory := by
  have hcells := hA.cells_le
  have hroom := hA.room
  rw [Execution.frame, Nat.succ_mul] at hroom
  have := Nat.zero_le (depth * (X.code.size + X.program.cells + 3))
  omega

end Activation

end StackLang
