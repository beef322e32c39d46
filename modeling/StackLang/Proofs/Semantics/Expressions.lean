import StackLang.Proofs.Semantics.Calls

/-!
# Expressions

The code of an expression leaves its value on the stack.  The evaluation is followed by induction on
its fuel, so everything that it is nested in may be assumed for less of it.

* `Execution.Simulates` — the run follows all evaluations with the given fuel.
* `Execution.Simulates.expr_succ` — and then it follows expressions with more of it.
-/

namespace StackLang

variable {info : VarInfo} {slot : Int}

namespace Execution

variable {X : Execution}

/-- The labels of the loop, if there is one, are in the code. -/
def LoopPlaced (X : Execution) (loop : Option LoopLabels) : Prop :=
  ∀ labels ∈ loop, (∃ t, X.env labels.next = some t ∧ t < X.code.size) ∧
    ∃ t, X.env labels.stop = some t ∧ t < X.code.size

theorem LoopPlaced.none : X.LoopPlaced none :=
  fun _ hnone => (Option.not_mem_none _ hnone).elim

/-! ## Evaluations that a run follows

Each is evaluated with the given fuel, wherever its code lies. -/

def FollowsExpr (X : Execution) (fuel : Nat) : Prop :=
  ∀ {depth ip : Nat} {A : Activation X} {e : Expr Mark} {is : List Item} {vs : List Word},
    A.Valid depth → A.Checks e → e.Code A.context X.generated.strings is → X.Located ip is →
      X.Follows (A.At ip vs) (X.reference.expr fuel depth e) fun w =>
        A.At (ip + Item.size is) (w :: vs)

def FollowsArgs (X : Execution) (fuel : Nat) : Prop :=
  ∀ {depth ip : Nat} {A : Activation X} {es : List (Expr Mark)} {ps : List Param} {is : List Item}
    {vs : List Word}, A.Valid depth → (∀ e ∈ es, A.Checks e) →
      Expr.ArgsCode A.context X.generated.strings es ps is → X.Located ip is →
      X.Follows (A.At ip vs) (X.reference.args fuel depth es ps) fun ws s V =>
        ws.length = ps.length ∧ A.At (ip + Item.size is) (ws.reverse ++ vs) s V

def FollowsActivation (X : Execution) (fuel : Nat) : Prop :=
  ∀ {depth ip t : Nat} {A : Activation X} {id : FunctionId} {f : Function (Stmt Mark)}
    {ws vs : List Word}, A.Valid depth → (id, f) ∈ X.program.tree.views → X.env id = some t →
      ws.length = f.params.length → X.Located ip [.withWord .call (Word.ofNat ws.length)] →
      X.Follows (A.At ip (ws.reverse ++ Word.ofNat t :: vs))
        (X.reference.activation fuel depth id f ws) fun value s V =>
          (value.isSome = true → f.returnType ≠ .void) ∧ A.At (ip + 2) (value.toList ++ vs) s V

def FollowsOutputs (X : Execution) (fuel : Nat) : Prop :=
  ∀ {depth ip : Nat} {A : Activation X} {es : List (Expr Mark)} {is : List Item},
    A.Valid depth → (∀ e ∈ es, A.Checks e) →
      Expr.OutputsCode A.context X.generated.strings es is → X.Located ip is →
      X.Follows (A.At ip []) (X.reference.outputs fuel depth es) fun _ =>
        A.At (ip + Item.size is) []

def FollowsElements (X : Execution) (fuel : Nat) : Prop :=
  ∀ {depth ip k : Nat} {A : Activation X} {type : ValueType} {β : Binding} {slot : Int}
    {es : List (Expr Mark)} {is : List Item}, A.Valid depth → (∀ e ∈ es, A.Checks e) →
      (∀ i < k + es.length, X.program.tree.CellAt X.program.notes A.id A.f β i (slot + i)) →
      Expr.ElementsCode A.context X.generated.strings type (slot + k) es is → X.Located ip is →
      X.Follows (A.At ip []) (X.reference.elements fuel depth type β k es) fun _ =>
        A.At (ip + Item.size is) []

def FollowsStmt (X : Execution) (fuel : Nat) : Prop :=
  ∀ {depth ip : Nat} {A : Activation X} {loop : Option LoopLabels} {s : Stmt Mark} {is : List Item},
    A.Valid depth → A.Allows s → X.LoopPlaced loop →
      s.Code A.context X.generated.strings loop is → X.Located ip is →
      X.Follows (A.At ip []) (X.reference.stmt fuel depth A.f.returnType s)
        (A.Lands loop (ip + Item.size is))

def FollowsList (X : Execution) (fuel : Nat) : Prop :=
  ∀ {depth ip : Nat} {A : Activation X} {loop : Option LoopLabels} {ss : List (Stmt Mark)}
    {is : List Item}, A.Valid depth → (∀ s ∈ ss, A.Allows s) → X.LoopPlaced loop →
      Stmt.ListCode A.context X.generated.strings loop ss is → X.Located ip is →
      X.Follows (A.At ip []) (X.reference.list fuel depth A.f.returnType ss)
        (A.Lands loop (ip + Item.size is))

def FollowsArms (X : Execution) (fuel : Nat) : Prop :=
  ∀ {depth ip : Nat} {A : Activation X} {loop : Option LoopLabels} {stop : LabelId}
    {branches : List (Expr Mark × Stmt Mark)} {otherwise : Option (Stmt Mark)} {is os : List Item},
    A.Valid depth → (∀ b ∈ branches, A.Checks b.1 ∧ A.Allows b.2) → (∀ s ∈ otherwise, A.Allows s) →
      X.LoopPlaced loop → Stmt.ArmsCode A.context X.generated.strings loop stop branches is →
      Stmt.OptionCode A.context X.generated.strings loop otherwise os → X.Located ip (is ++ os) →
      X.env stop = some (ip + Item.size (is ++ os)) →
      X.Follows (A.At ip []) (X.reference.arms fuel depth A.f.returnType branches otherwise)
        (A.Lands loop (ip + Item.size (is ++ os)))

def FollowsLoop (X : Execution) (fuel : Nat) : Prop :=
  ∀ {depth ip : Nat} {A : Activation X} {c u : Option (Expr Mark)} {body : Stmt Mark}
    {labels : LoopLabels} {top : LabelId} {ts bs us : List Item}, A.Valid depth →
      (∀ e ∈ c, A.Checks e) → (∀ e ∈ u, A.Checks e) → A.Allows body →
      Expr.GuardCode A.context X.generated.strings labels.stop c ts →
      body.Code A.context X.generated.strings (some labels) bs →
      Expr.EffectCode A.context X.generated.strings u us → X.Located ip ts →
      X.Located (ip + Item.size ts) bs → X.Located (ip + Item.size ts + Item.size bs) us →
      X.Located (ip + Item.size ts + Item.size bs + Item.size us) [.withLabel .jump top] →
      X.env top = some ip →
      (X.env labels.next = some (ip + Item.size ts + Item.size bs) ∨
        X.env labels.next = some ip ∧ u = none) →
      X.env labels.stop =
        some (ip + Item.size ts + Item.size bs + Item.size us + Item.size [.withLabel .jump top]) →
      X.Follows (A.At ip []) (X.reference.loop fuel depth A.f.returnType c u body) (A.Lands none
        (ip + Item.size ts + Item.size bs + Item.size us + Item.size [.withLabel .jump top]))

/-- The run follows all evaluations with the given fuel. -/
structure Simulates (X : Execution) (fuel : Nat) : Prop where
  expr : X.FollowsExpr fuel
  args : X.FollowsArgs fuel
  activation : X.FollowsActivation fuel
  outputs : X.FollowsOutputs fuel
  elements : X.FollowsElements fuel
  stmt : X.FollowsStmt fuel
  list : X.FollowsList fuel
  arms : X.FollowsArms fuel
  loop : X.FollowsLoop fuel

end Execution

namespace Activation

variable {X : Execution} {A : Activation X}

section

variable {b : Option Binding} (hb : Binding.Fits (X.program.tree.Usable A.id A.f) .variableName b)
  (hinfo : b.bind (X.program.tree.varInfo? X.program.notes) = some info)
  (hslot : info.slot = some slot)

include hb hinfo hslot

/-- The cells of the variable that a name stands for. -/
theorem exists_variable :
    ∃ β, X.reference.variableOf b = pure (β, info) ∧ ∀ i < info.length.getD 1,
      X.program.tree.CellAt X.program.notes A.id A.f β i (slot + i) := by
  obtain ⟨β, rfl, -, huse⟩ := hb
  rw [Option.bind_some] at hinfo
  refine ⟨β, ?_, fun i hi => ⟨huse, info, slot, hinfo, hslot, hi, rfl⟩⟩
  simp [Reference.variableOf, Execution.reference, Eval.require, hinfo]

/-- The cell of a variable that is not an array. -/
theorem exists_scalar (hlength : info.length = none) :
    ∃ β, X.reference.variableOf b = pure (β, info) ∧
      X.program.tree.CellAt X.program.notes A.id A.f β 0 slot := by
  obtain ⟨β, hβ, hcell⟩ := exists_variable hb hinfo hslot
  exact ⟨β, hβ, by simpa using hcell 0 (by simp [hlength])⟩

/-- The first cell of an array, and those of its elements. -/
theorem exists_array (hlength : info.length.isSome = true) :
    ∃ β, X.reference.variableOf b = pure (β, info) ∧ ∀ i < info.length.getD 0,
      X.program.tree.CellAt X.program.notes A.id A.f β 0 slot ∧
        X.program.tree.CellAt X.program.notes A.id A.f β i (slot + i) := by
  obtain ⟨β, hβ, hcell⟩ := exists_variable hb hinfo hslot
  obtain ⟨length, hlength⟩ := Option.isSome_iff_exists.mp hlength
  rw [hlength, Option.getD_some] at hcell ⊢
  exact ⟨β, hβ, fun i hi => ⟨by simpa using hcell 0 (by omega), hcell i hi⟩⟩

end

end Activation

namespace Execution

variable {X : Execution} {fuel depth ip : Nat} {A : Activation X} {vs : List Word}
  {id : FunctionId}

theorem variableAt_reference (m : Mark) :
    X.reference.variableAt m = X.reference.variableOf (X.program.notes.expr m.id).binding :=
  rfl

theorem typeOf_reference {e : Expr Mark} {T : ValueType} (h : X.program.notes.typeOf e = some T) :
    X.reference.typeOf e = pure T := by
  simp [Reference.typeOf, reference, h, Eval.require]

/-- The function that the name of a call stands for. -/
theorem Valid.functionAt (hX : X.Valid) {m : Mark} {f : Function StmtId}
    (hb : (X.program.notes.expr m.id).binding = some (.function id))
    (hf : X.program.tree.functions[id]? = some f) :
    ∃ v ∈ X.program.tree.views, v.1 = id ∧ f = v.2.ids ∧ X.reference.functionAt m = pure v := by
  obtain ⟨v, hv, rfl, rfl⟩ := hX.checked.orderly.mem_views_of_functions hf
  refine ⟨v, hv, rfl, rfl, ?_⟩
  simp [Reference.functionAt, reference, hb, Tree.function?_of_mem_views hv, Eval.require]

/-- Counting a variable up or down. -/
theorem count_follows (hA : A.Valid depth) {m : Mark} {n : Token}
    (he : A.Checks (.node m (.name n)))
    (hv : X.program.notes.variableAt X.program.tree m = some info) (hs : info.slot = some slot)
    {step : Op} {f : Word → Word → Word} (hf : step.binary? = some f) (trailing : Bool)
    (hl : X.Located ip (Item.counting step trailing slot)) :
    X.Follows (A.At ip vs) (X.reference.count trailing (f · 1) (.node m (.name n))) fun w =>
      A.At (ip + Item.size (Item.counting step trailing slot)) (w :: vs) := by
  obtain ⟨T, -, info', hv', hlength, -⟩ := he.typed.root
  cases hv'.symm.trans hv
  obtain ⟨β, hβ, hx⟩ := Activation.exists_scalar (he.bound.root _ rfl) hv hs hlength
  simp only [Reference.count, variableAt_reference, hβ, pure_bind]
  cases trailing with
  | true =>
    simp only [Item.counting, if_true, located_append, located_cons, Item.size_append,
      Item.size_cons, ← Nat.add_assoc] at hl ⊢
    obtain ⟨hl₁, hl₂, hl₃, hl₄, hl₅⟩ := hl
    refine (hA.load hx hl₁).bind fun old => ?_
    exact (((hA.dup hl₂).trans (hA.push hl₃)).trans (Activation.binary hf hl₄)).follows
      ((hA.save hx hl₅).bind fun _ => .pure)
  | false =>
    simp only [Item.counting, Bool.false_eq_true, if_false, located_append, located_cons,
      Item.size_append, Item.size_cons, ← Nat.add_assoc] at hl ⊢
    obtain ⟨hl₁, hl₂, hl₃, hl₄, hl₅⟩ := hl
    refine (hA.load hx hl₁).bind fun old => ?_
    exact (((hA.push hl₂).trans (Activation.binary hf hl₃)).trans (hA.dup hl₄)).follows
      ((hA.save hx hl₅).bind fun _ => .pure)

/-- Expressions with more fuel. -/
theorem Simulates.expr_succ (h : X.Simulates fuel) : X.FollowsExpr (fuel + 1) := by
  intro depth ip A e is vs hA he hc hl
  cases hc with
  | literal hw =>
    simp only [Reference.expr, reference, hw, Eval.require]
    exact (hA.push hl).follows .pure
  | grouping hc =>
    simp only [Reference.expr]
    exact h.expr hA (he.child (by simp)) hc hl
  | binary hlt hrt ho hleft hright =>
    simp only [Reference.expr]
    simp only [located_append, Item.size_append, ← Nat.add_assoc] at hl ⊢
    obtain ⟨⟨⟨⟨hl₁, hl₂⟩, hl₃⟩, hl₄⟩, hl₅⟩ := hl
    refine (h.expr hA (he.child (by simp)) hleft hl₁).bind fun a => ?_
    refine (Activation.widening hl₂).follows ((h.expr hA
      (he.child (by simp)) hright hl₃).bind fun b => ?_)
    exact (Activation.widening hl₄).follows (Activation.operate hlt hrt ho hl₅)
  | plus hop hc =>
    simp only [Reference.expr, hop]
    exact h.expr hA (he.child (by simp)) hc hl
  | @minus _ _ _ _ T _ hop ht hc =>
    simp only [Reference.expr, hop, typeOf_reference ht, pure_bind]
    simp only [located_append, Item.size_append, ← Nat.add_assoc] at hl ⊢
    obtain ⟨⟨hl₁, hl₂⟩, hl₃⟩ := hl
    refine (hA.push hl₁).follows ((h.expr hA (he.child (by simp)) hc
      hl₂).bind fun a => ?_)
    by_cases hT : T = .float
    · simp only [hT, if_true] at hl₃ ⊢
      exact (Activation.binary rfl hl₃).follows .pure
    · simp only [hT, if_false] at hl₃ ⊢
      exact (Activation.binary rfl hl₃).follows .pure
  | not hop hc =>
    simp only [Reference.expr, hop]
    simp only [located_append, Item.size_append, ← Nat.add_assoc] at hl ⊢
    refine (h.expr hA (he.child (by simp)) hc hl.1).bind fun a => ?_
    exact (Activation.unary rfl hl.2).follows .pure
  | @count _ _ op _ _ step _ _ hop hv hs =>
    have hchild := he.child (List.mem_singleton.mpr rfl)
    unfold Op.ofCounting? at hop
    split at hop
    · rename_i hkind
      cases hop
      simp only [Reference.expr, hkind]
      exact count_follows hA hchild hv hs rfl _ hl
    · rename_i hkind
      cases hop
      simp only [Reference.expr, hkind]
      exact count_follows hA hchild hv hs rfl _ hl
    · cases hop
  | name hv hs =>
    obtain ⟨T, -, info, hv', hlength, -⟩ := he.typed.root
    cases hv'.symm.trans hv
    obtain ⟨β, hβ, hx⟩ := Activation.exists_scalar (he.bound.root _ rfl) hv hs hlength
    simp only [Reference.expr, variableAt_reference, hβ, pure_bind]
    exact hA.load hx hl
  | assign hv hs ht hvalue =>
    obtain ⟨T, -, info, hv', hlength, -⟩ := he.typed.root
    cases hv'.symm.trans hv
    obtain ⟨β, hβ, hx⟩ := Activation.exists_scalar (he.bound.root _ rfl) hv hs hlength
    simp only [Reference.expr, Reference.stored, variableAt_reference, hβ, typeOf_reference ht]
    simp only [located_append, Item.size_append, ← Nat.add_assoc, pure_bind] at hl ⊢
    obtain ⟨⟨⟨hl₁, hl₂⟩, hl₃⟩, hl₄⟩ := hl
    refine (h.expr hA (he.child (by simp)) hvalue hl₁).bind fun w => ?_
    exact ((Activation.narrowing hl₂).trans (hA.dup hl₃)).follows
      ((hA.save hx hl₄).bind fun _ => .pure)
  | assignElement hv hs ht hvalue hindex =>
    obtain ⟨T, -, info, hv', hlength, -⟩ := he.typed.root
    cases hv'.symm.trans hv
    obtain ⟨β, hβ, hcell⟩ := Activation.exists_array (he.bound.root _ rfl) hv hs hlength
    simp only [Reference.expr, Reference.stored, variableAt_reference, hβ, typeOf_reference ht]
    simp only [located_append, Item.size_append, ← Nat.add_assoc, pure_bind] at hl ⊢
    obtain ⟨⟨⟨⟨hl₁, hl₂⟩, hl₃⟩, hl₄⟩, hl₅⟩ := hl
    refine (h.expr hA (he.child (by simp)) hvalue hl₁).bind fun w => ?_
    refine ((Activation.narrowing hl₂).trans (hA.dup hl₃)).follows ((h.expr hA
      (he.child (by simp)) hindex hl₄).bind fun w' => ?_)
    refine Activation.index.bind fun i => .given fun hindexed => ?_
    obtain ⟨hw, hi⟩ := hindexed
    obtain ⟨hfirst, hx⟩ := hcell i hi
    exact (hA.saveAt hx hfirst hw hl₅).bind fun _ => .pure
  | @call m n args id f is hb hf hargs =>
    obtain ⟨v, hview, rfl, rfl, hfunction⟩ := hA.run.functionAt hb hf
    obtain ⟨t, js, hbody⟩ := hA.run.body hview
    have hlen : args.length = v.2.params.length := hargs.length_eq
    simp only [Reference.expr, hfunction, pure_bind]
    simp only [located_append, Item.size_append, ← Nat.add_assoc] at hl ⊢
    obtain ⟨⟨⟨hl₁, hl₂⟩, hl₃⟩, hl₄⟩ := hl
    refine (hA.callee hl₁ hbody.address).follows ((h.args hA (fun e hmem => he.child hmem) hargs
      hl₂).bind fun ws => .given fun hws => ?_)
    have hcount : args.length = ws.length := hlen.trans hws.symm
    rw [hcount] at hl₃ hl₄ ⊢
    refine (h.activation hA hview hbody.address hws hl₃).bind fun value => .given fun hvalue => ?_
    -- A function without a result leaves no word, and the code pushes a zero in its place.
    cases value with
    | some w =>
      have hne : v.2.ids.returnType ≠ .void := hvalue rfl
      simp only [Reference.result, if_neg hne, Item.size_nil, Nat.add_zero]
      exact .pure
    | none =>
      rw [Reference.result]
      split
      · rename_i hvoid
        have hvoid' : v.2.ids.returnType = .void := hvoid
        rw [if_pos hvoid'] at hl₄ ⊢
        exact (hA.push hl₄).follows .pure
      · exact .halt (by simp)
  | element hv hs hindex =>
    obtain ⟨T, -, info, hv', hlength, -⟩ := he.typed.root
    cases hv'.symm.trans hv
    obtain ⟨β, hβ, hcell⟩ := Activation.exists_array (he.bound.root _ rfl) hv hs hlength
    simp only [Reference.expr, variableAt_reference, hβ]
    simp only [located_append, Item.size_append, ← Nat.add_assoc, pure_bind] at hl ⊢
    refine (h.expr hA (he.child (by simp)) hindex hl.1).bind fun w => ?_
    refine Activation.index.bind fun i => .given fun hindexed => ?_
    obtain ⟨hw, hi⟩ := hindexed
    obtain ⟨hfirst, hx⟩ := hcell i hi
    exact hA.loadAt hx hfirst hw hl.2
  | random hc =>
    simp only [Reference.expr]
    simp only [located_append, Item.size_append, ← Nat.add_assoc] at hl ⊢
    refine (h.expr hA (he.child (by simp)) hc hl.1).bind fun a => ?_
    exact Activation.draw hl.2

/-- Arguments with more fuel. -/
theorem Simulates.args_succ (h : X.Simulates fuel) : X.FollowsArgs (fuel + 1) := by
  intro depth ip A es ps is vs hA he hc hl
  cases hc with
  | nil =>
    simp only [Reference.args]
    exact fun s V hV hP => ⟨V, hV, rfl, hP⟩
  | cons ht hfirst hrest =>
    simp only [Reference.args, Reference.stored]
    rw [typeOf_reference ht]
    simp only [located_append, Item.size_append, ← Nat.add_assoc, pure_bind] at hl ⊢
    obtain ⟨⟨hl₁, hl₂⟩, hl₃⟩ := hl
    refine (h.expr hA (he _ (by simp)) hfirst hl₁).bind fun w => ?_
    refine (Activation.narrowing hl₂).follows ((h.args hA (fun e hmem => he e (by simp [hmem]))
      hrest hl₃).bind fun ws => .given fun hws => ?_)
    refine fun s V hV hP => ⟨V, hV, by simp [hws], ?_⟩
    simpa using hP

/-- The body of a function. -/
theorem Simulates.body (h : X.Simulates fuel) {f : Function (Stmt Mark)} {t : Nat}
    {is : List Item} (hbody : X.Body id f t is) (hA : A.Valid depth) (hid : A.id = id)
    (hf : A.f = f) :
    X.Follows (A.At (t + Item.size (Item.reserving (X.program.tree.cells f.body.tags))) [])
      (X.reference.stmt fuel depth f.returnType f.body)
      (A.Lands none (t + Item.size (Item.reserving (X.program.tree.cells f.body.tags)) +
        Item.size is)) := by
  subst hid hf
  exact h.stmt hA (hA.run.checked.allows hA.home) .none hbody.code hbody.located

/-- Activations with more fuel. -/
theorem Simulates.activation_succ (h : X.Simulates fuel) : X.FollowsActivation (fuel + 1) := by
  intro depth ip t A id f ws vs hA hv ht hlen hl
  cases depth with
  | zero =>
    simp only [Reference.activation]
    exact .halt (by simp)
  | succ depth =>
    rintro s _ hV ⟨hheight, mem, rfl, hmem⟩
    obtain ⟨t', is, hbody⟩ := hA.run.body hv
    cases ht.symm.trans hbody.address
    have hbelow := hA.below
    have hroom := hA.room
    have hcells := hA.cells_le
    have hip := hl.2
    have hframe : (depth + 1 + 1) * X.frame = X.frame + (depth + 1) * X.frame := by
      rw [Nat.succ_mul, Nat.add_comm]
    have hsize : X.frame = X.code.size + X.program.cells + 3 := rfl
    have hsp : (A.view ip (ws.reverse ++ Word.ofNat t :: vs) mem s.world).sp =
        A.bp + A.cells + (ws.reverse ++ Word.ofNat t :: vs).length := rfl
    have hmeets := hA.run.activation hv hbody hV rfl (by simp only [Activation.view]; omega)
      (Nat.le_add_right _ _) hl rfl hlen (by omega)
      fun B (hB : B.Valid depth) hid hf => h.body hbody hB hid hf
    generalize X.reference.activation (fuel + 1) (depth + 1) id f ws s = r at hmeets ⊢
    cases r with
    | ok value s' =>
      obtain ⟨V', hV', hvalue, hstore, hview⟩ := hmeets
      refine ⟨V', hV', hvalue, ?_, mem, hview, hstore ▸ hmem⟩
      simp only [List.length_append, List.length_reverse, List.length_cons] at hheight ⊢
      cases value <;> simp <;> omega
    | error e s' =>
      cases e with
      | failure e => exact hmeets
      | undefined => trivial
      | unfinished => trivial

/-- Printing with more fuel. -/
theorem Simulates.outputs_succ (h : X.Simulates fuel) : X.FollowsOutputs (fuel + 1) := by
  intro depth ip A es is hA he hc hl
  cases hc with
  | nil =>
    simp only [Reference.outputs]
    exact .pure
  | cons ht hop hfirst hrest =>
    simp only [Reference.outputs]
    rw [typeOf_reference ht]
    simp only [located_append, Item.size_append, ← Nat.add_assoc, pure_bind] at hl ⊢
    obtain ⟨⟨hl₁, hl₂⟩, hl₃⟩ := hl
    refine (h.expr hA (he _ (by simp)) hfirst hl₁).bind fun w => ?_
    refine (Activation.print hop hl₂).bind fun _ => ?_
    exact h.outputs hA (fun e hmem => he e (by simp [hmem])) hrest hl₃

/-- Elements with more fuel. -/
theorem Simulates.elements_succ (h : X.Simulates fuel) : X.FollowsElements (fuel + 1) := by
  intro depth ip k A type β slot es is hA he hcell hc hl
  cases hc with
  | nil =>
    simp only [Reference.elements]
    exact .pure
  | cons ht hfirst hrest =>
    simp only [Reference.elements, Reference.stored]
    rw [typeOf_reference ht]
    simp only [located_append, Item.size_append, ← Nat.add_assoc, pure_bind] at hl ⊢
    obtain ⟨⟨⟨hl₁, hl₂⟩, hl₃⟩, hl₄⟩ := hl
    rw [List.length_cons] at hcell
    refine (h.expr hA (he _ (by simp)) hfirst hl₁).bind fun w => ?_
    refine (Activation.narrowing hl₂).follows ((hA.save (hcell k (by omega)) hl₃).bind fun _ => ?_)
    refine h.elements hA (fun e hmem => he e (by simp [hmem])) (fun i hi => hcell i (by omega))
      ?_ hl₄
    rw [Int.natCast_succ, ← Int.add_assoc]
    exact hrest

end Execution

end StackLang
