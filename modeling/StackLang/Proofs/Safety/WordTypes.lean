import StackLang.Proofs.Analysis.Checked
import StackLang.Proofs.Code.Decoding
import StackLang.Proofs.Code.Starts

/-!
# The types of the words on the stack

Every word that the code of a function has on the stack is a value of some static type, or the
address of a function that is about to be called.  The types can be told from the address of the
code.

* `Op.Takes` — what an operation takes from the stack and what it leaves, by types.
* `Compiled.Charts` — the types of the words on the stack at each address of some code.
* `Expr.Code.charts` — the code of an expression leaves one word, of the type of the expression.
-/

namespace StackLang

open Generate (Context)

variable {T : ValueType} {info : VarInfo} {slot : Int} {op step : Op} {kind : Token.Kind}

/-! ## Operations -/

/-- What a word on the stack is. -/
inductive WordType where
  | value (T : ValueType)
  /-- The address of a function that is about to be called. -/
  | address (id : FunctionId)
  deriving DecidableEq

/-- The words that a call leaves, by the type that the function returns. -/
def WordType.result (T : ValueType) : List WordType :=
  if T = .void then [] else [.value T]

namespace Op

/-- The types that an operation takes from the stack, the topmost first, and those that it leaves,
if they are the same wherever it stands. -/
def signature? : Op → Option (List ValueType × List ValueType)
  | add | sub | mul | div | mod => some ([.int, .int], [.int])
  | addFloat | subFloat | mulFloat | divFloat => some ([.float, .float], [.float])
  | lt | le | gt | ge => some ([.int, .int], [.bool])
  | ltFloat | leFloat | gtFloat | geFloat => some ([.float, .float], [.bool])
  | not => some ([.bool], [.bool])
  | jumpZero => some ([.bool], [])
  | intToFloat => some ([.int], [.float])
  | floatToInt => some ([.float], [.int])
  | random => some ([.int], [.int])
  | outInt => some ([.int], [])
  | outFloat => some ([.float], [])
  | outString => some ([.string], [])
  | outChar => some ([.char], [])
  | outBool => some ([.bool], [])
  | _ => none

/-- Whether an operation gives a truth value for two values of any types. -/
def takesAny : Op → Bool
  | eq | ne | eqFloat | neFloat | and | or => true
  | _ => false

theorem plain_of_signature? {ins outs : List ValueType}
    (h : op.signature? = some (ins, T :: outs)) : op.isJump = false ∧ op.arity = 0 := by
  cases op <;> cases h <;> exact ⟨rfl, rfl⟩

theorem plain_of_takesAny (h : op.takesAny = true) : op.isJump = false ∧ op.arity = 0 := by
  cases op <;> cases h <;> exact ⟨rfl, rfl⟩

end Op

/-- Where the code of a function begins. -/
def Generated.start? (g : Generated) (id : FunctionId) : Option Nat :=
  g.symbols[id]?.map Prod.snd

/-- A variable of the function has a cell of type `T` at the place `x` of its frame. -/
def Program.CellType (p : Program) (v : FunctionId × Function (Stmt Mark)) (x : Int)
    (T : ValueType) : Prop :=
  ∃ b i info, p.tree.CellAt p.notes v.1 v.2 b i x ∧ p.tree.varInfo? p.notes b = some info ∧
    info.type = T

/-- An array of the function has elements of type `T`, from the place `x` of its frame on. -/
def Program.ArrayType (p : Program) (v : FunctionId × Function (Stmt Mark)) (x : Int)
    (T : ValueType) : Prop :=
  ∃ b info, p.tree.Usable v.1 v.2 b ∧ p.tree.varInfo? p.notes b = some info ∧
    info.slot = some x ∧ info.length.isSome = true ∧ info.type = T

/-- A variable that is not an array has one cell. -/
theorem Program.cellType_of_usable {p : Program} {v : FunctionId × Function (Stmt Mark)}
    {b : Binding} (hb : p.tree.Usable v.1 v.2 b) (hinfo : p.tree.varInfo? p.notes b = some info)
    (hl : info.length = none) (hs : info.slot = some slot) : p.CellType v slot info.type :=
  ⟨b, 0, info, ⟨hb, info, slot, hinfo, hs, by simp [hl], by simp⟩, hinfo, rfl⟩

/-- An instruction in the code of function `v` can be executed with words of the first types on the
stack, the topmost first, and leaves words of the second types. -/
inductive Op.Takes (p : Program) (g : Generated) (v : FunctionId × Function (Stmt Mark)) :
    Op → Option Word → List WordType → List WordType → Prop where
  | operation {op : Op} {w : Option Word} {ins outs : List ValueType} {σ : List WordType}
    (h : op.signature? = some (ins, outs)) :
    Takes p g v op w (ins.map .value ++ σ) (outs.map .value ++ σ)
  | combination {op : Op} {S T : ValueType} {σ : List WordType} (h : op.takesAny = true) :
    Takes p g v op none (.value S :: .value T :: σ) (.value .bool :: σ)
  | pop {T : ValueType} {σ : List WordType} : Takes p g v .pop none (.value T :: σ) σ
  | dup {T : ValueType} {σ : List WordType} :
    Takes p g v .dup none (.value T :: σ) (.value T :: .value T :: σ)
  | literal {l : Literal} {w : Word} {σ : List WordType} (hw : l.word? g.strings = some w) :
    Takes p g v .push (some w) σ (.value l.type :: σ)
  /-- The word that stands for the result of a function without one. -/
  | nothing {σ : List WordType} : Takes p g v .push (some 0) σ (.value .void :: σ)
  | callee {id : FunctionId} {a : Nat} {σ : List WordType} (ha : g.start? id = some a) :
    Takes p g v .push (some (Word.ofNat a)) σ (.address id :: σ)
  | peek {x : Int} {T : ValueType} {σ : List WordType} (hx : p.CellType v x T) :
    Takes p g v .peek (some (Int64.ofInt x)) σ (.value T :: σ)
  | poke {x : Int} {T : ValueType} {σ : List WordType} (hx : p.CellType v x T) :
    Takes p g v .poke (some (Int64.ofInt x)) (.value T :: σ) σ
  | peekAt {x : Int} {T : ValueType} {σ : List WordType} (hx : p.ArrayType v x T) :
    Takes p g v .peekAt (some (Int64.ofInt x)) (.value .int :: σ) (.value T :: σ)
  | pokeAt {x : Int} {T : ValueType} {σ : List WordType} (hx : p.ArrayType v x T) :
    Takes p g v .pokeAt (some (Int64.ofInt x)) (.value .int :: .value T :: σ) σ
  /-- The cells of the function are reserved before anything is on the stack. -/
  | alloc : Takes p g v .alloc (some (Int64.ofInt (p.notes.function v.1).frameSlots)) [] []
  | call {id : FunctionId} {f : Function StmtId} {σ : List WordType}
    (hf : p.tree.functions[id]? = some f) :
    Takes p g v .call (some (Word.ofNat f.params.length))
      ((f.params.map fun q => .value q.type).reverse ++ .address id :: σ)
      (WordType.result f.returnType ++ σ)
  | ret : Takes p g v .ret none [] []
  | retValue : Takes p g v .retValue none [.value v.2.returnType] []
  | jump {w : Word} {σ : List WordType} : Takes p g v .jump (some w) σ σ
  | read {T : ValueType} {σ : List WordType} : Takes p g v (Op.reading T) none σ (.value T :: σ)

/-! ## Charts -/

/-- A function of a program, in the code of the program. -/
structure Compiled where
  program : Program
  generated : Generated
  env : Addresses
  id : FunctionId
  f : Function (Stmt Mark)
  /-- The labels that it may jump to. -/
  live : LabelId → Prop

namespace Compiled

variable {K : Compiled} {m : Mark} {shape : Expr.Shape (Expr Mark)}

/-- What the code of the function depends on. -/
def context (K : Compiled) : Context :=
  ⟨K.program.tree, K.program.notes, K.f.returnType⟩

/-- An instruction of the function can be executed. -/
abbrev Takes (K : Compiled) (op : Op) (w : Option Word) (σ τ : List WordType) : Prop :=
  op.Takes K.program K.generated (K.id, K.f) w σ τ

theorem takes_operation (K : Compiled) {ins outs : List ValueType}
    (h : op.signature? = some (ins, outs)) (w : Option Word) (σ : List WordType) :
    K.Takes op w (ins.map .value ++ σ) (outs.map .value ++ σ) :=
  .operation h

/-- The functions of the program begin where their labels are. -/
def Addressed (K : Compiled) : Prop :=
  ∀ id < K.program.tree.functions.size, ∃ a, K.env id = some a ∧ K.generated.start? id = some a

/-- An item in the code of the function leads from words of the first types to words of the second.
Nothing is on the stack where a label is. -/
inductive Moves (K : Compiled) : Item → List WordType → List WordType → Prop where
  | place {l : LabelId} : Moves K (.place l) [] []
  | jump {op : Op} {l : LabelId} {σ : List WordType} (hop : op.isJump = true) (hl : K.live l)
    (h : K.Takes op (some ((Operand.label l).resolve K.env)) σ []) :
    Moves K (.withLabel op l) σ []
  | instr {op : Op} {operands : List Operand} {σ τ : List WordType} (hop : op.isJump = false)
    (harity : operands.length = op.arity)
    (h : K.Takes op (operands.map (Operand.resolve K.env)).head? σ τ) :
    Moves K (.instr op operands) σ τ

/-- There is one list of types for each address of the code, from `σ` at its beginning to `τ` at its
end.  The statements are in the code, each at the given address, and nothing is on the stack
there. -/
def Charts (K : Compiled) (a : Nat) (is : List Item) (σ τ : List WordType)
    (starts : List (Stmt Mark × Nat)) : Prop :=
  ∃ types : Nat → List WordType, types a = σ ∧ types (a + Item.size is) = τ ∧
    (∀ pre i suf, is = pre ++ i :: suf →
      K.Moves i (types (a + Item.size pre)) (types (a + Item.size (pre ++ [i])))) ∧
    ∀ x ∈ starts, types x.2 = [] ∧ ∃ pre js suf loop, is = pre ++ js ++ suf ∧
      x.2 = a + Item.size pre ∧ x.1.Code K.context K.generated.strings loop js

namespace Charts

variable {K : Compiled} {a : Nat} {is js : List Item} {σ τ υ : List WordType}
  {xs ys : List (Stmt Mark × Nat)} {op : Op} {T : ValueType}

theorem nil : K.Charts a [] σ σ [] := by
  refine ⟨fun _ => σ, rfl, rfl, fun pre i suf h => ?_, by simp⟩
  simp at h

theorem of_moves {i : Item} (h : K.Moves i σ τ) : K.Charts a [i] σ τ [] := by
  refine ⟨fun x => if x < a + Item.size [i] then σ else τ, ?_, by simp, ?_, by simp⟩
  · cases h with
    | place => simp
    | jump => simp
    | instr => simp
  · intro pre j suf hsplit
    obtain ⟨rfl, rfl, rfl⟩ : pre = [] ∧ j = i ∧ suf = [] := by
      cases pre with
      | nil => simpa [eq_comm] using hsplit
      | cons _ pre => simp at hsplit
    cases h with
    | place => simpa using Moves.place
    | jump hop hl h => simpa using Moves.jump hop hl h
    | instr hop harity h => simpa using Moves.instr hop harity h

/-- One part of the code behind another.  The lists agree where the parts meet. -/
theorem append (hi : K.Charts a is σ τ xs) (hj : K.Charts (a + Item.size is) js τ υ ys) :
    K.Charts a (is ++ js) σ υ (xs ++ ys) := by
  obtain ⟨s, hs, hs', hmoves, hstarts⟩ := hi
  obtain ⟨t, ht, ht', hmoves', hstarts'⟩ := hj
  let types := fun x => if x < a + Item.size is then s x else t x
  have left : ∀ x ≤ a + Item.size is, types x = s x := by
    intro x hx
    by_cases hlt : x < a + Item.size is
    · exact if_pos hlt
    · obtain rfl : x = a + Item.size is := by omega
      exact (if_neg hlt).trans (ht.trans hs'.symm)
  have right : ∀ x, a + Item.size is ≤ x → types x = t x := fun x hx => if_neg (by omega)
  refine ⟨types, ?_, ?_, fun pre i suf hsplit => ?_, fun x hx => ?_⟩
  · exact (left a (by omega)).trans hs
  · rw [Item.size_append, ← Nat.add_assoc, right _ (by omega), ht']
  · rcases List.append_eq_append_iff.mp hsplit with ⟨pre', rfl, hjs⟩ | ⟨rest, rfl, hrest⟩
    · have hmove := hmoves' pre' i suf hjs
      rw [List.append_assoc, Item.size_append, Item.size_append, ← Nat.add_assoc, ← Nat.add_assoc,
        right _ (by omega), right _ (by omega)]
      exact hmove
    · cases rest with
      | nil =>
        -- The item is the first one behind the boundary.
        have hmove := hmoves' [] i suf hrest.symm
        simp only [List.append_nil, Item.size_nil, Nat.add_zero,
          List.nil_append] at hmove left right ⊢
        rw [Item.size_append, ← Nat.add_assoc, right _ (by omega), right _ (by omega)]
        exact hmove
      | cons j rest =>
        obtain ⟨rfl, rfl⟩ : i = j ∧ suf = rest ++ js := by simpa using hrest
        have hmove := hmoves pre i rest rfl
        have hsize : Item.size (pre ++ i :: rest) = Item.size (pre ++ [i]) + Item.size rest := by
          rw [List.append_cons, Item.size_append (pre ++ [i])]
        rw [left _ (by rw [Item.size_append]; omega), left _ (by omega)]
        exact hmove
  · rcases List.mem_append.mp hx with hx | hx
    · obtain ⟨hnil, pre, ks, suf, loop, rfl, haddr, hcode⟩ := hstarts x hx
      refine ⟨?_, pre, ks, suf ++ js, loop, by simp, haddr, hcode⟩
      rw [left _ (by simp only [haddr, Item.size_append]; omega)]
      exact hnil
    · obtain ⟨hnil, pre, ks, suf, loop, rfl, haddr, hcode⟩ := hstarts' x hx
      refine ⟨?_, is ++ pre, ks, suf, loop, by simp, ?_, hcode⟩
      · rw [right _ (by omega)]
        exact hnil
      · rw [haddr, Item.size_append, Nat.add_assoc]

/-- The code is that of a statement. -/
theorem mark {s : Stmt Mark} (h : K.Charts a is [] τ xs) (loop : Option LoopLabels)
    (hs : s.Code K.context K.generated.strings loop is) : K.Charts a is [] τ (xs ++ [(s, a)]) := by
  obtain ⟨types, hfirst, hlast, hmoves, hstarts⟩ := h
  refine ⟨types, hfirst, hlast, hmoves, fun x hx => ?_⟩
  rcases List.mem_append.mp hx with hx | hx
  · exact hstarts x hx
  · obtain rfl := List.mem_singleton.mp hx
    exact ⟨hfirst, [], is, [], loop, by simp, rfl, hs⟩

/-- Code without statements behind another part. -/
theorem appendBare (hi : K.Charts a is σ τ xs) (hj : K.Charts (a + Item.size is) js τ υ []) :
    K.Charts a (is ++ js) σ υ xs := by
  have h := hi.append hj
  rwa [List.append_nil] at h

/-! ## Instructions -/

theorem plain (hop : op.isJump = false) (harity : op.arity = 0) (h : K.Takes op none σ τ) :
    K.Charts a [.plain op] σ τ [] :=
  of_moves (.instr hop harity.symm h)

theorem withWord {w : Word} (hop : op.isJump = false) (harity : op.arity = 1)
    (h : K.Takes op (some w) σ τ) : K.Charts a [.withWord op w] σ τ [] :=
  of_moves (.instr hop harity.symm h)

theorem unary {S : ValueType} (h : op.signature? = some ([S], [T])) :
    K.Charts a [.plain op] (.value S :: σ) (.value T :: σ) [] := by
  have htakes := K.takes_operation h none σ
  exact plain (Op.plain_of_signature? h).1 (Op.plain_of_signature? h).2 htakes

theorem binary {S U : ValueType} (h : op.signature? = some ([S, T], [U])) :
    K.Charts a [.plain op] (.value S :: .value T :: σ) (.value U :: σ) [] := by
  have htakes := K.takes_operation h none σ
  exact plain (Op.plain_of_signature? h).1 (Op.plain_of_signature? h).2 htakes

/-- The conversion of a value that can be stored. -/
theorem narrowing {target source : ValueType} (h : (target.store? source).isSome = true) :
    K.Charts a (Item.narrowing target source) (.value source :: σ) (.value target :: σ) [] := by
  obtain ⟨result, hresult⟩ := Option.isSome_iff_exists.mp h
  obtain ⟨-, -, hsource⟩ := ValueType.store?_eq_some_iff.mp hresult
  rw [Item.narrowing]
  split
  · rename_i hn
    simp only [ValueType.narrows, Bool.and_eq_true, decide_eq_true_eq] at hn
    obtain ⟨rfl, rfl⟩ := hn
    exact unary rfl
  · rename_i hn
    obtain rfl := hsource.resolve_right hn
    exact nil

/-- The type of an operand of type `T` once it is converted. -/
theorem widening {isFloat : Bool} :
    K.Charts a (Item.widening isFloat op T) (.value T :: σ)
      (.value (if isFloat && op ≠ .and && op ≠ .or && T = .int then .float else T) :: σ) [] := by
  rw [Item.widening]
  split
  · rename_i h
    simp only [Bool.and_eq_true, decide_eq_true_eq] at h
    obtain ⟨-, rfl⟩ := h
    exact unary rfl
  · exact nil

theorem counting {trailing : Bool} {x : Int}
    (hstep : step.signature? = some ([.int, .int], [.int]))
    (hx : K.program.CellType (K.id, K.f) x .int) :
    K.Charts a (Item.counting step trailing x) σ (.value .int :: σ) [] := by
  have before : ∀ {a υ}, K.Charts a [.withSlot .peek x] υ (.value .int :: υ) [] :=
    withWord rfl rfl (.peek hx)
  have one : ∀ {a υ}, K.Charts a [.withWord .push 1] υ (.value .int :: υ) [] :=
    withWord rfl rfl (.literal (l := .int 1) rfl)
  have dup : ∀ {a υ},
      K.Charts a [.plain .dup] (.value .int :: υ) (.value .int :: .value .int :: υ) [] :=
    plain rfl rfl .dup
  have store : ∀ {a υ}, K.Charts a [.withSlot .poke x] (.value .int :: υ) υ [] :=
    withWord rfl rfl (.poke hx)
  cases trailing with
  | true => exact before.append (dup.append (one.append ((binary hstep).append store)))
  | false => exact before.append (one.append ((binary hstep).append (dup.append store)))

/-- A number is taken from a zero of its type. -/
theorem negation (hT : T.isNumeric = true)
    (h : ∀ {a : Nat} {σ : List WordType}, K.Charts a is σ (.value T :: σ) []) :
    K.Charts a ([.withWord .push 0] ++ is ++ [.plain (if T = .float then .subFloat else .sub)]) σ
      (.value T :: σ) [] := by
  cases T with
  | int =>
    have zero : K.Charts a [.withWord .push 0] σ (.value .int :: σ) [] :=
      withWord rfl rfl (.literal (l := .int 0) rfl)
    exact (zero.append h).append (binary rfl)
  | float =>
    have zero : K.Charts a [.withWord .push 0] σ (.value .float :: σ) [] :=
      withWord rfl rfl (.literal (l := .float 0) rfl)
    exact (zero.append h).append (binary rfl)
  | _ => cases hT

/-- A call of a function with its arguments, and the word that stands for a result that is
missing. -/
theorem calling (hK : K.Addressed) {id : FunctionId} {f : Function StmtId}
    (hf : K.program.tree.functions[id]? = some f)
    (hargs : ∀ {a : Nat} {σ : List WordType},
      K.Charts a is σ ((f.params.map fun q => .value q.type).reverse ++ σ) []) :
    K.Charts a ([.withLabel .push id] ++ is ++ [.withWord .call (Word.ofNat f.params.length)] ++
      if f.returnType = .void then [.withWord .push 0] else []) σ
        (.value f.returnType :: σ) [] := by
  obtain ⟨b, henv, hstart⟩ := hK id (Array.getElem?_eq_some_iff.mp hf).1
  have callee : K.Charts a [.withLabel .push id] σ (.address id :: σ) [] := by
    refine of_moves (.instr rfl rfl ?_)
    rw [List.map_singleton, List.head?_cons, Operand.resolve_label henv]
    exact .callee hstart
  refine ((callee.append hargs).append (withWord rfl rfl (.call hf))).append ?_
  by_cases hvoid : f.returnType = .void
  · rw [if_pos hvoid, hvoid]
    exact withWord rfl rfl .nothing
  · rw [if_neg hvoid, WordType.result, if_neg hvoid]
    exact nil

end Charts

/-! ## Expressions -/

/-- The expression can be one of the function whose code is generated. -/
abbrev Checks (K : Compiled) (e : Expr Mark) : Prop :=
  K.program.Checks K.id K.f e

end Compiled

namespace Program.Checks

variable {p : Program} {id : FunctionId} {f : Function (Stmt Mark)}

theorem rule (h : p.Checks id f (.node m shape)) (hT : p.notes.typeOf (.node m shape) = some T) :
    shape.Rule p.tree p.notes m T := by
  obtain ⟨T', hT', hrule⟩ := h.typed.root
  cases hT.symm.trans hT'
  exact hrule

/-- The variable that a name stands for has a cell, if it is not an array. -/
theorem cellType (h : p.Checks id f (.node m shape)) (huse : shape.use? = some .variableName)
    (hv : p.notes.variableAt p.tree m = some info) (hl : info.length = none)
    (hs : info.slot = some slot) : p.CellType (id, f) slot info.type := by
  obtain ⟨b, hb, -, husable⟩ := h.bound.root _ huse
  rw [Notes.variableAt, hb] at hv
  exact cellType_of_usable husable hv hl hs

theorem arrayType (h : p.Checks id f (.node m shape)) (huse : shape.use? = some .variableName)
    (hv : p.notes.variableAt p.tree m = some info) (hl : info.length.isSome = true)
    (hs : info.slot = some slot) : p.ArrayType (id, f) slot info.type := by
  obtain ⟨b, hb, -, husable⟩ := h.bound.root _ huse
  rw [Notes.variableAt, hb] at hv
  exact ⟨b, info, husable, hv, hs, hl, rfl⟩

end Program.Checks

/-- The operation of a binary operator takes its operands once they are converted. -/
theorem Op.signature?_of_ofBinary? {l r : ValueType} {o : Op}
    (ho : Op.ofBinary? kind l r = some o) (hT : ValueType.binary? kind l r = some T) :
    o.signature? =
      some ([if l.isFloatOperation r && o ≠ .and && o ≠ .or && r = .int then .float else r,
        if l.isFloatOperation r && o ≠ .and && o ≠ .or && l = .int then .float else l], [T]) ∨
      o.takesAny = true ∧ T = .bool := by
  cases kind with
  | operator op =>
    cases op <;> try cases hT; done
    all_goals
      cases l <;> cases r <;> cases hT <;> cases ho <;>
        first | exact .inl rfl | exact .inr ⟨rfl, rfl⟩
  | _ => cases hT

/-- Only integers are counted, by an operation on integers. -/
theorem Op.signature?_of_ofCounting? (hstep : Op.ofCounting? kind = some step)
    (hT : T.takesUnary kind = true) : T = .int ∧ step.signature? = some ([.int, .int], [.int]) := by
  unfold Op.ofCounting? at hstep
  split at hstep <;> cases hstep
  · exact ⟨by simpa [ValueType.takesUnary] using hT, rfl⟩
  · exact ⟨by simpa [ValueType.takesUnary] using hT, rfl⟩

section

variable {K : Compiled}

open Compiled.Charts

mutual

/-- The code of an expression leaves one word, of the type of the expression. -/
theorem Expr.Code.charts {e : Expr Mark} {is : List Item} (hK : K.Addressed) :
    e.Code K.context K.generated.strings is → K.Checks e → ∀ {T : ValueType},
      K.program.notes.typeOf e = some T →
        ∀ {a : Nat} {σ : List WordType}, K.Charts a is σ (.value T :: σ) []
  | .literal hw, he, _, hT, _, _ => by
    obtain rfl := he.rule hT
    exact withWord rfl rfl (.literal hw)
  | .grouping hc, he, _, hT, _, _ =>
    hc.charts hK (he.child (by simp)) (he.rule hT)
  | .binary hl hr ho left right, he, T, hT, a, σ => by
    obtain ⟨lt, rt, hl', hr', hbinary⟩ := he.rule hT
    cases hl.symm.trans hl'
    cases hr.symm.trans hr'
    have hleft := left.charts hK (he.child (by simp)) hl (a := a) (σ := σ)
    refine (((hleft.append widening).append (right.charts hK
      (he.child (by simp)) hr)).append widening).append ?_
    rcases Op.signature?_of_ofBinary? ho hbinary with hsign | ⟨hany, rfl⟩
    · exact Compiled.Charts.binary hsign
    · exact plain (Op.plain_of_takesAny hany).1 (Op.plain_of_takesAny hany).2 (.combination hany)
  | .plus _ hc, he, _, hT, _, _ =>
    hc.charts hK (he.child (by simp)) (he.rule hT).1
  | .minus hop ht hc, he, _, hT, _, _ => by
    obtain ⟨hT', htakes⟩ := he.rule hT
    cases ht.symm.trans hT'
    rw [hop] at htakes
    exact negation htakes (hc.charts hK (he.child (by simp)) hT')
  | .not hop hc, he, T, hT, _, _ => by
    obtain ⟨hT', htakes⟩ := he.rule hT
    rw [hop] at htakes
    obtain rfl : T = .bool := by simpa [ValueType.takesUnary] using htakes
    exact (hc.charts hK (he.child (by simp)) hT').append
      (Compiled.Charts.unary rfl)
  | .count hop hv hs, he, _, hT, _, _ => by
    obtain ⟨hT', htakes⟩ := he.rule hT
    have hname := he.child (List.mem_singleton_self _)
    obtain ⟨info, hv', hl, rfl⟩ := hname.rule hT'
    cases hv.symm.trans hv'
    have hcell := hname.cellType rfl hv hl hs
    obtain ⟨hint, hstep⟩ := Op.signature?_of_ofCounting? hop htakes
    rw [hint] at hcell ⊢
    exact counting hstep hcell
  | .name hv hs, he, _, hT, _, _ => by
    obtain ⟨info, hv', hl, rfl⟩ := he.rule hT
    cases hv.symm.trans hv'
    exact withWord rfl rfl (.peek (he.cellType rfl hv hl hs))
  | .assign hv hs ht value, he, _, hT, _, _ => by
    obtain ⟨info, hv', hl, ⟨S, hS, hstore⟩, rfl⟩ := he.rule hT
    cases hv.symm.trans hv'
    cases ht.symm.trans hS
    refine (((value.charts hK (he.child (by simp)) hS).append
      (narrowing hstore)).append (plain rfl rfl .dup)).append ?_
    exact withWord rfl rfl (.poke (he.cellType rfl hv hl hs))
  | .assignElement hv hs ht value index, he, _, hT, _, _ => by
    obtain ⟨info, hv', hl, hi, ⟨S, hS, hstore⟩, rfl⟩ := he.rule hT
    cases hv.symm.trans hv'
    cases ht.symm.trans hS
    refine ((((value.charts hK (he.child (by simp)) hS).append
      (narrowing hstore)).append (plain rfl rfl .dup)).append
      (index.charts hK (he.child (by simp)) hi)).append ?_
    exact withWord rfl rfl (.pokeAt (he.arrayType rfl hv hl hs))
  | .call hb hf hargs, he, _, hT, _, _ => by
    obtain ⟨id, f, hb', hf', hstores, rfl⟩ := he.rule hT
    cases hb.symm.trans hb'
    cases hf.symm.trans hf'
    rw [hargs.length_eq]
    exact calling hK hf (hargs.charts hK (fun e hmem => he.child hmem) hstores)
  | .element hv hs index, he, _, hT, _, _ => by
    obtain ⟨info, hv', hl, hi, rfl⟩ := he.rule hT
    cases hv.symm.trans hv'
    refine (index.charts hK (he.child (by simp)) hi).append ?_
    exact withWord rfl rfl (.peekAt (he.arrayType rfl hv hl hs))
  | .random hc, he, _, hT, _, _ => by
    obtain ⟨hi, rfl⟩ := he.rule hT
    exact (hc.charts hK (he.child (by simp)) hi).append
      (Compiled.Charts.unary rfl)

/-- The code of arguments leaves one word each, of the types of the parameters. -/
theorem Expr.ArgsCode.charts {es : List (Expr Mark)} {ps : List Param} {is : List Item}
    (hK : K.Addressed) : Expr.ArgsCode K.context K.generated.strings es ps is →
      (∀ e ∈ es, K.Checks e) →
      List.Forall₂ (fun q e => K.program.notes.Stores q.type e) ps es →
        ∀ {a : Nat} {σ : List WordType},
          K.Charts a is σ ((ps.map fun q => .value q.type).reverse ++ σ) []
  | .nil, _, _, _, _ => nil
  | .cons ht hc hcs, he, .cons ⟨S, hS, hstore⟩ hstores, _, _ => by
    cases ht.symm.trans hS
    rw [List.map_cons, List.reverse_cons, List.append_assoc (List.reverse _) [_]]
    exact ((hc.charts hK (he _ (by simp)) hS).append (narrowing hstore)).append
      (hcs.charts hK (fun e hmem => he e (by simp [hmem])) hstores)

end

end

end StackLang
