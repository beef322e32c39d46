import StackLang.Proofs.Machine.Steps

/-!
# Pieces of execution

Every operation is put together from a few pieces.  A property of pieces of execution that holds of
these, and of two pieces in a row if it holds of each, holds of all operations, steps and runs.

* `Machine.Pieces` — the pieces that operations are made of, but for calls and returns.
* `Machine.Pieces.execute` — these operations.
* `Machine.AllPieces` — the other pieces.
* `Machine.AllPieces.step`, `Machine.AllPieces.run` — steps and runs.
-/

namespace StackLang.Machine

/-- The property `K` holds of the pieces of execution that operations are made of, if they neither
call nor return. -/
structure Pieces (K : (α : Type) → Exec α → Prop) : Prop where
  bind : ∀ {α β : Type} {x : Exec α} {f : α → Exec β}, K α x → (∀ a, K β (f a)) → K β (x >>= f)
  pure : ∀ {α : Type} (a : α), K α (pure a)
  throw : ∀ {α : Type} (e : Fault), K α (throw e)
  push : ∀ w, K Unit (push w)
  pop : K Word pop
  fetch : K Word fetch
  readCell : ∀ a, K Word (readCell a)
  writeCell : ∀ a w, K Unit (writeCell a w)
  frameAddress : ∀ w, K Nat (frameAddress w)
  alloc : ∀ w, K Unit (alloc w)
  jump : ∀ w, K Unit (jump w)
  write : ∀ s, K Unit (write s)
  random : ∀ w, K Word (random w)
  stringOf : ∀ here w, K String (stringOf here w)
  readLine : K String readLine
  readString : K Word readString

namespace Pieces

variable {K : (α : Type) → Exec α → Prop} (h : Pieces K)

include h

theorem readValue (read? : String → Option Word) (error : String → InputError) :
    K Word (readValue read? error) := by
  refine h.bind h.readLine fun line => ?_
  cases read? line with
  | none => exact h.throw _
  | some w => exact h.pure w

/-- The operations that neither compute nor print a word. -/
theorem control (here : Nat) {op : Op} (hcall : op = .call → ∀ w, K Unit (call w))
    (hret : op = .ret ∨ op = .retValue → K Unit ret) (hb : op.binary? = none)
    (hd : op.division? = none) (hu : op.unary? = none) (ht : op.text? = none) :
    K Unit (execute here op) := by
  cases op with
  | pop => exact h.bind h.pop fun _ => h.pure ()
  | dup => exact h.bind h.pop fun w => h.bind (h.push w) fun _ => h.push w
  | push => exact h.bind h.fetch fun w => h.push w
  | peek =>
    exact h.bind h.fetch fun w => h.bind (h.frameAddress w) fun a => h.bind (h.readCell a) fun v =>
      h.push v
  | poke =>
    exact h.bind h.fetch fun w => h.bind (h.frameAddress w) fun a => h.bind h.pop fun v =>
      h.writeCell a v
  | peekAt =>
    exact h.bind h.fetch fun _ => h.bind h.pop fun _ => h.bind (h.frameAddress _) fun a =>
      h.bind (h.readCell a) fun v => h.push v
  | pokeAt =>
    exact h.bind h.fetch fun _ => h.bind h.pop fun _ => h.bind h.pop fun v =>
      h.bind (h.frameAddress _) fun a => h.writeCell a v
  | alloc => exact h.bind h.fetch fun w => h.alloc w
  | call => exact h.bind h.fetch fun w => hcall rfl w
  | ret => exact hret (.inl rfl)
  | retValue => exact h.bind h.pop fun v => h.bind (hret (.inr rfl)) fun _ => h.push v
  | exit => exact h.pure ()
  | jump => exact h.bind h.fetch fun w => h.jump w
  | jumpZero =>
    exact h.bind h.fetch fun w => h.bind h.pop fun _ =>
      iteInduction (fun _ => h.jump w) fun _ => h.pure ()
  | outString => exact h.bind h.pop fun w => h.bind (h.stringOf here w) fun s => h.write s
  | inInt | inFloat | inChar => exact h.bind (h.readValue _ _) fun w => h.push w
  | inString => exact h.bind h.readString fun w => h.push w
  | random => exact h.bind h.pop fun w => h.bind (h.random w) fun v => h.push v
  -- The rest computes or prints, and has been excluded.
  | div | mod => cases hd
  | not | intToFloat | floatToInt => cases hu
  | outInt | outFloat | outChar | outBool => cases ht
  | _ => cases hb

/-- All operations have the property, if calls and returns have it. -/
theorem execute (here : Nat) (op : Op) (hcall : op = .call → ∀ w, K Unit (call w))
    (hret : op = .ret ∨ op = .retValue → K Unit ret) : K Unit (execute here op) := by
  cases hb : op.binary? with
  | some f =>
    rw [execute_binary hb]
    exact h.bind h.pop fun _ => h.bind h.pop fun _ => h.push _
  | none => ?_
  cases hd : op.division? with
  | some f =>
    rw [execute_division hd]
    exact h.bind h.pop fun _ => h.bind h.pop fun _ =>
      iteInduction (fun _ => h.bind (h.throw _) fun _ => h.push _) fun _ => h.push _
  | none => ?_
  cases hu : op.unary? with
  | some f =>
    rw [execute_unary hu]
    exact h.bind h.pop fun _ => h.push _
  | none => ?_
  cases ht : op.text? with
  | some f =>
    rw [execute_text ht]
    exact h.bind h.pop fun _ => h.write _
  | none => exact h.control here hcall hret hb hd hu ht

end Pieces

/-- The property `K` holds of all pieces of execution. -/
structure AllPieces (K : (α : Type) → Exec α → Prop) : Prop extends Pieces K where
  getIp : K Nat getIp
  getBp : K Nat getBp
  targetCell : ∀ w, K Nat (targetCell w)
  enterFrame : K Unit enterFrame
  setSp : ∀ w, K Unit (setSp w)
  setBp : ∀ w, K Unit (setBp w)
  status : K (Option Word) fun m => .ok (some m.status) m
  reset : K Unit (modify reset)

namespace AllPieces

variable {K : (α : Type) → Exec α → Prop} (h : AllPieces K)

include h

theorem call (w : Word) : K Unit (call w) :=
  h.bind (h.targetCell w) fun a => h.bind (h.readCell a) fun _ => h.bind h.getIp fun _ =>
    h.bind (h.push _) fun _ => h.bind h.getBp fun _ => h.bind (h.push _) fun _ =>
      h.bind (h.push _) fun _ => h.bind h.enterFrame fun _ => h.jump _

theorem ret : K Unit ret := by
  have hread : ∀ (w : Word) (f : Word → Exec Unit), (∀ v, K Unit (f v)) →
      K Unit (Machine.frameAddress w >>= fun a => Machine.readCell a >>= f) :=
    fun w f hf => h.bind (h.frameAddress w) fun a => h.bind (h.readCell a) hf
  exact hread _ _ fun _ => hread _ _ fun _ => hread _ _ fun _ =>
    h.bind (h.setSp _) fun _ => h.bind (h.setBp _) fun _ => h.jump _

theorem step : K (Option Word) step := by
  refine h.bind h.getIp fun here => h.bind h.fetch fun w => ?_
  cases Op.ofWord? w with
  | none => exact h.throw _
  | some op =>
    have hexecute := h.execute here op (fun _ w => h.call w) fun _ => h.ret
    exact h.bind hexecute fun _ => iteInduction (fun _ => h.status) fun _ => h.pure none

theorem runWithin (limit n : Nat) : K Word (runWithin limit n) := by
  induction n with
  | zero => exact h.throw _
  | succ n ih =>
    refine h.bind h.step fun r => ?_
    cases r with
    | none => exact ih
    | some status => exact h.pure status

theorem run (maxSteps : Option Nat) : K Word (run maxSteps) :=
  h.bind h.reset fun _ => h.runWithin _ _

end AllPieces

end StackLang.Machine
