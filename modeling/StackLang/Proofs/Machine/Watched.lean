import StackLang.Proofs.Machine.Keeping
import StackLang.Proofs.Machine.Steps
import StackLang.Proofs.Machine.Trace

/-!
# Watched machines

A machine that is watched while it runs: before a cell is used, its index is compared with the size
of the memory, and around each piece of execution the machine is checked to be intact.  Whatever its
code is, a watched machine runs as one that is not watched, so no index is out of bounds and no part
of an instruction leaves the machine broken.

* `Watched.run` — a run that is watched.
* `Machine.Agrees` — a watched piece of execution does what the piece of execution does.
* `Machine.Reused.watched` — machines are intact at every point of every run.
-/

namespace StackLang

/-! ## Watching -/

/-- Why a watched machine stops. -/
inductive Alarm where
  | fault (e : Fault)
  /-- An index that is out of bounds was used. -/
  | outside (index : Nat)
  /-- The machine is not intact. -/
  | broken
  deriving DecidableEq, Repr

/-- The code that a watched machine should have, and the number of cells of its stack. -/
structure Plan where
  code : Array Word
  cells : Nat

/-- A watched piece of execution. -/
abbrev Watched := ReaderT Plan (EStateM Alarm Machine)

namespace Watched

open Machine (Intact)

variable {α : Type}

/-- A piece of execution that must find and leave the machine intact. -/
def watch (x : Exec α) : Watched α := fun p m =>
  if Intact p.code p.cells m then
    match x m with
    | .ok a m' => if Intact p.code p.cells m' then .ok a m' else .error .broken m'
    | .error e m' => if Intact p.code p.cells m' then .error (.fault e) m' else .error .broken m'
  else .error .broken m

/-- A piece of execution that uses the cell with the given index, if there is one. -/
def watchAt (index? : Machine → Option Nat) (x : Exec α) : Watched α := fun p m =>
  match index? m with
  | some i => if i < m.mem.size then watch x p m else .error (.outside i) m
  | none => watch x p m

/-- The index of the word on top of the stack. -/
def top? (m : Machine) : Option Nat :=
  if m.codeLen < m.sp then some (m.sp - 1) else none

def push (w : Word) : Watched Unit :=
  watchAt (fun m => if m.sp < m.mem.size then some m.sp else none) (Machine.push w)

def pop : Watched Word :=
  watchAt top? Machine.pop

def fetch : Watched Word :=
  watchAt (fun m => if m.ip < m.codeLen then some m.ip else none) Machine.fetch

def readCell (a : Nat) : Watched Word :=
  watchAt (fun _ => some a) (Machine.readCell a)

def writeCell (a : Nat) (w : Word) : Watched Unit :=
  watchAt (fun _ => some a) (Machine.writeCell a w)

/-! ## Instructions -/

def call (count : Word) : Watched Unit := do
  let cell ← watch (Machine.targetCell count)
  let target ← readCell cell
  push (Word.ofNat (← watch Machine.getIp))
  push (Word.ofNat (← watch Machine.getBp))
  push (Word.ofNat cell)
  watch Machine.enterFrame
  watch (Machine.jump target)

def ret : Watched Unit := do
  let ip ← readCell (← watch (Machine.frameAddress (-3)))
  let bp ← readCell (← watch (Machine.frameAddress (-2)))
  let sp ← readCell (← watch (Machine.frameAddress (-1)))
  watch (Machine.setSp sp)
  watch (Machine.setBp bp)
  watch (Machine.jump ip)

/-- Executes an operation that neither computes nor prints a word. -/
def control (here : Nat) : Op → Watched Unit
  | .pop => do
    let _ ← pop
  | .dup => do
    let a ← pop
    push a
    push a
  | .push => do
    push (← fetch)
  | .peek => do
    let offset ← fetch
    push (← readCell (← watch (Machine.frameAddress offset)))
  | .poke => do
    let offset ← fetch
    let address ← watch (Machine.frameAddress offset)
    writeCell address (← pop)
  | .peekAt => do
    let base ← fetch
    let index ← pop
    push (← readCell (← watch (Machine.frameAddress (base + index))))
  | .pokeAt => do
    let base ← fetch
    let index ← pop
    let value ← pop
    writeCell (← watch (Machine.frameAddress (base + index))) value
  | .alloc => do
    watch (Machine.alloc (← fetch))
  | .call => do
    call (← fetch)
  | .ret => ret
  | .retValue => do
    let value ← pop
    ret
    push value
  | .jump => do
    watch (Machine.jump (← fetch))
  | .jumpZero => do
    let target ← fetch
    if (← pop) = 0 then watch (Machine.jump target)
  | .outString => do
    watch (Machine.write (← watch (Machine.stringOf here (← pop))))
  | .inInt => do
    push (← watch (Machine.readOf .int))
  | .inFloat => do
    push (← watch (Machine.readOf .float))
  | .inChar => do
    push (← watch (Machine.readOf .char))
  | .inString => do
    push (← watch (Machine.readOf .string))
  | .random => do
    push (← watch (Machine.random (← pop)))
  | _ => pure ()

def execute (here : Nat) (op : Op) : Watched Unit :=
  match op.binary?, op.division?, op.unary?, op.text? with
  | some f, _, _, _ => do
    let b ← pop
    let a ← pop
    push (f a b)
  | _, some f, _, _ => do
    let b ← pop
    let a ← pop
    if b = 0 then watch (throw (.divisionByZero here))
    push (f a b)
  | _, _, some f, _ => do
    push (f (← pop))
  | _, _, _, some f => do
    watch (Machine.write (f (← pop)))
  | none, none, none, none => control here op

def step : Watched (Option Word) := do
  let here ← watch Machine.getIp
  let w ← fetch
  match Op.ofWord? w with
  | none => watch (throw (.unknownOp here w))
  | some op =>
    execute here op
    if op = .exit then watchAt top? fun m => .ok (some m.status) m else return none

def runWithin (limit : Nat) : Nat → Watched Word
  | 0 => watch (throw (.stepLimit limit))
  | n + 1 => do
    match ← step with
    | some status => return status
    | none => runWithin limit n

/-- A run that is watched. -/
def run (maxSteps : Option Nat) : Watched Word := do
  watch (modify Machine.reset)
  let limit := maxSteps.getD Machine.mostSteps
  runWithin limit limit

end Watched

namespace Machine

/-! ## Agreement -/

/-- On an intact machine, the watched piece of execution does what the other does and leaves the
machine intact; the result satisfies `Q`. -/
def Agrees (p : Plan) {α : Type} (x : Watched α) (y : Exec α) (Q : α → Prop) : Prop :=
  ∀ m, Intact p.code p.cells m →
    match y m with
    | .ok a m' => x p m = .ok a m' ∧ Intact p.code p.cells m' ∧ Q a
    | .error e m' => x p m = .error (.fault e) m' ∧ Intact p.code p.cells m'

section

variable {p : Plan} {α β : Type} {x x' : Watched α} {y y' : Exec α} {Q : α → Prop}

theorem Agrees.bind {f : α → Watched β} {g : α → Exec β} {R : β → Prop} (h : Agrees p x y Q)
    (hf : ∀ a, Q a → Agrees p (f a) (g a) R) : Agrees p (x >>= f) (y >>= g) R := by
  intro m hm
  have hx := h m hm
  have hbind : (x >>= f) p m = EStateM.bind (x p) (fun a => f a p) m := rfl
  cases hy : y m with
  | error e m' =>
    rw [hy] at hx
    rw [bind_of_error hy, hbind, EStateM.bind, hx.1]
    exact ⟨rfl, hx.2⟩
  | ok a m' =>
    rw [hy] at hx
    obtain ⟨hrun, hm', ha⟩ := hx
    rw [bind_of_ok hy, hbind, EStateM.bind, hrun]
    exact hf a ha m' hm'

theorem Agrees.pure {a : α} (ha : Q a) : Agrees p (pure a) (pure a) Q :=
  fun _ hm => ⟨rfl, hm, ha⟩

theorem Agrees.ite {c : Prop} [Decidable c] (h : Agrees p x y Q) (h' : Agrees p x' y' Q) :
    Agrees p (if c then x else x') (if c then y else y') Q := by
  by_cases hc : c
  · rw [if_pos hc, if_pos hc]
    exact h
  · rw [if_neg hc, if_neg hc]
    exact h'

theorem Keeps.watch (h : Keeps p.code p.cells y Q) : Agrees p (Watched.watch y) y Q := by
  intro m hm
  have hy := h m hm
  unfold Watched.watch
  rw [if_pos hm]
  cases hrun : y m with
  | ok a m' =>
    rw [hrun] at hy
    simp only [if_pos hy.1]
    exact ⟨trivial, hy⟩
  | error e m' =>
    rw [hrun] at hy
    simp only [if_pos hy]
    exact ⟨trivial, hy⟩

/-- A cell that is used must be one of the memory. -/
theorem Keeps.watchAt (h : Keeps p.code p.cells y Q) {index? : Machine → Option Nat}
    (hindex : ∀ m, Intact p.code p.cells m → ∀ i, index? m = some i → i < m.mem.size) :
    Agrees p (Watched.watchAt index? y) y Q := by
  intro m hm
  have hwatch : Watched.watchAt index? y p m = Watched.watch y p m := by
    unfold Watched.watchAt
    cases hi : index? m with
    | none => rfl
    | some i => simp only [if_pos (hindex m hm i hi)]
  rw [hwatch]
  exact h.watch m hm

theorem throw_agrees (e : Fault) : Agrees p (Watched.watch (throw e)) (throw e : Exec α) Q :=
  Keeps.watch fun _ hm => hm

/-! ## Cells -/

theorem Intact.top?_lt {m : Machine} (h : Intact p.code p.cells m) {i : Nat}
    (hi : Watched.top? m = some i) : i < m.mem.size := by
  rw [Watched.top?] at hi
  split at hi
  · rename_i hlt
    cases hi
    have hsp := h.sp
    omega
  · cases hi

theorem push_agrees (w : Word) : Agrees p (Watched.push w) (push w) fun _ => True := by
  refine (push_keeps w).watchAt fun m _ i hi => ?_
  split at hi
  · rename_i hlt
    cases hi
    exact hlt
  · cases hi

theorem pop_agrees : Agrees p Watched.pop pop fun _ => True :=
  pop_keeps.watchAt fun _ h _ hi => h.top?_lt hi

theorem fetch_agrees : Agrees p Watched.fetch fetch fun _ => True := by
  refine fetch_keeps.watchAt fun m h i hi => ?_
  split at hi
  · rename_i hlt
    cases hi
    rw [h.size, ← h.codeLen]
    exact Nat.lt_add_right _ hlt
  · cases hi

theorem readCell_agrees {a : Nat} (ha : InStack p.code p.cells a) :
    Agrees p (Watched.readCell a) (readCell a) fun _ => True := by
  refine (readCell_keeps a).watchAt fun m h i hi => ?_
  cases hi
  exact h.size ▸ ha.2

theorem writeCell_agrees {a : Nat} (w : Word) (ha : InStack p.code p.cells a) :
    Agrees p (Watched.writeCell a w) (writeCell a w) fun _ => True := by
  refine (writeCell_keeps w ha.1).watchAt fun m h i hi => ?_
  cases hi
  exact h.size ▸ ha.2

/-! ## Instructions -/

theorem call_agrees (w : Word) : Agrees p (Watched.call w) (call w) fun _ => True :=
  (targetCell_keeps w).watch.bind fun _ ha => (readCell_agrees ha).bind fun _ _ =>
    getIp_keeps.watch.bind fun _ _ => (push_agrees _).bind fun _ _ =>
      getBp_keeps.watch.bind fun _ _ => (push_agrees _).bind fun _ _ => (push_agrees _).bind
        fun _ _ => enterFrame_keeps.watch.bind fun _ _ => (jump_keeps _).watch

theorem ret_agrees : Agrees p Watched.ret ret fun _ => True :=
  (frameAddress_keeps _).watch.bind fun _ ha => (readCell_agrees ha).bind fun _ _ =>
    (frameAddress_keeps _).watch.bind fun _ ha => (readCell_agrees ha).bind fun _ _ =>
      (frameAddress_keeps _).watch.bind fun _ ha => (readCell_agrees ha).bind fun _ _ =>
        (setSp_keeps _).watch.bind fun _ _ => (setBp_keeps _).watch.bind fun _ _ =>
          (jump_keeps _).watch

theorem readOf_agrees (type : ValueType) :
    Agrees p (Watched.watch (readOf type) >>= Watched.push) (readOf type >>= push)
      fun _ => True := by
  have hkeeps : Keeps p.code p.cells (readOf type) fun _ => True := by
    cases type with
    | string => exact readString_keeps
    | _ => exact readValue_keeps _ _
  exact hkeeps.watch.bind fun _ _ => push_agrees _

theorem control_agrees (here : Nat) {op : Op} (hb : op.binary? = none) (hd : op.division? = none)
    (hu : op.unary? = none) (ht : op.text? = none) :
    Agrees p (Watched.control here op) (execute here op) fun _ => True := by
  cases op with
  | pop => exact pop_agrees.bind fun _ _ => .pure trivial
  | dup => exact pop_agrees.bind fun _ _ => (push_agrees _).bind fun _ _ => push_agrees _
  | push => exact fetch_agrees.bind fun _ _ => push_agrees _
  | peek =>
    exact fetch_agrees.bind fun _ _ => (frameAddress_keeps _).watch.bind fun _ ha =>
      (readCell_agrees ha).bind fun _ _ => push_agrees _
  | poke =>
    exact fetch_agrees.bind fun _ _ => (frameAddress_keeps _).watch.bind fun _ ha =>
      pop_agrees.bind fun _ _ => writeCell_agrees _ ha
  | peekAt =>
    exact fetch_agrees.bind fun _ _ => pop_agrees.bind fun _ _ =>
      (frameAddress_keeps _).watch.bind fun _ ha => (readCell_agrees ha).bind fun _ _ =>
        push_agrees _
  | pokeAt =>
    exact fetch_agrees.bind fun _ _ => pop_agrees.bind fun _ _ => pop_agrees.bind fun _ _ =>
      (frameAddress_keeps _).watch.bind fun _ ha => writeCell_agrees _ ha
  | alloc => exact fetch_agrees.bind fun _ _ => (alloc_keeps _).watch
  | call => exact fetch_agrees.bind fun _ _ => call_agrees _
  | ret => exact ret_agrees
  | retValue => exact pop_agrees.bind fun _ _ => ret_agrees.bind fun _ _ => push_agrees _
  | exit => exact .pure trivial
  | jump => exact fetch_agrees.bind fun _ _ => (jump_keeps _).watch
  | jumpZero =>
    exact fetch_agrees.bind fun _ _ => pop_agrees.bind fun _ _ =>
      .ite (jump_keeps _).watch (.pure trivial)
  | outString =>
    exact pop_agrees.bind fun _ _ => (stringOf_keeps _ _).watch.bind fun _ _ =>
      (write_keeps _).watch
  | inInt => exact readOf_agrees .int
  | inFloat => exact readOf_agrees .float
  | inChar => exact readOf_agrees .char
  | inString => exact readOf_agrees .string
  | random =>
    exact pop_agrees.bind fun _ _ => (random_keeps _).watch.bind fun _ _ => push_agrees _
  | div | mod => cases hd
  | not | intToFloat | floatToInt => cases hu
  | outInt | outFloat | outChar | outBool => cases ht
  | _ => cases hb

theorem execute_agrees (here : Nat) (op : Op) :
    Agrees p (Watched.execute here op) (execute here op) fun _ => True := by
  unfold Watched.execute
  match hb : op.binary?, hd : op.division?, hu : op.unary?, ht : op.text? with
  | some f, _, _, _ =>
    rw [execute_binary hb]
    exact pop_agrees.bind fun _ _ => pop_agrees.bind fun _ _ => push_agrees _
  | none, some f, _, _ =>
    rw [execute_division hd]
    exact pop_agrees.bind fun _ _ => pop_agrees.bind fun _ _ =>
      .ite ((throw_agrees _).bind fun _ (_ : True) => push_agrees _) (push_agrees _)
  | none, none, some f, _ =>
    rw [execute_unary hu]
    exact pop_agrees.bind fun _ _ => push_agrees _
  | none, none, none, some f =>
    rw [execute_text ht]
    exact pop_agrees.bind fun _ _ => (write_keeps _).watch
  | none, none, none, none => exact control_agrees here hb hd hu ht

/-! ## Runs -/

theorem step_agrees : Agrees p Watched.step step fun _ => True := by
  refine getIp_keeps.watch.bind fun here _ => fetch_agrees.bind fun w _ => ?_
  cases Op.ofWord? w with
  | none => exact throw_agrees _
  | some op =>
    refine (execute_agrees here op).bind fun _ _ => .ite ?_ (.pure trivial)
    have hkeeps : Keeps p.code p.cells (fun m => .ok (some m.status) m) fun _ => True :=
      fun _ h => ⟨h, trivial⟩
    exact hkeeps.watchAt fun _ h _ hi => h.top?_lt hi

theorem runWithin_agrees (limit : Nat) :
    ∀ n, Agrees p (Watched.runWithin limit n) (runWithin limit n) fun _ => True
  | 0 => throw_agrees _
  | n + 1 => step_agrees.bind fun r _ => by
    cases r with
    | some status => exact .pure trivial
    | none => exact runWithin_agrees limit n

theorem run_agrees (maxSteps : Option Nat) :
    Agrees p (Watched.run maxSteps) (run maxSteps) fun _ => True := by
  refine (Keeps.watch ?_).bind fun _ (_ : True) => runWithin_agrees _ _
  exact fun m h => ⟨h.reset, trivial⟩

end

/-- A machine is intact after every step. -/
theorem Intact.after {code : Array Word} {cells n : Nat} {m m' : Machine} (h : Intact code cells m)
    (hafter : m.after n = some m') : Intact code cells m' := by
  induction n generalizing m' with
  | zero =>
    cases hafter
    exact h
  | succ n ih =>
    obtain ⟨m₁, h₁, hstep⟩ := step_of_after hafter
    have hagrees := step_agrees (p := ⟨code, cells⟩) m₁ (ih h₁)
    rw [hstep] at hagrees
    exact hagrees.2.1

/-! ## Machines that run again -/

/-- The machine is intact before a run, after every step and at the end of the run, however it ends.
The watched run is the same as the one that is not watched: no index is out of bounds, and the
machine is intact between any two pieces of execution. -/
structure RunsIntact (code : Array Word) (cells : Nat) (m : Machine) (maxSteps : Option Nat) :
    Prop where
  before : Intact code cells m
  steps : ∀ n m', m.reset.after n = some m' → Intact code cells m' ∧ code.size + m'.depth = m'.sp
  behind : match run maxSteps m with
    | .ok status m' =>
      Watched.run maxSteps ⟨code, cells⟩ m = .ok status m' ∧ Intact code cells m'
    | .error e m' =>
      Watched.run maxSteps ⟨code, cells⟩ m = .error (.fault e) m' ∧ Intact code cells m'

section

variable {code : Array Word} {strings : StringPool} {input : Bytes} {config : MachineConfig}
  {m : Machine}

theorem Reused.intact (h : Reused code strings input config m) :
    Intact code config.stackCells m := by
  induction h with
  | load => exact intact_load code strings input config
  | @ended m m' maxSteps _ _ hrun ih =>
    have hagrees := run_agrees (p := ⟨code, config.stackCells⟩) maxSteps m ih
    rw [hrun] at hagrees
    exact hagrees.2.1
  | @failed m m' maxSteps _ _ hrun ih =>
    have hagrees := run_agrees (p := ⟨code, config.stackCells⟩) maxSteps m ih
    rw [hrun] at hagrees
    exact hagrees.2

/-- Whatever the code is, a machine is intact in every run. -/
theorem Reused.watched (h : Reused code strings input config m) (maxSteps : Option Nat) :
    RunsIntact code config.stackCells m maxSteps := by
  refine ⟨h.intact, fun n m' hafter => ?_, ?_⟩
  · have hm' := h.intact.reset.after hafter
    refine ⟨hm', ?_⟩
    rw [depth, hm'.codeLen]
    exact Nat.add_sub_cancel' hm'.sp.1
  · have hagrees := run_agrees (p := ⟨code, config.stackCells⟩) maxSteps m h.intact
    cases hrun : run maxSteps m with
    | ok status m' =>
      rw [hrun] at hagrees
      exact ⟨hagrees.1, hagrees.2.1⟩
    | error e m' =>
      rw [hrun] at hagrees
      exact hagrees

end

/-- Code that overwrites where its stack should end after a return: the run ends in a fault, and the
machine can run again. -/
theorem watched_forged :
    let code : Array Word :=
      #[Op.push.word, 4, Op.call.word, 0, Op.push.word, 1000, Op.poke.word, -1, Op.ret.word]
    ∃ e m, run none (load code .empty [] ⟨8, none, 0⟩) = .error e m ∧
      Reused code .empty [] ⟨8, none, 0⟩ m ∧ m.bp = 13 ∧ RunsIntact code 8 m none := by
  intro code
  have hfault : (match run none (load code .empty [] ⟨8, none, 0⟩) with
      | .error _ m => decide (m.bp = 13)
      | .ok _ _ => false) = true := by decide +kernel
  cases hrun : run none (load code .empty [] ⟨8, none, 0⟩) with
  | ok status m => simp [hrun] at hfault
  | error e m =>
    simp only [hrun, decide_eq_true_eq] at hfault
    have hm : Reused code .empty [] ⟨8, none, 0⟩ m := .failed .load hrun
    exact ⟨e, m, rfl, hm, hfault, hm.watched none⟩

end Machine

end StackLang
