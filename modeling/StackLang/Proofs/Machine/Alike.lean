import StackLang.Proofs.Machine.Keeping
import StackLang.Proofs.Machine.Steps

/-!
# Machines that are alike

Two machines that agree on their registers, on what they share with the outside and on some cells of
the stack do the same as long as only these cells are read.  The second machine may have more memory
than the first; then it may go on where the first finds none.

* `Machine.perform` — what an instruction does once its words have been fetched.
* `Op.reads` — the cells that an instruction reads.
* `Machine.Alike` — the machines agree on a set of cells.
* `Machine.Mirrors` — a piece of execution does the same on machines that are alike.
* `Machine.step_mirrors` — so does a step, provided that the cells that it reads agree.
-/

namespace StackLang

variable {op : Op} {f : Word → Word → Word} {B : Nat → Prop}

/-! ## Instructions without their words -/

namespace Machine

/-- What an instruction at `here` does once its words have been fetched; `w` is its operand. -/
def perform (here : Nat) (op : Op) (w : Word) : Exec Unit :=
  match op with
  | .push => push w
  | .peek => do
    push (← readCell (← frameAddress w))
  | .poke => do
    let address ← frameAddress w
    writeCell address (← pop)
  | .peekAt => do
    let index ← pop
    push (← readCell (← frameAddress (w + index)))
  | .pokeAt => do
    let index ← pop
    let value ← pop
    writeCell (← frameAddress (w + index)) value
  | .alloc => alloc w
  | .call => call w
  | .jump => jump w
  | .jumpZero => do
    if (← pop) = 0 then jump w
  | op => execute here op

/-- What a step gives behind an operation: the status if that was an exit. -/
def conclude (op : Op) : Exec (Option Word) :=
  if op = .exit then fun m => .ok (some m.status) m else return none

/-- The machine with another stack. -/
def withStack (m : Machine) (mem : Array Word) (sp : Nat) : Machine :=
  { m with mem := mem, sp := sp }

@[simp] theorem withStack_sp (m : Machine) (mem : Array Word) (sp : Nat) :
    (m.withStack mem sp).sp = sp := rfl

/-- The machine behind the words of an instruction. -/
def behind (m : Machine) (op : Op) : Machine :=
  { m with ip := m.ip + 1 + op.arity }

theorem execute_of_arity_zero (h : op.arity = 0) (here : Nat) (w : Word) :
    execute here op = perform here op w := by
  cases op <;> first | rfl | cases h

theorem execute_of_arity_one (h : op.arity = 1) (here : Nat) :
    execute here op = fetch >>= perform here op := by
  cases op <;> first | rfl | cases h

end Machine

theorem Op.arity_eq_zero_or_one (op : Op) : op.arity = 0 ∨ op.arity = 1 := by
  cases op <;> first | exact .inl rfl | exact .inr rfl

namespace Machine

variable {m m' : Machine} {op : Op}

theorem step_of_nextOp? (h : m.nextOp? = some op) :
    m.ip < m.codeLen ∧
      step m = (execute m.ip op >>= fun _ => conclude op) { m with ip := m.ip + 1 } := by
  rw [nextOp?] at h
  split at h
  · rename_i hlt
    refine ⟨hlt, ?_⟩
    have hfetch : fetch m = .ok (m.cell m.ip) { m with ip := m.ip + 1 } := by rw [fetch, if_pos hlt]
    rw [step, bind_of_ok (show getIp m = .ok m.ip m from rfl), bind_of_ok hfetch, h]
    rfl
  · cases h

/-- A step performs the next instruction from behind its words. -/
theorem step_of_operand (h : m.nextOp? = some op) (hlen : m.ip + op.arity < m.codeLen) :
    step m = (perform m.ip op (m.cell (m.ip + 1)) >>= fun _ => conclude op) (m.behind op) := by
  obtain ⟨-, hstep⟩ := step_of_nextOp? h
  rw [hstep, behind]
  rcases op.arity_eq_zero_or_one with harity | harity
  · rw [execute_of_arity_zero harity m.ip (m.cell (m.ip + 1)), harity]
  · have hlt : m.ip + 1 < m.codeLen := by omega
    have hfetch : fetch { m with ip := m.ip + 1 } =
        .ok (m.cell (m.ip + 1)) { m with ip := m.ip + 1 + 1 } := by
      rw [fetch]
      exact if_pos hlt
    rw [execute_of_arity_one harity, harity, bind_assoc, bind_of_ok hfetch]

end Machine

/-! ## The cells that an instruction reads -/

/-- The number of words on top of the stack that an operation reads. -/
def Op.pops : Op → Nat
  | push | peek | alloc | call | ret | jump | inInt | inFloat | inChar | inString => 0
  | not | pop | dup | poke | peekAt | intToFloat | floatToInt | retValue | exit | jumpZero | outInt
  | outFloat | outString | outChar | outBool | random => 1
  | _ => 2

/-- The machine reads the cell at `a` of the stack when it performs the operation; `w` is the
operand. -/
def Op.reads (op : Op) (m : Machine) (w : Word) (a : Nat) : Prop :=
  a < m.sp ∧ m.sp ≤ a + op.pops ∨ a < m.mem.size ∧
    match op with
    | .peek => (a : Int) = m.bp + w.toInt
    | .peekAt => (a : Int) = m.bp + (w + m.cell (m.sp - 1)).toInt
    | .call => (a : Int) = m.sp - (w.toInt + 1)
    | .ret | .retValue => a < m.bp ∧ m.bp ≤ a + 3
    | _ => False

/-- Whether an operation does more than to replace words on top of the stack. -/
def Op.isSpecial : Op → Bool
  | poke | alloc | call | ret | retValue | exit | jump | jumpZero => true
  | _ => false

theorem Op.of_binary? (h : op.binary? = some f) :
    op.arity = 0 ∧ op.pops = 2 ∧ op.isSpecial = false := by
  cases op <;> first | exact ⟨rfl, rfl, rfl⟩ | cases h

theorem Op.of_division? (h : op.division? = some f) :
    op.arity = 0 ∧ op.pops = 2 ∧ op.isSpecial = false := by
  cases op <;> first | exact ⟨rfl, rfl, rfl⟩ | cases h

theorem Op.of_unary? {f : Word → Word} (h : op.unary? = some f) :
    op.arity = 0 ∧ op.pops = 1 ∧ op.isSpecial = false := by
  cases op <;> first | exact ⟨rfl, rfl, rfl⟩ | cases h

theorem Op.of_text? {f : Word → String} (h : op.text? = some f) :
    op.arity = 0 ∧ op.pops = 1 ∧ op.isSpecial = false := by
  cases op <;> first | exact ⟨rfl, rfl, rfl⟩ | cases h

/-- The fault tells of a line of input. -/
def Fault.OfInput (e : Fault) : Prop :=
  e = .notText ∨ ∃ i, e = .invalidInput i

namespace Machine

/-! ## Machines that are alike -/

/-- The machines have the same registers, the same code and the same outside, and the cells of `A`
are the same in both.  The second may have more memory only if that is `wide`. -/
structure Alike (wide : Prop) (A : Nat → Prop) (m m' : Machine) : Prop where
  codeLen : m'.codeLen = m.codeLen
  ip : m'.ip = m.ip
  sp : m'.sp = m.sp
  bp : m'.bp = m.bp
  world : m'.world = m.world
  le : m.mem.size ≤ m'.mem.size
  size : ¬wide → m'.mem.size = m.mem.size
  code : ∀ a < m.codeLen, m'.cell a = m.cell a
  cells : ∀ a, A a → m'.cell a = m.cell a

section

variable {wide : Prop} {A : Nat → Prop} {m m' n : Machine} {w : Word} {a : Nat} {e : Fault}

theorem Alike.refl (wide : Prop) (A : Nat → Prop) (m : Machine) : Alike wide A m m :=
  ⟨rfl, rfl, rfl, rfl, rfl, Nat.le_refl _, fun _ => rfl, fun _ _ => rfl, fun _ _ => rfl⟩

/-- What the machines share with the outside, one by one. -/
theorem Alike.outside (h : Alike wide A m m') :
    m'.strings = m.strings ∧ m'.input = m.input ∧ m'.output = m.output ∧ m'.rng = m.rng := by
  simpa only [Machine.world, World.mk.injEq] using h.world

theorem Alike.weaken (h : Alike wide A m m') (hB : ∀ a, B a → A a) : Alike wide B m m' :=
  { h with cells := fun a ha => h.cells a (hB a ha) }

theorem Alike.fault (h : Alike wide A m m') (x : Int) : m'.fault x = m.fault x := by
  rw [Machine.fault, Machine.fault, h.ip]

/-- A word that is written to both machines is the same in both. -/
theorem Alike.write (h : Alike wide A m m') (ha : a < m.mem.size) (w : Word) :
    Alike wide (fun b => A b ∨ b = a) { m with mem := m.mem.setIfInBounds a w }
      { m' with mem := m'.mem.setIfInBounds a w } := by
  have hcell : ∀ b, ({ m with mem := m.mem.setIfInBounds a w } : Machine).cell b =
      if a = b then w else m.cell b := fun b => cell_setIfInBounds rfl ha
  have hcell' : ∀ b, ({ m' with mem := m'.mem.setIfInBounds a w } : Machine).cell b =
      if a = b then w else m'.cell b :=
    fun b => cell_setIfInBounds rfl (Nat.lt_of_lt_of_le ha h.le)
  refine ⟨h.codeLen, h.ip, h.sp, h.bp, h.world, by simpa using h.le, by simpa using h.size,
    fun b hb => ?_, fun b hb => ?_⟩
  · rw [hcell, hcell', h.code b hb]
  · rw [hcell, hcell']
    by_cases hab : a = b
    · rw [if_pos hab, if_pos hab]
    · rw [if_neg hab, if_neg hab]
      exact h.cells b (hb.resolve_right (Ne.symm hab))

/-! ## Pieces of execution -/

variable {α β : Type} {Q : α → Machine → (Nat → Prop) → Prop} {E : Fault → Machine → Prop}

/-- On a machine that is like `m`, the piece of execution does what it does on `m`, and leaves
machines that are alike.  If it fails on `m` for want of memory, a machine with more memory may go
on.  Results satisfy `Q`, faults satisfy `E`. -/
def Mirrors (wide : Prop) (A : Nat → Prop) (x : Exec α) (m : Machine)
    (Q : α → Machine → (Nat → Prop) → Prop) (E : Fault → Machine → Prop) : Prop :=
  ∀ m', Alike wide A m m' →
    match x m with
    | .ok a n => ∃ n' B, x m' = .ok a n' ∧ Alike wide B n n' ∧ Q a n B
    | .error e n =>
      E e n ∧ ((∃ n', x m' = .error e n' ∧ n'.world = n.world) ∨ wide ∧ ∃ ip a, e = .memory ip a)

theorem Mirrors.ok {x : Exec α} {a : α} (hx : x m = .ok a n)
    (hx' : ∀ m', Alike wide A m m' → ∃ n', x m' = .ok a n' ∧ Alike wide B n n') (hQ : Q a n B) :
    Mirrors wide A x m Q E := by
  intro m' h
  rw [hx]
  obtain ⟨n', hrun, hn⟩ := hx' m' h
  exact ⟨n', B, hrun, hn, hQ⟩

theorem Mirrors.error {x : Exec α} (hx : x m = .error e n)
    (hx' : ∀ m', Alike wide A m m' → ∃ n', x m' = .error e n' ∧ n'.world = n.world) (hE : E e n) :
    Mirrors wide A x m Q E := by
  intro m' h
  rw [hx]
  exact ⟨hE, .inl (hx' m' h)⟩

theorem Mirrors.pure {a : α} (hQ : Q a m A) : Mirrors wide A (pure a) m Q E :=
  .ok rfl (fun m' h => ⟨m', rfl, h⟩) hQ

theorem Mirrors.throw (hE : E e m) : Mirrors wide A (throw e : Exec α) m Q E :=
  .error rfl (fun m' h => ⟨m', rfl, h.world⟩) hE

theorem Mirrors.mono {x : Exec α} {R : α → Machine → (Nat → Prop) → Prop}
    {F : Fault → Machine → Prop} (h : Mirrors wide A x m Q E) (hQ : ∀ a n B, Q a n B → R a n B)
    (hE : ∀ e n, E e n → F e n) : Mirrors wide A x m R F := by
  intro m' hm
  have hx := h m' hm
  cases hrun : x m with
  | error e n =>
    rw [hrun] at hx
    exact ⟨hE e n hx.1, hx.2⟩
  | ok a n =>
    rw [hrun] at hx
    obtain ⟨n', B, hrun', hn, ha⟩ := hx
    exact ⟨n', B, hrun', hn, hQ a n B ha⟩

theorem Mirrors.ite {c : Prop} [Decidable c] {x y : Exec α} (hx : c → Mirrors wide A x m Q E)
    (hy : ¬c → Mirrors wide A y m Q E) : Mirrors wide A (if c then x else y) m Q E := by
  by_cases hc : c
  · rw [if_pos hc]
    exact hx hc
  · rw [if_neg hc]
    exact hy hc

theorem Mirrors.bind {x : Exec α} {f : α → Exec β} {R : β → Machine → (Nat → Prop) → Prop}
    (h : Mirrors wide A x m (fun a n B => Mirrors wide B (f a) n R E) E) :
    Mirrors wide A (x >>= f) m R E := by
  intro m' hm
  have hx := h m' hm
  cases hrun : x m with
  | error e n =>
    rw [hrun] at hx
    rw [bind_of_error hrun]
    refine ⟨hx.1, hx.2.imp_left ?_⟩
    rintro ⟨n', hrun', hn⟩
    exact ⟨n', bind_of_error hrun', hn⟩
  | ok a n =>
    rw [hrun] at hx
    obtain ⟨n', B, hrun', hn, hf⟩ := hx
    rw [bind_of_ok hrun, bind_of_ok hrun']
    exact hf n' hn

/-- Execution that finds no memory unless a condition holds. -/
theorem Mirrors.guarded {x y : Exec α} {c : Machine → Prop} [DecidablePred c]
    {address : Machine → Int}
    (hx : ∀ m, x m = if c m then y m else .error (m.fault (address m)) m)
    (hc : ∀ m', Alike wide A m m' → c m → c m')
    (hc' : ∀ m', Alike wide A m m' → m'.mem.size = m.mem.size → c m' → c m)
    (haddress : ∀ m', Alike wide A m m' → address m' = address m)
    (hy : c m → Mirrors wide A y m Q E) (hE : ¬c m → ∀ x, E (m.fault x) m) :
    Mirrors wide A x m Q E := by
  intro m' h
  rw [hx, hx]
  by_cases hm : c m
  · rw [if_pos hm, if_pos (hc m' h hm)]
    exact hy hm m' h
  · rw [if_neg hm]
    refine ⟨hE hm _, ?_⟩
    by_cases hwide : wide
    · exact .inr ⟨hwide, _, _, rfl⟩
    · rw [if_neg fun hm' => hm (hc' m' h (h.size hwide) hm'), h.fault, haddress m' h]
      exact .inl ⟨m', rfl, h.world⟩

/-! ### The stack -/

section

variable {Q : Unit → Machine → (Nat → Prop) → Prop} {w : Word}

theorem Mirrors.push
    (hQ : ∀ mem, mem.size = m.mem.size → m.sp < m.mem.size → Q () (m.withStack mem (m.sp + 1)) fun
      a => A a ∨ a = m.sp) (hE : ¬m.sp < m.mem.size → ∀ x, E (m.fault x) m) :
    Mirrors wide A (push w) m Q E := by
  refine .guarded (fun _ => rfl) (fun m' h hlt => ?_) (fun m' h hsize hlt => ?_)
    (fun m' h => by rw [h.sp])
    (fun hlt => .ok rfl (fun m' h => ⟨_, rfl, ?_⟩) (hQ _ Array.size_setIfInBounds hlt)) hE
  · rw [h.sp]
    exact Nat.lt_of_lt_of_le hlt h.le
  · rwa [h.sp, hsize] at hlt
  · rw [h.sp]
    exact { h.write hlt w with sp := rfl }

theorem Mirrors.writeCell (ha : a < m.mem.size)
    (hQ : ∀ mem, Q () (m.withStack mem m.sp) fun b => A b ∨ b = a) :
    Mirrors wide A (writeCell a w) m Q E :=
  .ok rfl (fun _ h => ⟨_, rfl, h.write ha w⟩) (hQ _)

theorem Mirrors.alloc (hQ : ∀ top, Q () (m.withStack m.mem top) A) (hE : ∀ x, E (m.fault x) m) :
    Mirrors wide A (alloc w) m Q E := by
  refine .guarded (fun _ => rfl) (fun m' h => by simp only [h.sp, imp_self])
    (fun m' h _ => by simp only [h.sp, imp_self]) (fun _ _ => rfl) (fun _ => ?_) fun _ => hE
  refine .guarded (fun _ => rfl) (fun m' h hlt => ?_) (fun m' h hsize hlt => ?_)
    (fun m' h => by rw [h.sp]) (fun hlt => .ok rfl (fun m' h => ⟨_, rfl, ?_⟩) (hQ _)) fun _ => hE
  · have := h.le
    rw [h.sp]
    omega
  · rwa [h.sp, hsize] at hlt
  · exact { h with sp := by simp only [h.sp] }

theorem Mirrors.setSp (hQ : ∀ top, top < m.mem.size → Q () (m.withStack m.mem top) A)
    (hE : ∀ x, E (m.fault x) m) : Mirrors wide A (setSp w) m Q E := by
  refine .guarded (fun _ => rfl) (fun m' h hlt => ?_) (fun m' h hsize hlt => ?_) (fun _ _ => rfl)
    (fun hlt => .ok rfl (fun m' h => ⟨_, rfl, ?_⟩) (hQ _ ?_)) fun _ => hE
  · have := h.le
    simp only [inStack_iff, h.codeLen] at hlt ⊢
    omega
  · rwa [inStack, h.codeLen, hsize] at hlt
  · exact { h with sp := rfl }
  · rw [inStack_iff] at hlt
    omega

theorem Mirrors.setBp (hQ : ∀ base, Q () { m with bp := base } A) (hE : ∀ x, E (m.fault x) m) :
    Mirrors wide A (setBp w) m Q E := by
  refine .guarded (fun _ => rfl) (fun m' h hlt => ?_) (fun m' h hsize hlt => ?_) (fun _ _ => rfl)
    (fun hlt => .ok rfl (fun m' h => ⟨_, rfl, { h with bp := rfl }⟩) (hQ _)) fun _ => hE
  · have := h.le
    rw [h.codeLen]
    omega
  · rwa [h.codeLen, hsize] at hlt

theorem Mirrors.enterFrame (hQ : Q () { m with bp := m.sp } A) :
    Mirrors wide A enterFrame m Q E :=
  .ok rfl (fun _ h => ⟨_, rfl, { h with bp := h.sp }⟩) hQ

theorem Mirrors.jump (hQ : ∀ t, w.toIndex? = some t → Q () { m with ip := t } A)
    (hE : ∀ x, E (m.fault x) m) : Mirrors wide A (jump w) m Q E := by
  unfold Machine.jump
  cases hw : w.toIndex? with
  | none =>
    refine .error rfl (fun m' h => ⟨m', ?_, h.world⟩) (hE _)
    rw [h.fault]
  | some t =>
    simp only
    refine .guarded (fun _ => rfl) (fun m' h hlt => ?_) (fun m' h _ hlt => ?_) (fun _ _ => rfl)
      (fun _ => .ok rfl (fun m' h => ⟨_, rfl, { h with ip := rfl }⟩) (hQ t hw)) fun _ => hE
    · rwa [h.codeLen]
    · rwa [h.codeLen] at hlt

theorem Mirrors.write {s : String} (hQ : Q () { m with output := m.output ++ s } A) :
    Mirrors wide A (write s) m Q E := by
  refine .ok rfl (fun m' h => ⟨_, rfl, { h with world := ?_ }⟩) hQ
  obtain ⟨hstrings, hinput, houtput, hrng⟩ := h.outside
  simp only [Machine.world, hstrings, hinput, houtput, hrng]

end

section

variable {Q : Word → Machine → (Nat → Prop) → Prop}

theorem Mirrors.pop
    (hQ : m.codeLen < m.sp →
      A (m.sp - 1) ∧ Q (m.cell (m.sp - 1)) (m.withStack m.mem (m.sp - 1)) A)
    (hE : ∀ x, E (m.fault x) m) : Mirrors wide A pop m Q E := by
  refine .guarded (fun _ => rfl) (fun m' h hlt => ?_) (fun m' h _ hlt => ?_)
    (fun m' h => by rw [h.sp]) (fun hlt => .ok rfl (fun m' h => ?_) (hQ hlt).2) fun _ => hE
  · rwa [h.codeLen, h.sp]
  · rwa [h.codeLen, h.sp] at hlt
  · refine ⟨{ m' with sp := m'.sp - 1 }, ?_, { h with sp := by simp only [h.sp] }⟩
    rw [h.sp, h.cells _ (hQ hlt).1]

theorem Mirrors.fetch (hQ : m.ip < m.codeLen → Q (m.cell m.ip) { m with ip := m.ip + 1 } A)
    (hE : ∀ x, E (m.fault x) m) : Mirrors wide A fetch m Q E := by
  refine .guarded (fun _ => rfl) (fun m' h hlt => ?_) (fun m' h _ hlt => ?_)
    (fun m' h => by rw [h.ip]) (fun hlt => .ok rfl (fun m' h => ?_) (hQ hlt)) fun _ => hE
  · rwa [h.codeLen, h.ip]
  · rwa [h.codeLen, h.ip] at hlt
  · refine ⟨{ m' with ip := m'.ip + 1 }, ?_, { h with ip := by simp only [h.ip] }⟩
    rw [h.ip, h.code _ hlt]

theorem Mirrors.readCell (ha : A a) (hQ : Q (m.cell a) m A) : Mirrors wide A (readCell a) m Q E :=
  .ok rfl (fun m' h => ⟨m', by rw [Machine.readCell, h.cells a ha], h⟩) hQ

theorem Mirrors.random (hQ : ∀ state, Q (randomBelow state w) { m with rng := state } A) :
    Mirrors wide A (random w) m Q E := by
  obtain ⟨state, hstate⟩ : ∃ state, nextRandom m.rng = state := ⟨_, rfl⟩
  have hrun : Machine.random w m = .ok (randomBelow state w) { m with rng := state } := by
    rw [Machine.random, hstate]
  refine .ok hrun (fun m' h => ⟨{ m' with rng := state }, ?_, { h with world := ?_ }⟩) (hQ state)
  · rw [Machine.random, h.outside.2.2.2, hstate]
  · obtain ⟨hstrings, hinput, houtput, -⟩ := h.outside
    simp only [Machine.world, hstrings, hinput, houtput]

end

section

variable {Q : Nat → Machine → (Nat → Prop) → Prop}

theorem Mirrors.getIp (hQ : Q m.ip m A) : Mirrors wide A getIp m Q E :=
  .ok rfl (fun m' h => ⟨m', by rw [Machine.getIp, h.ip], h⟩) hQ

theorem Mirrors.getBp (hQ : Q m.bp m A) : Mirrors wide A getBp m Q E :=
  .ok rfl (fun m' h => ⟨m', by rw [Machine.getBp, h.bp], h⟩) hQ

theorem Mirrors.stackAddress {x : Int}
    (hQ : ∀ a : Nat, (a : Int) = x → a < m.mem.size → Q a m A) (hE : ∀ x, E (m.fault x) m) :
    Mirrors wide A (stackAddress x) m Q E := by
  refine .guarded (fun _ => rfl) (fun m' h hlt => ?_) (fun m' h hsize hlt => ?_) (fun _ _ => rfl)
    (fun hlt => .ok rfl (fun m' h => ⟨m', rfl, h⟩) (hQ _ ?_ ?_)) fun _ => hE
  · have := h.le
    simp only [inStack_iff, h.codeLen] at hlt ⊢
    omega
  · rwa [inStack, h.codeLen, hsize] at hlt
  · rw [inStack_iff] at hlt
    omega
  · rw [inStack_iff] at hlt
    omega

theorem Mirrors.frameAddress
    (hQ : ∀ a : Nat, (a : Int) = m.bp + w.toInt → a < m.mem.size → Q a m A)
    (hE : ∀ x, E (m.fault x) m) : Mirrors wide A (frameAddress w) m Q E := by
  refine .guarded (y := fun n => Machine.stackAddress (n.bp + w.toInt) n) (fun _ => rfl)
    (fun m' h => by simp only [h.bp, imp_self]) (fun m' h _ => by simp only [h.bp, imp_self])
    (fun _ _ => rfl) (fun _ m' h => ?_) fun _ => hE
  have hmirrors := Mirrors.stackAddress hQ hE m' h
  simp only [h.bp]
  exact hmirrors

theorem Mirrors.targetCell
    (hQ : ∀ a : Nat, (a : Int) = m.sp - (w.toInt + 1) → a < m.mem.size → Q a m A)
    (hE : ∀ x, E (m.fault x) m) : Mirrors wide A (targetCell w) m Q E := by
  refine .guarded (y := fun n => Machine.stackAddress (n.sp - (w.toInt + 1)) n) (fun _ => rfl)
    (fun _ _ => id) (fun _ _ _ => id) (fun _ _ => rfl) (fun _ m' h => ?_) fun _ => hE
  have hmirrors := Mirrors.stackAddress hQ hE m' h
  simp only [h.sp]
  exact hmirrors

end

/-! ### Strings and input -/

theorem Mirrors.stringOf {here : Nat} {Q : String → Machine → (Nat → Prop) → Prop}
    (hQ : ∀ s, Q s m A) (hE : E (.unknownString here w) m) :
    Mirrors wide A (stringOf here w) m Q E := by
  unfold Machine.stringOf
  cases hs : m.strings.get? w with
  | none => exact .error (by rw [hs]) (fun m' h => ⟨m', by rw [h.outside.1, hs], h.world⟩) hE
  | some s => exact .ok (by rw [hs]) (fun m' h => ⟨m', by rw [h.outside.1, hs], h⟩) (hQ s)

theorem Mirrors.readLine {Q : String → Machine → (Nat → Prop) → Prop}
    (hQ : ∀ s input, Q s { m with input := input } A)
    (hE : ∀ e input, e.OfInput → E e { m with input := input }) :
    Mirrors wide A readLine m Q E := by
  intro m' h
  obtain ⟨hstrings, hinput, houtput, hrng⟩ := h.outside
  unfold Machine.readLine
  rw [hinput]
  by_cases hline : (takeLine m.input).1.isEmpty = true
  · simp only [if_pos hline]
    exact ⟨hE _ m.input (.inr ⟨_, rfl⟩), .inl ⟨m', rfl, h.world⟩⟩
  · simp only [if_neg hline]
    have hworld : ({ m' with input := (takeLine m.input).2 } : Machine).world =
        ({ m with input := (takeLine m.input).2 } : Machine).world := by
      simp only [Machine.world, hstrings, houtput, hrng]
    cases Text.ofUtf8? (takeLine m.input).1 with
    | none => exact ⟨hE _ _ (.inl rfl), .inl ⟨_, rfl, hworld⟩⟩
    | some s => exact ⟨_, A, rfl, { h with world := hworld }, hQ _ _⟩

theorem Mirrors.readOf {type : ValueType} {Q : Word → Machine → (Nat → Prop) → Prop}
    (hQ : ∀ w input strings, Q w { m with input := input, strings := strings } A)
    (hE : ∀ e input, e.OfInput → E e { m with input := input }) :
    Mirrors wide A (readOf type) m Q E := by
  have hvalue : ∀ read? error, Mirrors wide A (readValue read? error) m Q E := fun read? error => by
    refine .bind (.readLine (fun line input => ?_) hE)
    cases read? line with
    | none => exact .throw (hE _ _ (.inr ⟨_, rfl⟩))
    | some w => exact .pure (hQ w input m.strings)
  cases type with
  | string =>
    refine .bind (.readLine (fun line input => ?_) hE)
    refine .ok (n := { m with input := input, strings := (m.strings.intern line).2 }) rfl
      (fun m' h => ?_) (hQ (m.strings.intern line).1 _ _)
    obtain ⟨hstrings, hinput, houtput, hrng⟩ := h.outside
    refine ⟨{ m' with strings := (m.strings.intern line).2 }, ?_, { h with world := ?_ }⟩
    · rw [← hstrings]
      rfl
    · simp only [Machine.world, hinput, houtput, hrng]
  | _ => exact hvalue _ _

end

end Machine

/-! ## Instructions -/

/-- What holds behind an operation with operand `w` that was performed on `m` and led to `n`, where
the machines agreed on `A` before and agree on `B` now. -/
structure Op.Ends (op : Op) (w : Word) (A : Nat → Prop) (m n : Machine) (B : Nat → Prop) :
    Prop where
  keeps : ∀ a, A a → B a
  /-- Words that were put on the stack are known. -/
  pushed : op ≠ .alloc → op ≠ .ret → op ≠ .retValue → ∀ a, m.sp ≤ a → a < n.sp → B a
  result : op = .retValue → ∀ a, a + 1 = n.sp → B a
  poked : op = .poke → ∀ a : Nat, (a : Int) = m.bp + w.toInt → B a
  exit : op = .exit → n.sp = m.sp
  output : ∃ s, n.output = m.output ++ s
  next : op ≠ .call → op ≠ .ret → op ≠ .retValue →
    n.ip = m.ip ∧ op ≠ .jump ∨ op.isJump = true ∧ w.toIndex? = some n.ip

theorem Op.Ends.of_not_special {w : Word} {A : Nat → Prop} {m n : Machine}
    (hop : op.isSpecial = false) (hkeeps : ∀ a, A a → B a)
    (hpushed : ∀ a, m.sp ≤ a → a < n.sp → B a) (houtput : ∃ s, n.output = m.output ++ s)
    (hip : n.ip = m.ip) : op.Ends w A m n B := by
  refine ⟨hkeeps, fun _ _ _ => hpushed, ?_, ?_, ?_, houtput, fun _ _ _ => .inl ⟨hip, ?_⟩⟩
  · rintro rfl
    cases hop
  · rintro rfl
    cases hop
  · rintro rfl
    cases hop
  · rintro rfl
    cases hop

namespace Machine

/-- What holds of a fault of an operation that was performed on `m`: nothing was written, and the
operation was known. -/
structure Stops (m : Machine) (e : Fault) (n : Machine) : Prop where
  ip : n.ip = m.ip
  output : n.output = m.output
  known : ∀ ip w, e ≠ .unknownOp ip w

section

variable {wide : Prop} {A : Nat → Prop} {m n : Machine} {op : Op} {w : Word}
  {Q : Unit → Machine → (Nat → Prop) → Prop} {E : Fault → Machine → Prop}

theorem stops_fault (hip : n.ip = m.ip) (houtput : n.output = m.output) (x : Int) :
    Stops m (n.fault x) n :=
  ⟨hip, houtput, nofun⟩

/-- A return reads the three words below the base. -/
theorem ret_mirrors (hreads : ∀ a < m.mem.size, a < m.bp ∧ m.bp ≤ a + 3 → A a)
    (hQ : ∀ ip top base, top < m.mem.size → Q () { m with ip := ip, sp := top, bp := base } A)
    (hE : ∀ top base x, E (m.fault x) { m with sp := top, bp := base }) :
    Mirrors wide A ret m Q E := by
  have hread : ∀ k : Word, k.toInt < 0 → -3 ≤ k.toInt → ∀ f : Word → Exec Unit,
      (∀ v, Mirrors wide A (f v) m Q E) →
        Mirrors wide A (frameAddress k >>= fun a => readCell a >>= f) m Q E := by
    intro k hneg hge f hf
    refine .bind
      (.frameAddress (fun a ha hlt => .bind (.readCell (hreads a hlt ?_) (hf _))) (hE _ _))
    omega
  refine hread (-3) (by decide) (by decide) _ fun ip => ?_
  refine hread (-2) (by decide) (by decide) _ fun base => ?_
  refine hread (-1) (by decide) (by decide) _ fun top => ?_
  refine .bind (.setSp (fun top htop => ?_) (hE _ _))
  refine .bind (.setBp (fun base => ?_) (hE _ _))
  exact .jump (fun t _ => hQ t top base htop) (hE _ _)

theorem call_mirrors (hreads : ∀ a, Op.reads .call m w a → A a) :
    Mirrors wide A (call w) m (fun _ n B => Op.Ends .call w A m n B) (Stops m) := by
  refine .bind (.targetCell (fun cell hcell hlt => ?_) (stops_fault rfl rfl))
  refine .bind (.readCell (hreads cell (.inr ⟨hlt, hcell⟩)) ?_)
  refine .bind (.getIp (.bind (.push (fun _ _ _ => ?_) fun _ => stops_fault rfl rfl)))
  refine .bind (.getBp (.bind (.push (fun _ _ _ => ?_) fun _ => stops_fault rfl rfl)))
  refine .bind (.push (fun _ _ _ => ?_) fun _ => stops_fault rfl rfl)
  refine .bind (.enterFrame (.jump (fun t _ => ?_) (stops_fault rfl rfl)))
  refine ⟨fun a ha => .inl (.inl (.inl ha)), fun _ _ _ a hle hlt => ?_, nofun, nofun, nofun,
    ⟨"", ?_⟩, fun h => absurd rfl h⟩
  · simp only [withStack_sp] at hlt ⊢
    omega
  · exact (String.append_empty).symm

/-- An operation that replaces words on top of the stack by words, and says nothing. -/
theorem ends_of_pushed (hop : op.isSpecial = false) (hkeeps : ∀ a, A a → B a)
    (hpushed : ∀ a, m.sp ≤ a → a < n.sp → B a) (hip : n.ip = m.ip) (houtput : n.output = m.output) :
    op.Ends w A m n B :=
  .of_not_special hop hkeeps hpushed ⟨"", by simp [houtput]⟩ hip

/-- The last word of such an operation is pushed. -/
theorem push_mirrors {v : Word} (hop : op.isSpecial = false) (hkeeps : ∀ a, A a → B a)
    (hsp : n.sp ≤ m.sp) (hip : n.ip = m.ip) (houtput : n.output = m.output) :
    Mirrors wide B (push v) n (fun _ n B => op.Ends w A m n B) (Stops m) := by
  refine .push (fun mem _ _ => ?_) fun _ => stops_fault hip houtput
  refine ends_of_pushed hop (fun a ha => .inl (hkeeps a ha)) (fun a hle hlt => .inr ?_) hip houtput
  rw [withStack_sp] at hlt
  omega

theorem reading_mirrors (type : ValueType) (hop : op.isSpecial = false) :
    Mirrors wide A (readOf type >>= push) m (fun _ n B => op.Ends w A m n B) (Stops m) := by
  refine .bind (.readOf (fun v input strings => ?_) fun e input he => ⟨rfl, rfl, ?_⟩)
  · exact push_mirrors hop (fun _ => id) (Nat.le_refl _) rfl rfl
  · rintro ip v rfl
    rcases he with he | ⟨i, he⟩ <;> cases he

/-- The operations that neither compute nor print a word. -/
theorem control_mirrors (here : Nat) (hreads : ∀ a, op.reads m w a → A a) (hb : op.binary? = none)
    (hd : op.division? = none) (hu : op.unary? = none) (ht : op.text? = none) :
    Mirrors wide A (perform here op w) m (fun _ n B => op.Ends w A m n B) (Stops m) := by
  have hpop : ∀ i < op.pops, m.codeLen < m.sp - i → A (m.sp - i - 1) := fun i hi hlt =>
    hreads _ (.inl (by omega))
  cases op with
  | pop =>
    refine .bind (.pop (fun h₁ => ⟨hpop 0 (by decide) h₁, .pure ?_⟩) (stops_fault rfl rfl))
    refine ends_of_pushed rfl (fun _ => id) (fun a _ _ => ?_) rfl rfl
    simp only [withStack_sp] at *
    omega
  | dup =>
    refine .bind (.pop (fun h₁ => ⟨hpop 0 (by decide) h₁, ?_⟩) (stops_fault rfl rfl))
    refine .bind (.push (fun _ _ _ => ?_) fun _ => stops_fault rfl rfl)
    refine push_mirrors rfl (fun _ => .inl) ?_ rfl rfl
    rw [withStack_sp, withStack_sp]
    omega
  | push =>
    exact push_mirrors rfl (fun _ => id) (Nat.le_refl _) rfl rfl
  | peek =>
    refine .bind (.frameAddress (fun a ha hlt => ?_) (stops_fault rfl rfl))
    refine .bind (.readCell (hreads a (.inr ⟨hlt, ha⟩)) ?_)
    exact push_mirrors rfl (fun _ => id) (Nat.le_refl _) rfl rfl
  | poke =>
    refine .bind (.frameAddress (fun a ha hlt => ?_) (stops_fault rfl rfl))
    refine .bind (.pop (fun h₁ => ⟨hpop 0 (by decide) h₁, ?_⟩) (stops_fault rfl rfl))
    refine .writeCell hlt fun mem =>
      ⟨fun _ => .inl, fun _ _ _ b _ _ => ?_, nofun, fun _ b hb => .inr ?_,
        nofun, ⟨"", String.append_empty.symm⟩, fun _ _ _ => .inl ⟨rfl, nofun⟩⟩
    · simp only [withStack_sp] at *
      omega
    · omega
  | peekAt =>
    refine .bind (.pop (fun h₁ => ⟨hpop 0 (by decide) h₁, ?_⟩) (stops_fault rfl rfl))
    refine .bind (.frameAddress (fun a ha hlt => ?_) (stops_fault rfl rfl))
    refine .bind (.readCell (hreads a (.inr ⟨hlt, ha⟩)) ?_)
    exact push_mirrors rfl (fun _ => id) (Nat.sub_le _ _) rfl rfl
  | pokeAt =>
    refine .bind (.pop (fun h₁ => ⟨hpop 0 (by decide) h₁, ?_⟩) (stops_fault rfl rfl))
    refine .bind (.pop (fun h₂ => ⟨hpop 1 (by decide) h₂, ?_⟩) (stops_fault rfl rfl))
    refine .bind (.frameAddress (fun a ha hlt => ?_) (stops_fault rfl rfl))
    refine .writeCell hlt fun mem => ends_of_pushed rfl (fun _ => .inl) (fun b _ _ => ?_) rfl rfl
    simp only [withStack_sp] at *
    omega
  | alloc =>
    refine .alloc (fun top => ⟨fun _ => id, fun h => absurd rfl h, nofun, nofun, nofun,
      ⟨"", String.append_empty.symm⟩, fun _ _ _ => .inl ⟨rfl, nofun⟩⟩) (stops_fault rfl rfl)
  | call => exact call_mirrors hreads
  | ret =>
    refine ret_mirrors (fun a hlt ha => hreads a (.inr ⟨hlt, ha⟩)) (fun ip top base _ => ?_)
      fun _ _ _ => ⟨rfl, rfl, nofun⟩
    exact ⟨fun _ => id, fun _ h => absurd rfl h, nofun, nofun, nofun,
      ⟨"", String.append_empty.symm⟩, fun _ h => absurd rfl h⟩
  | retValue =>
    refine .bind (.pop (fun h₁ => ⟨hpop 0 (by decide) h₁, ?_⟩) (stops_fault rfl rfl))
    refine .bind
      (ret_mirrors (fun a hlt ha => hreads a (.inr ⟨hlt, ha⟩)) (fun ip top base htop => ?_)
        fun _ _ _ => ⟨rfl, rfl, nofun⟩)
    -- There is room for the result: the top that the return sets is inside the memory.
    refine .push (fun _ _ _ => ?_) fun hfull => absurd htop hfull
    refine ⟨fun _ => .inl, fun _ _ h => absurd rfl h, fun _ a ha => .inr ?_, nofun, nofun,
      ⟨"", String.append_empty.symm⟩, fun _ _ h => absurd rfl h⟩
    simpa using ha
  | exit =>
    exact .pure ⟨fun _ => id, fun _ _ _ a hle hlt => absurd hlt (Nat.not_lt.mpr hle), nofun, nofun,
      fun _ => rfl, ⟨"", String.append_empty.symm⟩, fun _ _ _ => .inl ⟨rfl, nofun⟩⟩
  | jump =>
    refine .jump (fun t ht => ⟨fun _ => id, fun _ _ _ a hle hlt => absurd hlt (Nat.not_lt.mpr hle),
      nofun, nofun, nofun, ⟨"", String.append_empty.symm⟩, fun _ _ _ => .inr ⟨rfl, ht⟩⟩)
      (stops_fault rfl rfl)
  | jumpZero =>
    refine .bind (.pop (fun h₁ => ⟨hpop 0 (by decide) h₁, ?_⟩) (stops_fault rfl rfl))
    have hpushed : ∀ a, m.sp ≤ a → a < m.sp - 1 → A a := fun a _ _ => by omega
    refine .ite (fun _ => .jump (fun t ht => ?_) (stops_fault rfl rfl)) fun _ => .pure ?_
    · exact ⟨fun _ => id, fun _ _ _ => hpushed, nofun, nofun, nofun, ⟨"", String.append_empty.symm⟩,
        fun _ _ _ => .inr ⟨rfl, ht⟩⟩
    · exact ⟨fun _ => id, fun _ _ _ => hpushed, nofun, nofun, nofun, ⟨"", String.append_empty.symm⟩,
        fun _ _ _ => .inl ⟨rfl, nofun⟩⟩
  | outString =>
    refine .bind (.pop (fun h₁ => ⟨hpop 0 (by decide) h₁, ?_⟩) (stops_fault rfl rfl))
    refine .bind (.stringOf (fun s => ?_) ⟨rfl, rfl, nofun⟩)
    refine .write (.of_not_special rfl (fun _ => id) (fun a _ _ => ?_) ⟨_, rfl⟩ rfl)
    simp only [withStack_sp] at *
    omega
  | inInt => exact reading_mirrors .int rfl
  | inFloat => exact reading_mirrors .float rfl
  | inChar => exact reading_mirrors .char rfl
  | inString => exact reading_mirrors .string rfl
  | random =>
    refine .bind (.pop (fun h₁ => ⟨hpop 0 (by decide) h₁, ?_⟩) (stops_fault rfl rfl))
    refine .bind (.random fun state => ?_)
    exact push_mirrors rfl (fun _ => id) (Nat.sub_le _ _) rfl rfl
  | div | mod => cases hd
  | not | intToFloat | floatToInt => cases hu
  | outInt | outFloat | outChar | outBool => cases ht
  | _ => cases hb

/-- What an instruction reads must be known. -/
theorem perform_mirrors (here : Nat) (hreads : ∀ a, op.reads m w a → A a) :
    Mirrors wide A (perform here op w) m (fun _ n B => op.Ends w A m n B) (Stops m) := by
  have hpop : ∀ i < op.pops, m.codeLen < m.sp - i → A (m.sp - i - 1) := fun i hi hlt =>
    hreads _ (.inl (by omega))
  cases hb : op.binary? with
  | some f =>
    obtain ⟨harity, hpops, hspecial⟩ := Op.of_binary? hb
    rw [← execute_of_arity_zero harity, execute_binary hb]
    refine .bind (.pop (fun h₁ => ⟨hpop 0 (by omega) h₁, ?_⟩) (stops_fault rfl rfl))
    refine .bind (.pop (fun h₂ => ⟨hpop 1 (by omega) h₂, ?_⟩) (stops_fault rfl rfl))
    refine push_mirrors hspecial (fun _ => id) ?_ rfl rfl
    rw [withStack_sp, withStack_sp]
    omega
  | none => ?_
  cases hd : op.division? with
  | some f =>
    obtain ⟨harity, hpops, hspecial⟩ := Op.of_division? hd
    rw [← execute_of_arity_zero harity, execute_division hd]
    refine .bind (.pop (fun h₁ => ⟨hpop 0 (by omega) h₁, ?_⟩) (stops_fault rfl rfl))
    refine .bind (.pop (fun h₂ => ⟨hpop 1 (by omega) h₂, ?_⟩) (stops_fault rfl rfl))
    refine .ite (fun _ => .bind (.throw ⟨rfl, rfl, nofun⟩)) fun _ => ?_
    refine push_mirrors hspecial (fun _ => id) ?_ rfl rfl
    rw [withStack_sp, withStack_sp]
    omega
  | none => ?_
  cases hu : op.unary? with
  | some f =>
    obtain ⟨harity, hpops, hspecial⟩ := Op.of_unary? hu
    rw [← execute_of_arity_zero harity, execute_unary hu]
    refine .bind (.pop (fun h₁ => ⟨hpop 0 (by omega) h₁, ?_⟩) (stops_fault rfl rfl))
    exact push_mirrors hspecial (fun _ => id) (Nat.sub_le _ _) rfl rfl
  | none => ?_
  cases ht : op.text? with
  | some f =>
    obtain ⟨harity, hpops, hspecial⟩ := Op.of_text? ht
    rw [← execute_of_arity_zero harity, execute_text ht]
    refine .bind (.pop (fun h₁ => ⟨hpop 0 (by omega) h₁, ?_⟩) (stops_fault rfl rfl))
    refine .write (.of_not_special hspecial (fun _ => id) (fun a _ _ => ?_) ⟨_, rfl⟩ rfl)
    simp only [withStack_sp] at *
    omega
  | none => ?_
  exact control_mirrors here hreads hb hd hu ht

/-! ## Steps -/

theorem status_mirrors {Q : Option Word → Machine → (Nat → Prop) → Prop}
    (htop : m.codeLen < m.sp → A (m.sp - 1)) (hQ : Q (some m.status) m A) :
    Mirrors wide A (fun m => .ok (some m.status) m) m Q E := by
  refine .ok rfl (fun m' h => ⟨m', ?_, h⟩) hQ
  have hstatus : m'.status = m.status := by
    rw [status, status, h.codeLen, h.sp]
    by_cases hlt : m.codeLen < m.sp
    · rw [if_pos hlt, if_pos hlt, h.cells _ (htop hlt)]
    · rw [if_neg hlt, if_neg hlt]
  rw [hstatus]

/-- The words of an instruction are fetched, and it is performed. -/
theorem execute_mirrors
    (hperform : m.ip + op.arity < m.codeLen → Mirrors wide A (perform m.ip op (m.cell (m.ip + 1)))
      (m.behind op) Q E) (hE : ∀ x, E (.memory (m.ip + 1) x) { m with ip := m.ip + 1 })
    (hlt : m.ip < m.codeLen) : Mirrors wide A (execute m.ip op) { m with ip := m.ip + 1 } Q E := by
  rcases op.arity_eq_zero_or_one with harity | harity
  · rw [execute_of_arity_zero harity m.ip (m.cell (m.ip + 1))]
    have := hperform (by omega)
    rwa [behind, harity] at this
  · rw [execute_of_arity_one harity]
    refine .bind (.fetch (fun hlt' => ?_) hE)
    have := hperform (by rw [harity]; exact hlt')
    rwa [behind, harity] at this

/-- A step does the same on machines that agree on the cells that it reads. -/
theorem step_mirrors
    (hreads : ∀ op, m.nextOp? = some op → ∀ a, op.reads m (m.cell (m.ip + 1)) a → A a) :
    Mirrors wide A step m
      (fun _ n B => ∃ op, m.nextOp? = some op ∧ m.ip + op.arity < m.codeLen ∧
        op.Ends (m.cell (m.ip + 1)) A (m.behind op) n B)
      fun _ n => n.output = m.output := by
  refine .bind (.getIp (.bind (.fetch (fun hlt => ?_) fun _ => rfl)))
  cases hop : Op.ofWord? (m.cell m.ip) with
  | none => exact .throw rfl
  | some op =>
    have hnext : m.nextOp? = some op := by rw [nextOp?, if_pos hlt, hop]
    refine .bind (execute_mirrors (fun hlen => ?_) (fun _ => rfl) hlt)
    refine (perform_mirrors (m := m.behind op) m.ip (hreads op hnext)).mono (fun _ n B h => ?_)
      fun _ _ h => h.output
    refine .ite (fun hexit => ?_) fun _ => .pure ⟨op, hnext, hlen, h⟩
    refine status_mirrors (fun htop => ?_) ⟨op, hnext, hlen, h⟩
    have hsp : n.sp = m.sp := h.exit hexit
    subst hexit
    exact h.keeps _ (hreads _ hnext _ (.inl ⟨by omega, by rw [Op.pops]; omega⟩))

/-- What holds behind every step that does not fail. -/
theorem step_ends {r : Option Word} (h : step m = .ok r n) :
    ∃ op B, m.nextOp? = some op ∧
      op.Ends (m.cell (m.ip + 1)) (fun _ => True) (m.behind op) n B := by
  have hmirrors := step_mirrors (A := fun _ => True) (fun _ _ _ _ => trivial) m (.refl False _ m)
  rw [h] at hmirrors
  obtain ⟨_, B, _, _, op, hop, _, hends⟩ := hmirrors
  exact ⟨op, B, hop, hends⟩

/-- A step that fails writes nothing. -/
theorem output_of_step_error {e : Fault} (h : step m = .error e n) : n.output = m.output := by
  have hmirrors := step_mirrors (A := fun _ => True) (fun _ _ _ _ => trivial) m (.refl False _ m)
  rw [h] at hmirrors
  exact hmirrors.1

end

end Machine

end StackLang
