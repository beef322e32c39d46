import StackLang.Proofs.Machine.View

/-!
# Machines stay intact

Whatever a machine executes, its memory keeps its size, the code in it is not written to, and the
registers stay in their parts of it.  This holds behind every piece of execution, also one that ends
in a fault, so a machine that has run, well or not, can run again.

* `Machine.Intact` — the memory and the registers are as they should be.
* `Machine.Keeps` — a piece of execution leaves the machine intact.
* `Machine.Reused` — a machine that was loaded and has run any number of times.
-/

namespace StackLang.Machine

/-- The memory holds the code and behind it the cells of the stack; the stack and the base are
there, and the next instruction is in the code or just behind it. -/
structure Intact (code : Array Word) (cells : Nat) (m : Machine) : Prop where
  codeLen : m.codeLen = code.size
  size : m.mem.size = code.size + cells
  words : ∀ i < code.size, m.mem[i]? = code[i]?
  sp : code.size ≤ m.sp ∧ m.sp ≤ m.mem.size
  bp : code.size ≤ m.bp ∧ m.bp ≤ m.mem.size
  ip : m.ip ≤ code.size

instance (code : Array Word) (cells : Nat) (m : Machine) : Decidable (Intact code cells m) :=
  decidable_of_iff (m.codeLen = code.size ∧ m.mem.size = code.size + cells ∧
      (∀ i < code.size, m.mem[i]? = code[i]?) ∧ (code.size ≤ m.sp ∧ m.sp ≤ m.mem.size) ∧
      (code.size ≤ m.bp ∧ m.bp ≤ m.mem.size) ∧ m.ip ≤ code.size)
    ⟨fun ⟨h₁, h₂, h₃, h₄, h₅, h₆⟩ => ⟨h₁, h₂, h₃, h₄, h₅, h₆⟩,
      fun h => ⟨h.codeLen, h.size, h.words, h.sp, h.bp, h.ip⟩⟩

section

variable {code : Array Word} {cells : Nat} {α : Type} {m : Machine}

theorem Intact.cell (h : Intact code cells m) {i : Nat} {w : Word} (hw : code[i]? = some w) :
    m.cell i = w := by
  have hlt : i < code.size := (Array.getElem?_eq_some_iff.mp hw).1
  rw [Machine.cell, Array.getD_eq_getD_getElem?, h.words i hlt, hw, Option.getD_some]

theorem intact_load (code : Array Word) (strings : StringPool) (input : Bytes)
    (config : MachineConfig) : Intact code config.stackCells (load code strings input config) where
  codeLen := rfl
  size := by simp [load]
  words i hi := by simp [load, Array.getElem?_append_left hi]
  sp := ⟨Nat.le_refl _, by simp [load]⟩
  bp := ⟨Nat.le_refl _, by simp [load]⟩
  ip := Nat.zero_le _

theorem Intact.reset (h : Intact code cells m) : Intact code cells m.reset where
  codeLen := h.codeLen
  size := h.size
  words := h.words
  sp := ⟨Nat.le_of_eq h.codeLen.symm, by simp only [Machine.reset, h.codeLen, h.size]; omega⟩
  bp := ⟨Nat.le_of_eq h.codeLen.symm, by simp only [Machine.reset, h.codeLen, h.size]; omega⟩
  ip := Nat.zero_le _

/-- A cell of the stack is written. -/
theorem Intact.write (h : Intact code cells m) {a : Nat} (ha : code.size ≤ a) (w : Word) :
    Intact code cells { m with mem := m.mem.setIfInBounds a w } where
  codeLen := h.codeLen
  size := Array.size_setIfInBounds.trans h.size
  words i hi := by
    rw [Array.getElem?_setIfInBounds_ne (by omega)]
    exact h.words i hi
  sp := by simpa using h.sp
  bp := by simpa using h.bp
  ip := h.ip

/-! ## Pieces of execution -/

/-- The piece of execution leaves an intact machine intact, also if it fails, and its result
satisfies `Q`. -/
def Keeps (code : Array Word) (cells : Nat) (x : Exec α) (Q : α → Prop) : Prop :=
  ∀ m, Intact code cells m →
    match x m with
    | .ok a m' => Intact code cells m' ∧ Q a
    | .error _ m' => Intact code cells m'

theorem Keeps.bind {β : Type} {x : Exec α} {f : α → Exec β} {Q : α → Prop} {R : β → Prop}
    (hx : Keeps code cells x Q) (hf : ∀ a, Q a → Keeps code cells (f a) R) :
    Keeps code cells (x >>= f) R := by
  intro m h
  have hrun := hx m h
  cases hxm : x m with
  | error e m' =>
    rw [hxm] at hrun
    rw [bind_of_error hxm]
    exact hrun
  | ok a m' =>
    rw [hxm] at hrun
    rw [bind_of_ok hxm]
    exact hf a hrun.2 m' hrun.1

/-- Execution that fails at once unless a condition holds. -/
theorem Keeps.guarded {x y : Exec α} {Q : α → Prop} {c : Machine → Prop} [DecidablePred c]
    {e : Machine → Fault} (hx : ∀ m, x m = if c m then y m else .error (e m) m)
    (hy : ∀ m, Intact code cells m → c m →
      match y m with
      | .ok a m' => Intact code cells m' ∧ Q a
      | .error _ m' => Intact code cells m') : Keeps code cells x Q := by
  intro m h
  rw [hx]
  by_cases hc : c m
  · rw [if_pos hc]
    exact hy m h hc
  · rw [if_neg hc]
    exact h

theorem push_keeps (w : Word) : Keeps code cells (push w) fun _ => True := by
  refine .guarded (fun _ => rfl) fun m h hlt => ⟨?_, trivial⟩
  have hw := h.write h.sp.1 w
  exact { hw with sp := ⟨Nat.le_succ_of_le h.sp.1, by simpa using Nat.succ_le_of_lt hlt⟩ }

theorem pop_keeps : Keeps code cells pop fun _ => True := by
  refine .guarded (fun _ => rfl) fun m h hlt => ⟨{ h with sp := ?_ }, trivial⟩
  have hlen := h.codeLen
  have hsp := h.sp
  simp only
  omega

theorem fetch_keeps : Keeps code cells fetch fun _ => True :=
  .guarded (fun _ => rfl) fun _ h hlt =>
    ⟨{ h with ip := Nat.succ_le_of_lt (Nat.lt_of_lt_of_eq hlt h.codeLen) }, trivial⟩

theorem jump_keeps (w : Word) : Keeps code cells (jump w) fun _ => True := by
  intro m h
  unfold jump
  cases w.toIndex? with
  | none => exact h
  | some t =>
    by_cases ht : t < m.codeLen
    · simp only [if_pos ht]
      exact ⟨{ h with ip := Nat.le_of_lt (Nat.lt_of_lt_of_eq ht h.codeLen) }, trivial⟩
    · simp only [if_neg ht]
      exact h

theorem write_keeps (s : String) : Keeps code cells (write s) fun _ => True :=
  fun _ h => ⟨{ h with }, trivial⟩

theorem readCell_keeps (a : Nat) : Keeps code cells (readCell a) fun _ => True :=
  fun _ h => ⟨h, trivial⟩

theorem writeCell_keeps {a : Nat} (w : Word) (ha : code.size ≤ a) :
    Keeps code cells (writeCell a w) fun _ => True :=
  fun _ h => ⟨h.write ha w, trivial⟩

/-- An address of the stack. -/
def InStack (code : Array Word) (cells : Nat) (a : Nat) : Prop :=
  code.size ≤ a ∧ a < code.size + cells

theorem Intact.inStack (h : Intact code cells m) {a : Int} (ha : m.inStack a = true) :
    InStack code cells a.toNat := by
  have hlen := h.codeLen
  have hsize := h.size
  rw [inStack_iff] at ha
  constructor <;> omega

theorem stackAddress_keeps (a : Int) :
    Keeps code cells (stackAddress a) (InStack code cells) :=
  .guarded (fun _ => rfl) fun _ h ha => ⟨h, h.inStack ha⟩

theorem frameAddress_keeps (w : Word) :
    Keeps code cells (frameAddress w) (InStack code cells) :=
  .guarded (fun _ => rfl) fun m h _ => stackAddress_keeps _ m h

theorem targetCell_keeps (w : Word) :
    Keeps code cells (targetCell w) (InStack code cells) :=
  .guarded (fun _ => rfl) fun m h _ => stackAddress_keeps _ m h

theorem alloc_keeps (w : Word) : Keeps code cells (alloc w) fun _ => True := by
  refine .guarded (fun _ => rfl) fun m h _ => ?_
  by_cases hw : 0 ≤ w.toInt ∧ m.sp + w.toInt ≤ m.mem.size
  · rw [if_pos hw]
    have hsp := h.sp
    refine ⟨{ h with sp := ?_ }, trivial⟩
    simp only
    omega
  · rw [if_neg hw]
    exact h

theorem setSp_keeps (w : Word) : Keeps code cells (setSp w) fun _ => True := by
  refine .guarded (fun _ => rfl) fun m h hw => ⟨{ h with sp := ?_ }, trivial⟩
  obtain ⟨hle, hlt⟩ := h.inStack hw
  exact ⟨hle, Nat.le_of_lt (h.size ▸ hlt)⟩

theorem setBp_keeps (w : Word) : Keeps code cells (setBp w) fun _ => True := by
  refine .guarded (fun _ => rfl) fun m h hw => ⟨{ h with bp := ?_ }, trivial⟩
  have hlen := h.codeLen
  simp only
  omega

theorem getIp_keeps : Keeps code cells getIp fun _ => True :=
  fun _ h => ⟨h, trivial⟩

theorem getBp_keeps : Keeps code cells getBp fun _ => True :=
  fun _ h => ⟨h, trivial⟩

theorem enterFrame_keeps : Keeps code cells enterFrame fun _ => True :=
  fun _ h => ⟨{ h with bp := h.sp }, trivial⟩

theorem random_keeps (w : Word) : Keeps code cells (random w) fun _ => True := by
  intro m h
  unfold random
  exact ⟨⟨h.codeLen, h.size, h.words, h.sp, h.bp, h.ip⟩, trivial⟩

theorem stringOf_keeps (here : Nat) (w : Word) :
    Keeps code cells (stringOf here w) fun _ => True := by
  intro m h
  unfold stringOf
  cases m.strings.get? w with
  | none => exact h
  | some s => exact ⟨h, trivial⟩

theorem readLine_keeps : Keeps code cells readLine fun _ => True := by
  intro m h
  unfold readLine
  by_cases hline : (takeLine m.input).1.isEmpty = true
  · simp only [if_pos hline]
    exact h
  · simp only [if_neg hline]
    cases Text.ofUtf8? (takeLine m.input).1 with
    | none => exact { h with }
    | some s => exact ⟨{ h with }, trivial⟩

theorem readValue_keeps (read? : String → Option Word) (error : String → InputError) :
    Keeps code cells (readValue read? error) fun _ => True := by
  refine readLine_keeps.bind fun line _ m h => ?_
  cases read? line with
  | none => exact h
  | some w => exact ⟨h, trivial⟩

theorem readString_keeps : Keeps code cells readString fun _ => True :=
  readLine_keeps.bind fun _ _ _ h => ⟨{ h with }, trivial⟩

end

/-! ## Machines that run again -/

/-- A machine that was loaded and has run any number of times. -/
inductive Reused (code : Array Word) (strings : StringPool) (input : Bytes)
    (config : MachineConfig) : Machine → Prop where
  | load : Reused code strings input config (Machine.load code strings input config)
  | ended {m m' : Machine} {maxSteps : Option Nat} {status : Word}
    (h : Reused code strings input config m) (hrun : run maxSteps m = .ok status m') :
    Reused code strings input config m'
  | failed {m m' : Machine} {maxSteps : Option Nat} {e : Fault}
    (h : Reused code strings input config m) (hrun : run maxSteps m = .error e m') :
    Reused code strings input config m'

end StackLang.Machine
