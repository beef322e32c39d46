import StackLang.Proofs.Code.Soundness
import StackLang.Proofs.Machine.Alike
import StackLang.Proofs.Machine.Watched

/-!
# Runs of sound code

Code that is sound as a stream is executed instruction by instruction as it is read: unless a call
or a return leads elsewhere, the machine is always at an instruction or behind the last one, and a
step takes the words of that instruction and no others.

* `Code.Starts` — an address is that of an instruction.
* `Machine.Executes` — a step executes an instruction as it is read.
* `Machine.Lands` — calls and returns have led to instructions.
* `verified_boundaries` — the machine stays on the boundaries of instructions.
-/

namespace StackLang

/-! ## Reading a stream -/

namespace Code

variable {i : Instruction}

/-- The address is that of one of the instructions. -/
def Starts (is : List Instruction) (a : Nat) : Prop :=
  ∃ i ∈ is, i.address = a

/-- Where an instruction stands in a stream that begins at `a` and is read as `is`. -/
structure Located (a : Nat) (code : List Word) (is : List Instruction) (i : Instruction) :
    Prop where
  le : a ≤ i.address
  word : code[i.address - a]? = some i.op.word
  operand : i.op.arity = 0 ∧ i.operand = none ∨
    i.op.arity = 1 ∧ ∃ w, i.operand = some w ∧ code[i.address - a + 1]? = some w
  next : i.next = a + code.length ∨ Starts is i.next

variable {a : Nat} {code : List Word} {is : List Instruction}

theorem Starts.cons (h : Starts is a) : Starts (i :: is) a := by
  obtain ⟨j, hj, hstart⟩ := h
  exact ⟨j, List.mem_cons_of_mem _ hj, hstart⟩

/-- Behind other words. -/
theorem Located.behind (ws : List Word) {j : Instruction} (h : Located (a + ws.length) code is i) :
    Located a (ws ++ code) (j :: is) i := by
  have hle := h.le
  have hindex : i.address - a = ws.length + (i.address - (a + ws.length)) := by omega
  have hget : ∀ k, (ws ++ code)[ws.length + k]? = code[k]? := fun k => by
    rw [List.getElem?_append_right (Nat.le_add_right _ _), Nat.add_sub_cancel_left]
  refine ⟨by omega, ?_, ?_, ?_⟩
  · rw [hindex, hget]
    exact h.word
  · rw [hindex, Nat.add_assoc, hget]
    exact h.operand
  · refine h.next.imp (fun hnext => ?_) .cons
    rw [hnext, List.length_append, Nat.add_assoc]

/-- Where the instructions of a stream stand. -/
theorem Consists.located (h : Consists a code is) :
    (code = [] ∨ Starts is a) ∧ ∀ i ∈ is, Located a code is i := by
  induction is generalizing a code with
  | nil => exact ⟨.inl (consists_nil.mp h), fun _ hi => absurd hi List.not_mem_nil⟩
  | cons i is ih =>
    obtain ⟨rfl, hlen, rest, rfl, hrest⟩ := h.uncons
    obtain ⟨hfirst, his⟩ := ih hrest
    refine ⟨.inr ⟨i, List.mem_cons_self, rfl⟩, fun j hj => ?_⟩
    rcases List.mem_cons.mp hj with rfl | hj
    · refine ⟨Nat.le_refl _, ?_, ?_, ?_⟩
      · simp [Instruction.words]
      · cases hoperand : j.operand with
        | none =>
          rw [hoperand] at hlen
          exact .inl ⟨hlen.symm, rfl⟩
        | some w =>
          rw [hoperand] at hlen
          exact .inr ⟨hlen.symm, w, rfl, by simp [Instruction.words, hoperand]⟩
      · refine hfirst.imp ?_ .cons
        rintro rfl
        simp [Instruction.next]
    · exact (his j hj).behind i.words

/-- In sound code, jumps go to instructions. -/
theorem Sound.starts (h : Sound code is) (hi : i ∈ is) (hjump : i.op.isJump = true) {w : Word}
    (hw : i.operand = some w) {t : Nat} (ht : w.toIndex? = some t) : Starts is t := by
  obtain ⟨j, hj, hstart⟩ := h.lands i hi (Op.isJump_iff.mp hjump) w hw
  rw [Word.toIndex?_eq_some_iff.mp ht] at hstart
  exact ⟨j, hj, (Int.ofNat_inj.mp hstart).symm⟩

end Code

/-! ## Steps -/

/-- Whether an operation may go on elsewhere than behind its words. -/
def Op.transfers : Op → Bool
  | call | ret | retValue | jump | jumpZero => true
  | _ => false

theorem Op.arity_of_isJump {op : Op} (h : op.isJump = true) : op.arity = 1 := by
  cases op <;> first | rfl | cases h

theorem Op.Ends.ip_eq {op : Op} {w : Word} {A B : Nat → Prop} {m n : Machine}
    (h : op.Ends w A m n B) (hop : op.transfers = false) : n.ip = m.ip := by
  rcases h.next (by rintro rfl; cases hop) (by rintro rfl; cases hop) (by rintro rfl; cases hop)
    with ⟨hip, -⟩ | ⟨hjump, -⟩
  · exact hip
  · cases op <;> first | exact absurd hjump (by decide) | exact absurd hop (by decide)

namespace Machine

variable {m' : Machine}

/-- A step executes the instruction at which the machine is as it is read: it performs the operation
with the operand that is read, from behind the words of the instruction.  If it fails, or if the
operation does not transfer control, it does not move further. -/
structure Executes (i : Instruction) (m : Machine) : Prop where
  address : i.address = m.ip
  nextOp? : m.nextOp? = some i.op
  next : i.next = m.ip + 1 + i.op.arity
  step : step m = (perform i.address i.op (i.operand.getD 0) >>= fun _ => conclude i.op)
    { m with ip := i.next }
  stays : ∀ r m', Machine.step m = .ok r m' → i.op.transfers = false → m'.ip = i.next
  stops : ∀ e m', Machine.step m = .error e m' → m'.ip = i.next ∧ ∀ ip w, e ≠ .unknownOp ip w

variable {code : Array Word} {cells : Nat} {is : List Instruction} {i : Instruction} {m : Machine}

/-- The operand of an operation that takes none does not matter. -/
theorem perform_of_arity_zero {op : Op} (h : op.arity = 0) (here : Nat) (v w : Word) :
    perform here op v = perform here op w := by
  rw [← execute_of_arity_zero h, ← execute_of_arity_zero h]

theorem conclude_ok (op : Op) (m : Machine) : ∃ r, conclude op m = .ok r m := by
  cases op <;> exact ⟨_, rfl⟩

/-- What is known of a step at an instruction. -/
theorem Intact.executes (hm : Intact code cells m) (hi : Code.Located 0 code.toList is i)
    (haddress : i.address = m.ip) : Executes i m := by
  have hword : code[m.ip]? = some i.op.word := by
    simpa [haddress] using hi.word
  have hlt : m.ip < m.codeLen := by
    rw [hm.codeLen]
    exact (Array.getElem?_eq_some_iff.mp hword).1
  have hnext : m.nextOp? = some i.op := by
    rw [Machine.nextOp?, if_pos hlt, hm.cell hword, Op.ofWord?_word]
  -- The words of the instruction are in the code, and the operand is the word behind the operation.
  obtain ⟨hlen, hsize, hoperand⟩ : m.ip + i.op.arity < m.codeLen ∧
      i.words.length = 1 + i.op.arity ∧
      perform m.ip i.op (m.cell (m.ip + 1)) = perform m.ip i.op (i.operand.getD 0) := by
    rcases hi.operand with ⟨harity, hnone⟩ | ⟨harity, w, hsome, hw⟩
    · refine ⟨by omega, ?_, perform_of_arity_zero harity _ _ _⟩
      rw [Instruction.words, hnone, harity]
      rfl
    · have hw' : code[m.ip + 1]? = some w := by simpa [haddress] using hw
      refine ⟨?_, ?_, by rw [hm.cell hw', hsome, Option.getD_some]⟩
      · rw [harity, hm.codeLen]
        exact (Array.getElem?_eq_some_iff.mp hw').1
      · rw [Instruction.words, hsome, harity]
        rfl
  have hbehind : i.next = m.ip + 1 + i.op.arity := by
    rw [Instruction.next, haddress, hsize, Nat.add_assoc]
  have hstep := step_of_operand hnext hlen
  have hmirrors : Mirrors False (fun _ => True) (perform m.ip i.op (m.cell (m.ip + 1)))
      (m.behind i.op)
      (fun _ n B => i.op.Ends (m.cell (m.ip + 1)) (fun _ => True) (m.behind i.op) n B)
      (Stops (m.behind i.op)) := perform_mirrors m.ip fun _ _ => trivial
  have hperform := hmirrors _ (.refl False _ _)
  refine ⟨haddress, hnext, hbehind, ?_, fun r m' hrun hstays => ?_, fun e m' hrun => ?_⟩
  · rw [hstep, hoperand, haddress, hbehind]
    rfl
  · obtain ⟨op, B, hop, hends⟩ := step_ends hrun
    cases hnext.symm.trans hop
    exact (hends.ip_eq hstays).trans hbehind.symm
  · rw [hstep] at hrun
    cases hp : perform m.ip i.op (m.cell (m.ip + 1)) (m.behind i.op) with
    | error e n =>
      rw [hp] at hperform
      rw [bind_of_error hp] at hrun
      cases hrun
      exact ⟨hperform.1.ip.trans hbehind.symm, hperform.1.known⟩
    | ok _ n =>
      rw [bind_of_ok hp] at hrun
      obtain ⟨r', hr'⟩ := conclude_ok i.op n
      cases hr'.symm.trans hrun

/-! ## Runs -/

/-- The calls and the returns among the first `n` steps have led to instructions. -/
def Lands (is : List Instruction) (m : Machine) (n : Nat) : Prop :=
  ∀ k < n, ∀ m', m.opAt k = some .call ∨ m.opAt k = some .ret ∨ m.opAt k = some .retValue →
    m.after (k + 1) = some m' → Code.Starts is m'.ip

/-- The machine is at an instruction, which the next step executes, or behind the last one, where it
finds no code. -/
def AtBoundary (code : Array Word) (is : List Instruction) (m : Machine) : Prop :=
  m.ip = code.size ∧ step m = .error (m.fault code.size) m ∨ ∃ i ∈ is, Executes i m

theorem Intact.atBoundary (hm : Intact code cells m) (hs : Code.Sound code.toList is)
    (h : m.ip = code.size ∨ Code.Starts is m.ip) : AtBoundary code is m := by
  rcases h with hend | ⟨i, hi, haddress⟩
  · refine .inl ⟨hend, ?_⟩
    have hfetch : fetch m = .error (m.fault code.size) m := by
      rw [fetch, if_neg (by rw [hend, hm.codeLen]; exact Nat.lt_irrefl _), hend]
    rw [step, bind_of_ok (show getIp m = .ok m.ip m from rfl), bind_of_error hfetch]
  · exact .inr ⟨i, hi, hm.executes (hs.consists.located.2 i hi) haddress⟩

/-- Behind a step from an instruction, the machine is at an instruction or behind the last one. -/
theorem Executes.next_starts (h : Executes i m) (hm : Intact code cells m)
    (hs : Code.Sound code.toList is) (hi : i ∈ is) (hstep : Machine.step m = .ok none m')
    (hlands : i.op = .call ∨ i.op = .ret ∨ i.op = .retValue → Code.Starts is m'.ip) :
    m'.ip = code.size ∨ Code.Starts is m'.ip := by
  by_cases hcall : i.op = .call ∨ i.op = .ret ∨ i.op = .retValue
  · exact .inr (hlands hcall)
  · rw [not_or, not_or] at hcall
    have hlocated := hs.consists.located.2 i hi
    obtain ⟨op, B, hop, hends⟩ := step_ends hstep
    cases h.nextOp?.symm.trans hop
    rcases hends.next hcall.1 hcall.2.1 hcall.2.2 with ⟨hip, -⟩ | ⟨hjump, htarget⟩
    · rw [hip.trans h.next.symm]
      simpa using hlocated.next
    · rcases hlocated.operand with ⟨harity, -⟩ | ⟨-, w, hsome, hw⟩
      · rw [Op.arity_of_isJump hjump] at harity
        cases harity
      · have hw' : code[m.ip + 1]? = some w := by simpa [h.address] using hw
        rw [hm.cell hw'] at htarget
        exact .inr (hs.starts hi hjump hsome htarget)

/-- As long as calls and returns lead to instructions, the machine stays on the boundaries of
instructions. -/
theorem Intact.atBoundary_after (hm : Intact code cells m.reset) (hs : Code.Sound code.toList is)
    {n : Nat} (hafter : m.reset.after n = some m') (hlands : m.reset.Lands is n) :
    AtBoundary code is m' := by
  induction n generalizing m' with
  | zero =>
    cases hafter
    refine hm.atBoundary hs ?_
    rcases hs.consists.located.1 with hnil | hstart
    · refine .inl ?_
      rw [← Array.length_toList, hnil]
      rfl
    · exact .inr hstart
  | succ n ih =>
    obtain ⟨m₁, h₁, hstep⟩ := step_of_after hafter
    have hm₁ := hm.after h₁
    refine (hm.after hafter).atBoundary hs ?_
    rcases ih h₁ fun k hk => hlands k (Nat.lt_succ_of_lt hk) with ⟨-, hend⟩ | ⟨i, hi, hexec⟩
    · cases hend.symm.trans hstep
    · refine hexec.next_starts hm₁ hs hi hstep fun hcall => ?_
      have hop : m.reset.opAt n = some i.op := by rw [opAt, h₁, Option.bind_some, hexec.nextOp?]
      refine hlands n (Nat.lt_succ_self n) m' ?_ hafter
      rw [hop]
      simpa using hcall

theorem AtBoundary.known (h : AtBoundary code is m) {e : Fault} (hstep : step m = .error e m')
    (ip : Nat) (w : Word) : e ≠ .unknownOp ip w := by
  rcases h with ⟨-, hend⟩ | ⟨i, -, hexec⟩
  · cases hend.symm.trans hstep
    nofun
  · exact (hexec.stops e m' hstep).2 ip w

/-- Code without calls and returns has none that could lead elsewhere. -/
theorem Intact.lands (hm : Intact code cells m.reset) (hs : Code.Sound code.toList is)
    (hcalls : ∀ i ∈ is, i.op ≠ .call ∧ i.op ≠ .ret ∧ i.op ≠ .retValue) (n : Nat) :
    m.reset.Lands is n := by
  induction n with
  | zero => exact fun k hk => absurd hk (Nat.not_lt_zero k)
  | succ n ih =>
    intro k hk m' hop hafter
    rcases Nat.lt_succ_iff_lt_or_eq.mp hk with hlt | rfl
    · exact ih k hlt m' hop hafter
    · obtain ⟨m₁, h₁, hstep⟩ := step_of_after hafter
      rcases hm.atBoundary_after hs h₁ ih with ⟨-, hend⟩ | ⟨i, hi, hexec⟩
      · cases hend.symm.trans hstep
      · have hi' := hcalls i hi
        rw [opAt, h₁, Option.bind_some, hexec.nextOp?] at hop
        simp [hi'] at hop

end Machine

/-- The machine is at the beginning of every step at one of the instructions, or behind the last
one, as long as the calls and the returns that it has executed have led to instructions; the step
executes that instruction as it is read.  A run in which they all do so finds no unknown operation,
in particular no run of code that has neither calls nor returns. -/
structure Machine.KeepsToBoundaries (code : Array Word) (is : List Instruction) (m : Machine) :
    Prop where
  steps : ∀ n m', m.reset.after n = some m' → m.reset.Lands is n → AtBoundary code is m'
  known : ∀ maxSteps e m', run maxSteps m = .error e m' → (∀ n, m.reset.Lands is n) →
    ∀ ip w, e ≠ .unknownOp ip w
  plain : (∀ i ∈ is, i.op ≠ .call ∧ i.op ≠ .ret ∧ i.op ≠ .retValue) →
    ∀ maxSteps e m', run maxSteps m = .error e m' → ∀ ip w, e ≠ .unknownOp ip w

open Machine in
/-- A machine that runs sound code keeps to its instructions. -/
theorem verified_boundaries {code : Array Word} (hv : Code.verify code.toList = .ok ())
    {strings : StringPool} {input : Bytes} {config : MachineConfig} {m : Machine}
    (hm : m.Reused code strings input config) :
    ∃ is, Code.decode code.toList = .ok is ∧ m.KeepsToBoundaries code is := by
  obtain ⟨is, hs⟩ := Code.exists_sound hv
  have hreset : Intact code config.stackCells m.reset := hm.intact.reset
  have hknown : ∀ maxSteps e m', run maxSteps m = .error e m' → (∀ n, m.reset.Lands is n) →
      ∀ ip w, e ≠ .unknownOp ip w := by
    intro maxSteps e m' hrun hlands ip w
    rcases exists_step_of_runWithin_error (k := 0) rfl hrun with rfl | ⟨j, m₁, h₁, hstep⟩
    · nofun
    · exact (hreset.atBoundary_after hs h₁ (hlands j)).known hstep ip w
  refine ⟨is, hs.decode, fun n m' => hreset.atBoundary_after hs, hknown,
    fun hcalls maxSteps e m' hrun => ?_⟩
  exact hknown maxSteps e m' hrun (hreset.lands hs hcalls)

open Machine in
/-- Code that calls a function behind its exit: the function is reached after two steps, at a
boundary. -/
theorem verified_boundaries_call :
    let code : Array Word := #[Op.push.word, 5, Op.call.word, 0, Op.exit.word, Op.push.word, 7,
      Op.retValue.word]
    let m := load code .empty [] ⟨8, none, 0⟩
    Code.verify code.toList = .ok () ∧ m.Reused code .empty [] ⟨8, none, 0⟩ ∧
      ((m.reset.after 2).map Machine.ip) = some 5 ∧
      ∃ is, Code.decode code.toList = .ok is ∧ m.KeepsToBoundaries code is := by
  intro code m
  have hv : Code.verify code.toList = .ok () := rfl
  have hm : m.Reused code .empty [] ⟨8, none, 0⟩ := .load
  exact ⟨hv, hm, by decide +kernel, verified_boundaries hv hm⟩

end StackLang
