import StackLang.Proofs.Machine.Keeping
import StackLang.Proofs.Machine.Saving
import StackLang.Proofs.Machine.Trace

/-!
# Access by an index

An access by an index adds three numbers: the base of the running function, an operand and the word
on top of the stack.  The last two are added as words, so that their sum may be off by the number of
words; the base is added to that sum as to an integer.  So the cell that is meant is always reached,
and an address outside the stack is a fault, but for one case: if the two words have a sum that does
not fit into a word, the access can go to a cell that is off by the number of words.

* `Machine.indexed` — the address that is meant.
* `Machine.Strays` — a cell that is off by the number of words.
* `indexed_access` — what an access does, for all operands and indices.
-/

namespace StackLang

/-- The sum of two words is off by the number of words if it does not fit into a word. -/
theorem Word.toInt_add_cases (b i : Word) :
    (b + i).toInt = b.toInt + i.toInt ∨
      (b + i).toInt = b.toInt + i.toInt + 0x10000000000000000 ∨
      (b + i).toInt = b.toInt + i.toInt - 0x10000000000000000 := by
  have hb := b.le_toInt
  have hb' := b.toInt_lt
  have hi := i.le_toInt
  have hi' := i.toInt_lt
  rw [Int64.toInt_add, Int.bmod_def]
  omega

namespace Machine

/-- The address that a base and an index lead to, counted without bounds. -/
def indexed (m : Machine) (b i : Word) : Int :=
  m.bp + b.toInt + i.toInt

/-- The address is off by the number of words. -/
def Strays (m : Machine) (b i : Word) (x : Nat) : Prop :=
  (x : Int) = m.indexed b i + 0x10000000000000000 ∨ (x : Int) = m.indexed b i - 0x10000000000000000

/-- The machine is about to access a cell by the operand `b` and the index `i`, which is on top of
the stack; if it is to write, the word for the cell is below it. -/
structure Indexes (m : Machine) (op : Op) (b i : Word) : Prop where
  kind : op = .peekAt ∨ op = .pokeAt
  next : m.nextOp? = some op
  operand : m.ip + 1 < m.codeLen ∧ m.cell (m.ip + 1) = b
  index : m.cell (m.sp - 1) = i
  words : m.codeLen + op.pops ≤ m.sp

/-- The machine behind an access to the cell `x`: the word of the cell has taken the place of the
index, or the word below the index has been written to the cell. -/
def accessed (m : Machine) (op : Op) (x : Nat) : Machine :=
  match op with
  | .pokeAt => { m with
      ip := m.ip + 2
      sp := m.sp - 2
      mem := m.mem.setIfInBounds x (m.cell (m.sp - 2)) }
  | _ => { m with ip := m.ip + 2, mem := m.mem.setIfInBounds (m.sp - 1) (m.cell x) }

variable {m : Machine} {code : Array Word} {cells : Nat} {op : Op} {b i w : Word}

/-! ## Addresses -/

theorem frameAddress_of_not_inStack (h : m.inStack (m.bp + w.toInt) = false) :
    ∃ x, frameAddress w m = .error (m.fault x) m := by
  unfold frameAddress stackAddress
  simp only [h, Bool.false_eq_true, if_false]
  split
  · exact ⟨_, rfl⟩
  · exact ⟨_, rfl⟩

/-- If neither the address that is meant nor one that strays from it is in the stack, none is
reached. -/
theorem reached_of_not_inStack (hout : m.inStack (m.indexed b i) = false)
    (hstray : ∀ x, m.Strays b i x → m.inStack x = false) :
    m.inStack (m.bp + (b + i).toInt) = false := by
  by_contra hin
  have hrange := inStack_iff.mp (Bool.of_not_eq_false hin)
  obtain ⟨x, hx⟩ : ∃ x : Nat, m.bp + (b + i).toInt = x :=
    ⟨(m.bp + (b + i).toInt).toNat, by omega⟩
  rw [hx] at hin
  rcases Word.toInt_add_cases b i with h | h | h
  · have hmeant : m.indexed b i = x := by
      unfold indexed
      omega
    rw [hmeant] at hout
    exact hin hout
  · refine hin (hstray x (.inl ?_))
    unfold indexed
    omega
  · refine hin (hstray x (.inr ?_))
    unfold indexed
    omega

/-- Of the addresses that are meant or stray, one that is in the stack is reached. -/
theorem Intact.reached_eq (hm : Intact code cells m)
    (hsize : code.size + cells ≤ 0x8000000000000000) {x : Nat} (hin : m.inStack x = true)
    (hx : (x : Int) = m.indexed b i ∨ m.Strays b i x) : (m.bp : Int) + (b + i).toInt = x := by
  have hbp := hm.bp
  have hmem := hm.size
  have hrange := inStack_iff.mp hin
  have hlow := (b + i).le_toInt
  have hhigh := (b + i).toInt_lt
  unfold Strays indexed at hx
  rcases Word.toInt_add_cases b i with h | h | h
  · omega
  · omega
  · omega

/-- If base and index have a sum that fits into a word, no address in the stack strays. -/
theorem Intact.not_strays (hm : Intact code cells m)
    (hsize : code.size + cells ≤ 0x8000000000000000)
    (hsum : Word.inRange (b.toInt + i.toInt) = true) {x : Nat} (hx : m.Strays b i x) :
    m.inStack x = false := by
  have hbp := hm.bp
  have hmem := hm.size
  rw [Word.inRange_iff] at hsum
  unfold Strays indexed at hx
  by_contra hin
  have hrange := inStack_iff.mp (Bool.of_not_eq_false hin)
  omega

/-! ## Steps -/

/-- The machine behind the words of the access, without those that it takes off the stack. -/
def taken (m : Machine) (op : Op) : Machine :=
  { m with ip := m.ip + 2, sp := m.sp - op.pops }

/-- What an access does once it has the address of the cell; `value` is for the cell. -/
def transfer (op : Op) (value : Word) (x : Nat) : Exec Unit :=
  match op with
  | .pokeAt => writeCell x value
  | _ => readCell x >>= push

/-- Once its words are taken, an access finds the address and then reads or writes the cell. -/
theorem Indexes.perform_eq (h : m.Indexes op b i) :
    perform m.ip op b (m.behind op) =
      (frameAddress (b + i) >>= transfer op (m.cell (m.sp - 2))) (m.taken op) := by
  have hwords := h.words
  have hindex := h.index
  rcases h.kind with rfl | rfl
  · have hlt : m.codeLen < m.sp := hwords
    have hpop : pop (m.behind .peekAt) = .ok i (m.taken .peekAt) := by
      rw [← hindex]
      exact pop_of_lt hlt
    exact bind_of_ok hpop
  · have hlt : m.codeLen + 2 ≤ m.sp := hwords
    have hpop : pop (m.behind .pokeAt) = .ok i { m.behind .pokeAt with sp := m.sp - 1 } := by
      rw [← hindex]
      exact pop_of_lt (show m.codeLen < m.sp by omega)
    have hpop' : pop { m.behind .pokeAt with sp := m.sp - 1 } =
        .ok (m.cell (m.sp - 2)) (m.taken .pokeAt) :=
      pop_of_lt (show m.codeLen < m.sp - 1 by omega)
    exact (bind_of_ok hpop).trans (bind_of_ok hpop')

theorem Indexes.step_eq (h : m.Indexes op b i) :
    step m = (perform m.ip op b >>= fun _ => pure none) (m.behind op) := by
  obtain ⟨hlen, hoperand⟩ := h.operand
  rcases h.kind with rfl | rfl
  · rw [step_of_operand h.next hlen, hoperand]
    rfl
  · rw [step_of_operand h.next hlen, hoperand]
    rfl

/-- An access that finds an address goes to that cell. -/
theorem Indexes.step_of_ok (h : m.Indexes op b i) (hm : Intact code cells m) {x : Nat}
    (hx : frameAddress (b + i) (m.taken op) = .ok x (m.taken op)) :
    step m = .ok none (m.accessed op x) := by
  have hsp := hm.sp
  have hwords := h.words
  rw [h.step_eq]
  refine bind_of_ok (a := ()) ?_
  rw [h.perform_eq, bind_of_ok hx]
  rcases h.kind with rfl | rfl
  · -- the word of the cell is put where the index was, so there is room for it
    have hpops : m.codeLen + 1 ≤ m.sp := hwords
    have hroom : (m.taken .peekAt).sp < (m.taken .peekAt).mem.size := by
      show m.sp - 1 < m.mem.size
      omega
    have hback : m.sp - 1 + 1 = m.sp := by omega
    show push (m.cell x) (m.taken .peekAt) = _
    rw [push, if_pos hroom]
    show EStateM.Result.ok () { m with
      ip := m.ip + 2, mem := m.mem.setIfInBounds (m.sp - 1) (m.cell x), sp := m.sp - 1 + 1 } = _
    rw [hback]
    rfl
  · rfl

/-- An access that finds no address leaves the memory as it is. -/
theorem Indexes.step_of_error (h : m.Indexes op b i) {e : Fault}
    (hx : frameAddress (b + i) (m.taken op) = .error e (m.taken op)) :
    step m = .error e (m.taken op) := by
  have hperform := h.perform_eq
  rw [bind_of_error hx] at hperform
  rw [h.step_eq, bind_of_error hperform]

end Machine

open Machine in
/-- An access by an index goes to the cell that base, operand and index add up to, whenever that is
in the stack.  Otherwise it is a memory fault that leaves all cells as they are, unless an address
that is off by the number of words is in the stack: then it goes to that cell.  There is no such
address if operand and index have a sum that fits into a word. -/
theorem indexed_access {code : Array Word} {cells : Nat} {m : Machine} {op : Op} {b i : Word}
    (hm : Intact code cells m) (hsize : code.size + cells ≤ 0x8000000000000000)
    (h : m.Indexes op b i) :
    (∀ x : Nat, (x : Int) = m.indexed b i → m.inStack x = true →
      step m = .ok none (m.accessed op x)) ∧
    (m.inStack (m.indexed b i) = false → (∀ x, m.Strays b i x → m.inStack x = false) →
      ∃ address n, step m = .error (.memory (m.ip + 2) address) n ∧ n.mem = m.mem) ∧
    (∀ x, m.Strays b i x → m.inStack x = true → step m = .ok none (m.accessed op x)) ∧
    (Word.inRange (b.toInt + i.toInt) = true → ∀ x, m.Strays b i x → m.inStack x = false) := by
  have hmem : (m.taken op).mem.size ≤ 0x8000000000000000 :=
    Nat.le_trans (Nat.le_of_eq hm.size) hsize
  have hreach : ∀ x : Nat, m.inStack x = true → ((x : Int) = m.indexed b i ∨ m.Strays b i x) →
      step m = .ok none (m.accessed op x) := by
    intro x hin hx
    exact h.step_of_ok hm (frameAddress_of_inStack (hm.reached_eq hsize hin hx) hin hmem)
  refine ⟨fun x hx hin => hreach x hin (.inl hx), fun hout hstray => ?_,
    fun x hx hin => hreach x hin (.inr hx), fun hsum x hx => hm.not_strays hsize hsum hx⟩
  have hmissed : (m.taken op).inStack ((m.taken op).bp + (b + i).toInt) = false :=
    reached_of_not_inStack hout hstray
  obtain ⟨address, herror⟩ := frameAddress_of_not_inStack hmissed
  exact ⟨address, m.taken op, h.step_of_error herror, rfl⟩

open Machine in
/-- Operand and index are both the least integer, so the sum of the three is far below the stack;
but the word is written to the first cell of the function, over the seven that is there. -/
theorem indexed_access_least :
    let code : Array Word := #[Op.push.word, 7, Op.push.word, 1,
      Op.push.word, -0x8000000000000000, Op.pokeAt.word, -0x8000000000000000, Op.exit.word]
    ∃ m, (load code .empty [] ⟨8, none, 0⟩).after 3 = some m ∧ Intact code 8 m ∧
      m.Indexes .pokeAt (-0x8000000000000000) (-0x8000000000000000) ∧ m.cell 9 = 7 ∧
      m.inStack (m.indexed (-0x8000000000000000) (-0x8000000000000000)) = false ∧
      step m = .ok none (m.accessed .pokeAt 9) ∧ (m.accessed .pokeAt 9).cell 9 = 1 := by
  intro code
  have hstate : ((load code .empty [] ⟨8, none, 0⟩).after 3).any (fun m => decide (
      Intact code 8 m ∧ m.nextOp? = some .pokeAt ∧
      (m.ip + 1 < m.codeLen ∧ m.cell (m.ip + 1) = -0x8000000000000000) ∧
      m.cell (m.sp - 1) = -0x8000000000000000 ∧ m.codeLen + Op.pops .pokeAt ≤ m.sp ∧
      m.bp = 9 ∧ m.cell 9 = 7 ∧ m.inStack 9 = true ∧
      m.inStack (m.indexed (-0x8000000000000000) (-0x8000000000000000)) = false ∧
      (m.accessed .pokeAt 9).cell 9 = 1)) = true := by decide +kernel
  obtain ⟨m, hm, hstate⟩ := (Option.any_eq_true _ _).mp hstate
  obtain ⟨hintact, hnext, hoperand, hindex, hwords, hbp, hseven, hin, hout, hone⟩ :=
    of_decide_eq_true hstate
  have hindexes : m.Indexes .pokeAt (-0x8000000000000000) (-0x8000000000000000) :=
    ⟨.inr rfl, hnext, hoperand, hindex, hwords⟩
  have hstrays : m.Strays (-0x8000000000000000) (-0x8000000000000000) 9 := by
    left
    rw [indexed, hbp]
    decide
  obtain ⟨-, -, hstep, -⟩ := indexed_access hintact (by decide) hindexes
  exact ⟨m, hm, hintact, hindexes, hseven, hout, hstep 9 hstrays hin, hone⟩

end StackLang
