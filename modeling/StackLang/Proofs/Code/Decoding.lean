import StackLang.Code.Stream
import StackLang.Proofs.Code.Assembled

/-!
# Reading code back

The words of generated code are read as the instructions that it was assembled from: labels leave no
trace, and an operand that is a label is read as its address.

* `Item.instructions` — the instructions of items.
* `Code.decodeFrom_words` — the words of items are read as their instructions.
-/

namespace StackLang

namespace Item

variable {i : Instruction} {operands : List Operand}

/-- An instruction has as many operands as its operation takes. -/
def Fits : Item → Prop
  | instr op operands => operands.length = op.arity
  | place _ => True

/-- The instructions of items, the first of which is at the given address. -/
def instructions (env : Addresses) : Nat → List Item → List Instruction
  | _, [] => []
  | a, .place _ :: is => instructions env a is
  | a, .instr op operands :: is =>
    ⟨a, op, (operands.map (Operand.resolve env)).head?⟩ ::
      instructions env (a + (operands.length + 1)) is

variable {env : Addresses} {a : Nat} {is js : List Item}

theorem instructions_append : instructions env a (is ++ js) =
    instructions env a is ++ instructions env (a + size is) js := by
  induction is generalizing a with
  | nil => rfl
  | cons i is ih =>
    cases i with
    | place l => rw [List.cons_append, instructions, instructions, ih, size_place]
    | instr op operands =>
      rw [List.cons_append, instructions, instructions, ih, size_instr, Nat.add_assoc a,
        List.cons_append]

/-- Where an instruction comes from. -/
theorem exists_of_mem_instructions (h : i ∈ instructions env a is) :
    ∃ pre op operands suf, is = pre ++ .instr op operands :: suf ∧
      i = ⟨a + size pre, op, (operands.map (Operand.resolve env)).head?⟩ := by
  induction is generalizing a with
  | nil => cases h
  | cons j is ih =>
    cases j with
    | place l =>
      obtain ⟨pre, op, operands, suf, rfl, rfl⟩ := ih h
      exact ⟨.place l :: pre, op, operands, suf, rfl, by rw [size_place]⟩
    | instr op operands =>
      rcases List.mem_cons.mp h with rfl | h
      · exact ⟨[], op, operands, is, rfl, rfl⟩
      · obtain ⟨pre, op', operands', suf, rfl, rfl⟩ := ih h
        exact ⟨.instr op operands :: pre, op', operands', suf, rfl, by
          rw [size_instr, Nat.add_assoc]⟩

theorem range_of_mem_instructions (h : i ∈ instructions env a is) :
    a ≤ i.address ∧ i.address < a + size is := by
  obtain ⟨pre, op, operands, suf, rfl, rfl⟩ := exists_of_mem_instructions h
  rw [size_append, size_instr]
  exact ⟨Nat.le_add_right _ _, by simp only; omega⟩

/-- The instructions of a part of the items are those at its addresses. -/
theorem mem_instructions_part {pre suf : List Item} :
    i ∈ instructions env (a + size pre) is ↔ i ∈ instructions env a (pre ++ is ++ suf) ∧
      a + size pre ≤ i.address ∧ i.address < a + size pre + size is := by
  rw [instructions_append, instructions_append, List.mem_append, List.mem_append]
  constructor
  · intro h
    exact ⟨.inl (.inr h), range_of_mem_instructions h⟩
  · rintro ⟨(h | h) | h, hge, hlt⟩
    · have := range_of_mem_instructions h
      omega
    · exact h
    · have := range_of_mem_instructions h
      rw [size_append] at this
      omega

/-- The instructions at the addresses of a part of the items are its own, in their order. -/
theorem filter_instructions_part {pre suf : List Item} :
    (instructions env a (pre ++ is ++ suf)).filter
        (fun i => a + size pre ≤ i.address ∧ i.address < a + size pre + size is) =
      instructions env (a + size pre) is := by
  rw [instructions_append, instructions_append, List.filter_append, List.filter_append]
  have hbefore : ∀ i ∈ instructions env a pre,
      ¬decide (a + size pre ≤ i.address ∧ i.address < a + size pre + size is) = true := by
    intro i hi
    have := range_of_mem_instructions hi
    simp only [decide_eq_true_eq]
    omega
  have hbehind : ∀ i ∈ instructions env (a + size (pre ++ is)) suf,
      ¬decide (a + size pre ≤ i.address ∧ i.address < a + size pre + size is) = true := by
    intro i hi
    have := range_of_mem_instructions hi
    rw [size_append] at this
    simp only [decide_eq_true_eq]
    omega
  have hown : ∀ i ∈ instructions env (a + size pre) is,
      decide (a + size pre ≤ i.address ∧ i.address < a + size pre + size is) = true := by
    intro i hi
    simpa using range_of_mem_instructions hi
  rw [List.filter_eq_nil_iff.mpr hbefore, List.filter_eq_self.mpr hown,
    List.filter_eq_nil_iff.mpr hbehind, List.nil_append, List.append_nil]

/-- Items with an instruction among them have one at their beginning. -/
theorem exists_instruction (env : Addresses) (a : Nat) {op : Op} (h : .instr op operands ∈ is) :
    ∃ i ∈ instructions env a is, i.address = a := by
  induction is with
  | nil => cases h
  | cons j is ih =>
    cases j with
    | place l => exact ih (by simpa using h)
    | instr op' operands' => exact ⟨_, List.mem_cons_self, rfl⟩

/-- Code that ends with an instruction has one at every place in it. -/
theorem exists_instruction_at (env : Addresses) (a : Nat) {op : Op} {front pre rest : List Item}
    (h : front ++ [.instr op operands] = pre ++ rest) (hrest : rest ≠ []) :
    ∃ i ∈ instructions env a (pre ++ rest), i.address = a + size pre := by
  have hlast : .instr op operands ∈ rest := by
    obtain ⟨rest', x, rfl⟩ := (List.eq_nil_or_concat rest).resolve_left hrest
    rw [List.concat_eq_append, ← List.append_assoc] at h
    rw [List.concat_eq_append, ← (List.append_inj' h rfl).2]
    simp
  obtain ⟨i, hi, haddr⟩ := exists_instruction env (a + size pre) hlast
  exact ⟨i, by rw [instructions_append]; exact List.mem_append_right _ hi, haddr⟩

/-- The words of items that lie in the code. -/
theorem Lies.getElem? {code : Array Word} (h : Lies code env a is) {k : Nat} {o : Operand}
    (ho : (allCells is)[k]? = some o) : code[a + k]? = some (o.resolve env) := by
  induction is generalizing a k with
  | nil => simp at ho
  | cons i is ih =>
    cases i with
    | place l => exact ih h.2 ho
    | instr op operands =>
      rw [allCells_cons] at ho
      rcases Nat.lt_or_ge k (cells (.instr op operands)).length with hk | hk
      · rw [List.getElem?_append_left hk] at ho
        exact h.1 k o ho
      · rw [List.getElem?_append_right hk] at ho
        have hrest := ih h.2 ho
        have hlength : (cells (.instr op operands)).length = operands.length + 1 := rfl
        rw [hlength] at hk hrest
        rwa [Nat.add_assoc, Nat.add_sub_cancel' hk] at hrest

/-- Code in which nothing but the items lies. -/
theorem Lies.toList_eq {code : Array Word} (h : Lies code env 0 is) (hsize : code.size = size is) :
    code.toList = (allCells is).map (Operand.resolve env) := by
  refine List.ext_getElem? fun k => ?_
  rw [Array.getElem?_toList, List.getElem?_map]
  cases ho : (allCells is)[k]? with
  | some o => simpa using h.getElem? ho
  | none =>
    rw [List.getElem?_eq_none_iff] at ho
    rw [Option.map_none, Array.getElem?_eq_none_iff, hsize]
    exact ho

end Item

/-- An operation has at most one operand. -/
theorem Op.arity_le (op : Op) : op.arity ≤ 1 := by
  cases op <;> decide

/-- The instruction behind one of the items. -/
theorem Instruction.next_eq (env : Addresses) (a : Nat) (pre : List Item) {op : Op}
    {operands : List Operand} (h : operands.length = op.arity) :
    (Instruction.mk (a + Item.size pre) op (operands.map (Operand.resolve env)).head?).next =
      a + Item.size (pre ++ [.instr op operands]) := by
  have := op.arity_le
  rw [Instruction.next, Instruction.words, Item.size_append, Item.size_instr, Item.size_nil]
  cases operands with
  | nil => simp [Nat.add_assoc]
  | cons o os =>
    rw [List.length_cons] at h
    obtain rfl : os = [] := List.eq_nil_of_length_eq_zero (by omega)
    simp [Nat.add_assoc]

/-- The words of items are read as their instructions. -/
theorem Code.decodeFrom_words {env : Addresses} {a : Nat} {is : List Item} (h : ∀ i ∈ is, i.Fits) :
    Code.decodeFrom a ((Item.allCells is).map (Operand.resolve env)) =
      .ok (Item.instructions env a is) := by
  induction is generalizing a with
  | nil => rfl
  | cons i is ih =>
    rw [List.forall_mem_cons] at h
    cases i with
    | place l => exact ih h.2
    | instr op operands =>
      have hop : op.arity ≤ 1 := op.arity_le
      have hlength : operands.length = op.arity := h.1
      rw [Item.allCells_cons, Item.cells, List.cons_append, List.map_cons, Operand.resolve,
        Item.instructions]
      unfold Code.decodeFrom
      simp only [Op.ofWord?_word]
      cases operands with
      | nil =>
        rw [if_pos (show op.arity = 0 from hlength.symm), List.nil_append, ih h.2]
        rfl
      | cons o os =>
        rw [List.length_cons] at hlength
        obtain rfl : os = [] := List.eq_nil_of_length_eq_zero (by omega)
        rw [if_neg (by omega), List.cons_append, List.nil_append, List.map_cons]
        simp only [ih h.2]
        rfl

end StackLang
