import StackLang.Proofs.Code.Shape

/-!
# Labels in symbolic code

The labels that are placed in some code and those that it refers to.
-/

namespace StackLang

/-! ## Items -/

def Operand.label? : Operand → Option LabelId
  | word _ => none
  | label l => some l

namespace Item

def place? : Item → Option LabelId
  | place l => some l
  | instr _ _ => none

def labels : Item → List LabelId
  | place _ => []
  | instr _ operands => operands.filterMap Operand.label?

/-- The labels that are placed in the code. -/
def placed (is : List Item) : List LabelId :=
  is.filterMap place?

/-- The labels that the code refers to. -/
def refs (is : List Item) : List LabelId :=
  is.flatMap labels

@[simp] theorem placed_nil : placed [] = [] := rfl

@[simp] theorem placed_append (is js : List Item) : placed (is ++ js) = placed is ++ placed js := by
  simp [placed]

@[simp] theorem placed_place (l : LabelId) (is : List Item) :
    placed (place l :: is) = l :: placed is :=
  rfl

@[simp] theorem placed_instr (op : Op) (operands : List Operand) (is : List Item) :
    placed (instr op operands :: is) = placed is := rfl

theorem mem_placed_iff {is : List Item} {l : LabelId} : l ∈ placed is ↔ .place l ∈ is := by
  rw [placed, List.mem_filterMap]
  refine ⟨fun ⟨i, hi, hl⟩ => ?_, fun h => ⟨_, h, rfl⟩⟩
  cases i with
  | place k =>
    cases hl
    exact hi
  | instr op operands => cases hl

@[simp] theorem refs_nil : refs [] = [] := rfl

@[simp] theorem refs_append (is js : List Item) : refs (is ++ js) = refs is ++ refs js := by
  simp [refs]

@[simp] theorem refs_place (l : LabelId) (is : List Item) : refs (place l :: is) = refs is := by
  simp [refs, labels]

@[simp] theorem placed_plain (op : Op) (is : List Item) : placed (plain op :: is) = placed is := rfl

@[simp] theorem refs_plain (op : Op) (is : List Item) : refs (plain op :: is) = refs is := by
  simp [refs, labels, plain]

@[simp] theorem placed_withWord (op : Op) (w : Word) (is : List Item) :
    placed (withWord op w :: is) = placed is := rfl

@[simp] theorem refs_withWord (op : Op) (w : Word) (is : List Item) :
    refs (withWord op w :: is) = refs is := by
  simp [refs, labels, withWord, Operand.label?]

@[simp] theorem placed_withSlot (op : Op) (slot : Int) (is : List Item) :
    placed (withSlot op slot :: is) = placed is := rfl

@[simp] theorem placed_withLabel (op : Op) (l : LabelId) (is : List Item) :
    placed (withLabel op l :: is) = placed is := rfl

@[simp] theorem refs_withLabel (op : Op) (l : LabelId) (is : List Item) :
    refs (withLabel op l :: is) = l :: refs is := by
  simp [refs, labels, withLabel, Operand.label?]

@[simp] theorem placed_reserving (cells : Nat) : placed (reserving cells) = [] := by
  rw [reserving]
  split <;> rfl

end Item

/-- The labels that the code refers to are placed in it, or satisfy `A`. -/
def Item.Within (A : LabelId → Prop) (is : List Item) : Prop :=
  ∀ l ∈ Item.refs is, l ∈ Item.placed is ∨ A l

end StackLang
