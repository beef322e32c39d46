import StackLang.Code.Label
import StackLang.Code.Op

/-!
# Symbolic code

Instructions whose operands may be labels, with marks that say where the labels are.  Assembling
turns symbolic code into words; it emits the instructions in order, so the address of an item is the
number of words emitted before it.
-/

namespace StackLang

inductive Operand where
  | word (w : Word)
  | label (l : LabelId)
  deriving DecidableEq, Repr

/-- An instruction, or the place of a label. -/
inductive Item where
  | instr (op : Op) (operands : List Operand)
  | place (l : LabelId)
  deriving DecidableEq, Repr

namespace Assembly

/-- Emits an operand. -/
def operand (a : Assembly) : Operand → Assembly
  | .word w => a.emit [w]
  | .label l => (a.emit [0]).reference l a.code.size

/-- Emits an instruction, or places a label. -/
def item (a : Assembly) : Item → Assembly
  | .instr op operands => operands.foldl operand (a.emit [op.word])
  | .place l => a.place l

/-- Assembles symbolic code. -/
def items (a : Assembly) (is : List Item) : Assembly :=
  is.foldl item a

/-- No code yet, and the given number of labels. -/
def withLabels (count : Nat) : Assembly :=
  ⟨#[], Array.replicate count {}⟩

end Assembly

end StackLang
