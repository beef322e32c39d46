import StackLang.ValueType
import StackLang.Word

/-!
# Literals

The values that can be written down in a program.  A floating-point literal is kept as its bits.
-/

namespace StackLang

/-- A value written in a program. -/
inductive Literal where
  | int (value : Word)
  | float (bits : Word)
  | bool (value : Bool)
  | char (value : Char)
  | str (value : String)
  deriving DecidableEq, Repr

namespace Literal

def type : Literal → ValueType
  | int _ => .int
  | float _ => .float
  | bool _ => .bool
  | char _ => .char
  | str _ => .string

end Literal

end StackLang
