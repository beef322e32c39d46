/-!
# Types of values

The static types of the language.  Storing a value into a variable keeps its type, with one
exception: a floating-point number may be stored as an integer, and is then narrowed.
-/

namespace StackLang

/-- The type of a value.  `void` is only the return type of a function. -/
inductive ValueType where
  | int
  | float
  | bool
  | char
  | string
  | void
  deriving DecidableEq, Repr, Inhabited

namespace ValueType

/-- The name of the type in messages. -/
def name : ValueType → String
  | int => "INT"
  | float => "FLOAT"
  | bool => "BOOL"
  | char => "CHAR"
  | string => "STRING"
  | void => "VOID"

def isNumeric : ValueType → Bool
  | int | float => true
  | _ => false

/-- Whether storing a value of type `source` converts a floating-point number to an integer. -/
def narrows (target source : ValueType) : Bool :=
  target = int && source = float

/-- The type of a value of type `source` after it is stored as `target`, if that is allowed. -/
def store? (target source : ValueType) : Option ValueType :=
  if target = source ∧ target ≠ void then some source
  else if target.narrows source then some int
  else none

/-- A value can be stored exactly where its type is not void and is kept, or is narrowed. -/
theorem store?_eq_some_iff {target source result : ValueType} :
    store? target source = some result ↔
      result = target ∧ target ≠ void ∧ (source = target ∨ target.narrows source = true) := by
  cases target <;> cases source <;> cases result <;> decide

end ValueType

end StackLang
