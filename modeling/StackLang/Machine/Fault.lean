import StackLang.Text.Padding
import StackLang.Text.Quoted
import StackLang.Word

/-!
# Faults

What can stop the machine other than an exit.
-/

namespace StackLang

/-- Why a line of input is not what was asked for. -/
inductive InputError where
  | endOfInput
  | notInteger (line : String)
  | notNumber (line : String)
  | noCharacter
  deriving DecidableEq, Repr

namespace InputError

def message : InputError → String
  | endOfInput => "unexpected end of input"
  | notInteger line => "expected an integer, got " ++ Text.quote line
  | notNumber line => "expected a number, got " ++ Text.quote line
  | noCharacter => "expected a character"

end InputError

/-- A fault that stops the machine. -/
inductive Fault where
  | unknownOp (ip : Nat) (word : Word)
  /-- An access outside the stack, a jump outside the code, or code that ends.  Stack overflow and
  underflow are among these. -/
  | memory (ip : Nat) (address : Int)
  | divisionByZero (ip : Nat)
  | stepLimit (limit : Nat)
  | unknownString (ip : Nat) (key : Word)
  | invalidInput (e : InputError)
  /-- A line of input is not UTF-8. -/
  | notText
  deriving DecidableEq, Repr

namespace Fault

/-- What is said about a line that is not UTF-8. -/
def notTextMessage : String := "stream did not contain valid UTF-8"

def message (f : Fault) : String :=
  "runtime error: " ++
    match f with
    | unknownOp ip word =>
      "unknown opcode " ++ toString word.toInt ++ " at " ++ Text.zeroPadded 4 ip
    | memory ip address =>
      "memory fault at address " ++ toString address ++ " (ip " ++ Text.zeroPadded 4 ip ++ ")"
    | divisionByZero ip => "division by zero at " ++ Text.zeroPadded 4 ip
    | stepLimit limit => "step limit exceeded (" ++ toString limit ++ ")"
    | unknownString ip key =>
      "unknown string key " ++ toString key.toInt ++ " at " ++ Text.zeroPadded 4 ip
    | invalidInput e => "invalid input: " ++ e.message
    | notText => notTextMessage

end Fault

end StackLang
