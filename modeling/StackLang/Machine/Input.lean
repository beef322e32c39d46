import StackLang.Double.Reading
import StackLang.Machine.Basic
import StackLang.Text.Blank

/-!
# Input

Input is read by lines.  A line is taken off the input before it is looked at, so one that is not
what was asked for is gone as well.
-/

namespace StackLang

/-- Takes the first line off, with the line feed that ends it. -/
def takeLine : Bytes → Bytes × Bytes
  | [] => ([], [])
  | b :: rest =>
    if b = 10 then ([b], rest)
    else
      let (line, rest) := takeLine rest
      (b :: line, rest)

/-- A line without the line feeds and carriage returns at its end. -/
def chomp (line : String) : String :=
  String.ofList (line.toList.reverse.dropWhile fun c => c = '\n' || c = '\r').reverse

/-- The integer that a line holds: an optional sign and digits, within the range of a word, with
blanks around them. -/
def integer? (line : String) : Option Word :=
  let (negative, digits) := Double.takeSign (Text.trim line.toList)
  if digits ≠ [] ∧ digits.all Char.isDigit then
    let n : Int := Double.digitsValue digits
    let n := if negative then -n else n
    if Word.inRange n then some (Int64.ofInt n) else none
  else none

/-- The number that a line holds, with blanks around it. -/
def number? (line : String) : Option Word :=
  Double.parse? (Text.trim line.toList)

namespace Machine

/-- Reads a line. -/
def readLine : Exec String := fun m =>
  let (line, rest) := takeLine m.input
  if line.isEmpty then .error (.invalidInput .endOfInput) m
  else
    match Text.ofUtf8? line with
    | some s => .ok (chomp s) { m with input := rest }
    | none => .error .notText { m with input := rest }

/-- Reads a line that `read?` understands. -/
def readValue (read? : String → Option Word) (error : String → InputError) : Exec Word := do
  let line ← readLine
  match read? line with
  | some w => return w
  | none => throw (.invalidInput (error line))

/-- Reads a line and gives its key. -/
def readString : Exec Word := do
  let line ← readLine
  modifyGet fun m =>
    let (key, strings) := m.strings.intern line
    (key, { m with strings := strings })

/-- The code point of the first character of a line. -/
def character? (line : String) : Option Word :=
  line.toList.head?.map fun c => Word.ofNat c.toNat

end Machine

end StackLang
