import StackLang.Code.Generate
import StackLang.Program.Layout
import StackLang.Typing

/-!
# From text to code

The way of a program from its text to its code: tokens, tree, names, types, code.  Names and types
are both checked before anything is reported; a frame whose cells cannot be counted in a word ends
everything before that.
-/

namespace StackLang

/-- Why a text has no code. -/
inductive CompileError where
  | scan (e : ScanError)
  | parse (e : ParseError)
  /-- The count of the cells of a function leaves the range of a word. -/
  | frameOverflow
  | diagnostics (names : List NameError) (types : List TypeError)
  | generate (e : GenerateError)
  deriving DecidableEq, Repr

namespace CompileError

def message : CompileError → String
  | scan e => "lex error: " ++ e.message
  | parse e => "parse error: " ++ e.message
  | frameOverflow => "attempt to add with overflow"
  | diagnostics names types =>
    toString names.length ++ " scope error(s), " ++ toString types.length ++ " type error(s)"
  | generate e => e.message

/-- Everything there is to report, the names before the types. -/
def messages : CompileError → List String
  | diagnostics names types => names.map NameError.message ++ types.map TypeError.message
  | e => [e.message]

end CompileError

/-- The program that a text spells out. -/
def parseSource (source : String) : Except CompileError Program := do
  let tokens ← (Token.scan source).mapError .scan
  (Program.parse tokens).mapError .parse

/-- Resolves the names and checks the types of a program. -/
def Program.analyze (p : Program) : Program × List NameError × List TypeError :=
  let (p, names) := p.resolve
  let (p, types) := p.check
  (p, names, types)

/-- The program that a text spells out, if its names and types are right. -/
def analyzeSource (source : String) : Except CompileError Program := do
  let (p, names, types) := (← parseSource source).analyze
  if !p.framesFit then throw .frameOverflow
  else if names.isEmpty && types.isEmpty then return p
  else throw (.diagnostics names types)

/-- The code of the program that a text spells out. -/
def compileSource (source : String) : Except CompileError Generated := do
  let p ← analyzeSource source
  p.generate.mapError .generate

end StackLang
