import StackLang.Code.Listing
import StackLang.Command.Arguments
import StackLang.Command.Path
import StackLang.Command.Report
import StackLang.Program.Printout

/-!
# What commands do

Once its file is read, a command is a task that needs the outside at most once more: to write a
file, or to execute a program.
-/

namespace StackLang

/-- What is left to do for a command. -/
inductive Task where
  | finish (r : Report)
  | save (file : String) (bytes : Bytes)
  | execute (code : Array Word) (strings : StringPool) (config : MachineConfig)
  deriving DecidableEq, Repr

namespace Command

/-- The extension that the texts of programs must have. -/
def sourceExtension : String := "cn"

/-- The extension of images. -/
def imageExtension : String := "cnb"

/-- The text in a file. -/
def sourceOf (file : String) (content : Except FileError Bytes) : Except Failure String :=
  if Path.extension? file ≠ some sourceExtension then
    .error ⟨"expected a ." ++ sourceExtension ++ " file, got " ++ file, [], []⟩
  else
    match content with
    | .error e => .error (.ofReading file e)
    | .ok bytes =>
      match Text.ofUtf8? bytes with
      | some s => .ok s
      | none => .error (.ofReading file .notText)

/-- The image in a file. -/
def imageOf (file : String) (content : Except FileError Bytes) : Except Failure Image :=
  match content with
  | .error e => .error (.ofLoading file (Failure.fileCauses e))
  | .ok bytes => (Image.ofBytes bytes).mapError fun e => .ofLoading file (Failure.imageCauses e)

/-- The code of the program in a file. -/
def codeOf (file : String) (content : Except FileError Bytes) : Except Failure Generated := do
  let source ← sourceOf file content
  (compileSource source).mapError .ofDiagnosed

/-- Shows a text and is done. -/
def shown (text : String) : Task :=
  .finish { output := text }

/-- What is left to do for a command whose file has the given content, unless it fails. -/
def attempt (content : Except FileError Bytes) : Command → Except Failure Task
  | version => return shown "cinder 0.1.0\n"
  | run file config => do
    let g ← codeOf file content
    return .execute g.code g.strings config
  | check file => do
    let source ← sourceOf file content
    let _ ← (analyzeSource source).mapError .ofDiagnosed
    return shown (file ++ ": ok\n")
  | tokens file style => do
    let source ← sourceOf file content
    let tokens ← (Token.scan source).mapError fun e => .ofCompileError (.scan e)
    return shown (Token.report style tokens)
  | ast file => do
    let source ← sourceOf file content
    let p ← (parseSource source).mapError .ofCompileError
    return shown ("== AST (" ++ file ++ ") ==\n" ++ p.printout ++ "\n")
  | disasm file => do
    let g ← codeOf file content
    return shown (Listing.render g.code.toList g.strings g.symbols)
  | build file output => do
    let g ← codeOf file content
    return .save (output.getD (Path.replaceExtension file imageExtension))
      (Image.mk g.code g.strings g.symbols).toBytes
  | exec file config => do
    let image ← imageOf file content
    return .execute image.code image.strings config

/-- What is left to do for a command whose file has the given content. -/
def task (content : Except FileError Bytes) (c : Command) : Task :=
  match c.attempt content with
  | .ok t => t
  | .error f => .finish (f.report "")

end Command

namespace Report

/-- After writing a file. -/
def ofSaving (file : String) : Except FileError Unit → Report
  | .ok _ => {}
  | .error e => (Failure.ofWriting file e).report ""

/-- After a run.  The status counts modulo 256. -/
def ofRun (output : String) : Except Fault Word → Report
  | .ok status => { status := (status.toInt % 256).toNat, output := output }
  | .error f => (Failure.ofFault f).report output

/-- After arguments that spell out no command. -/
def usage : Report where
  status := 2
  errors := "error: usage: cinder <run|check|tokens|ast|disasm|build|exec> [OPTIONS] <FILE>\n"

end Report

end StackLang
