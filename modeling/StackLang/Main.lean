import StackLang.Command.Task
import StackLang.Machine.Run

/-!
# The program

Carries out the command that is given on the command line.  A program that is executed reads a line
of input only when it asks for one, and what it has written by then is shown before.
-/

namespace StackLang

/-- Reads a line, with the line feed that ends it. -/
partial def readLineBytes (input : IO.FS.Stream) (line : ByteArray) : IO Bytes := do
  let chunk ← input.read 1
  let line := line ++ chunk
  if chunk.isEmpty || chunk.data.back? = some 10 then return line.data.toList
  else readLineBytes input line

/-- Executes at most `steps` instructions. -/
partial def drive (input output : IO.FS.Stream) (limit steps : Nat) (m : Machine) :
    IO (Except Fault Word × Machine) := do
  if steps = 0 then return (.error (.stepLimit limit), m)
  let m ←
    if (m.nextOp?.map Op.readsLine).getD false then do
      output.putStr m.output
      output.flush
      let line ← if m.input.isEmpty then readLineBytes input .empty else pure m.input
      pure { m with output := "", input := line }
    else pure m
  match Machine.step m with
  | .ok (some status) m => return (.ok status, m)
  | .ok none m => drive input output limit (steps - 1) m
  | .error f m => return (.error f, m)

/-- Why a file cannot be used. -/
def fileErrorOf : IO.Error → FileError
  | .noFileOrDirectory _ _ _ => .missing
  | e => .other (toString e)

/-- The content of a file. -/
def readBytes (file : String) : IO (Except FileError Bytes) := do
  try
    let bytes ← IO.FS.readBinFile file
    return .ok bytes.data.toList
  catch e => return .error (fileErrorOf e)

/-- Writes a file. -/
def writeBytes (file : String) (bytes : Bytes) : IO (Except FileError Unit) := do
  try
    IO.FS.writeBinFile file ⟨bytes.toArray⟩
    return .ok ()
  catch e => return .error (fileErrorOf e)

/-- Does what is left to do for a command. -/
def Task.perform : Task → IO Report
  | finish r => return r
  | save file bytes => return .ofSaving file (← writeBytes file bytes)
  | execute code strings config => do
    let limit := config.maxSteps.getD Machine.mostSteps
    let (outcome, m) ← drive (← IO.getStdin) (← IO.getStdout) limit limit
      (.load code strings [] config)
    return .ofRun m.output outcome

end StackLang

open StackLang in
def main (args : List String) : IO UInt32 := do
  let r ← match Command.ofArguments? args with
    | none => pure Report.usage
    | some c =>
      let content ← match c.file? with
        | some file => readBytes file
        | none => pure (.error .missing)
      (c.task content).perform
  (← IO.getStdout).putStr r.output
  (← IO.getStdout).flush
  (← IO.getStderr).putStr r.errors
  return r.status.toUInt32
