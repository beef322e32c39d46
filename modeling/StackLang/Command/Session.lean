import StackLang.Command.Task
import StackLang.Machine.Run

/-!
# Sessions

Commands carried out on files that are kept in memory.  A directory exists if a file is in it.
-/

namespace StackLang

/-- Files by name. -/
structure Files where
  entries : List (String × Bytes) := []
  deriving DecidableEq, Repr

namespace Files

def get? (fs : Files) (name : String) : Option Bytes :=
  fs.entries.lookup name

def read (fs : Files) (name : String) : Except FileError Bytes :=
  match fs.get? name with
  | some bytes => .ok bytes
  | none => .error .missing

/-- Whether a directory exists. -/
def hasDirectory (fs : Files) (directory : String) : Bool :=
  directory = "" || fs.entries.any fun (name, _) => Path.directory name == directory

/-- Replaces or adds a file. -/
def insert (fs : Files) (name : String) (bytes : Bytes) : Files :=
  ⟨(name, bytes) :: fs.entries.filter (·.1 != name)⟩

def write (fs : Files) (name : String) (bytes : Bytes) : Except FileError Files :=
  if fs.hasDirectory (Path.directory name) then .ok (fs.insert name bytes) else .error .missing

end Files

namespace Command

/-- Executes a program on the whole input. -/
def executed (code : Array Word) (strings : StringPool) (config : MachineConfig) (input : Bytes) :
    Report :=
  match Machine.run config.maxSteps (.load code strings input config) with
  | .ok status m => .ofRun m.output (.ok status)
  | .error f m => .ofRun m.output (.error f)

/-- Carries out a command. -/
def perform (c : Command) (fs : Files) (input : Bytes) : Report × Files :=
  match c.task (fs.read (c.file?.getD "")) with
  | .finish r => (r, fs)
  | .save file bytes =>
    match fs.write file bytes with
    | .ok fs => (.ofSaving file (.ok ()), fs)
    | .error e => (.ofSaving file (.error e), fs)
  | .execute code strings config => (executed code strings config input, fs)

/-- Carries out the command that arguments spell out. -/
def invoke (args : List String) (fs : Files) (input : Bytes) : Report × Files :=
  match ofArguments? args with
  | some c => c.perform fs input
  | none => (.usage, fs)

end Command

end StackLang
