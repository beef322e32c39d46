import StackLang.Code.Image
import StackLang.Compile
import StackLang.Machine.Fault

/-!
# Reports

What a command leaves: text on the two output channels and a status.  A failure has a message and
the causes behind it, from the outermost to the innermost; several causes are numbered.
-/

namespace StackLang

/-- Why a file cannot be read or written. -/
inductive FileError where
  | missing
  | notText
  | other (text : String)
  deriving DecidableEq, Repr

namespace FileError

def message : FileError → String
  | missing => "No such file or directory (os error 2)"
  | notText => "stream did not contain valid UTF-8"
  | other text => text

end FileError

/-- What a command leaves. -/
structure Report where
  status : Nat := 0
  output : String := ""
  errors : String := ""
  deriving DecidableEq, Repr

/-- Why a command fails.  The remarks are shown before the message. -/
structure Failure where
  message : String
  causes : List String := []
  remarks : List String := []
  deriving DecidableEq, Repr

namespace Failure

/-- A text in which every line but the first is indented. -/
def hang (indent : String) (s : String) : String :=
  String.join (s.toList.map fun c => if c = '\n' then "\n" ++ indent else c.toString)

/-- The causes, one below the other. -/
def causeLines : List String → List String
  | [] => []
  | [cause] => ["    " ++ hang "    " cause]
  | causes => causes.mapIdx fun i cause => "    " ++ toString i ++ ": " ++ hang "       " cause

def render (f : Failure) : String :=
  String.join (f.remarks.map (· ++ "\n")) ++ "Error: " ++ f.message ++ "\n" ++
    if f.causes.isEmpty then ""
    else "\nCaused by:\n" ++ String.join ((causeLines f.causes).map (· ++ "\n"))

/-- The report of a failure. -/
def report (f : Failure) (output : String) : Report :=
  ⟨1, output, f.render⟩

/-- A failure on the way from text to code. -/
def ofCompileError (e : CompileError) : Failure :=
  let causes := match e with
    | .scan e => [e.message]
    | .parse e => [e.message]
    | _ => []
  ⟨e.message, causes, []⟩

/-- Like `ofCompileError`, with everything there is to say about names and types. -/
def ofDiagnosed (e : CompileError) : Failure :=
  let remarks := match e with
    | .diagnostics _ _ => e.messages
    | _ => []
  { ofCompileError e with remarks := remarks }

/-- A fault of the machine. -/
def ofFault (f : Fault) : Failure :=
  let causes := match f with
    | .notText => [Fault.notTextMessage]
    | _ => []
  ⟨f.message, causes, []⟩

/-- A text that cannot be read. -/
def ofReading (file : String) (e : FileError) : Failure :=
  ⟨"failed to read '" ++ file ++ "'", [e.message], []⟩

/-- What goes wrong with the file of an image. -/
def fileCauses (e : FileError) : List String :=
  ["image i/o failed: " ++ e.message, e.message]

/-- What is wrong with the bytes of an image. -/
def imageCauses : ImageError → List String
  | .decode e => [(ImageError.decode e).message, e.message]
  | e => [e.message]

/-- An image that cannot be read, for the given causes. -/
def ofLoading (file : String) (causes : List String) : Failure :=
  ⟨"failed to load '" ++ file ++ "'", causes, []⟩

/-- An image that cannot be written. -/
def ofWriting (file : String) (e : FileError) : Failure :=
  ⟨"failed to write '" ++ file ++ "'", fileCauses e, []⟩

end Failure

end StackLang
