import StackLang.Machine.Basic
import StackLang.Token.Report

/-!
# Commands and their arguments

A command is given by its name, followed by the file it works on and by options, in any order.  An
option with a value has it as the next argument or behind an equals sign; no option may be given
twice.
-/

namespace StackLang

/-- What the user asks for. -/
inductive Command where
  | version
  /-- Compiles and executes a program. -/
  | run (file : String) (config : MachineConfig)
  /-- Reports what is wrong with a program. -/
  | check (file : String)
  /-- Shows the tokens of a program. -/
  | tokens (file : String) (style : Token.ReportStyle)
  /-- Shows a program as it was parsed. -/
  | ast (file : String)
  /-- Shows the code of a program. -/
  | disasm (file : String)
  /-- Compiles a program to an image. -/
  | build (file : String) (output : Option String)
  /-- Executes an image. -/
  | exec (file : String) (config : MachineConfig)
  deriving DecidableEq, Repr

/-- Arguments by kind. -/
structure Arguments where
  files : List String := []
  switches : List String := []
  values : List (String × String) := []
  deriving DecidableEq, Repr

namespace Arguments

def addFile (a : Arguments) (file : String) : Arguments :=
  { a with files := file :: a.files }

def addSwitch (a : Arguments) (name : String) : Option Arguments :=
  if a.switches.contains name then none else some { a with switches := name :: a.switches }

def addValue (a : Arguments) (name value : String) : Option Arguments :=
  if a.values.any (·.1 == name) then none else some { a with values := (name, value) :: a.values }

/-- Whether an argument is an option. -/
def isOption (arg : String) : Bool :=
  match arg.toList with
  | '-' :: _ :: _ => true
  | _ => false

/-- The name of an option and the value that is written together with it.  A name of one letter may
be followed by its value directly. -/
def splitOption (arg : String) : String × Option String :=
  match arg.toList with
  | '-' :: '-' :: _ =>
    let name := arg.toList.takeWhile (· ≠ '=')
    match arg.toList.drop name.length with
    | [] => (arg, none)
    | _ :: value => (String.ofList name, some (String.ofList value))
  | '-' :: letter :: rest =>
    let name := String.ofList ['-', letter]
    match rest with
    | [] => (name, none)
    | '=' :: value => (name, some (String.ofList value))
    | value => (name, some (String.ofList value))
  | _ => (arg, none)

/-- Sorts arguments by kind.  There is no result if an option is unknown, given twice or without
its value. -/
def ofList? (switches valued : List String) : List String → Option Arguments
  | [] => some {}
  | "--" :: rest => some { files := rest }
  | arg :: rest =>
    if isOption arg then
      match splitOption arg with
      | (name, some value) =>
        if valued.contains name then
          (ofList? switches valued rest).bind (·.addValue name value)
        else none
      | (name, none) =>
        if switches.contains name then
          (ofList? switches valued rest).bind (·.addSwitch name)
        else if valued.contains name then
          match rest with
          | value :: rest =>
            if isOption value then none
            else (ofList? switches valued rest).bind (·.addValue name value)
          | [] => none
        else none
    else (ofList? switches valued rest).map (·.addFile arg)

/-- The value of an option. -/
def value? (a : Arguments) (names : List String) : Option String :=
  (a.values.find? fun (name, _) => names.contains name).map Prod.snd

/-- A natural number of 64 bits, possibly with a plus sign. -/
def number? (s : String) : Option Nat :=
  let digits := match s.toList with
    | '+' :: rest => rest
    | cs => cs
  if digits ≠ [] ∧ digits.all Char.isDigit then
    let n := digits.foldl (fun n c => 10 * n + (c.toNat - '0'.toNat)) 0
    if n < 0x10000000000000000 then some n else none
  else none

/-- The number that an option gives, or `default` if it is not there. -/
def numberOr? (a : Arguments) (name : String) (default : Option Nat) : Option (Option Nat) :=
  match a.value? [name] with
  | some s => (number? s).map some
  | none => some default

/-- The configuration of the machine. -/
def config? (a : Arguments) : Option MachineConfig := do
  let standard : MachineConfig := {}
  let cells ← a.numberOr? "--stack-cells" (some standard.stackCells)
  let steps ← a.numberOr? "--max-steps" standard.maxSteps
  let seed ← a.numberOr? "--seed" none
  return {
    stackCells := cells.getD standard.stackCells
    maxSteps := steps
    seed := (seed.map UInt64.ofNat).getD standard.seed }

/-- The only file, if there is exactly one. -/
def file? (a : Arguments) : Option String :=
  match a.files with
  | [file] => some file
  | _ => none

end Arguments

namespace Command

/-- The options of the machine. -/
def machineOptions : List String := ["--stack-cells", "--max-steps", "--seed"]

/-- The command that arguments spell out. -/
def ofArguments? : List String → Option Command
  | [] => none
  | name :: rest =>
    match name with
    | "--version" | "-V" => some .version
    | "run" => do
      let a ← Arguments.ofList? [] machineOptions rest
      return .run (← a.file?) (← a.config?)
    | "exec" => do
      let a ← Arguments.ofList? [] machineOptions rest
      return .exec (← a.file?) (← a.config?)
    | "check" => do
      let a ← Arguments.ofList? [] [] rest
      return .check (← a.file?)
    | "tokens" => do
      let a ← Arguments.ofList? ["--no-color", "--pretty"] [] rest
      return .tokens (← a.file?)
        ⟨!a.switches.contains "--no-color", a.switches.contains "--pretty"⟩
    | "ast" => do
      let a ← Arguments.ofList? [] [] rest
      return .ast (← a.file?)
    | "disasm" => do
      let a ← Arguments.ofList? [] [] rest
      return .disasm (← a.file?)
    | "build" => do
      let a ← Arguments.ofList? [] ["-o", "--output"] rest
      return .build (← a.file?) (a.value? ["-o", "--output"])
    | _ => none

/-- The file that a command reads. -/
def file? : Command → Option String
  | version => none
  | run file _ | check file | tokens file _ | ast file | disasm file | build file _ | exec file _ =>
    some file

end Command

end StackLang
