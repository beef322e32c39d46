import StackLang.Code.StringPool
import StackLang.Machine.Fault
import StackLang.Text.Utf8

/-!
# The machine

Code and stack share one memory: the code comes first and is never written to, the stack grows
upward behind it.  Cells of the running function are addressed relative to its base.  All accesses
are checked; one that fails stops the machine with a fault and leaves the state as it was reached.
-/

namespace StackLang

/-- How much a machine may use, and where its random numbers start. -/
structure MachineConfig where
  stackCells : Nat := 65536
  /-- The number of instructions that a run may execute. -/
  maxSteps : Option Nat := none
  seed : UInt64 := 0x5EED
  deriving DecidableEq, Repr

/-- The state of the machine. -/
structure Machine where
  /-- The number of cells that the code takes. -/
  codeLen : Nat
  mem : Array Word
  /-- The address of the next word to be fetched. -/
  ip : Nat
  /-- The address behind the top of the stack. -/
  sp : Nat
  /-- The base of the running function's cells. -/
  bp : Nat
  strings : StringPool
  /-- What is left of the input. -/
  input : Bytes
  /-- What has been written. -/
  output : String
  /-- The state of the random numbers. -/
  rng : UInt64
  deriving DecidableEq, Repr

/-- A piece of execution.  A fault keeps the state at which it arose. -/
abbrev Exec := EStateM Fault Machine

namespace Machine

/-- A machine that is ready to run some code. -/
def load (code : Array Word) (strings : StringPool) (input : Bytes) (config : MachineConfig) :
    Machine where
  codeLen := code.size
  mem := code ++ Array.replicate config.stackCells 0
  ip := 0
  sp := code.size
  bp := code.size
  strings := strings
  input := input
  output := ""
  rng := config.seed

/-- The machine at the beginning of a run.  The memory, the strings, what is left of the input and
the random numbers stay as they are. -/
def reset (m : Machine) : Machine :=
  { m with ip := 0, sp := m.codeLen, bp := m.codeLen }

/-- The number of values on the stack. -/
def depth (m : Machine) : Nat :=
  m.sp - m.codeLen

/-- The cell at an address, zero outside the memory. -/
def cell (m : Machine) (address : Nat) : Word :=
  m.mem.getD address 0

/-- The status with which the program ends: the top of the stack, or zero if it is empty. -/
def status (m : Machine) : Word :=
  if m.codeLen < m.sp then m.cell (m.sp - 1) else 0

/-- The memory fault for an access to the given address. -/
def fault (m : Machine) (address : Int) : Fault :=
  .memory m.ip address

/-- Whether an address is one of the stack. -/
def inStack (m : Machine) (address : Int) : Bool :=
  decide (m.codeLen ≤ address) && decide (address < m.mem.size)

theorem inStack_iff {m : Machine} {address : Int} :
    m.inStack address = true ↔ m.codeLen ≤ address ∧ address < m.mem.size := by
  simp [inStack]

/-- The address of a cell of the stack. -/
def stackAddress (address : Int) : Exec Nat := fun m =>
  if m.inStack address then .ok address.toNat m else .error (m.fault address) m

/-- The address of the cell at an offset from the base. -/
def frameAddress (offset : Word) : Exec Nat := fun m =>
  let address := m.bp + offset.toInt
  if Word.inRange address then stackAddress address m else .error (m.fault offset.toInt) m

/-- Reads a cell. -/
def readCell (address : Nat) : Exec Word := fun m =>
  .ok (m.cell address) m

/-- Writes a cell. -/
def writeCell (address : Nat) (w : Word) : Exec Unit := fun m =>
  .ok () { m with mem := m.mem.setIfInBounds address w }

/-- Puts a word on the stack. -/
def push (w : Word) : Exec Unit := fun m =>
  if m.sp < m.mem.size then
    .ok () { m with mem := m.mem.setIfInBounds m.sp w, sp := m.sp + 1 }
  else .error (m.fault m.sp) m

/-- Takes a word off the stack. -/
def pop : Exec Word := fun m =>
  if m.codeLen < m.sp then .ok (m.cell (m.sp - 1)) { m with sp := m.sp - 1 }
  else .error (m.fault (m.sp - 1)) m

/-- Fetches the next word of the code. -/
def fetch : Exec Word := fun m =>
  if m.ip < m.codeLen then .ok (m.cell m.ip) { m with ip := m.ip + 1 }
  else .error (m.fault m.ip) m

/-- Goes on at an address of the code. -/
def jump (target : Word) : Exec Unit := fun m =>
  match target.toIndex? with
  | some t => if t < m.codeLen then .ok () { m with ip := t } else .error (m.fault target.toInt) m
  | none => .error (m.fault target.toInt) m

/-- Writes text to the output. -/
def write (s : String) : Exec Unit := fun m =>
  .ok () { m with output := m.output ++ s }

end Machine

end StackLang
