import StackLang.Machine.Step

/-!
# Runs

A run executes instructions from address zero on until an exit, a fault or the limit.  Steps are
counted in 64 bits; without a limit, a run has as many steps as that count can hold.
-/

namespace StackLang.Machine

/-- Executes at most `n` instructions, then reports that `limit` is exceeded. -/
def runWithin (limit : Nat) : Nat → Exec Word
  | 0 => throw (.stepLimit limit)
  | n + 1 => do
    match ← step with
    | some status => return status
    | none => runWithin limit n

/-- The greatest count of steps. -/
def mostSteps : Nat := 0xFFFFFFFFFFFFFFFF

/-- Runs the program from its beginning and gives its status. -/
def run (maxSteps : Option Nat) : Exec Word := do
  modify reset
  let limit := maxSteps.getD mostSteps
  runWithin limit limit

end StackLang.Machine
