import StackLang.Code.Op
import StackLang.Text.Padding

/-!
# Code as a stream of instructions

A stream of words is read as instructions from address zero on, each an operation followed by its
operand, if it takes one.  A stream is sound if it can be read to its end, all its jumps go to
instructions, and, unless it is empty, one of its instructions is an exit.  Where calls go is not
part of it: their targets travel over the stack.
-/

namespace StackLang

/-- An instruction and its address. -/
structure Instruction where
  address : Nat
  op : Op
  operand : Option Word
  deriving DecidableEq, Repr

namespace Instruction

/-- The words of an instruction. -/
def words (i : Instruction) : List Word :=
  i.op.word :: i.operand.toList

/-- The address that follows the instruction. -/
def next (i : Instruction) : Nat :=
  i.address + i.words.length

/-- The address to which the instruction jumps, as it is written in the code. -/
def jumpTarget? (i : Instruction) : Option Word :=
  if i.op.isJump then i.operand else none

end Instruction

/-- Why a stream of words is not sound. -/
inductive CodeError where
  | unknownOp (address : Nat) (word : Word)
  | missingOperand (address : Nat) (op : Op)
  | badJump (address : Nat) (target : Word)
  | noExit
  deriving DecidableEq, Repr

namespace CodeError

def message : CodeError → String
  | unknownOp address word =>
    "unknown opcode " ++ toString word.toInt ++ " at " ++ Text.zeroPadded 4 address
  | missingOperand address op =>
    op.mnemonic ++ " at " ++ Text.zeroPadded 4 address ++ " is missing its operand"
  | badJump address target =>
    "jump at " ++ Text.zeroPadded 4 address ++ " targets " ++ toString target.toInt ++
      ", which is not an instruction"
  | noExit => "code never reaches EXIT"

end CodeError

namespace Code

/-- Reads instructions, the first of which is at `address`. -/
def decodeFrom (address : Nat) : List Word → Except CodeError (List Instruction)
  | [] => .ok []
  | w :: rest =>
    match Op.ofWord? w with
    | none => .error (.unknownOp address w)
    | some op =>
      if op.arity = 0 then
        (decodeFrom (address + 1) rest).map (⟨address, op, none⟩ :: ·)
      else
        match rest with
        | [] => .error (.missingOperand address op)
        | operand :: rest =>
          (decodeFrom (address + 2) rest).map (⟨address, op, some operand⟩ :: ·)

/-- Reads a whole stream. -/
def decode (code : List Word) : Except CodeError (List Instruction) :=
  decodeFrom 0 code

/-- Whether the word is the address of one of the instructions. -/
def isStart (is : List Instruction) (target : Word) : Bool :=
  match target.toIndex? with
  | some t => is.any (·.address == t)
  | none => false

/-- The jump of an instruction, if it does not go to any of the instructions `is`. -/
def badJump? (is : List Instruction) (i : Instruction) : Option CodeError :=
  i.jumpTarget?.bind fun target =>
    if isStart is target then none else some (.badJump i.address target)

/-- Whether one of the instructions is an exit. -/
def hasExit (is : List Instruction) : Bool :=
  is.any (·.op == .exit)

/-- Checks that a stream is sound. -/
def verify (code : List Word) : Except CodeError Unit :=
  match decode code with
  | .error e => .error e
  | .ok is =>
    match is.findSome? (badJump? is) with
    | some e => .error e
    | none => if is.isEmpty || hasExit is then .ok () else .error .noExit

end Code

end StackLang
