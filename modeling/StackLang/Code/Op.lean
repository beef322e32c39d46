import StackLang.Word

/-!
# Operations

The operations of the machine.  An instruction is one word for the operation, followed by as many
operand words as its arity says.
-/

namespace StackLang

/-- An operation of the machine. -/
inductive Op where
  | add
  | sub
  | mul
  | div
  | mod
  | addFloat
  | subFloat
  | mulFloat
  | divFloat
  | eq
  | lt
  | le
  | gt
  | ge
  | ne
  | eqFloat
  | ltFloat
  | leFloat
  | gtFloat
  | geFloat
  | neFloat
  | and
  | or
  | not
  | pop
  | dup
  /-- Pushes the operand. -/
  | push
  /-- Pushes the cell at the operand, seen from the base. -/
  | peek
  /-- Pops into the cell at the operand, seen from the base. -/
  | poke
  /-- Pops an index and pushes the cell at the operand plus the index. -/
  | peekAt
  /-- Pops an index, then a value, and stores it at the operand plus the index. -/
  | pokeAt
  /-- Reserves as many cells as the operand says, as they are. -/
  | alloc
  | intToFloat
  | floatToInt
  /-- Calls the address below as many arguments as the operand says. -/
  | call
  | ret
  /-- Returns with the top of the stack as the result. -/
  | retValue
  | exit
  /-- Goes on at the operand. -/
  | jump
  /-- Pops, and goes on at the operand if that was zero. -/
  | jumpZero
  | outInt
  | outFloat
  | outString
  | outChar
  | outBool
  | inInt
  | inFloat
  | inChar
  | inString
  /-- Pops a bound and pushes a random integer below it. -/
  | random
  deriving DecidableEq, Repr

namespace Op

/-- All operations, in the order of their words. -/
def all : Array Op := #[
    .add, .sub, .mul, .div, .mod, .addFloat, .subFloat, .mulFloat, .divFloat, .eq, .lt, .le, .gt,
    .ge, .ne, .eqFloat, .ltFloat, .leFloat, .gtFloat, .geFloat, .neFloat, .and, .or, .not, .pop,
    .dup, .push, .peek, .poke, .peekAt, .pokeAt, .alloc, .intToFloat, .floatToInt, .call, .ret,
    .retValue, .exit, .jump, .jumpZero, .outInt, .outFloat, .outString, .outChar, .outBool, .inInt,
    .inFloat, .inChar, .inString, .random]

/-- The number of operand words. -/
def arity : Op → Nat
  | push | peek | poke | peekAt | pokeAt | alloc | call | jump | jumpZero => 1
  | _ => 0

/-- Whether the operand is an address to go on at. -/
def isJump : Op → Bool
  | jump | jumpZero => true
  | _ => false

/-- Whether a line of input is read. -/
def readsLine : Op → Bool
  | inInt | inFloat | inChar | inString => true
  | _ => false

/-- The number of an operation, counted from one. -/
def number : Op → Nat
  | add => 1
  | sub => 2
  | mul => 3
  | div => 4
  | mod => 5
  | addFloat => 6
  | subFloat => 7
  | mulFloat => 8
  | divFloat => 9
  | eq => 10
  | lt => 11
  | le => 12
  | gt => 13
  | ge => 14
  | ne => 15
  | eqFloat => 16
  | ltFloat => 17
  | leFloat => 18
  | gtFloat => 19
  | geFloat => 20
  | neFloat => 21
  | and => 22
  | or => 23
  | not => 24
  | pop => 25
  | dup => 26
  | push => 27
  | peek => 28
  | poke => 29
  | peekAt => 30
  | pokeAt => 31
  | alloc => 32
  | intToFloat => 33
  | floatToInt => 34
  | call => 35
  | ret => 36
  | retValue => 37
  | exit => 38
  | jump => 39
  | jumpZero => 40
  | outInt => 41
  | outFloat => 42
  | outString => 43
  | outChar => 44
  | outBool => 45
  | inInt => 46
  | inFloat => 47
  | inChar => 48
  | inString => 49
  | random => 50

/-- The word of an operation. -/
def word (op : Op) : Word :=
  Word.ofNat op.number

/-- The operation of a word. -/
def ofWord? (w : Word) : Option Op :=
  if w < 1 then none else all[(w - 1).toInt.toNat]?

/-- An operation is read back from its word. -/
theorem ofWord?_word (op : Op) : ofWord? op.word = some op := by
  cases op <;> rfl

/-- The operations are listed by number. -/
theorem number_all : ∀ i : Fin 50, (all[i.val]?).map number = some (i.val + 1) := by
  decide

/-- An operation has the word it was read from. -/
theorem word_of_ofWord? {w : Word} {op : Op} (h : ofWord? w = some op) : op.word = w := by
  unfold ofWord? at h
  split at h
  · cases h
  · rename_i hw
    rw [Int64.lt_iff_toInt_lt, show (1 : Int64).toInt = 1 from rfl] at hw
    have hlt := w.toInt_lt
    have hsub : (w - 1).toInt = w.toInt - 1 := by
      rw [Int64.toInt_sub, show (1 : Int64).toInt = 1 from rfl, Int.bmod_eq_of_le] <;> omega
    have hi : (w - 1).toInt.toNat < 50 := (Array.getElem?_eq_some_iff.mp h).1
    have hn := number_all ⟨_, hi⟩
    simp only [h, Option.map_some, Option.some.injEq] at hn
    apply Int64.toInt_inj.mp
    rw [word, hn, Word.ofNat, Int64.toInt_ofNat_of_lt] <;> omega

def mnemonic : Op → String
  | add => "ADD"
  | sub => "SUB"
  | mul => "MUL"
  | div => "DIV"
  | mod => "MOD"
  | addFloat => "ADD_F"
  | subFloat => "SUB_F"
  | mulFloat => "MUL_F"
  | divFloat => "DIV_F"
  | eq => "EQ"
  | lt => "LT"
  | le => "LE"
  | gt => "GT"
  | ge => "GE"
  | ne => "NE"
  | eqFloat => "EQ_F"
  | ltFloat => "LT_F"
  | leFloat => "LE_F"
  | gtFloat => "GT_F"
  | geFloat => "GE_F"
  | neFloat => "NE_F"
  | and => "AND"
  | or => "OR"
  | not => "NOT"
  | pop => "POP"
  | dup => "DUP"
  | push => "PUSH"
  | peek => "PEEK"
  | poke => "POKE"
  | peekAt => "PEEK_I"
  | pokeAt => "POKE_I"
  | alloc => "ALLOC"
  | intToFloat => "ITOF"
  | floatToInt => "FTOI"
  | call => "CALL"
  | ret => "RET"
  | retValue => "RET_V"
  | exit => "EXIT"
  | jump => "JMP"
  | jumpZero => "JMPZ"
  | outInt => "OUT_INT"
  | outFloat => "OUT_FLOAT"
  | outString => "OUT_STRING"
  | outChar => "OUT_CHAR"
  | outBool => "OUT_BOOL"
  | inInt => "IN_INT"
  | inFloat => "IN_FLOAT"
  | inChar => "IN_CHAR"
  | inString => "IN_STRING"
  | random => "RAND"

end Op

end StackLang
