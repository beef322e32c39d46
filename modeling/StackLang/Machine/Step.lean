import StackLang.Code.Op
import StackLang.Double.Text
import StackLang.Machine.Input

/-!
# Instructions

What each instruction does.  Integers wrap around at 64 bits, quotients are rounded toward zero and
remainders have the sign of the dividend.  A call leaves three words below the base of the function
it calls: where to go on, the base of the caller, and where the stack ends after the return, which
is the cell that held the address of the function.
-/

namespace StackLang.Machine

/-- Replaces the two words on top by a result. -/
def binary (f : Word → Word → Word) : Exec Unit := do
  let b ← pop
  let a ← pop
  push (f a b)

/-- Replaces the two words on top by a truth value. -/
def compare (f : Word → Word → Bool) : Exec Unit :=
  binary fun a b => Word.ofBool (f a b)

/-- Like `binary`, but stops if the second word is zero. -/
def divide (here : Nat) (f : Word → Word → Word) : Exec Unit := do
  let b ← pop
  let a ← pop
  if b = 0 then throw (.divisionByZero here)
  push (f a b)

/-- Replaces the word on top by a result. -/
def unary (f : Word → Word) : Exec Unit := do
  let a ← pop
  push (f a)

/-- Reserves cells on the stack. -/
def alloc (cells : Word) : Exec Unit := fun m =>
  let top := m.sp + cells.toInt
  if Word.inRange top then
    if 0 ≤ cells.toInt ∧ top ≤ m.mem.size then .ok () { m with sp := top.toNat }
    else .error (m.fault top) m
  else .error (m.fault cells.toInt) m

/-- The address of the cell below the given number of arguments, where the function's address is. -/
def targetCell (count : Word) : Exec Nat := fun m =>
  if 0 ≤ count.toInt ∧ Word.inRange (count.toInt + 1) then stackAddress (m.sp - (count.toInt + 1)) m
  else .error (m.fault count.toInt) m

/-- The next instruction's address. -/
def getIp : Exec Nat := fun m => .ok m.ip m

/-- The base of the running function. -/
def getBp : Exec Nat := fun m => .ok m.bp m

/-- Lets the frame of a function begin at the top of the stack. -/
def enterFrame : Exec Unit := fun m =>
  .ok () { m with bp := m.sp }

/-- Calls the function below the given number of arguments. -/
def call (count : Word) : Exec Unit := do
  let cell ← targetCell count
  let target ← readCell cell
  push (Word.ofNat (← getIp))
  push (Word.ofNat (← getBp))
  push (Word.ofNat cell)
  enterFrame
  jump target

/-- Makes the stack end at a cell. -/
def setSp (address : Word) : Exec Unit := fun m =>
  if m.inStack address.toInt then .ok () { m with sp := address.toInt.toNat }
  else .error (m.fault address.toInt) m

/-- Sets the base, which may also be the end of the memory. -/
def setBp (address : Word) : Exec Unit := fun m =>
  if m.codeLen ≤ address.toInt ∧ address.toInt ≤ m.mem.size then
    .ok () { m with bp := address.toInt.toNat }
  else .error (m.fault address.toInt) m

/-- Returns to the caller. -/
def ret : Exec Unit := do
  let ip ← readCell (← frameAddress (-3))
  let bp ← readCell (← frameAddress (-2))
  let sp ← readCell (← frameAddress (-1))
  setSp sp
  setBp bp
  jump ip

/-- The character of a code point, or the replacement character if it has none. -/
def charOf (w : Word) : Char :=
  match w.toIndex? with
  | some n => if n.isValidChar then Char.ofNat n else '\uFFFD'
  | none => '\uFFFD'

/-- The string of a key. -/
def stringOf (here : Nat) (key : Word) : Exec String := fun m =>
  match m.strings.get? key with
  | some s => .ok s m
  | none => .error (.unknownString here key) m

/-- The state of the random numbers after one more of them. -/
def nextRandom (state : UInt64) : UInt64 :=
  state * 1103515245 + 12345

/-- The random number of a state below a bound, zero if the bound is not positive. -/
def randomBelow (state : UInt64) (bound : Word) : Word :=
  if bound ≤ 0 then 0 else Word.ofNat ((state >>> 16).toNat % bound.toInt.toNat)

/-- Draws a random number below a bound. -/
def random (bound : Word) : Exec Word := fun m =>
  let state := nextRandom m.rng
  .ok (randomBelow state bound) { m with rng := state }

/-- Executes the instruction at `here`, of which the operation has been fetched.  An exit changes
nothing. -/
def execute (here : Nat) : Op → Exec Unit
  | .add => binary (· + ·)
  | .sub => binary (· - ·)
  | .mul => binary (· * ·)
  | .div => divide here (· / ·)
  | .mod => divide here (· % ·)
  | .addFloat => binary Double.add
  | .subFloat => binary Double.sub
  | .mulFloat => binary Double.mul
  | .divFloat => binary Double.div
  | .eq => compare (· == ·)
  | .lt => compare fun a b => decide (a < b)
  | .le => compare fun a b => decide (a ≤ b)
  | .gt => compare fun a b => decide (b < a)
  | .ge => compare fun a b => decide (b ≤ a)
  | .ne => compare (· != ·)
  | .eqFloat => compare Double.eq
  | .ltFloat => compare Double.lt
  | .leFloat => compare Double.le
  | .gtFloat => compare fun a b => Double.lt b a
  | .geFloat => compare fun a b => Double.le b a
  | .neFloat => compare fun a b => !Double.eq a b
  | .and => compare fun a b => a != 0 && b != 0
  | .or => compare fun a b => a != 0 || b != 0
  | .not => unary fun a => Word.ofBool (a == 0)
  | .pop => do
    let _ ← pop
  | .dup => do
    let a ← pop
    push a
    push a
  | .push => do
    push (← fetch)
  | .peek => do
    let offset ← fetch
    push (← readCell (← frameAddress offset))
  | .poke => do
    let offset ← fetch
    let address ← frameAddress offset
    writeCell address (← pop)
  | .peekAt => do
    let base ← fetch
    let index ← pop
    push (← readCell (← frameAddress (base + index)))
  | .pokeAt => do
    let base ← fetch
    let index ← pop
    let value ← pop
    writeCell (← frameAddress (base + index)) value
  | .alloc => do
    alloc (← fetch)
  | .intToFloat => unary Double.ofInt
  | .floatToInt => unary Double.toInt
  | .call => do
    call (← fetch)
  | .ret => ret
  | .retValue => do
    let value ← pop
    ret
    push value
  | .exit => pure ()
  | .jump => do
    jump (← fetch)
  | .jumpZero => do
    let target ← fetch
    if (← pop) = 0 then jump target
  | .outInt => do
    write (toString (← pop).toInt)
  | .outFloat => do
    write (Double.write (← pop))
  | .outString => do
    write (← stringOf here (← pop))
  | .outChar => do
    write (charOf (← pop)).toString
  | .outBool => do
    write (if (← pop) = 0 then "false" else "true")
  | .inInt => do
    push (← readValue integer? .notInteger)
  | .inFloat => do
    push (← readValue number? .notNumber)
  | .inChar => do
    push (← readValue character? fun _ => .noCharacter)
  | .inString => do
    push (← readString)
  | .random => do
    push (← random (← pop))

/-- Executes one instruction.  The result is the status if that was an exit. -/
def step : Exec (Option Word) := do
  let here ← getIp
  let w ← fetch
  match Op.ofWord? w with
  | none => throw (.unknownOp here w)
  | some op =>
    execute here op
    if op = .exit then fun m => .ok (some m.status) m else return none

/-- The operation that comes next, if there is one. -/
def nextOp? (m : Machine) : Option Op :=
  if m.ip < m.codeLen then Op.ofWord? (m.cell m.ip) else none

end StackLang.Machine
