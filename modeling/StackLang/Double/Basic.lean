import StackLang.Word

/-!
# Floating-point words

A word whose 64 bits are read as an IEEE 754 binary64 number.  Finite numbers are seen as
`significand · 2 ^ scale`.  Arithmetic acts on words, since a word keeps all bits of a NaN:

* an operation with a NaN operand gives the first such operand, made quiet;
* an invalid operation on numbers gives one fixed NaN.
-/

namespace StackLang.Double

/-! ## The fields of a word -/

/-- The bits without the sign. -/
def magnitude (w : Word) : UInt64 :=
  w.toUInt64 &&& 0x7FFFFFFFFFFFFFFF

/-- The word with the given bits. -/
def ofBits (n : Nat) : Word :=
  (UInt64.ofNat n).toInt64

def isNegative (w : Word) : Bool :=
  w < 0

def isNaN (w : Word) : Bool :=
  0x7FF0000000000000 < magnitude w

def isInfinite (w : Word) : Bool :=
  magnitude w == 0x7FF0000000000000

def isZero (w : Word) : Bool :=
  magnitude w == 0

/-- The leading bit of a significand, `2 ^ 52`, which is not stored. -/
def hiddenBit : Nat := 0x10000000000000

/-- The exponent as it is stored, between 0 and 2047. -/
def exponentField (w : Word) : Nat :=
  (magnitude w).toNat / hiddenBit

def fractionField (w : Word) : Nat :=
  (magnitude w).toNat % hiddenBit

/-- The integer that is scaled by a power of two, without the sign. -/
def significand (w : Word) : Nat :=
  if exponentField w = 0 then fractionField w else hiddenBit + fractionField w

/-- The power of two that the significand is scaled by. -/
def scale (w : Word) : Int :=
  if exponentField w = 0 then -1074 else (exponentField w : Int) - 1075

/-! ## Special words -/

def infinity : Word := ofBits 0x7FF0000000000000

def nan : Word := ofBits 0x7FF8000000000000

/-- The result of an invalid operation. -/
def invalid : Word := ofBits 0xFFF8000000000000

/-- The same NaN, marked as quiet. -/
def quiet (w : Word) : Word :=
  w ||| ofBits 0x0008000000000000

/-- The word with the opposite sign. -/
def negate (w : Word) : Word :=
  w ^^^ ofBits 0x8000000000000000

/-! ## Arithmetic and comparison -/

/-- The number that the word stands for. -/
def toFloat (w : Word) : Float :=
  Float.ofBits w.toUInt64

/-- The word of a number; every NaN is given as the result of an invalid operation. -/
def ofFloat (x : Float) : Word :=
  if x.isNaN then invalid else x.toBits.toInt64

/-- Lifts an operation on numbers to words. -/
def lift (op : Float → Float → Float) (a b : Word) : Word :=
  if isNaN a then quiet a
  else if isNaN b then quiet b
  else ofFloat (op (toFloat a) (toFloat b))

def add : Word → Word → Word := lift (· + ·)

def sub : Word → Word → Word := lift (· - ·)

def mul : Word → Word → Word := lift (· * ·)

def div : Word → Word → Word := lift (· / ·)

/-- Equality of numbers: a NaN differs from itself, and the two zeros are equal. -/
def eq (a b : Word) : Bool :=
  toFloat a == toFloat b

def lt (a b : Word) : Bool :=
  toFloat a < toFloat b

def le (a b : Word) : Bool :=
  toFloat a ≤ toFloat b

/-- The number nearest to an integer. -/
def ofInt (w : Word) : Word :=
  w.toFloat.toBits.toInt64

/-- The integer part, clamped to the range of words; zero for a NaN. -/
def toInt (w : Word) : Word :=
  if isNaN w then 0 else (toFloat w).toInt64

end StackLang.Double
