/-!
# Words

Everything the machine handles is a word of 64 bits: an integer in two's complement, the bits of a
floating-point number, a truth value, a code point, a key of the string pool or an address.
-/

namespace StackLang

/-- A machine word, read as a signed integer unless said otherwise. -/
abbrev Word := Int64

namespace Word

/-- The word for an address or a length. -/
def ofNat (n : Nat) : Word :=
  Int64.ofNat n

/-- The word of a truth value. -/
def ofBool (b : Bool) : Word :=
  if b then 1 else 0

/-- The word as an index, if it is not negative. -/
def toIndex? (w : Word) : Option Nat :=
  if w < 0 then none else some w.toInt.toNat

/-- The index is the integer that the word stands for. -/
theorem toIndex?_eq_some_iff {w : Word} {n : Nat} : w.toIndex? = some n ↔ w.toInt = n := by
  simp only [toIndex?, Int64.lt_iff_toInt_lt, Int64.toInt_zero]
  split
  · simp only [reduceCtorEq, false_iff]
    omega
  · simp only [Option.some.injEq]
    omega

/-- An address is read back from its word. -/
theorem toIndex?_ofNat {n : Nat} (h : n < 0x8000000000000000) : (ofNat n).toIndex? = some n :=
  toIndex?_eq_some_iff.mpr (Int64.toInt_ofNat_of_lt h)

/-- The least and the greatest integer that fit into a word. -/
def inRange (n : Int) : Bool :=
  decide (-0x8000000000000000 ≤ n) && decide (n < 0x8000000000000000)

theorem inRange_iff {n : Int} :
    inRange n = true ↔ -0x8000000000000000 ≤ n ∧ n < 0x8000000000000000 := by
  simp only [inRange, Bool.and_eq_true, decide_eq_true_eq]

end Word

end StackLang
