import StackLang.Double.Basic

/-!
# The shortest decimal of a number

A positive number is told from its neighbours by every decimal that lies nearer to it than to
them.  `shortest` finds one with the fewest digits, and among those the one nearest to the number;
of two equally near ones it takes the greater.

The search looks, for one digit, two digits and so on, at the two points of the decimal grid around
the number.  If any point of that grid lies between the halfway points to the neighbours, then one
of these two does.  Seventeen digits always suffice.  All comparisons are between natural numbers.
-/

namespace StackLang.Double

/-- The decimal `digits · 10 ^ exponent`. -/
structure Decimal where
  digits : Nat
  exponent : Int
  deriving DecidableEq, Repr

namespace Decimal

/-- The same decimal without zeros at the end of its digits; the fuel bounds their number. -/
def trimZeros : Nat → Decimal → Decimal
  | 0, d => d
  | fuel + 1, d =>
    if d.digits ≠ 0 ∧ d.digits % 10 = 0 then trimZeros fuel ⟨d.digits / 10, d.exponent + 1⟩ else d

end Decimal

/-- The numbers that are read as a given one: `value`, `low` and `high` count units of
`2 ^ power`, and the two ends belong to the interval if `closed` holds. -/
structure Neighbourhood where
  value : Nat
  low : Nat
  high : Nat
  power : Int
  closed : Bool

namespace Neighbourhood

/-- The neighbourhood of a finite positive number.  Below a power of two the neighbours are half
as far apart as above it. -/
def ofWord (w : Word) : Neighbourhood :=
  let m := significand w
  let below := if m = hiddenBit ∧ 1 < exponentField w then 1 else 2
  { value := 4 * m, low := 4 * m - below, high := 4 * m + 2, power := scale w - 2,
    closed := m % 2 = 0 }

/-- The size of the grid unit `10 ^ p`, in a unit that it shares with `refined`. -/
def gridUnit (n : Neighbourhood) (p : Int) : Nat :=
  Nat.pow 10 p.toNat * Nat.pow 2 (-n.power).toNat

/-- What `x` units of `2 ^ power` are in the unit that is shared with `gridUnit`. -/
def refined (n : Neighbourhood) (p : Int) (x : Nat) : Nat :=
  x * (Nat.pow 2 n.power.toNat * Nat.pow 10 (-p).toNat)

/-- Whether the number is at least `10 ^ p`. -/
def atLeastPower (n : Neighbourhood) (p : Int) : Bool :=
  n.gridUnit p ≤ n.refined p n.value

/-- The exponent `k` with `10 ^ (k - 1) ≤ value < 10 ^ k`.  The quotient 30103 / 100000
approximates the decimal logarithm of two. -/
def decimalExponent (n : Neighbourhood) : Int :=
  let guess := ((Nat.log2 n.value : Int) + n.power) * 30103 / 100000 + 1
  if n.atLeastPower guess then guess + 1 else guess

/-- Whether a point at or below the number lies in the neighbourhood. -/
def holdsBelow (n : Neighbourhood) (p : Int) (x : Nat) : Bool :=
  if n.closed then n.refined p n.low ≤ x else n.refined p n.low < x

/-- Whether a point above the number lies in the neighbourhood. -/
def holdsAbove (n : Neighbourhood) (p : Int) (x : Nat) : Bool :=
  if n.closed then x ≤ n.refined p n.high else x < n.refined p n.high

/-- The point of the grid with unit `10 ^ p` that is nearest to the number among those of its two
neighbours on the grid that lie in the neighbourhood. -/
def nearestOnGrid? (n : Neighbourhood) (p : Int) : Option Decimal :=
  let unit := n.gridUnit p
  let value := n.refined p n.value
  let d := value / unit
  let down := n.holdsBelow p (d * unit)
  let up := n.holdsAbove p ((d + 1) * unit)
  if down && up then
    some ⟨if 2 * (value - d * unit) < unit then d else d + 1, p⟩
  else if down then some ⟨d, p⟩
  else if up then some ⟨d + 1, p⟩
  else none

end Neighbourhood

/-- The shortest decimal that is read as the given finite positive number. -/
def shortest (w : Word) : Decimal :=
  let n := Neighbourhood.ofWord w
  let k := n.decimalExponent
  let found := (List.range 17).findSome? fun (i : Nat) => n.nearestOnGrid? (k - (i + 1 : Nat))
  Decimal.trimZeros 17 (found.getD ⟨0, 0⟩)

end StackLang.Double
