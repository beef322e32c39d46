import StackLang.Double.Shortest

/-!
# The text of a number

A number is written with the fewest digits that read back as it.  From `10 ^ -4` up to below
`10 ^ 16` the digits are positional and at least one stands behind the point; outside that range
one digit stands before the point and an exponent follows.
-/

namespace StackLang.Double

/-- The range of positional writing: the position of the point, counted from before the first
digit, lies between these bounds. -/
structure PositionalRange where
  least : Int
  greatest : Int

/-- From `0.0001` up to below `10000000000000000.0`. -/
def positional : PositionalRange :=
  ⟨-3, 16⟩

def zeros (n : Nat) : List Char :=
  List.replicate n '0'

/-- The digits with the point after the first `point` of them. -/
def writePositional (digits : List Char) (point : Int) : List Char :=
  if point ≤ 0 then ['0', '.'] ++ zeros (-point).toNat ++ digits
  else
    let n := point.toNat
    if digits.length ≤ n then digits ++ zeros (n - digits.length) ++ ['.', '0']
    else digits.take n ++ ['.'] ++ digits.drop n

/-- The digits with the point after the first of them, and the exponent. -/
def writeExponential (digits : List Char) (point : Int) : List Char :=
  let mantissa := match digits with
    | first :: second :: rest => first :: '.' :: second :: rest
    | short => short
  mantissa ++ ['e'] ++ (toString (point - 1)).toList

def writeDecimal (d : Decimal) : List Char :=
  let digits := (toString d.digits).toList
  let point := (digits.length : Int) + d.exponent
  if positional.least ≤ point ∧ point ≤ positional.greatest then writePositional digits point
  else writeExponential digits point

/-- The text of a number without its sign. -/
def writeMagnitude (w : Word) : String :=
  if isInfinite w then "inf"
  else if isZero w then "0.0"
  else String.ofList (writeDecimal (shortest w))

/-- The text of a number. -/
def write (w : Word) : String :=
  if isNaN w then "NaN"
  else if isNegative w then "-" ++ writeMagnitude w
  else writeMagnitude w

end StackLang.Double
