import StackLang.Double.Basic

/-!
# Reading numbers

The number nearest to a decimal, and the grammar of numeric input.

`nearest` rounds a positive fraction to the nearest binary64 number, ties going to the even
significand, in exact arithmetic.  `parse?` accepts

* an optional sign, then `inf`, `infinity` or `nan` in any case, or
* an optional sign, digits with an optional point among or around them, and an optional exponent.
-/

namespace StackLang.Double

/-! ## Rounding -/

/-- The integer nearest to `num / den`, the even one of two equally near ones. -/
def roundDiv (num den : Nat) : Nat :=
  let q := num / den
  let r := num % den
  if 2 * r < den then q
  else if den < 2 * r then q + 1
  else if q % 2 = 0 then q else q + 1

/-- The numerator and the denominator of `num / den / 2 ^ q`. -/
def scaledDown (num den : Nat) (q : Int) : Nat × Nat :=
  (num * Nat.pow 2 (-q).toNat, den * Nat.pow 2 q.toNat)

/-- The scale at which `num / den` has 53 binary digits before the point, but at least the scale of
the smallest numbers. -/
def scaleFor (num den : Nat) : Int :=
  let guess : Int := (Nat.log2 num : Int) - (Nat.log2 den : Int) - 53
  let (n, d) := scaledDown num den guess
  let exact := if n / d < 2 * hiddenBit then guess else guess + 1
  max exact (-1074)

/-- The bits of the number nearest to the positive fraction `num / den`.  A significand that is
rounded up to `2 ^ 53` carries into the exponent. -/
def nearest (num den : Nat) : Nat :=
  let q := scaleFor num den
  let (n, d) := scaledDown num den q
  min ((q + 1074).toNat * hiddenBit + roundDiv n d) 0x7FF0000000000000

/-- The number nearest to the decimal `digits · 10 ^ exponent`.  Decimals far out of range are
settled by their magnitude alone. -/
def ofDecimal (digits : Nat) (exponent : Int) : Word :=
  let size : Int := ((toString digits).length : Int) + exponent
  if digits = 0 then 0
  else if 400 < size then infinity
  else if size < -400 then 0
  else ofBits (nearest (digits * Nat.pow 10 exponent.toNat) (Nat.pow 10 (-exponent).toNat))

/-! ## Text -/

/-- The value of decimal digits. -/
def digitsValue (cs : List Char) : Nat :=
  cs.foldl (fun n c => 10 * n + (c.toNat - '0'.toNat)) 0

/-- The number written as `whole.fraction`. -/
def ofPoint (whole fraction : List Char) : Word :=
  ofDecimal (digitsValue (whole ++ fraction)) (-(fraction.length : Int))

/-- Takes an optional sign off the text and tells whether it is negative. -/
def takeSign : List Char → Bool × List Char
  | '-' :: rest => (true, rest)
  | '+' :: rest => (false, rest)
  | cs => (false, cs)

/-- The exponent that ends a number: nothing, or a mark, an optional sign and digits. -/
def parseExponent? : List Char → Option Int
  | [] => some 0
  | mark :: rest =>
    if mark = 'e' ∨ mark = 'E' then
      let (negative, digits) := takeSign rest
      if digits ≠ [] ∧ digits.all Char.isDigit then
        let n : Int := digitsValue digits
        some (if negative then -n else n)
      else none
    else none

/-- The digits behind the point, if there is one, and what follows them. -/
def takeFraction : List Char → List Char × List Char
  | '.' :: rest => (rest.takeWhile Char.isDigit, rest.dropWhile Char.isDigit)
  | cs => ([], cs)

/-- A decimal number without a sign. -/
def parseDecimal? (cs : List Char) : Option Word :=
  let whole := cs.takeWhile Char.isDigit
  let (fraction, rest) := takeFraction (cs.dropWhile Char.isDigit)
  if whole = [] ∧ fraction = [] then none
  else (parseExponent? rest).map fun e =>
    ofDecimal (digitsValue (whole ++ fraction)) (e - fraction.length)

/-- A number without a sign. -/
def parseMagnitude? (cs : List Char) : Option Word :=
  let lower := cs.map Char.toLower
  if lower = "inf".toList ∨ lower = "infinity".toList then some infinity
  else if lower = "nan".toList then some nan
  else parseDecimal? cs

/-- Reads a number. -/
def parse? (cs : List Char) : Option Word :=
  let (negative, rest) := takeSign cs
  (parseMagnitude? rest).map fun w => if negative then negate w else w

end StackLang.Double
