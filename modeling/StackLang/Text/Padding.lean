/-!
# Numbers and names in columns

Names stand at the left of a column of blanks.  Numbers that must line up are padded with zeros,
which go between the sign and the digits.
-/

namespace StackLang.Text

/-- The text followed by blanks up to the given width. -/
def padRight (width : Nat) (s : String) : String :=
  s ++ String.ofList (List.replicate (width - s.length) ' ')

/-- The digits of `n` preceded by zeros up to the given width. -/
def zeroPadded (width n : Nat) : String :=
  let digits := toString n
  String.ofList (List.replicate (width - digits.length) '0') ++ digits

/-- Like `zeroPadded`; a minus sign counts towards the width and comes before the zeros. -/
def zeroPaddedInt (width : Nat) (n : Int) : String :=
  if n < 0 then "-" ++ zeroPadded (width - 1) n.natAbs else zeroPadded width n.natAbs

/-- The hexadecimal digits of `n`, in lower case and without leading zeros. -/
def hex (n : Nat) : String :=
  String.ofList (Nat.toDigits 16 n)

/-- The hexadecimal digits of `n`, preceded by zeros up to the given width. -/
def zeroPaddedHex (width n : Nat) : String :=
  let digits := hex n
  String.ofList (List.replicate (width - digits.length) '0') ++ digits

end StackLang.Text
