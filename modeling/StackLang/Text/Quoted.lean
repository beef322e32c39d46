import StackLang.Text.GraphemeExtend
import StackLang.Text.Ignorable
import StackLang.Text.Padding
import StackLang.Text.Printable

/-!
# Quoted text

How a string or a character is shown in listings and messages: between quotation marks, with the
usual short escapes, and with everything that has no visible form of its own spelled out by its
code point.
-/

namespace StackLang.Text

/-- Spells a character out by its code point. -/
def codePointEscape (c : Char) : String :=
  "\\u\x7b" ++ hex c.toNat ++ "\x7d"

/-- A character that cannot be told from its looks: it attaches to the one before it, leaves no
trace or cannot be printed. -/
def hasNoFormOfItsOwn (c : Char) : Bool :=
  isExtender c || isIgnorable c || !isPrintable c

/-- One character inside the quotation marks `mark`. -/
def quotedChar (mark c : Char) : String :=
  if c = '\x00' then "\\0"
  else if c = '\t' then "\\t"
  else if c = '\r' then "\\r"
  else if c = '\n' then "\\n"
  else if c = '\\' then "\\\\"
  else if c = mark then String.ofList ['\\', mark]
  else if hasNoFormOfItsOwn c then codePointEscape c
  else c.toString

/-- The text between double quotation marks. -/
def quote (s : String) : String :=
  "\"" ++ String.join (s.toList.map (quotedChar '"')) ++ "\""

/-- The character between single quotation marks. -/
def quoteChar (c : Char) : String :=
  "'" ++ quotedChar '\'' c ++ "'"

end StackLang.Text
