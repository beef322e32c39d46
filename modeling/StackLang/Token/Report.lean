import StackLang.Token.Names

/-!
# Token reports

A token stream shown one token to a line: position, class and either the kind with its value or the
text of the token, in colour if asked for.
-/

namespace StackLang.Token

/-- How a token stream is shown. -/
structure ReportStyle where
  /-- Whether to mark the classes of tokens by colour. -/
  color : Bool := true
  /-- Whether to show the text of each token instead of its kind. -/
  pretty : Bool := false
  deriving DecidableEq, Repr

def Operator.isComparison : Operator → Bool
  | eq | ne | lt | le | gt | ge => true
  | _ => false

namespace Kind

/-- The class under which a token is listed. -/
def className : Kind → String
  | literal (.int _) => "INT"
  | literal (.float _) => "FLOAT"
  | literal (.str _) => "STRING"
  | literal (.char _) => "CHAR"
  | literal (.bool _) => "BOOL"
  | ident _ => "IDENT"
  | typeName _ => "TYPE"
  | keyword _ => "KEYWORD"
  | operator op => if op.isComparison then "CMP" else "OP"
  | punctuation _ => "PUNCT"
  | eof => "EOF"

/-- The terminal control that selects plain text. -/
def plainColor : String := "\x1b[0m"

/-- The terminal control that selects the colour of a class. -/
def color : Kind → String
  | literal (.int _) | literal (.float _) | literal (.bool _) => "\x1b[36m"
  | literal (.str _) | literal (.char _) => "\x1b[32m"
  | ident _ => "\x1b[33m"
  | typeName _ => "\x1b[34m"
  | operator _ => "\x1b[35m"
  | keyword _ | punctuation _ => plainColor
  | eof => "\x1b[2m"

end Kind

/-- What the line of a token shows behind its class. -/
def reportText (style : ReportStyle) (t : Token) : String :=
  if !style.pretty then t.kind.describe
  else if t.kind = .eof then "<eof>"
  else t.lexeme

/-- The line of one token. -/
def reportLine (style : ReportStyle) (t : Token) : String :=
  let (on, off) := if style.color then (t.kind.color, Kind.plainColor) else ("", "")
  "[" ++ Text.zeroPadded 2 t.pos.line ++ ":" ++ Text.zeroPadded 2 t.pos.col ++ "] " ++ on ++
    Text.padRight 8 t.kind.className ++ " " ++ reportText style t ++ off ++ "\n"

/-- The report on a token stream. -/
def report (style : ReportStyle) (tokens : List Token) : String :=
  String.join (tokens.map (reportLine style))

end StackLang.Token
