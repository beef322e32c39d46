import StackLang.Literal

/-!
# Tokens

A token is a kind, the piece of text it was read from and the position of that text.  Literals and
names carry their value in the kind, so that the text is only shown, never read again.
-/

namespace StackLang

/-- The number of a line, counted from one. -/
abbrev Line := Nat

/-- A position in a text; lines and columns count from one. -/
structure Position where
  line : Line
  col : Nat
  deriving DecidableEq, Repr

namespace Position

/-- The position of the first character. -/
def start : Position := ⟨1, 1⟩

/-- The position behind a character that stands at `p`. -/
def next (p : Position) (c : Char) : Position :=
  if c = '\n' then ⟨p.line + 1, 1⟩ else ⟨p.line, p.col + 1⟩

/-- The position behind a text that starts at `p`. -/
def after (p : Position) (cs : List Char) : Position :=
  cs.foldl next p

@[simp] theorem after_nil (p : Position) : p.after [] = p := rfl

@[simp] theorem after_cons (p : Position) (c : Char) (cs : List Char) :
    p.after (c :: cs) = (p.next c).after cs := rfl

theorem after_append (p : Position) (cs ds : List Char) :
    p.after (cs ++ ds) = (p.after cs).after ds :=
  List.foldl_append

end Position

namespace Token

/-- The words with a fixed meaning, other than type names, operators and truth values. -/
inductive Keyword where
  | ifWord
  | elseWord
  | whileWord
  | forWord
  | returnWord
  | breakWord
  | continueWord
  | printWord
  | inputWord
  | randomWord
  deriving DecidableEq, Repr

inductive Operator where
  | plus
  | minus
  | star
  | slash
  | percent
  | increment
  | decrement
  | assign
  | eq
  | ne
  | lt
  | le
  | gt
  | ge
  | not
  | and
  | or
  deriving DecidableEq, Repr

inductive Punctuation where
  | lparen
  | rparen
  | lbrace
  | rbrace
  | lbracket
  | rbracket
  | comma
  | semicolon
  deriving DecidableEq, Repr

/-- What a token is. -/
inductive Kind where
  | literal (value : Literal)
  | ident (name : String)
  | typeName (type : ValueType)
  | keyword (word : Keyword)
  | operator (op : Operator)
  | punctuation (mark : Punctuation)
  | eof
  deriving DecidableEq, Repr

namespace Kind

/-- The type that a type name stands for. -/
def type? : Kind → Option ValueType
  | typeName t => some t
  | _ => none

def isLiteral : Kind → Bool
  | literal _ => true
  | _ => false

end Kind

end Token

/-- A token: what it is, its text and where it stands. -/
structure Token where
  kind : Token.Kind
  lexeme : String
  pos : Position
  deriving DecidableEq, Repr

namespace Token

def line (t : Token) : Line := t.pos.line

end Token

end StackLang
