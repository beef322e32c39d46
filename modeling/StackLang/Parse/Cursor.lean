import StackLang.Parse.Error

/-!
# Reading a token stream

A cursor is the rest of a token stream together with the token before it, if any.  A parser reads
from a cursor and moves it forward, or fails at one position.  The parsers here look at one token
or repeat another parser; the number of remaining tokens bounds every repetition.
-/

namespace StackLang

/-- A place in a token stream. -/
structure Cursor where
  rest : List Token
  last : Option Token
  deriving Repr

namespace Cursor

def start (tokens : List Token) : Cursor :=
  ⟨tokens, none⟩

/-- Where a fault at this place is reported: at the next token, but at the end of the stream at the
token before it. -/
def faultPos (c : Cursor) : Position :=
  match c.rest, c.last with
  | t :: _, some l => if t.kind = .eof then l.pos else t.pos
  | t :: _, none => t.pos
  | [], some l => l.pos
  | [], none => Position.start

/-- The line of the next token, or of the last one at the end. -/
def line (c : Cursor) : Line :=
  match c.rest, c.last with
  | t :: _, _ => t.line
  | [], some l => l.line
  | [], none => 1

def kind? (c : Cursor) : Option Token.Kind :=
  c.rest.head?.map Token.kind

/-- Whether the next token is of the given kind. -/
def isAt (c : Cursor) (k : Token.Kind) : Bool :=
  c.kind? = some k

/-- Whether the stream ends here. -/
def atEnd (c : Cursor) : Bool :=
  c.rest.isEmpty || c.isAt .eof

/-- Whether a type name comes next. -/
def atType (c : Cursor) : Bool :=
  (c.kind?.bind Token.Kind.type?).isSome

end Cursor

/-- Reads from a token stream. -/
abbrev Parse (α : Type) := StateT Cursor (Except ParseError) α

namespace Parse

variable {α : Type}

/-- Fails at the given position. -/
def failAt (pos : Position) (cause : ParseCause) : Parse α :=
  fun _ => .error ⟨cause, pos⟩

/-- Fails at the cursor. -/
def fail (cause : ParseCause) : Parse α :=
  fun c => .error ⟨cause, c.faultPos⟩

/-- The line of the next token. -/
def line : Parse Line :=
  fun c => .ok (c.line, c)

/-- Whether the next token is of the given kind. -/
def peek (k : Token.Kind) : Parse Bool :=
  fun c => .ok (c.isAt k, c)

/-- Takes the next token, if it satisfies `p`. -/
def takeIf (p : Token → Bool) : Parse (Option Token) :=
  fun c => match c.rest with
    | t :: rest => if p t then .ok (some t, ⟨rest, some t⟩) else .ok (none, c)
    | [] => .ok (none, c)

/-- Takes the next token, if it is of the given kind. -/
def accept (k : Token.Kind) : Parse (Option Token) :=
  takeIf fun t => t.kind = k

/-- Takes the next token, which must satisfy `p`. -/
def require (p : Token → Bool) (item : Expected) : Parse Token := do
  match ← takeIf p with
  | some t => return t
  | none => fail (.expected item)

/-- Takes the given mark, which must follow the given place. -/
def mark (m : Token.Punctuation) (place : Place) : Parse Token :=
  require (fun t => t.kind = .punctuation m) (.mark m place)

/-- Takes a name. -/
def ident (item : Expected) : Parse Token :=
  require (fun t => match t.kind with | .ident _ => true | _ => false) item

/-- Takes a type name. -/
def typeName (item : Expected) : Parse ValueType := do
  let t ← require (fun t => t.kind.type?.isSome) item
  return t.kind.type?.getD .void

/-- Items separated by commas, at least one; the fuel bounds the number of commas. -/
def commaSeparated (item : Parse α) : Nat → Parse (List α)
  | 0 => return [← item]
  | fuel + 1 => do
    let first ← item
    match ← accept (.punctuation .comma) with
    | some _ => return first :: (← commaSeparated item fuel)
    | none => return [first]

/-- Items separated by commas, unless the closing mark comes at once. -/
def itemsBefore (close : Token.Punctuation) (item : Parse α) : Parse (List α) := do
  if ← peek (.punctuation close) then return []
  else commaSeparated item (← get).rest.length

end Parse

end StackLang
