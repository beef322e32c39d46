import StackLang.Double.Text
import StackLang.Text.Quoted
import StackLang.Token.Basic

/-!
# Names of token kinds

The name of each kind of token, and the form in which a kind is shown together with the value it
carries.
-/

namespace StackLang.Token

/-- The name of the keyword that stands for a type. -/
def typeKindName : ValueType → String
  | .int => "IntType"
  | .float => "FloatType"
  | .bool => "BoolType"
  | .char => "CharType"
  | .string => "StringType"
  | .void => "VoidType"

def Keyword.name : Keyword → String
  | ifWord => "If"
  | elseWord => "Else"
  | whileWord => "While"
  | forWord => "For"
  | returnWord => "Return"
  | breakWord => "Break"
  | continueWord => "Continue"
  | printWord => "Print"
  | inputWord => "Input"
  | randomWord => "Random"

def Operator.name : Operator → String
  | plus => "Plus"
  | minus => "Minus"
  | star => "Star"
  | slash => "Slash"
  | percent => "Percent"
  | increment => "PlusPlus"
  | decrement => "MinusMinus"
  | assign => "Assign"
  | eq => "EqEq"
  | ne => "NotEq"
  | lt => "Lt"
  | le => "LtEq"
  | gt => "Gt"
  | ge => "GtEq"
  | not => "Bang"
  | and => "And"
  | or => "Or"

def Punctuation.name : Punctuation → String
  | lparen => "LParen"
  | rparen => "RParen"
  | lbrace => "LBrace"
  | rbrace => "RBrace"
  | lbracket => "LBracket"
  | rbracket => "RBracket"
  | comma => "Comma"
  | semicolon => "Semicolon"

/-- The name of the kind of literal. -/
def literalName : Literal → String
  | .int _ => "Integer"
  | .float _ => "Float"
  | .bool _ => "Bool"
  | .char _ => "Char"
  | .str _ => "Str"

/-- The value of a literal as it is shown in reports. -/
def literalValue : Literal → String
  | .int w => toString w.toInt
  | .float w => Double.write w
  | .bool b => if b then "true" else "false"
  | .char c => Text.quoteChar c
  | .str s => Text.quote s

namespace Kind

/-- The name of the kind, without the value it carries. -/
def name : Kind → String
  | literal v => literalName v
  | ident _ => "Ident"
  | typeName t => typeKindName t
  | keyword w => w.name
  | operator op => op.name
  | punctuation m => m.name
  | eof => "Eof"

/-- The name of the kind, with the value it carries in brackets. -/
def describe (k : Kind) : String :=
  match k with
  | literal v => k.name ++ "(" ++ literalValue v ++ ")"
  | ident s => k.name ++ "(" ++ Text.quote s ++ ")"
  | _ => k.name

/-- The kinds that carry no value. -/
def plainKinds : List Kind :=
  [.int, .float, .bool, .char, .string, .void].map typeName ++
  [.ifWord, .elseWord, .whileWord, .forWord, .returnWord, .breakWord, .continueWord, .printWord,
    .inputWord, .randomWord].map keyword ++
  [.plus, .minus, .star, .slash, .percent, .increment, .decrement, .assign, .eq, .ne, .lt, .le,
    .gt, .ge, .not, .and, .or].map operator ++
  [.lparen, .rparen, .lbrace, .rbrace, .lbracket, .rbracket, .comma, .semicolon].map punctuation ++
  [eof]

/-- The kind without a value that has the given name. -/
def ofName? (s : String) : Option Kind :=
  plainKinds.find? fun k => k.name == s

end Kind

end StackLang.Token
