import StackLang.Token.Scan

/-!
# Parse errors

What the parser misses or refuses, and the words in which it says so.
-/

namespace StackLang

/-- The mark itself. -/
def Token.Punctuation.symbol : Token.Punctuation → String
  | lparen => "("
  | rparen => ")"
  | lbrace => "\x7b"
  | rbrace => "\x7d"
  | lbracket => "["
  | rbracket => "]"
  | comma => ","
  | semicolon => ";"

/-- What a mark has to follow. -/
inductive Place where
  | functionName
  | parameters
  | returnWord
  | breakWord
  | continueWord
  | inputWord
  | inputTarget
  | printWord
  | printArguments
  | ifWord
  | whileWord
  | forWord
  | condition
  | forInit
  | forCondition
  | forClauses
  | expression
  | declaration
  | arrayLength
  | index
  | arguments
  | randomWord
  | randomBound
  | elements
  deriving DecidableEq, Repr

def Place.text : Place → String
  | functionName => "function name"
  | parameters => "parameters"
  | returnWord => "return"
  | breakWord => "break"
  | continueWord => "continue"
  | inputWord => "input"
  | inputTarget => "input target"
  | printWord => "print"
  | printArguments => "print arguments"
  | ifWord => "if"
  | whileWord => "while"
  | forWord => "for"
  | condition => "condition"
  | forInit => "for initializer"
  | forCondition => "for condition"
  | forClauses => "for clauses"
  | expression => "expression"
  | declaration => "declaration"
  | arrayLength => "array length"
  | index => "index"
  | arguments => "arguments"
  | randomWord => "random"
  | randomBound => "random bound"
  | elements => "array elements"

/-- What should stand at some place. -/
inductive Expected where
  | returnType
  | functionName
  | parameterType
  | parameterName
  | variableType
  | variableName
  | inputName
  | openBrace
  | mark (mark : Token.Punctuation) (place : Place)
  deriving DecidableEq, Repr

def Expected.text : Expected → String
  | returnType => "return type of function"
  | functionName => "function name"
  | parameterType => "parameter type"
  | parameterName => "parameter name"
  | variableType => "type"
  | variableName => "variable name"
  | inputName => "variable name in input"
  | openBrace => "'\x7b'"
  | mark m p => "'" ++ m.symbol ++ "' after " ++ p.text

/-- Why a token stream is no program. -/
inductive ParseCause where
  | expected (item : Expected)
  | unclosedBlock
  | missingExpression
  | unexpected (lexeme : String)
  | voidParameter
  | voidVariable
  | lengthNotPositive
  | lengthRequired
  | invalidTarget
  | invalidOperand (op : String)
  deriving DecidableEq, Repr

def ParseCause.message : ParseCause → String
  | expected item => "expected " ++ item.text
  | unclosedBlock => "unexpected EOF, expected '\x7d'"
  | missingExpression => "unexpected EOF, expected expression"
  | unexpected lexeme => "unexpected token '" ++ lexeme ++ "'"
  | voidParameter => "parameters cannot be void"
  | voidVariable => "variables cannot be void"
  | lengthNotPositive => "array length must be positive"
  | lengthRequired => "array length required"
  | invalidTarget => "invalid assignment target"
  | invalidOperand op => "invalid operand for '" ++ op ++ "'"

/-- The first fault of a token stream and where it is. -/
structure ParseError where
  cause : ParseCause
  pos : Position
  deriving DecidableEq, Repr

def ParseError.message (e : ParseError) : String :=
  e.pos.locate e.cause.message

end StackLang
