-- Tokens: words, numbers and punctuation, with the place where each starts.

namespace LetPoly

/-- The reserved words. -/
inductive Keyword where
  | defWord | letWord | ifWord | elseWord | trueWord | falseWord
deriving DecidableEq, Repr, Inhabited

/-- Operators and punctuation. -/
inductive Symbol where
  | plus | minus | times | divide
  | equalEqual | notEqual | less | lessEqual | greater | greaterEqual
  | leftParen | rightParen | leftBrace | rightBrace
  | equals | semicolon | colon | comma | arrow | backslash
deriving DecidableEq, Repr, Inhabited

/-- What a token says, apart from its place. -/
inductive Lexeme where
  | identifier (name : String)
  | typeVariable (name : String)
  | number (value : Nat)
  | keyword (word : Keyword)
  | symbol (mark : Symbol)
deriving DecidableEq, Repr, Inhabited

/-- A lexeme and its place: line and column from one, offset from zero. -/
structure Token where
  lexeme : Lexeme
  line : Nat
  column : Nat
  offset : Nat
deriving DecidableEq, Repr, Inhabited

namespace Keyword

/-- The spelling of a reserved word. -/
def text : Keyword → String
  | defWord => "def"
  | letWord => "let"
  | ifWord => "if"
  | elseWord => "else"
  | trueWord => "true"
  | falseWord => "false"

/-- All reserved words. -/
def all : List Keyword := [defWord, letWord, ifWord, elseWord, trueWord, falseWord]

/-- The reserved word with the given spelling. -/
def ofText? (name : String) : Option Keyword :=
  all.find? fun word => word.text == name

/-- The name of the token class. -/
def className : Keyword → String
  | defWord => "DEF"
  | letWord => "LET"
  | ifWord => "IF"
  | elseWord => "ELSE"
  | trueWord => "TRUE"
  | falseWord => "FALSE"

end Keyword

namespace Symbol

/-- The spelling of a symbol. -/
def text : Symbol → String
  | plus => "+"
  | minus => "-"
  | times => "*"
  | divide => "/"
  | equalEqual => "=="
  | notEqual => "!="
  | less => "<"
  | lessEqual => "<="
  | greater => ">"
  | greaterEqual => ">="
  | leftParen => "("
  | rightParen => ")"
  | leftBrace => "\x7b"
  | rightBrace => "\x7d"
  | equals => "="
  | semicolon => ";"
  | colon => ":"
  | comma => ","
  | arrow => "->"
  | backslash => "\\"

/-- The name of the token class. -/
def className : Symbol → String
  | plus => "PLUS"
  | minus => "MINUS"
  | times => "TIMES"
  | divide => "DIVIDE"
  | equalEqual => "EQUALEQUAL"
  | notEqual => "NOTEQUAL"
  | less => "LESS"
  | lessEqual => "LESSEQUAL"
  | greater => "GREATER"
  | greaterEqual => "GREATEREQUAL"
  | leftParen => "LPAREN"
  | rightParen => "RPAREN"
  | leftBrace => "LBRACE"
  | rightBrace => "RBRACE"
  | equals => "EQUALS"
  | semicolon => "SEMICOLON"
  | colon => "COLON"
  | comma => "COMMA"
  | arrow => "ARROW"
  | backslash => "BACKSLASH"

end Symbol

namespace Lexeme

/-- The value of a lexeme: a type variable without its quote, a number in plain decimal. -/
def value : Lexeme → String
  | identifier name => name
  | typeVariable name => name
  | number value => toString value
  | keyword word => word.text
  | symbol mark => mark.text

/-- The name of the token class. -/
def className : Lexeme → String
  | identifier _ => "IDENTIFIER"
  | typeVariable _ => "TYPEVAR"
  | number _ => "NUMBER"
  | keyword word => word.className
  | symbol mark => mark.className

end Lexeme

end LetPoly
