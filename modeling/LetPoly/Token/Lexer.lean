-- From text to tokens. At each place the longest lexeme is taken; blanks,
-- newlines and comments stand between tokens.
import LetPoly.Location
import LetPoly.Diagnostic
import LetPoly.Token
import LetPoly.Text.Digit

namespace LetPoly

open Text (isDigit numeral maxDigits)

/-! ## The lexeme at the start of a text -/

/-- A character that can start a name. -/
def startsName (c : Char) : Bool :=
  ('a' ≤ c && c ≤ 'z') || ('A' ≤ c && c ≤ 'Z') || c == '_'

/-- A character that can continue a name. -/
def continuesName (c : Char) : Bool :=
  startsName c || ('0' ≤ c && c ≤ '9')

/-- Why no lexeme can be read at a place. -/
inductive LexFault where
  | illegal (c : Char)
  | tooManyDigits (count : Nat)
deriving DecidableEq, Repr, Inhabited

namespace Symbol

/-- The longest symbol at the start of a text, and its length. -/
def first? : List Char → Option (Symbol × Nat)
  | '=' :: '=' :: _ => some (equalEqual, 2)
  | '!' :: '=' :: _ => some (notEqual, 2)
  | '<' :: '=' :: _ => some (lessEqual, 2)
  | '>' :: '=' :: _ => some (greaterEqual, 2)
  | '-' :: '>' :: _ => some (arrow, 2)
  | '+' :: _ => some (plus, 1)
  | '-' :: _ => some (minus, 1)
  | '*' :: _ => some (times, 1)
  | '/' :: _ => some (divide, 1)
  | '=' :: _ => some (equals, 1)
  | '<' :: _ => some (less, 1)
  | '>' :: _ => some (greater, 1)
  | '(' :: _ => some (leftParen, 1)
  | ')' :: _ => some (rightParen, 1)
  | '{' :: _ => some (leftBrace, 1)
  | '}' :: _ => some (rightBrace, 1)
  | ';' :: _ => some (semicolon, 1)
  | ':' :: _ => some (colon, 1)
  | ',' :: _ => some (comma, 1)
  | '\\' :: _ => some (backslash, 1)
  | _ => none

end Symbol

namespace Lexeme

/-- The lexeme that a name stands for: a reserved word or an identifier. -/
def ofName (name : String) : Lexeme :=
  match Keyword.ofText? name with
  | some word => keyword word
  | none => identifier name

/-- The longest lexeme at the start of the text `c :: rest`, and its length. -/
def first (c : Char) (rest : List Char) : Except LexFault (Lexeme × Nat) :=
  if startsName c then
    let tail := rest.takeWhile continuesName
    .ok (ofName (String.ofList (c :: tail)), tail.length + 1)
  else if c == '\'' then
    match rest with
    | [] => .error (.illegal c)
    | d :: more =>
      if startsName d then
        let tail := more.takeWhile continuesName
        .ok (typeVariable (String.ofList (d :: tail)), tail.length + 2)
      else
        .error (.illegal c)
  else if isDigit c then
    let digits := c :: rest.takeWhile isDigit
    if digits.length ≤ maxDigits then
      .ok (number (numeral digits), digits.length)
    else
      .error (.tooManyDigits digits.length)
  else
    match Symbol.first? (c :: rest) with
    | some (mark, length) => .ok (symbol mark, length)
    | none => .error (.illegal c)

end Lexeme

/-! ## All tokens of a text -/

/-- A place within a text: line and column from one, offset from zero. -/
structure Place where
  line : Nat
  column : Nat
  offset : Nat
deriving DecidableEq, Repr, Inhabited

namespace Place

/-- Where a text starts. -/
def start : Place := ⟨1, 1, 0⟩

/-- The place `count` characters further on the same line. -/
def advance (p : Place) (count : Nat) : Place :=
  ⟨p.line, p.column + count, p.offset + count⟩

/-- The place after a newline. -/
def newline (p : Place) : Place :=
  ⟨p.line + 1, 1, p.offset + 1⟩

end Place

/-- How a text ended: all of it was read, or a place was reached where nothing can be read. -/
inductive Ending where
  | complete (lastLine : Nat)
  | fault (why : LexFault) (place : Place)
deriving DecidableEq, Repr, Inhabited

/-- The tokens of a text, up to its end or to the first place where nothing can be read. -/
structure Lexed where
  tokens : List Token
  ending : Ending
deriving DecidableEq, Repr, Inhabited

namespace Token

/-- A character skipped between tokens. -/
def isSpace (c : Char) : Bool :=
  c == ' ' || c == '\t' || c == '\r'

/-- The tokens of the rest of a text that starts at the given place. -/
def scan (place : Place) : List Char → Lexed
  | [] => ⟨[], .complete place.line⟩
  | c :: rest =>
    if isSpace c then
      scan (place.advance 1) rest
    else if c == '\n' then
      scan place.newline rest
    else if c == '#' then
      let comment := rest.takeWhile (· != '\n')
      scan (place.advance (comment.length + 1)) (rest.drop comment.length)
    else
      match Lexeme.first c rest with
      | .error why => ⟨[], .fault why place⟩
      | .ok (lexeme, length) =>
        let more := scan (place.advance length) (rest.drop (length - 1))
        ⟨⟨lexeme, place.line, place.column, place.offset⟩ :: more.tokens, more.ending⟩
termination_by text => text.length
decreasing_by all_goals simp +arith

/-- The tokens of a text. -/
def lex (source : String) : Lexed :=
  scan Place.start source.toList

end Token

/-- The report on a place where nothing can be read. A number that is too long is no report of
its own: it is a failure of the reader. -/
def LexFault.message : LexFault → String
  | illegal c => "Illegal character '" ++ c.toString ++ "'"
  | tooManyDigits count =>
    "Exceeds the limit (4300 digits) for integer string conversion: value has " ++ toString count ++
      " digits; use sys.set_int_max_str_digits() to increase the limit"

/-- The location of a place in a file. -/
def Place.location (p : Place) (file : String) : Location :=
  ⟨file, p.line, p.column⟩

/-- The location of a token in a file. -/
def Token.location (t : Token) (file : String) : Location :=
  ⟨file, t.line, t.column⟩

end LetPoly
