-- From tokens to syntax trees, top down with one token of lookahead. A token is
-- refused where no program can go on with it, so the first refused token is the
-- first that no continuation could mend.
import LetPoly.Term
import LetPoly.Token.Lexer

namespace LetPoly

/-! ## Parsing steps -/

/-- Why parsing stopped: the first of the remaining tokens is refused, or no token is left
where one is needed. `tooDeep` tells that the given bound on nesting was too small. -/
inductive Stop where
  | unexpected (rest : List Token)
  | tooDeep
deriving DecidableEq, Repr, Inhabited

/-- A way to take a piece off the front of the tokens: the piece and the tokens after it. -/
abbrev Rule (α : Type) := List Token → Except Stop (α × List Token)

namespace Parser

/-- The tokens after the given lexeme, if it comes next. -/
def eat? (lexeme : Lexeme) : List Token → Option (List Token)
  | [] => none
  | t :: rest => if t.lexeme = lexeme then some rest else none

/-- The given symbol. -/
def expect (mark : Symbol) (ts : List Token) : Except Stop (List Token) :=
  match eat? (.symbol mark) ts with
  | some rest => .ok rest
  | none => .error (.unexpected ts)

/-- The given reserved word. -/
def expectWord (word : Keyword) (ts : List Token) : Except Stop (List Token) :=
  match eat? (.keyword word) ts with
  | some rest => .ok rest
  | none => .error (.unexpected ts)

/-- An identifier, with the token that holds it. -/
def identifier : Rule (String × Token)
  | [] => .error (.unexpected [])
  | t :: rest =>
    match t.lexeme with
    | .identifier name => .ok ((name, t), rest)
    | _ => .error (.unexpected (t :: rest))

/-- One or more items with commas between them. -/
def separated {α : Type} (item : Rule α) : Nat → Rule (List α)
  | 0, _ => .error .tooDeep
  | n + 1, ts => do
    let (a, rest) ← item ts
    match eat? (.symbol .comma) rest with
    | some more => do
      let (as, rest) ← separated item n more
      .ok (a :: as, rest)
    | none => .ok ([a], rest)

/-- Items with commas between them, possibly none, up to a closing parenthesis. -/
def enclosed {α : Type} (item : Rule α) (n : Nat) : Rule (List α) := fun ts =>
  match eat? (.symbol .rightParen) ts with
  | some rest => .ok ([], rest)
  | none => do
    let (as, rest) ← separated item n ts
    let rest ← expect .rightParen rest
    .ok (as, rest)

/-! ## Annotations and parameters -/

/-- A type annotation. -/
def typeExpr (file : String) : Nat → Rule TypeExpr
  | 0, _ => .error .tooDeep
  | _ + 1, [] => .error (.unexpected [])
  | n + 1, t :: rest =>
    match t.lexeme with
    | .identifier name => .ok (.named name (some (t.location file)), rest)
    | .typeVariable name => .ok (.quoted name (some (t.location file)), rest)
    | .symbol .leftParen => do
      let (params, rest) ← enclosed (typeExpr file n) n rest
      let rest ← expect .arrow rest
      let (result, rest) ← typeExpr file n rest
      .ok (.arrow params result (some (t.location file)), rest)
    | _ => .error (.unexpected (t :: rest))

/-- An annotation after a colon, or nothing. -/
def optionalType (file : String) (n : Nat) : Rule (Option TypeExpr) := fun ts =>
  match eat? (.symbol .colon) ts with
  | some rest => do
    let (type, rest) ← typeExpr file n rest
    .ok (some type, rest)
  | none => .ok (none, ts)

/-- A parameter. -/
def param (file : String) (n : Nat) : Rule Param := fun ts => do
  let ((name, t), rest) ← identifier ts
  let (ascription, rest) ← optionalType file n rest
  .ok (⟨name, ascription, some (t.location file)⟩, rest)

/-! ## Statements

The parsers below are given the parser of expressions one level down, `inner`, and a bound `n`
on the number of steps of a loop. -/

/-- The token can start an expression. -/
def startsExpression (t : Token) : Bool :=
  match t.lexeme with
  | .identifier _ | .number _ => true
  | .keyword .trueWord | .keyword .falseWord | .keyword .ifWord => true
  | .symbol .leftParen | .symbol .leftBrace | .symbol .backslash => true
  | _ => false

/-- Items up to a token that starts none, and the expression after them, if any. `block` parses
the body of a definition. -/
def items (file : String) (inner block : Rule Term) :
    Nat → Rule (List Term × Option Term)
  | 0, _ => .error .tooDeep
  | _ + 1, [] => .ok (([], none), [])
  | n + 1, t :: rest =>
    if t.lexeme = .keyword .letWord then do
      let ((name, at_), rest) ← identifier rest
      let (ascription, rest) ← optionalType file n rest
      let rest ← expect .equals rest
      let (value, rest) ← inner rest
      let rest ← expect .semicolon rest
      let ((more, result), rest) ← items file inner block n rest
      .ok ((.letBinding name value ascription (some (at_.location file)) :: more, result), rest)
    else if t.lexeme = .keyword .defWord then do
      let ((name, at_), rest) ← identifier rest
      let rest ← expect .leftParen rest
      let (params, rest) ← enclosed (param file n) n rest
      let (returns, rest) ← optionalType file n rest
      let (body, rest) ← block rest
      let ((more, result), rest) ← items file inner block n rest
      .ok ((.definition name params returns body (some (at_.location file)) :: more, result), rest)
    else if startsExpression t then do
      let (expression, rest) ← inner (t :: rest)
      match eat? (.symbol .semicolon) rest with
      | some rest => do
        let ((more, result), rest) ← items file inner block n rest
        .ok ((.discard expression expression.location :: more, result), rest)
      | none => .ok (([], some expression), rest)
    else
      .ok (([], none), t :: rest)

/-- A block in braces. -/
def block (file : String) (inner : Rule Term) : Nat → Rule Term
  | 0, _ => .error .tooDeep
  | _ + 1, [] => .error (.unexpected [])
  | n + 1, t :: rest =>
    if t.lexeme = .symbol .leftBrace then do
      let ((statements, result), rest) ← items file inner (block file inner n) n rest
      let rest ← expect .rightBrace rest
      .ok (.block statements result (some (t.location file)), rest)
    else
      .error (.unexpected (t :: rest))

/-! ## Expressions -/

/-- A conditional. What follows `else` is a block or another conditional. -/
def conditional (file : String) (inner block : Rule Term) : Nat → Rule Term
  | 0, _ => .error .tooDeep
  | _ + 1, [] => .error (.unexpected [])
  | n + 1, t :: rest =>
    if t.lexeme = .keyword .ifWord then do
      let (condition, rest) ← inner rest
      let (thenBranch, rest) ← block rest
      let rest ← expectWord .elseWord rest
      let (elseBranch, rest) ←
        match eat? (.keyword .ifWord) rest with
        | some _ => conditional file inner block n rest
        | none => block rest
      .ok (.conditional condition thenBranch elseBranch (some (t.location file)), rest)
    else
      .error (.unexpected (t :: rest))

/-- A literal, a name, an expression in parentheses, a block or a conditional. -/
def primary (file : String) (inner : Rule Term) (n : Nat) : Rule Term
  | [] => .error (.unexpected [])
  | t :: rest =>
    match t.lexeme with
    | .number value => .ok (.number value (some (t.location file)), rest)
    | .keyword .trueWord => .ok (.boolean true (some (t.location file)), rest)
    | .keyword .falseWord => .ok (.boolean false (some (t.location file)), rest)
    | .identifier name => .ok (.name name (some (t.location file)), rest)
    | .symbol .leftParen => do
      let (expression, rest) ← inner rest
      let rest ← expect .rightParen rest
      .ok (expression, rest)
    | .symbol .leftBrace => block file inner n (t :: rest)
    | .keyword .ifWord => conditional file inner (block file inner n) n (t :: rest)
    | _ => .error (.unexpected (t :: rest))

/-- The calls that follow a callee. -/
def calls (inner : Rule Term) : Nat → Term → Rule Term
  | 0, _, _ => .error .tooDeep
  | n + 1, callee, ts =>
    match eat? (.symbol .leftParen) ts with
    | some rest => do
      let (arguments, rest) ← enclosed inner n rest
      calls inner n (.call callee arguments callee.location) rest
    | none => .ok (callee, ts)

/-- A primary expression and the calls that follow it. -/
def postfixed (file : String) (inner : Rule Term) (n : Nat) : Rule Term := fun ts => do
  let (callee, rest) ← primary file inner n ts
  calls inner n callee rest

/-- The operator at the front, if it is one of those given. -/
def operator? (marks : List Symbol) : List Token → Option (Symbol × Token × List Token)
  | [] => none
  | t :: rest =>
    match t.lexeme with
    | .symbol mark => if mark ∈ marks then some (mark, t, rest) else none
    | _ => none

/-- The operations that follow a left operand, grouped to the left. -/
def operations (file : String) (marks : List Symbol) (operand : Rule Term) :
    Nat → Term → Rule Term
  | 0, _, _ => .error .tooDeep
  | n + 1, left, ts =>
    match operator? marks ts with
    | some (mark, t, rest) => do
      let (right, rest) ← operand rest
      operations file marks operand n (.binary left mark.text right (some (t.location file))) rest
    | none => .ok (left, ts)

/-- Products and quotients. -/
def product (file : String) (inner : Rule Term) (n : Nat) : Rule Term := fun ts => do
  let (left, rest) ← postfixed file inner n ts
  operations file [.times, .divide] (postfixed file inner n) n left rest

/-- Sums and differences. -/
def sum (file : String) (inner : Rule Term) (n : Nat) : Rule Term := fun ts => do
  let (left, rest) ← product file inner n ts
  operations file [.plus, .minus] (product file inner n) n left rest

/-- The comparison operators. -/
def comparisonMarks : List Symbol :=
  [.equalEqual, .notEqual, .less, .lessEqual, .greater, .greaterEqual]

/-- At most one comparison of two sums. -/
def comparison (file : String) (inner : Rule Term) (n : Nat) : Rule Term := fun ts => do
  let (left, rest) ← sum file inner n ts
  match operator? comparisonMarks rest with
  | some (mark, t, rest) => do
    let (right, rest) ← sum file inner n rest
    .ok (.binary left mark.text right (some (t.location file)), rest)
  | none => .ok (left, rest)

/-- An expression nested at most as deep as the bound says. -/
def expression (file : String) : Nat → Rule Term
  | 0, _ => .error .tooDeep
  | _ + 1, [] => .error (.unexpected [])
  | n + 1, t :: rest =>
    if t.lexeme = .symbol .backslash then do
      let (params, rest) ← separated (param file n) n rest
      let rest ← expect .arrow rest
      let (body, rest) ← expression file n rest
      .ok (.lambda params body (some (t.location file)), rest)
    else
      comparison file (expression file n) n (t :: rest)

/-- A whole program. -/
def program (file : String) (n : Nat) (ts : List Token) : Except Stop Program := do
  let ((statements, result), rest) ←
    items file (expression file n) (block file (expression file n) n) n ts
  match rest with
  | [] => .ok ⟨statements, result, file, some ⟨file, 1, 1⟩⟩
  | t :: rest => .error (.unexpected (t :: rest))

end Parser

/-! ## Reading source text -/

/-- Why a source text is no program. -/
inductive ReadFault where
  | lexical (why : LexFault) (place : Place)
  | unexpectedToken (token : Token)
  | unexpectedEnd (line : Nat)
deriving DecidableEq, Repr, Inhabited

namespace Lexed

/-- The program that the tokens make. A token that is refused counts before the place where
nothing more could be read, and that place counts before the end of the text. -/
def program (lexed : Lexed) (file : String) : Except ReadFault Program :=
  match Parser.program file (lexed.tokens.length + 2) lexed.tokens, lexed.ending with
  | .error (.unexpected (t :: _)), _ => .error (.unexpectedToken t)
  | _, .fault why place => .error (.lexical why place)
  | .ok p, .complete _ => .ok p
  | .error _, .complete line => .error (.unexpectedEnd line)

end Lexed

namespace Program

/-- The program in a source text. -/
def read (source file : String) : Except ReadFault Program :=
  (Token.lex source).program file

/-- The tokens that reading a source text looks at: all of them, or those up to the refused
one. -/
def tokensRead (source : String) : List Token :=
  match read source "" with
  | .error (.unexpectedToken t) => (Token.lex source).tokens.filter (·.offset ≤ t.offset)
  | _ => (Token.lex source).tokens

end Program

/-- The report on a text that is no program. -/
def ReadFault.diagnostic (file : String) : ReadFault → Diagnostic
  | lexical why place => Diagnostic.plain "LexError" why.message (some (place.location file))
  | unexpectedToken t =>
    { Diagnostic.plain "ParseError" ("Syntax error at '" ++ t.lexeme.value ++ "'")
        (some (t.location file)) with
      notes := ["Check syntax near this location"] }
  | unexpectedEnd line =>
    { Diagnostic.plain "ParseError" "Syntax error at end of input" (some ⟨file, line, 0⟩) with
      notes := ["Unexpected end of file"] }

end LetPoly
