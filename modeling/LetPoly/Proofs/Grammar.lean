-- The grammar of the language. A derivation is a tree with a node for each use of a
-- production. The tokens at its leaves are the phrase that is derived, and what the
-- phrase means is put together from the meanings of its parts.
import LetPoly.Term.Parser

namespace LetPoly

/-! ## Tokens as the grammar sees them -/

/-- The classes of tokens. -/
inductive Terminal where
  | identifier | typeVariable | number
  | keyword (word : Keyword)
  | symbol (mark : Symbol)
deriving DecidableEq, Repr, Inhabited

namespace Lexeme

/-- The class of a lexeme. -/
def terminal : Lexeme → Terminal
  | identifier _ => .identifier
  | typeVariable _ => .typeVariable
  | number _ => .number
  | keyword word => .keyword word
  | symbol mark => .symbol mark

/-- The number that a lexeme stands for. -/
def numeral : Lexeme → Nat
  | number value => value
  | _ => 0

end Lexeme

/-- A token of the given class. -/
abbrev Leaf (class_ : Terminal) := { t : Token // t.lexeme.terminal = class_ }

/-- A token is one of the given symbols. -/
def Token.OneOf (marks : List Symbol) (t : Token) : Prop :=
  ∃ mark ∈ marks, t.lexeme = .symbol mark

/-- A token that is one of the given symbols. -/
abbrev Operator (marks : List Symbol) := { t : Token // t.OneOf marks }

/-! ## Phrases and their derivations -/

/-- The sorts of phrases. -/
inductive Phrase where
  | program | itemList | item | expressionStatement | letStatement | functionDefinition
  | returnType | parameterList | parameter | block | typeExpression | typeList
  | expression | lambda | comparison | additive | multiplicative | postfixed | argumentList
  | primary | conditional | empty
deriving DecidableEq, Repr, Inhabited

/-- The derivations of phrases, with one way to build them for each production. -/
inductive Derivation : Phrase → Type where
  -- program : item_list | item_list expression
  | items (items : Derivation .itemList) : Derivation .program
  | itemsThen (items : Derivation .itemList) (result : Derivation .expression) :
    Derivation .program
  -- item_list : item_list item | empty
  | moreItems (items : Derivation .itemList) (item : Derivation .item) : Derivation .itemList
  | noItems (nothing : Derivation .empty) : Derivation .itemList
  -- item : function_definition | let_statement | expression_statement
  | definitionItem (statement : Derivation .functionDefinition) : Derivation .item
  | letItem (statement : Derivation .letStatement) : Derivation .item
  | expressionItem (statement : Derivation .expressionStatement) : Derivation .item
  -- expression_statement : expression SEMICOLON
  | discarded (expression : Derivation .expression) (semicolon : Leaf (.symbol .semicolon)) :
    Derivation .expressionStatement
  -- let_statement : LET IDENTIFIER EQUALS expression SEMICOLON
  --               | LET IDENTIFIER COLON type_expression EQUALS expression SEMICOLON
  | letPlain (word : Leaf (.keyword .letWord)) (name : Leaf .identifier)
      (equals : Leaf (.symbol .equals)) (value : Derivation .expression)
      (semicolon : Leaf (.symbol .semicolon)) : Derivation .letStatement
  | letAscribed (word : Leaf (.keyword .letWord)) (name : Leaf .identifier)
      (colon : Leaf (.symbol .colon)) (type : Derivation .typeExpression)
      (equals : Leaf (.symbol .equals)) (value : Derivation .expression)
      (semicolon : Leaf (.symbol .semicolon)) : Derivation .letStatement
  -- function_definition : DEF IDENTIFIER LPAREN parameter_list RPAREN return_annotation block
  --                     | DEF IDENTIFIER LPAREN RPAREN return_annotation block
  | function (word : Leaf (.keyword .defWord)) (name : Leaf .identifier)
      (left : Leaf (.symbol .leftParen)) (params : Derivation .parameterList)
      (right : Leaf (.symbol .rightParen)) (returns : Derivation .returnType)
      (body : Derivation .block) : Derivation .functionDefinition
  | thunk (word : Leaf (.keyword .defWord)) (name : Leaf .identifier)
      (left : Leaf (.symbol .leftParen)) (right : Leaf (.symbol .rightParen))
      (returns : Derivation .returnType) (body : Derivation .block) :
    Derivation .functionDefinition
  -- return_annotation : COLON type_expression | empty
  | returns (colon : Leaf (.symbol .colon)) (type : Derivation .typeExpression) :
    Derivation .returnType
  | noReturns (nothing : Derivation .empty) : Derivation .returnType
  -- parameter_list : parameter | parameter_list COMMA parameter
  | oneParameter (first : Derivation .parameter) : Derivation .parameterList
  | moreParameters (params : Derivation .parameterList) (comma : Leaf (.symbol .comma))
      (next : Derivation .parameter) : Derivation .parameterList
  -- parameter : IDENTIFIER | IDENTIFIER COLON type_expression
  | paramPlain (name : Leaf .identifier) : Derivation .parameter
  | paramAscribed (name : Leaf .identifier) (colon : Leaf (.symbol .colon))
      (type : Derivation .typeExpression) : Derivation .parameter
  -- block : LBRACE item_list RBRACE | LBRACE item_list expression RBRACE
  | block (left : Leaf (.symbol .leftBrace)) (items : Derivation .itemList)
      (right : Leaf (.symbol .rightBrace)) : Derivation .block
  | blockThen (left : Leaf (.symbol .leftBrace)) (items : Derivation .itemList)
      (result : Derivation .expression) (right : Leaf (.symbol .rightBrace)) : Derivation .block
  -- type_expression : IDENTIFIER | TYPEVAR
  --                 | LPAREN type_list RPAREN ARROW type_expression
  --                 | LPAREN RPAREN ARROW type_expression
  | namedType (name : Leaf .identifier) : Derivation .typeExpression
  | quotedType (name : Leaf .typeVariable) : Derivation .typeExpression
  | arrowType (left : Leaf (.symbol .leftParen)) (params : Derivation .typeList)
      (right : Leaf (.symbol .rightParen)) (arrow : Leaf (.symbol .arrow))
      (result : Derivation .typeExpression) : Derivation .typeExpression
  | thunkType (left : Leaf (.symbol .leftParen)) (right : Leaf (.symbol .rightParen))
      (arrow : Leaf (.symbol .arrow)) (result : Derivation .typeExpression) :
    Derivation .typeExpression
  -- type_list : type_expression | type_list COMMA type_expression
  | oneType (first : Derivation .typeExpression) : Derivation .typeList
  | moreTypes (types : Derivation .typeList) (comma : Leaf (.symbol .comma))
      (next : Derivation .typeExpression) : Derivation .typeList
  -- expression : lambda_expression | comparison_expression
  | lambdaExpression (lambda : Derivation .lambda) : Derivation .expression
  | comparisonExpression (comparison : Derivation .comparison) : Derivation .expression
  -- lambda_expression : BACKSLASH parameter_list ARROW expression
  | lambda (backslash : Leaf (.symbol .backslash)) (params : Derivation .parameterList)
      (arrow : Leaf (.symbol .arrow)) (body : Derivation .expression) : Derivation .lambda
  -- comparison_expression : additive_expression
  --                       | additive_expression EQUALEQUAL additive_expression, and so on
  | uncompared (side : Derivation .additive) : Derivation .comparison
  | compared (left : Derivation .additive) (operator : Operator Parser.comparisonMarks)
      (right : Derivation .additive) : Derivation .comparison
  -- additive_expression : multiplicative_expression
  --                     | additive_expression PLUS multiplicative_expression
  --                     | additive_expression MINUS multiplicative_expression
  | summand (first : Derivation .multiplicative) : Derivation .additive
  | sum (left : Derivation .additive) (operator : Operator [.plus, .minus])
      (right : Derivation .multiplicative) : Derivation .additive
  -- multiplicative_expression : postfix_expression
  --                           | multiplicative_expression TIMES postfix_expression
  --                           | multiplicative_expression DIVIDE postfix_expression
  | factor (first : Derivation .postfixed) : Derivation .multiplicative
  | product (left : Derivation .multiplicative) (operator : Operator [.times, .divide])
      (right : Derivation .postfixed) : Derivation .multiplicative
  -- postfix_expression : primary_expression
  --                    | postfix_expression LPAREN argument_list RPAREN
  --                    | postfix_expression LPAREN RPAREN
  | uncalled (primary : Derivation .primary) : Derivation .postfixed
  | call (callee : Derivation .postfixed) (left : Leaf (.symbol .leftParen))
      (arguments : Derivation .argumentList) (right : Leaf (.symbol .rightParen)) :
    Derivation .postfixed
  | callNothing (callee : Derivation .postfixed) (left : Leaf (.symbol .leftParen))
      (right : Leaf (.symbol .rightParen)) : Derivation .postfixed
  -- argument_list : expression | argument_list COMMA expression
  | oneArgument (first : Derivation .expression) : Derivation .argumentList
  | moreArguments (arguments : Derivation .argumentList) (comma : Leaf (.symbol .comma))
      (next : Derivation .expression) : Derivation .argumentList
  -- primary_expression : NUMBER | TRUE | FALSE | IDENTIFIER
  --                    | LPAREN expression RPAREN | block | if_expression
  | number (numeral : Leaf .number) : Derivation .primary
  | true_ (word : Leaf (.keyword .trueWord)) : Derivation .primary
  | false_ (word : Leaf (.keyword .falseWord)) : Derivation .primary
  | name (name : Leaf .identifier) : Derivation .primary
  | group (left : Leaf (.symbol .leftParen)) (expression : Derivation .expression)
      (right : Leaf (.symbol .rightParen)) : Derivation .primary
  | blockPrimary (block : Derivation .block) : Derivation .primary
  | conditionalPrimary (conditional : Derivation .conditional) : Derivation .primary
  -- if_expression : IF expression block ELSE block | IF expression block ELSE if_expression
  | conditional (if_ : Leaf (.keyword .ifWord)) (condition : Derivation .expression)
      (thenBranch : Derivation .block) (else_ : Leaf (.keyword .elseWord))
      (elseBranch : Derivation .block) : Derivation .conditional
  | conditionalChain (if_ : Leaf (.keyword .ifWord)) (condition : Derivation .expression)
      (thenBranch : Derivation .block) (else_ : Leaf (.keyword .elseWord))
      (elseBranch : Derivation .conditional) : Derivation .conditional
  -- empty :
  | empty : Derivation .empty

namespace Derivation

/-- The tokens of a phrase, in order. -/
def word : {p : Phrase} → Derivation p → List Token
  | _, items is => is.word
  | _, itemsThen is e => is.word ++ e.word
  | _, moreItems is i => is.word ++ i.word
  | _, noItems _ => []
  | _, definitionItem d => d.word
  | _, letItem d => d.word
  | _, expressionItem d => d.word
  | _, discarded e semicolon => e.word ++ [semicolon.1]
  | _, letPlain word x equals e semicolon =>
    word.1 :: x.1 :: equals.1 :: (e.word ++ [semicolon.1])
  | _, letAscribed word x colon type equals e semicolon =>
    word.1 :: x.1 :: colon.1 :: (type.word ++ equals.1 :: (e.word ++ [semicolon.1]))
  | _, function word x left params right result body =>
    word.1 :: x.1 :: left.1 :: (params.word ++ right.1 :: (result.word ++ body.word))
  | _, thunk word x left right result body =>
    word.1 :: x.1 :: left.1 :: right.1 :: (result.word ++ body.word)
  | _, returns colon type => colon.1 :: type.word
  | _, noReturns _ => []
  | _, oneParameter p => p.word
  | _, moreParameters ps comma p => ps.word ++ comma.1 :: p.word
  | _, paramPlain x => [x.1]
  | _, paramAscribed x colon type => x.1 :: colon.1 :: type.word
  | _, block left is right => left.1 :: (is.word ++ [right.1])
  | _, blockThen left is e right => left.1 :: (is.word ++ (e.word ++ [right.1]))
  | _, namedType x => [x.1]
  | _, quotedType x => [x.1]
  | _, arrowType left params right arrow result =>
    left.1 :: (params.word ++ right.1 :: arrow.1 :: result.word)
  | _, thunkType left right arrow result => left.1 :: right.1 :: arrow.1 :: result.word
  | _, oneType t => t.word
  | _, moreTypes ts comma t => ts.word ++ comma.1 :: t.word
  | _, lambdaExpression d => d.word
  | _, comparisonExpression d => d.word
  | _, lambda backslash params arrow body =>
    backslash.1 :: (params.word ++ arrow.1 :: body.word)
  | _, uncompared d => d.word
  | _, compared left operator right => left.word ++ operator.1 :: right.word
  | _, summand d => d.word
  | _, sum left operator right => left.word ++ operator.1 :: right.word
  | _, factor d => d.word
  | _, product left operator right => left.word ++ operator.1 :: right.word
  | _, uncalled d => d.word
  | _, call callee left arguments right =>
    callee.word ++ left.1 :: (arguments.word ++ [right.1])
  | _, callNothing callee left right => callee.word ++ [left.1, right.1]
  | _, oneArgument e => e.word
  | _, moreArguments es comma e => es.word ++ comma.1 :: e.word
  | _, number numeral => [numeral.1]
  | _, true_ word => [word.1]
  | _, false_ word => [word.1]
  | _, name x => [x.1]
  | _, group left e right => left.1 :: (e.word ++ [right.1])
  | _, blockPrimary d => d.word
  | _, conditionalPrimary d => d.word
  | _, conditional if_ condition thenBranch else_ elseBranch =>
    if_.1 :: (condition.word ++ (thenBranch.word ++ else_.1 :: elseBranch.word))
  | _, conditionalChain if_ condition thenBranch else_ elseBranch =>
    if_.1 :: (condition.word ++ (thenBranch.word ++ else_.1 :: elseBranch.word))
  | _, empty => []

end Derivation

/-! ## What phrases mean -/

/-- The kind of syntax tree that a phrase of a sort stands for. -/
abbrev Phrase.Meaning : Phrase → Type
  | program => List Term × Option Term
  | itemList | argumentList => List Term
  | returnType => Option TypeExpr
  | parameterList => List Param
  | parameter => Param
  | typeExpression => TypeExpr
  | typeList => List TypeExpr
  | empty => Unit
  | _ => Term

namespace Derivation

/-- The syntax tree that a phrase of a file stands for. -/
def meaning (file : String) : {p : Phrase} → Derivation p → p.Meaning
  | _, items is => (is.meaning file, none)
  | _, itemsThen is e => (is.meaning file, some (e.meaning file))
  | _, moreItems is i => is.meaning file ++ [i.meaning file]
  | _, noItems _ => []
  | _, definitionItem d => d.meaning file
  | _, letItem d => d.meaning file
  | _, expressionItem d => d.meaning file
  | _, discarded e _ => .discard (e.meaning file) (Term.location (e.meaning file))
  | _, letPlain _ x _ e _ =>
    .letBinding x.1.lexeme.value (e.meaning file) none (some (x.1.location file))
  | _, letAscribed _ x _ type _ e _ =>
    .letBinding x.1.lexeme.value (e.meaning file) (some (type.meaning file))
      (some (x.1.location file))
  | _, function _ x _ params _ result body =>
    .definition x.1.lexeme.value (params.meaning file) (result.meaning file)
      (body.meaning file) (some (x.1.location file))
  | _, thunk _ x _ _ result body =>
    .definition x.1.lexeme.value [] (result.meaning file) (body.meaning file)
      (some (x.1.location file))
  | _, returns _ type => some (type.meaning file)
  | _, noReturns _ => none
  | _, oneParameter p => [p.meaning file]
  | _, moreParameters ps _ p => ps.meaning file ++ [p.meaning file]
  | _, paramPlain x => ⟨x.1.lexeme.value, none, some (x.1.location file)⟩
  | _, paramAscribed x _ type =>
    ⟨x.1.lexeme.value, some (type.meaning file), some (x.1.location file)⟩
  | _, block left is _ => .block (is.meaning file) none (some (left.1.location file))
  | _, blockThen left is e _ =>
    .block (is.meaning file) (some (e.meaning file)) (some (left.1.location file))
  | _, namedType x => .named x.1.lexeme.value (some (x.1.location file))
  | _, quotedType x => .quoted x.1.lexeme.value (some (x.1.location file))
  | _, arrowType left params _ _ result =>
    .arrow (params.meaning file) (result.meaning file) (some (left.1.location file))
  | _, thunkType left _ _ result => .arrow [] (result.meaning file) (some (left.1.location file))
  | _, oneType t => [t.meaning file]
  | _, moreTypes ts _ t => ts.meaning file ++ [t.meaning file]
  | _, lambdaExpression d => d.meaning file
  | _, comparisonExpression d => d.meaning file
  | _, lambda backslash params _ body =>
    .lambda (params.meaning file) (body.meaning file) (some (backslash.1.location file))
  | _, uncompared d => d.meaning file
  | _, compared left operator right =>
    .binary (left.meaning file) operator.1.lexeme.value (right.meaning file)
      (some (operator.1.location file))
  | _, summand d => d.meaning file
  | _, sum left operator right =>
    .binary (left.meaning file) operator.1.lexeme.value (right.meaning file)
      (some (operator.1.location file))
  | _, factor d => d.meaning file
  | _, product left operator right =>
    .binary (left.meaning file) operator.1.lexeme.value (right.meaning file)
      (some (operator.1.location file))
  | _, uncalled d => d.meaning file
  | _, call callee _ arguments _ =>
    .call (callee.meaning file) (arguments.meaning file) (Term.location (callee.meaning file))
  | _, callNothing callee _ _ =>
    .call (callee.meaning file) [] (Term.location (callee.meaning file))
  | _, oneArgument e => [e.meaning file]
  | _, moreArguments es _ e => es.meaning file ++ [e.meaning file]
  | _, number numeral => .number numeral.1.lexeme.numeral (some (numeral.1.location file))
  | _, true_ word => .boolean true (some (word.1.location file))
  | _, false_ word => .boolean false (some (word.1.location file))
  | _, name x => .name x.1.lexeme.value (some (x.1.location file))
  | _, group _ e _ => e.meaning file
  | _, blockPrimary d => d.meaning file
  | _, conditionalPrimary d => d.meaning file
  | _, conditional if_ condition thenBranch _ elseBranch =>
    .conditional (condition.meaning file) (thenBranch.meaning file) (elseBranch.meaning file)
      (some (if_.1.location file))
  | _, conditionalChain if_ condition thenBranch _ elseBranch =>
    .conditional (condition.meaning file) (thenBranch.meaning file) (elseBranch.meaning file)
      (some (if_.1.location file))
  | _, empty => ()

/-- The program that a derivation stands for. -/
def program (d : Derivation .program) (file : String) : Program :=
  ⟨(d.meaning file).1, (d.meaning file).2, file, some ⟨file, 1, 1⟩⟩

end Derivation

end LetPoly
