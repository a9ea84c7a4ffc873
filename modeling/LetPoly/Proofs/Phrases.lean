-- How the phrases of the grammar are put together, as the parser meets them: lists that the
-- grammar groups to the left are read from the left, and a phrase is told from the others of
-- its sort by the token with which it starts.
import LetPoly.Proofs.Reading

namespace LetPoly

namespace Parser

open LetPoly.Derivation hiding word

variable {file : String}

theorem same_class {c c' : Terminal} (x : Leaf c) {t : Token} (h : some x.1 = some t)
    (ht : t.lexeme.terminal = c') : c = c' := by
  rw [← x.2, Option.some.inj h, ht]

/-! ## Annotations and parameters -/

/-- Annotations with commas between them, grouped to the left. -/
def typesOf : Row (Derivation .typeExpression) → Derivation .typeList :=
  spine oneType fun types s => moreTypes types s.1 s.2

theorem word_typesOf (row : Row (Derivation .typeExpression)) : word (typesOf row) = word row := by
  apply word_spine row <;> intros <;> rfl

theorem meaning_typesOf (row : Row (Derivation .typeExpression)) :
    meaning file (typesOf row) = rowValue (meaning file) row := by
  apply value_row <;> intros <;> rfl

theorem exists_typesOf : ∀ types : Derivation .typeList, ∃ row, typesOf row = types
  | .oneType first => ⟨(first, []), rfl⟩
  | .moreTypes types comma next => by
    obtain ⟨row, hrow⟩ := exists_typesOf types
    exact ⟨(row.1, row.2 ++ [(comma, next)]), by simp [← hrow, typesOf, spine]⟩

/-- The class of the token with which an annotation starts. -/
def typeClass : Derivation .typeExpression → Terminal
  | .namedType _ => .identifier
  | .quotedType _ => .typeVariable
  | .arrowType _ _ _ _ _ | .thunkType _ _ _ _ => .symbol .leftParen

theorem class_of_type {d : Derivation .typeExpression} {t : Token} {rest : List Token}
    (hhead : (word d ++ rest).head? = some t) : t.lexeme.terminal = typeClass d := by
  cases d with
  | namedType x => exact (same_class x hhead rfl).symm
  | quotedType x => exact (same_class x hhead rfl).symm
  | arrowType x _ _ _ _ => exact (same_class x hhead rfl).symm
  | thunkType x _ _ _ => exact (same_class x hhead rfl).symm

theorem opens_type : Opens (Derivation .typeExpression) fun t =>
    t.lexeme.terminal ∈ [.identifier, .typeVariable, .symbol .leftParen] := by
  intro d
  cases d with
  | namedType x => exact ⟨x.1, _, rfl, by simp [x.2]⟩
  | quotedType x => exact ⟨x.1, _, rfl, by simp [x.2]⟩
  | arrowType left _ _ _ _ => exact ⟨left.1, _, rfl, by simp [left.2]⟩
  | thunkType left _ _ _ => exact ⟨left.1, _, rfl, by simp [left.2]⟩

instance : Fillable (Derivation .typeExpression) := .node namedType fun _ => rfl

/-- An annotation after an opening parenthesis. -/
def arrowOf : Leaf (.symbol .leftParen) × Enclosed (Derivation .typeExpression) ×
    Leaf (.symbol .arrow) × Derivation .typeExpression → Derivation .typeExpression
  | (left, (none, right), arrow, result) => thunkType left right arrow result
  | (left, (some row, right), arrow, result) => arrowType left (typesOf row) right arrow result

theorem word_arrowOf : ∀ p, word (arrowOf p) = word p := by
  rintro ⟨left, ⟨_ | row, right⟩, arrow, result⟩
  · rfl
  · show left.1 :: (word (typesOf row) ++ right.1 :: arrow.1 :: word result) = _
    rw [word_typesOf]
    simp [word_pair, word_some, word_leaf]

theorem meaning_arrowOf (left : Leaf (.symbol .leftParen))
    (p : Enclosed (Derivation .typeExpression)) (arrow : Leaf (.symbol .arrow))
    (result : Derivation .typeExpression) :
    meaning file (arrowOf (left, p, arrow, result)) =
      .arrow (enclosedValue (meaning file) p) (meaning file result)
        (some (left.1.location file)) := by
  obtain ⟨_ | row, right⟩ := p
  · rfl
  · show TypeExpr.arrow (meaning file (typesOf row)) _ _ = _
    rw [meaning_typesOf]
    rfl

instance : Fillable (Derivation .returnType) := .nothing (noReturns .empty) rfl

/-- A parameter with what may stand after its name. -/
def paramOf : Leaf .identifier × Derivation .returnType → Derivation .parameter
  | (x, returns colon type) => paramAscribed x colon type
  | (x, noReturns _) => paramPlain x

instance : Fillable (Derivation .parameter) := .node paramPlain fun _ => rfl

theorem opens_param : Opens (Derivation .parameter) fun t => t.lexeme.terminal = .identifier := by
  intro d
  cases d with
  | paramPlain x => exact ⟨x.1, _, rfl, x.2⟩
  | paramAscribed x _ _ => exact ⟨x.1, _, rfl, x.2⟩

/-- Parameters with commas between them, grouped to the left. -/
def paramsOf : Row (Derivation .parameter) → Derivation .parameterList :=
  spine oneParameter fun params s => moreParameters params s.1 s.2

theorem word_paramsOf (row : Row (Derivation .parameter)) : word (paramsOf row) = word row := by
  apply word_spine row <;> intros <;> rfl

theorem meaning_paramsOf (row : Row (Derivation .parameter)) :
    meaning file (paramsOf row) = rowValue (meaning file) row := by
  apply value_row <;> intros <;> rfl

theorem exists_paramsOf : ∀ params : Derivation .parameterList, ∃ row, paramsOf row = params
  | .oneParameter first => ⟨(first, []), rfl⟩
  | .moreParameters params comma next => by
    obtain ⟨row, hrow⟩ := exists_paramsOf params
    exact ⟨(row.1, row.2 ++ [(comma, next)]), by simp [← hrow, paramsOf, spine]⟩

/-! ## Calls and operations -/

/-- Arguments with commas between them, grouped to the left. -/
def argumentsOf : Row (Derivation .expression) → Derivation .argumentList :=
  spine oneArgument fun arguments s => moreArguments arguments s.1 s.2

theorem word_argumentsOf (row : Row (Derivation .expression)) :
    word (argumentsOf row) = word row := by
  apply word_spine row <;> intros <;> rfl

theorem meaning_argumentsOf (row : Row (Derivation .expression)) :
    meaning file (argumentsOf row) = rowValue (meaning file) row := by
  apply value_row <;> intros <;> rfl

theorem exists_argumentsOf : ∀ arguments : Derivation .argumentList,
    ∃ row, argumentsOf row = arguments
  | .oneArgument first => ⟨(first, []), rfl⟩
  | .moreArguments arguments comma next => by
    obtain ⟨row, hrow⟩ := exists_argumentsOf arguments
    exact ⟨(row.1, row.2 ++ [(comma, next)]), by simp [← hrow, argumentsOf, spine]⟩

/-- A call with the arguments in its parentheses. -/
def callOf (callee : Derivation .postfixed) :
    Leaf (.symbol .leftParen) × Enclosed (Derivation .expression) → Derivation .postfixed
  | (left, (none, right)) => callNothing callee left right
  | (left, (some row, right)) => call callee left (argumentsOf row) right

theorem word_callOf (callee : Derivation .postfixed)
    (s : Leaf (.symbol .leftParen) × Enclosed (Derivation .expression)) :
    word (callOf callee s) = word callee ++ word s := by
  obtain ⟨left, _ | row, right⟩ := s
  · rfl
  · show word callee ++ left.1 :: (word (argumentsOf row) ++ [right.1]) = _
    rw [word_argumentsOf]
    rfl

theorem meaning_callOf (callee : Derivation .postfixed)
    (s : Leaf (.symbol .leftParen) × Enclosed (Derivation .expression)) :
    meaning file (callOf callee s) = .call (meaning file callee)
      (enclosedValue (meaning file) s.2) (Term.location (meaning file callee)) := by
  obtain ⟨left, _ | row, right⟩ := s
  · rfl
  · show Term.call (meaning file callee) (meaning file (argumentsOf row)) _ = _
    rw [meaning_argumentsOf]
    rfl

/-- A primary expression and the calls after it. -/
def callsOf : Derivation .primary ×
    List (Leaf (.symbol .leftParen) × Enclosed (Derivation .expression)) → Derivation .postfixed :=
  spine uncalled callOf

/-- Factors, grouped to the left. -/
def productOf : Derivation .postfixed × List (Operator [.times, .divide] × Derivation .postfixed) →
    Derivation .multiplicative :=
  spine factor fun left s => .product left s.1 s.2

/-- Summands, grouped to the left. -/
def sumOf : Derivation .multiplicative ×
    List (Operator [.plus, .minus] × Derivation .multiplicative) → Derivation .additive :=
  spine summand fun left s => .sum left s.1 s.2

/-- An operand with the comparison after it, if any. -/
def comparisonOf : Derivation .additive × Option (Operator comparisonMarks × Derivation .additive) →
    Derivation .comparison
  | (side, none) => uncompared side
  | (left, some (operator, right)) => compared left operator right

theorem word_callsOf (p) : word (callsOf p) = word p :=
  word_spine p (fun _ => rfl) word_callOf

theorem word_productOf (p) : word (productOf p) = word p := by
  apply word_spine p <;> intros <;> rfl

theorem word_sumOf (p) : word (sumOf p) = word p := by
  apply word_spine p <;> intros <;> rfl

theorem word_comparisonOf : ∀ p, word (comparisonOf p) = word p := by
  rintro ⟨left, _ | ⟨operator, right⟩⟩
  · exact (List.append_nil _).symm
  · rfl

theorem meaning_callsOf (p : Derivation .primary ×
    List (Leaf (.symbol .leftParen) × Enclosed (Derivation .expression))) :
    meaning file (callsOf p) = p.2.foldl (fun callee s =>
      Term.call callee (enclosedValue (meaning file) s.2) callee.location) (meaning file p.1) := by
  unfold callsOf
  exact value_spine (meaning file (p := .postfixed)) (fun callee s =>
    Term.call callee (enclosedValue (meaning file) s.2) callee.location) meaning_callOf p

theorem meaning_productOf (p : Derivation .postfixed ×
    List (Operator [.times, .divide] × Derivation .postfixed)) :
    meaning file (productOf p) = p.2.foldl (fun left s => Term.binary left s.1.1.lexeme.value
      (meaning file s.2) (some (s.1.1.location file))) (meaning file p.1) := by
  unfold productOf
  refine value_spine (meaning file (p := .multiplicative)) (fun left s => Term.binary left
    s.1.1.lexeme.value (meaning file s.2) (some (s.1.1.location file))) (fun left s => ?_) p
  rfl

theorem meaning_sumOf (p : Derivation .multiplicative ×
    List (Operator [.plus, .minus] × Derivation .multiplicative)) :
    meaning file (sumOf p) = p.2.foldl (fun left s => Term.binary left s.1.1.lexeme.value
      (meaning file s.2) (some (s.1.1.location file))) (meaning file p.1) := by
  unfold sumOf
  refine value_spine (meaning file (p := .additive)) (fun left s => Term.binary left
    s.1.1.lexeme.value (meaning file s.2) (some (s.1.1.location file))) (fun left s => ?_) p
  rfl

theorem exists_callsOf : ∀ d : Derivation .postfixed, ∃ p, callsOf p = d
  | .uncalled primary => ⟨(primary, []), rfl⟩
  | .call callee left arguments right => by
    obtain ⟨p, hp⟩ := exists_callsOf callee
    obtain ⟨row, hrow⟩ := exists_argumentsOf arguments
    exact ⟨(p.1, p.2 ++ [(left, some row, right)]), by simp [← hp, ← hrow, callsOf, spine, callOf]⟩
  | .callNothing callee left right => by
    obtain ⟨p, hp⟩ := exists_callsOf callee
    exact ⟨(p.1, p.2 ++ [(left, none, right)]), by simp [← hp, callsOf, spine, callOf]⟩

theorem exists_productOf : ∀ d : Derivation .multiplicative, ∃ p, productOf p = d
  | .factor first => ⟨(first, []), rfl⟩
  | .product left operator right => by
    obtain ⟨p, hp⟩ := exists_productOf left
    exact ⟨(p.1, p.2 ++ [(operator, right)]), by simp [← hp, productOf, spine]⟩

theorem exists_sumOf : ∀ d : Derivation .additive, ∃ p, sumOf p = d
  | .summand first => ⟨(first, []), rfl⟩
  | .sum left operator right => by
    obtain ⟨p, hp⟩ := exists_sumOf left
    exact ⟨(p.1, p.2 ++ [(operator, right)]), by simp [← hp, sumOf, spine]⟩

theorem exists_comparisonOf (d : Derivation .comparison) : ∃ p, comparisonOf p = d := by
  cases d with
  | uncompared side => exact ⟨(side, none), rfl⟩
  | compared left operator right => exact ⟨(left, some (operator, right)), rfl⟩

/-! ## How expressions start -/

/-- The classes of tokens with which an operand starts. -/
def operandStarts : List Terminal :=
  [.identifier, .number, .keyword .trueWord, .keyword .falseWord, .keyword .ifWord,
    .symbol .leftParen, .symbol .leftBrace]

theorem opens_block : Opens (Derivation .block) fun t =>
    t.lexeme.terminal = .symbol .leftBrace := by
  intro d
  cases d with
  | block left _ _ => exact ⟨left.1, _, rfl, left.2⟩
  | blockThen left _ _ _ => exact ⟨left.1, _, rfl, left.2⟩

theorem opens_conditional : Opens (Derivation .conditional) fun t =>
    t.lexeme.terminal = .keyword .ifWord := by
  intro d
  cases d with
  | conditional if_ _ _ _ _ => exact ⟨if_.1, _, rfl, if_.2⟩
  | conditionalChain if_ _ _ _ _ => exact ⟨if_.1, _, rfl, if_.2⟩

/-- The class of the token with which a primary expression starts. -/
def primaryClass : Derivation .primary → Terminal
  | .number _ => .number
  | .true_ _ => .keyword .trueWord
  | .false_ _ => .keyword .falseWord
  | .name _ => .identifier
  | .group _ _ _ => .symbol .leftParen
  | .blockPrimary _ => .symbol .leftBrace
  | .conditionalPrimary _ => .keyword .ifWord

theorem class_of_primary {d : Derivation .primary} {t : Token} {rest : List Token}
    (hhead : (word d ++ rest).head? = some t) : t.lexeme.terminal = primaryClass d := by
  cases d with
  | number x => exact (same_class x hhead rfl).symm
  | true_ x => exact (same_class x hhead rfl).symm
  | false_ x => exact (same_class x hhead rfl).symm
  | name x => exact (same_class x hhead rfl).symm
  | group x _ _ => exact (same_class x hhead rfl).symm
  | blockPrimary d => exact opens_block.head hhead
  | conditionalPrimary d => exact opens_conditional.head hhead

theorem opens_primary : Opens (Derivation .primary) fun t =>
    t.lexeme.terminal ∈ operandStarts := by
  intro d
  cases d with
  | number x => exact ⟨x.1, _, rfl, by simp [x.2, operandStarts]⟩
  | true_ x => exact ⟨x.1, _, rfl, by simp [x.2, operandStarts]⟩
  | false_ x => exact ⟨x.1, _, rfl, by simp [x.2, operandStarts]⟩
  | name x => exact ⟨x.1, _, rfl, by simp [x.2, operandStarts]⟩
  | group left _ _ => exact ⟨left.1, _, rfl, by simp [left.2, operandStarts]⟩
  | blockPrimary d =>
    obtain ⟨t, rest, hword, ht⟩ := opens_block d
    exact ⟨t, rest, hword, by simp [ht, operandStarts]⟩
  | conditionalPrimary d =>
    obtain ⟨t, rest, hword, ht⟩ := opens_conditional d
    exact ⟨t, rest, hword, by simp [ht, operandStarts]⟩

theorem opens_postfixed : Opens (Derivation .postfixed) fun t =>
    t.lexeme.terminal ∈ operandStarts := by
  refine opens_primary.of_front fun d => ?_
  obtain ⟨p, rfl⟩ := exists_callsOf d
  exact ⟨p.1, word p.2, word_callsOf p⟩

theorem opens_multiplicative : Opens (Derivation .multiplicative) fun t =>
    t.lexeme.terminal ∈ operandStarts := by
  refine opens_postfixed.of_front fun d => ?_
  obtain ⟨p, rfl⟩ := exists_productOf d
  exact ⟨p.1, word p.2, word_productOf p⟩

theorem opens_additive : Opens (Derivation .additive) fun t =>
    t.lexeme.terminal ∈ operandStarts := by
  refine opens_multiplicative.of_front fun d => ?_
  obtain ⟨p, rfl⟩ := exists_sumOf d
  exact ⟨p.1, word p.2, word_sumOf p⟩

theorem opens_comparison : Opens (Derivation .comparison) fun t =>
    t.lexeme.terminal ∈ operandStarts := by
  refine opens_additive.of_front fun d => ?_
  cases d with
  | uncompared side => exact ⟨side, [], (List.append_nil _).symm⟩
  | compared left operator right => exact ⟨left, operator.1 :: word right, rfl⟩

theorem opens_lambda : Opens (Derivation .lambda) fun t =>
    t.lexeme.terminal = .symbol .backslash := by
  intro d
  cases d with
  | lambda backslash _ _ _ => exact ⟨backslash.1, _, rfl, backslash.2⟩

theorem opens_expression : Opens (Derivation .expression) fun t =>
    t.lexeme.terminal ∈ .symbol .backslash :: operandStarts := by
  intro d
  cases d with
  | lambdaExpression d =>
    obtain ⟨t, rest, hword, ht⟩ := opens_lambda d
    exact ⟨t, rest, hword, by simp [ht]⟩
  | comparisonExpression d =>
    obtain ⟨t, rest, hword, ht⟩ := opens_comparison d
    exact ⟨t, rest, hword, List.mem_cons_of_mem _ ht⟩

theorem startsExpression_iff (t : Token) : startsExpression t = true ↔
    t.lexeme.terminal ∈ .symbol .backslash :: operandStarts := by
  unfold startsExpression operandStarts
  rcases t.lexeme with _ | _ | _ | word | mark
  · simp [Lexeme.terminal]
  · simp [Lexeme.terminal]
  · simp [Lexeme.terminal]
  · cases word <;> simp [Lexeme.terminal]
  · cases mark <;> simp [Lexeme.terminal]

instance : Fillable (Derivation .block) :=
  .node (fun p : Leaf (.symbol .leftBrace) × Leaf (.symbol .rightBrace) =>
    .block p.1 (noItems .empty) p.2) fun _ => rfl

instance : Fillable (Derivation .primary) := .node name fun _ => rfl

instance : Fillable (Derivation .postfixed) := .node uncalled fun _ => rfl

instance : Fillable (Derivation .multiplicative) := .node factor fun _ => rfl

instance : Fillable (Derivation .additive) := .node summand fun _ => rfl

instance : Fillable (Derivation .comparison) := .node uncompared fun _ => rfl

instance : Fillable (Derivation .expression) := .node comparisonExpression fun _ => rfl

/-! ## Statements -/

/-- Items and the expression after them, if any. -/
abbrev Items := List (Derivation .item) × Option (Derivation .expression)

/-- What items and the expression after them stand for. -/
def itemsValue (file : String) (p : Items) : List Term × Option Term :=
  (p.1.map (meaning file), p.2.map (meaning file))

/-- Items are followed by a closing brace or by nothing. -/
def NotBrace (t : Token) : Prop := t.lexeme.terminal ≠ .symbol .rightBrace

/-- A definition of a value and the items after it. -/
def letOf : Leaf (.keyword .letWord) × Leaf .identifier × Derivation .returnType ×
    Leaf (.symbol .equals) × Derivation .expression × Leaf (.symbol .semicolon) × Items → Items
  | (word, x, returns colon type, equals, e, semicolon, more) =>
    (letItem (letAscribed word x colon type equals e semicolon) :: more.1, more.2)
  | (word, x, noReturns _, equals, e, semicolon, more) =>
    (letItem (letPlain word x equals e semicolon) :: more.1, more.2)

theorem word_letOf : ∀ p, word (letOf p) = word p := by
  rintro ⟨w, x, type, equals, e, semicolon, more⟩
  cases type with
  | returns colon type =>
    show w.1 :: x.1 :: colon.1 :: (word type ++ equals.1 :: (word e ++ [semicolon.1])) ++
      word more.1 ++ word more.2 = w.1 :: x.1 :: (colon.1 :: word type ++
        equals.1 :: (word e ++ semicolon.1 :: (word more.1 ++ word more.2)))
    simp
  | noReturns nothing =>
    show w.1 :: x.1 :: equals.1 :: (word e ++ [semicolon.1]) ++ word more.1 ++ word more.2 =
      w.1 :: x.1 :: equals.1 :: (word e ++ semicolon.1 :: (word more.1 ++ word more.2))
    simp

theorem value_letOf (w : Leaf (.keyword .letWord)) (x : Leaf .identifier)
    (type : Derivation .returnType) (equals : Leaf (.symbol .equals)) (e : Derivation .expression)
    (semicolon : Leaf (.symbol .semicolon)) (more : Items) :
    itemsValue file (letOf (w, x, type, equals, e, semicolon, more)) =
      (.letBinding x.1.lexeme.value (meaning file e) (meaning file type)
        (some (x.1.location file)) :: (itemsValue file more).1, (itemsValue file more).2) := by
  cases type <;> rfl

/-- A definition of a function and the items after it. -/
def definitionOf : Leaf (.keyword .defWord) × Leaf .identifier × Leaf (.symbol .leftParen) ×
    Enclosed (Derivation .parameter) × Derivation .returnType × Derivation .block × Items → Items
  | (word, x, left, (none, right), result, body, more) =>
    (definitionItem (thunk word x left right result body) :: more.1, more.2)
  | (word, x, left, (some row, right), result, body, more) =>
    (definitionItem (function word x left (paramsOf row) right result body) :: more.1, more.2)

theorem word_definitionOf : ∀ p, word (definitionOf p) = word p := by
  rintro ⟨w, x, left, ⟨_ | row, right⟩, result, body, more⟩
  · show w.1 :: x.1 :: left.1 :: right.1 :: (word result ++ word body) ++ word more.1 ++
      word more.2 = w.1 :: x.1 :: left.1 :: ([] ++ right.1 :: (word result ++ (word body ++
        (word more.1 ++ word more.2))))
    simp
  · show w.1 :: x.1 :: left.1 :: (word (paramsOf row) ++ right.1 :: (word result ++ word body)) ++
      word more.1 ++ word more.2 = w.1 :: x.1 :: left.1 :: (word row ++ [right.1] ++ (word result ++
        (word body ++ (word more.1 ++ word more.2))))
    simp [word_paramsOf]

theorem value_definitionOf (w : Leaf (.keyword .defWord)) (x : Leaf .identifier)
    (left : Leaf (.symbol .leftParen)) (params : Enclosed (Derivation .parameter))
    (result : Derivation .returnType) (body : Derivation .block) (more : Items) :
    itemsValue file (definitionOf (w, x, left, params, result, body, more)) =
      (.definition x.1.lexeme.value (enclosedValue (meaning file) params) (meaning file result)
        (meaning file body) (some (x.1.location file)) :: (itemsValue file more).1,
        (itemsValue file more).2) := by
  obtain ⟨_ | row, right⟩ := params
  · rfl
  · show (Term.definition _ (meaning file (paramsOf row)) _ _ _ :: _, _) = _
    rw [meaning_paramsOf]
    rfl

/-- An expression and the items after it, or the last expression. -/
def expressionOf : Derivation .expression × Option (Leaf (.symbol .semicolon) × Items) → Items
  | (e, none) => ([], some e)
  | (e, some (semicolon, more)) => (expressionItem (discarded e semicolon) :: more.1, more.2)

theorem word_expressionOf : ∀ p, word (expressionOf p) = word p := by
  rintro ⟨e, _ | ⟨semicolon, more⟩⟩
  · exact (List.append_nil _).symm
  · show word e ++ [semicolon.1] ++ word more.1 ++ word more.2 =
      word e ++ semicolon.1 :: (word more.1 ++ word more.2)
    simp

theorem opens_item : Opens (Derivation .item) fun t => t.lexeme.terminal ∈
    .keyword .letWord :: .keyword .defWord :: .symbol .backslash :: operandStarts := by
  intro d
  cases d with
  | letItem d =>
    cases d with
    | letPlain x _ _ _ _ => exact ⟨x.1, _, rfl, by simp [x.2]⟩
    | letAscribed x _ _ _ _ _ _ => exact ⟨x.1, _, rfl, by simp [x.2]⟩
  | definitionItem d =>
    cases d with
    | function x _ _ _ _ _ _ => exact ⟨x.1, _, rfl, by simp [x.2]⟩
    | thunk x _ _ _ _ _ => exact ⟨x.1, _, rfl, by simp [x.2]⟩
  | expressionItem d =>
    cases d with
    | discarded e semicolon =>
      obtain ⟨t, rest, hword, ht⟩ := opens_expression e
      refine ⟨t, rest ++ [semicolon.1], ?_, ?_⟩
      · show word e ++ [semicolon.1] = _
        rw [hword, List.cons_append]
      · exact List.mem_cons_of_mem _ (List.mem_cons_of_mem _ ht)

/-- Items that are none, or start as an item or an expression does. -/
theorem items_start (p : Items) : p = ([], none) ∨ ∃ t rest, word p = t :: rest ∧
    t.lexeme.terminal ∈
      .keyword .letWord :: .keyword .defWord :: .symbol .backslash :: operandStarts := by
  rcases p with ⟨_ | ⟨item, items⟩, result⟩
  · rcases result with _ | e
    · exact .inl rfl
    · obtain ⟨t, rest, hword, ht⟩ := opens_expression e
      exact .inr ⟨t, rest, hword, List.mem_cons_of_mem _ (List.mem_cons_of_mem _ ht)⟩
  · have hopens : Opens ((Derivation .item × List (Derivation .item)) ×
      Option (Derivation .expression)) _ := opens_item.pair.pair
    exact .inr (hopens ((item, items), result))

/-- The token after the items so far tells which item comes next. -/
theorem items_head {items : Items} {t : Token} {rest : List Token} (hends : Ends NotBrace rest)
    (ht : NotBrace t) (hhead : (word items ++ rest).head? = some t) :
    (t.lexeme.terminal = .keyword .letWord ∧ ∃ p, letOf p = items) ∨
    (t.lexeme.terminal = .keyword .defWord ∧ ∃ p, definitionOf p = items) ∨
    (t.lexeme.terminal ∈ .symbol .backslash :: operandStarts ∧ ∃ p, expressionOf p = items) := by
  rcases items with ⟨_ | ⟨item, items⟩, result⟩
  · rcases result with _ | e
    · exact absurd ht (hends t hhead)
    · exact .inr (.inr ⟨opens_expression.head hhead, (e, none), rfl⟩)
  · cases item with
    | letItem d =>
      left
      cases d with
      | letPlain w x equals e semicolon =>
        exact ⟨(same_class w hhead rfl).symm,
          (w, x, noReturns .empty, equals, e, semicolon, items, result), rfl⟩
      | letAscribed w x colon type equals e semicolon =>
        exact ⟨(same_class w hhead rfl).symm,
          (w, x, returns colon type, equals, e, semicolon, items, result), rfl⟩
    | definitionItem d =>
      right; left
      cases d with
      | function w x left params right returns body =>
        obtain ⟨row, rfl⟩ := exists_paramsOf params
        exact ⟨(same_class w hhead rfl).symm,
          (w, x, left, (some row, right), returns, body, items, result), rfl⟩
      | thunk w x left right returns body =>
        exact ⟨(same_class w hhead rfl).symm,
          (w, x, left, (none, right), returns, body, items, result), rfl⟩
    | expressionItem d =>
      cases d with
      | discarded e semicolon =>
        have hopens : Opens (((Derivation .expression × Leaf (.symbol .semicolon)) ×
            List (Derivation .item)) × Option (Derivation .expression)) _ :=
          opens_expression.pair.pair.pair
        exact .inr (.inr ⟨hopens.head (d := (((e, semicolon), items), result)) hhead,
          (e, some (semicolon, items, result)), rfl⟩)

theorem exists_letOf {items : Items} {t : Token} {rest : List Token}
    (ht : t.lexeme.terminal = .keyword .letWord) (hends : Ends NotBrace rest)
    (hhead : (word items ++ rest).head? = some t) : ∃ p, letOf p = items := by
  rcases items_head hends (by simp [NotBrace, ht]) hhead with h | h | h
  · exact h.2
  · cases ht.symm.trans h.1
  · simp [ht, operandStarts] at h

theorem exists_definitionOf {items : Items} {t : Token} {rest : List Token}
    (ht : t.lexeme.terminal = .keyword .defWord) (hends : Ends NotBrace rest)
    (hhead : (word items ++ rest).head? = some t) : ∃ p, definitionOf p = items := by
  rcases items_head hends (by simp [NotBrace, ht]) hhead with h | h | h
  · cases ht.symm.trans h.1
  · exact h.2
  · simp [ht, operandStarts] at h

theorem exists_expressionOf {items : Items} {t : Token} {rest : List Token}
    (ht : t.lexeme.terminal ∈ .symbol .backslash :: operandStarts) (hends : Ends NotBrace rest)
    (hhead : (word items ++ rest).head? = some t) : ∃ p, expressionOf p = items := by
  have hbrace : NotBrace t := fun hbrace => by simp [hbrace, operandStarts] at ht
  rcases items_head hends hbrace hhead with h | h | h
  · simp [h.1, operandStarts] at ht
  · simp [h.1, operandStarts] at ht
  · exact h.2

/-! ## Blocks, conditionals and programs -/

/-- Items one after the other, grouped to the left. -/
def itemListOf (items : List (Derivation .item)) : Derivation .itemList :=
  spine noItems moreItems (.empty, items)

theorem word_itemListOf (items : List (Derivation .item)) : word (itemListOf items) = word items :=
  word_spine (Derivation.empty, items) (fun nothing => by cases nothing; rfl) fun _ _ => rfl

theorem meaning_itemListOf (items : List (Derivation .item)) :
    meaning file (itemListOf items) = items.map (meaning file) := by
  have hfold : ∀ terms : List Term, items.foldl (fun terms item => terms ++ [meaning file item])
      terms = terms ++ items.map (meaning file) := by
    induction items with
    | nil => simp
    | cons item items ih =>
      intro terms
      rw [List.foldl_cons, ih, List.map_cons, List.append_assoc, List.singleton_append]
  exact (value_spine (meaning file) (fun terms item => terms ++ [meaning file item])
    (fun _ _ => rfl) _).trans (hfold [])

theorem exists_itemListOf : ∀ d : Derivation .itemList, ∃ items, itemListOf items = d
  | .noItems .empty => ⟨[], rfl⟩
  | .moreItems items item => by
    obtain ⟨items, rfl⟩ := exists_itemListOf items
    exact ⟨items ++ [item], by simp [itemListOf, spine]⟩

/-- A block with what stands in its braces. -/
def blockOf : Leaf (.symbol .leftBrace) × Items × Leaf (.symbol .rightBrace) → Derivation .block
  | (left, (items, none), right) => .block left (itemListOf items) right
  | (left, (items, some e), right) => .blockThen left (itemListOf items) e right

theorem word_blockOf : ∀ p, word (blockOf p) = word p := by
  rintro ⟨left, ⟨items, _ | e⟩, right⟩
  · show left.1 :: (word (itemListOf items) ++ [right.1]) =
      left.1 :: (word items ++ [] ++ [right.1])
    simp [word_itemListOf]
  · show left.1 :: (word (itemListOf items) ++ (word e ++ [right.1])) =
      left.1 :: (word items ++ word e ++ [right.1])
    simp [word_itemListOf]

theorem meaning_blockOf (left : Leaf (.symbol .leftBrace)) (items : Items)
    (right : Leaf (.symbol .rightBrace)) : meaning file (blockOf (left, items, right)) =
      .block (itemsValue file items).1 (itemsValue file items).2
        (some (left.1.location file)) := by
  obtain ⟨items, _ | e⟩ := items
  · show Term.block (meaning file (itemListOf items)) _ _ = _
    rw [meaning_itemListOf]
    rfl
  · show Term.block (meaning file (itemListOf items)) _ _ = _
    rw [meaning_itemListOf]
    rfl

theorem exists_blockOf (d : Derivation .block) : ∃ p, blockOf p = d := by
  cases d with
  | block left items right =>
    obtain ⟨items, rfl⟩ := exists_itemListOf items
    exact ⟨(left, (items, none), right), rfl⟩
  | blockThen left items e right =>
    obtain ⟨items, rfl⟩ := exists_itemListOf items
    exact ⟨(left, (items, some e), right), rfl⟩

instance : Worded (Derivation .block ⊕ Derivation .conditional) := ⟨Sum.elim word word⟩

instance : Fillable (Derivation .block ⊕ Derivation .conditional) := .node Sum.inl fun _ => rfl

/-- A conditional with what stands after `else`. -/
def conditionalOf : Leaf (.keyword .ifWord) × Derivation .expression × Derivation .block ×
    Leaf (.keyword .elseWord) × (Derivation .block ⊕ Derivation .conditional) →
      Derivation .conditional
  | (if_, condition, thenBranch, else_, .inl elseBranch) =>
    .conditional if_ condition thenBranch else_ elseBranch
  | (if_, condition, thenBranch, else_, .inr elseBranch) =>
    .conditionalChain if_ condition thenBranch else_ elseBranch

theorem word_conditionalOf : ∀ p, word (conditionalOf p) = word p := by
  rintro ⟨if_, condition, thenBranch, else_, elseBranch | elseBranch⟩ <;> rfl

theorem exists_conditionalOf (d : Derivation .conditional) : ∃ p, conditionalOf p = d := by
  cases d with
  | conditional if_ condition thenBranch else_ elseBranch =>
    exact ⟨(if_, condition, thenBranch, else_, .inl elseBranch), rfl⟩
  | conditionalChain if_ condition thenBranch else_ elseBranch =>
    exact ⟨(if_, condition, thenBranch, else_, .inr elseBranch), rfl⟩

instance : Fillable (Derivation .conditional) := .node conditionalOf word_conditionalOf

/-- A program of items and the expression after them. -/
def programOf : Items → Derivation .program
  | (items, none) => .items (itemListOf items)
  | (items, some e) => .itemsThen (itemListOf items) e

theorem word_programOf : ∀ p, word (programOf p) = word p := by
  rintro ⟨items, _ | e⟩
  · show word (itemListOf items) = word items ++ []
    rw [word_itemListOf, List.append_nil]
  · show word (itemListOf items) ++ word e = word items ++ word e
    rw [word_itemListOf]

theorem meaning_programOf (p : Items) : meaning file (programOf p) = itemsValue file p := by
  obtain ⟨items, _ | e⟩ := p
  · show (meaning file (itemListOf items), none) = _
    rw [meaning_itemListOf]
    rfl
  · show (meaning file (itemListOf items), some (meaning file e)) = _
    rw [meaning_itemListOf]
    rfl

theorem exists_programOf (d : Derivation .program) : ∃ p, programOf p = d := by
  cases d with
  | items items =>
    obtain ⟨items, rfl⟩ := exists_itemListOf items
    exact ⟨(items, none), rfl⟩
  | itemsThen items e =>
    obtain ⟨items, rfl⟩ := exists_itemListOf items
    exact ⟨(items, some e), rfl⟩

end Parser

end LetPoly
