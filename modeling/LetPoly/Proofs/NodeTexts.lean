-- Nodes and their texts. Each node of a tree that is read comes from a span of tokens and
-- stands where one of these does: at its name, its operator, its literal, or the word or mark
-- that it starts with. A call stands where what it calls does, and a statement that is an
-- expression where the expression does.
import LetPoly.Proofs.CoveredTexts
import LetPoly.Proofs.NodeLocations

namespace LetPoly

open Text (isDigit numeral)

/-! ## The nodes of a tree -/

/-- A node of a tree. -/
inductive Node where
  | type (t : TypeExpr)
  | param (p : Param)
  | term (e : Term)

/-- Where a node stands. -/
def Node.location : Node → Option Location
  | type t => t.tag.location
  | param p => p.location
  | term e => e.location

namespace TypeExpr

mutual

/-- The nodes of an annotation. -/
def nodes : TypeExpr → List Node
  | named x l => [.type (named x l)]
  | quoted x l => [.type (quoted x l)]
  | arrow params result l => .type (arrow params result l) :: (nodesAll params ++ nodes result)

/-- The nodes of annotations. -/
def nodesAll : List TypeExpr → List Node
  | [] => []
  | t :: more => nodes t ++ nodesAll more

end

theorem nodesAll_eq_flatMap (ts : List TypeExpr) : nodesAll ts = ts.flatMap nodes := by
  induction ts with
  | nil => rfl
  | cons t more ih => rw [nodesAll, ih, List.flatMap_cons]

end TypeExpr

/-- The nodes of a parameter. -/
def Param.nodes (p : Param) : List Node := .param p :: p.ascription.toList.flatMap TypeExpr.nodes

namespace Term

mutual

/-- The nodes of an expression or statement. -/
def nodes : Term → List Node
  | number value l => [.term (number value l)]
  | boolean value l => [.term (boolean value l)]
  | name x l => [.term (name x l)]
  | binary left operator right l =>
    .term (binary left operator right l) :: (nodes left ++ nodes right)
  | call callee arguments l =>
    .term (call callee arguments l) :: (nodes callee ++ nodesAll arguments)
  | lambda params body l =>
    .term (lambda params body l) :: (params.flatMap Param.nodes ++ nodes body)
  | block statements result l =>
    .term (block statements result l) :: (nodesAll statements ++ nodesOption result)
  | conditional condition thenBranch elseBranch l =>
    .term (conditional condition thenBranch elseBranch l) ::
      (nodes condition ++ (nodes thenBranch ++ nodes elseBranch))
  | letBinding x value ascription l =>
    .term (letBinding x value ascription l) ::
      (nodes value ++ ascription.toList.flatMap TypeExpr.nodes)
  | definition f params returns body l =>
    .term (definition f params returns body l) ::
      (params.flatMap Param.nodes ++ (returns.toList.flatMap TypeExpr.nodes ++ nodes body))
  | discard expression l => .term (discard expression l) :: nodes expression
  | strayParam p => p.nodes
  | strayType t => t.nodes
  | strayProgram statements result l =>
    .term (strayProgram statements result l) :: (nodesAll statements ++ nodesOption result)

/-- The nodes of expressions or statements. -/
def nodesAll : List Term → List Node
  | [] => []
  | e :: more => nodes e ++ nodesAll more

/-- The nodes of an expression that may be missing. -/
def nodesOption : Option Term → List Node
  | none => []
  | some e => nodes e

end

theorem nodesAll_eq_flatMap (es : List Term) : nodesAll es = es.flatMap nodes := by
  induction es with
  | nil => rfl
  | cons e more ih => rw [nodesAll, ih, List.flatMap_cons]

end Term

/-- The nodes of a program below the program itself. -/
def Program.nodes (p : Program) : List Node :=
  p.statements.flatMap Term.nodes ++ p.result.toList.flatMap Term.nodes

/-- The nodes of what a phrase of a sort stands for. -/
def Phrase.nodes : (sort : Phrase) → sort.Meaning → List Node
  | program, (statements, result) =>
    statements.flatMap Term.nodes ++ result.toList.flatMap Term.nodes
  | itemList, es | argumentList, es => List.flatMap Term.nodes es
  | item, e | expressionStatement, e | letStatement, e | functionDefinition, e | block, e
  | expression, e | lambda, e | comparison, e | additive, e | multiplicative, e | postfixed, e
  | primary, e | conditional, e => Term.nodes e
  | returnType, t => (Option.toList t).flatMap TypeExpr.nodes
  | parameterList, ps => List.flatMap Param.nodes ps
  | parameter, p => Param.nodes p
  | typeExpression, t => TypeExpr.nodes t
  | typeList, ts => List.flatMap TypeExpr.nodes ts
  | empty, _ => []

/-- The node that a phrase of a sort stands for, if it stands for one. -/
def Phrase.root : (sort : Phrase) → sort.Meaning → List Node
  | expressionStatement, e | letStatement, e | functionDefinition, e | block, e | lambda, e
  | comparison, e | additive, e | multiplicative, e | postfixed, e | primary, e
  | conditional, e => [.term e]
  | parameter, p => [.param p]
  | typeExpression, t => [.type t]
  | _, _ => []

/-! ## The tokens of a node -/

namespace Derivation

/-- The node of a production with all tokens of the phrase. -/
def own (file : String) {sort : Phrase} (d : Derivation sort) : List (Node × List Token) :=
  (sort.root (d.meaning file)).map fun node => (node, d.word)

/-- The nodes of a phrase, each with the tokens that it comes from. -/
def spans (file : String) : {sort : Phrase} → Derivation sort → List (Node × List Token)
  | _, items is => spans file is
  | _, itemsThen is e => spans file is ++ spans file e
  | _, moreItems is i => spans file is ++ spans file i
  | _, noItems _ => []
  | _, definitionItem d => spans file d
  | _, letItem d => spans file d
  | _, expressionItem d => spans file d
  | _, discarded e semicolon => own file (discarded e semicolon) ++ spans file e
  | _, letPlain w x equals e semicolon => own file (letPlain w x equals e semicolon) ++ spans file e
  | _, letAscribed w x colon type equals e semicolon =>
    own file (letAscribed w x colon type equals e semicolon) ++ (spans file e ++ spans file type)
  | _, function w x left params right result body =>
    own file (function w x left params right result body) ++
      (spans file params ++ (spans file result ++ spans file body))
  | _, thunk w x left right result body =>
    own file (thunk w x left right result body) ++ (spans file result ++ spans file body)
  | _, returns _ type => spans file type
  | _, noReturns _ => []
  | _, oneParameter p => spans file p
  | _, moreParameters ps _ p => spans file ps ++ spans file p
  | _, paramPlain x => own file (paramPlain x)
  | _, paramAscribed x colon type =>
    own file (paramAscribed x colon type) ++ spans file type
  | _, block left is right => own file (block left is right) ++ spans file is
  | _, blockThen left is e right =>
    own file (blockThen left is e right) ++ (spans file is ++ spans file e)
  | _, namedType x => own file (namedType x)
  | _, quotedType x => own file (quotedType x)
  | _, arrowType left params right arrow result =>
    own file (arrowType left params right arrow result) ++ (spans file params ++ spans file result)
  | _, thunkType left right arrow result =>
    own file (thunkType left right arrow result) ++ spans file result
  | _, oneType t => spans file t
  | _, moreTypes ts _ t => spans file ts ++ spans file t
  | _, lambdaExpression d => spans file d
  | _, comparisonExpression d => spans file d
  | _, lambda backslash params arrow body =>
    own file (lambda backslash params arrow body) ++ (spans file params ++ spans file body)
  | _, uncompared d => spans file d
  | _, compared left operator right =>
    own file (compared left operator right) ++ (spans file left ++ spans file right)
  | _, summand d => spans file d
  | _, sum left operator right =>
    own file (sum left operator right) ++ (spans file left ++ spans file right)
  | _, factor d => spans file d
  | _, product left operator right =>
    own file (product left operator right) ++ (spans file left ++ spans file right)
  | _, uncalled d => spans file d
  | _, call callee left arguments right =>
    own file (call callee left arguments right) ++ (spans file callee ++ spans file arguments)
  | _, callNothing callee left right =>
    own file (callNothing callee left right) ++ spans file callee
  | _, oneArgument e => spans file e
  | _, moreArguments es _ e => spans file es ++ spans file e
  | _, number numeral => own file (number numeral)
  | _, true_ w => own file (true_ w)
  | _, false_ w => own file (false_ w)
  | _, name x => own file (name x)
  | _, group _ e _ => spans file e
  | _, blockPrimary d => spans file d
  | _, conditionalPrimary d => spans file d
  | _, conditional if_ condition thenBranch else_ elseBranch =>
    own file (conditional if_ condition thenBranch else_ elseBranch) ++
      (spans file condition ++ (spans file thenBranch ++ spans file elseBranch))
  | _, conditionalChain if_ condition thenBranch else_ elseBranch =>
    own file (conditionalChain if_ condition thenBranch else_ elseBranch) ++
      (spans file condition ++ (spans file thenBranch ++ spans file elseBranch))
  | _, empty => []

theorem map_append_of {es es' : List (Node × List Token)} {ns ns' : List Node}
    (h : es.map Prod.fst = ns) (h' : es'.map Prod.fst = ns') :
    (es ++ es').map Prod.fst = ns ++ ns' := by
  rw [List.map_append, h, h']

theorem map_one_of {α : Type} {es : List (Node × List Token)} {nodes : α → List Node} {a : α}
    (h : es.map Prod.fst = nodes a) : es.map Prod.fst = [a].flatMap nodes := by
  rw [h, List.flatMap_singleton]

/-- The nodes with tokens are all nodes of the tree, in order. -/
theorem nodes_spans (file : String) {sort : Phrase} (d : Derivation sort) :
    (d.spans file).map Prod.fst = sort.nodes (d.meaning file) := by
  induction d with
  | noItems | noReturns | empty | paramPlain _ | namedType _ | quotedType _ | number _ | true_ _
  | false_ _ | name _ => rfl
  | definitionItem _ ih | letItem _ ih | expressionItem _ ih | lambdaExpression _ ih
  | comparisonExpression _ ih | uncompared _ ih | summand _ ih | factor _ ih | uncalled _ ih
  | blockPrimary _ ih | conditionalPrimary _ ih | group _ _ _ ih => exact ih
  -- sequences
  | items _ ihs => exact ihs.trans (List.append_nil _).symm
  | itemsThen _ _ ihs ih => exact map_append_of ihs (map_one_of ih)
  | oneArgument _ ih | oneParameter _ ih | oneType _ ih | returns _ _ ih => exact map_one_of ih
  | moreItems _ _ ihs ih | moreArguments _ _ _ ihs ih | moreParameters _ _ _ ihs ih
  | moreTypes _ _ _ ihs ih =>
    exact (map_append_of ihs (map_one_of ih)).trans List.flatMap_append.symm
  -- nodes with parts
  | paramAscribed _ _ _ ih => exact congrArg (List.cons _) (map_one_of ih)
  | discarded _ _ ih | thunkType _ _ _ _ ih => exact congrArg (List.cons _) ih
  | letPlain _ _ _ _ _ ih | callNothing _ _ _ ih =>
    exact congrArg (List.cons _) (ih.trans (List.append_nil _).symm)
  | letAscribed _ _ _ _ _ _ _ ihtype ihvalue =>
    have hparts := map_append_of ihvalue (map_one_of ihtype)
    exact congrArg (List.cons _) hparts
  | function _ _ _ _ _ _ _ ihparams ihreturns ihbody =>
    have hparts := map_append_of ihparams (map_append_of ihreturns ihbody)
    exact congrArg (List.cons _) hparts
  | thunk _ _ _ _ _ _ ihreturns ihbody =>
    have hparts := map_append_of ihreturns ihbody
    exact congrArg (List.cons _) hparts
  | arrowType _ _ _ _ _ ihs ih =>
    have hparams := ihs.trans (TypeExpr.nodesAll_eq_flatMap _).symm
    have hparts := map_append_of hparams ih
    exact congrArg (List.cons _) hparts
  | lambda _ _ _ _ ihs ih =>
    have hparts := map_append_of ihs ih
    exact congrArg (List.cons _) hparts
  | block _ _ _ ihs =>
    have hitems := ihs.trans (Term.nodesAll_eq_flatMap _).symm
    exact congrArg (List.cons _) (hitems.trans (List.append_nil _).symm)
  | blockThen _ _ _ _ ihs ih =>
    have hitems := ihs.trans (Term.nodesAll_eq_flatMap _).symm
    have hparts := map_append_of hitems ih
    exact congrArg (List.cons _) hparts
  | compared _ _ _ ihleft ihright | sum _ _ _ ihleft ihright | product _ _ _ ihleft ihright =>
    have hparts := map_append_of ihleft ihright
    exact congrArg (List.cons _) hparts
  | call _ _ _ _ ihcallee ihs =>
    have harguments := ihs.trans (Term.nodesAll_eq_flatMap _).symm
    have hparts := map_append_of ihcallee harguments
    exact congrArg (List.cons _) hparts
  | conditional _ _ _ _ _ ihcond ihthen ihelse | conditionalChain _ _ _ _ _ ihcond ihthen ihelse =>
    have hparts := map_append_of ihcond (map_append_of ihthen ihelse)
    exact congrArg (List.cons _) hparts

end Derivation

/-! ## The token at which a node stands -/

/-- The lexeme at which a node stands. A call stands where what it calls does, and a statement that
is an expression where the expression does. -/
def Node.StandsAt : Node → Lexeme → Prop
  | type (.named x _), l => l = .identifier x
  | type (.quoted x _), l => l = .typeVariable x
  | type (.arrow _ _ _), l => l = .symbol .leftParen
  | param p, l => l = .identifier p.name
  | term (.number value _), l => ∃ n : Nat, value = n ∧ l = .number n
  | term (.boolean value _), l => l = .keyword (if value then .trueWord else .falseWord)
  | term (.name x _), l => l = .identifier x
  | term (.binary _ operator _ _), l => ∃ mark : Symbol, mark.text = operator ∧ l = .symbol mark
  | term (.call callee _ location), _ => location = callee.location
  | term (.lambda _ _ _), l => l = .symbol .backslash
  | term (.block _ _ _), l => l = .symbol .leftBrace
  | term (.conditional _ _ _ _), l => l = .keyword .ifWord
  | term (.letBinding x _ _ _), l => l = .identifier x
  | term (.definition f _ _ _ _), l => l = .identifier f
  | term (.discard expression location), _ => location = expression.location
  | term _, _ => False

/-- The nodes come from tokens among the given ones, in a row, and each stands at one of its own. -/
def StandAmong (file : String) (ts : List Token) (entries : List (Node × List Token)) : Prop :=
  ∀ entry ∈ entries, entry.2 <:+: ts ∧
    ∃ t ∈ entry.2, entry.1.location = some (t.location file) ∧ entry.1.StandsAt t.lexeme

namespace StandAmong

variable {file : String} {ts ts' : List Token} {entries entries' : List (Node × List Token)}

theorem mono (h : StandAmong file ts entries) (hts : ts <:+: ts') : StandAmong file ts' entries :=
  fun entry he => ⟨(h entry he).1.trans hts, (h entry he).2⟩

theorem cons (h : StandAmong file ts entries) (t : Token) : StandAmong file (t :: ts) entries :=
  h.mono (List.suffix_cons t ts).isInfix

theorem cons₃ (h : StandAmong file ts entries) (t u v : Token) :
    StandAmong file (t :: u :: v :: ts) entries :=
  ((h.cons v).cons u).cons t

theorem left (h : StandAmong file ts entries) (ts' : List Token) :
    StandAmong file (ts ++ ts') entries :=
  h.mono (List.prefix_append ts ts').isInfix

theorem right (h : StandAmong file ts' entries) (ts : List Token) :
    StandAmong file (ts ++ ts') entries :=
  h.mono (List.suffix_append ts ts').isInfix

theorem append (h : StandAmong file ts entries) (h' : StandAmong file ts entries') :
    StandAmong file ts (entries ++ entries') :=
  List.forall_mem_append.2 ⟨h, h'⟩

theorem nil : StandAmong file ts [] := nofun

theorem one {node : Node} {t : Token} (ht : t ∈ ts)
    (hlocation : node.location = some (t.location file)) (hstands : node.StandsAt t.lexeme) :
    StandAmong file ts [(node, ts)] := by
  intro entry he
  obtain rfl := List.mem_singleton.1 he
  exact ⟨List.infix_rfl, t, ht, hlocation, hstands⟩

end StandAmong

namespace Derivation

variable {file : String}

theorem value_identifier (x : Leaf .identifier) : x.1.lexeme = .identifier x.1.lexeme.value := by
  obtain ⟨name, hname⟩ := Lexeme.eq_identifier x.2
  rw [hname]
  rfl

theorem value_typeVariable (x : Leaf .typeVariable) :
    x.1.lexeme = .typeVariable x.1.lexeme.value := by
  have hclass := x.2
  cases hl : x.1.lexeme <;> simp_all [Lexeme.terminal, Lexeme.value]

theorem numeral_number (x : Leaf .number) : x.1.lexeme = .number x.1.lexeme.numeral := by
  have hclass := x.2
  cases hl : x.1.lexeme <;> simp_all [Lexeme.terminal, Lexeme.numeral]

theorem value_operator {marks : List Symbol} (x : Operator marks) :
    ∃ mark : Symbol, mark.text = x.1.lexeme.value ∧ x.1.lexeme = .symbol mark := by
  obtain ⟨mark, -, hmark⟩ := x.2
  exact ⟨mark, by rw [hmark]; rfl, hmark⟩

/-- An expression stands where one of its tokens does. -/
theorem exists_token {sort : Phrase} (d : Derivation sort) :
    sort.Located (fun l => ∃ t ∈ d.word, l = some (t.location file)) (d.meaning file) :=
  d.located fun t ht => ⟨t, ht, rfl⟩

/-- Each node of a phrase stands at one of its own tokens. -/
theorem standAmong_spans {sort : Phrase} (d : Derivation sort) :
    StandAmong file d.word (d.spans file) := by
  induction d with
  | noItems | noReturns | empty => exact .nil
  | items _ ih | definitionItem _ ih | letItem _ ih | expressionItem _ ih | lambdaExpression _ ih
  | comparisonExpression _ ih | uncompared _ ih | summand _ ih | factor _ ih | uncalled _ ih
  | blockPrimary _ ih | conditionalPrimary _ ih | oneParameter _ ih | oneType _ ih
  | oneArgument _ ih => exact ih
  | group _ _ _ ih => exact (ih.left _).cons _
  | returns _ _ ih => exact ih.cons _
  | itemsThen _ _ ihs ih | moreItems _ _ ihs ih => exact (ihs.left _).append (ih.right _)
  | moreParameters _ _ _ ihs ih | moreTypes _ _ _ ihs ih | moreArguments _ _ _ ihs ih =>
    exact (ihs.left _).append ((ih.cons _).right _)
  -- names and literals
  | paramPlain x | namedType x | name x => exact .one List.mem_cons_self rfl (value_identifier x)
  | quotedType x => exact .one List.mem_cons_self rfl (value_typeVariable x)
  | number x => exact .one List.mem_cons_self rfl ⟨_, rfl, numeral_number x⟩
  | true_ w | false_ w => exact .one List.mem_cons_self rfl (Lexeme.eq_keyword w.2)
  -- annotations and parameters
  | paramAscribed x _ _ ih =>
    exact .append (.one List.mem_cons_self rfl (value_identifier x)) ((ih.cons _).cons _)
  | arrowType left _ _ _ _ ihs ih =>
    refine .append (.one List.mem_cons_self rfl (Lexeme.eq_symbol left.2)) (.cons ?_ _)
    exact (ihs.left _).append (((ih.cons _).cons _).right _)
  | thunkType left _ _ _ ih =>
    exact .append (.one List.mem_cons_self rfl (Lexeme.eq_symbol left.2)) (ih.cons₃ _ _ _)
  -- statements
  | discarded e _ ih =>
    obtain ⟨t, ht, hlocation⟩ := Term.Located.location (exists_token e)
    exact .append (.one (List.mem_append_left _ ht) hlocation rfl) (ih.left _)
  | letPlain _ x _ _ _ ih =>
    refine .append (.one (.tail _ (.head _)) rfl (value_identifier x)) (.cons₃ ?_ _ _ _)
    exact ih.left _
  | letAscribed _ x _ _ _ _ _ ihtype ihvalue =>
    refine .append (.one (.tail _ (.head _)) rfl (value_identifier x)) (.cons₃ ?_ _ _ _)
    exact .append (((ihvalue.left _).cons _).right _) (ihtype.left _)
  | function _ x _ _ _ _ _ ihparams ihreturns ihbody =>
    refine .append (.one (.tail _ (.head _)) rfl (value_identifier x)) (.cons₃ ?_ _ _ _)
    refine (ihparams.left _).append (.right (.cons ?_ _) _)
    exact (ihreturns.left _).append (ihbody.right _)
  | thunk _ x _ _ _ _ ihreturns ihbody =>
    refine .append (.one (.tail _ (.head _)) rfl (value_identifier x)) (.cons (.cons₃ ?_ _ _ _) _)
    exact (ihreturns.left _).append (ihbody.right _)
  -- expressions
  | block left _ _ ihs =>
    exact .append (.one List.mem_cons_self rfl (Lexeme.eq_symbol left.2)) ((ihs.left _).cons _)
  | blockThen left _ _ _ ihs ih =>
    refine .append (.one List.mem_cons_self rfl (Lexeme.eq_symbol left.2)) (.cons ?_ _)
    exact (ihs.left _).append ((ih.left _).right _)
  | lambda backslash _ _ _ ihs ih =>
    refine .append (.one List.mem_cons_self rfl (Lexeme.eq_symbol backslash.2)) (.cons ?_ _)
    exact (ihs.left _).append ((ih.cons _).right _)
  | compared _ operator _ ihleft ihright | sum _ operator _ ihleft ihright
  | product _ operator _ ihleft ihright =>
    refine .append (.one (List.mem_append_right _ (.head _)) rfl (value_operator operator)) ?_
    exact (ihleft.left _).append ((ihright.cons _).right _)
  | call callee _ _ _ ihcallee ihs =>
    obtain ⟨t, ht, hlocation⟩ := Term.Located.location (exists_token callee)
    refine .append (.one (List.mem_append_left _ ht) hlocation rfl) ?_
    exact (ihcallee.left _).append (((ihs.left _).cons _).right _)
  | callNothing callee _ _ ih =>
    obtain ⟨t, ht, hlocation⟩ := Term.Located.location (exists_token callee)
    exact .append (.one (List.mem_append_left _ ht) hlocation rfl) (ih.left _)
  | conditional if_ _ _ _ _ ihcond ihthen ihelse
  | conditionalChain if_ _ _ _ _ ihcond ihthen ihelse =>
    refine .append (.one List.mem_cons_self rfl (Lexeme.eq_keyword if_.2)) (.cons ?_ _)
    refine (ihcond.left _).append (.right ?_ _)
    exact (ihthen.left _).append ((ihelse.cons _).right _)

end Derivation

/-! ## The text at which a node stands -/

/-- The offset that a location denotes in a text: all rows before its line, each with its newline,
and the characters of its row before its column. -/
def Location.offsetIn (text : List Char) (l : Location) : Nat :=
  (((rows text).take (l.line.toNat - 1)).map (·.length + 1)).sum + (l.column.toNat - 1)

/-- The location of a place denotes the offset of the place. -/
theorem Place.Marks.offsetIn_location {place : Place} {text rest : List Char}
    (h : place.Marks text rest) (file : String) :
    (place.location file).offsetIn text = place.offset := by
  obtain ⟨earlier, row, htext, hearlier, -, hline, hcolumn, hoffset⟩ := h
  have hrows : (rows text).take earlier.length = earlier := by
    rw [htext, rows_flatMap_append hearlier, List.take_left]
  have hlength := congrArg List.length htext
  rw [List.length_append, List.length_append, List.length_flatMap] at hlength
  simp only [List.length_append, List.length_singleton] at hlength
  simp only [Location.offsetIn, Place.location, Int.toNat_natCast, hline, hcolumn,
    Nat.add_sub_cancel, hrows]
  omega

/-- What a text starts with where a node stands: its name, a quote and its name, its operator, its
literal, or the word or mark that it starts with. -/
def Node.Starts : Node → List Char → Prop
  | type (.named x _), text => x.toList <+: text
  | type (.quoted x _), text => '\'' :: x.toList <+: text
  | type (.arrow _ _ _), text => ['('] <+: text
  | param p, text => p.name.toList <+: text
  | term (.number value _), text =>
    text.takeWhile isDigit ≠ [] ∧ value = numeral (text.takeWhile isDigit)
  | term (.boolean value _), text => (if value then "true" else "false").toList <+: text
  | term (.name x _), text => x.toList <+: text
  | term (.binary _ operator _ _), text => operator.toList <+: text
  | term (.call callee _ location), _ => location = callee.location
  | term (.lambda _ _ _), text => ['\\'] <+: text
  | term (.block _ _ _), text => ['{'] <+: text
  | term (.conditional _ _ _ _), text => "if".toList <+: text
  | term (.letBinding x _ _ _), text => x.toList <+: text
  | term (.definition f _ _ _ _), text => f.toList <+: text
  | term (.discard expression location), _ => location = expression.location
  | term _, _ => False

/-- The longest piece of digits is all the digits there are. -/
theorem Longest.takeWhile_isDigit {text digits : List Char} (h : Longest text digits)
    (hdigits : ∀ d ∈ digits, isDigit d) : text.takeWhile isDigit = digits := by
  obtain ⟨rest, rfl⟩ := h.starts
  obtain ⟨c, tail, rfl⟩ := List.exists_cons_of_ne_nil h.isToken.ne_nil
  have hc : isDigit c := hdigits c List.mem_cons_self
  have hrun := longest_digits hc (tail ++ rest)
  rw [take_run] at hrun
  rw [List.cons_append, List.takeWhile_cons_of_pos hc]
  exact hrun.unique h

/-- Where the lexeme at which a node stands is written, the text starts as the node says. -/
theorem Node.starts_of_standsAt {node : Node} {l : Lexeme} {text piece : List Char}
    (h : node.StandsAt l) (hl : l.Written piece) (hlongest : Longest text piece) :
    node.Starts text := by
  have hstarts := hlongest.starts
  cases node with
  | type t =>
    cases t <;> (obtain rfl := h; cases hl; exact hstarts)
  | param p =>
    obtain rfl := h
    cases hl
    exact hstarts
  | term e =>
    cases e with
    | number value _ =>
      obtain ⟨n, rfl, rfl⟩ := h
      cases hl with
      | number hne hdigits _ =>
        rw [Starts, hlongest.takeWhile_isDigit hdigits]
        exact ⟨hne, rfl⟩
    | boolean value _ =>
      obtain rfl := h
      cases hl
      cases value <;> exact hstarts
    | binary _ operator _ _ =>
      obtain ⟨mark, rfl, rfl⟩ := h
      cases hl
      exact hstarts
    | name | lambda | block | conditional | letBinding | definition =>
      obtain rfl := h
      cases hl
      exact hstarts
    | call | discard | strayParam | strayType | strayProgram => exact h

/-! ## The law of locations -/

/-- In a program that is read, each node comes from tokens in a row and stands where one of these
does: at the offset that its line and its column denote, the text starts with the node's name, with
a quote and the name, with the operator, with the literal, or with the word or mark that starts the
node. A call stands where what it calls does, and a statement that is an expression where the
expression does. -/
theorem locations_point_at_the_text_of_their_nodes {source file : String} {p : Program}
    (hread : Program.read source file = .ok p) :
    ∃ d : Derivation .program, d.word = (Token.lex source).tokens ∧ d.program file = p ∧
      (d.spans file).map Prod.fst = p.nodes ∧
      ∀ node span, (node, span) ∈ d.spans file → span <:+: (Token.lex source).tokens ∧
        ∃ l, node.location = some l ∧
          node.Starts (source.toList.drop (l.offsetIn source.toList)) ∧
          ∃ t ∈ span, l = t.location file ∧ t.offset = l.offsetIn source.toList := by
  obtain ⟨hparsed, -⟩ := of_read_eq_ok hread
  obtain ⟨d, hword, rfl, -⟩ := Parser.derivation_of_ok hparsed
  refine ⟨d, hword, rfl, d.nodes_spans file, fun node span hmem => ?_⟩
  obtain ⟨hspan, t, ht, hlocation, hstands⟩ := d.standAmong_spans (node, span) hmem
  rw [hword] at hspan
  have htoken : t ∈ (Token.lex source).tokens := hspan.subset ht
  obtain ⟨piece, hpiece⟩ := Token.exists_stands htoken
  obtain ⟨c, rest, -, hmarks⟩ :=
    (Token.marks_of_scan (Place.marks_start source.toList)).1 t htoken
  have hoffset : (t.location file).offsetIn source.toList = t.offset :=
    hmarks.offsetIn_location file
  refine ⟨hspan, t.location file, hlocation, ?_, t, ht, rfl, hoffset.symm⟩
  rw [hoffset]
  exact Node.starts_of_standsAt hstands ((hpiece.lexeme t.lexeme).2 rfl) hpiece.longest

/-- A function of two lines. -/
def incrementSource : String := "let f = \\x: 'a ->\n  x + 10;"

/-- The sum in the second line. -/
def incrementSum : Term :=
  .binary (.name "x" (some ⟨"", 2, 3⟩)) "+" (.number 10 (some ⟨"", 2, 7⟩)) (some ⟨"", 2, 5⟩)

/-- What is read from the text. -/
def incrementProgram : Program where
  statements := [.letBinding "f" (.lambda
    [⟨"x", some (.quoted "a" (some ⟨"", 1, 13⟩)), some ⟨"", 1, 10⟩⟩] incrementSum
    (some ⟨"", 1, 9⟩)) none (some ⟨"", 1, 5⟩)]
  result := none
  file := ""
  location := some ⟨"", 1, 1⟩

/-- The sum has its operator at the offset that its location denotes. -/
theorem locations_point_at_the_text_of_their_nodes_in_two_lines :
    Program.read incrementSource "" = .ok incrementProgram ∧
      ∃ d : Derivation .program, d.word = (Token.lex incrementSource).tokens ∧
        ∃ span, (.term incrementSum, span) ∈ d.spans "" ∧
          ['+'] <+: incrementSource.toList.drop 22 ∧ ∃ t ∈ span, t.offset = 22 := by
  have hread : Program.read incrementSource "" = .ok incrementProgram := by cbv
  obtain ⟨d, hword, -, hnodes, hall⟩ := locations_point_at_the_text_of_their_nodes hread
  have hmem : Node.term incrementSum ∈ incrementProgram.nodes :=
    .tail _ (.tail _ (.tail _ (.tail _ (.head _))))
  rw [← hnodes] at hmem
  obtain ⟨⟨node, span⟩, hspan, rfl⟩ := List.mem_map.1 hmem
  obtain ⟨-, l, hl, hstarts, t, ht, -, hoffset⟩ := hall _ span hspan
  cases hl
  have hdenoted : Location.offsetIn incrementSource.toList ⟨"", 2, 5⟩ = 22 := by decide
  rw [hdenoted] at hstarts hoffset
  exact ⟨hread, d, hword, span, hspan, hstarts, t, ht, hoffset⟩

end LetPoly
