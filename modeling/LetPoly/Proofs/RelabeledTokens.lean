-- Reading looks at what tokens say, not at where they stand. If the tokens of a text are
-- moved, a program is read as the same tree up to locations, and what is no program is
-- refused at the same token.
import LetPoly.Proofs.CoveredTexts
import LetPoly.Proofs.FrontEnd

namespace LetPoly

/-! ## Trees without locations -/

namespace TypeExpr

mutual

/-- An annotation without its locations. -/
def bare : TypeExpr → TypeExpr
  | named x _ => named x none
  | quoted x _ => quoted x none
  | arrow params result _ => arrow (bareAll params) (bare result) none

/-- Annotations without their locations. -/
def bareAll : List TypeExpr → List TypeExpr
  | [] => []
  | t :: more => bare t :: bareAll more

end

theorem bareAll_eq_map (ts : List TypeExpr) : bareAll ts = ts.map bare := by
  induction ts with
  | nil => rfl
  | cons t more ih => rw [bareAll, ih, List.map_cons]

end TypeExpr

/-- A parameter without its locations. -/
def Param.bare (p : Param) : Param := ⟨p.name, p.ascription.map TypeExpr.bare, none⟩

namespace Term

mutual

/-- An expression or statement without its locations. -/
def bare : Term → Term
  | number value _ => number value none
  | boolean value _ => boolean value none
  | name x _ => name x none
  | binary left operator right _ => binary (bare left) operator (bare right) none
  | call callee arguments _ => call (bare callee) (bareAll arguments) none
  | lambda params body _ => lambda (params.map Param.bare) (bare body) none
  | block statements result _ => block (bareAll statements) (bareOption result) none
  | conditional condition thenBranch elseBranch _ =>
    conditional (bare condition) (bare thenBranch) (bare elseBranch) none
  | letBinding x value ascription _ =>
    letBinding x (bare value) (ascription.map TypeExpr.bare) none
  | definition f params returns body _ =>
    definition f (params.map Param.bare) (returns.map TypeExpr.bare) (bare body) none
  | discard expression _ => discard (bare expression) none
  | strayParam p => strayParam p.bare
  | strayType t => strayType t.bare
  | strayProgram statements result _ =>
    strayProgram (bareAll statements) (bareOption result) none

/-- Expressions or statements without their locations. -/
def bareAll : List Term → List Term
  | [] => []
  | e :: more => bare e :: bareAll more

/-- An expression that may be missing, without its locations. -/
def bareOption : Option Term → Option Term
  | none => none
  | some e => some (bare e)

end

theorem bareAll_eq_map (es : List Term) : bareAll es = es.map bare := by
  induction es with
  | nil => rfl
  | cons e more ih => rw [bareAll, ih, List.map_cons]

end Term

/-- A program without its locations. -/
def Program.bare (p : Program) : Program :=
  ⟨p.statements.map Term.bare, p.result.map Term.bare, p.file, none⟩

/-- What a phrase of a sort stands for, without its locations. -/
def Phrase.bare : (sort : Phrase) → sort.Meaning → sort.Meaning
  | program, (statements, result) => (statements.map Term.bare, result.map Term.bare)
  | itemList, es | argumentList, es => List.map Term.bare es
  | item, e | expressionStatement, e | letStatement, e | functionDefinition, e | block, e
  | expression, e | lambda, e | comparison, e | additive, e | multiplicative, e | postfixed, e
  | primary, e | conditional, e => Term.bare e
  | returnType, t => Option.map TypeExpr.bare t
  | parameterList, ps => List.map Param.bare ps
  | parameter, p => Param.bare p
  | typeExpression, t => TypeExpr.bare t
  | typeList, ts => List.map TypeExpr.bare ts
  | empty, _ => ()

/-! ## Moved tokens -/

/-- A change of tokens that keeps what they say. -/
structure Relabeling where
  token : Token → Token
  lexeme : ∀ t, (token t).lexeme = t.lexeme

namespace Relabeling

variable (f : Relabeling)

/-- The class of a token stays. -/
def leaf {class_ : Terminal} (t : Leaf class_) : Leaf class_ :=
  ⟨f.token t.1, by rw [f.lexeme]; exact t.2⟩

/-- A symbol stays one of those that it was. -/
def operator {marks : List Symbol} (t : Operator marks) : Operator marks :=
  ⟨f.token t.1, by
    obtain ⟨mark, hmark, ht⟩ := t.2
    exact ⟨mark, hmark, (f.lexeme t.1).trans ht⟩⟩

/-- The derivation of the moved tokens. -/
def derivation : {sort : Phrase} → Derivation sort → Derivation sort
  | _, .items is => .items (derivation is)
  | _, .itemsThen is e => .itemsThen (derivation is) (derivation e)
  | _, .moreItems is i => .moreItems (derivation is) (derivation i)
  | _, .noItems d => .noItems (derivation d)
  | _, .definitionItem d => .definitionItem (derivation d)
  | _, .letItem d => .letItem (derivation d)
  | _, .expressionItem d => .expressionItem (derivation d)
  | _, .discarded e semicolon => .discarded (derivation e) (f.leaf semicolon)
  | _, .letPlain word x equals e semicolon =>
    .letPlain (f.leaf word) (f.leaf x) (f.leaf equals) (derivation e) (f.leaf semicolon)
  | _, .letAscribed word x colon type equals e semicolon =>
    .letAscribed (f.leaf word) (f.leaf x) (f.leaf colon) (derivation type) (f.leaf equals)
      (derivation e) (f.leaf semicolon)
  | _, .function word x left params right result body =>
    .function (f.leaf word) (f.leaf x) (f.leaf left) (derivation params) (f.leaf right)
      (derivation result) (derivation body)
  | _, .thunk word x left right result body =>
    .thunk (f.leaf word) (f.leaf x) (f.leaf left) (f.leaf right) (derivation result)
      (derivation body)
  | _, .returns colon type => .returns (f.leaf colon) (derivation type)
  | _, .noReturns d => .noReturns (derivation d)
  | _, .oneParameter p => .oneParameter (derivation p)
  | _, .moreParameters ps comma p =>
    .moreParameters (derivation ps) (f.leaf comma) (derivation p)
  | _, .paramPlain x => .paramPlain (f.leaf x)
  | _, .paramAscribed x colon type => .paramAscribed (f.leaf x) (f.leaf colon) (derivation type)
  | _, .block left is right => .block (f.leaf left) (derivation is) (f.leaf right)
  | _, .blockThen left is e right =>
    .blockThen (f.leaf left) (derivation is) (derivation e) (f.leaf right)
  | _, .namedType x => .namedType (f.leaf x)
  | _, .quotedType x => .quotedType (f.leaf x)
  | _, .arrowType left params right arrow result =>
    .arrowType (f.leaf left) (derivation params) (f.leaf right) (f.leaf arrow)
      (derivation result)
  | _, .thunkType left right arrow result =>
    .thunkType (f.leaf left) (f.leaf right) (f.leaf arrow) (derivation result)
  | _, .oneType t => .oneType (derivation t)
  | _, .moreTypes ts comma t => .moreTypes (derivation ts) (f.leaf comma) (derivation t)
  | _, .lambdaExpression d => .lambdaExpression (derivation d)
  | _, .comparisonExpression d => .comparisonExpression (derivation d)
  | _, .lambda backslash params arrow body =>
    .lambda (f.leaf backslash) (derivation params) (f.leaf arrow) (derivation body)
  | _, .uncompared d => .uncompared (derivation d)
  | _, .compared left operator right =>
    .compared (derivation left) (f.operator operator) (derivation right)
  | _, .summand d => .summand (derivation d)
  | _, .sum left operator right => .sum (derivation left) (f.operator operator) (derivation right)
  | _, .factor d => .factor (derivation d)
  | _, .product left operator right =>
    .product (derivation left) (f.operator operator) (derivation right)
  | _, .uncalled d => .uncalled (derivation d)
  | _, .call callee left arguments right =>
    .call (derivation callee) (f.leaf left) (derivation arguments) (f.leaf right)
  | _, .callNothing callee left right =>
    .callNothing (derivation callee) (f.leaf left) (f.leaf right)
  | _, .oneArgument e => .oneArgument (derivation e)
  | _, .moreArguments es comma e => .moreArguments (derivation es) (f.leaf comma) (derivation e)
  | _, .number numeral => .number (f.leaf numeral)
  | _, .true_ word => .true_ (f.leaf word)
  | _, .false_ word => .false_ (f.leaf word)
  | _, .name x => .name (f.leaf x)
  | _, .group left e right => .group (f.leaf left) (derivation e) (f.leaf right)
  | _, .blockPrimary d => .blockPrimary (derivation d)
  | _, .conditionalPrimary d => .conditionalPrimary (derivation d)
  | _, .conditional if_ condition thenBranch else_ elseBranch =>
    .conditional (f.leaf if_) (derivation condition) (derivation thenBranch) (f.leaf else_)
      (derivation elseBranch)
  | _, .conditionalChain if_ condition thenBranch else_ elseBranch =>
    .conditionalChain (f.leaf if_) (derivation condition) (derivation thenBranch) (f.leaf else_)
      (derivation elseBranch)
  | _, .empty => .empty

@[simp] theorem leaf_val {class_ : Terminal} (t : Leaf class_) : (f.leaf t).1 = f.token t.1 := rfl

@[simp] theorem operator_val {marks : List Symbol} (t : Operator marks) :
    (f.operator t).1 = f.token t.1 := rfl

theorem word_derivation {sort : Phrase} (d : Derivation sort) :
    (f.derivation d).word = d.word.map f.token := by
  induction d <;> simp only [derivation, Derivation.word, leaf_val, operator_val, List.map_cons,
    List.map_append, List.map_nil, *]

/-- The tree stays the same up to locations. -/
theorem bare_meaning (file : String) {sort : Phrase} (d : Derivation sort) :
    sort.bare ((f.derivation d).meaning file) = sort.bare (d.meaning file) := by
  induction d with
  | items _ ihs =>
    simp only [Phrase.bare] at ihs
    simp only [derivation, Derivation.meaning, Phrase.bare, ihs]
  | itemsThen _ _ ihs ih =>
    simp only [Phrase.bare] at ihs ih
    simp only [derivation, Derivation.meaning, Phrase.bare, Option.map_some, ihs, ih]
  | noItems | noReturns | empty => rfl
  | definitionItem _ ih | letItem _ ih | expressionItem _ ih | lambdaExpression _ ih
  | comparisonExpression _ ih | uncompared _ ih | summand _ ih | factor _ ih | uncalled _ ih
  | blockPrimary _ ih | conditionalPrimary _ ih | group _ _ _ ih => exact ih
  -- lists, one at a time
  | oneArgument _ ih | oneParameter _ ih | oneType _ ih =>
    simp only [Phrase.bare] at ih
    simp only [derivation, Derivation.meaning, Phrase.bare, List.map_cons, List.map_nil, ih]
  | moreItems _ _ ihs ih | moreArguments _ _ _ ihs ih | moreParameters _ _ _ ihs ih
  | moreTypes _ _ _ ihs ih =>
    simp only [Phrase.bare] at ihs ih
    simp only [derivation, Derivation.meaning, Phrase.bare, List.map_append, List.map_cons,
      List.map_nil, ihs, ih]
  -- annotations and parameters
  | returns _ _ ih =>
    simp only [Phrase.bare] at ih
    simp only [derivation, Derivation.meaning, Phrase.bare, Option.map_some, ih]
  | paramPlain x =>
    simp only [derivation, Derivation.meaning, Phrase.bare, Param.bare, leaf_val, f.lexeme]
  | paramAscribed _ _ _ ih =>
    simp only [Phrase.bare] at ih
    simp only [derivation, Derivation.meaning, Phrase.bare, Param.bare, Option.map_some, leaf_val,
      f.lexeme, ih]
  | namedType _ | quotedType _ =>
    simp only [derivation, Derivation.meaning, Phrase.bare, TypeExpr.bare, leaf_val, f.lexeme]
  | arrowType _ _ _ _ _ ihs ih =>
    simp only [Phrase.bare] at ihs ih
    simp only [derivation, Derivation.meaning, Phrase.bare, TypeExpr.bare,
      TypeExpr.bareAll_eq_map, ihs, ih]
  | thunkType _ _ _ _ ih =>
    simp only [Phrase.bare] at ih
    simp only [derivation, Derivation.meaning, Phrase.bare, TypeExpr.bare, ih]
  -- statements
  | discarded _ _ ih =>
    simp only [Phrase.bare] at ih
    simp only [derivation, Derivation.meaning, Phrase.bare, Term.bare, ih]
  | letPlain _ _ _ _ _ ih =>
    simp only [Phrase.bare] at ih
    simp only [derivation, Derivation.meaning, Phrase.bare, Term.bare, Option.map_none, leaf_val,
      f.lexeme, ih]
  | letAscribed _ _ _ _ _ _ _ ihtype ihvalue =>
    simp only [Phrase.bare] at ihtype ihvalue
    simp only [derivation, Derivation.meaning, Phrase.bare, Term.bare, Option.map_some, leaf_val,
      f.lexeme, ihtype, ihvalue]
  | function _ _ _ _ _ _ _ ihparams ihreturns ihbody =>
    simp only [Phrase.bare] at ihparams ihreturns ihbody
    simp only [derivation, Derivation.meaning, Phrase.bare, Term.bare, leaf_val, f.lexeme,
      ihparams, ihreturns, ihbody]
  | thunk _ _ _ _ _ _ ihreturns ihbody =>
    simp only [Phrase.bare] at ihreturns ihbody
    simp only [derivation, Derivation.meaning, Phrase.bare, Term.bare, List.map_nil, leaf_val,
      f.lexeme, ihreturns, ihbody]
  -- expressions
  | number _ | true_ _ | false_ _ | name _ =>
    simp only [derivation, Derivation.meaning, Phrase.bare, Term.bare, leaf_val, f.lexeme]
  | block _ _ _ ihs =>
    simp only [Phrase.bare] at ihs
    simp only [derivation, Derivation.meaning, Phrase.bare, Term.bare, Term.bareAll_eq_map,
      Term.bareOption, ihs]
  | blockThen _ _ _ _ ihs ih =>
    simp only [Phrase.bare] at ihs ih
    simp only [derivation, Derivation.meaning, Phrase.bare, Term.bare, Term.bareAll_eq_map,
      Term.bareOption, ihs, ih]
  | lambda _ _ _ _ ihs ih =>
    simp only [Phrase.bare] at ihs ih
    simp only [derivation, Derivation.meaning, Phrase.bare, Term.bare, ihs, ih]
  | compared _ _ _ ihleft ihright | sum _ _ _ ihleft ihright | product _ _ _ ihleft ihright =>
    simp only [Phrase.bare] at ihleft ihright
    simp only [derivation, Derivation.meaning, Phrase.bare, Term.bare, operator_val, f.lexeme,
      ihleft, ihright]
  | call _ _ _ _ ihcallee ihs =>
    simp only [Phrase.bare] at ihcallee ihs
    simp only [derivation, Derivation.meaning, Phrase.bare, Term.bare, Term.bareAll_eq_map,
      ihcallee, ihs]
  | callNothing _ _ _ ih =>
    simp only [Phrase.bare] at ih
    simp only [derivation, Derivation.meaning, Phrase.bare, Term.bare, ih]
  | conditional _ _ _ _ _ ihcond ihthen ihelse | conditionalChain _ _ _ _ _ ihcond ihthen ihelse =>
    simp only [Phrase.bare] at ihcond ihthen ihelse
    simp only [derivation, Derivation.meaning, Phrase.bare, Term.bare, ihcond, ihthen, ihelse]

/-- The program stays the same up to locations. -/
theorem bare_program (file : String) (d : Derivation .program) :
    ((f.derivation d).program file).bare = (d.program file).bare := by
  have hmeaning := f.bare_meaning file d
  simp only [Phrase.bare, Prod.mk.injEq] at hmeaning
  simp only [Program.bare, Derivation.program, hmeaning]

theorem grammatical {ts : List Token} (h : Grammatical ts) : Grammatical (ts.map f.token) := by
  obtain ⟨d, rfl⟩ := h
  exact ⟨f.derivation d, f.word_derivation d⟩

end Relabeling

/-- Tokens that say the same one by one are the same, moved. -/
theorem exists_relabeling {ts ts' : List Token} (hts : ts.Nodup)
    (h : ts.map (·.lexeme) = ts'.map (·.lexeme)) : ∃ f : Relabeling, ts.map f.token = ts' := by
  induction ts generalizing ts' with
  | nil =>
    obtain rfl : ts' = [] := by simpa using h.symm
    exact ⟨⟨id, fun _ => rfl⟩, rfl⟩
  | cons t ts ih =>
    obtain ⟨t', ts', rfl⟩ : ∃ t' more, ts' = t' :: more := by
      cases ts' with
      | nil => cases h
      | cons t' more => exact ⟨t', more, rfl⟩
    obtain ⟨hfirst, hmore⟩ := List.cons.inj h
    obtain ⟨hnot, hnodup⟩ := List.nodup_cons.1 hts
    obtain ⟨f, rfl⟩ := ih hnodup hmore
    have hlexeme : ∀ u, (Function.update f.token t t' u).lexeme = u.lexeme := by
      intro u
      by_cases hu : u = t
      · rw [hu, Function.update_self]
        exact hfirst.symm
      · rw [Function.update_of_ne hu, f.lexeme]
    have hrest : ts.map (Function.update f.token t t') = ts.map f.token := by
      refine List.map_congr_left fun u hu => Function.update_of_ne ?_ t' f.token
      rintro rfl
      exact hnot hu
    refine ⟨⟨_, hlexeme⟩, ?_⟩
    rw [List.map_cons, hrest]
    exact congrArg (· :: ts.map f.token) (Function.update_self t t' f.token)

/-! ## Texts that say the same -/

section

variable {source source' file : String}

/-- Two texts are read alike: as the same program up to locations, or both are refused at the tokens
of one index, or at their ends. -/
inductive ReadAlike (source source' file : String) : Prop
  | program {p p' : Program} (h : Program.read source file = .ok p)
      (h' : Program.read source' file = .ok p') (hbare : p.bare = p'.bare)
  | token {k : Nat} {t t' : Token} (ht : (Token.lex source).tokens[k]? = some t)
      (ht' : (Token.lex source').tokens[k]? = some t')
      (h : Program.read source file = .error (.unexpectedToken t))
      (h' : Program.read source' file = .error (.unexpectedToken t'))
  | ending {line line' : Nat} (h : Program.read source file = .error (.unexpectedEnd line))
      (h' : Program.read source' file = .error (.unexpectedEnd line'))

variable (h : (Token.lex source).tokens.map (·.lexeme) = (Token.lex source').tokens.map (·.lexeme))
include h

theorem parsed_alike {p : Program} (hp : parsed source file = .ok p) :
    ∃ p', parsed source' file = .ok p' ∧ p.bare = p'.bare := by
  obtain ⟨f, hf⟩ := exists_relabeling (Token.nodup_lex source) h
  obtain ⟨d, hword, rfl, -⟩ := Parser.derivation_of_ok hp
  have hword' : (f.derivation d).word = (Token.lex source').tokens := by
    rw [f.word_derivation, hword, hf]
  obtain ⟨p', hp'⟩ : ∃ p', parsed source' file = .ok p' :=
    Parser.ok_of_grammatical ⟨f.derivation d, hword'⟩
  obtain ⟨d', -, rfl, honly⟩ := Parser.derivation_of_ok hp'
  refine ⟨_, hp', ?_⟩
  rw [← honly _ hword', f.bare_program]

theorem refused_alike {t : Token} {rest : List Token}
    (ht : parsed source file = .error (.unexpected (t :: rest))) :
    ∃ (k : Nat) (t' : Token) (rest' : List Token), (Token.lex source).tokens[k]? = some t ∧
      (Token.lex source').tokens[k]? = some t' ∧
      parsed source' file = .error (.unexpected (t' :: rest')) := by
  obtain ⟨f, hf⟩ := exists_relabeling (Token.nodup_lex source) h
  obtain ⟨g, hg⟩ := exists_relabeling (Token.nodup_lex source') h.symm
  obtain ⟨front, hts, hfill, hnone⟩ := Parser.front_of_unexpected ht
  have hts' : (Token.lex source').tokens = front.map f.token ++ f.token t :: rest.map f.token := by
    rw [← hf, hts, List.map_append, List.map_cons]
  refine ⟨front.length, f.token t, rest.map f.token, by simp [hts], by simp [hts'], ?_⟩
  have hrefuses : ∀ more, ¬ Grammatical (front.map f.token ++ f.token t :: more) := by
    intro more hmore
    -- moved back, the tokens would start a program that goes on with the one that is refused
    have hback := hg
    rw [hts', hts, List.map_append, List.map_cons] at hback
    obtain ⟨hfront, hcons⟩ := List.append_inj hback (by simp)
    obtain ⟨htoken, -⟩ := List.cons.inj hcons
    have hmoved := g.grammatical hmore
    rw [List.map_append, List.map_cons, hfront, htoken] at hmoved
    exact hnone (t :: more.map g.token) rfl hmoved
  obtain ⟨more, hmore⟩ := hfill.grammatical
  have hstarts : ∃ more, Grammatical (front.map f.token ++ more) := by
    refine ⟨more.map f.token, ?_⟩
    rw [← List.map_append]
    exact f.grammatical hmore
  have hrefused := Parser.program_refuses file hstarts hrefuses (rest.map f.token)
  rwa [← hts'] at hrefused

/-- Texts that are tokens to their ends, and say the same, are read alike. -/
theorem readAlike_of_lexemes (file : String)
    (hending : ∃ line, (Token.lex source).ending = .complete line)
    (hending' : ∃ line, (Token.lex source').ending = .complete line) :
    ReadAlike source source' file := by
  obtain ⟨line, hline⟩ := hending
  obtain ⟨line', hline'⟩ := hending'
  rcases read_cases source file with ⟨p, -, hp, -, hok⟩ | ⟨t, rest, ht, herror⟩ |
    ⟨_, hend, -, herror⟩ | ⟨why, place, -, hfault, -⟩
  · obtain ⟨p', hp', hbare⟩ := parsed_alike h hp
    exact .program hok (read_of_parsed hp' hline') hbare
  · obtain ⟨k, t', rest', hk, hk', ht'⟩ := refused_alike h ht
    exact .token hk hk' herror (read_of_refused ht')
  · rcases read_cases source' file with ⟨p', -, hp', -, -⟩ | ⟨t', rest', ht', -⟩ |
      ⟨_, -, -, herror'⟩ | ⟨why, place, -, hfault, -⟩
    · obtain ⟨p, hp, -⟩ := parsed_alike h.symm hp'
      cases hend.symm.trans hp
    · obtain ⟨_, t, rest, -, -, ht⟩ := refused_alike h.symm ht'
      cases hend.symm.trans ht
    · exact .ending herror herror'
    · cases hline'.symm.trans hfault
  · cases hline.symm.trans hfault

end

end LetPoly
