-- Printed types read back. The text of a type is that of a row of lexemes, the
-- grammar makes an annotation of the row, and the annotation stands for the type
-- again, up to the numbers of its variables.
import LetPoly.Proofs.FrontEnd
import LetPoly.Proofs.RenamedChecks
import LetPoly.Proofs.TokenRules

namespace LetPoly

/-! ## Names -/

theorem eq_of_letter : ∀ a < 26, ∀ b < 26, Char.ofNat (97 + a) = Char.ofNat (97 + b) → a = b := by
  decide

theorem startsName_letter {k : Nat} (h : k < 26) : startsName (Char.ofNat (97 + k)) := by
  revert k
  decide

theorem continuesName_of_isDigit {c : Char} (h : c.isDigit) : continuesName c := by
  unfold continuesName
  simp only [Char.isDigit, Bool.and_eq_true, decide_eq_true_eq] at h
  simp only [Bool.or_eq_true, Bool.and_eq_true, decide_eq_true_eq]
  exact .inr h

namespace Ty

theorem toList_letter (index : Nat) :
    (letter index).toList = Char.ofNat (97 + index % 26) ::
      if index < 26 then [] else Nat.toDigits 10 (index / 26) := by
  unfold letter
  split <;> simp

theorem isName_letter (index : Nat) : isName (letter index) := by
  unfold isName
  rw [toList_letter]
  simp only [startsName_letter (Nat.mod_lt index (by decide : 0 < 26)), Bool.true_and]
  split
  · rfl
  · rw [List.all_eq_true]
    exact fun c hc =>
      continuesName_of_isDigit (Nat.isDigit_of_mem_toDigits (by decide) (by decide) hc)

/-- Different variables get different letters. -/
theorem letter_injective : Function.Injective letter := by
  intro i j h
  have hlist : (letter i).toList = (letter j).toList := by rw [h]
  rw [toList_letter, toList_letter, List.cons.injEq] at hlist
  obtain ⟨hchar, htail⟩ := hlist
  have hmod : i % 26 = j % 26 :=
    eq_of_letter _ (Nat.mod_lt i (by decide)) _ (Nat.mod_lt j (by decide)) hchar
  have hdiv : i / 26 = j / 26 := by
    by_cases hi : i < 26 <;> by_cases hj : j < 26
    · omega
    · simp [hi, hj] at htail
    · simp [hi, hj] at htail
    · rw [if_neg hi, if_neg hj] at htail
      have hvalue := congrArg (Nat.ofDigitChars 10 · 0) htail
      simpa only [Nat.ofDigitChars_toDigits (b := 10) (by decide) (by decide)] using hvalue
  omega

/-! ## The lexemes of a type -/

section

variable (nameOf : Int → String)

mutual

/-- The lexemes of a type in print, with the given names after the quotes of its variables. -/
def lexemes : Ty → List Lexeme
  | var v => [.typeVariable (nameOf v)]
  | con c => [.identifier c]
  | fn [] result => .symbol .leftParen :: .symbol .rightParen :: .symbol .arrow :: lexemes result
  | fn (p :: params) result =>
    .symbol .leftParen :: (lexemes p ++ (lexemesMore params ++
      .symbol .rightParen :: .symbol .arrow :: lexemes result))

/-- The lexemes of the parameters after the first. -/
def lexemesMore : List Ty → List Lexeme
  | [] => []
  | t :: more => .symbol .comma :: (lexemes t ++ lexemesMore more)

end

end

/-- A type whose constructors are among the given ones. -/
inductive BuiltFrom (baseTypes : List String) : Ty → Prop
  | var {v : Int} : BuiltFrom baseTypes (.var v)
  | con {c : String} : c ∈ baseTypes → BuiltFrom baseTypes (.con c)
  | fn {params : List Ty} {result : Ty} : (∀ p ∈ params, BuiltFrom baseTypes p) →
    BuiltFrom baseTypes result → BuiltFrom baseTypes (.fn params result)

end Ty

/-! ## Texts of lexemes -/

namespace Token

/-- No name goes on with what follows. -/
def Stops (rest : List Char) : Prop := ∀ c ∈ rest.head?, continuesName c = false

theorem takeWhile_continuesName {tail rest : List Char} (h : ∀ c ∈ tail, continuesName c)
    (hrest : Stops rest) : (tail ++ rest).takeWhile continuesName = tail := by
  rw [List.takeWhile_append_of_pos h]
  rcases rest with _ | ⟨c, rest⟩
  · simp
  · simp [hrest c rfl]

theorem not_space_of_startsName {c : Char} (h : startsName c) :
    isSpace c = false ∧ (c == '\n') = false ∧ (c == '#') = false := by
  have hne : ∀ d, startsName d = false → c ≠ d := by
    rintro d hd rfl
    simp [hd] at h
  have hblank := hne ' ' (by decide)
  have htab := hne '\t' (by decide)
  have hreturn := hne '\r' (by decide)
  simp [isSpace, hblank, htab, hreturn, hne '\n' (by decide), hne '#' (by decide)]

/-- A name that is no reserved word is read as an identifier. -/
theorem yields_identifier {x : String} (hx : isIdentifier x) {rest : List Char}
    (hrest : Stops rest) : Yields x.toList rest [.identifier x] := by
  obtain ⟨hname, hword⟩ := (Bool.and_eq_true _ _).mp hx
  obtain ⟨c, tail, rfl, hc, htail⟩ := exists_of_isName hname
  obtain ⟨hspace, hline, hcomment⟩ := not_space_of_startsName hc
  rw [String.toList_ofList]
  apply yields_lexeme hspace hline hcomment
  unfold Lexeme.first
  rw [if_pos hc]
  simp only [takeWhile_continuesName htail hrest]
  unfold Lexeme.ofName
  rw [Option.isNone_iff_eq_none.1 hword]

/-- A quoted name is read as a type variable. -/
theorem yields_typeVariable {x : String} (hx : isName x) {rest : List Char} (hrest : Stops rest) :
    Yields ('\'' :: x.toList) rest [.typeVariable x] := by
  obtain ⟨c, tail, rfl, hc, htail⟩ := exists_of_isName hx
  rw [String.toList_ofList]
  apply yields_lexeme rfl rfl rfl
  unfold Lexeme.first
  rw [if_neg (by decide), if_pos (by decide)]
  simp only [List.cons_append, hc, if_true, takeWhile_continuesName htail hrest, List.length_cons]

end Token

namespace Ty

open Token

variable {baseTypes : List String} {name nameOf : Int → String}

theorem stops_renderMore (name : Int → String) (ps : List Ty) (rest : List Char) :
    Stops ((renderMore name ps).toList ++ ')' :: rest) := by
  cases ps with
  | nil => simp [renderMore, Stops, show continuesName ')' = false by decide]
  | cons q qs => simp [renderMore, Stops, show continuesName ',' = false by decide]

theorem yields_renderMore {ps : List Ty}
    (h : ∀ p ∈ ps, ∀ rest, Stops rest → Yields (p.render name).toList rest (p.lexemes nameOf))
    (rest : List Char) :
    Yields (renderMore name ps).toList (')' :: rest) (lexemesMore nameOf ps) := by
  induction ps with
  | nil => exact yields_nil _
  | cons p ps ih =>
    obtain ⟨hp, hps⟩ := List.forall_mem_cons.1 h
    have hfirst := (hp _ (stops_renderMore name ps rest)).append (ih hps)
    simp only [renderMore, lexemesMore, String.toList_append]
    exact .cons_mark rfl rfl rfl (fun _ => rfl) (.cons_space hfirst)

/-- The text of a type is that of its lexemes. -/
theorem yields_render (hbase : ∀ c ∈ baseTypes, isIdentifier c) {t : Ty}
    (ht : t.BuiltFrom baseTypes)
    (hname : ∀ v ∈ t.leaves, name v = "'" ++ nameOf v ∧ isName (nameOf v)) {rest : List Char}
    (hrest : Stops rest) : Yields (t.render name).toList rest (t.lexemes nameOf) := by
  induction ht generalizing rest with
  | @var v =>
    obtain ⟨hv, hisName⟩ := hname v (by simp)
    rw [render, hv, String.toList_append, lexemes]
    exact yields_typeVariable hisName hrest
  | con hc =>
    rw [render, lexemes]
    exact yields_identifier (hbase _ hc) hrest
  | @fn params result _ _ ihparams ihresult =>
    have hresult := ihresult (fun v hv => hname v (by simp [hv])) hrest
    have hend : Yields (") -> ".toList ++ (result.render name).toList) rest
        (.symbol .rightParen :: .symbol .arrow :: result.lexemes nameOf) := by
      have harrow : Yields (['-', '>'] ++ ' ' :: (result.render name).toList) rest
          (.symbol .arrow :: result.lexemes nameOf) :=
        (yields_lexeme rfl rfl rfl rfl).append (.cons_space hresult)
      exact .cons_mark rfl rfl rfl (fun _ => rfl) (.cons_space harrow)
    cases params with
    | nil =>
      rw [render, lexemes, String.toList_append]
      exact .cons_mark rfl rfl rfl (fun _ => rfl) hend
    | cons p ps =>
      have hparams : ∀ q ∈ p :: ps, ∀ rest, Stops rest →
          Yields (q.render name).toList rest (q.lexemes nameOf) := by
        intro q hq rest hrest
        refine ihparams q hq (fun v hv => hname v ?_) hrest
        rw [leaves_fn, List.mem_append, List.mem_flatMap]
        exact .inl ⟨q, hq, hv⟩
      obtain ⟨hp, hps⟩ := List.forall_mem_cons.1 hparams
      have hmore := (yields_renderMore hps _).append hend
      have hstops : Stops ((renderMore name ps).toList ++
          (") -> ".toList ++ (result.render name).toList) ++ rest) := by
        rw [List.append_assoc]
        exact stops_renderMore name ps _
      rw [render, lexemes]
      simp only [String.toList_append, List.append_assoc]
      exact .cons_mark rfl rfl rfl (fun _ => rfl) ((hp _ hstops).append hmore)

end Ty

/-! ## Annotations of lexemes -/

section

variable {baseTypes : List String} {names : String → Ty}

theorem TypeExpr.MeanAll.concat {ws : List TypeExpr} {ts : List Ty}
    (h : MeanAll baseTypes names ws ts) {w : TypeExpr} {t : Ty} (hw : w.Means baseTypes names t) :
    MeanAll baseTypes names (ws ++ [w]) (ts ++ [t]) := by
  induction ws generalizing ts with
  | nil =>
    cases h
    exact .cons hw .nil
  | cons w' ws ih =>
    cases h with
    | cons hfirst hmore => exact .cons hfirst (ih hmore)

mutual

/-- An annotation stands for one type, once the quoted names are given types. -/
theorem TypeExpr.Means.unique {w : TypeExpr} {t t' : Ty} (h : w.Means baseTypes names t)
    (h' : w.Means baseTypes names t') : t = t' := by
  match h, h' with
  | .named _, .named _ => rfl
  | .quoted, .quoted => rfl
  | .arrow hps hr, .arrow hps' hr' =>
    rw [TypeExpr.MeanAll.unique hps hps', TypeExpr.Means.unique hr hr']

theorem TypeExpr.MeanAll.unique {ws : List TypeExpr} {ts ts' : List Ty}
    (h : MeanAll baseTypes names ws ts) (h' : MeanAll baseTypes names ws ts') : ts = ts' := by
  match h, h' with
  | .nil, .nil => rfl
  | .cons hw hws, .cons hw' hws' =>
    rw [TypeExpr.Means.unique hw hw', TypeExpr.MeanAll.unique hws hws']

end

end

namespace Ty

variable {baseTypes : List String} {nameOf : Int → String} {file : String}

/-- An annotation says the given type, with the given names for its variables. -/
def SaidBy (baseTypes : List String) (nameOf : Int → String) (t : Ty) (w : TypeExpr) : Prop :=
  ∀ names, w.Means baseTypes names (t.subst fun v => names (nameOf v))

/-- Tokens with the lexemes of a type are those of an annotation that says it. -/
def Annotates (baseTypes : List String) (nameOf : Int → String) (file : String) (t : Ty) : Prop :=
  ∀ ts : List Token, ts.map (·.lexeme) = t.lexemes nameOf →
    ∃ d : Derivation .typeExpression, d.word = ts ∧ t.SaidBy baseTypes nameOf (d.meaning file)

theorem annotates_more {ps : List Ty} (h : ∀ p ∈ ps, p.Annotates baseTypes nameOf file)
    (types : Derivation .typeList) (qs : List Ty)
    (htypes : ∀ names, TypeExpr.MeanAll baseTypes names (types.meaning file)
      (qs.map (subst fun v => names (nameOf v))))
    (ts : List Token) (hts : ts.map (·.lexeme) = lexemesMore nameOf ps) :
    ∃ types' : Derivation .typeList, types'.word = types.word ++ ts ∧
      ∀ names, TypeExpr.MeanAll baseTypes names (types'.meaning file)
        ((qs ++ ps).map (subst fun v => names (nameOf v))) := by
  induction ps generalizing types qs ts with
  | nil =>
    obtain rfl : ts = [] := by simpa [lexemesMore] using hts
    exact ⟨types, by simp, by simpa using htypes⟩
  | cons p ps ih =>
    obtain ⟨hp, hps⟩ := List.forall_mem_cons.1 h
    rw [lexemesMore] at hts
    obtain ⟨comma, rest, rfl, hcomma, hrest⟩ := List.map_eq_cons_iff.1 hts
    obtain ⟨first, more, rfl, hfirst, hmore⟩ := List.map_eq_append_iff.1 hrest
    obtain ⟨d, hd, hsaid⟩ := hp first hfirst
    let types' : Derivation .typeList := .moreTypes types ⟨comma, by rw [hcomma]; rfl⟩ d
    obtain ⟨types'', hword, hmeans⟩ := ih hps types' (qs ++ [p]) (fun names => by
      rw [List.map_append]
      exact (htypes names).concat (hsaid names)) more hmore
    refine ⟨types'', ?_, by simpa using hmeans⟩
    rw [hword, ← hd]
    show types.word ++ comma :: d.word ++ more = types.word ++ comma :: (d.word ++ more)
    simp

/-- The lexemes of a type are those of an annotation that says it. -/
theorem annotates {t : Ty} (ht : t.BuiltFrom baseTypes) : t.Annotates baseTypes nameOf file := by
  induction ht with
  | @var v =>
    intro ts hts
    rw [lexemes] at hts
    obtain ⟨tok, rest, rfl, htok, hrest⟩ := List.map_eq_cons_iff.1 hts
    obtain rfl := List.map_eq_nil_iff.1 hrest
    have hterminal : tok.lexeme.terminal = .typeVariable := by rw [htok]; rfl
    have hvalue : tok.lexeme.value = nameOf v := by rw [htok]; rfl
    refine ⟨.quotedType ⟨tok, hterminal⟩, rfl, fun names => ?_⟩
    show (TypeExpr.quoted tok.lexeme.value _).Means baseTypes names (names (nameOf v))
    rw [hvalue]
    exact .quoted
  | @con c hc =>
    intro ts hts
    rw [lexemes] at hts
    obtain ⟨tok, rest, rfl, htok, hrest⟩ := List.map_eq_cons_iff.1 hts
    obtain rfl := List.map_eq_nil_iff.1 hrest
    have hterminal : tok.lexeme.terminal = .identifier := by rw [htok]; rfl
    have hvalue : tok.lexeme.value = c := by rw [htok]; rfl
    refine ⟨.namedType ⟨tok, hterminal⟩, rfl, fun names => ?_⟩
    show (TypeExpr.named tok.lexeme.value _).Means baseTypes names (.con c)
    rw [hvalue]
    exact .named hc
  | @fn params result _ _ ihparams ihresult =>
    intro ts hts
    cases params with
    | nil =>
      rw [lexemes] at hts
      obtain ⟨left, close, rfl, hleft, hclose⟩ := List.map_eq_cons_iff.1 hts
      obtain ⟨right, after, rfl, hright, hafter⟩ := List.map_eq_cons_iff.1 hclose
      obtain ⟨arrow, rest, rfl, harrow, hrest⟩ := List.map_eq_cons_iff.1 hafter
      obtain ⟨d, rfl, hsaid⟩ := ihresult rest hrest
      refine ⟨.thunkType ⟨left, by rw [hleft]; rfl⟩ ⟨right, by rw [hright]; rfl⟩
        ⟨arrow, by rw [harrow]; rfl⟩ d, rfl, fun names => ?_⟩
      rw [subst_fn]
      exact .arrow .nil (hsaid names)
    | cons p ps =>
      obtain ⟨hp, hps⟩ := List.forall_mem_cons.1 ihparams
      rw [lexemes] at hts
      obtain ⟨left, inside, rfl, hleft, hinside⟩ := List.map_eq_cons_iff.1 hts
      obtain ⟨first, others, rfl, hfirst, hothers⟩ := List.map_eq_append_iff.1 hinside
      obtain ⟨more, close, rfl, hmore, hclose⟩ := List.map_eq_append_iff.1 hothers
      obtain ⟨right, after, rfl, hright, hafter⟩ := List.map_eq_cons_iff.1 hclose
      obtain ⟨arrow, rest, rfl, harrow, hrest⟩ := List.map_eq_cons_iff.1 hafter
      obtain ⟨d, rfl, hsaid⟩ := hp first hfirst
      obtain ⟨r, rfl, hresult⟩ := ihresult rest hrest
      obtain ⟨types, hword, hmeans⟩ := annotates_more hps (.oneType d) [p]
        (fun names => .cons (hsaid names) .nil) more hmore
      refine ⟨.arrowType ⟨left, by rw [hleft]; rfl⟩ types ⟨right, by rw [hright]; rfl⟩
        ⟨arrow, by rw [harrow]; rfl⟩ r, ?_, fun names => ?_⟩
      · show left :: (types.word ++ right :: arrow :: r.word) = _
        rw [hword, List.append_assoc]
        rfl
      · rw [subst_fn]
        exact .arrow (hmeans names) (hresult names)

/-! ## The names in print -/

/-- The name that a variable of a type has in print, after its quote. -/
def printedName (t : Ty) (v : Int) : String := letter (t.vars.findIdx (· = v))

theorem findIdx_vars_lt {t : Ty} {v : Int} (hv : v ∈ t.leaves) :
    t.vars.findIdx (· = v) < t.vars.length :=
  List.findIdx_lt_length_of_exists ⟨v, mem_distinct.2 hv, by simp⟩

theorem quotedName_vars {t : Ty} {v : Int} (hv : v ∈ t.leaves) :
    quotedName t.vars v = "'" ++ t.printedName v := by
  have hfind : t.vars.findIdx? (· = v) = some (t.vars.findIdx (· = v)) :=
    List.findIdx?_eq_some_iff_findIdx_eq.2 ⟨findIdx_vars_lt hv, rfl⟩
  unfold quotedName
  rw [hfind]
  rfl

theorem printedName_injOn (t : Ty) : Set.InjOn t.printedName {v | v ∈ t.leaves} := by
  intro v hv w hw h
  have hindex : t.vars.findIdx (· = v) = t.vars.findIdx (· = w) := letter_injective h
  have hfound : ∀ u ∈ t.leaves, t.vars[t.vars.findIdx (· = u)]? = some u := by
    intro u hu
    rw [List.getElem?_eq_getElem (findIdx_vars_lt hu)]
    simpa using List.findIdx_getElem (w := findIdx_vars_lt hu)
  have hsame := hfound v hv
  rw [hindex, hfound w hw] at hsame
  exact (Option.some.inj hsame).symm

/-- Some types for the names in print make a type what it is. -/
theorem exists_printedNames (t : Ty) :
    ∃ names : String → Ty, t.subst (fun v => names (t.printedName v)) = t := by
  have hinverse := t.printedName_injOn.leftInvOn_invFunOn
  refine ⟨fun x => .var (Function.invFunOn t.printedName {v | v ∈ t.leaves} x), ?_⟩
  rw [subst_congr fun v hv => congrArg var (hinverse hv), subst_var_self]

/-- An annotation that says a type is resolved to an instance of it, of which it is one. -/
theorem SaidBy.resolves {t : Ty} {w : TypeExpr} (h : t.SaidBy baseTypes t.printedName w)
    (next : Int) (position : Position) :
    ∃ t' after, w.resolve baseTypes position ⟨next, Table.empty⟩ = .ok t' after ∧
      (∃ f, t' = t.subst f) ∧ ∃ g, t = t'.subst g := by
  obtain ⟨names, hnames⟩ := t.exists_printedNames
  have hmeans := h names
  rw [hnames] at hmeans
  have hfits : Naming.Fits names .var ⟨next, Table.empty⟩ := fun _ _ hv => nomatch hv
  obtain ⟨t', after, hrun, ⟨g, -, -, hg⟩, hread⟩ :=
    ((TypeExpr.leads_becomes (Int.le_refl next) (Infer.within_empty next) hfits hmeans
      position).and (TypeExpr.leads_resolve (Int.le_refl next) (Infer.within_empty next) w
      position)).exists_ok rfl
  obtain ⟨names', hmeans'⟩ := hread.exists_names
  refine ⟨t', after, hrun, ⟨_, hmeans'.unique (h names')⟩, g, ?_⟩
  simpa using hg.symm

end Ty

/-! ## Reading back -/

/-- A text is read as an annotation, where a variable is bound to zero under it. -/
def ReadAsAnnotation (text file : String) (written : TypeExpr) : Prop :=
  ∃ l l', Program.read ("let x: " ++ text ++ " = 0;") file =
    .ok ⟨[.letBinding "x" (.number 0 l) (some written) l'], none, file, some ⟨file, 1, 1⟩⟩

theorem ReadAsAnnotation.unique {text file : String} {written written' : TypeExpr}
    (h : ReadAsAnnotation text file written) (h' : ReadAsAnnotation text file written') :
    written = written' := by
  obtain ⟨_, _, h⟩ := h
  obtain ⟨_, _, h'⟩ := h'
  rw [h] at h'
  cases h'
  rfl

theorem read_of_derivation {source file : String} {line : Nat} (d : Derivation .program)
    (hword : d.word = (Token.lex source).tokens)
    (hending : (Token.lex source).ending = .complete line) :
    Program.read source file = .ok (d.program file) := by
  obtain ⟨p, hp⟩ : ∃ p, parsed source file = .ok p := Parser.ok_of_grammatical ⟨d, hword⟩
  obtain ⟨d', -, hvalue, honly⟩ := Parser.derivation_of_ok hp
  rw [read_of_parsed hp hending, honly d hword, hvalue]

namespace Ty

open Token

variable {baseTypes : List String}

theorem yields_pretty (hbase : ∀ c ∈ baseTypes, isIdentifier c) {t : Ty}
    (ht : t.BuiltFrom baseTypes) {rest : List Char} (hrest : Stops rest) :
    Yields t.pretty.toList rest (t.lexemes t.printedName) :=
  yields_render hbase ht (fun _ hv => ⟨quotedName_vars hv, isName_letter _⟩) hrest

/-- The text of a binding is that of its lexemes. -/
theorem exists_lex_binding (hbase : ∀ c ∈ baseTypes, isIdentifier c) {t : Ty}
    (ht : t.BuiltFrom baseTypes) :
    ∃ line, (lex ("let x: " ++ t.pretty ++ " = 0;")).ending = .complete line ∧
      (lex ("let x: " ++ t.pretty ++ " = 0;")).tokens.map (·.lexeme) =
        .keyword .letWord :: .identifier "x" :: .symbol .colon :: (t.lexemes t.printedName ++
          [.symbol .equals, .number 0, .symbol .semicolon]) := by
  have hlet : ∀ rest, Yields ['l', 'e', 't'] (' ' :: rest) [.keyword .letWord] :=
    fun rest => yields_lexeme rfl rfl rfl rfl
  have hx : ∀ rest, Yields ['x'] (':' :: rest) [.identifier "x"] :=
    fun rest => yields_lexeme rfl rfl rfl rfl
  have hequals : ∀ rest, Yields ['='] (' ' :: rest) [.symbol .equals] :=
    fun rest => yields_lexeme rfl rfl rfl rfl
  have hzero : ∀ rest, Yields ['0'] (';' :: rest) [.number 0] :=
    fun rest => yields_lexeme rfl rfl rfl rfl
  have hback : Yields " = 0;".toList [] [.symbol .equals, .number 0, .symbol .semicolon] :=
    .cons_space ((hequals _).append (.cons_space ((hzero _).append
      (.cons_mark rfl rfl rfl (fun _ => rfl) (yields_nil [])))))
  have hstops : Stops (" = 0;".toList ++ []) := by
    simp [Stops, show continuesName ' ' = false by decide]
  have htype := (yields_pretty hbase ht hstops).append hback
  have hall := (hlet _).append (.cons_space ((hx _).append
    (.cons_mark rfl rfl rfl (fun _ => rfl) (.cons_space htype))))
  obtain ⟨ts, place, hts, hscan⟩ := hall Place.start
  have hlex : lex ("let x: " ++ t.pretty ++ " = 0;") = ⟨ts, .complete place.line⟩ := by
    rw [lex, String.toList_append, String.toList_append, List.append_assoc]
    simpa [scan] using hscan
  rw [hlex]
  exact ⟨place.line, rfl, hts⟩

/-- Tokens with the lexemes of a binding are those of a program of it alone. -/
theorem exists_program {t : Ty} (ht : t.BuiltFrom baseTypes) (file : String) {ts : List Token}
    (hts : ts.map (·.lexeme) = .keyword .letWord :: .identifier "x" :: .symbol .colon ::
      (t.lexemes t.printedName ++ [.symbol .equals, .number 0, .symbol .semicolon])) :
    ∃ d : Derivation .program, d.word = ts ∧
      ∃ written l l', t.SaidBy baseTypes t.printedName written ∧ d.program file =
        ⟨[.letBinding "x" (.number 0 l) (some written) l'], none, file, some ⟨file, 1, 1⟩⟩ := by
  obtain ⟨word, named, rfl, hword, hnamed⟩ := List.map_eq_cons_iff.1 hts
  obtain ⟨x, typed, rfl, hx, htyped⟩ := List.map_eq_cons_iff.1 hnamed
  obtain ⟨colon, typed, rfl, hcolon, htyped⟩ := List.map_eq_cons_iff.1 htyped
  obtain ⟨type, bound, rfl, htype, hbound⟩ := List.map_eq_append_iff.1 htyped
  obtain ⟨equals, value, rfl, hequals, hvalue⟩ := List.map_eq_cons_iff.1 hbound
  obtain ⟨zero, last, rfl, hzero, hlast⟩ := List.map_eq_cons_iff.1 hvalue
  obtain ⟨semicolon, rest, rfl, hsemicolon, hrest⟩ := List.map_eq_cons_iff.1 hlast
  obtain rfl := List.map_eq_nil_iff.1 hrest
  have hannotates : t.Annotates baseTypes t.printedName file := annotates ht
  obtain ⟨d, rfl, hsaid⟩ := hannotates type htype
  let number : Derivation .expression := .comparisonExpression (.uncompared (.summand (.factor
    (.uncalled (.number ⟨zero, by rw [hzero]; rfl⟩)))))
  refine ⟨.items (.moreItems (.noItems .empty) (.letItem (.letAscribed
    ⟨word, by rw [hword]; rfl⟩ ⟨x, by rw [hx]; rfl⟩ ⟨colon, by rw [hcolon]; rfl⟩ d
    ⟨equals, by rw [hequals]; rfl⟩ number ⟨semicolon, by rw [hsemicolon]; rfl⟩))), ?_,
    d.meaning file, some (zero.location file), some (x.location file), hsaid, ?_⟩
  · rfl
  · have hname : x.lexeme.value = "x" := by rw [hx]; rfl
    have hnumeral : zero.lexeme.numeral = 0 := by rw [hzero]; rfl
    show (⟨[.letBinding x.lexeme.value (.number zero.lexeme.numeral _) _ _], none, file, _⟩ :
      Program) = _
    rw [hname, hnumeral]
    rfl

/-- The text of a type is read as an annotation that says the type. -/
theorem exists_annotation (hbase : ∀ c ∈ baseTypes, isIdentifier c) {t : Ty}
    (ht : t.BuiltFrom baseTypes) (file : String) :
    ∃ written, ReadAsAnnotation t.pretty file written ∧
      t.SaidBy baseTypes t.printedName written := by
  obtain ⟨line, hending, htokens⟩ := exists_lex_binding hbase ht
  obtain ⟨d, hword, written, l, l', hsaid, hprogram⟩ := exists_program ht file htokens
  refine ⟨written, ⟨l, l', ?_⟩, hsaid⟩
  rw [read_of_derivation d hword hending, hprogram]

/-- Types that print alike differ in the numbers of their variables only. -/
theorem renamed_of_pretty_eq (hbase : ∀ c ∈ baseTypes, isIdentifier c) {t t₂ : Ty}
    (ht : t.BuiltFrom baseTypes) (ht₂ : t₂.BuiltFrom baseTypes) (h : t.pretty = t₂.pretty) :
    Renamed rename t t₂ := by
  obtain ⟨written, hread, hsaid⟩ := exists_annotation hbase ht ""
  obtain ⟨written₂, hread₂, hsaid₂⟩ := exists_annotation hbase ht₂ ""
  -- one annotation says both, and is resolved to one type
  rw [h] at hread
  obtain rfl := hread.unique hread₂
  obtain ⟨t', after, hrun, ⟨f, hf⟩, g, hg⟩ := hsaid.resolves 0 []
  obtain ⟨t₂', after₂, hrun₂, ⟨f₂, hf₂⟩, g₂, hg₂⟩ := hsaid₂.resolves 0 []
  rw [hrun] at hrun₂
  cases hrun₂
  have hto : t₂ = t.subst fun v => (f v).subst g₂ := by rw [← subst_subst, ← hf, ← hg₂]
  have hfrom : t = t₂.subst fun v => (f₂ v).subst g := by rw [← subst_subst, ← hf₂, ← hg]
  exact renamed_of_instances hto hfrom

end Ty

/-- Where the base types are identifiers, the text of a type over them is read as an annotation,
which is resolved to the type again, up to an injective renaming of its variables. So two types
print alike exactly if they differ by such a renaming. -/
theorem printed_types_read_back (baseTypes : List String)
    (hbase : ∀ c ∈ baseTypes, isIdentifier c) (t : Ty) (ht : t.BuiltFrom baseTypes)
    (file : String) (next : Int) :
    (∃ written, ReadAsAnnotation t.pretty file written ∧
      ∀ position, ∃ t' after,
        written.resolve baseTypes position ⟨next, Table.empty⟩ = .ok t' after ∧
          Renamed Ty.rename t t') ∧
    ∀ t₂, t₂.BuiltFrom baseTypes → (t.pretty = t₂.pretty ↔ Renamed Ty.rename t t₂) := by
  obtain ⟨written, hread, hsaid⟩ := Ty.exists_annotation hbase ht file
  refine ⟨⟨written, hread, fun position => ?_⟩, fun t₂ ht₂ => ⟨?_, ?_⟩⟩
  · obtain ⟨t', after, hrun, ⟨f, hf⟩, g, hg⟩ := hsaid.resolves next position
    exact ⟨t', after, hrun, Ty.renamed_of_instances hf hg⟩
  · exact Ty.renamed_of_pretty_eq hbase ht ht₂
  · rintro ⟨π, hπ, rfl⟩
    exact (Ty.pretty_rename hπ t).symm

/-- A type with a thunk and two variables is read back from its text, and is told from the type
with one variable in all their places. -/
theorem printed_types_read_back_with_two_variables :
    isIdentifier "Int" ∧
    (Ty.fn [.fn [] (.var 40), .con "Int", .var 7] (.var 40)).BuiltFrom ["Int"] ∧
    (∃ written, ReadAsAnnotation "(() -> 'a, Int, 'b) -> 'a" "" written ∧
      ∀ position, ∃ t' after, written.resolve ["Int"] position ⟨0, Table.empty⟩ = .ok t' after ∧
        Renamed Ty.rename (.fn [.fn [] (.var 40), .con "Int", .var 7] (.var 40)) t') ∧
    ¬ Renamed Ty.rename (.fn [.fn [] (.var 40), .con "Int", .var 7] (.var 40))
      (.fn [.fn [] (.var 7), .con "Int", .var 7] (.var 7)) := by
  have hbase : ∀ c ∈ ["Int"], isIdentifier c := by simp [show isIdentifier "Int" = true by cbv]
  have ht : ∀ v w, (Ty.fn [.fn [] (.var v), .con "Int", .var w] (.var v)).BuiltFrom ["Int"] := by
    intro v w
    refine .fn ?_ .var
    simp only [List.forall_mem_cons]
    exact ⟨.fn (by simp) .var, .con (by simp), .var, by simp⟩
  obtain ⟨hback, hsame⟩ := printed_types_read_back ["Int"] hbase _ (ht 40 7) "" 0
  exact ⟨hbase _ (by simp), ht 40 7, hback,
    fun h => absurd ((hsame _ (ht 7 7)).2 h) (by decide +kernel)⟩

end LetPoly
