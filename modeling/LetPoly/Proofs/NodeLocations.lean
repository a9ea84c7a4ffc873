-- Where the nodes of a tree stand. In a tree that is read from a text, every node
-- stands where one of the tokens does, and an error of types is put down to a
-- node of the tree.
import LetPoly.Proofs.BlamedNodes
import LetPoly.Proofs.Placement

namespace LetPoly

/-! ## Trees with known locations -/

section

variable (Known : Option Location → Prop)

/-- All nodes of an annotation have known locations. -/
inductive TypeExpr.Located : TypeExpr → Prop
  | named {x : String} {l : Option Location} : Known l → Located (.named x l)
  | quoted {x : String} {l : Option Location} : Known l → Located (.quoted x l)
  | arrow {params : List TypeExpr} {result : TypeExpr} {l : Option Location} : Known l →
    (∀ t ∈ params, Located t) → Located result → Located (.arrow params result l)

/-- A parameter and the nodes of its annotation have known locations. -/
structure Param.Located (p : Param) : Prop where
  location : Known p.location
  ascription : ∀ t, p.ascription = some t → t.Located Known

/-- All nodes of an expression or statement have known locations. -/
inductive Term.Located : Term → Prop
  | number {n : Int} {l : Option Location} : Known l → Located (.number n l)
  | boolean {b : Bool} {l : Option Location} : Known l → Located (.boolean b l)
  | name {x : String} {l : Option Location} : Known l → Located (.name x l)
  | binary {left right : Term} {operator : String} {l : Option Location} : Known l →
    Located left → Located right → Located (.binary left operator right l)
  | call {callee : Term} {arguments : List Term} {l : Option Location} : Known l →
    Located callee → (∀ e ∈ arguments, Located e) → Located (.call callee arguments l)
  | lambda {params : List Param} {body : Term} {l : Option Location} : Known l →
    (∀ p ∈ params, p.Located Known) → Located body → Located (.lambda params body l)
  | block {statements : List Term} {result : Option Term} {l : Option Location} : Known l →
    (∀ e ∈ statements, Located e) → (∀ e, result = some e → Located e) →
    Located (.block statements result l)
  | conditional {condition thenBranch elseBranch : Term} {l : Option Location} : Known l →
    Located condition → Located thenBranch → Located elseBranch →
    Located (.conditional condition thenBranch elseBranch l)
  | letBinding {x : String} {value : Term} {ascription : Option TypeExpr} {l : Option Location} :
    Known l → Located value → (∀ t, ascription = some t → t.Located Known) →
    Located (.letBinding x value ascription l)
  | definition {f : String} {params : List Param} {returns : Option TypeExpr} {body : Term}
      {l : Option Location} : Known l → (∀ p ∈ params, p.Located Known) →
    (∀ t, returns = some t → t.Located Known) → Located body →
    Located (.definition f params returns body l)
  | discard {value : Term} {l : Option Location} : Known l → Located value →
    Located (.discard value l)

/-- All nodes of a program below the program itself have known locations. -/
structure Program.Located (p : Program) : Prop where
  statements : ∀ e ∈ p.statements, e.Located Known
  result : ∀ e, p.result = some e → e.Located Known

/-- All nodes of what a phrase of a sort stands for have known locations. -/
def Phrase.Located : (sort : Phrase) → sort.Meaning → Prop
  | program, (statements, result) =>
    (∀ e ∈ statements, e.Located Known) ∧ ∀ e, result = some e → e.Located Known
  | itemList, es | argumentList, es => ∀ e ∈ es, Term.Located Known e
  | item, e | expressionStatement, e | letStatement, e | functionDefinition, e | block, e
  | expression, e | lambda, e | comparison, e | additive, e | multiplicative, e | postfixed, e
  | primary, e | conditional, e => Term.Located Known e
  | returnType, t => ∀ t', t = some t' → TypeExpr.Located Known t'
  | parameterList, ps => ∀ p ∈ ps, Param.Located Known p
  | parameter, p => Param.Located Known p
  | typeExpression, t => TypeExpr.Located Known t
  | typeList, ts => ∀ t ∈ ts, TypeExpr.Located Known t
  | empty, _ => True

end

section

variable {Known : Option Location → Prop}

theorem Term.Located.location {e : Term} (h : e.Located Known) : Known e.location := by
  cases h <;> assumption

/-- The nodes of a phrase stand where its tokens do. -/
theorem Derivation.located {file : String} {sort : Phrase} (d : Derivation sort)
    (h : ∀ t ∈ d.word, Known (some (t.location file))) : sort.Located Known (d.meaning file) := by
  induction d with
  | items _ his => exact ⟨his h, by simp⟩
  | itemsThen _ _ his he =>
    obtain ⟨hitems, hresult⟩ := List.forall_mem_append.1 h
    exact ⟨his hitems, fun _ heq => Option.some.inj heq ▸ he hresult⟩
  | moreItems _ _ his hi =>
    obtain ⟨hitems, hitem⟩ := List.forall_mem_append.1 h
    exact List.forall_mem_append.2 ⟨his hitems, List.forall_mem_singleton.2 (hi hitem)⟩
  | noItems =>
    intro e he
    cases he
  | definitionItem _ ih | letItem _ ih | expressionItem _ ih => exact ih h
  | discarded _ _ ih =>
    have hvalue := ih (List.forall_mem_append.1 h).1
    exact .discard hvalue.location hvalue
  | letPlain _ _ _ _ _ ih =>
    simp only [word, List.forall_mem_cons, List.forall_mem_append] at h
    obtain ⟨-, hname, -, hvalue, -⟩ := h
    exact .letBinding hname (ih hvalue) (by simp)
  | letAscribed _ _ _ _ _ _ _ ihtype ihvalue =>
    simp only [word, List.forall_mem_cons, List.forall_mem_append] at h
    obtain ⟨-, hname, -, htype, -, hvalue, -⟩ := h
    exact .letBinding hname (ihvalue hvalue) fun _ heq => Option.some.inj heq ▸ ihtype htype
  | function _ _ _ _ _ _ _ ihparams ihreturns ihbody =>
    simp only [word, List.forall_mem_cons, List.forall_mem_append] at h
    obtain ⟨-, hname, -, hparams, -, hreturns, hbody⟩ := h
    exact .definition hname (ihparams hparams) (ihreturns hreturns) (ihbody hbody)
  | thunk _ _ _ _ _ _ ihreturns ihbody =>
    simp only [word, List.forall_mem_cons, List.forall_mem_append] at h
    obtain ⟨-, hname, -, -, hreturns, hbody⟩ := h
    exact .definition hname (by simp) (ihreturns hreturns) (ihbody hbody)
  | returns _ _ ih => exact fun _ heq => Option.some.inj heq ▸ ih (List.forall_mem_cons.1 h).2
  | noReturns =>
    intro t ht
    cases ht
  | oneParameter _ ih => exact List.forall_mem_singleton.2 (ih h)
  | moreParameters _ _ _ ihs ih =>
    simp only [word, List.forall_mem_cons, List.forall_mem_append] at h
    exact List.forall_mem_append.2 ⟨ihs h.1, List.forall_mem_singleton.2 (ih h.2.2)⟩
  | paramPlain _ => exact ⟨h _ List.mem_cons_self, fun _ heq => by cases heq⟩
  | paramAscribed _ _ _ ih =>
    simp only [word, List.forall_mem_cons] at h
    exact ⟨h.1, fun _ heq => Option.some.inj heq ▸ ih h.2.2⟩
  | block _ _ _ ih =>
    simp only [word, List.forall_mem_cons, List.forall_mem_append] at h
    exact .block h.1 (ih h.2.1) (by simp)
  | blockThen _ _ _ _ ihs ih =>
    simp only [word, List.forall_mem_cons, List.forall_mem_append] at h
    obtain ⟨hleft, hitems, hresult, -⟩ := h
    exact .block hleft (ihs hitems) fun _ heq => Option.some.inj heq ▸ ih hresult
  | namedType _ => exact .named (h _ List.mem_cons_self)
  | quotedType _ => exact .quoted (h _ List.mem_cons_self)
  | arrowType _ _ _ _ _ ihs ih =>
    simp only [word, List.forall_mem_cons, List.forall_mem_append] at h
    obtain ⟨hleft, hparams, -, -, hresult⟩ := h
    exact .arrow hleft (ihs hparams) (ih hresult)
  | thunkType _ _ _ _ ih =>
    simp only [word, List.forall_mem_cons] at h
    exact .arrow h.1 (by simp) (ih h.2.2.2)
  | oneType _ ih => exact List.forall_mem_singleton.2 (ih h)
  | moreTypes _ _ _ ihs ih =>
    simp only [word, List.forall_mem_cons, List.forall_mem_append] at h
    exact List.forall_mem_append.2 ⟨ihs h.1, List.forall_mem_singleton.2 (ih h.2.2)⟩
  | lambdaExpression _ ih | comparisonExpression _ ih => exact ih h
  | lambda _ _ _ _ ihs ih =>
    simp only [word, List.forall_mem_cons, List.forall_mem_append] at h
    obtain ⟨hleft, hparams, -, hbody⟩ := h
    exact .lambda hleft (ihs hparams) (ih hbody)
  | uncompared _ ih | summand _ ih | factor _ ih | uncalled _ ih => exact ih h
  | compared _ _ _ ihleft ihright | sum _ _ _ ihleft ihright | product _ _ _ ihleft ihright =>
    simp only [word, List.forall_mem_cons, List.forall_mem_append] at h
    obtain ⟨hleft, hoperator, hright⟩ := h
    exact .binary hoperator (ihleft hleft) (ihright hright)
  | call _ _ _ _ ihcallee ihs =>
    simp only [word, List.forall_mem_cons, List.forall_mem_append] at h
    have hcallee := ihcallee h.1
    exact .call hcallee.location hcallee (ihs h.2.2.1)
  | callNothing _ _ _ ih =>
    have hcallee := ih (List.forall_mem_append.1 h).1
    exact .call hcallee.location hcallee (by simp)
  | oneArgument _ ih => exact List.forall_mem_singleton.2 (ih h)
  | moreArguments _ _ _ ihs ih =>
    simp only [word, List.forall_mem_cons, List.forall_mem_append] at h
    exact List.forall_mem_append.2 ⟨ihs h.1, List.forall_mem_singleton.2 (ih h.2.2)⟩
  | number _ => exact .number (h _ List.mem_cons_self)
  | true_ _ | false_ _ => exact .boolean (h _ List.mem_cons_self)
  | name _ => exact .name (h _ List.mem_cons_self)
  | group _ _ _ ih =>
    simp only [word, List.forall_mem_cons, List.forall_mem_append] at h
    exact ih h.2.1
  | blockPrimary _ ih | conditionalPrimary _ ih => exact ih h
  | conditional _ _ _ _ _ ihcond ihthen ihelse | conditionalChain _ _ _ _ _ ihcond ihthen ihelse =>
    simp only [word, List.forall_mem_cons, List.forall_mem_append] at h
    obtain ⟨hword, hcond, hthen, -, helse⟩ := h
    exact .conditional hword (ihcond hcond) (ihthen hthen) (ihelse helse)
  | empty => trivial

end

/-- A location is that of one of the tokens of a text. -/
def TokenLocation (source file : String) (l : Option Location) : Prop :=
  ∃ t ∈ (Token.lex source).tokens, l = some (t.location file)

/-- The nodes of a program that is read stand where the tokens of its text do. -/
theorem Program.located_of_read {source file : String} {p : Program}
    (h : Program.read source file = .ok p) : p.Located (TokenLocation source file) := by
  obtain ⟨hparsed, -⟩ := of_read_eq_ok h
  obtain ⟨d, hword, rfl, -⟩ := Parser.derivation_of_ok hparsed
  have hd : Phrase.program.Located (TokenLocation source file) (d.meaning file) :=
    d.located fun t ht => ⟨t, hword ▸ ht, rfl⟩
  exact ⟨hd.1, hd.2⟩

/-! ## Errors at known locations -/

section

variable {Known : Option Location → Prop}

theorem TypeExpr.located_walkAll {ts : List TypeExpr}
    (h : ∀ t ∈ ts, ∀ position, ∀ v ∈ t.walk position, Known v.site.location) (position : Position)
    (slot : Nat) : ∀ v ∈ walkAll position slot ts, Known v.site.location := by
  induction ts generalizing slot with
  | nil => exact nofun
  | cons t ts ih =>
    obtain ⟨ht, hts⟩ := List.forall_mem_cons.1 h
    exact List.forall_mem_append.2 ⟨ht _, ih hts (slot + 1)⟩

theorem TypeExpr.Located.visits {t : TypeExpr} (h : t.Located Known) (position : Position) :
    ∀ v ∈ t.walk position, Known v.site.location := by
  induction h generalizing position with
  | named hl | quoted hl => exact List.forall_mem_singleton.2 hl
  | arrow hl _ _ ihparams ihresult =>
    rw [walk, List.forall_mem_cons, List.forall_mem_append]
    exact ⟨hl, located_walkAll ihparams position 0, ihresult _⟩

theorem TypeExpr.located_walkOption {t : Option TypeExpr} (h : ∀ t', t = some t' → t'.Located Known)
    (position : Position) : ∀ v ∈ walkOption position t, Known v.site.location := by
  cases t with
  | none => exact nofun
  | some t => exact (h t rfl).visits position

theorem Param.located_walkAll {params : List Param} (h : ∀ p ∈ params, p.Located Known)
    (position : Position) (slot : Nat) :
    ∀ v ∈ walkAll position slot params, Known v.site.location := by
  induction params generalizing slot with
  | nil => exact nofun
  | cons p params ih =>
    obtain ⟨hp, hparams⟩ := List.forall_mem_cons.1 h
    rw [walkAll, walk, List.forall_mem_append, List.forall_mem_cons]
    exact ⟨⟨hp.location, TypeExpr.located_walkOption hp.ascription _⟩, ih hparams (slot + 1)⟩

theorem Term.located_walkAll {es : List Term}
    (h : ∀ e ∈ es, ∀ position, ∀ v ∈ e.walk position, Known v.site.location) (position : Position)
    (slot : Nat) : ∀ v ∈ walkAll position slot es, Known v.site.location := by
  intro v hv
  obtain ⟨i, e, he, hv⟩ := mem_walkAll.1 hv
  exact h e (List.mem_of_getElem? he) _ v hv

/-- All nodes that a walk meets are at known locations. -/
theorem Term.Located.visits {e : Term} (h : e.Located Known) (position : Position) :
    ∀ v ∈ e.walk position, Known v.site.location := by
  induction h generalizing position with
  | number hl | boolean hl | name hl => exact List.forall_mem_singleton.2 hl
  | binary hl _ _ ihleft ihright =>
    rw [walk, List.forall_mem_cons, List.forall_mem_append]
    exact ⟨hl, ihleft _, ihright _⟩
  | call hl _ _ ihcallee ihs =>
    rw [walk, List.forall_mem_cons, List.forall_mem_append]
    exact ⟨hl, ihcallee _, located_walkAll ihs position 1⟩
  | lambda hl hparams _ ihbody =>
    rw [walk, List.forall_mem_cons, List.forall_mem_append]
    exact ⟨hl, Param.located_walkAll hparams position 0, ihbody _⟩
  | @block statements result l hl _ _ ihs ihresult =>
    rw [walk, List.forall_mem_cons, List.forall_mem_append]
    refine ⟨hl, located_walkAll ihs position 0, ?_⟩
    cases result with
    | none => exact nofun
    | some e => exact ihresult e rfl _
  | conditional hl _ _ _ ihcond ihthen ihelse =>
    rw [walk, List.forall_mem_cons, List.forall_mem_append, List.forall_mem_append]
    exact ⟨hl, ⟨ihcond _, ihthen _⟩, ihelse _⟩
  | letBinding hl _ hascription ihvalue =>
    rw [walk, List.forall_mem_cons, List.forall_mem_append]
    exact ⟨hl, ihvalue _, TypeExpr.located_walkOption hascription _⟩
  | definition hl hparams hreturns _ ihbody =>
    rw [walk, List.forall_mem_cons, List.forall_mem_append, List.forall_mem_append]
    exact ⟨hl, ⟨Param.located_walkAll hparams position 0,
      TypeExpr.located_walkOption hreturns _⟩, ihbody _⟩
  | discard hl _ ihvalue =>
    rw [walk, List.forall_mem_cons]
    exact ⟨hl, ihvalue _⟩

/-- An error of types at a known location. -/
def TypeError.Located (Known : Option Location → Prop) (e : TypeError) : Prop := Known e.location

/-- The nodes of a term, as nodes that errors may be put down to. -/
def Frame.ofTerm (e : Term) (position : Position) : Frame :=
  ⟨e.walk position, fun _ _ => True, fun _ _ => trivial⟩

theorem Frame.Attributed.located {e : Term} (he : e.Located Known) {position : Position}
    {record : List (Site × Ty)} {error : TypeError}
    (h : (Frame.ofTerm e position).Attributed record error) : error.Located Known := by
  obtain ⟨v, hv, hsite⟩ := h.exists_visit
  unfold TypeError.Located TypeError.location
  rw [hsite]
  exact he.visits position v hv

namespace Infer

variable {rules : Rules} {env : Env} {position : Position} {s s' : InferState} {error : TypeError}

/-- Inference on an expression puts its error down to a node of the tree. -/
theorem located_of_infer {e : Term} (he : e.Located Known)
    (h : infer rules e env position s = .error (.typeError error) s') : error.Located Known :=
  ((tracesInfer (.ofTerm e position) rules e env position [] ⟨trivial, fun _ => id⟩).of_error
    h).located he

/-- The check of a statement puts its error down to a node of the tree. -/
theorem located_of_check {e : Term} (he : e.Located Known)
    (h : check rules e env position s = .error (.typeError error) s') : error.Located Known :=
  ((tracesCheck (.ofTerm e position) rules e env position [] ⟨trivial, fun _ => id⟩).of_error
    h).located he

end Infer

end

end LetPoly
