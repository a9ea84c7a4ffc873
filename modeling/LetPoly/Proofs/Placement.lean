-- The laws of trees in place: expressions where expressions belong, statements where
-- statements do, and blocks for the bodies of definitions. Every program that is read
-- from a text is such a tree, and on such a tree inference fails with an error of
-- types or not at all.
import LetPoly.Proofs.FrontEnd
import LetPoly.Proofs.InferenceSound

namespace LetPoly

/-! ## Trees in place -/

namespace Term

mutual

/-- A tree that stands for an expression, with all its parts in place. -/
inductive IsExpression : Term → Prop
  | number {n : Int} {l : Option Location} : IsExpression (.number n l)
  | boolean {b : Bool} {l : Option Location} : IsExpression (.boolean b l)
  | name {x : String} {l : Option Location} : IsExpression (.name x l)
  | binary {left right : Term} {operator : String} {l : Option Location} :
    IsExpression left → IsExpression right → IsExpression (.binary left operator right l)
  | call {callee : Term} {arguments : List Term} {l : Option Location} :
    IsExpression callee → (∀ e ∈ arguments, IsExpression e) →
    IsExpression (.call callee arguments l)
  | lambda {params : List Param} {body : Term} {l : Option Location} :
    IsExpression body → IsExpression (.lambda params body l)
  | unit {statements : List Term} {l : Option Location} :
    (∀ e ∈ statements, IsStatement e) → IsExpression (.block statements none l)
  | block {statements : List Term} {result : Term} {l : Option Location} :
    (∀ e ∈ statements, IsStatement e) → IsExpression result →
    IsExpression (.block statements (some result) l)
  | conditional {condition thenBranch elseBranch : Term} {l : Option Location} :
    IsExpression condition → IsExpression thenBranch → IsExpression elseBranch →
    IsExpression (.conditional condition thenBranch elseBranch l)

/-- A tree that stands for a statement, with all its parts in place. -/
inductive IsStatement : Term → Prop
  | discard {value : Term} {l : Option Location} :
    IsExpression value → IsStatement (.discard value l)
  | letBinding {x : String} {value : Term} {ascription : Option TypeExpr} {l : Option Location} :
    IsExpression value → IsStatement (.letBinding x value ascription l)
  | definition {f : String} {params : List Param} {returns : Option TypeExpr}
      {statements : List Term} {result : Option Term} {l l' : Option Location} :
    IsExpression (.block statements result l') →
    IsStatement (.definition f params returns (.block statements result l') l)

end

end Term

/-- The statements and the last expression of a program are in place. -/
structure Program.InPlace (p : Program) : Prop where
  statements : ∀ e ∈ p.statements, e.IsStatement
  result : ∀ e, p.result = some e → e.IsExpression

/-! ## Programs that are read -/

/-- What a phrase of a sort stands for is in place. -/
def Phrase.InPlace : (sort : Phrase) → sort.Meaning → Prop
  | program, (statements, result) =>
    (∀ e ∈ statements, e.IsStatement) ∧ ∀ e, result = some e → e.IsExpression
  | itemList, es => ∀ e ∈ es, Term.IsStatement e
  | argumentList, es => ∀ e ∈ es, Term.IsExpression e
  | item, e | expressionStatement, e | letStatement, e | functionDefinition, e =>
    Term.IsStatement e
  | block, e => Term.IsExpression e ∧ ∃ statements result l, e = .block statements result l
  | expression, e | lambda, e | comparison, e | additive, e | multiplicative, e | postfixed, e
  | primary, e | conditional, e => Term.IsExpression e
  | returnType, _ | parameterList, _ | parameter, _ | typeExpression, _ | typeList, _
  | empty, _ => True

theorem Term.isStatement_definition {f : String} {params : List Param}
    {returns : Option TypeExpr} {body : Term} {l : Option Location}
    (h : Phrase.InPlace .block body) : IsStatement (.definition f params returns body l) := by
  obtain ⟨hbody, statements, result, l', rfl⟩ := h
  exact .definition hbody

theorem Derivation.inPlace (file : String) {sort : Phrase} (d : Derivation sort) :
    sort.InPlace (d.meaning file) := by
  induction d with
  | items _ his => exact ⟨his, nofun⟩
  | itemsThen _ _ his he => exact ⟨his, fun _ h => Option.some.inj h ▸ he⟩
  | moreItems _ _ his hi => exact List.forall_mem_append.2 ⟨his, List.forall_mem_singleton.2 hi⟩
  | noItems => exact nofun
  | definitionItem _ h | letItem _ h | expressionItem _ h => exact h
  | discarded _ _ h => exact .discard h
  | letPlain _ _ _ _ _ h => exact .letBinding h
  | letAscribed _ _ _ _ _ _ _ _ h => exact .letBinding h
  | function _ _ _ _ _ _ _ _ _ h => exact Term.isStatement_definition h
  | thunk _ _ _ _ _ _ _ h => exact Term.isStatement_definition h
  | block _ _ _ his => exact ⟨.unit his, _, _, _, rfl⟩
  | blockThen _ _ _ _ his he => exact ⟨.block his he, _, _, _, rfl⟩
  | lambdaExpression _ h | comparisonExpression _ h => exact h
  | lambda _ _ _ _ _ h => exact .lambda h
  | uncompared _ h | summand _ h | factor _ h | uncalled _ h => exact h
  | compared _ _ _ hl hr | sum _ _ _ hl hr | product _ _ _ hl hr => exact .binary hl hr
  | call _ _ _ _ hc hs => exact .call hc hs
  | callNothing _ _ _ hc => exact .call hc nofun
  | oneArgument _ h => exact List.forall_mem_singleton.2 h
  | moreArguments _ _ _ hs h => exact List.forall_mem_append.2 ⟨hs, List.forall_mem_singleton.2 h⟩
  | number => exact .number
  | true_ | false_ => exact .boolean
  | name => exact .name
  | group _ _ _ h => exact h
  | blockPrimary _ h => exact h.1
  | conditionalPrimary _ h => exact h
  | conditional _ _ _ _ _ hc ht he => exact .conditional hc ht.1 he.1
  | conditionalChain _ _ _ _ _ hc ht he => exact .conditional hc ht.1 he
  | returns | noReturns | oneParameter | moreParameters | paramPlain | paramAscribed | namedType
  | quotedType | arrowType | thunkType | oneType | moreTypes | empty => trivial

/-- Whatever program is read from a text is in place. -/
theorem Program.inPlace_of_read {source file : String} {p : Program}
    (h : Program.read source file = .ok p) : p.InPlace := by
  obtain ⟨hparsed, -⟩ := of_read_eq_ok h
  obtain ⟨d, -, rfl, -⟩ := Parser.derivation_of_ok hparsed
  exact ⟨(d.inPlace file).1, (d.inPlace file).2⟩

/-! ## Failures of steps -/

/-- A failure that does not come from a node out of place. -/
def InferFailure.Ordinary : InferFailure → Prop
  | typeError _ | cyclic => True
  | notExpression _ | notStatement _ | malformed _ _ => False

namespace Infer

variable {α β : Type} {x : Infer α} {k : α → Infer β}

/-- A step that fails does so with a failure of no node out of place. -/
def Fair (x : Infer α) : Prop :=
  ∀ n, Leads InferState.next x n (fun _ _ => True) InferFailure.Ordinary

theorem Fair.bind (hx : Fair x) (hk : ∀ a, Fair (k a)) : Fair (x >>= k) :=
  fun n => (hx n).bind fun a n' _ => hk a n'

/-- A step and an answer of it that has the given property. -/
theorem Fair.bind_of {Q : α → Prop} (hx : Fair x) (hQ : ∀ n, Ensures x n fun a _ => Q a)
    (hk : ∀ a, Q a → Fair (k a)) : Fair (x >>= k) :=
  fun n => ((hx n).and (hQ n)).bind fun a n' h => hk a h.2 n'

theorem fair_of_returns {a : Int → α} {m : Int → Int}
    (h : ∀ n, Returns InferState.next x n (a n) (m n)) : Fair x :=
  fun n => (h n).leads trivial

theorem fair_pure (a : α) : Fair (pure a : Infer α) := fun _ => leads_pure trivial

theorem fair_fail (reason : Reason) (site : Site) : Fair (fail reason site : Infer α) :=
  fun _ => leads_throw trivial

theorem fair_orCyclic (o : Option α) : Fair (orCyclic o) := by
  cases o with
  | none => exact fun _ => leads_throw trivial
  | some a => exact fair_pure a

theorem fair_note (event : Event) : Fair (note event) := fair_of_returns fun _ => returns_note event

theorem fair_instantiate (scheme : Scheme) : Fair (instantiate scheme) := by
  rintro _ s rfl
  exact fair_orCyclic _ _ { s with next := (scheme.instantiate? s.next).2 } rfl

theorem fair_reading (step : Naming.Step α) : Fair (reading step) := by
  refine fun n => leads_reading fun s _ => ?_
  rcases step s with ⟨a, after⟩ | ⟨e, after⟩ <;> trivial

theorem fair_unifyOr {expected actual : Ty} {blame : Clash → InferFailure}
    (h : ∀ clash, (blame clash).Ordinary) : Fair (unifyOr expected actual blame) :=
  fun _ => (leads_unifyOr fun clash _ => h clash).imp fun _ _ _ => trivial

theorem fair_unifyAt (expected actual : Ty) (site : Site) : Fair (unifyAt expected actual site) :=
  fair_unifyOr fun _ => trivial

theorem fair_conclude (site : Site) (s : Subst) (t : Ty) : Fair (conclude site s t) :=
  (fair_note _).bind fun _ => fair_pure _

/-! ## Failures on trees in place -/

variable {rules : Rules}

/-- Inference on an expression fails with nothing but an error of types or a cycle. -/
def FairInferred (rules : Rules) (e : Term) : Prop :=
  ∀ env position, Fair (infer rules e env position)

/-- A statement fails with nothing but an error of types or a cycle. -/
def FairChecked (rules : Rules) (e : Term) : Prop :=
  ∀ env position, Fair (check rules e env position)

theorem fair_argument {e : Term} (h : FairInferred rules e) (position : Position) (site : Site)
    (param : Ty) (s : Subst) (env : Env) :
    Fair (argument (fun env => infer rules e env position) site param s env) := by
  refine (fair_orCyclic _).bind fun inner => (h inner position).bind fun answer => ?_
  refine (fair_orCyclic _).bind fun s => (fair_orCyclic _).bind fun t => ?_
  exact (fair_unifyAt _ _ _).bind fun s' => fair_orCyclic _

theorem fair_inferAll {es : List Term} (hes : ∀ e ∈ es, FairInferred rules e) (params : List Ty)
    (s : Subst) (env : Env) (position : Position) (slot : Nat) :
    Fair (inferAll rules es params s env position slot) := by
  induction es generalizing params s slot with
  | nil =>
    rw [inferAll]
    · exact fair_pure s
    · simp
  | cons e es ih =>
    cases params with
    | nil =>
      rw [inferAll]
      · exact fair_pure s
      · simp
    | cons param params =>
      rw [inferAll]
      refine (fair_argument (hes e (by simp)) _ _ _ _ _).bind fun s => ?_
      exact ih (fun e he => hes e (by simp [he])) params s (slot + 1)

theorem fair_checkAll {es : List Term} (hes : ∀ e ∈ es, FairChecked rules e) (env : Env)
    (position : Position) (slot : Nat) (s : Subst) :
    Fair (checkAll rules es env position slot s) := by
  induction es generalizing env slot s with
  | nil => exact fair_pure _
  | cons e es ih =>
    rw [checkAll]
    refine (hes e (by simp) _ _).bind fun answer => (fair_orCyclic _).bind fun s => ?_
    exact ih (fun e he => hes e (by simp [he])) _ _ s

theorem fair_name (x : String) (l : Option Location) : FairInferred rules (.name x l) := by
  intro env position
  rw [infer]
  rcases env.get? x with _ | scheme
  · exact fair_fail _ _
  · exact (fair_instantiate scheme).bind fun t => fair_conclude _ _ t

theorem fair_binary (hr : rules.Proper) {left right : Term} (hleft : FairInferred rules left)
    (hright : FairInferred rules right) (operator : String) (l : Option Location) :
    FairInferred rules (.binary left operator right l) := by
  intro env position
  rw [infer]
  rcases hop : rules.operators.get? operator with _ | scheme
  · exact fair_fail _ _
  refine (fair_instantiate scheme).bind_of (Q := fun t => ∃ a b r, t = .fn [a, b] r)
    (fun n => ?_) ?_
  · obtain ⟨a, b, r, -, hreturns, -⟩ := exists_operator hr hop n
    exact hreturns.leads ⟨a, b, r, rfl⟩
  rintro _ ⟨a, b, r, rfl⟩
  refine (fair_argument hleft _ _ _ _ _).bind fun s => ?_
  refine (fair_argument hright _ _ _ _ _).bind fun s => ?_
  exact (fair_orCyclic _).bind fun t => fair_conclude _ s t

theorem fair_call {callee : Term} (hcallee : FairInferred rules callee) {arguments : List Term}
    (harguments : ∀ e ∈ arguments, FairInferred rules e) (l : Option Location) :
    FairInferred rules (.call callee arguments l) := by
  intro env position
  rw [infer]
  refine (hcallee env _).bind fun answer => ?_
  refine (fair_of_returns fun _ => returns_freshMany _).bind fun params => ?_
  refine (fair_of_returns fun _ => returns_fresh).bind fun result => ?_
  refine (fair_unifyAt _ _ _).bind fun s => (fair_orCyclic _).bind fun s => ?_
  refine (fair_inferAll harguments params s env position 1).bind fun s => ?_
  exact (fair_orCyclic _).bind fun t => fair_conclude _ s t

theorem fair_lambda {body : Term} (hbody : FairInferred rules body) (params : List Param)
    (l : Option Location) : FairInferred rules (.lambda params body l) := by
  intro env position
  rw [infer]
  refine (fair_reading _).bind fun types => ?_
  refine (fair_of_returns fun _ => returns_noteParams _ _ _ _).bind fun _ => ?_
  refine (hbody _ _).bind fun answer => (fair_orCyclic _).bind fun types => ?_
  exact fair_conclude _ _ _

theorem fair_unit {statements : List Term} (hs : ∀ e ∈ statements, FairChecked rules e)
    (l : Option Location) : FairInferred rules (.block statements none l) := by
  intro env position
  rw [infer]
  exact (fair_checkAll hs env position 0 _).bind fun answer => fair_conclude _ _ _

theorem fair_block {statements : List Term} (hs : ∀ e ∈ statements, FairChecked rules e)
    {result : Term} (hresult : FairInferred rules result) (l : Option Location) :
    FairInferred rules (.block statements (some result) l) := by
  intro env position
  rw [infer]
  refine (fair_checkAll hs env position 0 _).bind fun answer => (hresult _ _).bind fun answer => ?_
  exact (fair_orCyclic _).bind fun s => fair_conclude _ _ _

theorem fair_conditional {condition thenBranch elseBranch : Term}
    (hcond : FairInferred rules condition) (hthen : FairInferred rules thenBranch)
    (helse : FairInferred rules elseBranch) (l : Option Location) :
    FairInferred rules (.conditional condition thenBranch elseBranch l) := by
  intro env position
  rw [infer]
  refine (hcond _ _).bind fun answer => (fair_unifyAt _ _ _).bind fun s => ?_
  refine (fair_orCyclic _).bind fun s => (fair_orCyclic _).bind fun env => ?_
  refine (hthen _ _).bind fun answer => (fair_orCyclic _).bind fun s => ?_
  refine (fair_orCyclic _).bind fun env => (helse _ _).bind fun answer => ?_
  refine (fair_orCyclic _).bind fun s => (fair_orCyclic _).bind fun t => ?_
  refine (fair_unifyOr fun clash => ?_).bind fun s => (fair_orCyclic _).bind fun s => ?_
  · trivial
  exact (fair_orCyclic _).bind fun t => fair_conclude _ _ _

theorem fair_discard {value : Term} (hvalue : FairInferred rules value) (l : Option Location) :
    FairChecked rules (.discard value l) := by
  intro env position
  rw [check]
  refine (hvalue _ _).bind fun answer => (fair_note _).bind fun _ => ?_
  exact (fair_orCyclic _).bind fun env => fair_pure _

/-- What a binding does last. -/
theorem fair_binding (site : Site) (t : Ty) (word : Keyword) (x : String) (scheme : Scheme)
    (answer : Subst × Env) :
    Fair (do note (.typed site t); note (.bound word x scheme); pure answer) :=
  (fair_note _).bind fun _ => (fair_note _).bind fun _ => fair_pure answer

theorem fair_let {value : Term} (hvalue : FairInferred rules value) (x : String)
    (ascription : Option TypeExpr) (l : Option Location) :
    FairChecked rules (.letBinding x value ascription l) := by
  intro env position
  cases ascription with
  | none =>
    rw [check]
    refine (hvalue _ _).bind fun answer => (fair_orCyclic _).bind fun outer => ?_
    exact fair_binding _ _ _ _ _ _
  | some ascription =>
    rw [check]
    refine (hvalue _ _).bind fun answer => (fair_reading _).bind fun declared => ?_
    refine (fair_unifyAt _ _ _).bind fun s => (fair_orCyclic _).bind fun s => ?_
    refine (fair_orCyclic _).bind fun t => (fair_orCyclic _).bind fun outer => ?_
    exact fair_binding _ _ _ _ _ _

theorem fair_definition {statements : List Term} {result : Option Term} {l' : Option Location}
    (hbody : FairInferred rules (.block statements result l')) (f : String)
    (params : List Param) (returns : Option TypeExpr) (l : Option Location) :
    FairChecked rules (.definition f params returns (.block statements result l') l) := by
  intro env position
  rw [check]
  refine (fair_reading _).bind fun answer => ?_
  refine (fair_of_returns fun _ => returns_noteParams _ _ _ _).bind fun _ => ?_
  refine (hbody _ _).bind fun answer => (fair_orCyclic _).bind fun declared => ?_
  refine (fair_unifyOr fun clash => ?_).bind fun s => ?_
  · cases result <;> trivial
  refine (fair_orCyclic _).bind fun s => (fair_orCyclic _).bind fun outer => ?_
  exact (fair_orCyclic _).bind fun final => fair_binding _ _ _ _ _ _

mutual

/-- Inference on an expression in place fails with nothing but an error of types or a cycle. -/
theorem fairInferred (hr : rules.Proper) {e : Term} (h : e.IsExpression) :
    FairInferred rules e := by
  match h with
  | .number | .boolean =>
    intro env position
    rw [infer]
    exact fair_conclude _ _ _
  | .name => exact fair_name _ _
  | .binary hleft hright =>
    exact fair_binary hr (fairInferred hr hleft) (fairInferred hr hright) _ _
  | .call hcallee harguments =>
    exact fair_call (fairInferred hr hcallee) (fun e he => fairInferred hr (harguments e he)) _
  | .lambda hbody => exact fair_lambda (fairInferred hr hbody) _ _
  | .unit hs => exact fair_unit (fun e he => fairChecked hr (hs e he)) _
  | .block hs hresult =>
    exact fair_block (fun e he => fairChecked hr (hs e he)) (fairInferred hr hresult) _
  | .conditional hcond hthen helse =>
    exact fair_conditional (fairInferred hr hcond) (fairInferred hr hthen)
      (fairInferred hr helse) _

/-- A statement in place fails with nothing but an error of types or a cycle. -/
theorem fairChecked (hr : rules.Proper) {e : Term} (h : e.IsStatement) : FairChecked rules e := by
  match h with
  | .discard hvalue => exact fair_discard (fairInferred hr hvalue) _
  | .letBinding hvalue => exact fair_let (fairInferred hr hvalue) _ _ _
  | .definition hbody => exact fair_definition (fairInferred hr hbody) _ _ _ _

end

/-- A failure that is an ordinary one and no cycle is an error of types. -/
theorem exists_typeError {x : Infer α} {n : Int} {P : α → Int → Prop} (hfair : Fair x)
    (hsettles : Settles x n P) {s s' : InferState} {failure : InferFailure} (hs : s.next = n)
    (h : x s = .error failure s') : ∃ error, failure = .typeError error := by
  have hordinary := hfair n s hs
  have hcycle := hsettles s hs
  rw [h] at hordinary hcycle
  cases failure with
  | typeError error => exact ⟨error, rfl⟩
  | cyclic => exact absurd rfl hcycle
  | notExpression _ | notStatement _ | malformed _ _ => exact hordinary.elim

/-- In an environment of variables from before the supply, inference on an expression in place
ends in an answer or in an error of types. -/
theorem typeError_of_infer (hr : rules.Proper) {e : Term} (he : e.IsExpression) {env : Env}
    {position : Position} {s s' : InferState} (hb : env.Below s.next) {failure : InferFailure}
    (h : infer rules e env position s = .error failure s') :
    ∃ error, failure = .typeError error :=
  exists_typeError (fairInferred hr he env position) (sound hr e env position s.next hb) rfl h

/-- The same for a statement. -/
theorem typeError_of_check (hr : rules.Proper) {e : Term} (he : e.IsStatement) {env : Env}
    {position : Position} {s s' : InferState} (hb : env.Below s.next) {failure : InferFailure}
    (h : check rules e env position s = .error failure s') :
    ∃ error, failure = .typeError error :=
  exists_typeError (fairChecked hr he env position) (passes hr e env position s.next hb) rfl h

end Infer

end LetPoly
