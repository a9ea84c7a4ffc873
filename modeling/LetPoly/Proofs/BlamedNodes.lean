-- The nodes that errors of types are put down to. Each error has a node of the tree in
-- which it is found. A conditional is to blame if its branches, whose types are on
-- record by then, cannot have one type, and the result of a body is to blame if the body
-- cannot have the type that the definition declares.
import LetPoly.Proofs.RecordedNodes

namespace LetPoly

/-! ## Terms below terms -/

namespace Term

/-- The expression or statement in a slot of a node. -/
def child? : Term → Nat → Option Term
  | binary left _ right _, slot => [left, right][slot]?
  | call callee arguments _, slot => (callee :: arguments)[slot]?
  | lambda params body _, slot => if slot = params.length then some body else none
  | block statements result _, slot => (statements ++ result.toList)[slot]?
  | conditional condition thenBranch elseBranch _, slot =>
    [condition, thenBranch, elseBranch][slot]?
  | letBinding _ value _ _, slot => [value][slot]?
  | definition _ params _ body _, slot => if slot = params.length + 1 then some body else none
  | discard expression _, slot => [expression][slot]?
  | strayProgram statements result _, slot => (statements ++ result.toList)[slot]?
  | _, _ => none

theorem exists_visit (e : Term) (position : Position) :
    ∃ v ∈ e.walk position, v.site = e.site position := by
  cases e with
  | strayParam p => exact ⟨_, List.mem_cons_self, rfl⟩
  | strayType t => cases t <;> exact ⟨_, List.mem_cons_self, rfl⟩
  | _ => exact ⟨_, List.mem_cons_self, rfl⟩

theorem mem_walk_of_slots {position : Position} {statements : List Term} {result : Option Term}
    {slot : Nat} {e : Term} (h : (statements ++ result.toList)[slot]? = some e) {v : Visit}
    (hv : v ∈ e.walk (slot :: position)) :
    v ∈ walkAll position 0 statements ++ walkOption (statements.length :: position) result := by
  have hall : v ∈ walkAll position 0 (statements ++ result.toList) :=
    mem_walkAll.2 ⟨slot, e, h, by rwa [Nat.zero_add]⟩
  rwa [walkAll_append_toList, Nat.zero_add] at hall

/-- The nodes below a child are below its parent. -/
theorem mem_walk_of_child {e e' : Term} {slot : Nat} (h : e.child? slot = some e')
    {position : Position} {v : Visit} (hv : v ∈ e'.walk (slot :: position)) :
    v ∈ e.walk position := by
  cases e with
  | binary left operator right l =>
    rcases slot with _ | _ | slot
    · cases h
      simp [walk, hv]
    · cases h
      simp [walk, hv]
    · cases h
  | call callee arguments l =>
    cases slot with
    | zero =>
      cases h
      simp [walk, hv]
    | succ slot =>
      have hall : v ∈ walkAll position 1 arguments :=
        mem_walkAll.2 ⟨slot, e', h, by rwa [Nat.add_comm 1]⟩
      simp [walk, hall]
  | lambda params body l =>
    obtain ⟨rfl, heq⟩ := Option.ite_none_right_eq_some.1 h
    cases heq
    simp [walk, hv]
  | block statements result l => exact List.mem_cons_of_mem _ (mem_walk_of_slots h hv)
  | conditional condition thenBranch elseBranch l =>
    rcases slot with _ | _ | _ | slot
    · cases h
      simp [walk, hv]
    · cases h
      simp [walk, hv]
    · cases h
      simp [walk, hv]
    · cases h
  | letBinding x value ascription l =>
    cases slot with
    | zero =>
      cases h
      simp [walk, hv]
    | succ slot => cases h
  | definition f params returns body l =>
    obtain ⟨rfl, heq⟩ := Option.ite_none_right_eq_some.1 h
    cases heq
    simp [walk, hv]
  | discard expression l =>
    cases slot with
    | zero =>
      cases h
      simp [walk, hv]
    | succ slot => cases h
  | strayProgram statements result l => exact List.mem_cons_of_mem _ (mem_walk_of_slots h hv)
  | _ => cases h

end Term

/-! ## Errors and their nodes -/

/-- Nodes that errors may be put down to, and the terms that stand at positions among them. -/
structure Frame where
  visits : List Visit
  Stands : Position → Term → Prop
  child : ∀ {position : Position} {e e' : Term} {slot : Nat}, Stands position e →
    e.child? slot = some e' → Stands (slot :: position) e'

namespace Frame

/-- A node belongs to the frame. -/
def Has (F : Frame) (site : Site) : Prop := ∃ v ∈ F.visits, v.site = site

/-- A term stands in the frame with all its nodes. -/
structure Holds (F : Frame) (e : Term) (position : Position) : Prop where
  stands : F.Stands position e
  nodes : ∀ v ∈ e.walk position, v ∈ F.visits

/-- An error is put down to a node of the frame, given the types that are on record. -/
inductive Attributed (F : Frame) (record : List (Site × Ty)) : TypeError → Prop
  | unbound {x : String} {site : Site} : F.Has site →
    Attributed F record (.placed (.unbound x) site)
  | unknownType {x : String} {site : Site} : F.Has site →
    Attributed F record (.placed (.unknownType x) site)
  | clash {expected actual : Ty} {cause : Clash} {site : Site} : F.Has site →
    unify expected actual = .error cause → Attributed F record (.placed (.clash cause) site)
  /-- The blame falls on the conditional. -/
  | branches {position : Position} {condition thenBranch elseBranch : Term} {l : Option Location}
      {s : Subst} {t thenType elseType : Ty} {cause : Clash} :
    F.Holds (.conditional condition thenBranch elseBranch l) position →
    (thenBranch.site (1 :: position), t) ∈ record → s.expand? t = some thenType →
    (elseBranch.site (2 :: position), elseType) ∈ record →
    unify thenType elseType = .error cause →
    Attributed F record
      (.placed (.branches thenType elseType cause) ⟨⟨.conditional, l⟩, position⟩)
  /-- The blame falls on the result of the body, or on the definition if there is none. -/
  | returns {position : Position} {f : String} {params : List Param} {returns : Option TypeExpr}
      {body : Term} {l : Option Location} {declared inferred : Ty} {cause : Clash} {site : Site} :
    F.Holds (.definition f params returns body l) position →
    Infer.resultSite? ⟨⟨.definition, l⟩, position⟩ body ((params.length + 1) :: position) =
      some site →
    (body.site ((params.length + 1) :: position), inferred) ∈ record →
    unify declared inferred = .error cause →
    Attributed F record (.placed (.returns declared inferred cause) site)

variable {F : Frame} {e e' : Term} {position : Position} {slot : Nat}

theorem Holds.has (h : F.Holds e position) : F.Has (e.site position) := by
  obtain ⟨v, hv, hsite⟩ := e.exists_visit position
  exact ⟨v, h.nodes v hv, hsite⟩

theorem Holds.child (h : F.Holds e position) (hc : e.child? slot = some e') :
    F.Holds e' (slot :: position) :=
  ⟨F.child h.stands hc, fun v hv => h.nodes v (Term.mem_walk_of_child hc hv)⟩

/-- The result of a definition's body is a node of the definition. -/
theorem Holds.has_result {f : String} {params : List Param} {returns : Option TypeExpr}
    {body : Term} {l : Option Location} (h : F.Holds (.definition f params returns body l) position)
    {site : Site} (hsite : Infer.resultSite? ⟨⟨.definition, l⟩, position⟩ body
      ((params.length + 1) :: position) = some site) : F.Has site := by
  have hbody : F.Holds body ((params.length + 1) :: position) := h.child (by simp [Term.child?])
  unfold Infer.resultSite? at hsite
  split at hsite
  · cases hsite
    exact (hbody.child (by simp [Term.child?])).has
  · cases hsite
    exact h.has
  · cases hsite

/-- An error that is put down to a node of the frame has that node. -/
theorem Attributed.exists_visit {record : List (Site × Ty)} {error : TypeError}
    (h : F.Attributed record error) : ∃ v ∈ F.visits, error.site = some v.site := by
  have hplaced : ∀ {reason : Reason} {site : Site}, F.Has site →
      ∃ v ∈ F.visits, (TypeError.placed reason site).site = some v.site := by
    rintro reason _ ⟨v, hv, rfl⟩
    exact ⟨v, hv, rfl⟩
  cases h with
  | unbound h | unknownType h | clash h _ => exact hplaced h
  | branches h _ _ _ _ => exact hplaced h.has
  | returns h hsite _ _ => exact hplaced (h.has_result hsite)

end Frame

/-! ## Errors of annotations -/

section

variable {ε σ α β : Type} {E : ε → Prop} {x : EStateM ε σ α} {k : α → EStateM ε σ β}

/-- Every error in which a step ends is as the condition says. -/
def Errs (E : ε → Prop) (x : EStateM ε σ α) : Prop :=
  Leads (fun _ => ()) x () (fun _ _ => True) E

theorem Errs.bind (hx : Errs E x) (hk : ∀ a, Errs E (k a)) : Errs E (x >>= k) :=
  Leads.bind hx fun a _ _ => hk a

theorem errs_pure (a : α) : Errs E (pure a : EStateM ε σ α) := leads_pure trivial

theorem errs_throw {e : ε} (h : E e) : Errs E (throw e : EStateM ε σ α) := leads_throw h

end

namespace Frame

/-- A name of a type is not known, at a node of the frame. -/
def Unknown (F : Frame) (error : TypeError) : Prop :=
  ∃ x site, F.Has site ∧ error = .placed (.unknownType x) site

variable {F : Frame} {baseTypes : List String}

theorem errs_fresh : Errs F.Unknown Naming.fresh := fun _ _ => trivial

theorem errs_quoted (x : String) : Errs F.Unknown (Naming.quoted x) := by
  intro s _
  have hrun : ∃ t s', Naming.quoted x s = .ok t s' := by
    rw [Naming.quoted_eq]
    cases s.scope.get? x <;> exact ⟨_, _, rfl⟩
  obtain ⟨t, s', hrun⟩ := hrun
  rw [hrun]
  trivial

mutual

/-- Reading an annotation fails at one of its nodes. -/
theorem errs_resolve {t : TypeExpr} {position : Position}
    (h : ∀ v ∈ t.walk position, v ∈ F.visits) :
    Errs F.Unknown (t.resolve baseTypes position) := by
  match t with
  | .named x l =>
    rw [TypeExpr.resolve]
    split
    · exact errs_pure _
    · exact errs_throw ⟨x, _, ⟨_, h _ List.mem_cons_self, rfl⟩, rfl⟩
  | .quoted x l => exact errs_quoted x
  | .arrow params result l =>
    simp only [TypeExpr.walk, List.forall_mem_cons, List.forall_mem_append] at h
    obtain ⟨-, hparams, hresult⟩ := h
    rw [TypeExpr.resolve]
    refine (errs_resolveTypes hparams).bind fun _ => ?_
    exact (errs_resolve hresult).bind fun _ => errs_pure _

theorem errs_resolveTypes {ts : List TypeExpr} {position : Position} {slot : Nat}
    (h : ∀ v ∈ TypeExpr.walkAll position slot ts, v ∈ F.visits) :
    Errs F.Unknown (TypeExpr.resolveAll baseTypes ts position slot) := by
  match ts with
  | [] => exact errs_pure _
  | t :: ts =>
    obtain ⟨ht, hts⟩ := List.forall_mem_append.1 h
    rw [TypeExpr.resolveAll]
    exact (errs_resolve ht).bind fun _ => (errs_resolveTypes hts).bind fun _ => errs_pure _

end

theorem errs_resolveOption {t : Option TypeExpr} {position : Position}
    (h : ∀ v ∈ TypeExpr.walkOption position t, v ∈ F.visits) :
    Errs F.Unknown (TypeExpr.resolveOption baseTypes t position) := by
  cases t with
  | none => exact errs_fresh
  | some t => exact errs_resolve h

theorem errs_resolveParams {params : List Param} {position : Position} {slot : Nat}
    (h : ∀ v ∈ Param.walkAll position slot params, v ∈ F.visits) :
    Errs F.Unknown (Param.resolveAll baseTypes params position slot) := by
  induction params generalizing slot with
  | nil => exact errs_pure _
  | cons p params ih =>
    simp only [Param.walkAll, Param.walk, List.cons_append, List.forall_mem_cons,
      List.forall_mem_append] at h
    obtain ⟨-, hp, hparams⟩ := h
    rw [Param.resolveAll]
    exact (errs_resolveOption hp).bind fun _ => (ih hparams).bind fun _ => errs_pure _

/-- Reading a signature fails at a node of one of its annotations. -/
theorem errs_signature {params : List Param} {returns : Option TypeExpr} {position : Position}
    (hparams : ∀ v ∈ Param.walkAll position 0 params, v ∈ F.visits)
    (hreturns : ∀ v ∈ TypeExpr.walkOption (params.length :: position) returns, v ∈ F.visits) :
    Errs F.Unknown (signature baseTypes params returns position) := by
  refine (errs_resolveParams hparams).bind fun _ => ?_
  exact (errs_resolveOption hreturns).bind fun _ => errs_pure _

end Frame

/-! ## Errors of steps -/

namespace Infer

variable {α β : Type} {F : Frame} {x : Infer α} {k : α → Infer β} {known : List (Site × Ty)}
  {news : α → List (Site × Ty)} {news' : β → List (Site × Ty)}

/-- From a state with the known types on record, a step leads to an answer and adds the types that
go with it, or to a failure which, if it is an error of types, is put down to a node of the
frame. -/
def Traces (F : Frame) (x : Infer α) (known : List (Site × Ty)) (news : α → List (Site × Ty)) :
    Prop :=
  ∀ s, known ⊆ s.types → match x s with
    | .ok a s' => news a ++ known ⊆ s'.types
    | .error failure s' => ∀ error, failure = .typeError error → F.Attributed s'.types error

/-- A step takes no type off the record and ends in no error of types. -/
def Silent (x : Infer α) : Prop :=
  ∀ s, match x s with
    | .ok _ s' => s.types ⊆ s'.types
    | .error failure _ => ∀ error, failure ≠ .typeError error

theorem Traces.bind (hx : Traces F x known news)
    (hk : ∀ a, Traces F (k a) (news a ++ known) news') : Traces F (x >>= k) known news' := by
  intro s hs
  have hfirst := hx s hs
  rcases hrun : x s with ⟨a, s'⟩ | ⟨failure, s'⟩
  · rw [hrun] at hfirst
    rw [bind_of_ok hrun]
    have hsecond := hk a s' hfirst
    rcases hrun' : k a s' with ⟨b, s''⟩ | ⟨failure, s''⟩
    · rw [hrun'] at hsecond
      obtain ⟨hnews, hrest⟩ := List.append_subset.1 hsecond
      exact List.append_subset.2 ⟨hnews, (List.append_subset.1 hrest).2⟩
    · rw [hrun'] at hsecond
      exact hsecond
  · rw [hrun] at hfirst
    rw [bind_of_error hrun]
    exact hfirst

theorem Traces.of_error (h : Traces F x [] news) {s s' : InferState} {error : TypeError}
    (hrun : x s = .error (.typeError error) s') : F.Attributed s'.types error := by
  have hend := h s (List.nil_subset _)
  rw [hrun] at hend
  exact hend error rfl

theorem Silent.traces (h : Silent x) : Traces F x known fun _ => [] := by
  intro s hs
  have hrun := h s
  rcases hx : x s with ⟨a, s'⟩ | ⟨failure, s'⟩
  · rw [hx] at hrun
    exact List.Subset.trans hs hrun
  · rw [hx] at hrun
    exact fun error herror => absurd herror (hrun error)

theorem Silent.bind (hx : Silent x) (hk : ∀ a, Traces F (k a) known news') :
    Traces F (x >>= k) known news' :=
  hx.traces.bind hk

theorem silent_bind (hx : Silent x) (hk : ∀ a, Silent (k a)) : Silent (x >>= k) := by
  intro s
  have hfirst := hx s
  rcases hrun : x s with ⟨a, s'⟩ | ⟨failure, s'⟩
  · rw [hrun] at hfirst
    rw [bind_of_ok hrun]
    have hsecond := hk a s'
    rcases hrun' : k a s' with ⟨b, s''⟩ | ⟨failure, s''⟩
    · rw [hrun'] at hsecond
      exact List.Subset.trans hfirst hsecond
    · rw [hrun'] at hsecond
      exact hsecond
  · rw [hrun] at hfirst
    rw [bind_of_error hrun]
    exact hfirst

theorem silent_pure (a : α) : Silent (pure a : Infer α) := fun s => List.Subset.refl s.types

theorem silent_orCyclic (o : Option α) : Silent (orCyclic o) := by
  cases o with
  | none => exact fun _ => nofun
  | some a => exact silent_pure a

theorem silent_note (event : Event) : Silent (note event) := by
  intro s
  show s.types ⊆ InferState.types ⟨s.next, s.journal ++ [event]⟩
  rw [types_noteAll]
  exact List.subset_append_left _ _

theorem silent_fresh : Silent fresh := fun s => List.Subset.refl s.types

theorem silent_freshMany (n : Nat) : Silent (freshMany n) := by
  induction n with
  | zero => exact silent_pure []
  | succ n ih => exact silent_bind silent_fresh fun t => silent_bind ih fun ts => silent_pure _

theorem silent_instantiate (scheme : Scheme) : Silent (instantiate scheme) := fun s =>
  silent_orCyclic (scheme.instantiate? s.next).1 { s with next := (scheme.instantiate? s.next).2 }

theorem silent_noteParams (position : Position) (slot : Nat) (params : List Param)
    (types : List Ty) : Silent (noteParams position slot params types) := by
  induction params generalizing slot types with
  | nil => exact silent_pure ()
  | cons p params ih =>
    cases types with
    | nil => exact silent_pure ()
    | cons t types => exact silent_bind (silent_note _) fun _ => ih (slot + 1) types

theorem traces_pure (a : α) : Traces F (pure a : Infer α) known fun _ => [] := fun _ hs => hs

theorem traces_throw {failure : InferFailure}
    (h : ∀ record error, failure = .typeError error → F.Attributed record error) :
    Traces F (throw failure : Infer α) known news := fun s _ => h s.types

/-- The answer of a substitution that is there. -/
theorem bind_orCyclic {o : Option α} (hk : ∀ a, o = some a → Traces F (k a) known news') :
    Traces F (orCyclic o >>= k) known news' := by
  cases o with
  | none => exact traces_throw fun _ _ => nofun
  | some a => exact hk a rfl

theorem traces_conclude (site : Site) (s : Subst) (t : Ty) :
    Traces F (conclude site s t) known fun answer => [(site, answer.2)] := by
  intro state hstate
  show (site, t) :: known ⊆ InferState.types ⟨state.next, state.journal ++ [Event.typed site t]⟩
  rw [types_noteAll]
  refine List.cons_subset.2 ⟨by simp [Event.typed?], fun entry hentry => ?_⟩
  exact List.mem_append_left _ (hstate hentry)

theorem traces_reading {step : Naming.Step α} (h : Errs F.Unknown step) :
    Traces F (reading step) known fun _ => [] := by
  intro s hs
  have hstep := h ⟨s.next, Table.empty⟩ rfl
  unfold reading
  rcases hrun : step ⟨s.next, Table.empty⟩ with ⟨a, naming⟩ | ⟨e, naming⟩
  · exact hs
  · rw [hrun] at hstep
    obtain ⟨x, site, hsite, rfl⟩ := hstep
    intro error herror
    cases herror
    exact .unknownType hsite

/-- A clash is found with the known types on record. -/
theorem traces_unifyOr {expected actual : Ty} {blame : Clash → InferFailure}
    (h : ∀ record cause error, known ⊆ record → unify expected actual = .error cause →
      blame cause = .typeError error → F.Attributed record error) :
    Traces F (unifyOr expected actual blame) known fun _ => [] := by
  intro s hs
  have hnote : ∀ e ∈ (Unify.compared [(expected, actual)]).map Event.compared, e.typed? = none := by
    intro e he
    obtain ⟨equation, -, rfl⟩ := List.mem_map.1 he
    rfl
  have htypes : known ⊆ InferState.types
      ⟨s.next, s.journal ++ (Unify.compared [(expected, actual)]).map Event.compared⟩ := by
    rw [types_noteAll, List.filterMap_eq_nil_iff.2 hnote, List.append_nil]
    exact hs
  unfold unifyOr
  rcases hunify : unify expected actual with cause | s₁
  · exact fun error herror => h _ cause error htypes hunify herror
  · exact htypes

theorem traces_unifyAt {site : Site} (h : F.Has site) (expected actual : Ty) :
    Traces F (unifyAt expected actual site) known fun _ => [] := by
  refine traces_unifyOr fun record cause error _ hunify herror => ?_
  cases herror
  exact .clash h hunify

/-! ## Errors of trees -/

variable {rules : Rules}

/-- Inference on an expression of the frame puts its answer on record, or an error down to a node
of the frame. -/
def TracesInfer (F : Frame) (rules : Rules) (e : Term) : Prop :=
  ∀ env position known, F.Holds e position →
    Traces F (infer rules e env position) known fun answer => [(e.site position, answer.2)]

/-- The check of a statement of the frame puts its errors down to nodes of the frame. -/
def TracesCheck (F : Frame) (rules : Rules) (e : Term) : Prop :=
  ∀ env position known, F.Holds e position →
    Traces F (check rules e env position) known fun _ => []

theorem traces_argument {e : Term} (he : TracesInfer F rules e) {position : Position}
    (h : F.Holds e position) (param : Ty) (s : Subst) (env : Env) :
    Traces F (argument (fun env => infer rules e env position) (e.site position) param s env) known
      fun _ => [] := by
  refine (silent_orCyclic _).bind fun inner => (he inner position known h).bind fun answer => ?_
  refine (silent_orCyclic _).bind fun s => (silent_orCyclic _).bind fun t => ?_
  exact (traces_unifyAt h.has _ _).bind fun s' => (silent_orCyclic _).traces

theorem traces_inferAll {es : List Term} (hes : ∀ e ∈ es, TracesInfer F rules e)
    {position : Position} {slot : Nat}
    (h : ∀ (i : Nat) (e : Term), es[i]? = some e → F.Holds e ((slot + i) :: position))
    (params : List Ty) (s : Subst) (env : Env) :
    Traces F (inferAll rules es params s env position slot) known fun _ => [] := by
  induction es generalizing params s slot with
  | nil =>
    rw [inferAll]
    · exact traces_pure s
    · simp
  | cons e es ih =>
    obtain ⟨he, hes⟩ := List.forall_mem_cons.1 hes
    cases params with
    | nil =>
      rw [inferAll]
      · exact traces_pure s
      · simp
    | cons param params =>
      rw [inferAll]
      refine (traces_argument he (h 0 e rfl) _ _ _).bind fun s => ?_
      refine ih hes (fun i e' he' => ?_) params s
      rw [Nat.add_right_comm]
      exact h (i + 1) e' he'

theorem traces_checkAll {es : List Term} (hes : ∀ e ∈ es, TracesCheck F rules e)
    {position : Position} {slot : Nat}
    (h : ∀ (i : Nat) (e : Term), es[i]? = some e → F.Holds e ((slot + i) :: position))
    (env : Env) (s : Subst) :
    Traces F (checkAll rules es env position slot s) known fun _ => [] := by
  induction es generalizing env s slot with
  | nil => exact traces_pure _
  | cons e es ih =>
    obtain ⟨he, hes⟩ := List.forall_mem_cons.1 hes
    rw [checkAll]
    refine (he _ _ _ (h 0 e rfl)).bind fun answer => (silent_orCyclic _).bind fun s => ?_
    refine ih hes (fun i e' he' => ?_) _ s
    rw [Nat.add_right_comm]
    exact h (i + 1) e' he'

theorem traces_name (x : String) (l : Option Location) : TracesInfer F rules (.name x l) := by
  intro env position known h
  rw [infer]
  rcases env.get? x with _ | scheme
  · refine traces_throw fun record error herror => ?_
    cases herror
    exact .unbound h.has
  · exact (silent_instantiate scheme).bind fun t => traces_conclude _ _ t

theorem traces_binary {left right : Term} (hleft : TracesInfer F rules left)
    (hright : TracesInfer F rules right) (operator : String) (l : Option Location) :
    TracesInfer F rules (.binary left operator right l) := by
  intro env position known h
  have hl : F.Holds left (0 :: position) := h.child rfl
  have hr : F.Holds right (1 :: position) := h.child rfl
  rw [infer]
  rcases rules.operators.get? operator with _ | scheme
  · refine traces_throw fun record error herror => ?_
    cases herror
    exact .unbound h.has
  refine (silent_instantiate scheme).bind fun t => ?_
  rcases t with _ | _ | ⟨params, result⟩
  · exact traces_throw fun _ _ => nofun
  · exact traces_throw fun _ _ => nofun
  have hend : ∀ s known, Traces F
      (do conclude ⟨⟨.binary, l⟩, position⟩ s (← apply s result)) known
        fun answer => [((Term.binary left operator right l).site position, answer.2)] :=
    fun s known => (silent_orCyclic _).bind fun t => traces_conclude _ s t
  rcases params with _ | ⟨p, _ | ⟨q, more⟩⟩
  · exact hend _ _
  · exact (traces_argument hleft hl _ _ _).bind fun s => hend s _
  · refine (traces_argument hleft hl _ _ _).bind fun s => ?_
    exact (traces_argument hright hr _ _ _).bind fun s => hend s _

theorem traces_call {callee : Term} (hcallee : TracesInfer F rules callee) {arguments : List Term}
    (harguments : ∀ e ∈ arguments, TracesInfer F rules e) (l : Option Location) :
    TracesInfer F rules (.call callee arguments l) := by
  intro env position known h
  rw [infer]
  refine (hcallee env _ _ (h.child rfl)).bind fun answer => ?_
  refine (silent_freshMany _).bind fun params => silent_fresh.bind fun result => ?_
  refine (traces_unifyAt h.has _ _).bind fun s => (silent_orCyclic _).bind fun s => ?_
  refine (traces_inferAll harguments (fun i e he => ?_) params s env).bind fun s => ?_
  · rw [Nat.add_comm]
    exact h.child he
  · exact (silent_orCyclic _).bind fun t => traces_conclude _ s t

theorem traces_lambda {body : Term} (hbody : TracesInfer F rules body) (params : List Param)
    (l : Option Location) : TracesInfer F rules (.lambda params body l) := by
  intro env position known h
  have hb : F.Holds body (params.length :: position) := h.child (by simp [Term.child?])
  have hparams : ∀ v ∈ Param.walkAll position 0 params, v ∈ F.visits := fun v hv =>
    h.nodes v (by simp [Term.walk, hv])
  rw [infer]
  refine (traces_reading (Frame.errs_resolveParams hparams)).bind fun types => ?_
  refine (silent_noteParams _ _ _ _).bind fun _ => (hbody _ _ _ hb).bind fun answer => ?_
  exact (silent_orCyclic _).bind fun types => traces_conclude _ _ _

theorem traces_unit {statements : List Term} (hs : ∀ e ∈ statements, TracesCheck F rules e)
    (l : Option Location) : TracesInfer F rules (.block statements none l) := by
  intro env position known h
  rw [infer]
  refine (traces_checkAll hs (fun i e he => ?_) env _).bind fun answer => traces_conclude _ _ _
  rw [Nat.zero_add]
  exact h.child (by simpa [Term.child?] using he)

theorem traces_block {statements : List Term} (hs : ∀ e ∈ statements, TracesCheck F rules e)
    {result : Term} (hresult : TracesInfer F rules result) (l : Option Location) :
    TracesInfer F rules (.block statements (some result) l) := by
  intro env position known h
  rw [infer]
  refine (traces_checkAll hs (fun i e he => ?_) env _).bind fun answer => ?_
  · rw [Nat.zero_add]
    refine h.child ?_
    rw [Term.child?, List.getElem?_append_left (List.getElem?_eq_some_iff.1 he).1, he]
  · refine (hresult _ _ _ (h.child (by simp [Term.child?]))).bind fun answer => ?_
    exact (silent_orCyclic _).bind fun s => traces_conclude _ _ _

/-- When the branches clash, the type of each is on record. -/
theorem traces_conditional {condition thenBranch elseBranch : Term}
    (hcond : TracesInfer F rules condition) (hthen : TracesInfer F rules thenBranch)
    (helse : TracesInfer F rules elseBranch) (l : Option Location) :
    TracesInfer F rules (.conditional condition thenBranch elseBranch l) := by
  intro env position known h
  have hc : F.Holds condition (0 :: position) := h.child rfl
  rw [infer]
  refine (hcond _ _ _ hc).bind fun answer => (traces_unifyAt hc.has _ _).bind fun s => ?_
  refine (silent_orCyclic _).bind fun s => (silent_orCyclic _).bind fun env => ?_
  refine (hthen _ _ _ (h.child rfl)).bind fun first => (silent_orCyclic _).bind fun s => ?_
  refine (silent_orCyclic _).bind fun env => (helse _ _ _ (h.child rfl)).bind fun second => ?_
  refine (silent_orCyclic _).bind fun s => bind_orCyclic fun thenType happly => ?_
  refine (traces_unifyOr fun record cause error hrecord hunify herror => ?_).bind fun s => ?_
  · cases herror
    exact .branches h (hrecord (by simp)) happly (hrecord (by simp)) hunify
  · refine (silent_orCyclic _).bind fun s => (silent_orCyclic _).bind fun t => ?_
    exact traces_conclude _ _ _

theorem traces_discard {value : Term} (hvalue : TracesInfer F rules value) (l : Option Location) :
    TracesCheck F rules (.discard value l) := by
  intro env position known h
  rw [check]
  refine (hvalue _ _ _ (h.child rfl)).bind fun answer => (silent_note _).bind fun _ => ?_
  exact (silent_orCyclic _).bind fun env => traces_pure _

/-- What a binding does last. -/
theorem silent_binding (site : Site) (t : Ty) (word : Keyword) (x : String) (scheme : Scheme)
    (answer : Subst × Env) :
    Silent (do note (.typed site t); note (.bound word x scheme); pure answer) :=
  silent_bind (silent_note _) fun _ => silent_bind (silent_note _) fun _ => silent_pure answer

theorem traces_let {value : Term} (hvalue : TracesInfer F rules value) (x : String)
    (ascription : Option TypeExpr) (l : Option Location) :
    TracesCheck F rules (.letBinding x value ascription l) := by
  intro env position known h
  have hv : F.Holds value (0 :: position) := h.child rfl
  cases ascription with
  | none =>
    rw [check]
    refine (hvalue _ _ _ hv).bind fun answer => (silent_orCyclic _).bind fun outer => ?_
    exact (silent_binding _ _ _ _ _ _).traces
  | some ascription =>
    have hnodes : ∀ v ∈ ascription.walk (1 :: position), v ∈ F.visits := fun v hv =>
      h.nodes v (by simp [Term.walk, TypeExpr.walkOption, hv])
    rw [check]
    refine (hvalue _ _ _ hv).bind fun answer => ?_
    refine (traces_reading (Frame.errs_resolve hnodes)).bind fun declared => ?_
    refine (traces_unifyAt hv.has _ _).bind fun s => (silent_orCyclic _).bind fun s => ?_
    refine (silent_orCyclic _).bind fun t => (silent_orCyclic _).bind fun outer => ?_
    exact (silent_binding _ _ _ _ _ _).traces

/-- When the body clashes with the declared type, the type of the body is on record. -/
theorem traces_definition {body : Term} (hbody : TracesInfer F rules body) (f : String)
    (params : List Param) (returns : Option TypeExpr) (l : Option Location) :
    TracesCheck F rules (.definition f params returns body l) := by
  intro env position known h
  have hb : F.Holds body ((params.length + 1) :: position) := h.child (by simp [Term.child?])
  have hparams : ∀ v ∈ Param.walkAll position 0 params, v ∈ F.visits := fun v hv =>
    h.nodes v (by simp [Term.walk, hv])
  have hreturns : ∀ v ∈ TypeExpr.walkOption (params.length :: position) returns, v ∈ F.visits :=
    fun v hv => h.nodes v (by simp [Term.walk, hv])
  rw [check]
  refine (traces_reading (Frame.errs_signature hparams hreturns)).bind fun signature => ?_
  refine (silent_noteParams _ _ _ _).bind fun _ => (hbody _ _ _ hb).bind fun answer => ?_
  refine (silent_orCyclic _).bind fun declared => ?_
  refine (traces_unifyOr fun record cause error hrecord hunify herror => ?_).bind fun s => ?_
  · rcases hsite : resultSite? ⟨⟨.definition, l⟩, position⟩ body ((params.length + 1) :: position)
      with _ | site
    · simp [hsite] at herror
    · simp only [hsite, InferFailure.typeError.injEq] at herror
      subst herror
      exact .returns h hsite (hrecord (by simp)) hunify
  · refine (silent_orCyclic _).bind fun s => (silent_orCyclic _).bind fun outer => ?_
    exact (silent_orCyclic _).bind fun final => (silent_binding _ _ _ _ _ _).traces

mutual

/-- Inference on an expression puts its errors down to nodes of the tree. -/
theorem tracesInfer (F : Frame) (rules : Rules) (e : Term) : TracesInfer F rules e := by
  match e with
  | .number k l | .boolean k l =>
    intro env position known h
    rw [infer]
    exact traces_conclude _ _ _
  | .name x l => exact traces_name x l
  | .binary left operator right l =>
    exact traces_binary (tracesInfer F rules left) (tracesInfer F rules right) operator l
  | .call callee arguments l =>
    exact traces_call (tracesInfer F rules callee) (tracesInferAll F rules arguments) l
  | .lambda params body l => exact traces_lambda (tracesInfer F rules body) params l
  | .block statements none l => exact traces_unit (tracesCheckAll F rules statements) l
  | .block statements (some result) l =>
    exact traces_block (tracesCheckAll F rules statements) (tracesInfer F rules result) l
  | .conditional condition thenBranch elseBranch l =>
    exact traces_conditional (tracesInfer F rules condition) (tracesInfer F rules thenBranch)
      (tracesInfer F rules elseBranch) l
  | .letBinding .. | .definition .. | .discard .. | .strayParam _ | .strayType _
  | .strayProgram .. =>
    intro env position known h
    rw [infer]
    · exact traces_throw fun _ _ => nofun
    all_goals simp

/-- The check of a statement puts its errors down to nodes of the tree. -/
theorem tracesCheck (F : Frame) (rules : Rules) (e : Term) : TracesCheck F rules e := by
  match e with
  | .discard value l => exact traces_discard (tracesInfer F rules value) l
  | .letBinding x value ascription l =>
    exact traces_let (tracesInfer F rules value) x ascription l
  | .definition f params returns body l =>
    exact traces_definition (tracesInfer F rules body) f params returns l
  | .number .. | .boolean .. | .name .. | .binary .. | .call .. | .lambda .. | .block ..
  | .conditional .. | .strayParam _ | .strayType _ | .strayProgram .. =>
    intro env position known h
    rw [check]
    · exact traces_throw fun _ _ => nofun
    all_goals simp

theorem tracesInferAll (F : Frame) (rules : Rules) (es : List Term) :
    ∀ e ∈ es, TracesInfer F rules e := by
  match es with
  | [] => simp
  | e :: es => exact List.forall_mem_cons.2 ⟨tracesInfer F rules e, tracesInferAll F rules es⟩

theorem tracesCheckAll (F : Frame) (rules : Rules) (es : List Term) :
    ∀ e ∈ es, TracesCheck F rules e := by
  match es with
  | [] => simp
  | e :: es => exact List.forall_mem_cons.2 ⟨tracesCheck F rules e, tracesCheckAll F rules es⟩

end

end Infer

end LetPoly
