-- Type safety: a program that is checked without error ends in a value of its type, in
-- a division by zero or at the depth limit. A closure has a type if its scope agrees
-- with an environment in which the body has one; every step of evaluation keeps the
-- agreement, and so does every call, however deep.
import LetPoly.Eval
import LetPoly.Proofs.CheckedPrograms

namespace LetPoly

/-! ## Values of a type -/

mutual

/-- A value has a type. A closure has one if its body does, in an environment that its scope
agrees with. -/
inductive Value.Typed (rules : Rules) : Value → Ty → Prop
  | unit : Value.Typed rules .unit .unit
  | boolean {b : Bool} : Value.Typed rules (.boolean b) .bool
  | number {n : Int} : Value.Typed rules (.number n) .number
  | closure {id : Nat} {name : String} {params : List Param} {body : Term} {scope : Scope}
      {env : Env} {types : List Ty} {t : Ty} :
    Scope.Typed rules scope env → params.length = types.length →
    HasType rules (Infer.withParams env params types) body t →
    Value.Typed rules (.closure id name (params.map (·.name)) body scope) (.fn types t)

/-- A scope agrees with an environment: they were built in step, and each value has all instances
of its scheme. A defined function is as in the rule for definitions. -/
inductive Scope.Typed (rules : Rules) : Scope → Env → Prop
  | empty : Scope.Typed rules .empty Table.empty
  | bind {x : String} {v : Value} {scope : Scope} {env : Env} {scheme : Scheme} :
    Scope.Typed rules scope env → (∀ t, scheme.Instance t → Value.Typed rules v t) →
    Scope.Typed rules (.bind x v scope) (env.insert x scheme)
  | define {id : Nat} {f : String} {params : List Param} {body : Term} {scope : Scope} {env : Env}
      {types : List Ty} {t : Ty} :
    Scope.Typed rules scope env → params.length = types.length →
    HasType rules (Infer.withParams (env.insert f (.mono (.fn types t))) params types) body t →
    Scope.Typed rules (.define id f (params.map (·.name)) body scope)
      (env.insert f (env.generalize (.fn types t)))

end

/-- A value is of the kind that a type tells. No value is of a type variable's kind, or of that of
a base type beyond the three of the language. -/
inductive Value.Inhabits : Value → Ty → Prop
  | unit : Value.Inhabits .unit .unit
  | boolean (b : Bool) : Value.Inhabits (.boolean b) .bool
  | number (n : Int) : Value.Inhabits (.number n) .number
  | closure {id : Nat} {name : String} {params : List String} {body : Term} {scope : Scope}
      {types : List Ty} {t : Ty} :
    params.length = types.length →
    Value.Inhabits (.closure id name params body scope) (.fn types t)

section

variable {rules : Rules}

theorem Value.Typed.inhabits {v : Value} {t : Ty} (h : v.Typed rules t) : v.Inhabits t := by
  cases h with
  | unit => exact .unit
  | boolean => exact .boolean _
  | number => exact .number _
  | closure _ hl _ => exact .closure (by simpa using hl)

theorem Value.Typed.eq_number {v : Value} (h : v.Typed rules .number) : ∃ n, v = .number n := by
  generalize ht : Ty.number = t at h
  cases h with
  | unit => exact absurd ht (by decide)
  | boolean => exact absurd ht (by decide)
  | number => exact ⟨_, rfl⟩
  | closure => cases ht

theorem Value.Typed.eq_closure {v : Value} {types : List Ty} {t : Ty}
    (h : v.Typed rules (.fn types t)) :
    ∃ id name params body scope env, v = .closure id name (List.map Param.name params) body scope ∧
      Scope.Typed rules scope env ∧ params.length = types.length ∧
      HasType rules (Infer.withParams env params types) body t := by
  cases h with
  | closure hs hl hb => exact ⟨_, _, _, _, _, _, rfl, hs, hl, hb⟩

/-- A closure without parameters has the type of a function without parameters. -/
theorem Value.Typed.eq_fn {id : Nat} {name : String} {body : Term} {scope : Scope} {t : Ty}
    (h : (Value.closure id name [] body scope).Typed rules t) : ∃ result, t = .fn [] result := by
  cases h.inhabits with
  | closure hl =>
    rw [List.length_nil, eq_comm, List.length_eq_zero_iff] at hl
    exact ⟨_, by rw [hl]⟩

/-! ## Generalized types -/

theorem Env.fixed_of_instance {env : Env} {t u : Ty} (h : (env.generalize t).Instance u) :
    ∃ g : Int → Ty, (∀ v ∈ env.freeVars, g v = .var v) ∧ u = t.subst g ∧
      (Scheme.mono t).AtLeast g (env.generalize t) := by
  obtain ⟨g, hg, rfl⟩ := h
  have hfix : ∀ v ∈ env.freeVars, g v = .var v := fun v hv =>
    hg v fun hq => (mem_quantified_generalize.1 hq).2 hv
  refine ⟨g, hfix, rfl, fun u hu => ?_⟩
  rw [Scheme.reaches_mono] at hu
  exact ⟨g, hg, hu⟩

/-- An expression has all instances of its generalized type. -/
theorem HasType.of_instance (hr : rules.Proper) {env : Env} {e : Term} {t u : Ty}
    (h : HasType rules env e t) (hu : (env.generalize t).Instance u) : HasType rules env e u := by
  obtain ⟨g, hg, rfl, -⟩ := Env.fixed_of_instance hu
  exact h.subst hr (Env.atLeast_of_fixed hg)

/-- The body of a definition may use the function at all instances, not at one type only. -/
theorem HasType.of_instance_inner (hr : rules.Proper) {env : Env} {f : String}
    {params : List Param} {body : Term} {types types' : List Ty} {t t' : Ty}
    (h : HasType rules (Infer.withParams (env.insert f (.mono (.fn types t))) params types) body t)
    (hu : (env.generalize (.fn types t)).Instance (.fn types' t')) :
    HasType rules (Infer.withParams (env.insert f (env.generalize (.fn types t))) params types')
      body t' := by
  obtain ⟨g, hg, he, hle⟩ := Env.fixed_of_instance hu
  rw [Ty.subst_fn, Ty.fn.injEq] at he
  obtain ⟨rfl, rfl⟩ := he
  have hin := (Env.atLeast_of_fixed hg).insert f hle
  exact h.subst hr (Infer.rel_withParams (Scheme.atLeast_mono g) hin params types)

/-! ## Names -/

/-- A name stands in a scope just if it stands in the environment, and its value then has all
instances of its scheme. -/
theorem Scope.Typed.agrees (hr : rules.Proper) {scope : Scope} {env : Env}
    (h : scope.Typed rules env) (x : String) :
    Option.Rel (fun v scheme => ∀ t, Scheme.Instance scheme t → Value.Typed rules v t)
      (scope.get? x) (env.get? x) := by
  match h with
  | .empty => exact .none
  | .bind hs hv =>
    rw [Scope.get?, Table.get?_insert]
    split
    · exact .some hv
    · exact Scope.Typed.agrees hr hs x
  | .define hs hl hb =>
    rw [Scope.get?, Table.get?_insert]
    split
    · refine .some fun u hu => ?_
      obtain ⟨g, -, rfl, -⟩ := Env.fixed_of_instance hu
      rw [Ty.subst_fn] at hu ⊢
      -- the closure sees itself in its scope, at all instances
      exact .closure (.define hs hl hb) (by simpa using hl) (hb.of_instance_inner hr hu)
    · exact Scope.Typed.agrees hr hs x

theorem Scope.Typed.get?_some (hr : rules.Proper) {scope : Scope} {env : Env}
    (h : scope.Typed rules env) {x : String} {scheme : Scheme} (hx : env.get? x = some scheme) :
    ∃ v, scope.get? x = some v ∧ ∀ t, scheme.Instance t → v.Typed rules t := by
  have hrel := h.agrees hr x
  rw [hx] at hrel
  rcases hv : scope.get? x with _ | v
  · rw [hv] at hrel
    cases hrel
  · rw [hv] at hrel
    cases hrel with
    | some hall => exact ⟨v, rfl, hall⟩

theorem Scope.Typed.get?_none (hr : rules.Proper) {scope : Scope} {env : Env}
    (h : scope.Typed rules env) {x : String} (hx : env.get? x = none) : scope.get? x = none := by
  have hrel := h.agrees hr x
  rw [hx] at hrel
  rcases hv : scope.get? x with _ | v
  · rfl
  · rw [hv] at hrel
    cases hrel

/-- Arguments are bound as their types are. Of equal names the last counts in both. -/
theorem Scope.Typed.bindAll {scope : Scope} {env : Env} (h : scope.Typed rules env)
    (params : List Param) {args : List Value} {types : List Ty}
    (ha : List.Forall₂ (Value.Typed rules) args types) :
    (scope.bindAll ((params.map (·.name)).zip args)).Typed rules
      (Infer.withParams env params types) := by
  induction params generalizing scope env args types with
  | nil => exact h
  | cons p params ih =>
    cases ha with
    | nil => exact h
    | cons hv ha =>
      refine ih (h.bind fun u hu => ?_) ha
      rw [Scheme.instance_mono.1 hu]
      exact hv

end

namespace Eval

/-! ## Safe steps -/

/-- How a run may end without a value although there is no type error. -/
def Excused (failure : EvalFailure) : Prop :=
  failure = .tooDeep ∨ ∃ node, failure = .error ⟨.divisionByZero, node⟩

/-- A step of evaluation gives an answer as the condition says, or ends in an excused failure. The
numbers of closures do not matter. -/
abbrev Safe {α : Type} (x : Eval α) (P : α → Prop) : Prop :=
  Leads (fun _ => ()) x () (fun a _ => P a) Excused

/-- Calls of functions at their types are safe. -/
def SafeCaller (rules : Rules) (call : Caller) : Prop :=
  ∀ f args node types t, Value.Typed rules f (.fn types t) →
    List.Forall₂ (Value.Typed rules) args types → Safe (call f args node) (Value.Typed rules · t)

variable {rules : Rules}

theorem safe_freshId : Safe freshId fun _ => True :=
  fun _ _ => trivial

theorem safe_arithmetic {operator : String} {f : Int → Int → Value} {a b : Value} {t : Ty}
    (ha : a.Typed rules .number) (hb : b.Typed rules .number)
    (hf : ∀ m n, (f m n).Typed rules t) :
    Safe (arithmetic operator f a b) (Value.Typed rules · t) := by
  obtain ⟨m, rfl⟩ := ha.eq_number
  obtain ⟨n, rfl⟩ := hb.eq_number
  exact leads_pure (hf m n)

theorem safe_divide {a b : Value} (ha : a.Typed rules .number) (hb : b.Typed rules .number)
    (node : Tag) : Safe (divide a b node) (Value.Typed rules · .number) := by
  rw [divide]
  split
  · exact leads_throw (Or.inr ⟨node, rfl⟩)
  · exact safe_arithmetic ha hb fun _ _ => .number

/-- An operator gives a value of its result type. -/
theorem safe_operate {operator : String} {scheme : Scheme}
    (ho : Rules.standardOperators.get? operator = some scheme) {a b : Value} {s t u : Ty}
    (hi : scheme.Instance (.fn [s, t] u)) (ha : a.Typed rules s) (hb : b.Typed rules t)
    (node : Tag) : Safe (operate operator a b node) (Value.Typed rules · u) := by
  have hmem := Table.find?_mem ho
  simp only [Rules.standardOperators, List.mem_cons, Prod.mk.injEq, List.not_mem_nil,
    or_false] at hmem
  rcases hmem with ⟨rfl, rfl⟩ | ⟨rfl, rfl⟩ | ⟨rfl, rfl⟩ | ⟨rfl, rfl⟩ | ⟨rfl, rfl⟩ | ⟨rfl, rfl⟩ |
    ⟨rfl, rfl⟩ | ⟨rfl, rfl⟩ | ⟨rfl, rfl⟩ | ⟨rfl, rfl⟩
  all_goals first
    | obtain ⟨rfl, rfl, rfl⟩ := Rules.instance_numeric.1 hi
    | obtain ⟨rfl, rfl⟩ := Rules.instance_equality.1 hi
  · exact safe_arithmetic ha hb fun _ _ => .number
  · exact safe_arithmetic ha hb fun _ _ => .number
  · exact safe_arithmetic ha hb fun _ _ => .number
  · exact safe_divide ha hb node
  · exact safe_arithmetic ha hb fun _ _ => .boolean
  · exact safe_arithmetic ha hb fun _ _ => .boolean
  · exact safe_arithmetic ha hb fun _ _ => .boolean
  · exact safe_arithmetic ha hb fun _ _ => .boolean
  · exact leads_pure .boolean
  · exact leads_pure .boolean

/-! ## Expressions and statements -/

section

variable {extraTypes : List String} {call : Caller}

mutual

/-- An expression has a value of its type, in every scope that agrees with the environment. -/
theorem safe_evaluate (hc : SafeCaller (.standard extraTypes) call) (e : Term) {scope : Scope}
    {env : Env} {t : Ty} (hs : scope.Typed (.standard extraTypes) env)
    (h : HasType (.standard extraTypes) env e t) :
    Safe (evaluate call e scope) (Value.Typed (.standard extraTypes) · t) := by
  match e with
  | .number n l =>
    cases h
    exact leads_pure .number
  | .boolean b l =>
    cases h
    exact leads_pure .boolean
  | .name x l =>
    cases h with
    | name hget hi =>
      obtain ⟨v, hv, hall⟩ := hs.get?_some (Rules.proper_standard extraTypes) hget
      rw [evaluate, hv]
      exact leads_pure (hall t hi)
  | .binary left operator right l =>
    cases h with
    | binary ho hi hl hr =>
      rw [evaluate]
      refine (safe_evaluate hc left hs hl).bind fun a _ ha => ?_
      refine (safe_evaluate hc right hs hr).bind fun b _ hb => ?_
      exact safe_operate ho hi ha hb _
  | .call callee arguments l =>
    cases h with
    | call hf ha =>
      rw [evaluate]
      refine (safe_evaluate hc callee hs hf).bind fun f _ hf => ?_
      refine (safe_evaluateAll hc arguments hs ha).bind fun vs _ hvs => ?_
      exact hc f vs _ _ t hf hvs
  | .lambda params body l =>
    cases h with
    | lambda names ha hb =>
      rw [evaluate]
      exact safe_freshId.bind fun id _ _ => leads_pure (.closure hs ha.length_eq hb)
  | .block statements none l =>
    cases h with
    | unit hb =>
      rw [evaluate]
      exact (safe_executeAll hc statements hs hb).bind fun _ _ _ => leads_pure .unit
  | .block statements (some result) l =>
    cases h with
    | block hb hr =>
      rw [evaluate]
      exact (safe_executeAll hc statements hs hb).bind fun _ _ hs' => safe_evaluate hc result hs' hr
  | .conditional condition thenBranch elseBranch l =>
    cases h with
    | conditional hcond ht he =>
      rw [evaluate]
      refine (safe_evaluate hc condition hs hcond).bind fun c _ _ => ?_
      split
      · exact safe_evaluate hc thenBranch hs ht
      · exact safe_evaluate hc elseBranch hs he
  | .letBinding .. => cases h
  | .definition .. => cases h
  | .discard .. => cases h

/-- A statement leaves a scope that agrees with the environment it leaves. -/
theorem safe_execute (hc : SafeCaller (.standard extraTypes) call) (e : Term) {scope : Scope}
    {env env' : Env} (hs : scope.Typed (.standard extraTypes) env)
    (h : Binds (.standard extraTypes) env e env') :
    Safe (execute call e scope) (Scope.Typed (.standard extraTypes) · env') := by
  match e with
  | .letBinding x value ascription l =>
    cases h with
    | letBinding names h _ =>
      rw [execute]
      -- the value is evaluated once, but can be typed at each instance
      refine Leads.bind (Leads.forall ⟨_, Scheme.instance_body (env.generalize _)⟩ fun u hu =>
        safe_evaluate hc value hs (h.of_instance (Rules.proper_standard extraTypes) hu)) ?_
      exact fun v _ hv => leads_pure (hs.bind hv)
  | .definition f params returns body l =>
    cases h with
    | definition names ha _ hb =>
      rw [execute]
      exact safe_freshId.bind fun id _ _ => leads_pure (.define hs ha.length_eq hb)
  | .discard expression l =>
    cases h with
    | discard h =>
      rw [execute]
      exact (safe_evaluate hc expression hs h).bind fun _ _ _ => leads_pure hs
  | .number .. => cases h
  | .boolean .. => cases h
  | .name .. => cases h
  | .binary .. => cases h
  | .call .. => cases h
  | .lambda .. => cases h
  | .block .. => cases h
  | .conditional .. => cases h

theorem safe_evaluateAll (hc : SafeCaller (.standard extraTypes) call) (es : List Term)
    {scope : Scope} {env : Env} {ts : List Ty} (hs : scope.Typed (.standard extraTypes) env)
    (h : HaveTypes (.standard extraTypes) env es ts) :
    Safe (evaluateAll call es scope)
      (List.Forall₂ (Value.Typed (.standard extraTypes)) · ts) := by
  match es with
  | [] =>
    cases h
    exact leads_pure .nil
  | e :: es =>
    cases h with
    | cons h htail =>
      rw [evaluateAll]
      refine (safe_evaluate hc e hs h).bind fun v _ hv => ?_
      exact (safe_evaluateAll hc es hs htail).bind fun vs _ hvs => leads_pure (.cons hv hvs)

theorem safe_executeAll (hc : SafeCaller (.standard extraTypes) call) (es : List Term)
    {scope : Scope} {env env' : Env} (hs : scope.Typed (.standard extraTypes) env)
    (h : BindAll (.standard extraTypes) env es env') :
    Safe (executeAll call es scope) (Scope.Typed (.standard extraTypes) · env') := by
  match es with
  | [] =>
    cases h
    exact leads_pure hs
  | e :: es =>
    cases h with
    | cons h htail =>
      rw [executeAll]
      exact (safe_execute hc e hs h).bind fun _ _ hs' => safe_executeAll hc es hs' htail

end

/-- Calls are safe to every depth: the body is evaluated with calls of one level less, and at
the last level the call is cut off. -/
theorem safe_call (depth : Nat) : SafeCaller (.standard extraTypes) (Eval.call depth) := by
  intro f args node types t hf ha
  obtain ⟨id, name, params, body, scope, env, rfl, hs, hl, hb⟩ := hf.eq_closure
  have hlen : args.length = (params.map (·.name)).length := by
    rw [List.length_map, hl, ha.length_eq]
  cases depth with
  | zero =>
    rw [Eval.call, if_neg (not_not_intro hlen)]
    exact leads_throw (Or.inl rfl)
  | succ depth =>
    rw [Eval.call, if_neg (not_not_intro hlen)]
    exact safe_evaluate (safe_call depth) body (hs.bindAll params ha) hb

end

end Eval

/-! ## Programs -/

namespace Program

theorem entry_eq_main {rules : Rules} (hr : rules.Proper) {p : Program} {scope : Scope} {env : Env}
    (hs : scope.Typed rules env) (hp : p.result = none) {scheme : Scheme} {t : Ty}
    (hm : env.get? "main" = some scheme) (hbody : scheme.body = .fn [] t) :
    ∃ f, p.entry scope = .main f ∧ f.Typed rules (.fn [] t) := by
  obtain ⟨v, hv, hall⟩ := hs.get?_some hr hm
  have ht := hall _ (Scheme.instance_body _)
  rw [hbody] at ht
  obtain ⟨id, name, params, body, outer, -, rfl, -, hl, -⟩ := ht.eq_closure
  obtain rfl : params = [] := List.length_eq_zero_iff.1 hl
  exact ⟨_, by rw [entry, hp, hv]; rfl, ht⟩

theorem entry_eq_nothing {rules : Rules} (hr : rules.Proper) {p : Program} {scope : Scope}
    {env : Env} (hs : scope.Typed rules env) (hp : p.result = none)
    (hm : ∀ scheme t, env.get? "main" = some scheme → scheme.body ≠ .fn [] t) :
    p.entry scope = .nothing := by
  rw [entry, hp]
  rcases hget : env.get? "main" with _ | scheme
  · rw [hs.get?_none hr hget]
  · obtain ⟨v, hv, hall⟩ := hs.get?_some hr hget
    rw [hv]
    have ht := hall _ (Scheme.instance_body _)
    split
    · rename_i heq
      cases heq
    · rename_i heq
      cases heq
      -- the closure would give `main` the type that it does not have
      obtain ⟨t, hbody⟩ := ht.eq_fn
      exact absurd hbody (hm scheme t hget)
    · rfl

/-- A well-typed program has a value of its type; without a last expression, one of the result
type of `main`, or unit if there is no `main` to call. -/
theorem safe_evaluate {extraTypes : List String} {p : Program} {env : Env} {t : Ty}
    (h : p.WellTyped (.standard extraTypes) env t) (depth : Nat) :
    Eval.Safe (p.evaluate depth) fun v =>
      (∀ e, p.result = some e → v.Inhabits t) ∧
      (p.result = none →
        (∀ scheme r, env.get? "main" = some scheme → scheme.body = .fn [] r → v.Inhabits r) ∧
        ((∀ scheme r, env.get? "main" = some scheme → scheme.body ≠ .fn [] r) → v = .unit)) := by
  have hr := Rules.proper_standard extraTypes
  have hc : Eval.SafeCaller (.standard extraTypes) (Eval.call depth) := Eval.safe_call depth
  rw [evaluate]
  refine (Eval.safe_executeAll hc p.statements .empty h.items).bind fun scope _ hs => ?_
  rcases hp : p.result with _ | e
  · by_cases hm : ∃ scheme r, env.get? "main" = some scheme ∧ scheme.body = .fn [] r
    · obtain ⟨scheme, r, hm, hbody⟩ := hm
      obtain ⟨f, hf, ht⟩ := entry_eq_main hr hs hp hm hbody
      rw [hf, enter]
      refine (hc f [] p.tag [] r ht .nil).imp fun v _ hv => ⟨nofun, fun _ => ⟨?_, fun hn => ?_⟩⟩
      · intro scheme' r' hm' hbody'
        obtain rfl := Option.some.inj (hm.symm.trans hm')
        obtain rfl := (Ty.fn.inj (hbody.symm.trans hbody')).2
        exact hv.inhabits
      · exact absurd hbody (hn scheme r hm)
    · have hn : ∀ scheme r, env.get? "main" = some scheme → scheme.body ≠ .fn [] r :=
        fun scheme r hm' hbody => hm ⟨scheme, r, hm', hbody⟩
      rw [entry_eq_nothing hr hs hp hn, enter]
      exact leads_pure ⟨nofun, fun _ => ⟨fun scheme r hm' hbody => absurd hbody (hn scheme r hm'),
        fun _ => rfl⟩⟩
  · have hentry : p.entry scope = .result e := by rw [entry, hp]
    rw [hentry, enter]
    exact (Eval.safe_evaluate hc e hs (h.result e hp)).imp fun v _ hv =>
      ⟨fun _ _ => hv.inhabits, nofun⟩

theorem run_of_safe {p : Program} {depth : Nat} {P : Value → Prop}
    (h : Eval.Safe (p.evaluate depth) P) :
    (∃ v, p.run depth = .ok v ∧ P v) ∨
    (∃ node, p.run depth = .error (.error ⟨.divisionByZero, node⟩)) ∨
    p.run depth = .error (.error ⟨.depthExceeded, p.tag⟩) := by
  have hend := h 0 rfl
  rw [run]
  rcases hr : p.evaluate depth 0 with ⟨v, n⟩ | ⟨failure, n⟩
  · rw [hr] at hend
    exact Or.inl ⟨v, rfl, hend⟩
  · rw [hr] at hend
    rcases hend with rfl | ⟨node, rfl⟩
    · exact Or.inr (Or.inr rfl)
    · exact Or.inr (Or.inl ⟨node, rfl⟩)

end Program

/-- A program that is checked without error never goes wrong, however deep calls may be nested:
it ends in a value, in a division by zero or where it is cut off. The value is of the kind that
the type of the program tells; without a last expression, it is of the kind that the result type
of `main` tells, or unit if there is no `main` without parameters. -/
theorem a_program_without_type_errors_never_goes_wrong (p : Program) (options : CheckOptions)
    (c : Checked) (depth : Nat) (hp : options.prelude = Table.empty)
    (h : p.check options = .ok c) (hok : c.ok = true) :
    (∃ v, p.run depth = .ok v ∧
      (∀ e, p.result = some e → ∃ t, c.programType = some t ∧ v.Inhabits t) ∧
      (p.result = none →
        (∀ scheme r, c.schemes.get? "main" = some scheme → scheme.body = .fn [] r →
          v.Inhabits r) ∧
        ((∀ scheme r, c.schemes.get? "main" = some scheme → scheme.body ≠ .fn [] r) →
          v = .unit))) ∨
    (∃ node, p.run depth = .error (.error ⟨.divisionByZero, node⟩)) ∨
    p.run depth = .error (.error ⟨.depthExceeded, p.tag⟩) := by
  obtain ⟨env, t, hw, htype, hschemes⟩ := p.wellTyped_of_check hp h hok
  apply Program.run_of_safe
  refine (Program.safe_evaluate hw depth).imp fun v _ hv => ⟨fun e he => ?_, ?_⟩
  · exact ⟨t, htype, hv.1 e he⟩
  · rw [hschemes]
    exact hv.2

/-- `let twice = \f, x -> f(f(x)); def down(n) { if n <= 0 { true } else { down(n - 1) } }
let down = twice(\g -> g, down); def main() { twice(\b -> b == down(2), true) }` -/
def twiceProgram : Program where
  statements :=
    [.letBinding "twice" (.lambda [⟨"f", none, none⟩, ⟨"x", none, none⟩]
      (.call (.name "f" none) [.call (.name "f" none) [.name "x" none] none] none) none) none none,
     .definition "down" [⟨"n", none, none⟩] none
      (.block [] (some (.conditional (.binary (.name "n" none) "<=" (.number 0 none) none)
        (.block [] (some (.boolean true none)) none)
        (.block [] (some (.call (.name "down" none)
          [.binary (.name "n" none) "-" (.number 1 none) none] none)) none)
        none)) none)
      none,
     .letBinding "down" (.call (.name "twice" none)
      [.lambda [⟨"g", none, none⟩] (.name "g" none) none, .name "down" none] none) none none,
     .definition "main" [] none
      (.block [] (some (.call (.name "twice" none)
        [.lambda [⟨"b", none, none⟩]
          (.binary (.name "b" none) "==" (.call (.name "down" none) [.number 2 none] none) none)
          none,
         .boolean true none] none)) none)
      none]
  result := none
  file := "twice.sfl"
  location := none

/-- A function that is used at two types, one that calls itself and is bound anew, and a `main`
whose value is of the kind that its result type tells. -/
theorem a_program_without_type_errors_never_goes_wrong_at_two_types :
    ∃ c v, twiceProgram.check ⟨[], false, 0, Table.empty⟩ = .ok c ∧ c.ok = true ∧
      c.schemes.get? "main" = some (.mono (.fn [] .bool)) ∧
      twiceProgram.run 10 = .ok v ∧ v.Inhabits .bool := by
  have hcheck : (twiceProgram.check ⟨[], false, 0, Table.empty⟩).toOption.map
      (fun c => (c.ok, c.schemes.get? "main")) = some (true, some (.mono (.fn [] .bool))) := by cbv
  have hrun : (twiceProgram.run 10).toOption.isSome = true := by cbv
  rcases hc : twiceProgram.check ⟨[], false, 0, Table.empty⟩ with failure | c
  · rw [hc] at hcheck
    cases hcheck
  · rw [hc] at hcheck
    obtain ⟨hok, hmain⟩ := Prod.mk.inj (Option.some.inj hcheck)
    rcases a_program_without_type_errors_never_goes_wrong twiceProgram _ c 10 rfl hc hok with
      ⟨v, hv, -, hkind⟩ | ⟨node, hr⟩ | hr
    · exact ⟨c, v, rfl, hok, hmain, hv, (hkind rfl).1 _ .bool hmain rfl⟩
    · rw [hr] at hrun
      cases hrun
    · rw [hr] at hrun
      cases hrun

end LetPoly
