-- The typing rules of the language, one for each kind of node, said without any
-- inference: an annotation that is missing allows every type, and a quoted name
-- stands for one type of the rule's choice throughout a signature. The main law is
-- that a replacement of type variables keeps a derivation, also in an environment
-- that is more general than the replaced one.
import LetPoly.Infer
import LetPoly.Proofs.Environments

namespace LetPoly

/-! ## What annotations mean -/

mutual

/-- The type that an annotation stands for, when the quoted names stand for the given types. -/
inductive TypeExpr.Means (baseTypes : List String) (names : String → Ty) : TypeExpr → Ty → Prop
  | named {name : String} {l : Option Location} :
    name ∈ baseTypes → TypeExpr.Means baseTypes names (.named name l) (.con name)
  | quoted {name : String} {l : Option Location} :
    TypeExpr.Means baseTypes names (.quoted name l) (names name)
  | arrow {params : List TypeExpr} {result : TypeExpr} {l : Option Location} {types : List Ty}
      {t : Ty} :
    TypeExpr.MeanAll baseTypes names params types → TypeExpr.Means baseTypes names result t →
    TypeExpr.Means baseTypes names (.arrow params result l) (.fn types t)

/-- The types that annotations stand for, one by one. -/
inductive TypeExpr.MeanAll (baseTypes : List String) (names : String → Ty) :
    List TypeExpr → List Ty → Prop
  | nil : TypeExpr.MeanAll baseTypes names [] []
  | cons {first : TypeExpr} {more : List TypeExpr} {t : Ty} {ts : List Ty} :
    TypeExpr.Means baseTypes names first t → TypeExpr.MeanAll baseTypes names more ts →
    TypeExpr.MeanAll baseTypes names (first :: more) (t :: ts)

end

/-- A type is the one that an annotation stands for; without an annotation, any type is. -/
def TypeExpr.Allows (baseTypes : List String) (names : String → Ty) (ascription : Option TypeExpr)
    (t : Ty) : Prop :=
  ∀ written, ascription = some written → written.Means baseTypes names t

/-- The types that the annotations of parameters allow, one by one. -/
def Param.Allow (baseTypes : List String) (names : String → Ty) (params : List Param)
    (types : List Ty) : Prop :=
  List.Forall₂ (fun p t => TypeExpr.Allows baseTypes names p.ascription t) params types

/-! ## The rules -/

mutual

/-- An expression has a type in an environment. -/
inductive HasType (rules : Rules) : Env → Term → Ty → Prop
  | number {env : Env} {n : Int} {l : Option Location} : HasType rules env (.number n l) .number
  | boolean {env : Env} {b : Bool} {l : Option Location} : HasType rules env (.boolean b l) .bool
  | name {env : Env} {x : String} {l : Option Location} {scheme : Scheme} {t : Ty} :
    env.get? x = some scheme → scheme.Instance t → HasType rules env (.name x l) t
  | binary {env : Env} {left right : Term} {operator : String} {l : Option Location}
      {scheme : Scheme} {a b t : Ty} :
    rules.operators.get? operator = some scheme → scheme.Instance (.fn [a, b] t) →
    HasType rules env left a → HasType rules env right b →
    HasType rules env (.binary left operator right l) t
  | call {env : Env} {callee : Term} {arguments : List Term} {l : Option Location}
      {types : List Ty} {t : Ty} :
    HasType rules env callee (.fn types t) → HaveTypes rules env arguments types →
    HasType rules env (.call callee arguments l) t
  | lambda {env : Env} {params : List Param} {body : Term} {l : Option Location}
      {types : List Ty} {t : Ty} (names : String → Ty) :
    Param.Allow rules.baseTypes names params types →
    HasType rules (Infer.withParams env params types) body t →
    HasType rules env (.lambda params body l) (.fn types t)
  | unit {env env' : Env} {statements : List Term} {l : Option Location} :
    BindAll rules env statements env' → HasType rules env (.block statements none l) .unit
  | block {env env' : Env} {statements : List Term} {result : Term} {l : Option Location} {t : Ty} :
    BindAll rules env statements env' → HasType rules env' result t →
    HasType rules env (.block statements (some result) l) t
  | conditional {env : Env} {condition thenBranch elseBranch : Term} {l : Option Location}
      {t : Ty} :
    HasType rules env condition .bool → HasType rules env thenBranch t →
    HasType rules env elseBranch t →
    HasType rules env (.conditional condition thenBranch elseBranch l) t

/-- Expressions have types in an environment, one by one. -/
inductive HaveTypes (rules : Rules) : Env → List Term → List Ty → Prop
  | nil {env : Env} : HaveTypes rules env [] []
  | cons {env : Env} {first : Term} {more : List Term} {t : Ty} {ts : List Ty} :
    HasType rules env first t → HaveTypes rules env more ts →
    HaveTypes rules env (first :: more) (t :: ts)

/-- A statement is well typed in an environment and leaves the second one to what follows it. A
defined function has one type in its own body, and all instances of that type outside. -/
inductive Binds (rules : Rules) : Env → Term → Env → Prop
  | discard {env : Env} {expression : Term} {l : Option Location} {t : Ty} :
    HasType rules env expression t → Binds rules env (.discard expression l) env
  | letBinding {env : Env} {x : String} {value : Term} {ascription : Option TypeExpr}
      {l : Option Location} {t : Ty} (names : String → Ty) :
    HasType rules env value t → TypeExpr.Allows rules.baseTypes names ascription t →
    Binds rules env (.letBinding x value ascription l) (env.insert x (env.generalize t))
  | definition {env : Env} {f : String} {params : List Param} {returns : Option TypeExpr}
      {body : Term} {l : Option Location} {types : List Ty} {t : Ty} (names : String → Ty) :
    Param.Allow rules.baseTypes names params types →
    TypeExpr.Allows rules.baseTypes names returns t →
    HasType rules (Infer.withParams (env.insert f (.mono (.fn types t))) params types) body t →
    Binds rules env (.definition f params returns body l)
      (env.insert f (env.generalize (.fn types t)))

/-- Statements are well typed one after the other. -/
inductive BindAll (rules : Rules) : Env → List Term → Env → Prop
  | nil {env : Env} : BindAll rules env [] env
  | cons {env env₁ env₂ : Env} {first : Term} {more : List Term} :
    Binds rules env first env₁ → BindAll rules env₁ more env₂ →
    BindAll rules env (first :: more) env₂

end

/-- A program is well typed: its items one after the other, and its last expression, which has
the given type. A program without one has the unit type. -/
structure Program.WellTyped (rules : Rules) (p : Program) (env : Env) (t : Ty) : Prop where
  items : BindAll rules Table.empty p.statements env
  result : ∀ e, p.result = some e → HasType rules env e t
  unit : p.result = none → t = .unit

/-! ## Replacement of type variables -/

mutual

theorem TypeExpr.Means.subst {baseTypes : List String} {names : String → Ty} {written : TypeExpr}
    {t : Ty} (f : Int → Ty) (h : written.Means baseTypes names t) :
    written.Means baseTypes (fun a => (names a).subst f) (t.subst f) := by
  match h with
  | .named hn => exact .named hn
  | .quoted => exact .quoted
  | .arrow hps hr =>
    rw [Ty.subst_fn]
    exact .arrow (TypeExpr.MeanAll.subst f hps) (TypeExpr.Means.subst f hr)

theorem TypeExpr.MeanAll.subst {baseTypes : List String} {names : String → Ty}
    {written : List TypeExpr} {ts : List Ty} (f : Int → Ty)
    (h : TypeExpr.MeanAll baseTypes names written ts) :
    TypeExpr.MeanAll baseTypes (fun a => (names a).subst f) written (ts.map (Ty.subst f)) := by
  match h with
  | .nil => exact .nil
  | .cons h hs => exact .cons (TypeExpr.Means.subst f h) (TypeExpr.MeanAll.subst f hs)

end

theorem TypeExpr.Allows.subst {baseTypes : List String} {names : String → Ty}
    {ascription : Option TypeExpr} {t : Ty} (f : Int → Ty)
    (h : TypeExpr.Allows baseTypes names ascription t) :
    TypeExpr.Allows baseTypes (fun a => (names a).subst f) ascription (t.subst f) :=
  fun written hw => (h written hw).subst f

theorem Param.Allow.subst {baseTypes : List String} {names : String → Ty} {params : List Param}
    {types : List Ty} (f : Int → Ty) (h : Param.Allow baseTypes names params types) :
    Param.Allow baseTypes (fun a => (names a).subst f) params (types.map (Ty.subst f)) :=
  List.forall₂_map_right_iff.2 (List.Forall₂.imp (fun _ _ ha => ha.subst f) h)

theorem Infer.rel_withParams {R : Scheme → Scheme → Prop} {f : Int → Ty}
    (hR : ∀ t, R (.mono t) (.mono (t.subst f))) {env other : Env} (h : Table.Rel R env other)
    (params : List Param) (types : List Ty) :
    Table.Rel R (withParams env params types)
      (withParams other params (types.map (Ty.subst f))) := by
  induction params generalizing env other types with
  | nil => exact h
  | cons p params ih =>
    cases types with
    | nil => exact h
    | cons t types => exact ih (h.insert p.name (hR t)) types

/-- The environments in which the body of a definition is typed stand side by side if those of
the definition do. -/
theorem Infer.rel_inner {R : Scheme → Scheme → Prop} {f : Int → Ty}
    (hR : ∀ t, R (.mono t) (.mono (t.subst f))) {env other : Env} (h : Table.Rel R env other)
    (g : String) (params : List Param) (types : List Ty) (t : Ty) :
    Table.Rel R (withParams (env.insert g (.mono (.fn types t))) params types)
      (withParams (other.insert g (.mono (.fn (types.map (Ty.subst f)) (t.subst f)))) params
        (types.map (Ty.subst f))) := by
  have hg := hR (.fn types t)
  rw [Ty.subst_fn] at hg
  exact rel_withParams hR (h.insert g hg) params types

theorem Scheme.Instance.subst {scheme : Scheme} {t : Ty} (f : Int → Ty) (h : scheme.Instance t) :
    scheme.Reaches f (t.subst f) := by
  obtain ⟨g, hg, rfl⟩ := h
  refine ⟨fun v => (g v).subst f, fun v hv => ?_, Ty.subst_subst ..⟩
  simp [hg v hv]

/-- Every operator takes two arguments, has no free variable and binds at most one. -/
def Rules.Proper (rules : Rules) : Prop :=
  ∀ operator scheme, rules.operators.get? operator = some scheme →
    (∃ a b t, scheme.body = .fn [a, b] t) ∧ (∀ v, v ∉ scheme.freeVars) ∧
      (scheme.quantified = [] ∨ ∃ v, scheme.quantified = [v])

theorem Rules.mem_standardOperators {scheme : Scheme} (h : scheme ∈ standardOperators.values) :
    scheme = numeric .number ∨ scheme = numeric .bool ∨ scheme = equality := by
  simp only [standardOperators, Table.values, List.map_cons, List.map_nil, List.mem_cons,
    List.not_mem_nil, or_false] at h
  rcases h with h | h | h | h | h | h | h | h | h | h <;> simp [h]

theorem Rules.instance_numeric {result a b t : Ty} :
    (numeric result).Instance (.fn [a, b] t) ↔ a = .number ∧ b = .number ∧ t = result := by
  simp [numeric, and_assoc]

theorem Rules.instance_equality {a b t : Ty} :
    equality.Instance (.fn [a, b] t) ↔ a = b ∧ t = .bool := by
  constructor
  · rintro ⟨g, -, h⟩
    simp only [equality, Ty.subst_fn, List.map_cons, List.map_nil, Ty.subst_var, Ty.fn.injEq,
      List.cons.injEq, and_true] at h
    obtain ⟨⟨rfl, rfl⟩, rfl⟩ := h
    exact ⟨rfl, rfl⟩
  · rintro ⟨rfl, rfl⟩
    refine ⟨fun v => if v = -1 then a else .var v, fun v hv => ?_, by simp [equality, Ty.bool]⟩
    exact if_neg (by simpa [equality] using hv)

theorem Rules.proper_standard (extraTypes : List String) : (Rules.standard extraTypes).Proper := by
  intro operator scheme h
  rcases mem_standardOperators (Table.mem_values_of_get? h) with rfl | rfl | rfl
  · exact ⟨⟨_, _, _, rfl⟩, fun v hv => by simp [numeric, Ty.number] at hv, Or.inl rfl⟩
  · exact ⟨⟨_, _, _, rfl⟩, fun v hv => by simp [numeric, Ty.number, Ty.bool] at hv, Or.inl rfl⟩
  · refine ⟨⟨_, _, _, rfl⟩, fun v hv => ?_, Or.inr ⟨_, rfl⟩⟩
    simp [equality, Scheme.mem_freeVars, Ty.bool] at hv

theorem Rules.Proper.instance_subst {rules : Rules} (hr : rules.Proper) {operator : String}
    {scheme : Scheme} (ho : rules.operators.get? operator = some scheme) {t : Ty} (f : Int → Ty)
    (h : scheme.Instance t) : scheme.Instance (t.subst f) :=
  (h.subst f).congr fun v hv => absurd hv ((hr operator scheme ho).2.1 v)

mutual

/-- A derivation stays one when its variables are replaced, in every environment that is at least
as general as the replaced one. -/
theorem HasType.subst {rules : Rules} (hr : rules.Proper) {env other : Env} {e : Term} {t : Ty}
    {f : Int → Ty} (h : HasType rules env e t) (hle : env.AtLeast f other) :
    HasType rules other e (t.subst f) := by
  match h with
  | .number => exact .number
  | .boolean => exact .boolean
  | .name hget hi =>
    obtain ⟨scheme', hget', hs⟩ := Table.Rel.get?_left hle hget
    exact .name hget' (hs _ (hi.subst f))
  | .binary hop hi hl hr' =>
    have hi' := hr.instance_subst hop f hi
    exact .binary hop hi' (HasType.subst hr hl hle) (HasType.subst hr hr' hle)
  | .call hc ha =>
    have hc' := HasType.subst hr hc hle
    rw [Ty.subst_fn] at hc'
    exact .call hc' (HaveTypes.subst hr ha hle)
  | .lambda names ha hb =>
    rw [Ty.subst_fn]
    refine .lambda _ (ha.subst f) (HasType.subst hr hb ?_)
    exact Infer.rel_withParams (Scheme.atLeast_mono f) hle _ _
  | .unit hs =>
    obtain ⟨other', hs', -⟩ := BindAll.subst hr hs hle
    exact .unit hs'
  | .block hs hb =>
    obtain ⟨other', hs', hle'⟩ := BindAll.subst hr hs hle
    exact .block hs' (HasType.subst hr hb hle')
  | .conditional hc ht he =>
    exact .conditional (HasType.subst hr hc hle) (HasType.subst hr ht hle)
      (HasType.subst hr he hle)

theorem HaveTypes.subst {rules : Rules} (hr : rules.Proper) {env other : Env} {es : List Term}
    {ts : List Ty} {f : Int → Ty} (h : HaveTypes rules env es ts) (hle : env.AtLeast f other) :
    HaveTypes rules other es (ts.map (Ty.subst f)) := by
  match h with
  | .nil => exact .nil
  | .cons h hs => exact .cons (HasType.subst hr h hle) (HaveTypes.subst hr hs hle)

theorem Binds.subst {rules : Rules} (hr : rules.Proper) {env env' other : Env} {e : Term}
    {f : Int → Ty} (h : Binds rules env e env') (hle : env.AtLeast f other) :
    ∃ other', Binds rules other e other' ∧ env'.AtLeast f other' := by
  match h with
  | .discard h => exact ⟨other, .discard (HasType.subst hr h hle), hle⟩
  | @Binds.letBinding _ _ x _ _ _ t names h ha =>
    -- the bound variables are moved out of the way of the other environment's
    obtain ⟨f', hf', hg⟩ := Env.exists_atLeast_generalize f env other t
    have hle' : env.AtLeast f' other := hle.congr fun v hv => (hf' v hv).symm
    exact ⟨_, .letBinding _ (HasType.subst hr h hle') (ha.subst f'), hle.insert x hg⟩
  | @Binds.definition _ _ g params _ _ _ types t names hp ha h =>
    obtain ⟨f', hf', hg⟩ := Env.exists_atLeast_generalize f env other (.fn types t)
    have hle' : env.AtLeast f' other := hle.congr fun v hv => (hf' v hv).symm
    have hin := Infer.rel_inner (Scheme.atLeast_mono f') hle' g params types t
    rw [Ty.subst_fn] at hg
    exact ⟨_, .definition _ (hp.subst f') (ha.subst f') (HasType.subst hr h hin),
      hle.insert g hg⟩

theorem BindAll.subst {rules : Rules} (hr : rules.Proper) {env env' other : Env} {es : List Term}
    {f : Int → Ty} (h : BindAll rules env es env') (hle : env.AtLeast f other) :
    ∃ other', BindAll rules other es other' ∧ env'.AtLeast f other' := by
  match h with
  | .nil => exact ⟨other, .nil, hle⟩
  | .cons h hs =>
    obtain ⟨other₁, h', hle₁⟩ := Binds.subst hr h hle
    obtain ⟨other₂, hs', hle₂⟩ := BindAll.subst hr hs hle₁
    exact ⟨other₂, .cons h' hs', hle₂⟩

end

end LetPoly
