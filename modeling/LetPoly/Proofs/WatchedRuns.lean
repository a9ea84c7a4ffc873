-- Runs of inference that are watched. Beside its state, a watched run keeps a list of
-- what it does: the environments it meets, and the substitutions it applies, composes
-- and looks for. With that list left out it is the run of inference, whether that comes
-- to an answer or fails.
import LetPoly.Proofs.Steps

namespace LetPoly

/-- What inference does with environments and substitutions. -/
inductive Action where
  /-- An expression or a statement is met in an environment. -/
  | met (env : Env)
  /-- A substitution is applied to types. -/
  | applied (s : Subst) (types : List Ty)
  /-- A substitution is applied to an environment. -/
  | appliedEnv (s : Subst) (env : Env)
  /-- Two substitutions are composed. -/
  | composed (later earlier : Subst)
  /-- Two types are unified. -/
  | unified (expected actual : Ty)
deriving DecidableEq

/-- The state of inference, and what was done so far. -/
structure Watch where
  state : InferState
  actions : List Action

/-- Steps of inference that are watched. -/
abbrev Watched := EStateM InferFailure Watch

namespace Watched

variable {α β : Type}

/-! ## Steps -/

/-- Put an action on the list. -/
def act (action : Action) : Watched Unit :=
  modify fun w => { w with actions := w.actions ++ [action] }

/-- A step of inference, with nothing put on the list. -/
def unseen (x : Infer α) : Watched α := fun w =>
  match x w.state with
  | .ok a s => .ok a { w with state := s }
  | .error e s => .error e { w with state := s }

/-- A step of inference that does the given action. -/
def doing (action : Action) (x : Infer α) : Watched α := do
  act action
  unseen x

/-- A substitution applied to a type. -/
def apply (s : Subst) (t : Ty) : Watched Ty := doing (.applied s [t]) (Infer.apply s t)

/-- A substitution applied to types. -/
def applyAll (s : Subst) (ts : List Ty) : Watched (List Ty) :=
  doing (.applied s ts) (Infer.applyAll s ts)

/-- A substitution applied to an environment. -/
def applyEnv (s : Subst) (env : Env) : Watched Env :=
  doing (.appliedEnv s env) (Infer.applyEnv s env)

/-- First `earlier`, then `later`. -/
def compose (later earlier : Subst) : Watched Subst :=
  doing (.composed later earlier) (Infer.compose later earlier)

/-- A scheme's body with fresh variables for the bound ones. -/
def instantiate (scheme : Scheme) : Watched Ty := do
  let w ← get
  doing (.applied (scheme.freshen w.state.next) [scheme.body]) (Infer.instantiate scheme)

/-- Unify two types; `blame` says what a clash comes to. -/
def unifyOr (expected actual : Ty) (blame : Clash → InferFailure) : Watched Subst :=
  doing (.unified expected actual) (Infer.unifyOr expected actual blame)

/-- Unify two types; a clash is put down to a node. -/
def unifyAt (expected actual : Ty) (site : Site) : Watched Subst :=
  doing (.unified expected actual) (Infer.unifyAt expected actual site)

/-- Infer an argument under the substitution so far and unify its type with the parameter's. -/
def argument (infer : Env → Watched (Subst × Ty)) (site : Site) (param : Ty) (s : Subst)
    (env : Env) : Watched Subst := do
  let (s₁, t) ← infer (← applyEnv s env)
  let s ← compose s₁ s
  let s₂ ← unifyAt (← apply s param) t site
  compose s₂ s

/-! ## The rules -/

mutual

/-- Inference for an expression, watched. -/
@[simp] def infer (rules : Rules) : Term → Env → Position → Watched (Subst × Ty)
  | .name x l, env, position => do
    act (.met env)
    let site : Site := ⟨⟨.name, l⟩, position⟩
    match env.get? x with
    | none => unseen (Infer.fail (.unbound x) site)
    | some scheme =>
      let t ← instantiate scheme
      unseen (Infer.conclude site Subst.empty t)
  | .binary left operator right l, env, position => do
    act (.met env)
    let site : Site := ⟨⟨.binary, l⟩, position⟩
    match rules.operators.get? operator with
    | none => unseen (Infer.fail (.unbound operator) site)
    | some scheme =>
      match ← instantiate scheme with
      | .fn params result =>
        let s ← match params with
          | [] => pure Subst.empty
          | [p] =>
            argument (fun env => infer rules left env (0 :: position)) (left.site (0 :: position))
              p Subst.empty env
          | p :: q :: _ => do
            let s ← argument (fun env => infer rules left env (0 :: position))
              (left.site (0 :: position)) p Subst.empty env
            argument (fun env => infer rules right env (1 :: position))
              (right.site (1 :: position)) q s env
        unseen (Infer.conclude site s (← apply s result))
      | .var _ => throw (.malformed "TypeVar" "params")
      | .con _ => throw (.malformed "TypeCon" "params")
  | .call callee arguments l, env, position => do
    act (.met env)
    let site : Site := ⟨⟨.call, l⟩, position⟩
    let (s₁, calleeType) ← infer rules callee env (0 :: position)
    let params ← unseen (Infer.freshMany arguments.length)
    let result ← unseen Infer.fresh
    let s₂ ← unifyAt calleeType (.fn params result) site
    let s ← inferAll rules arguments params (← compose s₂ s₁) env position 1
    unseen (Infer.conclude site s (← apply s result))
  | .lambda params body l, env, position => do
    act (.met env)
    let types ← unseen (Infer.reading (Param.resolveAll rules.baseTypes params position 0))
    unseen (Infer.noteParams position 0 params types)
    let (s, t) ← infer rules body (Infer.withParams env params types) (params.length :: position)
    unseen (Infer.conclude ⟨⟨.lambda, l⟩, position⟩ s (.fn (← applyAll s types) t))
  | .block statements none l, env, position => do
    act (.met env)
    let (s, _) ← checkAll rules statements env position 0 Subst.empty
    unseen (Infer.conclude ⟨⟨.block, l⟩, position⟩ s .unit)
  | .block statements (some result) l, env, position => do
    act (.met env)
    let (s, env) ← checkAll rules statements env position 0 Subst.empty
    let (s₁, t) ← infer rules result env (statements.length :: position)
    unseen (Infer.conclude ⟨⟨.block, l⟩, position⟩ (← compose s₁ s) t)
  | .conditional condition thenBranch elseBranch l, env, position => do
    act (.met env)
    let site : Site := ⟨⟨.conditional, l⟩, position⟩
    let (s₁, conditionType) ← infer rules condition env (0 :: position)
    let s ← compose (← unifyAt .bool conditionType (condition.site (0 :: position))) s₁
    let (s₁, thenType) ← infer rules thenBranch (← applyEnv s env) (1 :: position)
    let s ← compose s₁ s
    let (s₁, elseType) ← infer rules elseBranch (← applyEnv s env) (2 :: position)
    let s ← compose s₁ s
    let thenType ← apply s thenType
    let s₁ ← unifyOr thenType elseType fun clash =>
      .typeError (.placed (.branches thenType elseType clash) site)
    let s ← compose s₁ s
    unseen (Infer.conclude site s (← apply s thenType))
  -- literals, and what is no expression
  | e, env, position => doing (.met env) (Infer.infer rules e env position)

/-- The check of a statement, watched. -/
@[simp] def check (rules : Rules) : Term → Env → Position → Watched (Subst × Env)
  | .discard expression l, env, position => do
    act (.met env)
    let (s, t) ← infer rules expression env (0 :: position)
    unseen (Infer.note (.typed ⟨⟨.discard, l⟩, position⟩ t))
    pure (s, ← applyEnv s env)
  | .letBinding x value none l, env, position => do
    act (.met env)
    let (s, t) ← infer rules value env (0 :: position)
    let outer ← applyEnv s env
    let scheme := Env.generalize outer t
    unseen (Infer.note (.typed ⟨⟨.letBinding, l⟩, position⟩ t))
    unseen (Infer.note (.bound .letWord x scheme))
    pure (s, outer.insert x scheme)
  | .letBinding x value (some ascription) l, env, position => do
    act (.met env)
    let (s, t) ← infer rules value env (0 :: position)
    let declared ← unseen (Infer.reading (ascription.resolve rules.baseTypes (1 :: position)))
    let s₁ ← unifyAt declared t (value.site (0 :: position))
    let s ← compose s₁ s
    let t ← apply s₁ t
    let outer ← applyEnv s env
    let scheme := Env.generalize outer t
    unseen (Infer.note (.typed ⟨⟨.letBinding, l⟩, position⟩ t))
    unseen (Infer.note (.bound .letWord x scheme))
    pure (s, outer.insert x scheme)
  | .definition f params returns body l, env, position => do
    act (.met env)
    let site : Site := ⟨⟨.definition, l⟩, position⟩
    let (types, result) ← unseen (Infer.reading (signature rules.baseTypes params returns position))
    let inner := Infer.withParams (env.insert f (.mono (.fn types result))) params types
    unseen (Infer.noteParams position 0 params types)
    let (s, bodyType) ← infer rules body inner ((params.length + 1) :: position)
    let declared ← apply s result
    let s₁ ← unifyOr declared bodyType fun clash =>
      match Infer.resultSite? site body ((params.length + 1) :: position) with
      | some blamed => .typeError (.placed (.returns declared bodyType clash) blamed)
      | none => .malformed body.kind.label "result"
    let s ← compose s₁ s
    let outer ← applyEnv s env
    let final ← apply s (.fn types result)
    let scheme := Env.generalize outer final
    unseen (Infer.note (.typed site final))
    unseen (Infer.note (.bound .defWord f scheme))
    pure (s, outer.insert f scheme)
  -- what is no statement
  | e, env, position => doing (.met env) (Infer.check rules e env position)

/-- The arguments of a call in the slots from `slot` on, watched. -/
@[simp] def inferAll (rules : Rules) :
    List Term → List Ty → Subst → Env → Position → Nat → Watched Subst
  | [], _, s, _, _, _ => pure s
  | _ :: _, [], s, _, _, _ => pure s
  | t :: more, param :: params, s, env, position, slot => do
    let s ← argument (fun env => infer rules t env (slot :: position)) (t.site (slot :: position))
      param s env
    inferAll rules more params s env position (slot + 1)

/-- The statements in the slots from `slot` on, watched. -/
@[simp] def checkAll (rules : Rules) :
    List Term → Env → Position → Nat → Subst → Watched (Subst × Env)
  | [], env, _, _, s => pure (s, env)
  | t :: more, env, position, slot, s => do
    let (s₁, env) ← check rules t env (slot :: position)
    checkAll rules more env position (slot + 1) (← compose s₁ s)

end

/-! ## What a watched run shows -/

/-- What a watched run comes to, with what was done left out. -/
def outcome : EStateM.Result InferFailure Watch α → EStateM.Result InferFailure InferState α
  | .ok a w => .ok a w.state
  | .error e w => .error e w.state

/-- What a watched run did, whether it came to an answer or failed. -/
def actions : EStateM.Result InferFailure Watch α → List Action
  | .ok _ w | .error _ w => w.actions

/-- With what was done left out, a watched step is a step of inference. -/
def Shows (x : Watched α) (y : Infer α) : Prop := ∀ w, outcome (x w) = y w.state

theorem shows_pure (a : α) : Shows (pure a) (pure a) := fun _ => rfl

theorem shows_throw (e : InferFailure) : Shows (throw e : Watched α) (throw e) := fun _ => rfl

theorem shows_unseen (x : Infer α) : Shows (unseen x) x := by
  intro w
  unfold unseen
  rcases x w.state with ⟨a, s⟩ | ⟨e, s⟩ <;> rfl

theorem Shows.bind {x : Watched α} {y : Infer α} {k : α → Watched β} {l : α → Infer β}
    (hx : Shows x y) (hk : ∀ a, Shows (k a) (l a)) : Shows (x >>= k) (y >>= l) := by
  intro w
  have h := hx w
  rcases hrun : x w with ⟨a, w'⟩ | ⟨e, w'⟩
  · rw [hrun] at h
    rw [bind_of_ok hrun, bind_of_ok h.symm]
    exact hk a w'
  · rw [hrun] at h
    rw [bind_of_error hrun, bind_of_error h.symm]
    rfl

theorem Shows.act {x : Watched α} {y : Infer α} (hx : Shows x y) (action : Action) :
    Shows (do act action; x) y :=
  fun w => hx { w with actions := w.actions ++ [action] }

theorem shows_doing (action : Action) (x : Infer α) : Shows (doing action x) x :=
  (shows_unseen x).act action

theorem shows_instantiate (scheme : Scheme) :
    Shows (instantiate scheme) (Infer.instantiate scheme) :=
  fun w => shows_doing _ _ w

/-! ## A watched run shows the run of inference -/

variable {rules : Rules}

/-- Watched, inference for an expression runs as it does. -/
def ShowsInfer (rules : Rules) (e : Term) : Prop :=
  ∀ env position, Shows (infer rules e env position) (Infer.infer rules e env position)

/-- Watched, the check of a statement runs as it does. -/
def ShowsCheck (rules : Rules) (e : Term) : Prop :=
  ∀ env position, Shows (check rules e env position) (Infer.check rules e env position)

theorem shows_argument {e : Term} (he : ShowsInfer rules e) (position : Position) (site : Site)
    (param : Ty) (s : Subst) (env : Env) :
    Shows (argument (fun env => infer rules e env position) site param s env)
      (Infer.argument (fun env => Infer.infer rules e env position) site param s env) := by
  refine (shows_doing _ _).bind fun inner => (he inner position).bind fun answer => ?_
  refine (shows_doing _ _).bind fun s => (shows_doing _ _).bind fun t => ?_
  exact (shows_doing _ _).bind fun s' => shows_doing _ _

theorem shows_inferAll {es : List Term} (hes : ∀ e ∈ es, ShowsInfer rules e) (params : List Ty)
    (s : Subst) (env : Env) (position : Position) (slot : Nat) :
    Shows (inferAll rules es params s env position slot)
      (Infer.inferAll rules es params s env position slot) := by
  induction es generalizing params s slot with
  | nil =>
    rw [inferAll, Infer.inferAll]
    · exact shows_pure s
    · simp
  | cons e es ih =>
    cases params with
    | nil =>
      rw [inferAll, Infer.inferAll]
      · exact shows_pure s
      · simp
    | cons param params =>
      rw [inferAll, Infer.inferAll]
      refine (shows_argument (hes e (by simp)) _ _ _ _ _).bind fun s => ?_
      exact ih (fun e he => hes e (by simp [he])) params s (slot + 1)

theorem shows_checkAll {es : List Term} (hes : ∀ e ∈ es, ShowsCheck rules e) (env : Env)
    (position : Position) (slot : Nat) (s : Subst) :
    Shows (checkAll rules es env position slot s)
      (Infer.checkAll rules es env position slot s) := by
  induction es generalizing env slot s with
  | nil =>
    rw [checkAll, Infer.checkAll]
    exact shows_pure _
  | cons e es ih =>
    rw [checkAll, Infer.checkAll]
    refine (hes e (by simp) _ _).bind fun answer => (shows_doing _ _).bind fun s => ?_
    exact ih (fun e he => hes e (by simp [he])) _ _ s

theorem shows_name (x : String) (l : Option Location) : ShowsInfer rules (.name x l) := by
  intro env position
  rw [infer, Infer.infer]
  refine Shows.act ?_ _
  rcases env.get? x with _ | scheme
  · exact shows_unseen _
  · exact (shows_instantiate scheme).bind fun t => shows_unseen _

theorem shows_binary {left right : Term} (hleft : ShowsInfer rules left)
    (hright : ShowsInfer rules right) (operator : String) (l : Option Location) :
    ShowsInfer rules (.binary left operator right l) := by
  intro env position
  rw [infer, Infer.infer]
  refine Shows.act ?_ _
  rcases rules.operators.get? operator with _ | scheme
  · exact shows_unseen _
  refine (shows_instantiate scheme).bind fun t => ?_
  rcases t with v | c | ⟨params, result⟩
  · exact shows_throw _
  · exact shows_throw _
  · have hlast : ∀ s, Shows
        (do unseen (Infer.conclude ⟨⟨.binary, l⟩, position⟩ s (← apply s result)))
        (do Infer.conclude ⟨⟨.binary, l⟩, position⟩ s (← Infer.apply s result)) := fun s =>
      (shows_doing _ _).bind fun t => shows_unseen _
    rcases params with _ | ⟨p, _ | ⟨q, more⟩⟩
    · exact (shows_pure _).bind hlast
    · exact (shows_argument hleft _ _ _ _ _).bind hlast
    · refine (shows_argument hleft _ _ _ _ _).bind fun s => ?_
      exact (shows_argument hright _ _ _ _ _).bind hlast

theorem shows_call {callee : Term} (hcallee : ShowsInfer rules callee) {arguments : List Term}
    (harguments : ∀ e ∈ arguments, ShowsInfer rules e) (l : Option Location) :
    ShowsInfer rules (.call callee arguments l) := by
  intro env position
  rw [infer, Infer.infer]
  refine Shows.act ((hcallee env _).bind fun answer => ?_) _
  refine (shows_unseen _).bind fun params => (shows_unseen _).bind fun result => ?_
  refine (shows_doing _ _).bind fun s => (shows_doing _ _).bind fun s => ?_
  refine (shows_inferAll harguments params s env position 1).bind fun s => ?_
  exact (shows_doing _ _).bind fun t => shows_unseen _

theorem shows_lambda {body : Term} (hbody : ShowsInfer rules body) (params : List Param)
    (l : Option Location) : ShowsInfer rules (.lambda params body l) := by
  intro env position
  rw [infer, Infer.infer]
  refine Shows.act ((shows_unseen _).bind fun types => (shows_unseen _).bind fun _ => ?_) _
  refine (hbody _ _).bind fun answer => (shows_doing _ _).bind fun types => ?_
  exact shows_unseen _

theorem shows_unit {statements : List Term} (hs : ∀ e ∈ statements, ShowsCheck rules e)
    (l : Option Location) : ShowsInfer rules (.block statements none l) := by
  intro env position
  rw [infer, Infer.infer]
  exact Shows.act ((shows_checkAll hs env position 0 _).bind fun answer => shows_unseen _) _

theorem shows_block {statements : List Term} (hs : ∀ e ∈ statements, ShowsCheck rules e)
    {result : Term} (hresult : ShowsInfer rules result) (l : Option Location) :
    ShowsInfer rules (.block statements (some result) l) := by
  intro env position
  rw [infer, Infer.infer]
  refine Shows.act ((shows_checkAll hs env position 0 _).bind fun answer => ?_) _
  refine (hresult _ _).bind fun answer => (shows_doing _ _).bind fun s => ?_
  exact shows_unseen _

theorem shows_conditional {condition thenBranch elseBranch : Term}
    (hcond : ShowsInfer rules condition) (hthen : ShowsInfer rules thenBranch)
    (helse : ShowsInfer rules elseBranch) (l : Option Location) :
    ShowsInfer rules (.conditional condition thenBranch elseBranch l) := by
  intro env position
  rw [infer, Infer.infer]
  refine Shows.act ((hcond _ _).bind fun answer => (shows_doing _ _).bind fun s => ?_) _
  refine (shows_doing _ _).bind fun s => (shows_doing _ _).bind fun inner => ?_
  refine (hthen _ _).bind fun answer => (shows_doing _ _).bind fun s => ?_
  refine (shows_doing _ _).bind fun inner => (helse _ _).bind fun answer => ?_
  refine (shows_doing _ _).bind fun s => (shows_doing _ _).bind fun thenType => ?_
  refine (shows_doing _ _).bind fun s => (shows_doing _ _).bind fun s => ?_
  exact (shows_doing _ _).bind fun t => shows_unseen _

theorem shows_discard {value : Term} (hvalue : ShowsInfer rules value) (l : Option Location) :
    ShowsCheck rules (.discard value l) := by
  intro env position
  rw [check, Infer.check]
  refine Shows.act ((hvalue _ _).bind fun answer => (shows_unseen _).bind fun _ => ?_) _
  exact (shows_doing _ _).bind fun env => shows_pure _

theorem shows_let {value : Term} (hvalue : ShowsInfer rules value) (x : String)
    (l : Option Location) : ShowsCheck rules (.letBinding x value none l) := by
  intro env position
  rw [check, Infer.check]
  refine Shows.act ((hvalue _ _).bind fun answer => (shows_doing _ _).bind fun outer => ?_) _
  exact (shows_unseen _).bind fun _ => (shows_unseen _).bind fun _ => shows_pure _

theorem shows_ascribed {value : Term} (hvalue : ShowsInfer rules value) (x : String)
    (ascription : TypeExpr) (l : Option Location) :
    ShowsCheck rules (.letBinding x value (some ascription) l) := by
  intro env position
  rw [check, Infer.check]
  refine Shows.act ((hvalue _ _).bind fun answer => (shows_unseen _).bind fun declared => ?_) _
  refine (shows_doing _ _).bind fun s => (shows_doing _ _).bind fun both => ?_
  refine (shows_doing _ _).bind fun t => (shows_doing _ _).bind fun outer => ?_
  exact (shows_unseen _).bind fun _ => (shows_unseen _).bind fun _ => shows_pure _

theorem shows_definition {body : Term} (hbody : ShowsInfer rules body) (f : String)
    (params : List Param) (returns : Option TypeExpr) (l : Option Location) :
    ShowsCheck rules (.definition f params returns body l) := by
  intro env position
  rw [check, Infer.check]
  refine Shows.act ((shows_unseen _).bind fun answer => (shows_unseen _).bind fun _ => ?_) _
  refine (hbody _ _).bind fun answer => (shows_doing _ _).bind fun declared => ?_
  refine (shows_doing _ _).bind fun s => (shows_doing _ _).bind fun both => ?_
  refine (shows_doing _ _).bind fun outer => (shows_doing _ _).bind fun final => ?_
  exact (shows_unseen _).bind fun _ => (shows_unseen _).bind fun _ => shows_pure _

theorem shows_unopened {e : Term} (h : ∀ env position, infer rules e env position =
    doing (.met env) (Infer.infer rules e env position)) : ShowsInfer rules e := by
  intro env position
  rw [h]
  exact shows_doing _ _

theorem shows_uncheckable {e : Term} (h : ∀ env position, check rules e env position =
    doing (.met env) (Infer.check rules e env position)) : ShowsCheck rules e := by
  intro env position
  rw [h]
  exact shows_doing _ _

mutual

/-- With what was done left out, a watched run for an expression is the run of inference. -/
theorem shows_infer (rules : Rules) (e : Term) : ShowsInfer rules e := by
  match e with
  | .name x l => exact shows_name x l
  | .binary left operator right l =>
    exact shows_binary (shows_infer rules left) (shows_infer rules right) operator l
  | .call callee arguments l =>
    exact shows_call (shows_infer rules callee) (shows_inferEach rules arguments) l
  | .lambda params body l => exact shows_lambda (shows_infer rules body) params l
  | .block statements none l => exact shows_unit (shows_checkEach rules statements) l
  | .block statements (some result) l =>
    exact shows_block (shows_checkEach rules statements) (shows_infer rules result) l
  | .conditional condition thenBranch elseBranch l =>
    exact shows_conditional (shows_infer rules condition) (shows_infer rules thenBranch)
      (shows_infer rules elseBranch) l
  | .number .. | .boolean .. | .letBinding .. | .definition .. | .discard .. | .strayParam _
  | .strayType _ | .strayProgram .. =>
    exact shows_unopened fun _ _ => by rw [infer] <;> simp

/-- The same for a statement. -/
theorem shows_check (rules : Rules) (e : Term) : ShowsCheck rules e := by
  match e with
  | .discard value l => exact shows_discard (shows_infer rules value) l
  | .letBinding x value none l => exact shows_let (shows_infer rules value) x l
  | .letBinding x value (some ascription) l =>
    exact shows_ascribed (shows_infer rules value) x ascription l
  | .definition f params returns body l =>
    exact shows_definition (shows_infer rules body) f params returns l
  | .number .. | .boolean .. | .name .. | .binary .. | .call .. | .lambda .. | .block ..
  | .conditional .. | .strayParam _ | .strayType _ | .strayProgram .. =>
    exact shows_uncheckable fun _ _ => by rw [check] <;> simp

theorem shows_inferEach (rules : Rules) (es : List Term) : ∀ e ∈ es, ShowsInfer rules e := by
  match es with
  | [] => simp
  | e :: es => exact List.forall_mem_cons.2 ⟨shows_infer rules e, shows_inferEach rules es⟩

theorem shows_checkEach (rules : Rules) (es : List Term) : ∀ e ∈ es, ShowsCheck rules e := by
  match es with
  | [] => simp
  | e :: es => exact List.forall_mem_cons.2 ⟨shows_check rules e, shows_checkEach rules es⟩

end

end Watched

end LetPoly
