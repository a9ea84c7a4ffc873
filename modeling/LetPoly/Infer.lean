-- Type inference: for an expression a substitution and a type, for a statement a
-- substitution and the environment of what follows.
import LetPoly.Log
import LetPoly.Scheme
import LetPoly.Signature
import LetPoly.Token

namespace LetPoly

/-! ## What inference is given, keeps and tells -/

/-- The base types and operators of the language. -/
structure Rules where
  baseTypes : List String
  operators : Table String Scheme
deriving DecidableEq, Repr, Inhabited

namespace Rules

/-- The type of the operators on two numbers with the given result. -/
def numeric (result : Ty) : Scheme := .mono (.fn [.number, .number] result)

/-- The type of the operators that compare two values of one type. -/
def equality : Scheme := ⟨[-1], .fn [.var (-1), .var (-1)] .bool, by decide⟩

/-- The operators of the language. -/
def standardOperators : Table String Scheme :=
  ⟨[("+", numeric .number), ("-", numeric .number), ("*", numeric .number),
    ("/", numeric .number), ("<", numeric .bool), ("<=", numeric .bool), (">", numeric .bool),
    (">=", numeric .bool), ("==", equality), ("!=", equality)], by decide⟩

/-- The language with some base types added. -/
def standard (extraTypes : List String) : Rules :=
  ⟨Ty.baseNames ++ extraTypes, standardOperators⟩

end Rules

/-- What happens during inference. -/
inductive Event where
  /-- A node got a type, which later substitutions may still refine. -/
  | typed (site : Site) (type : Ty)
  /-- Two types were compared. -/
  | compared (equation : Equation)
  /-- A statement bound a name. -/
  | bound (word : Keyword) (name : String) (scheme : Scheme)
deriving DecidableEq, Repr, Inhabited

namespace Event

/-- The node and the type that an event tells of. -/
def typed? : Event → Option (Site × Ty)
  | typed site type => some (site, type)
  | _ => none

/-- The line that an event leaves in the log. -/
def logLine? : Event → Option LogLine
  | typed _ _ => none
  | compared (expected, actual) =>
    some ⟨"sfl.unify", "unify " ++ expected.text ++ " ~ " ++ actual.text⟩
  | bound word name scheme =>
    some ⟨"sfl.inference", word.text ++ " " ++ name ++ " : " ++ scheme.text⟩

end Event

/-- The next unused variable, and what happened so far. -/
structure InferState where
  next : Int
  journal : Array Event
deriving Repr, Inhabited

namespace InferState

/-- Nothing happened yet. -/
def start (next : Int) : InferState := ⟨next, #[]⟩

/-- The types given to nodes, in order. -/
def types (s : InferState) : List (Site × Ty) := s.journal.toList.filterMap Event.typed?

end InferState

/-- Why inference stops. -/
inductive InferFailure where
  /-- The program is wrong. -/
  | typeError (error : TypeError)
  /-- A substitution leads into a cycle. -/
  | cyclic
  /-- A node of this kind is no expression. -/
  | notExpression (kind : Kind)
  /-- A node of this kind is no statement. -/
  | notStatement (kind : Kind)
  /-- What is called by the first name lacks the part called by the second: an operator that is no
  function has no parameters, and a body that is no block has no result. -/
  | malformed (holder part : String)
deriving DecidableEq, Repr, Inhabited

/-- The sentence that tells why inference stopped. -/
def InferFailure.message : InferFailure → String
  | typeError error => error.message
  | cyclic => "maximum recursion depth exceeded"
  | notExpression kind => "cannot infer the type of " ++ kind.label
  | notStatement kind => "cannot check " ++ kind.label
  | malformed holder part => "'" ++ holder ++ "' object has no attribute '" ++ part ++ "'"

/-- Steps of inference. What happened before a failure stays on record. -/
abbrev Infer := EStateM InferFailure InferState

namespace Infer

/-! ## Steps -/

/-- Put events on record. -/
def noteAll (events : List Event) : Infer Unit :=
  modify fun s => { s with journal := s.journal ++ events }

/-- Put an event on record. -/
def note (event : Event) : Infer Unit := noteAll [event]

/-- The result of a substitution, which has none in a cycle. -/
def orCyclic {α : Type} : Option α → Infer α
  | some a => pure a
  | none => throw .cyclic

/-- A substitution applied to a type. -/
def apply (s : Subst) (t : Ty) : Infer Ty := orCyclic (s.expand? t)

/-- A substitution applied to types. -/
def applyAll (s : Subst) (ts : List Ty) : Infer (List Ty) := orCyclic (s.expandAll? ts)

/-- A substitution applied to an environment. -/
def applyEnv (s : Subst) (env : Env) : Infer Env := orCyclic (Env.expand? s env)

/-- First `earlier`, then `later`. -/
def compose (later earlier : Subst) : Infer Subst := orCyclic (later.compose? earlier)

/-- Stop with an error at a node. -/
def fail {α : Type} (reason : Reason) (site : Site) : Infer α :=
  throw (.typeError (.placed reason site))

/-- The next unused variable. -/
def fresh : Infer Ty := do
  let s ← get
  set { s with next := s.next + 1 }
  pure (.var s.next)

/-- The given number of unused variables. -/
def freshMany : Nat → Infer (List Ty)
  | 0 => pure []
  | n + 1 => do
    let t ← fresh
    let ts ← freshMany n
    pure (t :: ts)

/-- A scheme's body with fresh variables for the bound ones. -/
def instantiate (scheme : Scheme) : Infer Ty := do
  let s ← get
  let (t, next) := scheme.instantiate? s.next
  set { s with next }
  orCyclic t

/-- Read annotations, starting with no quoted names. -/
def reading {α : Type} (step : Naming.Step α) : Infer α := fun s =>
  match step ⟨s.next, Table.empty⟩ with
  | .ok a naming => .ok a { s with next := naming.next }
  | .error e naming => .error (.typeError e) { s with next := naming.next }

/-- Unify two types; `blame` says what a clash comes to. -/
def unifyOr (expected actual : Ty) (blame : Clash → InferFailure) : Infer Subst := do
  noteAll ((Unify.compared [(expected, actual)]).map .compared)
  match unify expected actual with
  | .ok s => pure s
  | .error clash => throw (blame clash)

/-- Unify two types; a clash is put down to a node. -/
def unifyAt (expected actual : Ty) (site : Site) : Infer Subst :=
  unifyOr expected actual fun clash => .typeError (.placed (.clash clash) site)

/-- Record the type of a node and give it back with the substitution. -/
def conclude (site : Site) (s : Subst) (t : Ty) : Infer (Subst × Ty) := do
  note (.typed site t)
  pure (s, t)

/-- The environment with parameters of the given types. -/
def withParams (env : Env) (params : List Param) (types : List Ty) : Env :=
  env.insertAll ((params.zip types).map fun (p, t) => (p.name, Scheme.mono t))

/-- Record the types of the parameters in the slots from `slot` on. -/
def noteParams (position : Position) : Nat → List Param → List Ty → Infer Unit
  | slot, p :: params, t :: types => do
    note (.typed (p.site (slot :: position)) t)
    noteParams position (slot + 1) params types
  | _, _, _ => pure ()

/-- Infer an argument under the substitution so far and unify its type with the parameter's. -/
def argument (infer : Env → Infer (Subst × Ty)) (site : Site) (param : Ty) (s : Subst)
    (env : Env) : Infer Subst := do
  let (s₁, t) ← infer (← applyEnv s env)
  let s ← compose s₁ s
  let s₂ ← unifyAt (← apply s param) t site
  compose s₂ s

/-- Where the result of a function's body stands: the last expression of its block, or the
definition itself where the block has none. -/
def resultSite? (definition : Site) (body : Term) (position : Position) : Option Site :=
  match body with
  | .block statements (some result) _ => some (result.site (statements.length :: position))
  | .block _ none _ => some definition
  | _ => none

/-! ## The rules -/

mutual

/-- The type of an expression at a position, and what it takes of the environment's variables. -/
def infer (rules : Rules) : Term → Env → Position → Infer (Subst × Ty)
  | .number _ l, _, position => conclude ⟨⟨.number, l⟩, position⟩ Subst.empty .number
  | .boolean _ l, _, position => conclude ⟨⟨.boolean, l⟩, position⟩ Subst.empty .bool
  | .name x l, env, position => do
    let site : Site := ⟨⟨.name, l⟩, position⟩
    match env.get? x with
    | none => fail (.unbound x) site
    | some scheme =>
      let t ← instantiate scheme
      conclude site Subst.empty t
  | .binary left operator right l, env, position => do
    let site : Site := ⟨⟨.binary, l⟩, position⟩
    match rules.operators.get? operator with
    | none => fail (.unbound operator) site
    | some scheme =>
      match ← instantiate scheme with
      | .fn params result =>
        let s ← match params with
          | [] => pure Subst.empty
          | [p] =>
            argument (fun env => infer rules left env (0 :: position)) (left.site (0 :: position))
              p Subst.empty env
          | p :: q :: _ => do
            let s ← argument (fun env => infer rules left env (0 :: position))
              (left.site (0 :: position)) p Subst.empty env
            argument (fun env => infer rules right env (1 :: position))
              (right.site (1 :: position)) q s env
        conclude site s (← apply s result)
      | .var _ => throw (.malformed "TypeVar" "params")
      | .con _ => throw (.malformed "TypeCon" "params")
  | .call callee arguments l, env, position => do
    let site : Site := ⟨⟨.call, l⟩, position⟩
    let (s₁, calleeType) ← infer rules callee env (0 :: position)
    let params ← freshMany arguments.length
    let result ← fresh
    let s₂ ← unifyAt calleeType (.fn params result) site
    let s ← inferAll rules arguments params (← compose s₂ s₁) env position 1
    conclude site s (← apply s result)
  | .lambda params body l, env, position => do
    let types ← reading (Param.resolveAll rules.baseTypes params position 0)
    noteParams position 0 params types
    let (s, t) ← infer rules body (withParams env params types) (params.length :: position)
    conclude ⟨⟨.lambda, l⟩, position⟩ s (.fn (← applyAll s types) t)
  | .block statements none l, env, position => do
    let (s, _) ← checkAll rules statements env position 0 Subst.empty
    conclude ⟨⟨.block, l⟩, position⟩ s .unit
  | .block statements (some result) l, env, position => do
    let (s, env) ← checkAll rules statements env position 0 Subst.empty
    let (s₁, t) ← infer rules result env (statements.length :: position)
    conclude ⟨⟨.block, l⟩, position⟩ (← compose s₁ s) t
  | .conditional condition thenBranch elseBranch l, env, position => do
    let site : Site := ⟨⟨.conditional, l⟩, position⟩
    let (s₁, conditionType) ← infer rules condition env (0 :: position)
    let s ← compose (← unifyAt .bool conditionType (condition.site (0 :: position))) s₁
    let (s₁, thenType) ← infer rules thenBranch (← applyEnv s env) (1 :: position)
    let s ← compose s₁ s
    let (s₁, elseType) ← infer rules elseBranch (← applyEnv s env) (2 :: position)
    let s ← compose s₁ s
    let thenType ← apply s thenType
    let s₁ ← unifyOr thenType elseType fun clash =>
      .typeError (.placed (.branches thenType elseType clash) site)
    let s ← compose s₁ s
    conclude site s (← apply s thenType)
  | t, _, _ => throw (.notExpression t.kind)

/-- What a statement at a position takes of the environment's variables, and the environment of
what follows it. -/
def check (rules : Rules) : Term → Env → Position → Infer (Subst × Env)
  | .discard expression l, env, position => do
    let (s, t) ← infer rules expression env (0 :: position)
    note (.typed ⟨⟨.discard, l⟩, position⟩ t)
    pure (s, ← applyEnv s env)
  | .letBinding x value none l, env, position => do
    let (s, t) ← infer rules value env (0 :: position)
    let outer ← applyEnv s env
    let scheme := Env.generalize outer t
    note (.typed ⟨⟨.letBinding, l⟩, position⟩ t)
    note (.bound .letWord x scheme)
    pure (s, outer.insert x scheme)
  | .letBinding x value (some ascription) l, env, position => do
    let (s, t) ← infer rules value env (0 :: position)
    let declared ← reading (ascription.resolve rules.baseTypes (1 :: position))
    let s₁ ← unifyAt declared t (value.site (0 :: position))
    let s ← compose s₁ s
    let t ← apply s₁ t
    let outer ← applyEnv s env
    let scheme := Env.generalize outer t
    note (.typed ⟨⟨.letBinding, l⟩, position⟩ t)
    note (.bound .letWord x scheme)
    pure (s, outer.insert x scheme)
  | .definition f params returns body l, env, position => do
    let site : Site := ⟨⟨.definition, l⟩, position⟩
    let (types, result) ← reading (signature rules.baseTypes params returns position)
    let inner := withParams (env.insert f (.mono (.fn types result))) params types
    noteParams position 0 params types
    let (s, bodyType) ← infer rules body inner ((params.length + 1) :: position)
    let declared ← apply s result
    let s₁ ← unifyOr declared bodyType fun clash =>
      match resultSite? site body ((params.length + 1) :: position) with
      | some blamed => .typeError (.placed (.returns declared bodyType clash) blamed)
      | none => .malformed body.kind.label "result"
    let s ← compose s₁ s
    let outer ← applyEnv s env
    let final ← apply s (.fn types result)
    let scheme := Env.generalize outer final
    note (.typed site final)
    note (.bound .defWord f scheme)
    pure (s, outer.insert f scheme)
  | t, _, _ => throw (.notStatement t.kind)

/-- The arguments of a call in the slots from `slot` on, each unified with its parameter. -/
def inferAll (rules : Rules) :
    List Term → List Ty → Subst → Env → Position → Nat → Infer Subst
  | t :: more, param :: params, s, env, position, slot => do
    let s ← argument (fun env => infer rules t env (slot :: position)) (t.site (slot :: position))
      param s env
    inferAll rules more params s env position (slot + 1)
  | _, _, s, _, _, _ => pure s

/-- The statements in the slots from `slot` on, one after the other. -/
def checkAll (rules : Rules) :
    List Term → Env → Position → Nat → Subst → Infer (Subst × Env)
  | [], env, _, _, s => pure (s, env)
  | t :: more, env, position, slot, s => do
    let (s₁, env) ← check rules t env (slot :: position)
    checkAll rules more env position (slot + 1) (← compose s₁ s)

end

end Infer

end LetPoly
