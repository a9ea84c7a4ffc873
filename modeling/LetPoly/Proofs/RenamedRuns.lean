-- Static scoping: what a program does when it runs does not depend on what its binders
-- are called. Two closures are alike if their bodies are the same up to names and their
-- scopes bind the same binders to values that are alike; every step of evaluation keeps
-- to that, and so does every call, however deep.
import LetPoly.Eval
import LetPoly.Proofs.Scoping

namespace LetPoly

/-! ## Values and scopes that are alike -/

mutual

/-- Two values are the same up to the names of binders. Closures that are alike have the same
number, so they are told apart from others in the same way. -/
inductive Value.Alike : Value → Value → Prop
  | unit : Value.Alike .unit .unit
  | boolean (b : Bool) : Value.Alike (.boolean b) (.boolean b)
  | number (n : Int) : Value.Alike (.number n) (.number n)
  | closure {ρ : Scoping} {id : Nat} {name name' : String} {params params' : List String}
      {body body' : Term} {scope scope' : Scope} :
    Scope.Alike ρ scope scope' → params'.length = params.length →
    Term.Alike (ρ.enter params params') body body' →
    Value.Alike (.closure id name params body scope) (.closure id name' params' body' scope')

/-- Two scopes bind the same binders, in the same order, to values that are alike. -/
inductive Scope.Alike : Scoping → Scope → Scope → Prop
  | empty : Scope.Alike [] .empty .empty
  | bind {ρ : Scoping} {x x' : String} {v v' : Value} {scope scope' : Scope} :
    Scope.Alike ρ scope scope' → Value.Alike v v' →
    Scope.Alike ((x, x') :: ρ) (.bind x v scope) (.bind x' v' scope')
  | define {ρ : Scoping} {id : Nat} {f f' : String} {params params' : List String}
      {body body' : Term} {scope scope' : Scope} :
    Scope.Alike ρ scope scope' → params'.length = params.length →
    Term.Alike (Scoping.enter ((f, f') :: ρ) params params') body body' →
    Scope.Alike ((f, f') :: ρ) (.define id f params body scope)
      (.define id f' params' body' scope')

end

/-- Names of the same binder have values that are alike, and a name of none is the same name. -/
theorem Scope.Alike.get? {ρ : Scoping} {scope scope' : Scope} (h : scope.Alike ρ scope')
    {x x' : String} (hx : ρ.Same x x') :
    (∃ v v', scope.get? x = some v ∧ scope'.get? x' = some v' ∧ v.Alike v') ∨
      scope.get? x = none ∧ scope'.get? x' = none ∧ x' = x := by
  induction hx generalizing scope scope' with
  | free =>
    cases h
    exact .inr ⟨rfl, rfl, rfl⟩
  | here =>
    cases h with
    | bind _ hv =>
      rw [Scope.get?, Scope.get?, if_pos rfl, if_pos rfl]
      exact .inl ⟨_, _, rfl, rfl, hv⟩
    | define hs hl hb =>
      rw [Scope.get?, Scope.get?, if_pos rfl, if_pos rfl]
      -- the closure sees itself
      exact .inl ⟨_, _, rfl, rfl, .closure (.define hs hl hb) hl hb⟩
  | outer hx hx' _ ih =>
    cases h with
    | bind hs _ =>
      rw [Scope.get?, Scope.get?, if_neg hx, if_neg hx']
      exact ih hs
    | define hs _ _ =>
      rw [Scope.get?, Scope.get?, if_neg hx, if_neg hx']
      exact ih hs

/-- Arguments are bound side by side. -/
theorem Scope.Alike.bindAll {ρ : Scoping} {scope scope' : Scope} (h : scope.Alike ρ scope')
    {params params' : List String} (hl : params'.length = params.length) {args args' : List Value}
    (ha : List.Forall₂ Value.Alike args args') (hargs : args.length = params.length) :
    (scope.bindAll (params.zip args)).Alike (ρ.enter params params')
      (scope'.bindAll (params'.zip args')) := by
  induction ha generalizing ρ scope scope' params params' with
  | nil =>
    obtain rfl := List.length_eq_zero_iff.1 hargs.symm
    obtain rfl := List.length_eq_zero_iff.1 hl
    exact h
  | cons hv _ ih =>
    cases params with
    | nil => cases hargs
    | cons x params =>
      cases params' with
      | nil => cases hl
      | cons x' params' => exact ih (h.bind hv) (Nat.succ.inj hl) (Nat.succ.inj hargs)

namespace Value.Alike

variable {a a' b b' : Value}

theorem toInt? (h : a.Alike a') : a'.toInt? = a.toInt? := by
  cases h <;> rfl

theorem sort (h : a.Alike a') : a'.sort = a.sort := by
  cases h <;> rfl

theorem isTrue (h : a.Alike a') : a'.isTrue = a.isTrue := by
  cases h <;> rfl

theorem same (ha : a.Alike a') (hb : b.Alike b') : a'.same b' = a.same b := by
  unfold Value.same
  rw [ha.toInt?, hb.toInt?]
  cases ha <;> cases hb <;> rfl

end Value.Alike

/-! ## Runs in step -/

/-- A failure but for the name of the function that was called with the wrong number of
arguments. -/
def EvalFailure.anonymous : EvalFailure → EvalFailure
  | .error ⟨.wrongCount _ expected actual, node⟩ => .error ⟨.wrongCount "" expected actual, node⟩
  | failure => failure

theorem EvalFailure.anonymous_eq_tooDeep {e : EvalFailure} :
    e.anonymous = .tooDeep ↔ e = .tooDeep := by
  unfold anonymous
  split
  · simp
  · exact Iff.rfl

namespace Eval

variable {α β γ δ : Type}

/-- Two runs end alike and have made the same number of closures. -/
inductive Ends (P : α → β → Prop) :
    EStateM.Result EvalFailure Nat α → EStateM.Result EvalFailure Nat β → Prop
  | ok {a : α} {b : β} {n : Nat} : P a b → Ends P (.ok a n) (.ok b n)
  | error {e e' : EvalFailure} {n : Nat} : e'.anonymous = e.anonymous →
    Ends P (.error e n) (.error e' n)

/-- Two steps end alike, wherever they start together. -/
def InStep (x : Eval α) (y : Eval β) (P : α → β → Prop) : Prop :=
  ∀ n, Ends P (x n) (y n)

section

variable {x : Eval α} {y : Eval β} {k : α → Eval γ} {l : β → Eval δ} {P : α → β → Prop}
  {Q : γ → δ → Prop}

theorem inStep_pure {a : α} {b : β} (h : P a b) : InStep (pure a) (pure b) P :=
  fun _ => .ok h

theorem inStep_throw {e e' : EvalFailure} (h : e'.anonymous = e.anonymous) :
    InStep (throw e : Eval α) (throw e' : Eval β) P :=
  fun _ => .error h

theorem InStep.bind (hx : InStep x y P) (hk : ∀ a b, P a b → InStep (k a) (l b) Q) :
    InStep (x >>= k) (y >>= l) Q := by
  intro n
  have h := hx n
  generalize hr : x n = r at h
  generalize hr' : y n = r' at h
  cases h with
  | ok hab =>
    rw [bind_of_ok hr, bind_of_ok hr']
    exact hk _ _ hab _
  | error he =>
    rw [bind_of_error hr, bind_of_error hr']
    exact .error he

end

theorem inStep_freshId : InStep freshId freshId Eq :=
  fun _ => .ok rfl

section

variable {a a' b b' : Value}

theorem inStep_arithmetic {operator : String} {f : Int → Int → Value}
    (hf : ∀ m n, (f m n).Alike (f m n)) (ha : a.Alike a') (hb : b.Alike b') :
    InStep (arithmetic operator f a b) (arithmetic operator f a' b') Value.Alike := by
  unfold arithmetic
  rw [ha.toInt?, hb.toInt?, ha.sort, hb.sort]
  split
  · exact inStep_pure (hf _ _)
  · exact inStep_throw rfl

theorem inStep_divide (ha : a.Alike a') (hb : b.Alike b') (node : Tag) :
    InStep (divide a b node) (divide a' b' node) Value.Alike := by
  unfold divide
  rw [hb.same (.number 0)]
  split
  · exact inStep_throw rfl
  · exact inStep_arithmetic (fun _ _ => .number _) ha hb

theorem inStep_operate (operator : String) (ha : a.Alike a') (hb : b.Alike b') (node : Tag) :
    InStep (operate operator a b node) (operate operator a' b' node) Value.Alike := by
  unfold operate
  split
  · exact inStep_divide ha hb node
  · exact inStep_arithmetic (fun _ _ => .number _) ha hb
  · exact inStep_arithmetic (fun _ _ => .number _) ha hb
  · exact inStep_arithmetic (fun _ _ => .number _) ha hb
  · exact inStep_arithmetic (fun _ _ => .boolean _) ha hb
  · exact inStep_arithmetic (fun _ _ => .boolean _) ha hb
  · exact inStep_arithmetic (fun _ _ => .boolean _) ha hb
  · exact inStep_arithmetic (fun _ _ => .boolean _) ha hb
  · rw [ha.same hb]
    exact inStep_pure (.boolean _)
  · rw [ha.same hb]
    exact inStep_pure (.boolean _)
  · exact inStep_throw rfl

end

/-! ## Expressions and statements -/

/-- Calls of functions that are alike, with arguments that are alike, end alike. -/
def CallsInStep (call : Caller) : Prop :=
  ∀ f f' args args' node, Value.Alike f f' → List.Forall₂ Value.Alike args args' →
    InStep (call f args node) (call f' args' node) Value.Alike

section

variable {call : Caller}

mutual

/-- Expressions that are the same up to names have values that are. -/
theorem inStep_evaluate (hc : CallsInStep call) {ρ : Scoping} {e e' : Term}
    (h : Term.Alike ρ e e') {scope scope' : Scope} (hs : scope.Alike ρ scope') :
    InStep (evaluate call e scope) (evaluate call e' scope') Value.Alike := by
  match h with
  | .number => exact inStep_pure (.number _)
  | .boolean => exact inStep_pure (.boolean _)
  | .name hx =>
    rw [evaluate, evaluate]
    rcases hs.get? hx with ⟨v, v', hv, hv', hvv⟩ | ⟨hv, hv', rfl⟩
    · rw [hv, hv']
      exact inStep_pure hvv
    · rw [hv, hv']
      exact inStep_throw rfl
  | .binary hl hr =>
    rw [evaluate, evaluate]
    refine (inStep_evaluate hc hl hs).bind fun a a' ha => ?_
    refine (inStep_evaluate hc hr hs).bind fun b b' hb => ?_
    exact inStep_operate _ ha hb _
  | .call hf ha =>
    rw [evaluate, evaluate]
    refine (inStep_evaluate hc hf hs).bind fun f f' hf => ?_
    refine (inStep_evaluateAll hc ha hs).bind fun vs vs' hvs => ?_
    exact hc f f' vs vs' _ hf hvs
  | .lambda hp hb =>
    rw [evaluate, evaluate]
    refine inStep_freshId.bind ?_
    rintro id _ rfl
    refine inStep_pure (.closure hs ?_ hb)
    rw [List.length_map, List.length_map, hp.length_eq]
  | .unit hss =>
    rw [evaluate, evaluate]
    exact (inStep_executeAll hc hss hs).bind fun _ _ _ => inStep_pure .unit
  | .block hss hr =>
    rw [evaluate, evaluate]
    exact (inStep_executeAll hc hss hs).bind fun _ _ hs' => inStep_evaluate hc hr hs'
  | .conditional hcond ht he =>
    rw [evaluate, evaluate]
    refine (inStep_evaluate hc hcond hs).bind fun c c' hcc => ?_
    rw [hcc.isTrue]
    split
    · exact inStep_evaluate hc ht hs
    · exact inStep_evaluate hc he hs

theorem inStep_evaluateAll (hc : CallsInStep call) {ρ : Scoping} {es es' : List Term}
    (h : Term.AlikeAll ρ es es') {scope scope' : Scope} (hs : scope.Alike ρ scope') :
    InStep (evaluateAll call es scope) (evaluateAll call es' scope')
      (List.Forall₂ Value.Alike) := by
  match h with
  | .nil => exact inStep_pure .nil
  | .cons h htail =>
    rw [evaluateAll, evaluateAll]
    refine (inStep_evaluate hc h hs).bind fun v v' hv => ?_
    exact (inStep_evaluateAll hc htail hs).bind fun vs vs' hvs => inStep_pure (.cons hv hvs)

/-- Statements that are the same up to names leave scopes that are alike. -/
theorem inStep_execute (hc : CallsInStep call) {ρ ρ' : Scoping} {e e' : Term}
    (h : Term.AlikeItem ρ e e' ρ') {scope scope' : Scope} (hs : scope.Alike ρ scope') :
    InStep (execute call e scope) (execute call e' scope') (Scope.Alike ρ') := by
  match h with
  | .discard h =>
    rw [execute, execute]
    exact (inStep_evaluate hc h hs).bind fun _ _ _ => inStep_pure hs
  | .letBinding h =>
    rw [execute, execute]
    exact (inStep_evaluate hc h hs).bind fun _ _ hv => inStep_pure (hs.bind hv)
  | .definition hp hb =>
    rw [execute, execute]
    refine inStep_freshId.bind ?_
    rintro id _ rfl
    refine inStep_pure (hs.define ?_ hb)
    rw [List.length_map, List.length_map, hp.length_eq]

theorem inStep_executeAll (hc : CallsInStep call) {ρ ρ' : Scoping} {es es' : List Term}
    (h : Term.AlikeItems ρ es es' ρ') {scope scope' : Scope} (hs : scope.Alike ρ scope') :
    InStep (executeAll call es scope) (executeAll call es' scope') (Scope.Alike ρ') := by
  match h with
  | .nil => exact inStep_pure hs
  | .cons h htail =>
    rw [executeAll, executeAll]
    exact (inStep_execute hc h hs).bind fun _ _ hs' => inStep_executeAll hc htail hs'

end

end

/-- What is no function cannot be called, with whatever arguments. -/
theorem inStep_call_other {f : Value} (hf : ∀ id name params body scope,
      f ≠ .closure id name params body scope) (depth : Nat) (args args' : List Value) (node : Tag) :
    InStep (Eval.call depth f args node) (Eval.call depth f args' node) Value.Alike := by
  rw [Eval.call, Eval.call]
  · split
    · exact inStep_throw rfl
    · exact inStep_throw rfl
  · exact hf
  · exact hf

theorem call_wrongCount {params : List String} {args : List Value}
    (h : args.length ≠ params.length) {depth id : Nat} {name : String} {body : Term}
    {scope : Scope} {node : Tag} :
    Eval.call depth (.closure id name params body scope) args node =
      fail (.wrongCount name params.length args.length) node := by
  cases depth <;> rw [Eval.call, if_pos h]

/-- Calls end alike to every depth: the bodies are evaluated with calls of one level less, and at
the last level both calls are cut off. -/
theorem inStep_call (depth : Nat) : CallsInStep (Eval.call depth) := by
  intro f f' args args' node hf ha
  cases hf with
  | unit | boolean _ | number _ =>
    exact inStep_call_other (fun _ _ _ _ _ h => by cases h) depth args args' node
  | @closure ρ id name name' params params' body body' scope scope' hs hl hb =>
    by_cases hargs : args.length = params.length
    · have hargs' : args'.length = params'.length := by rw [← ha.length_eq, hargs, hl]
      cases depth with
      | zero =>
        rw [Eval.call, Eval.call, if_neg (not_not_intro hargs), if_neg (not_not_intro hargs')]
        exact inStep_throw rfl
      | succ depth =>
        rw [Eval.call, Eval.call, if_neg (not_not_intro hargs), if_neg (not_not_intro hargs')]
        exact inStep_evaluate (inStep_call depth) hb (hs.bindAll hl ha hargs)
    · have hargs' : args'.length ≠ params'.length := by
        rw [← ha.length_eq, hl]
        exact hargs
      rw [call_wrongCount hargs, call_wrongCount hargs', ← ha.length_eq, hl]
      exact inStep_throw rfl

end Eval

/-! ## Programs -/

/-- What can be told of a value without a look into functions. -/
inductive Outline where
  | unit
  | boolean (value : Bool)
  | number (value : Int)
  | function (arity : Nat)
deriving DecidableEq, Repr

def Value.outline : Value → Outline
  | unit => .unit
  | boolean b => .boolean b
  | number n => .number n
  | closure _ _ params _ _ => .function params.length

theorem Value.Alike.outline {v v' : Value} (h : v.Alike v') : v'.outline = v.outline := by
  cases h with
  | unit | boolean _ | number _ => rfl
  | closure _ hl _ => exact congrArg Outline.function hl

namespace Program

/-- What comes of a run: the outline of a value, or a failure but for the name of a function. -/
def outcome (p : Program) (depth : Nat) : Except EvalFailure Outline :=
  match p.run depth with
  | .ok v => .ok v.outline
  | .error failure => .error failure.anonymous

variable {p p' : Program} {ρ : Scoping}

/-- Both programs call their `main`, or neither does. -/
theorem Alike.inStep_enter (h : p.Alike p' ρ) (depth : Nat) {scope scope' : Scope}
    (hs : scope.Alike ρ scope') :
    Eval.InStep (p.enter depth scope (p.entry scope)) (p'.enter depth scope' (p'.entry scope'))
      Value.Alike := by
  have hresult := h.result
  unfold entry
  generalize p.result = o at hresult ⊢
  generalize p'.result = o' at hresult ⊢
  cases hresult with
  | some he => exact Eval.inStep_evaluate (Eval.inStep_call depth) he hs
  | none =>
    rcases hs.get? h.main with ⟨v, v', hv, hv', hvv⟩ | ⟨hv, hv', -⟩
    · rw [hv, hv']
      cases hvv with
      | unit | boolean _ | number _ => exact Eval.inStep_pure .unit
      | @closure ρ' id name name' params params' body body' outer outer' ho hl hb =>
        cases params with
        | nil =>
          obtain rfl := List.length_eq_zero_iff.1 hl
          simp only [enter, h.tag]
          exact Eval.inStep_call depth _ _ _ _ _ (.closure ho rfl hb) .nil
        | cons x params =>
          cases params' with
          | nil => cases hl
          | cons x' params' => exact Eval.inStep_pure .unit
    · rw [hv, hv']
      exact Eval.inStep_pure .unit

/-- Programs that are the same up to names have the same outcome. -/
theorem Alike.outcome_eq (h : p.Alike p' ρ) (depth : Nat) : p'.outcome depth = p.outcome depth := by
  have hrun : Eval.InStep (p.evaluate depth) (p'.evaluate depth) Value.Alike := by
    refine (Eval.inStep_executeAll (Eval.inStep_call depth) h.statements .empty).bind ?_
    exact fun _ _ hs => h.inStep_enter depth hs
  have hend := hrun 0
  unfold outcome run
  generalize p.evaluate depth 0 = r at hend ⊢
  generalize p'.evaluate depth 0 = r' at hend ⊢
  cases hend with
  | ok hv => exact congrArg Except.ok hv.outline
  | @error e e' n he =>
    have hdeep : e' = .tooDeep ↔ e = .tooDeep := by
      rw [← EvalFailure.anonymous_eq_tooDeep, he, EvalFailure.anonymous_eq_tooDeep]
    by_cases htoo : e = .tooDeep
    · obtain rfl := hdeep.2 htoo
      obtain rfl := htoo
      simp only [h.tag]
    · simp [mt hdeep.1 htoo, he]

end Program

end LetPoly
