-- Evaluation. Calls may be nested up to a given depth; a program cut off there
-- has no value.
import LetPoly.Diagnostic
import LetPoly.Log
import LetPoly.Text.Quoted
import LetPoly.Value

namespace LetPoly

/-! ## How evaluation fails -/

/-- Why a program has no value. -/
inductive EvalReason where
  | undefined (name : String)
  | divisionByZero
  /-- The value with this text was called. -/
  | notFunction (shown : String)
  | wrongCount (name : String) (expected actual : Nat)
  | depthExceeded
deriving DecidableEq, Repr, Inhabited

/-- The sentence that tells why. -/
def EvalReason.message : EvalReason → String
  | undefined name => "'" ++ name ++ "' is not defined here"
  | divisionByZero => "division by zero"
  | notFunction shown => shown ++ " is not a function"
  | wrongCount name expected actual =>
    name ++ " takes " ++ toString expected ++ " argument(s) but got " ++ toString actual
  | depthExceeded => "maximum recursion depth exceeded"

/-- An error of evaluation and the node at which it arose. -/
structure EvalError where
  reason : EvalReason
  node : Tag
deriving DecidableEq, Repr, Inhabited

/-- The report on the error. -/
def EvalError.diagnostic (e : EvalError) : Diagnostic :=
  Diagnostic.plain "RuntimeError" e.reason.message e.node.location

/-- How evaluation ends without a value. -/
inductive EvalFailure where
  | error (error : EvalError)
  /-- Calls were nested too deep. -/
  | tooDeep
  /-- An operator was given values of sorts that it is not for. -/
  | wrongSorts (operator : String) (left right : ValueSort)
  /-- There is no such operator. -/
  | unknownOperator (operator : String)
  /-- A number is too long to show. -/
  | unshowable
  /-- A node of this kind is no expression. -/
  | notExpression (kind : Kind)
  /-- A node of this kind is no statement. -/
  | notStatement (kind : Kind)
deriving DecidableEq, Repr, Inhabited

/-- The operators that compare by size. -/
def orderings : List String := ["<", "<=", ">", ">="]

/-- The sentence on an operator and the sorts that it is not for. -/
def EvalFailure.sortsText (operator : String) (left right : ValueSort) : String :=
  let sorts := "'" ++ left.label ++ "' and '" ++ right.label ++ "'"
  if operator ∈ orderings then
    "'" ++ operator ++ "' not supported between instances of " ++ sorts
  else
    "unsupported operand type(s) for " ++ (if operator = "/" then "//" else operator) ++ ": " ++
      sorts

/-- The sentence that tells how evaluation ended. -/
def EvalFailure.message : EvalFailure → String
  | error e => e.reason.message
  | tooDeep => EvalReason.depthExceeded.message
  | wrongSorts operator left right => sortsText operator left right
  | unknownOperator operator => Text.quoted operator
  | unshowable =>
    "Exceeds the limit (4300 digits) for integer string conversion; " ++
      "use sys.set_int_max_str_digits() to increase the limit"
  | notExpression kind => "cannot evaluate " ++ kind.label
  | notStatement kind => "cannot execute " ++ kind.label

/-- Steps of evaluation. The state is the number of the next closure. -/
abbrev Eval := EStateM EvalFailure Nat

namespace Eval

/-- Stop with an error at a node. -/
def fail {α : Type} (reason : EvalReason) (node : Tag) : Eval α :=
  throw (.error ⟨reason, node⟩)

/-- The number of the next closure. -/
def freshId : Eval Nat := do
  let id ← get
  set (id + 1)
  pure id

/-! ## Operators -/

/-- What an operator does to numbers, by the given function. -/
def arithmetic (operator : String) (f : Int → Int → Value) (a b : Value) : Eval Value :=
  match a.toInt?, b.toInt? with
  | some m, some n => pure (f m n)
  | _, _ => throw (.wrongSorts operator a.sort b.sort)

/-- The quotient, rounded down. A divisor that equals zero is refused before anything else. -/
def divide (a b : Value) (node : Tag) : Eval Value :=
  if b.same (.number 0) then fail .divisionByZero node
  else arithmetic "/" (fun m n => .number (m.fdiv n)) a b

/-- The value of an operation. -/
def operate (operator : String) (a b : Value) (node : Tag) : Eval Value :=
  match operator with
  | "/" => divide a b node
  | "+" => arithmetic "+" (fun m n => .number (m + n)) a b
  | "-" => arithmetic "-" (fun m n => .number (m - n)) a b
  | "*" => arithmetic "*" (fun m n => .number (m * n)) a b
  | "<" => arithmetic "<" (fun m n => .boolean (m < n)) a b
  | "<=" => arithmetic "<=" (fun m n => .boolean (m ≤ n)) a b
  | ">" => arithmetic ">" (fun m n => .boolean (m > n)) a b
  | ">=" => arithmetic ">=" (fun m n => .boolean (m ≥ n)) a b
  | "==" => pure (.boolean (a.same b))
  | "!=" => pure (.boolean (!a.same b))
  | other => throw (.unknownOperator other)

/-! ## Expressions and statements -/

/-- What a call at a node gives: the callee and the arguments are values already. -/
abbrev Caller := Value → List Value → Tag → Eval Value

mutual

/-- The value of an expression in a scope. -/
def evaluate (call : Caller) : Term → Scope → Eval Value
  | .number n _, _ => pure (.number n)
  | .boolean b _, _ => pure (.boolean b)
  | .name x l, scope =>
    match scope.get? x with
    | some v => pure v
    | none => fail (.undefined x) ⟨.name, l⟩
  | .binary left operator right l, scope => do
    let a ← evaluate call left scope
    let b ← evaluate call right scope
    operate operator a b ⟨.binary, l⟩
  | .call callee arguments l, scope => do
    let f ← evaluate call callee scope
    let vs ← evaluateAll call arguments scope
    call f vs ⟨.call, l⟩
  | .lambda params body _, scope => do
    let id ← freshId
    pure (.closure id "<lambda>" (params.map (·.name)) body scope)
  | .block statements none _, scope => do
    let _ ← executeAll call statements scope
    pure .unit
  | .block statements (some result) _, scope => do
    let inner ← executeAll call statements scope
    evaluate call result inner
  | .conditional condition thenBranch elseBranch _, scope => do
    let c ← evaluate call condition scope
    if c.isTrue then evaluate call thenBranch scope else evaluate call elseBranch scope
  | t, _ => throw (.notExpression t.kind)

/-- The scope after a statement. A scope is never changed, so closures made earlier keep what
they see. -/
def execute (call : Caller) : Term → Scope → Eval Scope
  | .letBinding x value _ _, scope => do
    let v ← evaluate call value scope
    pure (.bind x v scope)
  | .definition f params _ body _, scope => do
    let id ← freshId
    pure (.define id f (params.map (·.name)) body scope)
  | .discard expression _, scope => do
    let _ ← evaluate call expression scope
    pure scope
  | t, _ => throw (.notStatement t.kind)

/-- The values of expressions, from left to right. -/
def evaluateAll (call : Caller) : List Term → Scope → Eval (List Value)
  | [], _ => pure []
  | t :: more, scope => do
    let v ← evaluate call t scope
    let vs ← evaluateAll call more scope
    pure (v :: vs)

/-- The scope after statements, one after the other. -/
def executeAll (call : Caller) : List Term → Scope → Eval Scope
  | [], scope => pure scope
  | t :: more, scope => do
    let scope ← execute call t scope
    executeAll call more scope

end

/-- A call with at most the given number of calls nested in one another. -/
def call : Nat → Caller
  | depth, .closure _ name params body scope, args, node =>
    if args.length ≠ params.length then
      fail (.wrongCount name params.length args.length) node
    else
      match depth with
      | 0 => throw .tooDeep
      | depth + 1 => evaluate (call depth) body (scope.bindAll (params.zip args))
  | _, v, _, node =>
    match v.text? with
    | some shown => fail (.notFunction shown) node
    | none => throw .unshowable

end Eval

/-! ## Programs -/

/-- How a program is entered after its items. -/
inductive Entry where
  | result (expression : Term)
  /-- A function without parameters named `main`. -/
  | main (function : Value)
  | nothing

namespace Program

/-- How a program is entered, given the scope that its items leave. -/
def entry (p : Program) (scope : Scope) : Entry :=
  match p.result, scope.get? "main" with
  | some e, _ => .result e
  | none, some (.closure id name [] body outer) => .main (.closure id name [] body outer)
  | none, _ => .nothing

/-- The value of a program entered in the given way. -/
def enter (p : Program) (depth : Nat) (scope : Scope) : Entry → Eval Value
  | .result e => Eval.evaluate (Eval.call depth) e scope
  | .main f => Eval.call depth f [] p.tag
  | .nothing => pure .unit

/-- The value of a program, with calls nested at most as deep as given. -/
def evaluate (p : Program) (depth : Nat) : Eval Value := do
  let scope ← Eval.executeAll (Eval.call depth) p.statements .empty
  p.enter depth scope (p.entry scope)

/-- The value of a program. Calls nested too deep are an error at the program itself. -/
def run (p : Program) (depth : Nat) : Except EvalFailure Value :=
  match p.evaluate depth 0 with
  | .ok v _ => .ok v
  | .error .tooDeep _ => .error (.error ⟨.depthExceeded, p.tag⟩)
  | .error failure _ => .error failure

/-- The debug log of a run. -/
def runLog (p : Program) (depth : Nat) : List LogLine :=
  match Eval.executeAll (Eval.call depth) p.statements .empty 0 with
  | .ok scope _ =>
    match p.entry scope with
    | .main _ => [⟨"sfl.interpreter", "no trailing expression, calling main()"⟩]
    | _ => []
  | .error _ _ => []

end Program

end LetPoly
