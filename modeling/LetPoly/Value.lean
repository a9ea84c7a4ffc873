-- Values, and the scopes in which names stand for them.
import LetPoly.Term
import LetPoly.Text.Digit

namespace LetPoly

mutual

/-- A value. Each evaluation of a function makes a closure of its own, told apart from all others
by its number. -/
inductive Value where
  | unit
  | boolean (value : Bool)
  | number (value : Int)
  | closure (id : Nat) (name : String) (params : List String) (body : Term) (scope : Scope)

/-- The names in scope, the innermost first. -/
inductive Scope where
  | empty
  | bind (name : String) (value : Value) (outer : Scope)
  /-- A defined function, which sees itself. -/
  | define (id : Nat) (name : String) (params : List String) (body : Term) (outer : Scope)

end

namespace Scope

/-- The value of a name. -/
def get? (name : String) : Scope → Option Value
  | empty => none
  | bind x v outer => if x = name then some v else get? name outer
  | define id f params body outer =>
    if f = name then some (.closure id f params body (define id f params body outer))
    else get? name outer

/-- The scope with names bound one after the other, so that of equal names the last counts. -/
def bindAll (scope : Scope) : List (String × Value) → Scope
  | [] => scope
  | (x, v) :: more => bindAll (bind x v scope) more

end Scope

/-- The sorts of values. -/
inductive ValueSort where
  | unit | boolean | number | function
deriving DecidableEq, Repr, Inhabited

/-- What a sort is called in messages. -/
def ValueSort.label : ValueSort → String
  | unit => "NoneType"
  | boolean => "bool"
  | number => "int"
  | function => "Closure"

namespace Value

/-- The sort of a value. -/
def sort : Value → ValueSort
  | unit => .unit
  | boolean _ => .boolean
  | number _ => .number
  | closure .. => .function

/-- A value in print. A number may be too long to show. -/
def text? : Value → Option String
  | unit => some "()"
  | boolean true => some "true"
  | boolean false => some "false"
  | number n => Text.showInt? n
  | closure _ name params _ _ =>
    some ("<function " ++ name ++ "/" ++ toString params.length ++ ">")

/-- A value as a number: truth values count as one and zero. -/
def toInt? : Value → Option Int
  | number n => some n
  | boolean b => some (if b then 1 else 0)
  | _ => none

/-- A value as a condition: zero, false and unit count as false. -/
def isTrue : Value → Bool
  | unit => false
  | boolean b => b
  | number n => n != 0
  | closure .. => true

/-- Two values are equal: as numbers, as unit, or as the same closure. -/
def same (a b : Value) : Bool :=
  match a.toInt?, b.toInt? with
  | some m, some n => m == n
  | _, _ =>
    match a, b with
    | unit, unit => true
    | closure i .., closure j .. => i == j
    | _, _ => false

end Value

end LetPoly
