-- What annotations say: the types of parameters and results. A quoted name
-- stands for one variable throughout a signature, and a missing annotation for
-- a variable of its own.
import LetPoly.Table
import LetPoly.TypeError

namespace LetPoly

/-- The next unused variable, and the variables of the quoted names met so far. -/
structure Naming where
  next : Int
  scope : Table String Int
deriving DecidableEq, Repr, Inhabited

/-- Steps that read annotations. Variables drawn before an error stay drawn. -/
abbrev Naming.Step := EStateM TypeError Naming

namespace Naming

/-- The next unused variable. -/
def fresh : Step Ty := do
  let s ← get
  set { s with next := s.next + 1 }
  pure (.var s.next)

/-- The variable of a quoted name: the one met before, or the next unused one. -/
def quoted (name : String) : Step Ty := do
  let s ← get
  match s.scope.get? name with
  | some v => pure (.var v)
  | none =>
    set (⟨s.next + 1, s.scope.insert name s.next⟩ : Naming)
    pure (.var s.next)

end Naming

namespace TypeExpr

mutual

/-- The type that an annotation stands for. -/
def resolve (baseTypes : List String) : TypeExpr → Position → Naming.Step Ty
  | named name l, position =>
    if name ∈ baseTypes then pure (.con name)
    else throw (.placed (.unknownType name) ⟨⟨.namedType, l⟩, position⟩)
  | quoted name _, _ => Naming.quoted name
  | arrow params result _, position => do
    let params' ← resolveAll baseTypes params position 0
    let result' ← resolve baseTypes result (params.length :: position)
    pure (.fn params' result')

/-- The types that the annotations in the slots from `slot` on stand for. -/
def resolveAll (baseTypes : List String) : List TypeExpr → Position → Nat → Naming.Step (List Ty)
  | [], _, _ => pure []
  | t :: more, position, slot => do
    let t' ← resolve baseTypes t (slot :: position)
    let more' ← resolveAll baseTypes more position (slot + 1)
    pure (t' :: more')

end

/-- The type that an annotation stands for, or a fresh variable where there is none. -/
def resolveOption (baseTypes : List String) (t : Option TypeExpr) (position : Position) :
    Naming.Step Ty :=
  match t with
  | none => Naming.fresh
  | some t => t.resolve baseTypes position

end TypeExpr

/-- The types of the parameters in the slots from `slot` on. -/
def Param.resolveAll (baseTypes : List String) :
    List Param → Position → Nat → Naming.Step (List Ty)
  | [], _, _ => pure []
  | p :: more, position, slot => do
    let t ← TypeExpr.resolveOption baseTypes p.ascription (0 :: slot :: position)
    let ts ← resolveAll baseTypes more position (slot + 1)
    pure (t :: ts)

/-- The types of the parameters and of the result of a function at a position. -/
def signature (baseTypes : List String) (params : List Param) (returns : Option TypeExpr)
    (position : Position) : Naming.Step (List Ty × Ty) := do
  let types ← Param.resolveAll baseTypes params position 0
  let result ← TypeExpr.resolveOption baseTypes returns (params.length :: position)
  pure (types, result)

end LetPoly
