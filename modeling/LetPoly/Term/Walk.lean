-- All nodes of a tree, each before its children. The slots of a node number
-- its children in the order in which they are visited.
import LetPoly.Term

namespace LetPoly

/-- A node met on a walk, and how many children it has. -/
structure Visit where
  site : Site
  children : Nat
deriving DecidableEq, Repr, Inhabited

namespace TypeExpr

mutual

/-- The nodes of an annotation. -/
def walk (position : Position) : TypeExpr → List Visit
  | named n l => [⟨(named n l).site position, 0⟩]
  | quoted n l => [⟨(quoted n l).site position, 0⟩]
  | arrow params result l =>
    ⟨(arrow params result l).site position, params.length + 1⟩ ::
      (walkAll position 0 params ++ walk (params.length :: position) result)

/-- The nodes of the annotations in the slots from `slot` on. -/
def walkAll (position : Position) (slot : Nat) : List TypeExpr → List Visit
  | [] => []
  | t :: more => walk (slot :: position) t ++ walkAll position (slot + 1) more

end

/-- The nodes of an annotation that may be missing. -/
def walkOption (position : Position) : Option TypeExpr → List Visit
  | none => []
  | some t => t.walk position

end TypeExpr

namespace Param

/-- The nodes of a parameter. -/
def walk (position : Position) (p : Param) : List Visit :=
  ⟨p.site position, p.ascription.toList.length⟩ :: TypeExpr.walkOption (0 :: position) p.ascription

/-- The nodes of the parameters in the slots from `slot` on. -/
def walkAll (position : Position) (slot : Nat) : List Param → List Visit
  | [] => []
  | p :: more => p.walk (slot :: position) ++ walkAll position (slot + 1) more

end Param

namespace Term

mutual

/-- The nodes of a term. -/
def walk (position : Position) : Term → List Visit
  | number v l => [⟨(number v l).site position, 0⟩]
  | boolean v l => [⟨(boolean v l).site position, 0⟩]
  | name n l => [⟨(name n l).site position, 0⟩]
  | binary left op right l =>
    ⟨(binary left op right l).site position, 2⟩ ::
      (walk (0 :: position) left ++ walk (1 :: position) right)
  | call callee arguments l =>
    ⟨(call callee arguments l).site position, arguments.length + 1⟩ ::
      (walk (0 :: position) callee ++ walkAll position 1 arguments)
  | lambda params body l =>
    ⟨(lambda params body l).site position, params.length + 1⟩ ::
      (Param.walkAll position 0 params ++ walk (params.length :: position) body)
  | block statements result l =>
    ⟨(block statements result l).site position, statements.length + result.toList.length⟩ ::
      (walkAll position 0 statements ++ walkOption (statements.length :: position) result)
  | conditional condition thenBranch elseBranch l =>
    ⟨(conditional condition thenBranch elseBranch l).site position, 3⟩ ::
      (walk (0 :: position) condition ++ walk (1 :: position) thenBranch ++
        walk (2 :: position) elseBranch)
  | letBinding x value ascription l =>
    ⟨(letBinding x value ascription l).site position, 1 + ascription.toList.length⟩ ::
      (walk (0 :: position) value ++ TypeExpr.walkOption (1 :: position) ascription)
  | definition f params returns body l =>
    ⟨(definition f params returns body l).site position,
        params.length + returns.toList.length + 1⟩ ::
      (Param.walkAll position 0 params ++
        TypeExpr.walkOption (params.length :: position) returns ++
        walk ((params.length + 1) :: position) body)
  | discard expression l =>
    ⟨(discard expression l).site position, 1⟩ :: walk (0 :: position) expression
  | strayParam p => p.walk position
  | strayType t => t.walk position
  | strayProgram statements result l =>
    ⟨(strayProgram statements result l).site position, statements.length + result.toList.length⟩ ::
      (walkAll position 0 statements ++ walkOption (statements.length :: position) result)

/-- The nodes of the terms in the slots from `slot` on. -/
def walkAll (position : Position) (slot : Nat) : List Term → List Visit
  | [] => []
  | t :: more => walk (slot :: position) t ++ walkAll position (slot + 1) more

/-- The nodes of a term that may be missing. -/
def walkOption (position : Position) : Option Term → List Visit
  | none => []
  | some t => walk position t

end

end Term

/-- The nodes of a program. -/
def Program.walk (p : Program) : List Visit :=
  ⟨⟨p.tag, []⟩, p.statements.length + p.result.toList.length⟩ ::
    (Term.walkAll [] 0 p.statements ++ Term.walkOption [p.statements.length] p.result)

end LetPoly
