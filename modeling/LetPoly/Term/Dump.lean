-- Syntax trees as JSON. A node is an object with its kind, its place if it has
-- one, and its parts; fields stand in alphabetical order.
import LetPoly.Json
import LetPoly.Term

namespace LetPoly

/-- The kind and the place of a node, as fields of its object. -/
def Tag.kindField (t : Tag) : String × Json :=
  ("kind", .text t.kind.label)

/-- The place of a node as a field of its object. -/
def Tag.locationField (t : Tag) : List (String × Json) :=
  match t.location with
  | none => []
  | some l => [("location", .object [("column", .int l.column), ("line", .int l.line)])]

namespace TypeExpr

mutual

/-- An annotation as JSON. -/
def toJson : TypeExpr → Json
  | named n l =>
    .object ((named n l).tag.kindField :: ((named n l).tag.locationField ++ [("name", .text n)]))
  | quoted n l =>
    .object ((quoted n l).tag.kindField :: ((quoted n l).tag.locationField ++ [("name", .text n)]))
  | arrow params result l =>
    .object ((arrow params result l).tag.kindField ::
      ((arrow params result l).tag.locationField ++
        [("params", .list (toJsonAll params)), ("result", toJson result)]))

/-- Annotations as JSON. -/
def toJsonAll : List TypeExpr → List Json
  | [] => []
  | t :: more => toJson t :: toJsonAll more

end

/-- An annotation that may be missing, as JSON. -/
def toJsonOption : Option TypeExpr → Json
  | none => .null
  | some t => t.toJson

end TypeExpr

/-- A parameter as JSON. -/
def Param.toJson (p : Param) : Json :=
  .object (p.tag.kindField :: (p.tag.locationField ++
    [("name", .text p.name), ("type_annotation", TypeExpr.toJsonOption p.ascription)]))

namespace Term

mutual

/-- A term as JSON. -/
def toJson : Term → Json
  | number v l =>
    .object ((number v l).tag.kindField :: ((number v l).tag.locationField ++ [("value", .int v)]))
  | boolean v l =>
    .object ((boolean v l).tag.kindField ::
      ((boolean v l).tag.locationField ++ [("value", .bool v)]))
  | name n l =>
    .object ((name n l).tag.kindField :: ((name n l).tag.locationField ++ [("name", .text n)]))
  | binary left op right l =>
    .object ((binary left op right l).tag.kindField :: ("left", toJson left) ::
      ((binary left op right l).tag.locationField ++
        [("operator", .text op), ("right", toJson right)]))
  | call callee arguments l =>
    .object (("arguments", .list (toJsonAll arguments)) :: ("callee", toJson callee) ::
      (call callee arguments l).tag.kindField :: (call callee arguments l).tag.locationField)
  | lambda params body l =>
    .object (("body", toJson body) :: (lambda params body l).tag.kindField ::
      ((lambda params body l).tag.locationField ++ [("params", .list (params.map Param.toJson))]))
  | block statements result l =>
    .object ((block statements result l).tag.kindField ::
      ((block statements result l).tag.locationField ++
        [("result", toJsonOption result), ("statements", .list (toJsonAll statements))]))
  | conditional condition thenBranch elseBranch l =>
    .object (("condition", toJson condition) :: ("else_branch", toJson elseBranch) ::
      (conditional condition thenBranch elseBranch l).tag.kindField ::
      ((conditional condition thenBranch elseBranch l).tag.locationField ++
        [("then_branch", toJson thenBranch)]))
  | letBinding x value ascription l =>
    .object ((letBinding x value ascription l).tag.kindField ::
      ((letBinding x value ascription l).tag.locationField ++
        [("name", .text x), ("type_annotation", TypeExpr.toJsonOption ascription),
          ("value", toJson value)]))
  | definition f params returns body l =>
    .object (("body", toJson body) :: (definition f params returns body l).tag.kindField ::
      ((definition f params returns body l).tag.locationField ++
        [("name", .text f), ("params", .list (params.map Param.toJson)),
          ("return_type", TypeExpr.toJsonOption returns)]))
  | discard expression l =>
    .object (("expression", toJson expression) :: (discard expression l).tag.kindField ::
      (discard expression l).tag.locationField)
  | strayParam p => p.toJson
  | strayType t => t.toJson
  | strayProgram statements result l =>
    .object ((strayProgram statements result l).tag.kindField ::
      ((strayProgram statements result l).tag.locationField ++
        [("result", toJsonOption result), ("statements", .list (toJsonAll statements))]))

/-- Terms as JSON. -/
def toJsonAll : List Term → List Json
  | [] => []
  | t :: more => toJson t :: toJsonAll more

/-- A term that may be missing, as JSON. -/
def toJsonOption : Option Term → Json
  | none => .null
  | some t => toJson t

end

end Term

namespace Program

/-- A program as JSON. The name of the file is left out. -/
def toJson (p : Program) : Json :=
  (Term.strayProgram p.statements p.result p.location).toJson

/-- The text of a program's tree. -/
def dump (p : Program) : String :=
  p.toJson.render

end Program

end LetPoly
