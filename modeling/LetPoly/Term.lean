-- Syntax trees: annotations, parameters, expressions and statements.
import LetPoly.Location

namespace LetPoly

/-! ## Kinds of nodes -/

/-- The kinds of nodes of a syntax tree. -/
inductive Kind where
  | namedType | quotedType | arrowType
  | number | boolean | name | binary | call | parameter | lambda | block | conditional
  | letBinding | definition | discard | program
deriving DecidableEq, Repr, Inhabited

/-- The name under which a kind is printed. -/
def Kind.label : Kind → String
  | namedType => "TypeName"
  | quotedType => "TypeVariableName"
  | arrowType => "FunctionTypeExpression"
  | number => "IntLiteral"
  | boolean => "BoolLiteral"
  | name => "Identifier"
  | binary => "BinaryOperation"
  | call => "FunctionCall"
  | parameter => "Parameter"
  | lambda => "Lambda"
  | block => "Block"
  | conditional => "IfExpression"
  | letBinding => "LetStatement"
  | definition => "FunctionDefinition"
  | discard => "ExpressionStatement"
  | program => "Program"

/-- What a report says about a node: its kind and where it stands. -/
structure Tag where
  kind : Kind
  location : Option Location
deriving DecidableEq, Repr, Inhabited

/-- The way from the root of a tree to a node: the slots taken, the last one first. -/
abbrev Position := List Nat

/-- A node of a tree, told apart from all others by its position. -/
structure Site extends Tag where
  position : Position
deriving DecidableEq, Repr, Inhabited

/-! ## Trees -/

/-- A type as written in a program. -/
inductive TypeExpr where
  | named (name : String) (location : Option Location)
  /-- A type variable, written with a quote before its name. -/
  | quoted (name : String) (location : Option Location)
  | arrow (params : List TypeExpr) (result : TypeExpr) (location : Option Location)
deriving Inhabited

/-- A parameter of a function. -/
structure Param where
  name : String
  ascription : Option TypeExpr
  location : Option Location
deriving Inhabited

/-- An expression or a statement. The tree itself does not say which kinds may stand where:
a node out of place is found when the tree is checked or run. -/
inductive Term where
  | number (value : Int) (location : Option Location)
  | boolean (value : Bool) (location : Option Location)
  | name (name : String) (location : Option Location)
  | binary (left : Term) (operator : String) (right : Term) (location : Option Location)
  | call (callee : Term) (arguments : List Term) (location : Option Location)
  | lambda (params : List Param) (body : Term) (location : Option Location)
  /-- Statements and an optional last expression, whose value is the block's. -/
  | block (statements : List Term) (result : Option Term) (location : Option Location)
  | conditional (condition thenBranch elseBranch : Term) (location : Option Location)
  | letBinding (name : String) (value : Term) (ascription : Option TypeExpr)
      (location : Option Location)
  | definition (name : String) (params : List Param) (returns : Option TypeExpr) (body : Term)
      (location : Option Location)
  /-- An expression evaluated for nothing but its effects. -/
  | discard (expression : Term) (location : Option Location)
  /-- A parameter where none belongs. -/
  | strayParam (param : Param)
  /-- An annotation where none belongs. -/
  | strayType (type : TypeExpr)
  /-- A whole program where none belongs. -/
  | strayProgram (statements : List Term) (result : Option Term) (location : Option Location)
deriving Inhabited

/-- A source file: top-level items and an optional last expression. -/
structure Program where
  statements : List Term
  result : Option Term
  file : String
  location : Option Location
deriving Inhabited

/-! ## Tags and sites -/

namespace TypeExpr

/-- The kind and location of an annotation. -/
def tag : TypeExpr → Tag
  | named _ l => ⟨.namedType, l⟩
  | quoted _ l => ⟨.quotedType, l⟩
  | arrow _ _ l => ⟨.arrowType, l⟩

/-- The annotation as a node at a position. -/
def site (t : TypeExpr) (position : Position) : Site :=
  ⟨t.tag, position⟩

end TypeExpr

namespace Param

/-- The kind and location of a parameter. -/
def tag (p : Param) : Tag :=
  ⟨.parameter, p.location⟩

/-- The parameter as a node at a position. -/
def site (p : Param) (position : Position) : Site :=
  ⟨p.tag, position⟩

end Param

namespace Term

/-- The kind and location of a term. -/
def tag : Term → Tag
  | number _ l => ⟨.number, l⟩
  | boolean _ l => ⟨.boolean, l⟩
  | name _ l => ⟨.name, l⟩
  | binary _ _ _ l => ⟨.binary, l⟩
  | call _ _ l => ⟨.call, l⟩
  | lambda _ _ l => ⟨.lambda, l⟩
  | block _ _ l => ⟨.block, l⟩
  | conditional _ _ _ l => ⟨.conditional, l⟩
  | letBinding _ _ _ l => ⟨.letBinding, l⟩
  | definition _ _ _ _ l => ⟨.definition, l⟩
  | discard _ l => ⟨.discard, l⟩
  | strayParam p => p.tag
  | strayType t => t.tag
  | strayProgram _ _ l => ⟨.program, l⟩

/-- The kind of a term. -/
def kind (t : Term) : Kind := t.tag.kind

/-- Where a term stands in its file. -/
def location (t : Term) : Option Location := t.tag.location

/-- The term as a node at a position. -/
def site (t : Term) (position : Position) : Site :=
  ⟨t.tag, position⟩

/-- The name that a statement binds. -/
def boundName? : Term → Option String
  | letBinding x _ _ _ => some x
  | definition f _ _ _ _ => some f
  | _ => none

end Term

/-- The kind and location of a program. -/
def Program.tag (p : Program) : Tag :=
  ⟨.program, p.location⟩

end LetPoly
