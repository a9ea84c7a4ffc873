-- What can be wrong with the types of a program, and how it is reported.
import LetPoly.Diagnostic
import LetPoly.Term
import LetPoly.Unify

namespace LetPoly

/-- The sentence on a number of arguments, from the texts of the two numbers. -/
def Clash.arityText (expected actual : String) : String :=
  "expected " ++ expected ++ " argument(s) but found " ++ actual

/-- The sentence on a type without end, from the texts of the variable and of the type. -/
def Clash.infiniteText (v t : String) : String :=
  "cannot construct the infinite type " ++ v ++ " = " ++ t

/-- The sentence that tells of a clash. -/
def Clash.message : Clash → String
  | mismatch expected actual =>
    "expected '" ++ expected.text ++ "' but found '" ++ actual.text ++ "'"
  | arity expected actual => arityText (toString expected) (toString actual)
  | infinite v t => infiniteText (Ty.plainName v) t.text

/-- What is wrong with a type. -/
inductive Reason where
  | unbound (name : String)
  | unknownType (name : String)
  | clash (cause : Clash)
  | branches (thenType elseType : Ty) (cause : Clash)
  | returns (declared inferred : Ty) (cause : Clash)
deriving DecidableEq, Repr, Inhabited

/-- The sentence that tells what is wrong. -/
def Reason.message : Reason → String
  | unbound name => "'" ++ name ++ "' is not defined here"
  | unknownType name => "unknown type '" ++ name ++ "'"
  | clash cause => cause.message
  | branches thenType elseType _ =>
    "'if' branches have different types: '" ++ thenType.text ++ "' and '" ++ elseType.text ++ "'"
  | returns declared inferred _ =>
    "function is declared to return '" ++ declared.text ++ "' but its body has type '" ++
      inferred.text ++ "'"

/-- An error of types and the node it is put down to. -/
structure TypeError where
  reason : Reason
  site : Option Site
deriving DecidableEq, Repr, Inhabited

namespace TypeError

/-- An error at a node. -/
def placed (reason : Reason) (site : Site) : TypeError := ⟨reason, some site⟩

/-- The sentence that tells what is wrong. -/
def message (e : TypeError) : String := e.reason.message

/-- Where the node stands. -/
def location (e : TypeError) : Option Location := e.site.bind (·.location)

/-- The report on the error. -/
def diagnostic (e : TypeError) : Diagnostic :=
  Diagnostic.plain "TypeError" e.message e.location

end TypeError

end LetPoly
