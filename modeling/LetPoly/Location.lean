-- Places in a source file.

namespace LetPoly

/-- A line and column of a file, both counted from one. -/
structure Location where
  file : String
  line : Int
  column : Int
deriving DecidableEq, Repr, Inhabited

namespace Location

/-- The form in which a report names a place. -/
def text (l : Location) : String :=
  l.file ++ ":" ++ toString l.line ++ ":" ++ toString l.column

end Location

end LetPoly
