-- Lines of the debug log.

namespace LetPoly

/-- A line of the log and the part of the program that wrote it. -/
structure LogLine where
  logger : String
  message : String
deriving DecidableEq, Repr, Inhabited

/-- A line of the log in print. -/
def LogLine.text (l : LogLine) : String :=
  l.logger ++ " - DEBUG - " ++ l.message

end LetPoly
