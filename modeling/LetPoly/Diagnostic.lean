-- Reports about a source file: a headline, an excerpt of the source with a
-- caret under the place, and notes.
import LetPoly.Location
import LetPoly.Text.Lines

namespace LetPoly

open Text (joinWith lines padLeft trimRight)

/-- A report to the user. An empty context counts as none. -/
structure Diagnostic where
  label : String
  message : String
  location : Option Location
  context : Option String
  notes : List String
  /-- Text that follows the report proper. -/
  appendix : String
deriving DecidableEq, Repr, Inhabited

/-- One line of an excerpt: a mark on the line in question, the number, the text. -/
def excerptLine (marked : Bool) (number : Nat) (line : List Char) : String :=
  (if marked then "> " else "  ") ++ padLeft 4 (toString number) ++ " | " ++
    String.ofList (trimRight line)

/-- The number of characters before the text of an excerpt's line. -/
def excerptGutter : Int := 9

/-- The given line of the source and up to `before` lines ahead of it, or nothing when there is
no such line. -/
def excerpt (source : String) (line before : Int) : Option String :=
  let all := lines source.toList
  if 1 ≤ line ∧ line ≤ all.length then
    let start := (line - before - 1).toNat
    let shown := (all.take line.toNat).drop start
    some <| joinWith "\n" <| shown.zipIdx.map fun (text, i) =>
      excerptLine (start + i + 1 == line.toNat) (start + i + 1) text
  else
    none

namespace Diagnostic

/-- A report with neither excerpt nor notes. -/
def plain (label message : String) (location : Option Location) : Diagnostic :=
  { label, message, location, context := none, notes := [], appendix := "" }

/-- A report on a failure of the checker itself. -/
def internal (message : String) (location : Option Location) : Diagnostic :=
  { label := "InternalError", message, location, context := none
    notes := ["This may be a bug in the checker - please report it"]
    appendix := "\n\nPython traceback:\n<traceback>\n" }

/-- The report with an excerpt of the source, unless it has one or names no place. -/
def withContext (d : Diagnostic) (source : String) : Diagnostic :=
  match d.context, d.location with
  | none, some l => { d with context := excerpt source l.line 2 }
  | _, _ => d

/-- The line under an excerpt that points at a column. -/
def caret (column : Int) : String :=
  String.ofList (List.replicate (excerptGutter + column - 1).toNat ' ') ++ "^"

/-- The headline: what kind of failure, where, and what happened. -/
def headline (d : Diagnostic) : String :=
  d.label ++ " at " ++ (d.location.map Location.text).getD "unknown location" ++ ": " ++ d.message

/-- The excerpt's part of the report, one entry per line group. -/
def contextParts (d : Diagnostic) : List String :=
  match d.context with
  | none => []
  | some context =>
    if context.isEmpty then []
    else
      ["\nContext:", context] ++
        match d.location with
        | none => []
        | some l => if l.column = 0 then [] else [caret l.column]

/-- The notes' part of the report. -/
def noteParts (d : Diagnostic) : List String :=
  if d.notes.isEmpty then [] else "\nNotes:" :: d.notes.map ("  - " ++ ·)

/-- The whole report. -/
def render (d : Diagnostic) : String :=
  joinWith "\n" (d.headline :: (d.contextParts ++ d.noteParts)) ++ d.appendix

end Diagnostic

end LetPoly
