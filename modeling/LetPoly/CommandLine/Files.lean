-- Files: paths, and why one cannot be opened.
import LetPoly.Text.Lines
import LetPoly.Text.Quoted

namespace LetPoly.CommandLine

/-! ## Paths -/

/-- The parts of a path between slashes. -/
def parts : List Char → List (List Char)
  | [] => [[]]
  | c :: rest =>
    if c == '/' then [] :: parts rest
    else
      match parts rest with
      | [] => [[c]]
      | first :: more => (c :: first) :: more

/-- The parts of a path that lead somewhere: not the empty ones, and not the dots for the place
where one is. -/
def steps (path : String) : List String :=
  ((parts path.toList).filter fun p => p ≠ [] ∧ p ≠ ['.']).map String.ofList

/-- The slashes that a path starts with: one, or two if there are exactly two. -/
def leadingSlashes (path : String) : String :=
  match path.toList with
  | '/' :: '/' :: '/' :: _ => "/"
  | '/' :: '/' :: _ => "//"
  | '/' :: _ => "/"
  | _ => ""

/-- A path without detours. -/
def normalPath (path : String) : String :=
  let text := leadingSlashes path ++ Text.joinWith "/" (steps path)
  if text.isEmpty then "." else text

/-! ## Opening -/

/-- Why a path cannot be read. -/
inductive OpenFault where
  | missing
  | permission
  | notDirectory
  | isDirectory
  | nameTooLong
  /-- The path holds a null character. -/
  | nullCharacter
deriving DecidableEq, Repr, Inhabited

/-- The number and the words of the system for the fault. -/
def OpenFault.text : OpenFault → String
  | missing => "[Errno 2] No such file or directory"
  | permission => "[Errno 13] Permission denied"
  | notDirectory => "[Errno 20] Not a directory"
  | isDirectory => "[Errno 21] Is a directory"
  | nameTooLong => "[Errno 36] File name too long"
  | nullCharacter => "embedded null byte"

/-- The sentence on a path that cannot be read. -/
def OpenFault.message (f : OpenFault) (path : String) : String :=
  f.text ++ ": " ++ Text.quoted (normalPath path)

end LetPoly.CommandLine
