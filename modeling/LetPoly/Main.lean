-- The command as a program: it reads the files that its arguments name, and
-- writes what the command has to say.
import LetPoly.CommandLine

namespace LetPoly

open CommandLine

/-- What the system's refusal to open a path means. -/
def openFault : IO.Error → OpenFault
  | .inappropriateType none _ _ => .isDirectory
  | .inappropriateType (some _) _ _ => .notDirectory
  | .permissionDenied .. => .permission
  | .invalidArgument .. => .nameTooLong
  | _ => .missing

/-- The bytes of a file. -/
def readPath (path : String) : IO (Except OpenFault (List UInt8)) := do
  if path.toList.contains '\x00' then
    return .error .nullCharacter
  try
    let bytes ← IO.FS.readBinFile (normalPath path)
    return .ok bytes.toList
  catch e =>
    return .error (openFault e)

/-- How deep the command lets calls be nested. The limit is the machine's and not the language's,
so nothing rests on the number. -/
def callDepth : Nat := 1000

/-- The files that a request asks for. -/
def requestedFiles : Request → List String
  | .check _ files => files
  | _ => []

end LetPoly

open LetPoly CommandLine

/-- The command. -/
def main (args : List String) : IO UInt32 := do
  let contents ← (requestedFiles (request args)).mapM fun path => do
    return (path, ← readPath path)
  let outcome := execute callDepth (fun path => (contents.lookup path).getD (.error .missing)) args
  for write in outcome.writes do
    match write with
    | .out text => IO.print text
    | .err text => IO.eprint text
  return outcome.exitCode.toUInt32
