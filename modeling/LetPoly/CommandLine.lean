-- The command: check files, report on them, and run them if asked.
import LetPoly.Check
import LetPoly.CommandLine.Arguments
import LetPoly.CommandLine.Files
import LetPoly.Eval
import LetPoly.Term.Dump
import LetPoly.Term.Parser
import LetPoly.Text.Utf8

namespace LetPoly.CommandLine

open Text (padLeft padRight)

/-- A piece of output: results, or errors and the log. -/
inductive Write where
  | out (text : String)
  | err (text : String)
deriving DecidableEq, Repr, Inhabited

/-- What a command writes, and its exit code. -/
structure Outcome where
  writes : List Write
  exitCode : Nat
deriving DecidableEq, Repr, Inhabited

/-- A line of results. -/
def say (text : String) : Write := .out (text ++ "\n")

/-- A line of errors. -/
def complain (text : String) : Write := .err (text ++ "\n")

/-- Lines of the log, if they are asked for. -/
def logged (o : Options) (lines : List LogLine) : List Write :=
  if o.debug then lines.map (complain ·.text) else []

/-! ## One file -/

/-- The lines of the log on the tokens read: names and reserved words are told. -/
def tokenLog (tokens : List Token) : List LogLine :=
  tokens.filterMap fun t =>
    match t.lexeme with
    | .identifier _ | .keyword _ =>
      some ⟨"sfl.lexer",
        "Token recognized: " ++ t.lexeme.className ++ ", value: " ++ t.lexeme.value⟩
    | _ => none

/-- The line of the log on a program read. -/
def programLog (p : Program) : LogLine :=
  ⟨"sfl.parser",
    "Parsed " ++ toString p.statements.length ++ " top-level item(s) from " ++ p.file⟩

/-- The lines that show the type of every node. -/
def typeLines (types : List (Site × Ty)) : List String :=
  types.map fun (site, t) =>
    let place := match site.location with
      | some l => toString l.line ++ ":" ++ toString l.column
      | none => "?"
    padLeft 8 place ++ " " ++ padRight 20 site.kind.label ++ " " ++ t.pretty

/-- What is written about a file, and whether all went well. -/
structure FileReport where
  writes : List Write
  ok : Bool
deriving DecidableEq, Repr, Inhabited

/-- The report that the checker itself failed on a file. -/
def internalError (path message : String) : List Write :=
  [complain "Internal Error:",
    complain (Diagnostic.internal message (some ⟨path, 1, 1⟩)).render]

/-- Run a program that passed the check, with calls nested at most as deep as given. -/
def runProgram (depth : Nat) (o : Options) (path source : String) (p : Program) : FileReport :=
  let log := logged o (p.runLog depth)
  match p.run depth with
  | .ok v =>
    match v.text? with
    | some text => ⟨log ++ [say text], true⟩
    | none => ⟨log ++ internalError path EvalFailure.unshowable.message, false⟩
  | .error (.error e) => ⟨log ++ [complain (e.diagnostic.withContext source).render], false⟩
  | .error failure => ⟨log ++ internalError path failure.message, false⟩

/-- Check a program, and run it if asked. -/
def checkProgram (depth : Nat) (o : Options) (path source : String) (p : Program) : FileReport :=
  let tree := if o.dumpAst then [say p.dump] else []
  match p.check ⟨[], o.resilient, 0, Table.empty⟩ with
  | .error failure => ⟨tree ++ internalError path failure.message, false⟩
  | .ok c =>
    let shown := tree ++ logged o c.log ++ (c.describe p).map say ++
      (if o.dumpTypes then (typeLines c.types).map say else []) ++
      c.errors.map fun e => complain (e.diagnostic.withContext source).render
    if !c.ok then ⟨shown, false⟩
    else if o.run then
      let r := runProgram depth o path source p
      ⟨shown ++ r.writes, r.ok⟩
    else ⟨shown, true⟩

/-- Check a source text under the name of its file. -/
def checkSource (depth : Nat) (o : Options) (path source : String) : FileReport :=
  let name := normalPath path
  let log := logged o (tokenLog (Program.tokensRead source))
  match Program.read source name with
  | .error (.lexical (.tooManyDigits count) _) =>
    ⟨log ++ internalError path (LexFault.tooManyDigits count).message, false⟩
  | .error fault => ⟨log ++ [complain ((fault.diagnostic name).withContext source).render], false⟩
  | .ok p =>
    let r := checkProgram depth o path source p
    ⟨log ++ logged o [programLog p] ++ r.writes, r.ok⟩

/-- Check a file, given what opening it gave. -/
def checkFile (depth : Nat) (o : Options) (path : String) :
    Except OpenFault (List UInt8) → FileReport
  | .error .nullCharacter => ⟨internalError path OpenFault.nullCharacter.text, false⟩
  | .error fault => ⟨[complain ("Cannot read " ++ path ++ ": " ++ fault.message path)], false⟩
  | .ok bytes =>
    match Text.decodeUtf8 bytes with
    | .error fault => ⟨internalError path fault.message, false⟩
    | .ok cs => checkSource depth o path (String.ofList (Text.unifyNewlines cs))

/-! ## All files -/

/-- Check files, given what opening a path gives. -/
def checkFiles (depth : Nat) (o : Options) (read : String → Except OpenFault (List UInt8))
    (files : List String) : Outcome :=
  let reports := files.map fun path =>
    let r := checkFile depth o path (read path)
    if files.length > 1 then { r with writes := say ("== " ++ path) :: r.writes } else r
  let failed := (reports.filter (!·.ok)).length
  let log := logged o [⟨"sfl.parser", "Parser initialized"⟩]
  let writes := log ++ reports.flatMap (·.writes)
  if failed = 0 then ⟨writes, 0⟩
  else
    ⟨writes ++ logged o [⟨"sfl.sfl",
      toString failed ++ " of " ++ toString files.length ++ " file(s) failed"⟩], 1⟩

/-- Do what the arguments ask for, given how deep calls may be nested and what opening a path
gives. -/
def execute (depth : Nat) (read : String → Except OpenFault (List UInt8)) (args : List String) :
    Outcome :=
  match request args with
  | .help => ⟨[.out helpText], 0⟩
  | .complaint message => ⟨[.err (usage ++ "sfl: error: " ++ message ++ "\n")], 2⟩
  | .check o files => checkFiles depth o read files

end LetPoly.CommandLine
