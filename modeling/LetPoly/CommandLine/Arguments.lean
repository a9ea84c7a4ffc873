-- The arguments of the command: switches and files.
import LetPoly.Text.Digit
import LetPoly.Text.Lines
import LetPoly.Text.Quoted

namespace LetPoly.CommandLine

open Text (joinWith quoted)

/-! ## Switches -/

/-- The switches of the command. -/
inductive Switch where
  | help | run | dumpAst | dumpTypes | stopOnFirstError | debug
deriving DecidableEq, Repr, Inhabited

/-- The spellings of the switches, in the order in which they are listed. -/
def spellings : List (String × Switch) :=
  [("-h", .help), ("--help", .help), ("--run", .run), ("--dump-ast", .dumpAst),
   ("--dump-types", .dumpTypes), ("--stop-on-first-error", .stopOnFirstError),
   ("--debug", .debug), ("-g", .debug)]

/-- The switch with the given spelling. -/
def switch? (spelling : String) : Option Switch :=
  (spellings.find? (·.1 == spelling)).map (·.2)

/-- All spellings of a switch, as messages name it. -/
def Switch.name (s : Switch) : String :=
  joinWith "/" ((spellings.filter (·.2 = s)).map (·.1))

/-- The complaint about a value given to a switch, none of which takes one. -/
def ignoredValue (s : Switch) (value : List Char) : String :=
  "argument " ++ s.name ++ ": ignored explicit argument " ++ quoted (String.ofList value)

/-! ## Single arguments -/

/-- What an argument is. -/
inductive Word where
  /-- A file. -/
  | file (text : String)
  /-- The mark after which all arguments are files. -/
  | separator
  /-- A switch, and what follows it in the same argument, without an equals sign between. -/
  | switch (which : Switch) (long : Bool) (tail : Option (List Char))
  /-- It looks like a switch, but there is no such switch. -/
  | unknown (text : String)
deriving DecidableEq, Repr, Inhabited

/-- A text cut at its first equals sign. -/
def cutAtEquals (cs : List Char) : List Char × Option (List Char) :=
  match cs.dropWhile (· != '=') with
  | [] => (cs, none)
  | _ :: value => (cs.takeWhile (· != '='), some value)

/-- A negative number is a file, though it starts with a dash. -/
def isNegativeNumber : List Char → Bool
  | '-' :: cs =>
    let cs := if cs.getLast? = some '\n' then cs.dropLast else cs
    let whole := cs.takeWhile Text.isDigit
    match cs.drop whole.length with
    | [] => !whole.isEmpty
    | '.' :: fraction => !fraction.isEmpty && fraction.all Text.isDigit
    | _ => false
  | _ => false

/-- The spellings that an argument which starts with two dashes may abbreviate. -/
def abbreviated (start : List Char) : List (String × Switch) :=
  spellings.filter fun (spelling, _) => start.isPrefixOf spelling.toList

/-- An argument that starts with a dash and is neither a switch nor one with a value. -/
def classifyOther (text : String) : Word :=
  if isNegativeNumber text.toList || ' ' ∈ text.toList then .file text else .unknown text

/-- What an argument before the separator is, or the complaint about it. -/
def classify (text : String) : Except String Word :=
  match text.toList, switch? text with
  | '-' :: '-' :: _, some s => .ok (.switch s true none)
  | _, some s => .ok (.switch s false none)
  | '-' :: '-' :: cs, none =>
    let (start, value) := cutAtEquals ('-' :: '-' :: cs)
    match switch? (String.ofList start), abbreviated start with
    | some s, _ => .ok (.switch s true value)
    | none, [] => .ok (classifyOther text)
    | none, [(_, s)] => .ok (.switch s true value)
    | none, several =>
      .error ("ambiguous option: " ++ text ++ " could match " ++ joinWith ", " (several.map (·.1)))
  | '-' :: c :: cs, none =>
    match switch? (String.ofList ['-', c]), cs with
    | some s, '=' :: value => .ok (.switch s false (some value))
    | some s, _ => .ok (.switch s false (some cs))
    | none, _ => .ok (classifyOther text)
  | _, none => .ok (.file text)

/-- What the arguments are. -/
def classifyAll : List String → Except String (List Word)
  | [] => .ok []
  | "--" :: files => .ok (.separator :: files.map .file)
  | text :: more => do
    let word ← classify text
    let words ← classifyAll more
    .ok (word :: words)

/-! ## The request -/

/-- The switches in an argument of one dash: each further letter is one more switch. From a letter
that is none on, the rest counts as a value given to the switch before it. -/
def cluster (s : Switch) : List Char → Except String (List Switch)
  | [] => .error (ignoredValue s [])
  | c :: rest =>
    match switch? (String.ofList ['-', c]), rest with
    | none, _ => .error (ignoredValue s (c :: rest))
    | some next, [] => .ok [s, next]
    | some next, d :: more => do
      let switches ← cluster next (d :: more)
      .ok (s :: switches)

/-- What the command is asked to do. -/
structure Options where
  resilient : Bool
  dumpAst : Bool
  dumpTypes : Bool
  run : Bool
  debug : Bool
deriving DecidableEq, Repr, Inhabited

namespace Options

/-- What is done without switches. -/
def standard : Options := ⟨true, false, false, false, false⟩

/-- The options with one more switch. -/
def turn (o : Options) : Switch → Options
  | .help => o
  | .run => { o with run := true }
  | .dumpAst => { o with dumpAst := true }
  | .dumpTypes => { o with dumpTypes := true }
  | .stopOnFirstError => { o with resilient := false }
  | .debug => { o with debug := true }

end Options

/-- What the arguments ask for. -/
inductive Request where
  | help
  | complaint (message : String)
  | check (options : Options) (files : List String)
deriving DecidableEq, Repr, Inhabited

/-- What is known after some of the arguments. -/
structure Gathered where
  options : Options
  files : Option (List String)
  /-- Arguments that nothing is done with. -/
  extras : List String
deriving DecidableEq, Repr, Inhabited

/-- The argument as it was written, for one that is no switch. -/
def Word.text : Word → String
  | file text => text
  | separator => "--"
  | unknown text => text
  | switch .. => ""

/-- The argument is a file. -/
def Word.isFile : Word → Bool
  | file _ => true
  | _ => false

/-- A row of files between switches: the first such row are the files to check, what comes later is
left over. -/
def Gathered.takeRow (g : Gathered) (row : List Word) : Gathered :=
  match g.files with
  | none =>
    if row.any Word.isFile then
      { g with files := some ((row.filter Word.isFile).map Word.text) }
    else
      { g with extras := g.extras ++ row.map Word.text }
  | some _ => { g with extras := g.extras ++ row.map Word.text }

/-- The request that the arguments make, read from left to right. `row` holds the files since the
last switch. -/
def gather (g : Gathered) (row : List Word) : List Word → Request
  | [] =>
    let g := if row.isEmpty then g else g.takeRow row
    match g.files, g.extras with
    | none, _ => .complaint "the following arguments are required: files"
    | some files, [] => .check g.options files
    | some _, extras => .complaint ("unrecognized arguments: " ++ joinWith " " extras)
  | .file text :: more => gather g (row ++ [.file text]) more
  | .separator :: more => gather g (row ++ [.separator]) more
  | .unknown text :: more =>
    let g := if row.isEmpty then g else g.takeRow row
    gather { g with extras := g.extras ++ [text] } [] more
  | .switch s long tail :: more =>
    let g := if row.isEmpty then g else g.takeRow row
    let found : Except String (List Switch) :=
      match tail with
      | none => .ok [s]
      | some value => if long then .error (ignoredValue s value) else cluster s value
    match found with
    | .error message => .complaint message
    | .ok switches =>
      if .help ∈ switches then .help
      else gather { g with options := switches.foldl Options.turn g.options } [] more

/-- The request that the arguments make. -/
def request (args : List String) : Request :=
  match classifyAll args with
  | .error message => .complaint message
  | .ok words => gather ⟨.standard, none, []⟩ [] words

/-- How to call the command. -/
def usage : String :=
  "usage: sfl [-h] [--run] [--dump-ast] [--dump-types] [--stop-on-first-error]\n" ++
  "           [--debug]\n" ++
  "           files [files ...]\n"

/-- The answer to a request for help. -/
def helpText : String :=
  usage ++
  "\nType checker for a small functional language\n" ++
  "\npositional arguments:\n" ++
  "  files                 Source files to check\n" ++
  "\noptions:\n" ++
  "  -h, --help            show this help message and exit\n" ++
  "  --run                 Evaluate each program after it type checks\n" ++
  "  --dump-ast            Dump AST as JSON\n" ++
  "  --dump-types          Dump the inferred type of every node\n" ++
  "  --stop-on-first-error\n" ++
  "                        Stop checking a program at its first type error\n" ++
  "  --debug, -g           Enable debug logging\n"

end LetPoly.CommandLine
