-- JSON values and their text: two blanks of indentation per level, and only
-- printable ASCII characters.
import LetPoly.Text.Hex

namespace LetPoly

/-- A JSON value. Numbers are whole, and an object keeps its fields in the order given. -/
inductive Json where
  | null
  | bool (value : Bool)
  | int (value : Int)
  | text (value : String)
  | list (items : List Json)
  | object (fields : List (String × Json))
deriving Inhabited

namespace Json

/-! ## Quoted text -/

/-- The escape of a sixteen-bit unit. -/
def escapeUnit (unit : Nat) : List Char :=
  '\\' :: 'u' :: Text.hex 4 unit

/-- A character inside quotes. One beyond sixteen bits is written as two units. -/
def escape (c : Char) : List Char :=
  if c == '"' then ['\\', '"']
  else if c == '\\' then ['\\', '\\']
  else if ' ' ≤ c && c ≤ '~' then [c]
  else if c == '\n' then ['\\', 'n']
  else if c == '\r' then ['\\', 'r']
  else if c == '\t' then ['\\', 't']
  else if c == '\x08' then ['\\', 'b']
  else if c == '\x0c' then ['\\', 'f']
  else if c.toNat < 0x10000 then escapeUnit c.toNat
  else
    escapeUnit (0xD800 + (c.toNat - 0x10000) / 0x400) ++
      escapeUnit (0xDC00 + (c.toNat - 0x10000) % 0x400)

/-- A text in quotes. -/
def quote (s : String) : List Char :=
  '"' :: (s.toList.flatMap escape ++ ['"'])

/-! ## Indented text -/

/-- A new line with the given indentation. -/
def newline (indent : Nat) : List Char :=
  '\n' :: List.replicate indent ' '

mutual

/-- The text of a value that stands at the given indentation. -/
def chars (indent : Nat) : Json → List Char
  | null => "null".toList
  | bool true => "true".toList
  | bool false => "false".toList
  | int value => (toString value).toList
  | text value => quote value
  | list [] => ['[', ']']
  | list (item :: more) =>
    '[' :: (newline (indent + 2) ++ chars (indent + 2) item ++ charsItems (indent + 2) more ++
      newline indent ++ [']'])
  | object [] => ['{', '}']
  | object ((key, value) :: more) =>
    '{' :: (newline (indent + 2) ++ quote key ++ [':', ' '] ++ chars (indent + 2) value ++
      charsFields (indent + 2) more ++ newline indent ++ ['}'])

/-- The items after the first, each after a comma. -/
def charsItems (indent : Nat) : List Json → List Char
  | [] => []
  | item :: more => ',' :: (newline indent ++ chars indent item ++ charsItems indent more)

/-- The fields after the first, each after a comma. -/
def charsFields (indent : Nat) : List (String × Json) → List Char
  | [] => []
  | (key, value) :: more =>
    ',' :: (newline indent ++ quote key ++ [':', ' '] ++ chars indent value ++
      charsFields indent more)

end

/-- The text of a value. -/
def render (j : Json) : String :=
  String.ofList (j.chars 0)

end Json

end LetPoly
