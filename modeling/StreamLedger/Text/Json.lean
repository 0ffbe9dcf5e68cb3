/-
JSON documents as they are written for people: one value to a line, and what is inside an
array or an object indented by two spaces. The strings written here are names, words and
hexadecimal digits, none of which needs an escape.
-/

namespace StreamLedger

inductive Json where
  | null
  | number (value : Int)
  | string (text : String)
  | array (items : List Json)
  /-- The fields in the order in which they are written. -/
  | object (fields : List (String × Json))

namespace Json

def quote (text : String) : String := "\"" ++ text ++ "\""

/-- Indents the lines of each item, and puts a comma after each item but the last. -/
def itemLines : List (List String) → List String
  | [] => []
  | [last] => last.map ("  " ++ ·)
  | item :: rest =>
    let lines := item.map ("  " ++ ·)
    lines.dropLast ++ [(lines.getLast?.getD "") ++ ","] ++ itemLines rest

/-- Writes a name before the first line of a value. -/
def named (name : String) : List String → List String
  | [] => []
  | first :: rest => (quote name ++ ": " ++ first) :: rest

/-- Puts items between brackets; brackets without items stand on one line. -/
def enclose (opening closing : String) : List (List String) → List String
  | [] => [opening ++ closing]
  | items => opening :: itemLines items ++ [closing]

mutual

/-- The lines of a document. -/
def lines : Json → List String
  | .null => ["null"]
  | .number value => [toString value]
  | .string text => [quote text]
  | .array items => enclose "[" "]" (linesOfItems items)
  | .object fields => enclose "\x7b" "\x7d" (linesOfFields fields)

def linesOfItems : List Json → List (List String)
  | [] => []
  | item :: rest => item.lines :: linesOfItems rest

def linesOfFields : List (String × Json) → List (List String)
  | [] => []
  | (name, value) :: rest => named name value.lines :: linesOfFields rest

end

end Json

end StreamLedger
