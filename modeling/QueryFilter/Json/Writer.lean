import QueryFilter.Json.Text

/-!
# Writing JSON

Values are written without blanks, and the fields of a record in their declared
order.
-/

namespace QueryFilter.Json.Write

/-- Texts with commas between them. -/
def commas (items : List (List Char)) : List Char := ",".toList.intercalate items

/-- A text. -/
def text (s : String) : List Char := quote s.toList

/-- `true` or `false`. -/
def flag (b : Bool) : List Char := if b then "true".toList else "false".toList

/-- A text, or `null`. -/
def optional : Option String → List Char
  | none => "null".toList
  | some s => text s

/-- An array of written values. -/
def array (items : List (List Char)) : List Char :=
  "[".toList ++ commas items ++ "]".toList

/-- A written value under its key. -/
def member (entry : String × List Char) : List Char :=
  text entry.1 ++ ":".toList ++ entry.2

/-- An object of written values. -/
def object (entries : List (String × List Char)) : List Char :=
  "\x7b".toList ++ commas (entries.map member) ++ "\x7d".toList

end QueryFilter.Json.Write
