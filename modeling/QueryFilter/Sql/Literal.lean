import QueryFilter.Text.Doubling
import QueryFilter.Text.Ends

/-!
# String literals

There are two ways to write a value into a predicate.  In the `verbatim` mode
the value is taken as it is and a quote is put on each side that lacks one, so
a value that is quoted already is not quoted again, and a quote inside it ends
the literal early.  In the `escaped` mode quotes and backslashes are doubled
and the literal is always closed.
-/

namespace QueryFilter.Sql

/-- How values and unmapped names are written into a predicate. -/
inductive Escaping where
  | verbatim
  | escaped
deriving DecidableEq, Repr, Inhabited

namespace Literal

/-- The character that quotes a value. -/
def mark : Char := '\x27'

/-- The characters that are doubled in the escaped mode. -/
def isSpecial (c : Char) : Bool := c == mark || c == '\\'

/-- The literal of a value whose own quotes are trusted. -/
def verbatim (v : List Char) : List Char := Text.wrap mark v

/-- The literal of an arbitrary value. -/
def escaped (v : List Char) : List Char :=
  mark :: Text.double isSpecial v ++ [mark]

/-- The literal of `v` in the given mode. -/
def quote : Escaping → List Char → List Char
  | .verbatim => verbatim
  | .escaped => escaped

/-- The literal of the empty text. -/
def empty : List Char := [mark, mark]

end Literal

end QueryFilter.Sql
