import QueryFilter.Text.Doubling
import QueryFilter.Text.Ends

/-!
# Quoted names

A name is quoted by backticks.  `quote` is the closed form: every backtick
inside is doubled, so no text can leave the quotes.  `bare` takes off one pair
of backticks that already stands around a part, and `quotePath` quotes each
part of a dotted name on its own.
-/

namespace QueryFilter.Sql.Name

/-- The character that quotes a name. -/
def mark : Char := '\x60'

/-- The character between the parts of a dotted name. -/
def dot : Char := '.'

/-- `s` as a quoted name, with every backtick inside doubled. -/
def quote (s : List Char) : List Char :=
  mark :: Text.double (· == mark) s ++ [mark]

/-- `s` with a backtick added on each side that lacks one. -/
def wrap (s : List Char) : List Char := Text.wrap mark s

/-- `s` without the pair of backticks around it, if there is such a pair. -/
def bare : List Char → List Char
  | [] => []
  | c :: r => if c = mark ∧ r.getLast? = some mark then r.dropLast else c :: r

/-- Whether a name has a dot, so that it names its own place. -/
def isQualified (s : List Char) : Bool := s.contains dot

/-- A dotted name with each of its parts quoted anew. -/
def quotePath (s : List Char) : List Char :=
  [dot].intercalate ((s.splitOn dot).map fun part => quote (bare part))

/-- A pair of backticks around a name is taken off. -/
theorem bare_surrounded (s : List Char) : bare (mark :: (s ++ [mark])) = s := by
  simp [bare]

/-- A name without backticks only gains the two around it. -/
theorem quote_of_notMem {s : List Char} (h : mark ∉ s) : quote s = mark :: s ++ [mark] := by
  rw [quote, Text.double_of_none]
  intro c hc
  simp only [beq_eq_false_iff_ne, ne_eq]
  rintro rfl
  exact h hc

end QueryFilter.Sql.Name
