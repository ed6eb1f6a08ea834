import QueryFilter.Text.Blank

/-!
# Operators and combinators

Each operator of a rule has a token, by which filter input names it, and a
word, by which SQL names it.  The two words that join conditions, `and` and
`or`, are in the table of operators as well: a rule may name them, and is then
written with that word.

* `ofToken?_eq_some_iff` — a token is read back to its own operator, and no
  other text is a token;
* `decorate_of_not_isPattern` — only the three pattern operators alter a value.

A group is disjunctive exactly when its trimmed text is `or` in any letter case.
-/

namespace QueryFilter

/-- What a rule asks of a field and a value. -/
inductive Operator where
  | and
  | or
  | equal
  | notEqual
  | less
  | lessOrEqual
  | greater
  | greaterOrEqual
  | startWith
  | endWith
  | contains
  | memberOf
deriving DecidableEq, Repr, Inhabited

namespace Operator

/-- Every operator, in the order of the table. -/
def all : List Operator :=
  [and, or, equal, notEqual, less, lessOrEqual, greater, greaterOrEqual,
   startWith, endWith, contains, memberOf]

/-- The name of an operator in filter input. -/
def token : Operator → String
  | and => "and"
  | or => "or"
  | equal => "equal"
  | notEqual => "notequal"
  | less => "less"
  | lessOrEqual => "lessorequal"
  | greater => "greater"
  | greaterOrEqual => "greaterorequal"
  | startWith => "startwith"
  | endWith => "endwith"
  | contains => "contains"
  | memberOf => "in"

/-- The word or sign of an operator in SQL. -/
def sql : Operator → String
  | and => "and"
  | or => "or"
  | equal => "="
  | notEqual => "!="
  | less => "<"
  | lessOrEqual => "<="
  | greater => ">"
  | greaterOrEqual => ">="
  | startWith => "like"
  | endWith => "like"
  | contains => "like"
  | memberOf => "in"

/-- The operator whose token is exactly `text`. -/
def ofToken? (text : String) : Option Operator :=
  all.find? fun op => op.token == text

/-- The character that stands for any text in a pattern. -/
def wildcard : Char := '%'

/-- The value an operator compares with: the pattern operators add wildcards
on the sides that are left open. -/
def decorate (op : Operator) (v : List Char) : List Char :=
  match op with
  | startWith => v ++ [wildcard]
  | endWith => wildcard :: v
  | contains => wildcard :: v ++ [wildcard]
  | _ => v

/-- Whether an operator compares with a pattern that is made from the value. -/
def isPattern : Operator → Bool
  | startWith => true
  | endWith => true
  | contains => true
  | _ => false

/-- Every other operator compares with the value itself. -/
theorem decorate_of_not_isPattern {op : Operator} (h : op.isPattern = false) (v : List Char) :
    op.decorate v = v := by
  cases op with
  | startWith | endWith | contains => cases h
  | _ => rfl

/-- All patterns are tested with one word. -/
theorem sql_of_isPattern {op : Operator} (h : op.isPattern = true) : op.sql = "like" := by
  cases op with
  | startWith | endWith | contains => rfl
  | _ => cases h

/-- A token names its own operator. -/
@[simp] theorem ofToken?_token (op : Operator) : ofToken? op.token = some op := by
  cases op <;> decide

/-- **Tokens are exact.** -/
theorem ofToken?_eq_some_iff {text : String} {op : Operator} :
    ofToken? text = some op ↔ text = op.token := by
  constructor
  · intro h
    have hfound : (op.token == text) = true := by
      unfold ofToken? at h
      simpa using List.find?_some h
    exact (beq_iff_eq.mp hfound).symm
  · rintro rfl
    exact ofToken?_token op

end Operator

/-- How a group joins its own rules with its nested groups. -/
inductive Combinator where
  | and
  | or
deriving DecidableEq, Repr, Inhabited

namespace Combinator

/-- The combinator as an operator. -/
def operator : Combinator → Operator
  | and => .and
  | or => .or

/-- The word of a combinator in SQL. -/
def sql (c : Combinator) : String := c.operator.sql

/-- The combinator a group's text asks for: `or` in any letter case, blanks
around it aside, and `and` for every other text. -/
def ofText (text : String) : Combinator :=
  if (Text.trim text.toList).map Char.toLower = Operator.or.token.toList then .or else .and

end Combinator

end QueryFilter
