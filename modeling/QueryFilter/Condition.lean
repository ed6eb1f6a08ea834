import QueryFilter.Group
import QueryFilter.Mapping

/-!
# Conditions

A rule survives as a condition, or it drops out.  It drops out when its field
or its value is blank, and when it asks for membership in a list of nothing but
commas.  What a condition says does not depend on any mapping; `sql` writes it
for one.

* `condition?_normalize` — normalizing a rule does not change its condition.
-/

namespace QueryFilter

/-- A comparison that survives: a trimmed field, an operator, and the text the
operator compares with. -/
structure Condition where
  field : List Char
  operator : Operator
  operand : List Char
deriving DecidableEq, Repr

/-- The character between the members of a list value. -/
def Condition.delimiter : Char := ','

/-- The text an operator compares a trimmed value with, if that leaves anything
to compare. -/
def Operator.operand? (op : Operator) (v : List Char) : Option (List Char) :=
  match op with
  | .memberOf =>
      let members := Text.strip (· == Condition.delimiter) v
      if members = [] then none else some members
  | op => some (op.decorate v)

/-- The condition of a rule, unless the rule drops out. -/
def Rule.condition? (r : Rule) : Option Condition :=
  if r.isBlank then none
  else (r.effective.operand? (Text.trim r.value.toList)).map fun operand =>
    ⟨Text.trim r.field.toList, r.effective, operand⟩

/-- A comparison in SQL, with its column and its literal written out. -/
def Operator.comparison (op : Operator) (column literal : List Char) : List Char :=
  match op with
  | .memberOf => "FIND_IN_SET(".toList ++ column ++ ",".toList ++ literal ++ ")".toList
  | op => column ++ " ".toList ++ op.sql.toList ++ " ".toList ++ literal

/-- A condition in SQL.  The mapping and the mode decide its column and its literal and
nothing else. -/
def Condition.sql (m : Mapping) (mode : Sql.Escaping) (c : Condition) : List Char :=
  c.operator.comparison (m.resolve mode c.field) (Sql.Literal.quote mode c.operand)

/-- Membership calls a function with its column and its literal. -/
theorem Operator.comparison_memberOf (column literal : List Char) :
    Operator.memberOf.comparison column literal =
      "FIND_IN_SET(".toList ++ column ++ ",".toList ++ literal ++ ")".toList := rfl

/-- Every operator but membership stands between its column and its literal. -/
theorem Operator.comparison_of_ne {op : Operator} (h : op ≠ .memberOf)
    (column literal : List Char) : op.comparison column literal =
      column ++ " ".toList ++ op.sql.toList ++ " ".toList ++ literal := by
  unfold comparison
  split
  · exact absurd rfl h
  · rfl

/-- Around its column and its literal a comparison is written the same way for all of them. -/
theorem Operator.exists_frame (op : Operator) : ∃ front middle back : List Char,
    ∀ column literal,
      op.comparison column literal = front ++ (column ++ (middle ++ (literal ++ back))) := by
  by_cases h : op = .memberOf
  · subst h
    refine ⟨"FIND_IN_SET(".toList, ",".toList, ")".toList, fun column literal => ?_⟩
    simp only [comparison_memberOf, List.append_assoc]
  · refine ⟨[], " ".toList ++ (op.sql.toList ++ " ".toList), [], fun column literal => ?_⟩
    rw [comparison_of_ne h]
    simp only [List.append_assoc, List.append_nil, List.nil_append]

/-- Two comparisons of a column differ if their literals do. -/
theorem Operator.comparison_eq_iff {op : Operator} {column a b : List Char} :
    op.comparison column a = op.comparison column b ↔ a = b := by
  obtain ⟨front, middle, back, h⟩ := op.exists_frame
  rw [h, h, List.append_cancel_left_eq, List.append_cancel_left_eq, List.append_cancel_left_eq,
    List.append_cancel_right_eq]

/-- The effective operator of a rule that counts is found again after
normalizing. -/
theorem Rule.effective_normalize {r : Rule} (h : r.isBlank = false) :
    r.normalize.effective = r.effective := by
  rw [Rule.effective, Rule.operator?_normalize h]
  rfl

/-- **Normalizing a rule does not change its condition.** -/
@[simp] theorem Rule.condition?_normalize (r : Rule) :
    r.normalize.condition? = r.condition? := by
  cases h : r.isBlank with
  | true => simp [Rule.condition?, h]
  | false => simp [Rule.condition?, Rule.effective_normalize h]

theorem Rule.condition?_comp_normalize :
    Rule.condition? ∘ Rule.normalize = Rule.condition? := by
  apply funext
  intro r
  rw [Function.comp_apply, r.condition?_normalize]

end QueryFilter
