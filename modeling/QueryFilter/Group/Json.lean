import QueryFilter.Group
import QueryFilter.Json.Record
import QueryFilter.Json.Writer

/-!
# Filter groups in JSON

A group is a record of its combinator's text, its rules and its nested groups,
and a rule is a record of three texts.  All fields may be left out, and the
texts may be `null`.  The operator of a rule may also be given under the key of
a group's combinator.

While a tree is read, only so many arrays and objects may be open at once.  The
readers take the number that may still be opened: a group opens itself and then
one of its two lists.
-/

namespace QueryFilter

/-- How many arrays and objects may be open at once. -/
def Json.depthLimit : Nat := 127

namespace Rule

/-- The fields of a rule. -/
def slots : List (Json.Slot Rule) :=
  [Json.Reader.textOrNull.slot "field" fun s r => { r with field := s },
   (Json.Reader.textOrNull.slot "operator" fun s r => { r with operator := s }).orKey "operate",
   Json.Reader.textOrNull.slot "value" fun s r => { r with value := s }]

/-- Reads a rule where `room` arrays and objects may still be opened. -/
def read (room : Nat) : Json.Reader Rule :=
  match room with
  | 0 => .closedRecord "FilterRule"
  | _ + 1 => .record "FilterRule" slots {}

/-- The rule that a text presents. -/
def ofJson (s : List Char) : Except Json.Fault Rule := (read Json.depthLimit).readAll s

/-- A rule as it is written. -/
def json (r : Rule) : List Char :=
  Json.Write.object
    [("field", Json.Write.text r.field), ("operator", Json.Write.text r.operator),
     ("value", Json.Write.text r.value)]

end Rule

namespace Group

/-- The fields of a group, whose lists are read by the given readers. -/
def slots (rules : Json.Reader (List Rule)) (groups : Json.Reader (List Group)) :
    List (Json.Slot Group) :=
  [Json.Reader.textOrNull.slot "operate" fun s g => { g with operate := s },
   rules.slot "rules" fun rs g => { g with rules := rs },
   groups.slot "groups" fun gs g => { g with groups := gs }]

/-- Reads a group where `room` arrays and objects may still be opened. -/
def read : Nat → Json.Reader Group
  | 0 => .closedRecord "FilterGroup"
  | 1 => .record "FilterGroup" (slots .closedList .closedList) {}
  | room + 2 =>
      .record "FilterGroup" (slots (Rule.read room).list (read room).list) {}

/-- The group that a text presents. -/
def ofJson (s : List Char) : Except Json.Fault Group := (read Json.depthLimit).readAll s

mutual

/-- A group as it is written. -/
def json : Group → List Char
  | ⟨operate, rules, groups⟩ =>
      Json.Write.object
        [("operate", Json.Write.text operate),
         ("rules", Json.Write.array (rules.map Rule.json)),
         ("groups", Json.Write.array (jsonAll groups))]

/-- Groups as they are written. -/
def jsonAll : List Group → List (List Char)
  | [] => []
  | g :: gs => g.json :: jsonAll gs

end

@[simp] theorem jsonAll_eq_map (gs : List Group) : jsonAll gs = gs.map json := by
  induction gs with
  | nil => rfl
  | cons g gs ih => simp [jsonAll, ih]

end Group

end QueryFilter
