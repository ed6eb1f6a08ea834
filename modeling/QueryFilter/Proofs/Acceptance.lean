import QueryFilter.Proofs.Records

/-!
# What is accepted

The readers of rules, groups, fields, entities and catalogs are made like their forms, so
each takes its form, and nothing else.  For a group this is shown for any number of
brackets that may still be opened, two at each step down the tree.

So a text is accepted as a value if and only if it presents this value.  How it is written
makes no difference, and there is no text that could be taken for another value.

* `Rule.readBy`, …, `Catalog.readBy` — which readers read the parts of a record;
* `Group.takes_form`, `Group.takesOnly_form` — groups with room for so many brackets;
* `ofJson_eq_ok_iff_presents` — the accepted texts are those that present a value.
-/

namespace QueryFilter

open Json (IsValue)

/-! ## Records by their parts -/

section Parts

variable (Law : ∀ {β : Type}, Json.Reader β → Json.Form β → Prop)

/-- The slots of a rule read its parts by any law that the readers of texts follow. -/
theorem Rule.readBy (htext : Law .textOrNull .textOrNull) :
    Rule.layout.ReadBy (fun part rd => Law rd part.form) Rule.slots :=
  .cons ⟨_, htext, rfl⟩ (.cons ⟨_, htext, rfl⟩ (.cons ⟨_, htext, rfl⟩ .nil))

/-- The slots of a group read its parts if the readers of its lists follow the law as well. -/
theorem Group.readBy {readRules : Json.Reader (List Rule)}
    {readGroups : Json.Reader (List Group)} {rules : Json.Form (List Rule)}
    {groups : Json.Form (List Group)} (htext : Law .textOrNull .textOrNull)
    (hrules : Law readRules rules) (hgroups : Law readGroups groups) :
    (Group.layout rules groups).ReadBy (fun part rd => Law rd part.form)
      (Group.slots readRules readGroups) :=
  .cons ⟨_, htext, rfl⟩ (.cons ⟨_, hrules, rfl⟩ (.cons ⟨_, hgroups, rfl⟩ .nil))

/-- The slots of a field read its parts if the readers of texts and truth values follow the law. -/
theorem Field.readBy (htext : Law .text .text) (hflag : Law .flag .flag)
    (hoptional : Law Json.Reader.text.orNull .optional) :
    Field.layout.ReadBy (fun part rd => Law rd part.form) Field.slots :=
  .cons ⟨_, htext, rfl⟩ (.cons ⟨_, hflag, rfl⟩ (.cons ⟨_, hoptional, rfl⟩ .nil))

variable {Other : List Char → Prop}

/-- The slots of an entity read its parts if the reader of its fields follows the law. -/
theorem Entity.readBy (hoptional : Law Json.Reader.text.orNull .optional)
    (hfields : Law Field.read.list (.list (Field.layout.form Other))) :
    (Entity.layout Other).ReadBy (fun part rd => Law rd part.form) Entity.slots :=
  .cons ⟨_, hoptional, rfl⟩ (.cons ⟨_, hoptional, rfl⟩ (.cons ⟨_, hfields, rfl⟩ .nil))

/-- The slot of a catalog reads its part if the reader of its entities follows the law. -/
theorem Catalog.readBy
    (hentities : Law Entity.read.table (.table ((Entity.layout Other).form Other))) :
    (Catalog.layout Other).ReadBy (fun part rd => Law rd part.form) Catalog.slots :=
  .cons ⟨_, hentities, rfl⟩ .nil

end Parts

/-! ## Forms are taken -/

section Takes

variable {Other : List Char → Prop} (hOther : ∀ {u}, Other u → IsValue u)

include hOther

/-- A rule is read as what its text presents, where there is room for it. -/
theorem Rule.takes_form (room : Nat) : (Rule.read room).Takes (Rule.form Other room) := by
  cases room with
  | zero => exact Json.Reader.takes_closedRecord
  | succ room =>
      exact Json.Reader.takes_record (readBy Json.Reader.Takes Json.Reader.takes_textOrNull)
        (List.cons_ne_nil _ _) hOther

/-- A group is read as what its text presents, as deep as there is room for brackets. -/
theorem Group.takes_form : ∀ room, (Group.read room).Takes (Group.form Other room)
  | 0 => Json.Reader.takes_closedRecord
  | 1 =>
      Json.Reader.takes_record
        (readBy Json.Reader.Takes Json.Reader.takes_textOrNull Json.Reader.takes_closedList
          Json.Reader.takes_closedList)
        (List.cons_ne_nil _ _) hOther
  | room + 2 =>
      Json.Reader.takes_record
        (readBy Json.Reader.Takes Json.Reader.takes_textOrNull
          (Json.Reader.takes_list (Rule.takes_form hOther room))
          (Json.Reader.takes_list (takes_form room)))
        (List.cons_ne_nil _ _) hOther

/-- A field is read as what its text presents. -/
theorem Field.takes_form : Field.read.Takes (Field.layout.form Other) :=
  Json.Reader.takes_record
    (readBy Json.Reader.Takes Json.Reader.takes_text Json.Reader.takes_flag
      Json.Reader.takes_optional)
    (List.cons_ne_nil _ _) hOther

/-- An entity is read as what its text presents. -/
theorem Entity.takes_form : Entity.read.Takes ((Entity.layout Other).form Other) :=
  Json.Reader.takes_record
    (readBy Json.Reader.Takes Json.Reader.takes_optional
      (Json.Reader.takes_list (Field.takes_form hOther)))
    (List.cons_ne_nil _ _) hOther

/-- A catalog is read as what its text presents. -/
theorem Catalog.takes_form : Catalog.read.Takes (Catalog.form Other) :=
  Json.Reader.takes_record
    (readBy Json.Reader.Takes (Json.Reader.takes_table (Entity.takes_form hOther)))
    (List.cons_ne_nil _ _) hOther

end Takes

/-! ## Nothing else is taken -/

/-- What is read as a rule presents it. -/
theorem Rule.takesOnly_form (room : Nat) :
    (Rule.read room).TakesOnly (Rule.form IsValue room) := by
  cases room with
  | zero => exact Json.Reader.takesOnly_closedRecord
  | succ room =>
      exact Json.Reader.takesOnly_record
        (readBy Json.Reader.TakesOnly Json.Reader.takesOnly_textOrNull)
        (List.cons_ne_nil _ _)

/-- What is read as a group presents it, as deep as it goes. -/
theorem Group.takesOnly_form : ∀ room, (Group.read room).TakesOnly (Group.form IsValue room)
  | 0 => Json.Reader.takesOnly_closedRecord
  | 1 =>
      Json.Reader.takesOnly_record
        (readBy Json.Reader.TakesOnly Json.Reader.takesOnly_textOrNull
          Json.Reader.takesOnly_closedList Json.Reader.takesOnly_closedList)
        (List.cons_ne_nil _ _)
  | room + 2 =>
      Json.Reader.takesOnly_record
        (readBy Json.Reader.TakesOnly Json.Reader.takesOnly_textOrNull
          (Json.Reader.takesOnly_list (Rule.takesOnly_form room))
          (Json.Reader.takesOnly_list (takesOnly_form room)))
        (List.cons_ne_nil _ _)

/-- What is read as a field presents it. -/
theorem Field.takesOnly_form : Field.read.TakesOnly (Field.layout.form IsValue) :=
  Json.Reader.takesOnly_record
    (readBy Json.Reader.TakesOnly Json.Reader.takesOnly_text Json.Reader.takesOnly_flag
      Json.Reader.takesOnly_optional)
    (List.cons_ne_nil _ _)

/-- What is read as an entity presents it. -/
theorem Entity.takesOnly_form : Entity.read.TakesOnly ((Entity.layout IsValue).form IsValue) :=
  Json.Reader.takesOnly_record
    (readBy Json.Reader.TakesOnly Json.Reader.takesOnly_optional
      (Json.Reader.takesOnly_list Field.takesOnly_form))
    (List.cons_ne_nil _ _)

/-- What is read as a catalog presents it. -/
theorem Catalog.takesOnly_form : Catalog.read.TakesOnly (Catalog.form IsValue) :=
  Json.Reader.takesOnly_record
    (readBy Json.Reader.TakesOnly (Json.Reader.takesOnly_table Entity.takesOnly_form))
    (List.cons_ne_nil _ _)

/-! ## Whole texts -/

/-- **A text is accepted as a value if and only if it presents it.**  Every presentation of
a group with at most 127 brackets of its own open at once, and every presentation of a
catalog, is read as exactly what it presents, and nothing else is accepted. -/
theorem ofJson_eq_ok_iff_presents :
    (∀ (g : Group) (t : List Char),
      Group.ofJson t = .ok g ↔ Json.Presents (Group.form IsValue Json.depthLimit) g t) ∧
    ∀ (c : Catalog) (t : List Char),
      Catalog.ofJson t = .ok c ↔ Json.Presents (Catalog.form IsValue) c t :=
  ⟨fun _ _ => Json.Reader.readAll_eq_ok_iff (Group.takes_form id Json.depthLimit)
      (Group.takesOnly_form Json.depthLimit),
    fun _ _ => Json.Reader.readAll_eq_ok_iff (Catalog.takes_form id) Catalog.takesOnly_form⟩

/-- An entity as an object, with a key that names no part and an escape, and as an array. -/
example :
    (Entity.ofJson "\x7b \"x\": [1e3, \"\\ud800\"], \"parent\": \"\\u0042\" \x7d".toList).toOption =
      (Entity.ofJson "[null,\"B\"]".toList).toOption := by
  decide +kernel

end QueryFilter
