import QueryFilter.Catalog.Json
import QueryFilter.Group.Json
import QueryFilter.Proofs.Grammar

/-!
# Presentations

One value has many texts.  A record may be an object, its keys in any order and in any of
their spellings, or an array in the declared order.  A part of it may be left out where
the value has what the part is by default.  Texts may be spelled with escapes, and blanks
may stand between all of this.  At every node of a tree the choice is made anew.

A `Form` says which texts present which values, again without a reader.  The forms of
records come from a `Layout`: its parts, each with its keys, its default and the form of
its value.  What may stand under a key that names no part is a parameter, so that the
same forms describe the texts that use declared keys only.

The arrays and objects of the forms are counted: a group has a form only as deep as there
is room for brackets.

* `Layout.object`, `Layout.array` — the two ways to write a record;
* `Group.form`, `Catalog.form` — groups and catalogs, to any depth there is room for;
* `Presents` — whole texts.
-/

namespace QueryFilter.Json

/-- Which texts present which values. -/
abbrev Form (α : Type) := α → List Char → Prop

variable {α : Type}

namespace Form

/-- A text, in any of its spellings. -/
def text : Form String := fun s w => Quoted .kept s.toList w

/-- A text, where the empty one may be `null`. -/
def textOrNull : Form String := fun s w => text s w ∨ s = "" ∧ w = "null".toList

/-- A text, or `null` for none. -/
def optional : Form (Option String)
  | none, w => w = "null".toList
  | some s, w => text s w

/-- `true` or `false`. -/
def flag : Form Bool := fun b w => w = if b then "true".toList else "false".toList

/-- No text at all, where no bracket may be opened. -/
def closed : Form α := fun _ _ => False

/-- An array of values. -/
def list (F : Form α) : Form (List α) := fun xs w =>
  ∃ vs v, List.Forall₂ F xs vs ∧ Encloses .array vs v ∧ w = '[' :: v

/-- An object of values under names, of which the last value of a name counts. -/
def table (F : Form α) : Form (Table α) := fun t w =>
  ∃ es ms v, List.Forall₂ (fun e m => ∃ u, Keyed .kept e.1.toList u m ∧ F e.2 u) es ms ∧
    Encloses .object ms v ∧ w = '\x7b' :: v ∧ t = Table.ofList es

end Form

/-! ## Records -/

/-- A part of a record: its keys, what it is where it is left out, if it may be, and which
texts present it. -/
structure Part (α : Type) where
  {β : Type}
  name : String
  other? : Option String := none
  default? : Option β
  form : Form β
  value : α → β
  store : β → α → α
  value_store : ∀ b a, value (store b a) = b := by intros; rfl

namespace Part

/-- The keys that name the part. -/
def keys (part : Part α) : List String := part.name :: part.other?.toList

/-- Whether `u` presents the part of `a`. -/
def Shows (part : Part α) (a : α) (u : List Char) : Prop := part.form (part.value a) u

/-- Whether the part of `a` may be left out. -/
def MayLack (part : Part α) (a : α) : Prop := part.default? = some (part.value a)

/-- Whether `m` is the value `u` under a key of the part. -/
def Gives (part : Part α) (u m : List Char) : Prop :=
  ∃ key ∈ part.keys, Keyed .kept key.toList u m

end Part

/-- The parts of a record, in their declared order.  They have no key in common, they are
independent of one another, and they are all there is to the record. -/
structure Layout (α : Type) where
  parts : List (Part α)
  blank : α
  nodup : (parts.flatMap Part.keys).Nodup
  value_blank : ∀ part ∈ parts, ∀ b ∈ part.default?, part.value blank = b
  frame : ∀ part ∈ parts, ∀ other ∈ parts, part.name ≠ other.name →
    ∀ b a, part.value (other.store b a) = part.value a
  ext : ∀ a b, (∀ part ∈ parts, part.value a = part.value b) → a = b

namespace Layout

/-- A member of an object that presents `a`: it gives a part of the layout, or it has a key
that names none. -/
inductive Member (L : Layout α) (Other : List Char → Prop) (a : α) :
    Option (Part α) → List Char → Prop
  | part {part : Part α} {u m : List Char} (hpart : part ∈ L.parts) (hm : part.Gives u m)
      (hu : part.Shows a u) : Member L Other a (some part) m
  | other {key : String} {u m : List Char} (hkey : ∀ part ∈ L.parts, key ∉ part.keys)
      (hm : Keyed .kept key.toList u m) (hu : Other u) : Member L Other a none m

/-- The names of the parts that are given. -/
def names (given : List (Option (Part α))) : List String :=
  given.filterMap fun part => part.map Part.name

/-- A record as an object.  No part is given twice, and the others may be left out. -/
def object (L : Layout α) (Other : List Char → Prop) : Form α := fun a w =>
  ∃ given ms v, List.Forall₂ (L.Member Other a) given ms ∧ (names given).Nodup ∧
    (∀ part ∈ L.parts, part.name ∉ names given → part.MayLack a) ∧
    Encloses .object ms v ∧ w = '\x7b' :: v

/-- A record as an array.  Its first parts are given, and the others may be left out. -/
def array (L : Layout α) : Form α := fun a w =>
  ∃ vs v, List.Forall₂ (fun part u => part.Shows a u) (L.parts.take vs.length) vs ∧
    (∀ part ∈ L.parts.drop vs.length, part.MayLack a) ∧ Encloses .array vs v ∧ w = '[' :: v

/-- A record. -/
def form (L : Layout α) (Other : List Char → Prop) : Form α := fun a w =>
  L.object Other a w ∨ L.array a w

end Layout

/-- What may stand under a key that names no part, where only declared keys are used. -/
def NoValue (_ : List Char) : Prop := False

/-- Whether a whole text presents a value. -/
def Presents (F : Form α) (a : α) (t : List Char) : Prop :=
  ∃ b w b', Blank b ∧ F a w ∧ Blank b' ∧ t = b ++ (w ++ b')

end QueryFilter.Json

namespace QueryFilter

variable (Other : List Char → Prop)

/-! ## Groups -/

/-- The parts of a rule. -/
def Rule.layout : Json.Layout Rule where
  parts :=
    [{ name := "field", default? := some "", form := .textOrNull, value := Rule.field,
       store := fun s r => { r with field := s } },
     { name := "operator", other? := some "operate", default? := some "", form := .textOrNull,
       value := Rule.operator, store := fun s r => { r with operator := s } },
     { name := "value", default? := some "", form := .textOrNull, value := Rule.value,
       store := fun s r => { r with value := s } }]
  blank := {}
  nodup := by decide
  value_blank := by simp
  frame := by simp
  ext := by
    rintro ⟨⟩ ⟨⟩ h
    simpa using h

/-- The texts of a rule where `room` brackets may be opened. -/
def Rule.form : Nat → Json.Form Rule
  | 0 => .closed
  | _ + 1 => Rule.layout.form Other

/-- The parts of a group, whose lists have the given forms. -/
def Group.layout (rules : Json.Form (List Rule)) (groups : Json.Form (List Group)) :
    Json.Layout Group where
  parts :=
    [{ name := "operate", default? := some "", form := .textOrNull, value := Group.operate,
       store := fun s g => { g with operate := s } },
     { name := "rules", default? := some [], form := rules, value := Group.rules,
       store := fun rs g => { g with rules := rs } },
     { name := "groups", default? := some [], form := groups, value := Group.groups,
       store := fun gs g => { g with groups := gs } }]
  blank := {}
  nodup := show ["operate", "rules", "groups"].Nodup by decide
  value_blank := by simp
  frame := by simp
  ext := by
    rintro ⟨⟩ ⟨⟩ h
    simpa using h

/-- The texts of a group where `room` brackets may be opened. -/
def Group.form : Nat → Json.Form Group
  | 0 => .closed
  | 1 => (Group.layout .closed .closed).form Other
  | room + 2 => (Group.layout (.list (Rule.form Other room)) (.list (Group.form room))).form Other

/-! ## Catalogs -/

/-- The parts of a field.  Its name must be given. -/
def Field.layout : Json.Layout Field where
  parts :=
    [{ name := "name", default? := none, form := .text, value := Field.name,
       store := fun s f => { f with name := s } },
     { name := "persisted", other? := some "exist", default? := some true, form := .flag,
       value := Field.persisted, store := fun b f => { f with persisted := b } },
     { name := "column", default? := some none, form := .optional, value := Field.column?,
       store := fun s f => { f with column? := s } }]
  blank := { name := "" }
  nodup := by decide
  value_blank := by simp
  frame := by simp
  ext := by
    rintro ⟨⟩ ⟨⟩ h
    simpa using h

/-- The parts of an entity. -/
def Entity.layout : Json.Layout Entity where
  parts :=
    [{ name := "source", default? := some none, form := .optional, value := Entity.source?,
       store := fun s e => { e with source? := s } },
     { name := "parent", default? := some none, form := .optional, value := Entity.parent?,
       store := fun s e => { e with parent? := s } },
     { name := "fields", default? := some [], form := .list (Field.layout.form Other),
       value := Entity.fields, store := fun fs e => { e with fields := fs } }]
  blank := {}
  nodup := show ["source", "parent", "fields"].Nodup by decide
  value_blank := by simp
  frame := by simp
  ext := by
    rintro ⟨⟩ ⟨⟩ h
    simpa using h

/-- The one part of a catalog. -/
def Catalog.layout : Json.Layout Catalog where
  parts :=
    [{ name := "entities", default? := some ∅, form := .table ((Entity.layout Other).form Other),
       value := Catalog.entities, store := fun es _ => ⟨es⟩ }]
  blank := {}
  nodup := show ["entities"].Nodup by decide
  value_blank := by simp
  frame := by simp
  ext := by
    rintro ⟨⟩ ⟨⟩ h
    simpa using h

/-- The texts of a catalog. -/
def Catalog.form : Json.Form Catalog := (Catalog.layout Other).form Other

end QueryFilter
