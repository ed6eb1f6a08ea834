import QueryFilter.Sql.Name
import QueryFilter.Table
import QueryFilter.Text.Blank

/-!
# Catalogs of entities

An entity declares fields, and may name the source its rows come from and a
parent whose fields it inherits.  A catalog holds entities by name, in the
order in which the names were first inserted.

A field is known in queries by its `key`, the quoted form of its name, and is
computed by its `expression`: the quoted name of its column, or the text
between braces taken as it is.
-/

namespace QueryFilter

/-- One declared field of an entity. -/
structure Field where
  name : String
  persisted : Bool := true
  column? : Option String := none
deriving DecidableEq, Repr, Inhabited

/-- What one entity declares itself. -/
structure Entity where
  source? : Option String := none
  parent? : Option String := none
  fields : List Field := []
deriving DecidableEq, Repr, Inhabited

/-- Entities by name. -/
structure Catalog where
  entities : Table Entity := ∅
deriving DecidableEq, Repr, Inhabited

namespace Field

/-- The field stored in the column `column`. -/
def storedIn (f : Field) (column : String) : Field := { f with column? := some column }

/-- The field as one that is not stored. -/
def transient (f : Field) : Field := { f with persisted := false }

/-- The name by which queries know a field: its quoted form. -/
def key (f : Field) : String := String.ofList (Sql.Name.wrap f.name.toList)

/-- The name under which a field is stored.  A blank column name counts as
none. -/
def storage (f : Field) : String :=
  match f.column? with
  | none => f.name
  | some c => if Text.trim c.toList = [] then f.name else c

/-- The text inside the braces around `s`, if there are any. -/
def braced? : List Char → Option (List Char)
  | [] => none
  | c :: r => if c = '\x7b' ∧ r.getLast? = some '\x7d' then some r.dropLast else none

/-- The column expression of a stored name: braces hold an expression that is
taken as it is, and every other name is quoted. -/
def expressionOf (storage : List Char) : List Char :=
  (braced? storage).getD (Sql.Name.wrap storage)

/-- The column expression a field is computed by. -/
def expression (f : Field) : String := String.ofList (expressionOf f.storage.toList)

/-- A field with a name is stored under some name. -/
theorem storage_ne_nil {f : Field} (h : f.name.toList ≠ []) : f.storage.toList ≠ [] := by
  unfold storage
  split
  · exact h
  · next column _ =>
      by_cases hblank : Text.trim column.toList = []
      · rw [if_pos hblank]
        exact h
      · rw [if_neg hblank]
        intro hnil
        rw [hnil] at hblank
        exact hblank rfl

/-- Only a text between braces is an expression. -/
theorem braced?_eq_none {s : List Char}
    (h : ¬(s.head? = some '\x7b' ∧ s.getLast? = some '\x7d')) : braced? s = none := by
  cases s with
  | nil => rfl
  | cons c r =>
      apply if_neg
      rintro ⟨rfl, hlast⟩
      refine h ⟨rfl, ?_⟩
      rw [List.getLast?_cons, hlast]
      rfl

/-- An expression between braces is taken as it is. -/
theorem expressionOf_braced (s : List Char) : expressionOf ('\x7b' :: (s ++ ['\x7d'])) = s := by
  simp [expressionOf, braced?]

/-- What some declared fields give to a mapping: the keys and the expressions of those that are
stored, as declared. -/
def entries (fs : List Field) : List (String × String) :=
  (fs.filter persisted).map fun f => (f.key, f.expression)

/-- What is declared one after another gives its entries one after another. -/
theorem entries_append (fs gs : List Field) : entries (fs ++ gs) = entries fs ++ entries gs := by
  rw [entries, List.filter_append, List.map_append]
  rfl

/-- The key of a field is its name in backticks. -/
@[simp] theorem toList_key (f : Field) : f.key.toList = Sql.Name.wrap f.name.toList :=
  String.toList_ofList

/-- The expression of a field is that of what it is stored under. -/
@[simp] theorem toList_expression (f : Field) :
    f.expression.toList = expressionOf f.storage.toList :=
  String.toList_ofList

end Field

namespace Entity

/-- The entity with the source `source`. -/
def withSource (e : Entity) (source : String) : Entity := { e with source? := some source }

/-- The entity with the parent `parent`. -/
def withParent (e : Entity) (parent : String) : Entity := { e with parent? := some parent }

/-- The entity with one more field. -/
def withField (e : Entity) (f : Field) : Entity := { e with fields := e.fields ++ [f] }

/-- The entries that an entity gives to a mapping are those of its own fields. -/
def columns (e : Entity) : List (String × String) := Field.entries e.fields

end Entity

namespace Catalog

/-- The entity called `name`. -/
def find? (c : Catalog) (name : String) : Option Entity := c.entities.find? name

/-- The names of the entities, in order. -/
def names (c : Catalog) : List String := c.entities.names

/-- How many entities there are. -/
def size (c : Catalog) : Nat := c.entities.size

/-- The catalog in which `name` stands for `e`. -/
def insert (c : Catalog) (name : String) (e : Entity) : Catalog :=
  ⟨c.entities.insert name e⟩

/-- The catalog made by inserting entities in order. -/
def ofList (es : List (String × Entity)) : Catalog := ⟨Table.ofList es⟩

/-- The entity inserted last under a name is the one found. -/
theorem find?_insert (c : Catalog) (name : String) (e : Entity) (key : String) :
    (c.insert name e).find? key = if key = name then some e else c.find? key :=
  Table.find?_insert c.entities name e key

/-- A name that is found is among the names. -/
theorem mem_names_of_find? {c : Catalog} {name : String} {e : Entity}
    (h : c.find? name = some e) : name ∈ c.names :=
  Table.find?_isSome_iff.mp (by rw [← find?, h]; rfl)

end Catalog

end QueryFilter
