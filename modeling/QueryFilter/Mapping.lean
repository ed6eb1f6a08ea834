import QueryFilter.Catalog.Lineage
import QueryFilter.Sql.Literal

/-!
# Mappings from fields to columns

A mapping is all a query needs to know about an entity: its source, and the
column expression of each field it has or inherits.  The fields stand in the
order of the lineage, and of several declarations under one key the nearest
persisted one counts.

A token that names a field is turned into a column in one of two ways.
`column` leaves a dotted token as it is and wraps an unmapped one in backticks;
`safeColumn` quotes every token that is not mapped, part by part.
-/

namespace QueryFilter

/-- The columns of an entity's fields, by key, and the entity's source. -/
structure Mapping where
  source : String := ""
  columns : Table String := ∅
deriving DecidableEq, Repr, Inhabited

namespace Mapping

/-- The mapping of an entity with the given source and lineage. -/
def ofLineage (source : String) (lineage : List (String × Entity)) : Mapping :=
  ⟨source, Table.firsts (lineage.flatMap fun p => p.2.columns)⟩

/-- The mapping of the entity `name`, if the catalog knows it. -/
def ofCatalog? (c : Catalog) (name : String) : Option Mapping :=
  (c.find? name).map fun e => ofLineage (e.source?.getD "") (c.lineage name)

/-- One item of a projection: a column under the key of its field. -/
def projectionItem (entry : String × String) : List Char :=
  entry.2.toList ++ " AS ".toList ++ entry.1.toList

/-- The list of all columns, each under the key of its field. -/
def projection (m : Mapping) : List Char :=
  [','].intercalate (m.columns.entries.map projectionItem)

/-- The column mapped to the token `field`, which is quoted to look it up. -/
def mapped? (m : Mapping) (field : List Char) : Option (List Char) :=
  (m.columns.find? (String.ofList (Sql.Name.wrap field))).map String.toList

/-- The column expression of a token, with the token's own dots and backticks
left in force. -/
def column (m : Mapping) (field : List Char) : List Char :=
  if Text.trim field = [] then Sql.Literal.empty
  else if Sql.Name.isQualified field then field
  else (m.mapped? field).getD (Sql.Name.wrap field)

/-- The column expression of a token that cannot leave its quotes. -/
def safeColumn (m : Mapping) (field : List Char) : List Char :=
  if Text.trim field = [] then Sql.Literal.empty
  else if Sql.Name.isQualified field then Sql.Name.quotePath field
  else (m.mapped? field).getD (Sql.Name.quotePath field)

/-- The column expression of a token in the given mode. -/
def resolve (m : Mapping) : Sql.Escaping → List Char → List Char
  | .verbatim => m.column
  | .escaped => m.safeColumn

/-- The columns are those of the declared fields, the first of each key. -/
theorem columns_ofLineage (source : String) (lineage : List (String × Entity)) :
    (ofLineage source lineage).columns =
      Table.firsts (Field.entries (lineage.flatMap fun p => p.2.fields)) := by
  rw [ofLineage, Field.entries, List.filter_flatMap, List.map_flatMap]
  rfl

/-- The columns of an entity are those of what it declares or inherits, the first of each key. -/
theorem columns_ofCatalog? {c : Catalog} {name : String} {m : Mapping}
    (h : ofCatalog? c name = some m) :
    m.columns = Table.firsts (Field.entries (c.declared name)) := by
  obtain ⟨e, -, rfl⟩ := Option.map_eq_some_iff.mp h
  exact columns_ofLineage _ _

/-- Only the entities of the catalog have a mapping. -/
theorem ofCatalog?_eq_none_iff {c : Catalog} {name : String} :
    ofCatalog? c name = none ↔ name ∉ c.names := by
  rw [ofCatalog?, Option.map_eq_none_iff]
  exact Table.find?_eq_none_iff

end Mapping

end QueryFilter
