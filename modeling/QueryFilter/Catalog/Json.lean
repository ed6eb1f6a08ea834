import QueryFilter.Catalog
import QueryFilter.Json.Record
import QueryFilter.Json.Writer

/-!
# Catalogs in JSON

A catalog is a record with one field, an object of entities under their names.
Of an entity everything may be left out, of a field everything but its name.
Whether a field is persisted may be given under a second key.
-/

namespace QueryFilter

namespace Field

/-- The fields of the record of a field. -/
def slots : List (Json.Slot Field) :=
  [(Json.Reader.text.slot "name" fun s f => { f with name := s }).demanded,
   (Json.Reader.flag.slot "persisted" fun b f => { f with persisted := b }).orKey "exist",
   Json.Reader.text.orNull.slot "column" fun s f => { f with column? := s }]

/-- Reads a field. -/
def read : Json.Reader Field := .record "FieldDescriptor" slots { name := "" }

/-- A field as it is written. -/
def json (f : Field) : List Char :=
  Json.Write.object
    [("name", Json.Write.text f.name), ("persisted", Json.Write.flag f.persisted),
     ("column", Json.Write.optional f.column?)]

end Field

namespace Entity

/-- The fields of the record of an entity. -/
def slots : List (Json.Slot Entity) :=
  [Json.Reader.text.orNull.slot "source" fun s e => { e with source? := s },
   Json.Reader.text.orNull.slot "parent" fun s e => { e with parent? := s },
   Field.read.list.slot "fields" fun fs e => { e with fields := fs }]

/-- Reads an entity. -/
def read : Json.Reader Entity := .record "EntityMetadata" slots {}

/-- The entity that a text presents. -/
def ofJson (s : List Char) : Except Json.Fault Entity := read.readAll s

/-- An entity as it is written. -/
def json (e : Entity) : List Char :=
  Json.Write.object
    [("source", Json.Write.optional e.source?), ("parent", Json.Write.optional e.parent?),
     ("fields", Json.Write.array (e.fields.map Field.json))]

end Entity

namespace Catalog

/-- The fields of the record of a catalog. -/
def slots : List (Json.Slot Catalog) :=
  [Entity.read.table.slot "entities" fun es _ => ⟨es⟩]

/-- Reads a catalog. -/
def read : Json.Reader Catalog := .record "MemoryCatalog" slots {}

/-- The catalog that a text presents. -/
def ofJson (s : List Char) : Except Json.Fault Catalog := read.readAll s

/-- Named entities as the text of a catalog. -/
def jsonOfEntries (es : List (String × Entity)) : List Char :=
  Json.Write.object
    [("entities", Json.Write.object (es.map fun e => (e.1, e.2.json)))]

/-- A catalog as it is written. -/
def json (c : Catalog) : List Char := jsonOfEntries c.entities.entries

end Catalog

end QueryFilter
