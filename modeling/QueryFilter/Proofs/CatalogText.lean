import QueryFilter.Catalog.Json
import QueryFilter.Proofs.Reading

/-!
# A catalog as a text

A catalog can be made by inserting entities one by one, or it can be read from a
text in which they stand one after another.  Both make the same of names that come
more than once: the place of the first is kept, and the entity of the last counts.

What is written of an entity leaves nothing out.  A source, a parent or a column
that is not there is written as `null`, which is not the empty text, so that all
three are read back as they were.

* `Field.reads_json`, `Entity.reads_json` — what stands in a catalog is read back;
* `Catalog.reads_jsonOfEntries` — named entities are read as inserted in order;
* `Catalog.ofJson_jsonOfEntries` — so a text presents the catalog that is made so.
-/

namespace QueryFilter

namespace Field

theorem nodup_keys : (slots.flatMap Json.Slot.keys).Nodup := by decide

/-- The parts of a field as they are written. -/
def members (f : Field) : List (Json.Member Field) :=
  [((Json.Reader.reads_text f.name).member "name" fun s f => { f with name := s }).demanded,
   ((Json.Reader.reads_flag f.persisted).member "persisted"
      fun b f => { f with persisted := b }).orKey "exist",
   (Json.Reader.reads_optional f.column?).member "column" fun s f => { f with column? := s }]

/-- A field is read back. -/
theorem reads_json (f : Field) : read.Reads f.json (.ok f) :=
  Json.Reader.reads_record nodup_keys f.members (.refl _) (fun _ hslot _ => hslot)
    "FieldDescriptor" { name := "" }

end Field

namespace Entity

theorem nodup_keys : (slots.flatMap Json.Slot.keys).Nodup := by decide

/-- The fields of an entity are read back. -/
theorem reads_fields (e : Entity) :
    Field.read.list.Reads (Json.Write.array (e.fields.map Field.json)) (.ok e.fields) :=
  Json.Reader.reads_list_back (fun _ _ => Json.isEntry_object _) fun f _ => f.reads_json

/-- The parts of an entity as they are written. -/
def members (e : Entity) : List (Json.Member Entity) :=
  [(Json.Reader.reads_optional e.source?).member "source" fun s e => { e with source? := s },
   (Json.Reader.reads_optional e.parent?).member "parent" fun s e => { e with parent? := s },
   e.reads_fields.member "fields" fun fs e => { e with fields := fs }]

/-- An entity is read back. -/
theorem reads_json (e : Entity) : read.Reads e.json (.ok e) :=
  Json.Reader.reads_record nodup_keys e.members (.refl _) (fun _ hslot _ => hslot)
    "EntityMetadata" {}

end Entity

namespace Catalog

theorem nodup_keys : (slots.flatMap Json.Slot.keys).Nodup := by decide

/-- Named entities are read as inserted in order. -/
theorem reads_jsonOfEntries (es : List (String × Entity)) :
    read.Reads (jsonOfEntries es) (.ok (ofList es)) := by
  have hentities : Entity.read.table.Reads
      (Json.Write.object (es.map fun e => (e.1, e.2.json))) (.ok (Table.ofList es)) :=
    Json.Reader.reads_table fun e _ => e.2.reads_json
  exact Json.Reader.reads_record nodup_keys [hentities.member "entities" fun es _ => ⟨es⟩]
    (.refl _) (fun _ hslot _ => hslot) "MemoryCatalog" {}

/-- Entities are inserted into a catalog as into the table of its entities. -/
theorem foldl_insert (es : List (String × Entity)) (t : Table Entity) :
    es.foldl (fun c e => c.insert e.1 e.2) (⟨t⟩ : Catalog) =
      ⟨es.foldl (fun t e => t.insert e.1 e.2) t⟩ := by
  induction es generalizing t with
  | nil => rfl
  | cons e es ih => exact ih (t.insert e.1 e.2)

/-- **A text presents the catalog that is made by inserting what it names.**  Each name
stands where it came first, with the entity that came last under it.  So every
catalog is read back from the text in which it is written. -/
theorem ofJson_jsonOfEntries (es : List (String × Entity)) :
    ∃ c : Catalog, ofJson (jsonOfEntries es) = .ok c ∧
      c = es.foldl (fun c e => c.insert e.1 e.2) {} ∧
      c.names = (es.map Prod.fst).eraseDups ∧
      (∀ name, c.find? name = es.reverse.lookup name) ∧
      ∀ d : Catalog, ofJson d.json = .ok d := by
  refine ⟨ofList es, (reads_jsonOfEntries es).readAll, (foldl_insert es ∅).symm,
    Table.names_ofList es, Table.find?_ofList es, fun d => ?_⟩
  have hback := (reads_jsonOfEntries d.entities.entries).readAll
  rwa [ofList, Table.ofList_entries] at hback

/-- A name that comes twice: its first place, and its last entity. -/
example :
    (ofJson (jsonOfEntries [("A", { source? := some "" }), ("B", {}),
        ("A", { parent? := some "B" })])).toOption =
      some (ofList [("A", { parent? := some "B" }), ("B", {})]) := by
  decide +kernel

end Catalog

end QueryFilter
