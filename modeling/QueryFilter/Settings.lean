import QueryFilter.Json.Record
import QueryFilter.Json.Writer
import QueryFilter.Query

/-!
# Settings

The settings of a query are given as a record: the way in which values are
written, which is `verbatim` unless another is chosen.
-/

namespace QueryFilter

/-- What can be set about a query. -/
structure Settings where
  escaping : Sql.Escaping := .verbatim
deriving DecidableEq, Repr, Inhabited

namespace Settings

/-- The names of the ways to write values. -/
def modes : List (String × Sql.Escaping) :=
  [("verbatim", .verbatim), ("escaped", .escaped)]

/-- The name of a way to write values. -/
def modeName : Sql.Escaping → String
  | .verbatim => "verbatim"
  | .escaped => "escaped"

/-- The fields of the record of settings. -/
def slots : List (Json.Slot Settings) :=
  [(Json.Reader.choice modes).slot "value_escaping" fun e _ => ⟨e⟩]

/-- Reads settings. -/
def read : Json.Reader Settings := .record "CompilerConfig" slots {}

/-- The settings that a text presents. -/
def ofJson (s : List Char) : Except Json.Fault Settings := read.readAll s

/-- Settings as they are written. -/
def json (s : Settings) : List Char :=
  Json.Write.object [("value_escaping", Json.Write.text (modeName s.escaping))]

/-- The query on an entity under these settings. -/
def query (s : Settings) (m : Mapping) : Query := ⟨m, s.escaping⟩

end Settings

end QueryFilter
