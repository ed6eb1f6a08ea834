import QueryFilter.Catalog.Json

/-!
# Loading a catalog

A catalog is loaded from what stands at a path.  Either the whole text there
presents a catalog, or loading fails: there is nothing at the path, or it
cannot be read as text, or the text does not present a catalog.
-/

namespace QueryFilter.Catalog

/-- What stands at a path. -/
inductive Content where
  | missing
  | directory
  | bytes (b : ByteArray)

/-- Why a text could not be read. -/
inductive Unreadable where
  | directory
  | notText
deriving DecidableEq, Repr

/-- Why a catalog could not be loaded from a path. -/
inductive LoadError where
  | notFound (path : String)
  | unreadable (path : String) (why : Unreadable)
  | invalid (path : String) (fault : Json.Fault)
deriving DecidableEq, Repr

/-- Why a text could not be read, in words. -/
def Unreadable.message : Unreadable → String
  | directory => "Is a directory (os error 21)"
  | notText => "stream did not contain valid UTF-8"

/-- Why a catalog could not be loaded, in words. -/
def LoadError.message : LoadError → String
  | notFound path => "配置文件不存在: " ++ path
  | unreadable path why => "无法读取配置文件 " ++ path ++ ": " ++ why.message
  | invalid path fault => "无法解析JSON配置文件 " ++ path ++ ": " ++ fault.message

/-- The text at a path. -/
def Content.read (path : String) : Content → Except LoadError String
  | missing => .error (.notFound path)
  | directory => .error (.unreadable path .directory)
  | bytes b =>
      match String.fromUTF8? b with
      | some s => .ok s
      | none => .error (.unreadable path .notText)

/-- The catalog that the content of a path presents. -/
def load (path : String) (content : Content) : Except LoadError Catalog := do
  let s ← content.read path
  (ofJson s.toList).mapError (.invalid path)

end QueryFilter.Catalog
