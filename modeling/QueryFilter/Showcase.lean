import QueryFilter.Catalog.Load
import QueryFilter.Group.Json
import QueryFilter.Query

/-!
# The showcase

The showcase asks for users.  It takes the catalog from a file if it can, and
else one of its own, and shows every step from the fields of the entity to a
statement, in both ways of writing values.
-/

namespace QueryFilter.Showcase

/-- What a run of a program leaves behind. -/
structure Outcome where
  code : Nat
  output : String
  errors : String
deriving DecidableEq, Repr

/-- The file the catalog is taken from. -/
def path : String := "entity_catalog.json"

/-- The entity that is asked. -/
def entity : String := "User"

/-- The catalog for a file that cannot be used. -/
def builtin : Catalog :=
  .ofList
    [("User",
      { source? := some "t_user"
        parent? := some "BaseEntity"
        fields :=
          [{ name := "userName", column? := some "user_name" },
           { name := "tags" },
           { name := "displayName",
             column? := some "\x7bCONCAT(first_name, ' ', last_name)\x7d" },
           { name := "password", persisted := false }] }),
     ("BaseEntity",
      { fields := [{ name := "id" }, { name := "createdAt", column? := some "created_at" }] })]

/-- The filter that is asked for. -/
def filterText : String :=
  "\n".intercalate
    ["\x7b",
     "        \"operate\": \"or\",",
     "        \"rules\": [",
     "            \x7b \"field\": \"userName\", \"operator\": \"startwith\", \"value\": \"bo\" \x7d,",
     "            \x7b \"field\": \"createdAt\", \"operator\": \"greaterorequal\", \"value\": \"2024-01-01\" \x7d",
     "        ],",
     "        \"groups\": [",
     "            \x7b \"rules\": [",
     "                \x7b \"field\": \"tags\", \"operator\": \"in\", \"value\": \",vip,admin,\" \x7d,",
     "                \x7b \"field\": \"displayName\", \"operator\": \"like\", \"value\": \"O'Brien\" \x7d",
     "            ] \x7d",
     "        ]",
     "    \x7d"]

/-- Lines of text, each with its end. -/
def lines (ls : List String) : String := String.join (ls.map fun l => l ++ "\n")

/-- The catalog to use, and the line that tells where it is from. -/
def catalogOf (content : Catalog.Content) : Catalog × String :=
  match Catalog.load path content with
  | .ok c => (c, "✅ 成功从JSON配置文件加载实体元数据: " ++ path)
  | .error e => (builtin, "⚠️ 无法加载JSON配置文件 (" ++ e.message ++ "), 使用内置元数据")

/-- The line that tells which operator the second rule of the first nested
group ended with. -/
def operatorLines (g? : Option Group) : List String :=
  match (g?.bind fun g => g.groups.head?).bind fun inner => inner.rules[1]? with
  | some r => ["\n[归一化后的运算符]: " ++ r.field ++ " -> " ++ r.operator]
  | none => []

/-- The lines about a filter on the entity mapped by `m`: its predicate, what
became of it, and the statement for it with escaped values. -/
def filterLines (m : Mapping) (g : Group) : List String :=
  let compiled := Query.compile ⟨m, .verbatim⟩ (some g)
  let selected := Query.select ⟨m, .escaped⟩ compiled.2
  (match compiled.1 with
    | some predicate => ["\n[谓词]:", String.ofList predicate]
    | none => ["\n[谓词]: (空)"]) ++
  operatorLines compiled.2 ++
  ["\n[转义模式 SQL]:", String.ofList selected.1]

/-- A run of the showcase, given what stands at the path of the catalog. -/
def run (content : Catalog.Content) : Outcome :=
  let (catalog, origin) := catalogOf content
  let opening := ["--- Filter Compiler: 条件树到 SQL 谓词 ---", origin]
  match Mapping.ofCatalog? catalog entity with
  | none => ⟨1, lines opening, lines ["Error: 实体 " ++ entity ++ " 不在元数据中"]⟩
  | some m =>
      let about :=
        ["\n[投影]:", String.ofList m.projection, "[来源]: " ++ m.source,
         "\n[输入条件树]:", filterText]
      match Group.ofJson filterText.toList with
      | .error fault =>
          ⟨1, lines (opening ++ about), lines ["Error: 无法解析条件树JSON: " ++ fault.message]⟩
      | .ok g => ⟨0, lines (opening ++ about ++ filterLines m g), ""⟩

end QueryFilter.Showcase
