import QueryFilter.Group.Settle
import QueryFilter.Sql.Source

/-!
# Queries

A query asks one entity, given by its mapping, and writes values in one mode.
It turns a group into the predicate of a `WHERE` part, and an entity into a
whole `SELECT` statement.  Both settle the group, so both have two results: the
text, and the tree as it is left.

* `compile_eq` and `select_eq` — the text is that of the tree's clauses, and the
  tree left is the normalized one, for every mapping and mode;
* `predicate?_normalize` — the clauses of the normalized tree give the same
  text, so the order of several queries on one tree does not matter.
-/

namespace QueryFilter

/-- An entity to ask, and the way values are written. -/
structure Query where
  mapping : Mapping
  escaping : Sql.Escaping := .verbatim
deriving DecidableEq, Repr, Inhabited

namespace Query

/-- A condition as this query writes it. -/
def atom (q : Query) : Condition → List Char := Condition.sql q.mapping q.escaping

/-- The predicate of an optional group and the group as it is left.  There is no
predicate if nothing is asked. -/
def compile (q : Query) : Option Group → Option (List Char) × Option Group
  | none => (none, none)
  | some g =>
      let settled := g.settle
      (Clause.predicate? q.atom settled.2, some settled.1)

/-- What a statement selects: the projection, or everything when the entity has
no columns. -/
def selection (q : Query) : List Char :=
  if q.mapping.projection = [] then "*".toList else q.mapping.projection

/-- The part of a statement before its predicate: what is selected, and from where. -/
def head (q : Query) : List Char :=
  "SELECT ".toList ++ q.selection ++ Sql.Source.part q.mapping.source.toList

/-- The statement with a predicate, if there is one. -/
def statement (q : Query) : Option (List Char) → List Char
  | none => q.head
  | some predicate => q.head ++ " WHERE ".toList ++ predicate

/-- The statement that selects the rows for which the group holds, and the group
as it is left. -/
def select (q : Query) (g? : Option Group) : List Char × Option Group :=
  let compiled := q.compile g?
  (q.statement compiled.1, compiled.2)

/-- The predicate of an optional group. -/
def predicate? (q : Query) (g? : Option Group) : Option (List Char) :=
  g?.bind (Group.predicate? q.atom)

/-- **Compiling** gives the predicate and leaves the normalized tree. -/
theorem compile_eq (q : Query) (g? : Option Group) :
    q.compile g? = (q.predicate? g?, g?.map Group.normalize) := by
  cases g? with
  | none => rfl
  | some g => simp [compile, predicate?, Group.predicate?, Group.settle_eq]

/-- The text that a group is compiled to is its predicate. -/
theorem fst_compile (q : Query) (g : Group) : (q.compile (some g)).1 = g.predicate? q.atom := by
  rw [compile_eq]
  rfl

/-- **Selecting** gives the statement with the predicate and leaves the
normalized tree. -/
theorem select_eq (q : Query) (g? : Option Group) :
    q.select g? = (q.statement (q.predicate? g?), g?.map Group.normalize) := by
  rw [select, compile_eq]

/-- The normalized tree has the same predicate. -/
@[simp] theorem predicate?_normalize (q : Query) (g? : Option Group) :
    q.predicate? (g?.map Group.normalize) = q.predicate? g? := by
  cases g? with
  | none => rfl
  | some g => exact g.predicate?_normalize q.atom

end Query

end QueryFilter
