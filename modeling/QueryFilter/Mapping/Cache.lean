import QueryFilter.Mapping

/-!
# A cache of mappings

The cache keeps the first mapping that was built for a name and gives it back
from then on, whatever becomes of the catalog.  A name that is unknown when it
is asked for leaves no trace.

* `get_of_cached` — a cached name is answered from the cache;
* `get_of_unknown` — an unknown name changes nothing;
* `get_of_fresh` — a new name is built from the catalog of the moment and kept;
* `get_fst`, `find?_get_snd` — what is answered, and what is cached afterwards.
-/

namespace QueryFilter.Mapping

/-- The mappings built so far, by entity name. -/
structure Cache where
  entries : Table Mapping := ∅
deriving DecidableEq, Repr, Inhabited

namespace Cache

/-- The mapping of `name`, from the cache or else from the catalog, and the
cache afterwards. -/
def get (cache : Cache) (c : Catalog) (name : String) : Option Mapping × Cache :=
  match cache.entries.find? name with
  | some m => (some m, cache)
  | none =>
      match ofCatalog? c name with
      | none => (none, cache)
      | some m => (some m, ⟨cache.entries.insert name m⟩)

/-- How many mappings are cached. -/
def size (cache : Cache) : Nat := cache.entries.size

/-- Whether nothing is cached. -/
def isEmpty (cache : Cache) : Bool := cache.entries.entries.isEmpty

/-- The cache without entries. -/
def clear (_ : Cache) : Cache := ⟨∅⟩

/-- A mapping that is held is given, and nothing changes. -/
theorem get_of_cached {cache : Cache} {c : Catalog} {name : String} {m : Mapping}
    (h : cache.entries.find? name = some m) : cache.get c name = (some m, cache) := by
  simp [get, h]

/-- For an unknown name there is no mapping, and nothing changes. -/
theorem get_of_unknown {cache : Cache} {c : Catalog} {name : String}
    (h : cache.entries.find? name = none) (hc : ofCatalog? c name = none) :
    cache.get c name = (none, cache) := by
  simp [get, h, hc]

/-- A mapping that is built is given, and held from then on. -/
theorem get_of_fresh {cache : Cache} {c : Catalog} {name : String} {m : Mapping}
    (h : cache.entries.find? name = none) (hc : ofCatalog? c name = some m) :
    cache.get c name = (some m, ⟨cache.entries.insert name m⟩) := by
  simp [get, h, hc]

/-- A mapping comes from the cache, or else from the catalog. -/
theorem get_fst (cache : Cache) (c : Catalog) (name : String) :
    (cache.get c name).1 = (cache.entries.find? name).or (ofCatalog? c name) := by
  cases h : cache.entries.find? name with
  | some m => rw [get_of_cached h, Option.some_or]
  | none =>
      rw [Option.none_or]
      cases hc : ofCatalog? c name with
      | none => rw [get_of_unknown h hc]
      | some m => rw [get_of_fresh h hc]

/-- Afterwards what was answered is cached under the name, and no other name is
touched. -/
theorem find?_get_snd (cache : Cache) (c : Catalog) (name key : String) :
    (cache.get c name).2.entries.find? key =
      if key = name then (cache.get c name).1 else cache.entries.find? key := by
  cases h : cache.entries.find? name with
  | some m =>
      rw [get_of_cached h]
      split
      · next hkey => rw [hkey, h]
      · rfl
  | none =>
      cases hc : ofCatalog? c name with
      | none =>
          rw [get_of_unknown h hc]
          split
          · next hkey => rw [hkey, h]
          · rfl
      | some m => rw [get_of_fresh h hc, Table.find?_insert]

end Cache

end QueryFilter.Mapping
