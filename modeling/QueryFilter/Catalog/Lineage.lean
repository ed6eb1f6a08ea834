import QueryFilter.Catalog

/-!
# The lineage of an entity

The lineage of an entity is the walk from it through its parents.  Each name is
met once: the walk ends at an entity without a parent, at a parent that the
catalog does not know, and at a parent that was met before, so that it ends
also where the parents form a ring.

* `lineage_eq_nil_iff` — only an unknown entity has an empty lineage;
* `lineageFrom_find?` — every pair on the walk is an entry of the catalog;
* `nodup_lineage` — no name comes twice.
-/

namespace QueryFilter.Catalog

/-- The names of the catalog that a walk has not met yet. -/
def unmet (c : Catalog) (met : List String) : List String :=
  c.names.filter fun n => n ∉ met

/-- Meeting a new name of the catalog leaves fewer to meet. -/
theorem length_unmet_cons_lt {c : Catalog} {met : List String} {name : String} {e : Entity}
    (hnew : name ∉ met) (hknown : c.find? name = some e) :
    (c.unmet (name :: met)).length < (c.unmet met).length := by
  have hmem : name ∈ c.unmet met := by
    simp [unmet, mem_names_of_find? hknown, hnew]
  have hfilter : c.unmet (name :: met) = (c.unmet met).filter fun n => n ≠ name := by
    simp only [unmet, List.filter_filter]
    congr 1
    funext n
    by_cases h : n = name <;> simp [h]
  rw [hfilter]
  exact List.length_filter_lt_length_iff_exists.mpr ⟨name, hmem, by simp⟩

/-- The walk from `name` upward, when the names `met` were met before. -/
def lineageFrom (c : Catalog) (met : List String) (name : String) : List (String × Entity) :=
  if _ : name ∈ met then [] else
    match _ : c.find? name with
    | none => []
    | some e =>
        (name, e) ::
          match e.parent? with
          | none => []
          | some parent => lineageFrom c (name :: met) parent
termination_by (c.unmet met).length
decreasing_by exact length_unmet_cons_lt ‹_› ‹_›

/-- The entity `name` and its ancestors, the nearest first. -/
def lineage (c : Catalog) (name : String) : List (String × Entity) :=
  c.lineageFrom [] name

/-- All fields declared on the lineage of `name`, the nearest first. -/
def declared (c : Catalog) (name : String) : List Field :=
  (c.lineage name).flatMap fun p => p.2.fields

/-- A walk does not meet a name again. -/
theorem lineageFrom_of_mem {c : Catalog} {met : List String} {name : String}
    (h : name ∈ met) : c.lineageFrom met name = [] := by
  rw [lineageFrom]
  simp [h]

/-- A walk ends at a name the catalog does not know. -/
theorem lineageFrom_of_unknown {c : Catalog} {met : List String} {name : String}
    (h : c.find? name = none) : c.lineageFrom met name = [] := by
  rw [lineageFrom]
  split
  · rfl
  · split
    · rfl
    · next e he => rw [h] at he; cases he

/-- A walk meets a known new name and goes on from its parent. -/
theorem lineageFrom_of_known {c : Catalog} {met : List String} {name : String} {e : Entity}
    (hnew : name ∉ met) (h : c.find? name = some e) :
    c.lineageFrom met name =
      (name, e) :: (e.parent?.map (c.lineageFrom (name :: met))).getD [] := by
  rw [lineageFrom, dif_neg hnew]
  split
  · next hnone => rw [h] at hnone; cases hnone
  · next e' he =>
      rw [h] at he
      cases he
      cases e.parent? <;> rfl

/-- A walk meets nothing if its first name was met, or is unknown. -/
theorem lineageFrom_eq_nil_iff {c : Catalog} {met : List String} {name : String} :
    c.lineageFrom met name = [] ↔ name ∈ met ∨ c.find? name = none := by
  by_cases hmet : name ∈ met
  · simp [lineageFrom_of_mem hmet, hmet]
  · cases hfind : c.find? name with
    | none => simp [lineageFrom_of_unknown hfind]
    | some e => simp [lineageFrom_of_known hmet hfind, hmet]

/-- Only a name that the catalog does not know has no lineage. -/
theorem lineage_eq_nil_iff {c : Catalog} {name : String} :
    c.lineage name = [] ↔ c.find? name = none := by
  rw [lineage, lineageFrom_eq_nil_iff]
  simp

/-- Every pair on a walk is an entry of the catalog under a name not met
before. -/
theorem lineageFrom_find? {c : Catalog} {met : List String} {name : String} :
    ∀ p ∈ c.lineageFrom met name, c.find? p.1 = some p.2 ∧ p.1 ∉ met := by
  fun_induction lineageFrom c met name with
  | case1 => simp
  | case2 => simp
  | case3 met name hmet e hfound ih =>
      intro p hp
      rcases List.mem_cons.mp hp with rfl | hp
      · exact ⟨hfound, hmet⟩
      · cases hparent : e.parent? with
        | none => simp [hparent] at hp
        | some parent =>
            have hrest := ih parent p (by simpa [hparent] using hp)
            exact ⟨hrest.1, fun hmem => hrest.2 (List.mem_cons_of_mem _ hmem)⟩

/-- **Each name is met once.** -/
theorem nodup_lineageFrom {c : Catalog} {met : List String} {name : String} :
    ((c.lineageFrom met name).map Prod.fst).Nodup := by
  fun_induction lineageFrom c met name with
  | case1 => simp
  | case2 => simp
  | case3 met name hmet e hfound ih =>
      cases hparent : e.parent? with
      | none => simp
      | some parent =>
          refine List.nodup_cons.mpr ⟨?_, ih parent⟩
          intro hmem
          obtain ⟨p, hp, hname⟩ := List.mem_map.mp hmem
          exact (lineageFrom_find? p hp).2 (by simp [hname])

/-- No name comes twice in a lineage. -/
theorem nodup_lineage (c : Catalog) (name : String) :
    ((c.lineage name).map Prod.fst).Nodup :=
  nodup_lineageFrom

end QueryFilter.Catalog
