import QueryFilter.Proofs.Resolution

/-!
# Declarations that are not stored

A field may be declared again further down, and of several stored declarations under one key the
nearest counts.  A declaration that is not stored takes no part in this.  It is left out before
the keys are compared, so it neither has a column nor keeps another declaration from having one:
the mapping is what it would be if the declaration were not there.

Hence a field that is declared as not stored below is not hidden by that.  If it is stored further
up, it comes through with the column it has there, in the look-up and in the projection.

* `Field.entries_transient` — a declaration that is not stored may as well be left out;
* `Mapping.hides_iff` — a key is hidden if no declaration under it is stored;
* `Mapping.hides_iff_behind` — so the first declaration, if not stored, does not decide it.
-/

namespace QueryFilter

/-- **A declaration that is not stored may as well be left out.** -/
theorem Field.entries_transient {f : Field} (h : f.persisted = false) (fs gs : List Field) :
    entries (fs ++ f :: gs) = entries (fs ++ gs) := by
  have hskip : ¬f.persisted = true := by simp [h]
  rw [entries, entries, List.filter_append, List.filter_append, List.filter_cons_of_neg hskip]

namespace Mapping

/-- Whether a mapping has no column under `key`, and its projection lists all that it lists under
other names. -/
structure Hides (m : Mapping) (key : String) : Prop where
  unmapped : m.columns.find? key = none
  unlisted : ∃ items : List (List Char × List Char),
    m.projection = [','].intercalate (items.map fun i => i.1 ++ " AS ".toList ++ i.2) ∧
      ∀ i ∈ items, i.2 ≠ key.toList

variable {c : Catalog} {name : String} {m : Mapping}

/-- What has no column is not listed either. -/
theorem hides_iff_find? {key : String} : m.Hides key ↔ m.columns.find? key = none := by
  refine ⟨Hides.unmapped, fun h => ⟨h, ?_⟩⟩
  refine ⟨m.columns.entries.map fun e => (e.2.toList, e.1.toList), ?_, ?_⟩
  · rw [projection, List.map_map]
    rfl
  · intro item hitem hkey
    obtain ⟨entry, hentry, rfl⟩ := List.mem_map.mp hitem
    refine Table.find?_eq_none_iff.mp h (List.mem_map.mpr ⟨entry, hentry, ?_⟩)
    exact String.toList_inj.mp hkey

/-- **A key is hidden if no declaration under it is stored.** -/
theorem hides_iff {fs : List Field} (h : m.columns = Table.firsts (Field.entries fs))
    {key : String} : m.Hides key ↔ ∀ f ∈ fs, f.key = key → f.persisted = false := by
  rw [hides_iff_find?, find?_of_columns h, Option.map_eq_none_iff, List.find?_eq_none]
  refine forall₂_congr fun f _ => ?_
  cases hstored : f.persisted <;> simp

/-- **The first declaration of a field does not decide its fate if it is not stored.**  The field
is hidden exactly if no declaration behind it is stored either.  Else the first stored one comes
through: its column is found under the key of the field, and the projection lists it there, and
nothing else. -/
theorem hides_iff_behind (hm : ofCatalog? c name = some m) {before after : List Field} {f : Field}
    (hdeclared : c.declared name = before ++ f :: after)
    (hfirst : ∀ g ∈ before, g.key ≠ f.key) (htransient : f.persisted = false) :
    (m.Hides f.key ↔ ∀ g ∈ after, g.key = f.key → g.persisted = false) ∧
    ∀ g, (after.find? fun g => g.persisted && g.key == f.key) = some g →
      m.columns.find? f.key = some g.expression ∧
        m.ProjectsOnce f.key.toList g.expression.toList := by
  have hcolumns : m.columns = Table.firsts (Field.entries (before ++ after)) := by
    rw [columns_ofCatalog? hm, hdeclared, Field.entries_transient htransient]
  refine ⟨?_, fun g hg => ?_⟩
  · rw [hides_iff hcolumns]
    constructor
    · exact fun h g hg => h g (List.mem_append_right before hg)
    · rintro h g hg hkey
      rcases List.mem_append.mp hg with hbefore | hafter
      · exact absurd hkey (hfirst g hbefore)
      · exact h g hafter hkey
  · have hnone : (before.find? fun g => g.persisted && g.key == f.key) = none :=
      List.find?_eq_none.mpr fun g hg => by simp [hfirst g hg]
    have hfound : m.columns.find? f.key = some g.expression := by
      rw [find?_of_columns hcolumns, List.find?_append, hnone, Option.none_or, hg]
      rfl
    exact ⟨hfound, projectsOnce_of_find? hfound⟩

/-- An entity that declares two inherited fields again, as not stored.  One of them is stored
further up, in a column of another name. -/
def redeclaring : Catalog :=
  .ofList
    [("User",
      { parent? := some "Base"
        fields := [{ name := "id" }, { name := "password", persisted := false },
          { name := "draft", persisted := false }] }),
     ("Base",
      { fields := [{ name := "draft", persisted := false },
          { name := "`password", column? := some "pw" }, { name := "password" }] })]

/-- A field is hidden where nothing is stored under its key behind it, and else what is stored
there comes through. -/
theorem hides_iff_behind_redeclaring :
    ∃ m, ofCatalog? redeclaring "User" = some m ∧
      m.Hides "`draft`" ∧ ¬m.Hides "`password`" ∧
      m.columns.find? "`password`" = some "`pw`" ∧
      m.ProjectsOnce "`password`".toList "`pw`".toList := by
  obtain ⟨m, hm⟩ : ∃ m, ofCatalog? redeclaring "User" = some m :=
    Option.isSome_iff_exists.mp (by decide +kernel)
  have hdraft : redeclaring.declared "User" =
      [{ name := "id" }, { name := "password", persisted := false }] ++
        { name := "draft", persisted := false } ::
          [{ name := "draft", persisted := false },
            { name := "`password", column? := some "pw" }, { name := "password" }] := by
    decide +kernel
  have hpassword : redeclaring.declared "User" =
      [{ name := "id" }] ++ { name := "password", persisted := false } ::
        [{ name := "draft", persisted := false }, { name := "draft", persisted := false },
          { name := "`password", column? := some "pw" }, { name := "password" }] := by
    decide +kernel
  obtain ⟨hhidden, -⟩ := hides_iff_behind hm hdraft (by decide +kernel) rfl
  obtain ⟨hshown, hfirst⟩ := hides_iff_behind hm hpassword (by decide +kernel) rfl
  refine ⟨m, hm, hhidden.mpr (by decide +kernel), fun h => ?_,
    hfirst { name := "`password", column? := some "pw" } (by decide +kernel)⟩
  exact absurd (hshown.mp h) (by decide +kernel)

/-- A field that is declared as not stored is not always hidden. -/
theorem redeclared_not_hidden :
    ¬∀ (c : Catalog) (name : String) (m : Mapping) (f : Field), ofCatalog? c name = some m →
      ((c.declared name).find? fun g => g.key == f.key) = some f → f.persisted = false →
        m.Hides f.key := by
  intro hclaim
  obtain ⟨m, hm⟩ : ∃ m, ofCatalog? redeclaring "User" = some m :=
    Option.isSome_iff_exists.mp (by decide +kernel)
  have hhides := hclaim redeclaring "User" m { name := "password", persisted := false } hm
    (by decide +kernel) rfl
  have hstored := (hides_iff (columns_ofCatalog? hm)).mp hhides
    { name := "`password", column? := some "pw" } (by decide +kernel) (by decide +kernel)
  cases hstored

end Mapping

end QueryFilter
