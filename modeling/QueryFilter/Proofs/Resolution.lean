import QueryFilter.Proofs.Modes

/-!
# What a token stands for

A token is looked up by its quoted form, and the columns of a mapping stand under the quoted
forms of the declared names.  So it does not matter how a token or a name was spelled: a token
stands for the first stored field on the lineage whose name has the same quoted form, and for
the same field in a predicate and in the list of columns.  Fields that are not stored have no
part in this; a token that only they answer to is as unknown as any other, and it is there that
the two modes go apart.

* `Field.lookup_entries` — the look-up by keys is a search among the stored fields;
* `Mapping.mapped?_eq` — so a token is mapped to the column of the first that answers to it;
* `Mapping.projectsOnce_of_mapped` — and one item of the projection has that column;
* `Mapping.resolves_to_first` — what a token stands for, in both modes and in every rule.
-/

namespace QueryFilter

/-- The first stored field on the lineage of `name` whose name has the same quoted form as the
token. -/
def Catalog.firstStored? (c : Catalog) (name : String) (token : List Char) : Option Field :=
  (c.declared name).find? fun f =>
    f.persisted && Sql.Name.wrap f.name.toList == Sql.Name.wrap token

/-- What is found under a key is the expression of the first stored field with that key. -/
theorem Field.lookup_entries (fs : List Field) (key : String) :
    (entries fs).lookup key = (fs.find? fun f => f.persisted && f.key == key).map expression := by
  rw [entries, Table.lookup_map, List.find?_filter]
  simp only [Bool.decide_and, Bool.decide_eq_true]

namespace Mapping

variable {c : Catalog} {name : String} {m : Mapping} {token : List Char}

/-- What a mapping of some declared fields has under a key. -/
theorem find?_of_columns {fs : List Field} (h : m.columns = Table.firsts (Field.entries fs))
    (key : String) :
    m.columns.find? key = (fs.find? fun f => f.persisted && f.key == key).map Field.expression := by
  rw [h, Table.find?_firsts, Field.lookup_entries]

/-- **A token is mapped to the column of the first stored field that answers to it.** -/
theorem mapped?_eq (hm : ofCatalog? c name = some m) (token : List Char) :
    m.mapped? token =
      (c.firstStored? name token).map fun f => Field.expressionOf f.storage.toList := by
  have hsame : (fun f : Field => f.persisted && f.key == String.ofList (Sql.Name.wrap token)) =
      fun f => f.persisted && Sql.Name.wrap f.name.toList == Sql.Name.wrap token := by
    funext f
    congr 1
    rw [Bool.eq_iff_iff, beq_iff_eq, beq_iff_eq, ← String.toList_inj, f.toList_key,
      String.toList_ofList]
  rw [mapped?, find?_of_columns (columns_ofCatalog? hm), hsame, Catalog.firstStored?,
    Option.map_map]
  congr 1
  funext f
  exact f.toList_expression

/-- Whether the projection lists `column` under `key`, and lists nothing else under it. -/
def ProjectsOnce (m : Mapping) (key column : List Char) : Prop :=
  ∃ before after,
    m.columns.entries = before ++ (String.ofList key, String.ofList column) :: after ∧
    m.projection = [','].intercalate
      (before.map projectionItem ++ (column ++ " AS ".toList ++ key) ::
        after.map projectionItem) ∧
    ∀ entry ∈ before ++ after, entry.1.toList ≠ key

/-- What has a column is listed with it, once. -/
theorem projectsOnce_of_find? {key column : String} (h : m.columns.find? key = some column) :
    m.ProjectsOnce key.toList column.toList := by
  obtain ⟨before, after, hentries, -⟩ := List.lookup_eq_some_iff.mp h
  refine ⟨before, after, by rw [hentries, String.ofList_toList, String.ofList_toList], ?_, ?_⟩
  · rw [projection, hentries, List.map_append, List.map_cons]
    rfl
  · -- no other entry stands under the key, since the keys of a table are distinct
    have hkeys := m.columns.nodup
    rw [hentries, (List.perm_middle.map Prod.fst).nodup_iff, List.map_cons,
      List.nodup_cons] at hkeys
    intro entry hentry hkey
    exact hkeys.1 (List.mem_map.mpr ⟨entry, hentry, String.toList_inj.mp hkey⟩)

/-- **The column that a token is mapped to is the one in the projection.** -/
theorem projectsOnce_of_mapped {column : List Char} (h : m.mapped? token = some column) :
    m.ProjectsOnce (Sql.Name.wrap token) column := by
  obtain ⟨text, hfound, rfl⟩ := Option.map_eq_some_iff.mp h
  have honce := projectsOnce_of_find? hfound
  rwa [String.toList_ofList] at honce

/-- A rule whose field is the token, with any blanks around it, is written with the column of
the token. -/
theorem atom_of_field (m : Mapping) (mode : Sql.Escaping) {r : Rule} {before after : List Char}
    (hbefore : ∀ c ∈ before, Text.isBlank c = true) (hafter : ∀ c ∈ after, Text.isBlank c = true)
    (htoken : Text.trim token = token) (hfield : r.field.toList = before ++ token ++ after) :
    Query.atom ⟨m, mode⟩ r.condition = r.effective.comparison (m.resolve mode token)
      (Sql.Literal.quote mode r.operand) := by
  have htrim : Text.trim r.field.toList = token := by
    rw [hfield, Text.trim_surround hbefore hafter, htoken]
  rw [Query.atom, Condition.sql, Rule.condition, htrim]

/-- **One column for a token, wherever it is used.**  If some stored field on the lineage has a
name with the same quoted form, the column of the first such field is what the token stands for
in both modes, and what the projection lists under that form, once.  Else the verbatim mode
takes the quoted form itself and the escaped mode quotes the token anew.  A rule whose field is
the token, with any blanks around it, is written with that column in every tree. -/
theorem resolves_to_first (hm : ofCatalog? c name = some m) (hblank : Text.trim token ≠ [])
    (hdot : Sql.Name.dot ∉ token) :
    (∀ f, c.firstStored? name token = some f →
      (∀ mode, m.resolve mode token = Field.expressionOf f.storage.toList) ∧
        m.ProjectsOnce (Sql.Name.wrap token) (Field.expressionOf f.storage.toList)) ∧
    (c.firstStored? name token = none →
      m.resolve .verbatim token = Sql.Name.wrap token ∧
        m.resolve .escaped token = Sql.Name.quote (Sql.Name.bare token)) ∧
    (Text.trim token = token → ∀ mode, ∃ atom : Rule → List Char,
      (∀ g, (Query.compile ⟨m, mode⟩ (some g)).1 =
        if g.survivors = [] then none else some (Row.text atom (g.row 0))) ∧
      ∀ r before after, (∀ c ∈ before, Text.isBlank c = true) →
        (∀ c ∈ after, Text.isBlank c = true) → r.field.toList = before ++ token ++ after →
        atom r = r.effective.comparison (m.resolve mode token)
          (Sql.Literal.quote mode r.operand)) := by
  have hmapped := mapped?_eq hm token
  refine ⟨?_, ?_, ?_⟩
  · intro f hf
    rw [hf, Option.map_some] at hmapped
    exact ⟨fun mode => resolve_mapped hblank hdot hmapped mode, projectsOnce_of_mapped hmapped⟩
  · intro hnone
    rw [hnone, Option.map_none] at hmapped
    exact resolve_unmapped hblank hdot hmapped
  · intro htoken mode
    refine ⟨fun r => Query.atom ⟨m, mode⟩ r.condition, Query.compile_eq_row ⟨m, mode⟩, ?_⟩
    intro r before after hbefore hafter hfield
    exact m.atom_of_field mode hbefore hafter htoken hfield

/-- A name in half its quotes with a blank column, declared again by the parent, and a field
that is not stored. -/
def respelled : Catalog :=
  .ofList
    [("User",
      { parent? := some "Base"
        fields := [{ name := "`id", column? := some " " },
          { name := "a`b", persisted := false }] }),
     ("Base", { fields := [{ name := "id", column? := some "base_id" }] })]

/-- Two names that are spelled with backticks are resolved, one to a field and one to itself. -/
theorem resolves_to_first_respelled :
    Text.trim "id`".toList = "id`".toList ∧ Sql.Name.dot ∉ "id`".toList ∧
    Text.trim "a`b".toList = "a`b".toList ∧ Sql.Name.dot ∉ "a`b".toList ∧
    ∃ m, ofCatalog? respelled "User" = some m ∧
      (∀ mode, m.resolve mode "id`".toList = "`id`".toList) ∧
      m.ProjectsOnce "`id`".toList "`id`".toList ∧
      m.resolve .verbatim "a`b".toList = "`a`b`".toList ∧
      m.resolve .escaped "a`b".toList = "`a``b`".toList ∧
      (Query.compile ⟨m, .escaped⟩ (some { rules := [⟨" a`b\n", "equal", "1"⟩] })).1 =
        some "(`a``b` = '1')".toList := by
  obtain ⟨m, hm⟩ : ∃ m, ofCatalog? respelled "User" = some m :=
    Option.isSome_iff_exists.mp (by decide +kernel)
  have hid : Text.trim "id`".toList = "id`".toList := by decide
  have hab : Text.trim "a`b".toList = "a`b".toList := by decide
  have hidDot : Sql.Name.dot ∉ "id`".toList := by decide
  have habDot : Sql.Name.dot ∉ "a`b".toList := by decide
  obtain ⟨hmapped, -, -⟩ := resolves_to_first hm (hid ▸ by decide) hidDot
  obtain ⟨-, hunmapped, hrules⟩ := resolves_to_first hm (hab ▸ by decide) habDot
  obtain ⟨hcolumn, honce⟩ := hmapped { name := "`id", column? := some " " } (by decide +kernel)
  obtain ⟨hverbatim, hescaped⟩ := hunmapped (by decide +kernel)
  obtain ⟨atom, hcompile, hatom⟩ := hrules hab .escaped
  refine ⟨hid, hidDot, hab, habDot, m, hm, hcolumn, honce, hverbatim, hescaped, ?_⟩
  have hspace : ∀ c ∈ [' '], Text.isBlank c = true := List.forall_mem_singleton.mpr (by decide)
  have hline : ∀ c ∈ ['\n'], Text.isBlank c = true := List.forall_mem_singleton.mpr (by decide)
  have hrule := hatom ⟨" a`b\n", "equal", "1"⟩ [' '] ['\n'] hspace hline (by decide)
  have hrow : Group.row 0 { rules := [⟨" a`b\n", "equal", "1"⟩] } =
      [.opening, .leaf (⟨" a`b\n", "equal", "1"⟩, 0), .closing] := by decide +kernel
  rw [hescaped] at hrule
  rw [hcompile, if_neg (by decide +kernel), hrow]
  simp only [Row.text, List.flatMap_cons, List.flatMap_nil, Row.spell, hrule]
  decide +kernel

end Mapping

end QueryFilter
