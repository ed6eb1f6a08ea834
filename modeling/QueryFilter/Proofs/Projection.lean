import QueryFilter.Proofs.Lexemes

/-!
# Reading a projection

A projection lists each column under the name of its field.  What parts the list, a comma,
a space and the word between the two names, may also stand inside of the names; but there it
stands between backticks.  So a projection is read back if every name in it is quoted, which it
is if no stored field has a backtick in its names, is without a name, or is computed by an
expression of its own.

Fields are told apart by their keys, the quoted forms of their names.  Among names without a
backtick those differ as the names do.  Hence each name is listed once, with the column of the
first field of that name on the lineage.

* `Sql.aliases?_eq_some_iff` — what the reader accepts: names under names with commas between;
* `Catalog.mem_stored_iff`, `Catalog.nodup_stored` — the first stored field of each name;
* `Mapping.entries_of_readable` — the columns are those of these fields;
* `Mapping.projection_reads_back` — so the projection is read back as their names.
-/

namespace QueryFilter

open Sql

namespace Sql

/-- The word between a column and the name it is listed under. -/
def aliasWord : List Char := "AS".toList

/-- The lexemes of a name that is listed under another. -/
def aliasLexemes (item : List Char × List Char) : List Lexeme :=
  [.name item.1, .word aliasWord, .name item.2]

/-- Reads names, each listed under another, with commas between them.  There must be some. -/
def someAliases? : List Lexeme → Option (List (List Char × List Char))
  | .name column :: .word w :: .name field :: rest =>
      if w = aliasWord then
        match rest with
        | [] => some [(column, field)]
        | .comma :: more => (someAliases? more).map ((column, field) :: ·)
        | _ => none
      else none
  | _ => none

/-- Reads a list of names, each listed under another, that may be empty. -/
def aliases? (ls : List Lexeme) : Option (List (List Char × List Char)) :=
  if ls = [] then some [] else someAliases? ls

/-- Aliases with commas between them are read one by one. -/
theorem someAliases?_intercalate (item : List Char × List Char)
    (items : List (List Char × List Char)) :
    someAliases? ([Lexeme.comma].intercalate ((item :: items).map aliasLexemes)) =
      some (item :: items) := by
  induction items generalizing item with
  | nil => rfl
  | cons next items ih =>
      have hread : someAliases? ([Lexeme.comma].intercalate ((item :: next :: items).map
          aliasLexemes)) = (someAliases? ([Lexeme.comma].intercalate ((next :: items).map
            aliasLexemes))).map (item :: ·) := rfl
      rw [hread, ih next]
      rfl

/-- Nothing is read as aliases but aliases with commas between them. -/
theorem eq_intercalate_of_someAliases? {ls : List Lexeme} {items : List (List Char × List Char)}
    (h : someAliases? ls = some items) :
    items ≠ [] ∧ ls = [Lexeme.comma].intercalate (items.map aliasLexemes) := by
  fun_induction someAliases? ls generalizing items with
  | case1 column field =>
      cases h
      exact ⟨List.cons_ne_nil _ _, rfl⟩
  | case2 column field more ih =>
      obtain ⟨rest, hrest, rfl⟩ := Option.map_eq_some_iff.mp h
      obtain ⟨hne, hmore⟩ := ih hrest
      obtain ⟨next, rest, rfl⟩ := List.exists_cons_of_ne_nil hne
      rw [List.map_cons, List.map_cons, List.intercalate_cons_cons, ← List.map_cons, ← hmore]
      exact ⟨List.cons_ne_nil _ _, rfl⟩
  | case3 => cases h
  | case4 => cases h
  | case5 => cases h

/-- **The reader accepts names under names with commas between them, and nothing else.** -/
theorem aliases?_eq_some_iff {ls : List Lexeme} {items : List (List Char × List Char)} :
    aliases? ls = some items ↔ ls = [Lexeme.comma].intercalate (items.map aliasLexemes) := by
  have hnil : someAliases? [] = none := rfl
  unfold aliases?
  constructor
  · intro h
    split at h
    · next hempty =>
        cases h
        exact hempty
    · exact (eq_intercalate_of_someAliases? h).2
  · intro h
    cases items with
    | nil => exact if_pos h
    | cons item items =>
        have hread := someAliases?_intercalate item items
        rw [← h] at hread
        rw [if_neg fun hempty => by simp [hempty, hnil] at hread, hread]

end Sql

namespace Field

/-- Whether a field can be read back from a projection: it has a name, neither this nor the name
it is stored under has a backtick, and the latter does not stand for an expression. -/
structure Readable (f : Field) : Prop where
  named : f.name.toList ≠ []
  name_unmarked : Name.mark ∉ f.name.toList
  storage_unmarked : Name.mark ∉ f.storage.toList
  storage_quoted : ¬(f.storage.toList.head? = some '\x7b' ∧ f.storage.toList.getLast? = some '\x7d')

instance (f : Field) : Decidable f.Readable :=
  decidable_of_iff
    (f.name.toList ≠ [] ∧ Name.mark ∉ f.name.toList ∧ Name.mark ∉ f.storage.toList ∧
      ¬(f.storage.toList.head? = some '\x7b' ∧ f.storage.toList.getLast? = some '\x7d'))
    ⟨fun h => ⟨h.1, h.2.1, h.2.2.1, h.2.2.2⟩,
      fun h => ⟨h.named, h.name_unmarked, h.storage_unmarked, h.storage_quoted⟩⟩

variable {f g : Field}

/-- The key of a readable field is its name, quoted. -/
theorem Readable.key_eq (h : f.Readable) : f.key = String.ofList (Name.quote f.name.toList) := by
  rw [key, Name.wrap_eq_quote h.named h.name_unmarked]

/-- The expression of a readable field is what it is stored under, quoted. -/
theorem Readable.expression_eq (h : f.Readable) :
    f.expression = String.ofList (Name.quote f.storage.toList) := by
  rw [expression, expressionOf, braced?_eq_none h.storage_quoted, Option.getD_none,
    Name.wrap_eq_quote (storage_ne_nil h.named) h.storage_unmarked]

/-- Such fields have one key only if they have one name. -/
theorem Readable.key_inj (hf : f.Readable) (hg : g.Readable) :
    f.key = g.key ↔ f.name = g.name := by
  constructor
  · intro h
    have hforms : Name.quote f.name.toList = Name.quote g.name.toList := by
      rw [← String.toList_ofList (l := Name.quote f.name.toList), ← hf.key_eq, h, hg.key_eq,
        String.toList_ofList]
    rw [Name.quote_of_notMem hf.name_unmarked, Name.quote_of_notMem hg.name_unmarked] at hforms
    have hnames : f.name.toList = g.name.toList := by simpa using hforms
    exact String.toList_inj.mp hnames
  · intro h
    rw [key, key, h]

/-- **The item of such a field is read as its two names.** -/
theorem Readable.spells_item (h : f.Readable) :
    Spells (Mapping.projectionItem (f.key, f.expression))
      (aliasLexemes (f.storage.toList, f.name.toList)) := by
  have hword : Spells aliasWord [.word aliasWord] := spells_word (by decide)
  have htext : Mapping.projectionItem (f.key, f.expression) =
      Name.quote f.storage.toList ++ ' ' :: (aliasWord ++ ' ' :: Name.quote f.name.toList) := by
    have hsep : " AS ".toList = ' ' :: (aliasWord ++ [' ']) := rfl
    simp only [Mapping.projectionItem, h.key_eq, h.expression_eq, String.toList_ofList, hsep,
      List.append_assoc, List.cons_append, List.nil_append]
  rw [htext]
  exact (spells_name f.storage.toList).spaced hword (spells_name f.name.toList)

end Field

namespace Catalog

variable {c : Catalog} {name : String}

/-- The stored fields on the lineage of `name`, the first of each name. -/
def stored (c : Catalog) (name : String) : List Field :=
  ((c.declared name).filter Field.persisted).eraseDupsBy fun later first =>
    later.name == first.name

/-- They make a table of fields by their names. -/
theorem entries_firsts_declared (c : Catalog) (name : String) :
    (Table.firsts (((c.declared name).filter Field.persisted).map fun f => (f.name, f))).entries =
      (c.stored name).map fun f => (f.name, f) := by
  rw [Table.entries_firsts, Table.eraseDupsBy_map]
  rfl

/-- No name is stored twice. -/
theorem nodup_stored (c : Catalog) (name : String) :
    ((c.stored name).map Field.name).Nodup := by
  have hnodup := (Table.firsts
    (((c.declared name).filter Field.persisted).map fun f => (f.name, f))).nodup
  rwa [entries_firsts_declared, List.map_map] at hnodup

/-- **A field is among them if it is the first stored one of its name.** -/
theorem mem_stored_iff {f : Field} :
    f ∈ c.stored name ↔
      (c.declared name).find? (fun g => g.persisted && g.name == f.name) = some f := by
  have hentry : f ∈ c.stored name ↔ (f.name, f) ∈ (Table.firsts
      (((c.declared name).filter Field.persisted).map fun g => (g.name, g))).entries := by
    rw [entries_firsts_declared]
    constructor
    · exact fun h => List.mem_map_of_mem h
    · intro h
      obtain ⟨g, hg, heq⟩ := List.mem_map.mp h
      obtain rfl : g = f := congrArg Prod.snd heq
      exact hg
  rw [hentry, ← Table.find?_eq_some_iff, Table.find?_firsts,
    Table.lookup_map Field.name fun g => g, Option.map_id', List.find?_filter]
  simp only [Bool.decide_and, Bool.decide_eq_true]

end Catalog

namespace Mapping

variable {c : Catalog} {name : String} {m : Mapping}

/-- **The columns are those of the first stored field of each name.** -/
theorem entries_of_readable (hm : ofCatalog? c name = some m)
    (hreadable : ∀ f ∈ c.declared name, f.persisted = true → f.Readable) :
    m.columns.entries = (c.stored name).map fun f => (f.key, f.expression) := by
  have hsame : ((c.declared name).filter Field.persisted).eraseDupsBy
      (fun later first => later.key == first.key) = c.stored name := by
    apply Table.eraseDupsBy_congr
    intro later hlater first hfirst
    obtain ⟨hlmem, hlstored⟩ := List.mem_filter.mp hlater
    obtain ⟨hfmem, hfstored⟩ := List.mem_filter.mp hfirst
    have hkeys := (hreadable later hlmem hlstored).key_inj (hreadable first hfmem hfstored)
    rw [Bool.eq_iff_iff, beq_iff_eq, beq_iff_eq, hkeys]
  rw [columns_ofCatalog? hm, Table.entries_firsts, Field.entries, Table.eraseDupsBy_map, hsame]

/-- **A projection is read back.**  If no stored field on the lineage has a backtick in its
names, is without a name, or is computed by an expression, then the whole text of the projection
is read as a list of names under names, whatever these hold.  The list has the first stored field
of each name, in the order of the lineage, and no name twice. -/
theorem projection_reads_back (hm : ofCatalog? c name = some m)
    (hreadable : ∀ f ∈ c.declared name, f.persisted = true → f.Readable) :
    (lex m.projection).bind aliases? =
      some ((c.stored name).map fun f => (f.storage.toList, f.name.toList)) ∧
    ((c.stored name).map Field.name).Nodup ∧
    (c.stored name).Sublist (c.declared name) ∧
    ∀ f, f ∈ c.stored name ↔
      (c.declared name).find? (fun g => g.persisted && g.name == f.name) = some f := by
  have hstored : ∀ f ∈ c.stored name, f.Readable := by
    intro f hf
    have hfound := Catalog.mem_stored_iff.mp hf
    obtain ⟨hpasses, -⟩ := List.find?_eq_some_iff_append.mp hfound
    exact hreadable f (List.mem_of_find?_eq_some hfound) (Bool.and_eq_true_iff.mp hpasses).1
  have hcomma : beginLexeme? ',' = some ([.comma], .between) := rfl
  have hspells := spells_intercalate hcomma rfl fun f hf => (hstored f hf).spells_item
  have hlex : lex m.projection = some ([Lexeme.comma].intercalate
      (((c.stored name).map fun f => (f.storage.toList, f.name.toList)).map aliasLexemes)) := by
    rw [projection, entries_of_readable hm hreadable, List.map_map, List.map_map]
    exact hspells.lex
  refine ⟨?_, c.nodup_stored name, ?_, fun f => Catalog.mem_stored_iff⟩
  · rw [hlex, Option.bind_some, aliases?_eq_some_iff]
  · exact (Table.eraseDupsBy_sublist _ _).trans List.filter_sublist

/-- Names with a comma, quotes, a dot, braces and the word between the names of an item. -/
def bordering : Catalog :=
  .ofList
    [("Order",
      { parent? := some "Base"
        fields := [{ name := "a,b", column? := some "c AS d" },
          { name := "it's \"so\"", column? := some " " }, { name := "\x7bx\x7d y" },
          { name := "`x`", persisted := false }] }),
     ("Base", { fields := [{ name := "a,b", column? := some "t.id" }, { name := " " }] })]

/-- Names with all that could be taken for a separator are read back. -/
theorem projection_reads_back_bordering :
    (∀ f ∈ bordering.declared "Order", f.persisted = true → f.Readable) ∧
    ∃ m, ofCatalog? bordering "Order" = some m ∧
      (lex m.projection).bind aliases? =
        some [("c AS d".toList, "a,b".toList), ("it's \"so\"".toList, "it's \"so\"".toList),
          ("\x7bx\x7d y".toList, "\x7bx\x7d y".toList), (" ".toList, " ".toList)] := by
  obtain ⟨m, hm⟩ : ∃ m, ofCatalog? bordering "Order" = some m :=
    Option.isSome_iff_exists.mp (by decide +kernel)
  have hreadable : ∀ f ∈ bordering.declared "Order", f.persisted = true → f.Readable := by
    decide +kernel
  have hstored : (bordering.stored "Order").map (fun f => (f.storage.toList, f.name.toList)) =
      [("c AS d".toList, "a,b".toList), ("it's \"so\"".toList, "it's \"so\"".toList),
        ("\x7bx\x7d y".toList, "\x7bx\x7d y".toList), (" ".toList, " ".toList)] := by
    decide +kernel
  exact ⟨hreadable, m, hm, hstored ▸ (projection_reads_back hm hreadable).1⟩

end Mapping

end QueryFilter
