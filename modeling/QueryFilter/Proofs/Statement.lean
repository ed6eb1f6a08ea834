import QueryFilter.Query
import QueryFilter.Proofs.Lexemes

/-!
# What a statement is made of

A statement has a head that the mapping alone decides, and behind it the predicate, if
there is one.  The head takes its list of columns from the mapping as it is.  The source
is not taken as it is: blanks and backticks are stripped from its ends, it is parted at
its first dot, and what is left of each part is quoted anew.  So whatever the source, its
part of the head is one name, or two with a dot between them, and nothing else.

A plain name comes out of this as it went in, whether or not it stood in backticks.

* `Sql.Source.lex_table` — the table of a source is read as the names of its path;
* `Sql.Source.path_dressed`, `Sql.Source.path_dressed_pair` — plain names are kept;
* `Mapping.projection_eq_nil_iff` — the list of columns is empty only if there are none;
* `Query.select_reads_as_head` — the text of every statement.
-/

namespace QueryFilter

open Sql

namespace Sql.Source

/-- **The table of a source is one name or two,** whatever the source holds. -/
theorem lex_table (source : List Char) : lex (table source) = some (dotted (path source)) :=
  (spells_dotted (path source)).lex

/-- A backtick inside is kept, and only the first dot parts. -/
example : lex (table " `a`b``.`c.d` ".toList) =
    some [.name "a`b".toList, .dot, .name "c.d".toList] := by
  decide +kernel

/-! ## Plain names -/

/-- A name that can stand in a source: it is not empty, has no dot and no backtick, and no
blank at either end. -/
structure IsPlain (s : List Char) : Prop where
  ne_nil : s ≠ []
  no_dot : Name.dot ∉ s
  no_mark : Name.mark ∉ s
  solid_head : ∀ c, s.head? = some c → Text.isBlank c = false
  solid_last : ∀ c, s.getLast? = some c → Text.isBlank c = false

/-- Whether `w` is the name `s`, bare or in backticks. -/
def Dressed (s w : List Char) : Prop := w = s ∨ w = Name.mark :: (s ++ [Name.mark])

namespace Dressed

variable {s w : List Char}

/-- A plain name is not empty in any dress. -/
theorem ne_nil (h : Dressed s w) (hs : IsPlain s) : w ≠ [] := by
  rcases h with rfl | rfl
  · exact hs.ne_nil
  · simp

/-- A plain name has no dot in any dress. -/
theorem no_dot (h : Dressed s w) (hs : IsPlain s) : Name.dot ∉ w := by
  rcases h with rfl | rfl
  · exact hs.no_dot
  · simpa [Name.dot, Name.mark] using hs.no_dot

/-- A plain name begins with no blank in any dress. -/
theorem solid_head (h : Dressed s w) (hs : IsPlain s) :
    ∀ c, w.head? = some c → Text.isBlank c = false := by
  rcases h with rfl | rfl
  · exact hs.solid_head
  · rintro c hc
    cases hc
    decide

/-- A plain name ends with no blank in any dress. -/
theorem solid_last (h : Dressed s w) (hs : IsPlain s) :
    ∀ c, w.getLast? = some c → Text.isBlank c = false := by
  rcases h with rfl | rfl
  · exact hs.solid_last
  · intro c hc
    rw [← List.cons_append, List.getLast?_append] at hc
    cases hc
    decide

/-- Without the backticks the name is as it was. -/
theorem unmarked_eq (h : Dressed s w) (hs : IsPlain s) : unmarked w = s := by
  have hends : ∀ c ∈ s, (c == Name.mark) = false := fun c hc => by
    simpa using fun e : c = Name.mark => hs.no_mark (e ▸ hc)
  have hbare : unmarked s = s :=
    Text.strip_of_ends (fun c hc => hends c (List.mem_of_mem_head? hc))
      fun c hc => hends c (List.mem_of_mem_getLast? hc)
  have hmark : ∀ c ∈ [Name.mark], (c == Name.mark) = true := by simp
  rcases h with rfl | rfl
  · exact hbare
  · exact (Text.strip_append_of_all hmark hmark s).trans hbare

end Dressed

section Plain

variable {a b s t w v : List Char}

/-- **A plain name is read as it is,** whatever blanks are around it. -/
theorem path_dressed (ha : ∀ c ∈ a, Text.isBlank c = true) (hb : ∀ c ∈ b, Text.isBlank c = true)
    (hs : IsPlain s) (hw : Dressed s w) : path (a ++ w ++ b) = [s] := by
  have htrim : Text.trim (a ++ w ++ b) = w := by
    rw [Text.trim_surround ha hb]
    exact Text.strip_of_ends (hw.solid_head hs) (hw.solid_last hs)
  have hdot : Name.dot ∉ Text.trim (a ++ w ++ b) := by
    rw [htrim]
    exact hw.no_dot hs
  have hname : unmarked (Text.trim (a ++ w ++ b)) = s := by
    rw [htrim]
    exact hw.unmarked_eq hs
  rw [path_of_notMem_dot hdot (hname ▸ hs.ne_nil), hname]

/-- **So are two of them with a dot between them.** -/
theorem path_dressed_pair (ha : ∀ c ∈ a, Text.isBlank c = true)
    (hb : ∀ c ∈ b, Text.isBlank c = true) (hs : IsPlain s) (hw : Dressed s w)
    (ht : IsPlain t) (hv : Dressed t v) :
    path (a ++ (w ++ Name.dot :: v) ++ b) = [s, t] := by
  have htrim : Text.trim (a ++ (w ++ Name.dot :: v) ++ b) = w ++ Name.dot :: v := by
    rw [Text.trim_surround ha hb]
    refine Text.strip_of_ends (fun c hc => hw.solid_head hs c ?_) fun c hc => hv.solid_last ht c ?_
    · rwa [List.head?_append, List.head?_eq_some_head (hw.ne_nil hs), Option.some_or,
        ← List.head?_eq_some_head (hw.ne_nil hs)] at hc
    · rwa [List.getLast?_append, List.getLast?_cons_of_ne_nil (hv.ne_nil ht),
        List.getLast?_eq_some_getLast (hv.ne_nil ht), Option.some_or,
        ← List.getLast?_eq_some_getLast (hv.ne_nil ht)] at hc
  -- the two ends are stripped apart, since the dot between them is no backtick
  have hends : unmarked (w ++ Name.dot :: v) =
      w.dropWhile (· == Name.mark) ++ Name.dot :: Text.stripEnd (· == Name.mark) v :=
    Text.strip_append_cons (by decide) w v
  have hfront : Name.dot ∉ w.dropWhile (· == Name.mark) := fun h =>
    hw.no_dot hs ((List.dropWhile_sublist _).subset h)
  have hschema : unmarked (w.dropWhile (· == Name.mark)) = s :=
    (Text.strip_dropWhile _ w).trans (hw.unmarked_eq hs)
  have htable : unmarked (Text.stripEnd (· == Name.mark) v) = t :=
    (Text.strip_stripEnd _ v).trans (hv.unmarked_eq ht)
  rw [path, htrim, hends, if_neg (by simp), takeWhile_dot hfront, dropWhile_dot hfront]
  simp only [hschema, htable]

end Plain

/-- What the part of a statement behind its columns says of the source. -/
structure IsPart (source part : List Char) : Prop where
  /-- It is absent exactly if the source holds nothing but backticks, blanks around it
  aside. -/
  absent_iff : part = [] ↔ ∀ c ∈ Text.trim source, c = Name.mark
  /-- Without a dot it names a table alone. -/
  single : part ≠ [] → Name.dot ∉ Text.trim source →
    ∃ table name, part = " FROM ".toList ++ table ∧ lex table = some [.name name]
  /-- With a dot it names a schema and a table. -/
  pair : part ≠ [] → Name.dot ∈ Text.trim source →
    ∃ table schema name, part = " FROM ".toList ++ table ∧
      lex table = some [.name schema, .dot, .name name]
  /-- A plain name is kept. -/
  plain : ∀ a b s w, (∀ c ∈ a, Text.isBlank c = true) → (∀ c ∈ b, Text.isBlank c = true) →
    IsPlain s → Dressed s w → source = a ++ w ++ b →
    ∃ table, part = " FROM ".toList ++ table ∧ lex table = some [.name s]
  /-- Two plain names are kept. -/
  plain_pair : ∀ a b s w t v, (∀ c ∈ a, Text.isBlank c = true) →
    (∀ c ∈ b, Text.isBlank c = true) → IsPlain s → Dressed s w → IsPlain t → Dressed t v →
    source = a ++ (w ++ Name.dot :: v) ++ b →
    ∃ table, part = " FROM ".toList ++ table ∧ lex table = some [.name s, .dot, .name t]

/-- A source that names something is read behind `FROM` as the names in it. -/
theorem part_of_path {source : List Char} {n : List Char} {ns : List (List Char)}
    (h : path source = n :: ns) :
    ∃ table, part source = " FROM ".toList ++ table ∧ lex table = some (dotted (n :: ns)) :=
  ⟨table source, by rw [part, h], by rw [lex_table, h]⟩

/-- A statement says nothing of a source only if the source names nothing. -/
theorem part_eq_nil_iff {source : List Char} : part source = [] ↔ path source = [] := by
  cases h : path source with
  | nil => simp [part, h]
  | cons n ns => simp [part, h]

/-- What a statement says of a source is what can be read back from it. -/
theorem isPart_part (source : List Char) : IsPart source (part source) where
  absent_iff := part_eq_nil_iff.trans path_eq_nil_iff
  single hne hdot := by
    have hname : unmarked (Text.trim source) ≠ [] := fun e =>
      hne (part_eq_nil_iff.mpr (path_eq_nil_iff.mpr (unmarked_trim_eq_nil_iff.mp e)))
    obtain ⟨table, htable, hlex⟩ := part_of_path (path_of_notMem_dot hdot hname)
    exact ⟨table, _, htable, hlex⟩
  pair _ hdot := by
    obtain ⟨schema, name, hpath⟩ := path_of_mem_dot hdot
    obtain ⟨table, htable, hlex⟩ := part_of_path hpath
    exact ⟨table, schema, name, htable, hlex⟩
  plain a b s w ha hb hs hw hsource := by
    subst hsource
    exact part_of_path (path_dressed ha hb hs hw)
  plain_pair a b s w t v ha hb hs hw ht hv hsource := by
    subst hsource
    exact part_of_path (path_dressed_pair ha hb hs hw ht hv)

end Sql.Source

namespace Mapping

/-- No item of a projection is empty. -/
theorem projectionItem_ne_nil (entry : String × String) : projectionItem entry ≠ [] := by
  simp [projectionItem]

/-- An item has more than one character, its ` AS ` alone being longer. -/
theorem projectionItem_ne_singleton (entry : String × String) (c : Char) :
    projectionItem entry ≠ [c] := by
  intro h
  have hlength := congrArg List.length h
  have hword : " AS ".toList.length = 4 := rfl
  simp only [projectionItem, List.length_append, List.length_singleton] at hlength
  omega

/-- **The list of columns is empty only if there are none,** -/
theorem projection_eq_nil_iff {m : Mapping} : m.projection = [] ↔ m.columns.entries = [] := by
  cases h : m.columns.entries with
  | nil => simp [projection, h]
  | cons e es =>
      simp [projection, h, Text.intercalate_cons, projectionItem_ne_nil]

/-- and it is never the star that stands for all columns. -/
theorem projection_ne_star (m : Mapping) : m.projection ≠ "*".toList := by
  cases h : m.columns.entries with
  | nil => simp [projection, h]
  | cons e es =>
      intro hstar
      rw [projection, h, List.map_cons, Text.intercalate_cons] at hstar
      cases hitem : projectionItem e with
      | nil => exact projectionItem_ne_nil e hitem
      | cons c r =>
          rw [hitem, List.cons_append] at hstar
          have hrest : r ++ _ = [] := (List.cons.inj hstar).2
          rw [(List.append_eq_nil_iff.mp hrest).1] at hitem
          exact projectionItem_ne_singleton e c hitem

end Mapping

namespace Query

/-- The star is selected exactly if there are no columns. -/
theorem selection_eq_star_iff {q : Query} :
    q.selection = "*".toList ↔ q.mapping.columns.entries = [] := by
  rw [← Mapping.projection_eq_nil_iff, selection]
  by_cases h : q.mapping.projection = []
  · simp [h]
  · simp only [h, if_false, iff_false]
    exact q.mapping.projection_ne_star

/-- The columns are selected if there are any. -/
theorem selection_of_ne_nil {q : Query} (h : q.mapping.columns.entries ≠ []) :
    q.selection = q.mapping.projection :=
  if_neg (mt Mapping.projection_eq_nil_iff.mp h)

/-- **A statement is its head and its predicate.**  The head depends on the mapping alone:
it is `SELECT`, the list of columns as the mapping has it, and what the source says.  The
predicate is exactly the one that is compiled, behind `WHERE`. -/
theorem select_reads_as_head :
    ∃ head : Mapping → List Char,
      (∀ (q : Query) (g? : Option Group),
        (q.select g?).1 = head q.mapping ++
          match (q.compile g?).1 with
          | none => []
          | some predicate => " WHERE ".toList ++ predicate) ∧
      ∀ m : Mapping, ∃ selection part,
        head m = "SELECT ".toList ++ selection ++ part ∧
        (selection = "*".toList ↔ m.columns.entries = []) ∧
        (m.columns.entries ≠ [] → selection = m.projection) ∧
        Source.IsPart m.source.toList part := by
  refine ⟨fun m => head ⟨m, .verbatim⟩, fun q g? => ?_, fun m => ?_⟩
  · show q.statement (q.compile g?).1 = q.head ++ _
    cases (q.compile g?).1 with
    | none => exact (List.append_nil _).symm
    | some predicate => exact List.append_assoc ..
  · exact ⟨_, _, rfl, selection_eq_star_iff, fun h => selection_of_ne_nil h,
      Source.isPart_part _⟩

end Query

end QueryFilter
