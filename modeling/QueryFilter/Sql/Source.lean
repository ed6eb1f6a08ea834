import QueryFilter.Sql.Name
import QueryFilter.Text.Blank

/-!
# Sources

A source is the text by which an entity names the table of its rows.  It may
be blank, bare or in backticks, and may name a schema before its first dot.
`path` reads the names out of it, `table` writes them as quoted names, and
`part` is what a statement says of it.

* `path_eq_nil_iff` — there is no table exactly when, blanks around it aside,
  the source is made of backticks alone;
* `path_of_notMem_dot`, `path_of_mem_dot` — otherwise there is one name if the source
  has no dot, and there are two if it has.
-/

namespace QueryFilter.Sql.Source

/-- A text without the backticks at its two ends. -/
def unmarked (s : List Char) : List Char := Text.strip (· == Name.mark) s

/-- The names in a source: none, a table, or a schema and a table. -/
def path (source : List Char) : List (List Char) :=
  let s := unmarked (Text.trim source)
  if s = [] then []
  else match s.dropWhile (· != Name.dot) with
    | [] => [s]
    | _ :: table => [unmarked (s.takeWhile (· != Name.dot)), unmarked table]

/-- The table expression of a source, empty if it names no table. -/
def table (source : List Char) : List Char :=
  [Name.dot].intercalate ((path source).map Name.quote)

/-- The part of a statement that names its rows, empty if the source names no table. -/
def part (source : List Char) : List Char :=
  match path source with
  | [] => []
  | _ => " FROM ".toList ++ table source

/-- Nothing but backticks is left of a source that has no names in it. -/
theorem unmarked_trim_eq_nil_iff {source : List Char} :
    unmarked (Text.trim source) = [] ↔ ∀ c ∈ Text.trim source, c = Name.mark := by
  simp [unmarked, Text.strip_eq_nil_iff]

/-- A source names nothing exactly if it is made of backticks, blanks around them aside. -/
theorem path_eq_nil_iff {source : List Char} :
    path source = [] ↔ ∀ c ∈ Text.trim source, c = Name.mark := by
  rw [← unmarked_trim_eq_nil_iff]
  unfold path
  by_cases h : unmarked (Text.trim source) = []
  · simp [h]
  · simp only [h, if_false, iff_false]
    split <;> simp

/-- Backticks and blanks at the ends of a source hide no dot. -/
theorem mem_dot_unmarked_trim_iff {source : List Char} :
    Name.dot ∈ unmarked (Text.trim source) ↔ Name.dot ∈ Text.trim source :=
  Text.mem_strip_iff (by decide)

/-- Before the first dot stands what has none. -/
theorem takeWhile_dot {s : List Char} (h : Name.dot ∉ s) (t : List Char) :
    (s ++ Name.dot :: t).takeWhile (· != Name.dot) = s := by
  have hall : ∀ c ∈ s, (c != Name.dot) = true := fun c hc => by
    simpa using fun e : c = Name.dot => h (e ▸ hc)
  rw [List.takeWhile_append_of_pos hall, List.takeWhile_cons_of_neg (by simp), List.append_nil]

/-- The first dot comes behind what has none. -/
theorem dropWhile_dot {s : List Char} (h : Name.dot ∉ s) (t : List Char) :
    (s ++ Name.dot :: t).dropWhile (· != Name.dot) = Name.dot :: t := by
  have hall : ∀ c ∈ s, (c != Name.dot) = true := fun c hc => by
    simpa using fun e : c = Name.dot => h (e ▸ hc)
  rw [List.dropWhile_append_of_pos hall, List.dropWhile_cons_of_neg (by simp)]

/-- A source without a dot names a table alone. -/
theorem path_of_notMem_dot {source : List Char} (hdot : Name.dot ∉ Text.trim source)
    (hne : unmarked (Text.trim source) ≠ []) :
    path source = [unmarked (Text.trim source)] := by
  have hnone : (unmarked (Text.trim source)).dropWhile (· != Name.dot) = [] := by
    rw [Text.dropWhile_eq_nil_iff]
    intro c hc
    simpa using fun e : c = Name.dot => hdot (mem_dot_unmarked_trim_iff.mp (e ▸ hc))
  rw [path, if_neg hne, hnone]

/-- A source with a dot names a schema and a table, parted at the first dot. -/
theorem path_of_mem_dot {source : List Char} (hdot : Name.dot ∈ Text.trim source) :
    ∃ schema table, path source = [schema, table] := by
  obtain ⟨s, t, hsplit, hs⟩ := List.eq_append_cons_of_mem (mem_dot_unmarked_trim_iff.mpr hdot)
  have hne : unmarked (Text.trim source) ≠ [] := by simp [hsplit]
  refine ⟨unmarked s, unmarked t, ?_⟩
  rw [path, if_neg hne, hsplit, takeWhile_dot hs, dropWhile_dot hs]

end QueryFilter.Sql.Source
