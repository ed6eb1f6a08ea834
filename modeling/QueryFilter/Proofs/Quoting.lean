import QueryFilter.Proofs.Concatenation
import QueryFilter.Sql.Literal
import QueryFilter.Sql.Name

/-!
# Open and closed quoting

A text is quoted in one of two ways.  The open way adds a quote on each side
that lacks one, and trusts what stands inside.  The closed way doubles what
could end the quotes and always adds both.  The open form is contained in the
closed one, and the two agree on exactly those texts that hold nothing to
double.

* `Text.wrap_eq_quote_iff` — when the two forms of a text agree;
* `Sql.Name.wrap_eq_quote_bare_iff` — when they agree for a name, from which the
  closed way first takes off a pair of backticks;
* `Sql.Name.eq_quotePath_iff` — when quoting a dotted name anew changes nothing.
-/

namespace QueryFilter

open scoped List

namespace Text

variable {q : Char} {p : Char → Bool} {s : List Char}

/-- The open form is contained in the closed one. -/
theorem wrap_sublist_quote (q : Char) (p : Char → Bool) (s : List Char) :
    wrap q s <+ q :: double p s ++ [q] := by
  unfold wrap
  split
  · exact List.nil_sublist _
  · apply List.Sublist.append
    · split
      · exact (sublist_double p s).cons q
      · exact (sublist_double p s).cons_cons q
    · split
      · exact List.nil_sublist _
      · exact List.Sublist.refl _

/-- Wrapping adds two characters at most. -/
theorem length_wrap_le (q : Char) (s : List Char) : (wrap q s).length ≤ s.length + 2 := by
  have h := (wrap_sublist_quote q (fun _ => false) s).length_le
  rw [double_of_none fun _ _ => rfl] at h
  simpa using h

/-- **The two forms of a text agree** exactly when there is nothing to double
in it. -/
theorem wrap_eq_quote_iff (hq : p q = true) (hs : s ≠ []) :
    wrap q s = q :: double p s ++ [q] ↔ ∀ c ∈ s, p c = false := by
  constructor
  · intro h
    have hlength : (wrap q s).length = s.length + s.countP p + 2 := by
      rw [h]
      simp [length_double]
    have hle := length_wrap_le q s
    have hcount : s.countP p = 0 := by omega
    simpa using List.countP_eq_zero.mp hcount
  · intro h
    have hmem : q ∉ s := by
      intro hmem
      simp [h q hmem] at hq
    have hhead : s.head? ≠ some q := fun hh => hmem (List.mem_of_mem_head? hh)
    have hlast : s.getLast? ≠ some q := fun hl => hmem (List.mem_of_mem_getLast? hl)
    rw [wrap_bare hs hhead hlast, double_of_none h]

end Text

namespace Sql.Name

/-- Whether a name is one pair of backticks around a text without backticks. -/
def IsQuoted (s : List Char) : Prop := ∃ t, mark ∉ t ∧ s = mark :: t ++ [mark]

/-- A quoted name is not bare. -/
theorem IsQuoted.bare_ne {s : List Char} (h : IsQuoted s) : bare s ≠ s := by
  obtain ⟨t, -, rfl⟩ := h
  have hbare : bare (mark :: t ++ [mark]) = t := bare_surrounded t
  intro h
  have hlength := congrArg List.length (hbare.symm.trans h)
  simp only [List.length_append, List.length_cons, List.length_nil] at hlength
  omega

/-- A name with a pair of backticks around it is wrapped already. -/
theorem wrap_pair (t : List Char) : wrap (mark :: t ++ [mark]) = mark :: t ++ [mark] :=
  Text.wrap_quoted (by simp) (List.getLast?_concat ..)

/-- A name is bare, or it is its bare form between backticks. -/
theorem bare_eq_or (s : List Char) : bare s = s ∨ s = mark :: bare s ++ [mark] := by
  cases s with
  | nil => exact .inl rfl
  | cons c r =>
      by_cases h : c = mark ∧ r.getLast? = some mark
      · have hbare : bare (c :: r) = r.dropLast := by rw [bare, if_pos h]
        obtain ⟨hc, hlast⟩ := h
        have hne : r ≠ [] := by
          rintro rfl
          cases hlast
        have hget : r.getLast hne = mark := by
          rw [List.getLast?_eq_some_getLast hne] at hlast
          exact Option.some.inj hlast
        right
        rw [hbare, hc, List.cons_append]
        exact congrArg (mark :: ·) (hget ▸ (List.dropLast_concat_getLast hne).symm)
      · exact .inl (by rw [bare, if_neg h])

/-- Quoting a part anew takes nothing away. -/
theorem sublist_quote_bare (s : List Char) : s <+ quote (bare s) := by
  rcases bare_eq_or s with h | h
  · rw [h, quote]
    exact ((Text.sublist_double _ s).cons mark).trans (List.sublist_append_left _ _)
  · conv => lhs; rw [h]
    exact ((Text.sublist_double _ (bare s)).cons_cons mark).append_right [mark]

/-- Backticks around a name quote it exactly if it has none inside. -/
theorem quote_eq_self_iff {s : List Char} :
    mark :: s ++ [mark] = quote s ↔ mark ∉ s := by
  have hdouble : mark :: s ++ [mark] = quote s ↔ Text.double (· == mark) s = s := by
    rw [quote]
    constructor
    · intro h
      simpa using h.symm
    · intro h
      rw [h]
  rw [hdouble, Text.double_eq_self_iff]
  constructor
  · intro h hmem
    simpa using h mark hmem
  · intro h c hc
    have hne : c ≠ mark := by
      rintro rfl
      exact h hc
    simpa using hne

/-- Quoting a name anew changes nothing exactly when it is quoted already. -/
theorem eq_quote_bare_iff {s : List Char} : s = quote (bare s) ↔ IsQuoted s := by
  rcases bare_eq_or s with h | h
  · constructor
    · intro hs
      have hlength := congrArg List.length hs
      rw [h, quote] at hlength
      simp [Text.length_double] at hlength
      omega
    · exact fun hs => absurd h hs.bare_ne
  · rw [show s = quote (bare s) ↔ mark :: bare s ++ [mark] = quote (bare s) by rw [← h],
      quote_eq_self_iff]
    constructor
    · exact fun hmem => ⟨bare s, hmem, h⟩
    · rintro ⟨t, ht, rfl⟩
      have hbare : bare (mark :: t ++ [mark]) = t := bare_surrounded t
      rwa [hbare]

/-- A wrapped part is what is left of the part quoted anew. -/
theorem wrap_sublist_quote_bare (s : List Char) : wrap s <+ quote (bare s) := by
  rcases bare_eq_or s with h | h
  · rw [h]
    exact Text.wrap_sublist_quote mark _ s
  · have hwrap : wrap s = s := by
      rw [h]
      exact wrap_pair (bare s)
    rw [hwrap]
    exact sublist_quote_bare s

/-- The two forms of a name agree exactly when no backtick is left in it, a pair
around it aside. -/
theorem wrap_eq_quote_bare_iff {s : List Char} (hs : s ≠ []) :
    wrap s = quote (bare s) ↔ mark ∉ s ∨ IsQuoted s := by
  rcases bare_eq_or s with h | h
  · have hopen : ¬IsQuoted s := fun hs => hs.bare_ne h
    have hforms : wrap s = quote s ↔ ∀ c ∈ s, (c == mark) = false :=
      Text.wrap_eq_quote_iff (beq_self_eq_true mark) hs
    have hmem : (∀ c ∈ s, (c == mark) = false) ↔ mark ∉ s := by
      rw [← Text.double_eq_self_iff, ← quote_eq_self_iff, quote]
      simp [eq_comm]
    rw [h, hforms, hmem, or_iff_left hopen]
  · have hwrap : wrap s = s := by
      rw [h]
      exact wrap_pair (bare s)
    have hmem : mark ∈ s := by
      rw [h]
      simp
    rw [hwrap, eq_quote_bare_iff, or_iff_right (not_not_intro hmem)]

/-- A name without backticks comes out quoted from either way of quoting it. -/
theorem wrap_eq_quote {s : List Char} (hne : s ≠ []) (hmark : mark ∉ s) : wrap s = quote s := by
  have hforms : wrap s = quote s ↔ ∀ c ∈ s, (c == mark) = false :=
    Text.wrap_eq_quote_iff (beq_self_eq_true mark) hne
  apply hforms.mpr
  intro c hc
  exact beq_eq_false_iff_ne.mpr fun heq => hmark (heq ▸ hc)

/-- Quoting a dotted name anew takes nothing away. -/
theorem sublist_quotePath (s : List Char) : s <+ quotePath s := by
  have hparts : [dot].intercalate ((s.splitOn dot).map fun part => part) <+ quotePath s :=
    Text.intercalate_map_sublist [dot] fun part _ => sublist_quote_bare part
  rwa [List.map_id', List.intercalate_splitOn] at hparts

/-- **Quoting a dotted name anew changes nothing** exactly when each of its
parts is quoted already. -/
theorem eq_quotePath_iff {s : List Char} :
    s = quotePath s ↔ ∀ part ∈ s.splitOn dot, IsQuoted part := by
  have hparts : [dot].intercalate ((s.splitOn dot).map fun part => part) = quotePath s ↔
      ∀ part ∈ s.splitOn dot, part = quote (bare part) :=
    Text.intercalate_map_eq_iff [dot] fun part _ => sublist_quote_bare part
  rw [List.map_id', List.intercalate_splitOn] at hparts
  simpa only [eq_quote_bare_iff] using hparts

/-- A name without a dot is quoted as one part. -/
theorem quotePath_of_notMem {s : List Char} (h : dot ∉ s) : quotePath s = quote (bare s) := by
  rw [quotePath, List.splitOn_eq_singleton h]
  simp

end Sql.Name

end QueryFilter
