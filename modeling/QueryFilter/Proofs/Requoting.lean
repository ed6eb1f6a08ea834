import QueryFilter.Proofs.Site

/-!
# Values that come in quotes

In the verbatim mode a quote is put on each side of a value that lacks one, so that a value may
come in quotes.  But the sides are looked at after the operator has had its way with the value.
Most operators compare with the value as it is, and membership strips commas that are not there;
the quotes are then seen.  A pattern operator sets its wildcards outside of them.  On that side no
quote is seen and one is added, so the literal has quotes in the middle.

This is told by lengths.  Around a bare value two quotes are added, with or without wildcards.
A value in quotes is two longer, and if it has a wildcard at an end, a quote is added there.

* `Sql.Literal.verbatim_decorate_iff` — the literals of a value with and without quotes;
* `Rule.operand_of_solid` — what a rule compares with if nothing is stripped from its value;
* `Query.compile_requoted_iff` — the rules whose value may come in quotes.
-/

namespace QueryFilter

namespace Sql.Literal

/-- A value between quotes. -/
def quoted (v : List Char) : List Char := mark :: (v ++ [mark])

/-- Whether a value has no quote in it and no blank or comma at its ends. -/
structure Bare (v : List Char) : Prop where
  ne_nil : v ≠ []
  unquoted : mark ∉ v
  solid : Text.trim v = v
  head_ne : v.head? ≠ some Condition.delimiter
  last_ne : v.getLast? ≠ some Condition.delimiter

instance (v : List Char) : Decidable (Bare v) :=
  decidable_of_iff
    (v ≠ [] ∧ mark ∉ v ∧ Text.trim v = v ∧ v.head? ≠ some Condition.delimiter ∧
      v.getLast? ≠ some Condition.delimiter)
    ⟨fun h => ⟨h.1, h.2.1, h.2.2.1, h.2.2.2.1, h.2.2.2.2⟩,
      fun h => ⟨h.ne_nil, h.unquoted, h.solid, h.head_ne, h.last_ne⟩⟩

variable {v : List Char} {op : Operator}

/-- A quoted value ends with a quote. -/
theorem getLast?_quoted (v : List Char) : (quoted v).getLast? = some mark := by
  rw [quoted, ← List.cons_append]
  exact List.getLast?_concat ..

/-- Only the quotes are at the ends. -/
theorem strip_quoted {p : Char → Bool} (hp : p mark = false) (v : List Char) :
    Text.strip p (quoted v) = quoted v := by
  apply Text.strip_of_ends
  · intro c hc
    cases hc
    exact hp
  · intro c hc
    rw [getLast?_quoted] at hc
    cases hc
    exact hp

/-- A quoted value is taken as it is. -/
theorem verbatim_quoted (v : List Char) : verbatim (quoted v) = quoted v :=
  Text.wrap_quoted rfl (getLast?_quoted v)

/-- A value without quotes is put in quotes. -/
theorem verbatim_of_notMem (hne : v ≠ []) (hmark : mark ∉ v) : verbatim v = quoted v :=
  Text.wrap_bare hne (fun h => hmark (List.mem_of_mem_head? h))
    fun h => hmark (List.mem_of_mem_getLast? h)

/-- No delimiter is taken off a bare value. -/
theorem Bare.strip_delimiter (hv : Bare v) : Text.strip (· == Condition.delimiter) v = v := by
  apply Text.strip_of_ends
  · intro c hc
    exact beq_eq_false_iff_ne.mpr fun heq => hv.head_ne (heq ▸ hc)
  · intro c hc
    exact beq_eq_false_iff_ne.mpr fun heq => hv.last_ne (heq ▸ hc)

/-- A pattern has no quotes of its own. -/
theorem verbatim_decorate (hv : Bare v) (op : Operator) :
    verbatim (op.decorate v) = quoted (op.decorate v) := by
  have hwild : mark ≠ Operator.wildcard := by decide
  apply verbatim_of_notMem
  · cases op <;> simp [Operator.decorate, hv.ne_nil]
  · cases op <;> simp [Operator.decorate, hv.unquoted, hwild]

/-- A wildcard outside of the quotes hides one of them. -/
theorem length_lt_verbatim_decorate (h : op.isPattern = true) (v : List Char) :
    (op.decorate (quoted v)).length < (verbatim (op.decorate (quoted v))).length := by
  have hwild : Operator.wildcard ≠ mark := by decide
  apply Text.length_lt_wrap
  · cases op <;> simp [Operator.decorate, quoted]
  · cases op <;> simp_all [Operator.decorate, Operator.isPattern]

/-- **The quotes of a value are seen unless the operator makes a pattern of it.** -/
theorem verbatim_decorate_iff (hv : Bare v) :
    verbatim (op.decorate (quoted v)) = verbatim (op.decorate v) ↔ op.isPattern = false := by
  rw [verbatim_decorate hv]
  constructor
  · intro h
    have hlength : (op.decorate (quoted v)).length = (op.decorate v).length + 2 := by
      cases op <;> simp [Operator.decorate, quoted]
    cases hpattern : op.isPattern with
    | false => rfl
    | true =>
        have hlt := length_lt_verbatim_decorate hpattern v
        rw [h, hlength, quoted] at hlt
        simp at hlt
  · intro h
    rw [Operator.decorate_of_not_isPattern h, Operator.decorate_of_not_isPattern h,
      verbatim_quoted]

end Sql.Literal

open Sql Literal

namespace Rule

variable {r : Rule}

/-- The rule with its value between quotes. -/
def requoted (r : Rule) : Rule := { r with value := String.ofList (quoted r.value.toList) }

/-- The value of a requoted rule is that of the rule in quotes. -/
theorem toList_value_requoted (r : Rule) : r.requoted.value.toList = quoted r.value.toList :=
  String.toList_ofList

/-- If nothing is stripped from its value, a rule compares with this, decorated. -/
theorem operand_of_solid (htrim : Text.trim r.value.toList = r.value.toList)
    (hmembers : Text.strip (· == Condition.delimiter) r.value.toList = r.value.toList) :
    r.operand = r.effective.decorate r.value.toList := by
  unfold operand
  rw [htrim]
  split
  · next h => rw [hmembers, h, Operator.decorate_of_not_isPattern rfl]
  · rfl

/-- Quotes around a bare value do not decide whether a rule survives. -/
theorem survives_of_ends (hfield : Text.trim r.field.toList ≠ [])
    (htrim : Text.trim r.value.toList = r.value.toList) (hne : r.value.toList ≠ [])
    (hhead : r.value.toList.head? ≠ some Condition.delimiter) : r.Survives := by
  refine ⟨hfield, htrim.symm ▸ hne, fun h => ?_⟩
  obtain ⟨c, hc⟩ := Option.isSome_iff_exists.mp (List.isSome_head?.mpr hne)
  have hcomma := h.2 c (htrim.symm ▸ List.mem_of_mem_head? hc)
  exact hhead (hcomma ▸ hc)

/-- A rule with a bare value survives with what its operator makes of the value. -/
theorem condition?_of_bare (hv : Bare r.value.toList) (hfield : Text.trim r.field.toList ≠ []) :
    r.condition? =
      some ⟨Text.trim r.field.toList, r.effective, r.effective.decorate r.value.toList⟩ := by
  rw [condition?_eq, if_pos (survives_of_ends hfield hv.solid hv.ne_nil hv.head_ne), condition,
    operand_of_solid hv.solid hv.strip_delimiter]

/-- A requoted rule survives with what its operator makes of the value and its quotes. -/
theorem condition?_requoted (r : Rule) (hfield : Text.trim r.field.toList ≠ []) :
    r.requoted.condition? = some
      ⟨Text.trim r.field.toList, r.effective, r.effective.decorate (quoted r.value.toList)⟩ := by
  have hvalue := r.toList_value_requoted
  have hblank : Text.isBlank mark = false := by decide
  have hcomma : (mark == Condition.delimiter) = false := by decide
  have htrim : Text.trim r.requoted.value.toList = r.requoted.value.toList := by
    rw [hvalue]
    exact strip_quoted hblank _
  have hmembers : Text.strip (· == Condition.delimiter) r.requoted.value.toList =
      r.requoted.value.toList := by
    rw [hvalue]
    exact strip_quoted hcomma _
  have hfield' : Text.trim r.requoted.field.toList ≠ [] := hfield
  have hsurvives : r.requoted.Survives := by
    apply survives_of_ends hfield' htrim
    · rw [hvalue]
      exact List.cons_ne_nil _ _
    · rw [hvalue, quoted, List.head?_cons]
      decide
  have heffective : r.requoted.effective = r.effective := rfl
  rw [condition?_eq, if_pos hsurvives, condition, operand_of_solid htrim hmembers, hvalue,
    heffective]
  rfl

/-- A rule with a blank field has no condition, whatever its value. -/
theorem condition?_of_blank_field (h : Text.trim r.field.toList = []) : r.condition? = none := by
  rw [condition?_eq, if_neg fun hsurvives => hsurvives.1 h]

end Rule

namespace Query

/-- **The rules whose value may come in quotes.**  Every rule of a tree stands at a site.  In the
verbatim mode a rule there may have its bare value put in quotes without a change to the text of
the tree exactly if it drops out, for its blank field, or if its operator makes no pattern of the
value. -/
theorem compile_requoted_iff (m : Mapping) :
    (∀ (g : Group) (r : Rule), r ∈ g.everyRule → ∃ s : Group.Site, s.fill r = g) ∧
    ∀ (s : Group.Site) (r : Rule), Bare r.value.toList →
      ((compile ⟨m, .verbatim⟩ (some (s.fill r.requoted))).1 =
          (compile ⟨m, .verbatim⟩ (some (s.fill r))).1 ↔
        Text.trim r.field.toList = [] ∨ r.effective.isPattern = false) := by
  refine ⟨fun g r => Group.mem_everyRule_iff_fill.mp, fun s r hv => ?_⟩
  rw [fst_compile, fst_compile]
  by_cases hfield : Text.trim r.field.toList = []
  · -- the rule drops out with and without its quotes
    have hsame : r.requoted.condition? = r.condition? := by
      rw [Rule.condition?_of_blank_field hfield]
      exact Rule.condition?_of_blank_field hfield
    rw [Group.predicate?, Group.predicate?, s.clauses_fill_congr hsame]
    exact iff_of_true rfl (.inl hfield)
  · obtain ⟨front, back, hframe⟩ := s.exists_frame (atom ⟨m, .verbatim⟩)
    rw [hframe _ _ (r.condition?_requoted hfield), hframe _ _ (Rule.condition?_of_bare hv hfield),
      Option.some.injEq, List.append_cancel_left_eq, List.append_cancel_right_eq,
      or_iff_right hfield]
    simp only [atom, Condition.sql, Operator.comparison_eq_iff]
    exact verbatim_decorate_iff hv

/-- A site in a nested group, with a rule beside it and one above. -/
def beside : Group.Site :=
  .nested "or" [⟨"age", "less", "18"⟩] [] (.own "and" [⟨"x", "equal", "1"⟩] [] []) []

/-- Beside a rule that survives, membership is written the same and a pattern is not. -/
theorem compile_requoted_iff_beside :
    Bare "a,b".toList ∧ Bare "bo".toList ∧
    (compile ⟨{}, .verbatim⟩ (some (beside.fill (Rule.requoted ⟨"tags", "in", "a,b"⟩)))).1 =
      (compile ⟨{}, .verbatim⟩ (some (beside.fill ⟨"tags", "in", "a,b"⟩))).1 ∧
    (compile ⟨{}, .verbatim⟩ (some (beside.fill (Rule.requoted ⟨"name", "contains", "bo"⟩)))).1 ≠
      (compile ⟨{}, .verbatim⟩ (some (beside.fill ⟨"name", "contains", "bo"⟩))).1 := by
  have hlist : Bare "a,b".toList := by decide
  have hname : Bare "bo".toList := by decide
  obtain ⟨-, hrequoted⟩ := compile_requoted_iff {}
  refine ⟨hlist, hname, ?_, ?_⟩
  · exact (hrequoted beside ⟨"tags", "in", "a,b"⟩ hlist).mpr (.inr (by decide))
  · intro h
    have hplain := (hrequoted beside ⟨"name", "contains", "bo"⟩ hname).mp h
    exact absurd hplain (by decide)

/-- **A value in quotes is quoted again** behind the wildcard of a pattern. -/
theorem requoted_startWith_differs :
    Bare "bo".toList ∧
    (compile ⟨{}, .verbatim⟩ (some { rules := [⟨"name", "startwith", "bo"⟩] })).1 =
      some "(`name` like 'bo%')".toList ∧
    (compile ⟨{}, .verbatim⟩ (some { rules := [⟨"name", "startwith", "'bo'"⟩] })).1 =
      some "(`name` like 'bo'%')".toList := by
  decide +kernel

end Query

end QueryFilter
