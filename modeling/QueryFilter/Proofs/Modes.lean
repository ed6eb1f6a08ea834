import QueryFilter.Proofs.Quoting
import QueryFilter.Proofs.Structure

/-!
# The two modes

A tree is compiled in one of two modes.  The verbatim mode trusts values and
field tokens; the escaped mode closes every quote.  The two texts of a tree are
made of the same row, so they differ in the atoms only, and each atom of the
verbatim text is contained in its counterpart.

* `Rule.Safe` — a rule with nothing to escape in its value and its field;
* `Condition.sql_verbatim_eq_iff` — the atoms of a rule agree exactly if it is
  safe;
* `Mapping.compile_modes_agree_iff` — so the texts of a tree agree exactly if
  every surviving rule is safe, since no atom can make up for another.
-/

namespace QueryFilter

open Precedence
open scoped List

namespace Mapping

/-- Whether a trimmed field token means the same column in both modes: it is
mapped, or it is an undotted name without a backtick or with one pair of them
around it, or a dotted name with each part quoted. -/
def SafeField (m : Mapping) (field : List Char) : Prop :=
  (Sql.Name.dot ∉ field ∧ (m.mapped? field).isSome) ∨
  (Sql.Name.dot ∉ field ∧ (Sql.Name.mark ∉ field ∨ Sql.Name.IsQuoted field)) ∨
  (Sql.Name.dot ∈ field ∧ ∀ part ∈ field.splitOn Sql.Name.dot, Sql.Name.IsQuoted part)

variable {m : Mapping} {field : List Char}

/-- A token names its own place if it has a dot. -/
theorem isQualified_iff : Sql.Name.isQualified field = true ↔ Sql.Name.dot ∈ field := by
  simp [Sql.Name.isQualified]

/-- A token with a dot is taken as it is, or quoted part by part. -/
theorem resolve_qualified (m : Mapping) (hblank : Text.trim field ≠ [])
    (hdot : Sql.Name.dot ∈ field) :
    m.resolve .verbatim field = field ∧ m.resolve .escaped field = Sql.Name.quotePath field := by
  have hq := isQualified_iff.mpr hdot
  constructor
  · rw [resolve, column, if_neg hblank, if_pos hq]
  · rw [resolve, safeColumn, if_neg hblank, if_pos hq]

/-- A mapped token is the same column in both modes. -/
theorem resolve_mapped (hblank : Text.trim field ≠ []) (hdot : Sql.Name.dot ∉ field)
    {column : List Char} (hm : m.mapped? field = some column) (mode : Sql.Escaping) :
    m.resolve mode field = column := by
  have hq : ¬Sql.Name.isQualified field = true := fun h => hdot (isQualified_iff.mp h)
  cases mode with
  | verbatim => rw [resolve, Mapping.column, if_neg hblank, if_neg hq, hm, Option.getD_some]
  | escaped => rw [resolve, safeColumn, if_neg hblank, if_neg hq, hm, Option.getD_some]

/-- An unmapped token is wrapped as it is, or quoted without its own backticks. -/
theorem resolve_unmapped (hblank : Text.trim field ≠ []) (hdot : Sql.Name.dot ∉ field)
    (hm : m.mapped? field = none) :
    m.resolve .verbatim field = Sql.Name.wrap field ∧
      m.resolve .escaped field = Sql.Name.quote (Sql.Name.bare field) := by
  have hq : ¬Sql.Name.isQualified field = true := fun h => hdot (isQualified_iff.mp h)
  constructor
  · rw [resolve, column, if_neg hblank, if_neg hq, hm, Option.getD_none]
  · rw [resolve, safeColumn, if_neg hblank, if_neg hq, hm, Option.getD_none,
      Sql.Name.quotePath_of_notMem hdot]

/-- The column of a token in the verbatim mode is contained in the one in the
escaped mode. -/
theorem resolve_sublist (m : Mapping) (field : List Char) :
    m.resolve .verbatim field <+ m.resolve .escaped field := by
  by_cases hblank : Text.trim field = []
  · have hsame : m.resolve .verbatim field = m.resolve .escaped field := by
      rw [resolve, resolve, column, safeColumn, if_pos hblank, if_pos hblank]
    exact hsame ▸ List.Sublist.refl _
  by_cases hdot : Sql.Name.dot ∈ field
  · obtain ⟨hv, he⟩ := m.resolve_qualified hblank hdot
    rw [hv, he]
    exact Sql.Name.sublist_quotePath field
  cases hm : m.mapped? field with
  | some column =>
      have hsame : m.resolve .verbatim field = m.resolve .escaped field := by
        rw [resolve_mapped hblank hdot hm, resolve_mapped hblank hdot hm]
      exact hsame ▸ List.Sublist.refl _
  | none =>
      obtain ⟨hv, he⟩ := resolve_unmapped hblank hdot hm
      rw [hv, he]
      exact Sql.Name.wrap_sublist_quote_bare field

/-- **The columns of a token agree** exactly if it is safe. -/
theorem resolve_eq_iff (hblank : Text.trim field ≠ []) :
    m.resolve .verbatim field = m.resolve .escaped field ↔ m.SafeField field := by
  have hne : field ≠ [] := by
    rintro rfl
    exact hblank rfl
  unfold SafeField
  by_cases hdot : Sql.Name.dot ∈ field
  · obtain ⟨hv, he⟩ := m.resolve_qualified hblank hdot
    rw [hv, he, Sql.Name.eq_quotePath_iff]
    simp [hdot]
  · cases hm : m.mapped? field with
    | some column =>
        rw [resolve_mapped hblank hdot hm, resolve_mapped hblank hdot hm]
        simp [hdot]
    | none =>
        obtain ⟨hv, he⟩ := resolve_unmapped hblank hdot hm
        rw [hv, he, Sql.Name.wrap_eq_quote_bare_iff hne]
        simp [hdot]

end Mapping

namespace Sql.Literal

/-- The verbatim literal is what is left of the escaped one. -/
theorem quote_sublist (v : List Char) : quote .verbatim v <+ quote .escaped v :=
  Text.wrap_sublist_quote mark isSpecial v

/-- The literals of a value agree exactly if it has no quote and no
backslash. -/
theorem quote_eq_iff {v : List Char} (hv : v ≠ []) :
    quote .verbatim v = quote .escaped v ↔ ∀ c ∈ v, isSpecial c = false :=
  Text.wrap_eq_quote_iff (by decide) hv

end Sql.Literal

/-- An atom is the same in every mapping and mode but for its column and its
literal. -/
theorem Condition.exists_frame (c : Condition) : ∃ front middle back : List Char,
    ∀ m mode, c.sql m mode = front ++ (m.resolve mode c.field ++
      (middle ++ (Sql.Literal.quote mode c.operand ++ back))) := by
  obtain ⟨front, middle, back, hframe⟩ := c.operator.exists_frame
  refine ⟨front, middle, back, fun m mode => ?_⟩
  rw [sql, hframe]

/-- The verbatim atom is what is left of the escaped one. -/
theorem Condition.sql_sublist (m : Mapping) (c : Condition) :
    c.sql m .verbatim <+ c.sql m .escaped := by
  obtain ⟨front, middle, back, hsql⟩ := c.exists_frame
  rw [hsql, hsql]
  have hliteral := (Sql.Literal.quote_sublist c.operand).append_right back
  have hcolumn := (m.resolve_sublist c.field).append (hliteral.append_left middle)
  exact hcolumn.append_left front

/-- The atoms of a condition agree exactly if its column and its literal do. -/
theorem Condition.sql_eq_iff (m : Mapping) (c : Condition) :
    c.sql m .verbatim = c.sql m .escaped ↔
      m.resolve .verbatim c.field = m.resolve .escaped c.field ∧
        Sql.Literal.quote .verbatim c.operand = Sql.Literal.quote .escaped c.operand := by
  obtain ⟨front, middle, back, hsql⟩ := c.exists_frame
  have hliteral := Sql.Literal.quote_sublist c.operand
  have hrest := (hliteral.append_right back).append_left middle
  rw [hsql, hsql, List.append_cancel_left_eq,
    Text.append_eq_append_iff (m.resolve_sublist c.field) hrest, List.append_cancel_left_eq,
    List.append_cancel_right_eq]

namespace Rule

/-- Whether there is nothing to escape in a rule. -/
def Safe (m : Mapping) (r : Rule) : Prop :=
  (∀ c ∈ Text.trim r.value.toList, c ≠ Sql.Literal.mark ∧ c ≠ '\\') ∧
    m.SafeField (Text.trim r.field.toList)

/-- Operators add and strip no characters that are escaped. -/
theorem mem_operand_iff {r : Rule} {c : Char} (hc : Sql.Literal.isSpecial c = true) :
    c ∈ r.operand ↔ c ∈ Text.trim r.value.toList := by
  have hcomma : (c == Condition.delimiter) = false := by
    rcases Bool.or_eq_true_iff.mp hc with h | h <;> rw [eq_of_beq h] <;> decide
  have hwild : c ≠ Operator.wildcard := by
    rintro rfl
    revert hc
    decide
  unfold operand
  cases r.effective <;> simp [Operator.decorate, Text.mem_strip_iff, hcomma, hwild]

/-- A rule that survives compares with something. -/
theorem operand_ne_nil {r : Rule} (h : r.Survives) : r.operand ≠ [] := by
  obtain ⟨-, hvalue, hmembers⟩ := h
  have hlist : r.effective = .memberOf →
      Text.strip (· == Condition.delimiter) (Text.trim r.value.toList) ≠ [] := by
    intro hop hnil
    refine hmembers ⟨effective_eq_memberOf_iff.mp hop, fun c hc => ?_⟩
    exact eq_of_beq (Text.strip_eq_nil_iff.mp hnil c hc)
  unfold operand
  cases hop : r.effective <;> simp [Operator.decorate, hvalue, hlist, hop]

/-- **The atoms of a surviving rule agree** exactly if it is safe. -/
theorem sql_condition_eq_iff {m : Mapping} {r : Rule} (h : r.Survives) :
    r.condition.sql m .verbatim = r.condition.sql m .escaped ↔ r.Safe m := by
  have hblank : Text.trim (Text.trim r.field.toList) ≠ [] := h.trim_field_ne_nil
  have hvalue : (∀ c ∈ r.operand, Sql.Literal.isSpecial c = false) ↔
      ∀ c ∈ Text.trim r.value.toList, c ≠ Sql.Literal.mark ∧ c ≠ '\\' := by
    constructor
    · intro hall c hc
      have hplain : Sql.Literal.isSpecial c = false := by
        rw [← Bool.not_eq_true]
        exact fun hs => Bool.eq_false_iff.mp (hall c ((mem_operand_iff hs).mpr hc)) hs
      simpa [Sql.Literal.isSpecial] using hplain
    · intro hall c hc
      rw [← Bool.not_eq_true]
      intro hs
      have hplain := hall c ((mem_operand_iff hs).mp hc)
      simp [Sql.Literal.isSpecial, hplain] at hs
  have hcolumn : m.resolve .verbatim r.condition.field = m.resolve .escaped r.condition.field ↔
      m.SafeField (Text.trim r.field.toList) := Mapping.resolve_eq_iff hblank
  have hliteral : Sql.Literal.quote .verbatim r.condition.operand =
      Sql.Literal.quote .escaped r.condition.operand ↔ _ :=
    (Sql.Literal.quote_eq_iff (operand_ne_nil h)).trans hvalue
  rw [Condition.sql_eq_iff, hcolumn, hliteral, Safe, and_comm]

end Rule

namespace Row

variable {f g : Rule → List Char} {row : Row}

/-- A token is what is left of another if its atom is. -/
theorem spell_sublist (h : ∀ r, f r <+ g r) (t : Token Occurrence Combinator) :
    spell f t <+ spell g t := by
  cases t with
  | leaf r => exact h r.1
  | op c => exact List.Sublist.refl _
  | opening => exact List.Sublist.refl _
  | closing => exact List.Sublist.refl _

/-- The text of a row is what is left of another if its atoms are. -/
theorem text_sublist (h : ∀ r, f r <+ g r) (row : Row) : text f row <+ text g row :=
  Text.flatMap_sublist fun t _ => spell_sublist h t

/-- **Two spellings of a row agree** only if they do on every atom. -/
theorem text_eq_text_iff (h : ∀ r, f r <+ g r) :
    text f row = text g row ↔ ∀ r ∈ leaves row, f r.1 = g r.1 := by
  have hall : text f row = text g row ↔ ∀ t ∈ row, spell f t = spell g t :=
    Text.flatMap_eq_flatMap_iff fun t _ => spell_sublist h t
  rw [hall]
  constructor
  · intro hspell r hr
    exact hspell (.leaf r) (mem_leaves.mp hr)
  · intro hatoms t ht
    cases t with
    | leaf r => exact hatoms r (mem_leaves.mpr ht)
    | op c => rfl
    | opening => rfl
    | closing => rfl

end Row

/-- A text that contains another takes no fewer bytes. -/
theorem Text.utf8ByteSize_le_of_sublist {s t : List Char} (h : s <+ t) :
    (String.ofList s).utf8ByteSize ≤ (String.ofList t).utf8ByteSize := by
  induction h with
  | slnil => exact Nat.le_refl _
  | cons c h ih =>
      rw [String.ofList_cons, String.utf8ByteSize_append]
      omega
  | cons_cons c h ih =>
      rw [String.ofList_cons, String.ofList_cons, String.utf8ByteSize_append,
        String.utf8ByteSize_append]
      omega

/-- **The two modes agree exactly on safe trees.**  One mode gives a predicate
exactly if the other does; the escaped text contains the verbatim one, so it is
never shorter, neither in characters nor in bytes; and the two are equal exactly
if every surviving rule is safe, at any depth. -/
theorem Mapping.compile_modes_agree_iff (m : Mapping) (g : Group) :
    ((Query.compile ⟨m, .verbatim⟩ (some g)).1 = none ↔
      (Query.compile ⟨m, .escaped⟩ (some g)).1 = none) ∧
    (∀ v e, (Query.compile ⟨m, .verbatim⟩ (some g)).1 = some v →
      (Query.compile ⟨m, .escaped⟩ (some g)).1 = some e →
      v <+ e ∧ v.length ≤ e.length ∧
        (String.ofList v).utf8ByteSize ≤ (String.ofList e).utf8ByteSize) ∧
    ((Query.compile ⟨m, .verbatim⟩ (some g)).1 = (Query.compile ⟨m, .escaped⟩ (some g)).1 ↔
      ∀ r ∈ g.survivors, r.Safe m) := by
  have hatoms : ∀ r : Rule, r.condition.sql m .verbatim <+ r.condition.sql m .escaped :=
    fun r => r.condition.sql_sublist m
  have hverbatim := Query.compile_eq_row ⟨m, .verbatim⟩ g
  have hescaped := Query.compile_eq_row ⟨m, .escaped⟩ g
  by_cases hnone : g.survivors = []
  · rw [if_pos hnone] at hverbatim hescaped
    rw [hverbatim, hescaped]
    simp [hnone]
  · rw [if_neg hnone] at hverbatim hescaped
    rw [hverbatim, hescaped]
    refine ⟨by simp, ?_, ?_⟩
    · rintro v e ⟨⟩ ⟨⟩
      have hsub := Row.text_sublist hatoms (g.row 0)
      exact ⟨hsub, hsub.length_le, Text.utf8ByteSize_le_of_sublist hsub⟩
    · have htexts : Row.text _ (g.row 0) = Row.text _ (g.row 0) ↔ _ := Row.text_eq_text_iff hatoms
      rw [Group.leaves_row] at htexts
      rw [Option.some.injEq]
      refine htexts.trans ?_
      constructor
      · intro h r hr
        have hmem : r ∈ g.survivors.zipIdx.map Prod.fst := by rwa [List.zipIdx_map_fst]
        obtain ⟨⟨_, n⟩, hn, rfl⟩ := List.mem_map.mp hmem
        exact (Rule.sql_condition_eq_iff (Group.mem_survivors.mp hr).2).mp (h (_, n) hn)
      · intro h r hr
        have hmem : r.1 ∈ g.survivors := List.fst_mem_of_mem_zipIdx hr
        exact (Rule.sql_condition_eq_iff (Group.mem_survivors.mp hmem).2).mpr (h r.1 hmem)

end QueryFilter
