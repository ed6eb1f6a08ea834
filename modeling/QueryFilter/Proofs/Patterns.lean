import Mathlib.Data.List.Infix
import QueryFilter.Proofs.Lexemes
import QueryFilter.Proofs.Site

/-!
# Patterns

A pattern operator does not compare with the value but with a pattern made from it: a wildcard is
added on each side that is left open.  The pattern is written as a literal, and the test that reads
it back has wildcards and an escape of its own.

A text fits a pattern if it can be parted so that each part is covered by one place of the pattern.
So places one after another are fitted by texts one after another, and the wildcard at an end takes
what is left of a text there.  The value itself need not be free of wildcards: each covers itself,
so that the value fits in any case, though other texts may fit as well.  Only a backslash is lost,
for it gives the next character, and perhaps the wildcard that was added, another meaning.

* `Sql.fits_append_iff` — places one after another;
* `Sql.like_decorate_iff` — a pattern is fitted by the texts in which the value is matched at the
  place the operator names;
* `Query.patterns_locate` — so these operators mean beginning, end and part of a text.
-/

namespace QueryFilter

namespace Sql

/-- What one place of a pattern stands for. -/
inductive Place where
  | anyText
  | anyCharacter
  | exactly (c : Char)
deriving DecidableEq, Repr

/-- Whether a place stands for this text. -/
def Place.covers : Place → List Char → Bool
  | anyText, _ => true
  | anyCharacter, s => s.length == 1
  | exactly c, s => s == [c]

/-- What a character of a pattern stands for if no backslash is before it. -/
def Place.ofChar (c : Char) : Place :=
  if c = '%' then anyText else if c = '_' then anyCharacter else exactly c

/-- The places of a pattern.  A backslash takes away the meaning of the next character, and stands
for itself at the end. -/
def places : List Char → List Place
  | [] => []
  | [c] => [.ofChar c]
  | c :: d :: p => if c = '\\' then .exactly d :: places p else .ofChar c :: places (d :: p)

/-- Whether a text can be parted so that each place covers one part, in order. -/
def fits : List Place → List Char → Bool
  | [], s => s.isEmpty
  | p :: ps, s =>
      (List.range (s.length + 1)).any fun k => p.covers (s.take k) && fits ps (s.drop k)

/-- Whether a text is like a pattern. -/
def like (pattern s : List Char) : Bool := fits (places pattern) s

variable {v s : List Char}

/-- Only the empty text fits where no place is left. -/
theorem fits_nil_iff : fits [] s = true ↔ s = [] := List.isEmpty_iff

/-- The first place covers a beginning, and what is left fits the other places. -/
theorem fits_cons_iff {p : Place} {ps : List Place} :
    fits (p :: ps) s = true ↔ ∃ a b, s = a ++ b ∧ p.covers a = true ∧ fits ps b = true := by
  simp only [fits, List.any_eq_true, List.mem_range, Bool.and_eq_true]
  constructor
  · rintro ⟨k, -, hcovers, hrest⟩
    exact ⟨s.take k, s.drop k, (List.take_append_drop k s).symm, hcovers, hrest⟩
  · rintro ⟨a, b, rfl, hcovers, hrest⟩
    have hlength : a.length < (a ++ b).length + 1 := by
      rw [List.length_append]
      omega
    refine ⟨a.length, hlength, ?_, ?_⟩
    · rwa [List.take_left']
      rfl
    · rwa [List.drop_left']
      rfl

/-- **Places one after another are fitted by texts one after another.** -/
theorem fits_append_iff {ps qs : List Place} :
    fits (ps ++ qs) s = true ↔ ∃ a b, s = a ++ b ∧ fits ps a = true ∧ fits qs b = true := by
  induction ps generalizing s with
  | nil => simp [fits_nil_iff]
  | cons p ps ih =>
      simp only [List.cons_append, fits_cons_iff, ih]
      constructor
      · rintro ⟨a, -, rfl, hcovers, b, c, rfl, hps, hqs⟩
        exact ⟨a ++ b, c, (List.append_assoc ..).symm, ⟨a, b, rfl, hcovers, hps⟩, hqs⟩
      · rintro ⟨-, c, rfl, ⟨a, b, rfl, hcovers, hps⟩, hqs⟩
        exact ⟨a, b ++ c, List.append_assoc .., hcovers, b, c, rfl, hps, hqs⟩

/-- A wildcard is fitted by every text. -/
theorem fits_anyText (s : List Char) : fits [.anyText] s = true :=
  fits_cons_iff.mpr ⟨s, [], (List.append_nil s).symm, rfl, rfl⟩

/-- Every character but a backslash has a place of its own. -/
theorem places_cons {c : Char} (h : c ≠ '\\') (p : List Char) :
    places (c :: p) = .ofChar c :: places p := by
  cases p with
  | nil => rfl
  | cons d p => rw [places, if_neg h]

/-- Without a backslash each character of a pattern is a place of its own. -/
theorem places_append (h : '\\' ∉ v) (p : List Char) :
    places (v ++ p) = v.map Place.ofChar ++ places p := by
  induction v with
  | nil => rfl
  | cons c v ih =>
      rw [List.mem_cons, not_or] at h
      rw [List.cons_append, places_cons (Ne.symm h.1), ih h.2]
      rfl

/-- A text without backslashes has a place for each of its characters. -/
theorem places_of_notMem (h : '\\' ∉ v) : places v = v.map Place.ofChar := by
  have hplaces := places_append h []
  rwa [List.append_nil, places, List.append_nil] at hplaces

/-- Each character is covered by the place it stands for. -/
theorem covers_ofChar (c : Char) : (Place.ofChar c).covers [c] = true := by
  unfold Place.ofChar
  split
  · rfl
  · split
    · rfl
    · exact beq_self_eq_true _

/-- **A text without a backslash is like itself,** -/
theorem like_self (h : '\\' ∉ v) : like v v = true := by
  rw [like, places_of_notMem h]
  clear h
  induction v with
  | nil => rfl
  | cons c v ih => exact fits_cons_iff.mpr ⟨[c], v, rfl, covers_ofChar c, ih⟩

/-- and without wildcards it is the only one. -/
theorem eq_of_like (hslash : '\\' ∉ v) (htext : '%' ∉ v) (hcharacter : '_' ∉ v)
    (h : like v s = true) : s = v := by
  rw [like, places_of_notMem hslash] at h
  clear hslash
  induction v generalizing s with
  | nil => exact fits_nil_iff.mp h
  | cons c v ih =>
      rw [List.mem_cons, not_or] at htext hcharacter
      obtain ⟨a, b, rfl, hcovers, hrest⟩ := fits_cons_iff.mp h
      have hplace : Place.ofChar c = .exactly c := by
        rw [Place.ofChar, if_neg (Ne.symm htext.1), if_neg (Ne.symm hcharacter.1)]
      have ha : a = [c] := by simpa [hplace, Place.covers] using hcovers
      rw [ha, ih htext.2 hcharacter.2 hrest]
      rfl

end Sql

/-- Where a pattern operator finds `v` in `s`: at the beginning, at the end, or anywhere. -/
def Operator.Locates (op : Operator) (v s : List Char) : Prop :=
  match op with
  | startWith => v <+: s
  | endWith => v <:+ s
  | contains => v <:+: s
  | _ => v = s

namespace Sql

variable {v s : List Char}

/-- A wildcard in front takes what is before. -/
theorem like_wildcard_cons_iff (p : List Char) :
    like (Operator.wildcard :: p) s = true ↔ ∃ t, t <:+ s ∧ like p t = true := by
  have hplaces : places (Operator.wildcard :: p) = .anyText :: places p := places_cons (by decide) p
  rw [like, hplaces, fits_cons_iff]
  constructor
  · rintro ⟨a, b, rfl, -, hrest⟩
    exact ⟨b, List.suffix_append a b, hrest⟩
  · rintro ⟨t, ⟨a, rfl⟩, hrest⟩
    exact ⟨a, t, rfl, rfl, hrest⟩

/-- A wildcard behind a text without a backslash takes what is after. -/
theorem like_append_wildcard_iff (h : '\\' ∉ v) :
    like (v ++ [Operator.wildcard]) s = true ↔ ∃ t, t <+: s ∧ like v t = true := by
  have hplaces : places (v ++ [Operator.wildcard]) = places v ++ [.anyText] := by
    rw [places_append h, places_of_notMem h]
    rfl
  rw [like, hplaces, fits_append_iff]
  constructor
  · rintro ⟨a, b, rfl, hv, -⟩
    exact ⟨a, List.prefix_append a b, hv⟩
  · rintro ⟨t, ⟨b, rfl⟩, hv⟩
    exact ⟨t, b, rfl, hv, fits_anyText b⟩

/-- **A pattern is fitted by the texts in which something like the value is found,** where the
operator says. -/
theorem like_decorate_iff (op : Operator) (h : '\\' ∉ v) :
    like (op.decorate v) s = true ↔ ∃ t, op.Locates t s ∧ like v t = true := by
  cases op with
  | startWith => exact like_append_wildcard_iff h
  | endWith => exact like_wildcard_cons_iff v
  | contains =>
      rw [Operator.decorate, List.cons_append, like_wildcard_cons_iff]
      simp only [like_append_wildcard_iff h]
      constructor
      · rintro ⟨u, hu, t, ht, hv⟩
        exact ⟨t, ht.isInfix.trans hu.isInfix, hv⟩
      · rintro ⟨t, ⟨a, b, rfl⟩, hv⟩
        refine ⟨t ++ b, ?_, t, List.prefix_append t b, hv⟩
        rw [List.append_assoc]
        exact List.suffix_append a (t ++ b)
  | _ => simp [Operator.decorate, Operator.Locates]

/-- A text in which the value itself is found fits the pattern. -/
theorem like_decorate_of_locates {op : Operator} (hslash : '\\' ∉ v) (h : op.Locates v s) :
    like (op.decorate v) s = true :=
  (like_decorate_iff op hslash).mpr ⟨v, h, like_self hslash⟩

/-- If the value has no wildcards, no other text does. -/
theorem locates_of_like_decorate {op : Operator} (hslash : '\\' ∉ v) (htext : '%' ∉ v)
    (hcharacter : '_' ∉ v) (h : like (op.decorate v) s = true) : op.Locates v s := by
  obtain ⟨t, hlocates, hlike⟩ := (like_decorate_iff op hslash).mp h
  rwa [← eq_of_like hslash htext hcharacter hlike]

end Sql

/-- A pattern is made of the trimmed value. -/
theorem Rule.operand_of_isPattern {r : Rule} (h : r.effective.isPattern = true) :
    r.operand = r.effective.decorate (Text.trim r.value.toList) := by
  unfold operand
  split
  · next hop => simp [hop, Operator.isPattern] at h
  · rfl

namespace Query

/-- **The pattern operators mean beginning, end and part of a text.**  A rule with such an operator
is written, at every site of a tree, with the word `like` between its column and a literal, and the
literal is one string.  If the trimmed value has no backslash, every text in which it stands at
that place fits this string; and if it has no wildcards either, no other text does. -/
theorem patterns_locate (m : Mapping) {r : Rule} {op : Operator} (hop : r.operator = op.token)
    (hpattern : op.isPattern = true) (hfield : Text.trim r.field.toList ≠ [])
    (hvalue : Text.trim r.value.toList ≠ []) :
    ∃ literal pattern,
      (∀ s : Group.Site, ∃ front back, (compile ⟨m, .escaped⟩ (some (s.fill r))).1 =
        some (front ++ (m.resolve .escaped (Text.trim r.field.toList) ++ " like ".toList ++
          literal ++ back))) ∧
      Sql.lex literal = some [.string pattern] ∧
      ('\\' ∉ Text.trim r.value.toList →
        (∀ s, op.Locates (Text.trim r.value.toList) s → Sql.like pattern s = true) ∧
        ('%' ∉ Text.trim r.value.toList → '_' ∉ Text.trim r.value.toList →
          ∀ s, Sql.like pattern s = true → op.Locates (Text.trim r.value.toList) s)) := by
  have heffective : r.effective = op := Rule.effective_of_token hop
  have hoperand : r.operand = op.decorate (Text.trim r.value.toList) := by
    rw [Rule.operand_of_isPattern (heffective ▸ hpattern), heffective]
  have hmember : op ≠ .memberOf := by
    rintro rfl
    cases hpattern
  have hlive : r.Survives :=
    ⟨hfield, hvalue, fun h =>
      hmember (heffective.symm.trans (Rule.effective_eq_memberOf_iff.mpr h.1))⟩
  refine ⟨Sql.Literal.quote .escaped r.operand, r.operand, fun s => ?_,
    (Sql.spells_string r.operand).lex, fun hslash => ⟨?_, ?_⟩⟩
  · obtain ⟨front, back, htext⟩ := compile_fill ⟨m, .escaped⟩ s
    have hword : " like ".toList = " ".toList ++ op.sql.toList ++ " ".toList := by
      rw [Operator.sql_of_isPattern hpattern]
      rfl
    refine ⟨front, back, ?_⟩
    rw [htext r hlive, atom, Condition.sql, Rule.condition, heffective,
      Operator.comparison_of_ne hmember, hword]
    simp only [List.append_assoc]
  · intro s hs
    rw [hoperand]
    exact Sql.like_decorate_of_locates hslash hs
  · intro htext hcharacter s hs
    rw [hoperand] at hs
    exact Sql.locates_of_like_decorate hslash htext hcharacter hs

/-- A rule with a quote in its value. -/
def quoting : Rule := ⟨" n", "contains", "a'a\n"⟩

/-- A rule with a wildcard in its value. -/
def discounted : Rule := ⟨"n", "startwith", "5%"⟩

/-- A value with a quote is located where it stands in a text, and one with a wildcard at least
there. -/
theorem patterns_locate_quoting :
    (quoting.operator = Operator.contains.token ∧ Text.trim quoting.field.toList ≠ [] ∧
      ∃ literal pattern front back,
        (compile ⟨{}, .escaped⟩ (some { rules := [⟨"x", "in", "1"⟩, quoting] })).1 =
          some (front ++ ("`n`".toList ++ " like ".toList ++ literal ++ back)) ∧
        Sql.lex literal = some [.string pattern] ∧
        Sql.like pattern "aa'aa".toList = true ∧ Sql.like pattern "aa''a".toList = false) ∧
    discounted.operator = Operator.startWith.token ∧ Text.trim discounted.field.toList ≠ [] ∧
      ∃ literal pattern front back,
        (compile ⟨{}, .escaped⟩ (some { rules := [discounted] })).1 =
          some (front ++ ("`n`".toList ++ " like ".toList ++ literal ++ back)) ∧
        Sql.lex literal = some [.string pattern] ∧ Sql.like pattern "5% less".toList = true := by
  have hcolumn : Mapping.resolve {} .escaped ['n'] = "`n`".toList := by decide +kernel
  refine ⟨⟨rfl, by decide, ?_⟩, rfl, by decide, ?_⟩
  · have hop : quoting.operator = Operator.contains.token := rfl
    obtain ⟨literal, pattern, htext, hlex, hlike⟩ :=
      patterns_locate {} hop rfl (by decide) (by decide)
    obtain ⟨hfits, hother⟩ := hlike (by decide)
    obtain ⟨front, back, hsite⟩ := htext (.own "and" [⟨"x", "in", "1"⟩] [] [])
    refine ⟨literal, pattern, front, back, hcolumn ▸ hsite, hlex, ?_, ?_⟩
    · exact hfits _ ⟨['a'], ['a'], rfl⟩
    · have hinfix : ¬"a'a".toList <:+: "aa''a".toList := by decide
      exact Bool.eq_false_iff.mpr fun h => hinfix (hother (by decide) (by decide) _ h)
  · have hop : discounted.operator = Operator.startWith.token := rfl
    obtain ⟨literal, pattern, htext, hlex, hlike⟩ :=
      patterns_locate {} hop rfl (by decide) (by decide)
    obtain ⟨front, back, hsite⟩ := htext (.own "and" [] [] [])
    exact ⟨literal, pattern, front, back, hcolumn ▸ hsite, hlex,
      (hlike (by decide)).1 _ ⟨" less".toList, rfl⟩⟩

end Query

end QueryFilter
