import Mathlib.Logic.Relation
import QueryFilter.Proofs.Survivors

/-!
# Dead weight in a tree

A tree can hold much that its predicate does not show: rules that drop out,
groups in which every rule does, and groups without rules of their own around
others.  `Change` lists what may be taken away or put in at any place of a tree,
one change at a time.

The invariant of all these changes is the list of clauses.  A group without
conditions of its own leaves the clauses of its nested groups, with nothing
around them, so that it cannot be told from those groups in its place; and a
group that leaves no clause cannot be told from none.

* `Group.clauses_eq_nil_iff` — a tree leaves no clause exactly if no rule of it
  survives;
* `Group.Change.clauses_eq` — a change keeps the clauses;
* `Query.compile_eq_of_changes` — so any number of changes keeps the text.
-/

namespace QueryFilter

/-- A group has clauses if one of its two sides has. -/
theorem Clause.combine_eq_nil_iff {own : List Condition} {op : Combinator}
    {nested : List Clause} : combine own op nested = [] ↔ own = [] ∧ nested = [] := by
  cases own <;> cases nested <;> simp [combine]

namespace Rule

/-- A rule that does not survive has no condition. -/
theorem condition?_of_dead {r : Rule} (h : ¬r.Survives) : r.condition? = none := by
  rw [condition?_eq, if_neg h]

/-- Rules have no conditions exactly if none of them survives. -/
theorem filterMap_condition?_eq_nil_iff {rs : List Rule} :
    rs.filterMap condition? = [] ↔ ∀ r ∈ rs, ¬r.Survives := by
  rw [filterMap_condition?, List.map_eq_nil_iff, List.filter_eq_nil_iff]
  simp

end Rule

namespace Group

/-- The clauses of a group are those of its two sides combined. -/
theorem clauses_node (operate : String) (rules : List Rule) (groups : List Group) :
    clauses ⟨operate, rules, groups⟩ =
      Clause.combine (rules.filterMap Rule.condition?) (Combinator.ofText operate)
        (groups.flatMap clauses) := by
  rw [clauses, clausesAll_eq_flatMap]

/-- A group none of whose own rules survives leaves what its nested groups
leave. -/
theorem clauses_of_dead_rules {g : Group} (h : ∀ r ∈ g.rules, ¬r.Survives) :
    g.clauses = g.groups.flatMap clauses := by
  obtain ⟨operate, rules, groups⟩ := g
  rw [clauses_node, Rule.filterMap_condition?_eq_nil_iff.mpr h]
  rfl

/-- The rules of several trees are those of each of them. -/
theorem mem_everyRuleAll {gs : List Group} {r : Rule} :
    r ∈ everyRuleAll gs ↔ ∃ g ∈ gs, r ∈ g.everyRule := by
  induction gs with
  | nil => simp [everyRuleAll]
  | cons g gs ih => simp [everyRuleAll, ih]

/-- **A tree leaves no clause** exactly if no rule of it survives, at any
depth. -/
theorem clauses_eq_nil_iff {g : Group} :
    g.clauses = [] ↔ ∀ r ∈ g.everyRule, ¬r.Survives := by
  induction g using Group.induct with
  | node operate rules groups ih =>
      have hnested : groups.flatMap clauses = [] ↔
          ∀ r ∈ everyRuleAll groups, ¬r.Survives := by
        rw [List.flatMap_eq_nil_iff]
        constructor
        · intro h r hr
          obtain ⟨g, hg, hmem⟩ := mem_everyRuleAll.mp hr
          exact (ih g hg).mp (h g hg) r hmem
        · intro h g hg
          exact (ih g hg).mpr fun r hr => h r (mem_everyRuleAll.mpr ⟨g, hg, hr⟩)
      rw [clauses_node, Clause.combine_eq_nil_iff, Rule.filterMap_condition?_eq_nil_iff,
        hnested, everyRule, List.forall_mem_append]

/-- One change that the predicate of a tree does not show, read from left to
right. -/
inductive Change : Group → Group → Prop where
  /-- A rule that does not survive is dropped. -/
  | dropRule (operate : String) (before : List Rule) (r : Rule) (after : List Rule)
      (groups : List Group) (dead : ¬r.Survives) :
      Change ⟨operate, before ++ r :: after, groups⟩ ⟨operate, before ++ after, groups⟩
  /-- A nested group is dropped in which no rule survives, at any depth. -/
  | dropGroup (operate : String) (rules : List Rule) (before : List Group) (g : Group)
      (after : List Group) (dead : ∀ r ∈ g.everyRule, ¬r.Survives) :
      Change ⟨operate, rules, before ++ g :: after⟩ ⟨operate, rules, before ++ after⟩
  /-- A nested group none of whose own rules survives makes room for the groups
  nested in it. -/
  | splice (operate : String) (rules : List Rule) (before : List Group) (g : Group)
      (after : List Group) (dead : ∀ r ∈ g.rules, ¬r.Survives) :
      Change ⟨operate, rules, before ++ g :: after⟩
        ⟨operate, rules, before ++ (g.groups ++ after)⟩
  /-- A tree is taken out of a group that holds nothing else. -/
  | unwrap (operate : String) (g : Group) : Change ⟨operate, [], [g]⟩ g
  /-- A nested group is changed. -/
  | inside (operate : String) (rules : List Rule) (before : List Group) {g g' : Group}
      (after : List Group) (h : Change g g') :
      Change ⟨operate, rules, before ++ g :: after⟩ ⟨operate, rules, before ++ g' :: after⟩

/-- **A change keeps the clauses.** -/
theorem Change.clauses_eq {g g' : Group} (h : Change g g') : g.clauses = g'.clauses := by
  induction h with
  | dropRule operate before r after groups dead =>
      rw [clauses_node, clauses_node, List.filterMap_append,
        List.filterMap_cons_none (Rule.condition?_of_dead dead), List.filterMap_append]
  | dropGroup operate rules before g after dead =>
      rw [clauses_node, clauses_node, List.flatMap_append, List.flatMap_cons,
        clauses_eq_nil_iff.mpr dead, List.nil_append, List.flatMap_append]
  | splice operate rules before g after dead =>
      rw [clauses_node, clauses_node, List.flatMap_append, List.flatMap_cons,
        clauses_of_dead_rules dead, ← List.flatMap_append, ← List.flatMap_append]
  | unwrap operate g =>
      rw [clauses_node, List.flatMap_singleton]
      rfl
  | inside operate rules before after _ ih =>
      rw [clauses_node, clauses_node, List.flatMap_append, List.flatMap_append,
        List.flatMap_cons, List.flatMap_cons, ih]

/-- Any number of changes, forth and back, keeps the clauses. -/
theorem clauses_eq_of_changes {g g' : Group} (h : Relation.EqvGen Change g g') :
    g.clauses = g'.clauses := by
  induction h with
  | rel _ _ hchange => exact hchange.clauses_eq
  | refl _ => rfl
  | symm _ _ _ ih => exact ih.symm
  | trans _ _ _ _ _ ih ih' => exact ih.trans ih'

/-- A tree with a blank rule, a group whose only rule drops out, and a group in which
nothing survives. -/
def cluttered : Group :=
  ⟨"or", [⟨"a", "equal", "1"⟩, ⟨" ", "less", "2"⟩],
    [⟨"or", [⟨"b", "in", ",,"⟩], [⟨"", [⟨"c", "less", "2"⟩], []⟩]⟩,
      ⟨"and", [], [⟨"or", [⟨"d", "equal", "\t"⟩], []⟩]⟩]⟩

/-- The same tree with a group around it and a list of nothing but commas far
inside. -/
def clutteredElsewhere : Group :=
  ⟨"xor", [],
    [⟨"or", [⟨"a", "equal", "1"⟩], [⟨"", [⟨"b", "in", ","⟩, ⟨"c", "less", "2"⟩], []⟩]⟩]⟩

/-- One of the two groups becomes the other by such changes. -/
theorem changes_cluttered : Relation.EqvGen Change cluttered clutteredElsewhere := by
  have hblank := Change.dropRule "or" [⟨"a", "equal", "1"⟩] ⟨" ", "less", "2"⟩ []
    cluttered.groups (by decide)
  have hdead := Change.dropGroup "or" [⟨"a", "equal", "1"⟩]
    [⟨"or", [⟨"b", "in", ",,"⟩], [⟨"", [⟨"c", "less", "2"⟩], []⟩]⟩]
    ⟨"and", [], [⟨"or", [⟨"d", "equal", "\t"⟩], []⟩]⟩ [] (by decide)
  have hidle := Change.splice "or" [⟨"a", "equal", "1"⟩] []
    ⟨"or", [⟨"b", "in", ",,"⟩], [⟨"", [⟨"c", "less", "2"⟩], []⟩]⟩ [] (by decide)
  have hcommas := Change.inside "or" [⟨"a", "equal", "1"⟩] [] []
    (Change.dropRule "" [] ⟨"b", "in", ","⟩ [⟨"c", "less", "2"⟩] [] (by decide))
  have hwrapped := Change.unwrap "xor"
    ⟨"or", [⟨"a", "equal", "1"⟩], [⟨"", [⟨"b", "in", ","⟩, ⟨"c", "less", "2"⟩], []⟩]⟩
  have hdropped := (Relation.EqvGen.rel _ _ hblank).trans _ _ _ (.rel _ _ hdead)
  have hspliced := hdropped.trans _ _ _ (.rel _ _ hidle)
  have hinserted := hspliced.trans _ _ _ (.symm _ _ (.rel _ _ hcommas))
  exact hinserted.trans _ _ _ (.symm _ _ (.rel _ _ hwrapped))

end Group

namespace Query

/-- **A predicate does not show dead weight.**  Trees that differ in any number of
changes, each made forth or back and at any place, are compiled to the same text
or both to none, for every mapping and mode. -/
theorem compile_eq_of_changes {g g' : Group} (h : Relation.EqvGen Group.Change g g')
    (q : Query) : (q.compile (some g)).1 = (q.compile (some g')).1 := by
  rw [compile_eq, compile_eq]
  show Clause.predicate? q.atom g.clauses = Clause.predicate? q.atom g'.clauses
  rw [Group.clauses_eq_of_changes h]

/-- Both groups are compiled to the same text, that of the two rules that survive. -/
theorem compile_eq_of_changes_cluttered :
    Relation.EqvGen Group.Change .cluttered .clutteredElsewhere ∧
    (∀ q : Query, (q.compile (some .cluttered)).1 =
      (q.compile (some .clutteredElsewhere)).1) ∧
    (compile ⟨{}, .verbatim⟩ (some .cluttered)).1 =
      some "((`a` = '1') or (`c` < '2'))".toList :=
  ⟨Group.changes_cluttered, fun q => compile_eq_of_changes Group.changes_cluttered q,
    by decide +kernel⟩

end Query

end QueryFilter
