import Mathlib.Data.List.Forall2
import QueryFilter.Query

/-!
# The effect of a query on its filter

Compiling and selecting write into the filter they are given.  What they leave
is compared here with what they were given, place by place: a place is a path of
positions, down from the root, and both trees have the same places.

The operator of a rule is written at most once, and what is written does not
change what the rule says.  So a filter may be asked any number of times, by any
queries, and each of them finds what it would have found in the filter as given.

* `Group.at?_normalize` — normalizing works at every place alike;
* `Query.leaves_settled` — the tree left is the one settled tree, whatever the
  query is;
* `Call.perform_after` — a call on what another call left comes to the same;
* `Call.trace_eq_fresh` — so all calls of a run are as if each were the first.
-/

namespace QueryFilter

/-! ## What is left -/

namespace Rule

/-- Whether a rule is still to be given an operator: it names none of the table,
and neither its field nor its value is blank. -/
def Unsettled (r : Rule) : Prop :=
  (∀ op : Operator, r.operator ≠ op.token) ∧
    Text.trim r.field.toList ≠ [] ∧ Text.trim r.value.toList ≠ []

/-- Whether `left` is what should be left of `r`: the operator is `equal` if none
was settled, and everything else is as it was. -/
structure Settled (r left : Rule) : Prop where
  field : left.field = r.field
  value : left.value = r.value
  replaced : r.Unsettled → left.operator = Operator.equal.token
  kept : ¬r.Unsettled → left.operator = r.operator

/-- A rule names no operator exactly if its text is no token. -/
theorem operator?_eq_none_iff {r : Rule} :
    r.operator? = none ↔ ∀ op : Operator, r.operator ≠ op.token := by
  rw [operator?, Option.eq_none_iff_forall_ne_some]
  constructor
  · intro h op heq
    exact h op (Operator.ofToken?_eq_some_iff.mpr heq)
  · intro h op hsome
    exact h op (Operator.ofToken?_eq_some_iff.mp hsome)

/-- The test for giving a rule an operator. -/
theorem unsettled_iff {r : Rule} : r.Unsettled ↔ (r.isBlank || r.operator?.isSome) = false := by
  rw [Unsettled, ← operator?_eq_none_iff, Bool.or_eq_false_iff, and_comm]
  simp [isBlank]

/-- A normalized rule is what a rule settles to. -/
theorem settled_normalize (r : Rule) : r.Settled r.normalize where
  field := r.field_normalize
  value := r.value_normalize
  replaced h := by
    rw [unsettled_iff] at h
    rw [normalize, h]
    rfl
  kept h := by
    rw [unsettled_iff, Bool.not_eq_false] at h
    rw [normalize, if_pos h]

/-- Only one rule can be left of a rule. -/
theorem rightUnique_settled : Relator.RightUnique Settled := by
  intro r a b ha hb
  have hoperator : a.operator = b.operator := by
    by_cases h : r.Unsettled
    · rw [ha.replaced h, hb.replaced h]
    · rw [ha.kept h, hb.kept h]
  cases a
  cases b
  rw [Rule.mk.injEq]
  exact ⟨ha.field.trans hb.field.symm, hoperator, ha.value.trans hb.value.symm⟩

end Rule

namespace Group

/-- The group at a place: each step of the path goes to a nested group. -/
def at? : Group → List Nat → Option Group
  | g, [] => some g
  | g, i :: path => g.groups[i]?.bind fun inner => at? inner path

/-- Whether the node `left` has what should be left of the node `g`: the same
text of its combinator, as many nested groups, and the settled rules in their
order. -/
structure NodeSettled (g left : Group) : Prop where
  operate : left.operate = g.operate
  rules : List.Forall₂ Rule.Settled g.rules left.rules
  groups : left.groups.length = g.groups.length

/-- Whether `left` is what should be left of `g`: it has the same places, and its
node at each of them is settled. -/
def Settled (g left : Group) : Prop :=
  ∀ path, Option.Rel NodeSettled (g.at? path) (left.at? path)

/-- Normalizing leaves the text of the combinator as it is. -/
@[simp] theorem operate_normalize (g : Group) : g.normalize.operate = g.operate := by
  cases g
  rfl

/-- Normalizing a tree normalizes its own rules one by one. -/
@[simp] theorem rules_normalize (g : Group) :
    g.normalize.rules = g.rules.map Rule.normalize := by
  cases g
  rfl

/-- Normalizing a tree normalizes its nested groups one by one. -/
@[simp] theorem groups_normalize (g : Group) :
    g.normalize.groups = g.groups.map normalize := by
  cases g
  exact normalizeAll_eq_map _

/-- **Normalizing works at every place alike.** -/
theorem at?_normalize (path : List Nat) (g : Group) :
    g.normalize.at? path = (g.at? path).map normalize := by
  induction path generalizing g with
  | nil => rfl
  | cons i path ih =>
      rw [at?, at?, groups_normalize, List.getElem?_map]
      cases g.groups[i]? with
      | none => rfl
      | some inner => exact ih inner

/-- At its root a normalized tree is what a tree settles to. -/
theorem nodeSettled_normalize (g : Group) : g.NodeSettled g.normalize where
  operate := g.operate_normalize
  rules := by
    rw [rules_normalize, List.forall₂_map_right_iff, List.forall₂_same]
    exact fun r _ => r.settled_normalize
  groups := by rw [groups_normalize, List.length_map]

/-- Only one list of rules can be left at a node. -/
theorem NodeSettled.rules_eq {g a b : Group} (ha : g.NodeSettled a) (hb : g.NodeSettled b) :
    a.rules = b.rules :=
  Rule.rightUnique_settled.forall₂ ha.rules hb.rules

/-- At every place a normalized tree is what a tree settles to. -/
theorem settled_normalize (g : Group) : g.Settled g.normalize := by
  intro path
  rw [at?_normalize]
  cases g.at? path with
  | none => exact .none
  | some node => exact .some node.nodeSettled_normalize

/-- The root of a settled tree. -/
theorem Settled.root {g left : Group} (h : g.Settled left) : g.NodeSettled left := by
  cases h [] with
  | some hroot => exact hroot

/-- Nested groups at the same position are settled as trees. -/
theorem Settled.inner {g left : Group} (h : g.Settled left) {i : Nat} {a b : Group}
    (ha : g.groups[i]? = some a) (hb : left.groups[i]? = some b) : a.Settled b := by
  intro path
  have hpath := h (i :: path)
  rw [at?, at?, ha, hb] at hpath
  exact hpath

/-- **Only the normalized tree is settled.** -/
theorem Settled.eq_normalize {g left : Group} (h : g.Settled left) : left = g.normalize := by
  induction g using Group.induct generalizing left with
  | node operate rules groups ih =>
      -- a settled rule is determined; nested groups are, by induction
      have hrules : left.rules = rules.map Rule.normalize := by
        rw [h.root.rules_eq (nodeSettled_normalize _), rules_normalize]
      have hgroups : left.groups = groups.map normalize := by
        have hlength : left.groups.length = groups.length := h.root.groups
        refine List.ext_getElem (by rw [List.length_map, hlength]) fun i hleft hmap => ?_
        have hi : i < groups.length := hlength ▸ hleft
        rw [List.getElem_map]
        exact ih _ (List.getElem_mem hi)
          (h.inner (List.getElem?_eq_getElem hi) (List.getElem?_eq_getElem hleft))
      have hoperate : left.operate = operate := h.root.operate
      cases left
      rw [normalize, normalizeAll_eq_map, Group.mk.injEq]
      exact ⟨hoperate, hrules, hgroups⟩

end Group

/-- **What a query leaves.**  For each tree there is one settled tree and no other,
and this is what compiling and selecting leave, for every mapping and mode. -/
theorem Query.leaves_settled (g : Group) :
    ∃ left, g.Settled left ∧ (∀ other, g.Settled other → other = left) ∧
      ∀ q : Query, (q.compile (some g)).2 = some left ∧ (q.select (some g)).2 = some left := by
  refine ⟨g.normalize, g.settled_normalize, fun other h => h.eq_normalize, fun q => ?_⟩
  rw [q.compile_eq, q.select_eq]
  exact ⟨rfl, rfl⟩

/-! ## Many calls on one filter -/

/-- A call that is made on a filter. -/
inductive Call where
  | compile (q : Query)
  | select (q : Query)

/-- What is returned by a call. -/
inductive Answer where
  | predicate (text? : Option (List Char))
  | statement (text : List Char)
deriving DecidableEq, Repr

namespace Call

/-- Makes a call: the answer, and the filter as it is left. -/
def perform : Call → Option Group → Answer × Option Group
  | compile q, filter => (.predicate (q.compile filter).1, (q.compile filter).2)
  | select q, filter => (.statement (q.select filter).1, (q.select filter).2)

/-- Makes some calls one after another on the same filter: what comes of each. -/
def trace : List Call → Option Group → List (Answer × Option Group)
  | [], _ => []
  | c :: cs, filter =>
      let outcome := c.perform filter
      outcome :: trace cs outcome.2

/-- What a call leaves does not depend on the call. -/
theorem perform_snd (c : Call) (filter : Option Group) :
    (c.perform filter).2 = filter.map Group.normalize := by
  cases c with
  | compile q => rw [perform, q.compile_eq]
  | select q => rw [perform, q.select_eq]

/-- What comes of a call on a filter that was normalized before. -/
theorem perform_normalize (c : Call) (filter : Option Group) :
    c.perform (filter.map Group.normalize) = c.perform filter := by
  have hagain : (filter.map Group.normalize).map Group.normalize =
      filter.map Group.normalize := by
    cases filter with
    | none => rfl
    | some g => exact congrArg some g.normalize_normalize
  cases c with
  | compile q =>
      rw [perform, perform, q.compile_eq, q.compile_eq, q.predicate?_normalize, hagain]
  | select q =>
      rw [perform, perform, q.select_eq, q.select_eq, q.predicate?_normalize, hagain]

/-- **A call on what another call left** comes to the same as on the filter as
given. -/
theorem perform_after (first c : Call) (filter : Option Group) :
    c.perform (first.perform filter).2 = c.perform filter := by
  rw [perform_snd, perform_normalize]

/-- A run of calls is as many calls on the filter as given. -/
theorem trace_eq_map (calls : List Call) (filter : Option Group) :
    trace calls filter = calls.map fun c => c.perform filter := by
  induction calls generalizing filter with
  | nil => rfl
  | cons c cs ih =>
      have hrest : cs.map (fun d => d.perform (c.perform filter).2) =
          cs.map fun d => d.perform filter :=
        List.map_congr_left fun d _ => perform_after c d filter
      rw [trace, ih, hrest, List.map_cons]

/-- **Every call of a run is as if it were the first**: it returns and leaves what
it would on a copy of the filter as given.  And what the first call left is what
stands after each of them. -/
theorem trace_eq_fresh (calls : List Call) (filter : Option Group) :
    trace calls filter = calls.map (fun c => c.perform filter) ∧
      ∀ first ∈ calls.head?, ∀ outcome ∈ trace calls filter,
        outcome.2 = (first.perform filter).2 := by
  refine ⟨trace_eq_map calls filter, ?_⟩
  intro first _ outcome houtcome
  rw [trace_eq_map] at houtcome
  obtain ⟨c, -, rfl⟩ := List.mem_map.mp houtcome
  rw [perform_snd, perform_snd]

end Call

end QueryFilter
