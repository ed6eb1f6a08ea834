import QueryFilter.Clause

/-!
# Settling a group

A group is compiled in one pass.  Each rule is settled on its own: its operator
is decided, and put into its place if the rule named none of the table, and its
condition goes into the clauses.  Nested groups are settled in order, whether or
not anything of them survives.

The pass has two results, and each of them is a function of the tree alone:

* `settle_eq` — the tree it leaves is the normalized tree, and the clauses it finds are
  the clauses of the tree.
-/

namespace QueryFilter

/-- Decides a rule: the rule as it is left, and its condition. -/
def Rule.settle (r : Rule) : Rule × Option Condition :=
  let field := Text.trim r.field.toList
  let value := Text.trim r.value.toList
  if field = [] ∨ value = [] then (r, none) else
    match r.operator? with
    | some op => (r, (op.operand? value).map fun operand => ⟨field, op, operand⟩)
    | none =>
        ({ r with operator := Operator.equal.token },
          (Operator.equal.operand? value).map fun operand => ⟨field, .equal, operand⟩)

/-- A rule is blank if its field or its value is. -/
theorem Rule.isBlank_eq_true_iff {r : Rule} :
    r.isBlank = true ↔ Text.trim r.field.toList = [] ∨ Text.trim r.value.toList = [] := by
  simp [isBlank]

/-- Settling a rule normalizes it and finds its condition. -/
theorem Rule.settle_eq (r : Rule) : r.settle = (r.normalize, r.condition?) := by
  unfold settle normalize condition? effective
  by_cases hb : r.isBlank = true
  · simp [isBlank_eq_true_iff.mp hb, hb]
  · have hcounts : ¬(Text.trim r.field.toList = [] ∨ Text.trim r.value.toList = []) :=
      fun h => hb (isBlank_eq_true_iff.mpr h)
    rw [if_neg hcounts]
    cases hop : r.operator? <;> simp [hb]

namespace Group

mutual

/-- Settles every rule of a tree: the tree as it is left, and its clauses. -/
def settle : Group → Group × List Clause
  | ⟨operate, rules, groups⟩ =>
      let own := rules.map Rule.settle
      let nested := settleAll groups
      (⟨operate, own.map Prod.fst, nested.map Prod.fst⟩,
        Clause.combine (own.filterMap Prod.snd) (Combinator.ofText operate)
          (nested.flatMap Prod.snd))

/-- Settles some trees in order. -/
def settleAll : List Group → List (Group × List Clause)
  | [] => []
  | g :: gs => g.settle :: settleAll gs

end

@[simp] theorem settleAll_eq_map (gs : List Group) : settleAll gs = gs.map settle := by
  induction gs with
  | nil => rfl
  | cons g gs ih => simp [settleAll, ih]

/-- **The pass leaves the normalized tree and finds the clauses.** -/
theorem settle_eq (g : Group) : g.settle = (g.normalize, g.clauses) := by
  induction g using Group.induct with
  | node operate rules groups ih =>
      have hown : rules.map Rule.settle = rules.map fun r => (r.normalize, r.condition?) :=
        List.map_congr_left fun r _ => r.settle_eq
      have hnested : settleAll groups = groups.map fun g => (g.normalize, g.clauses) := by
        rw [settleAll_eq_map]
        exact List.map_congr_left ih
      have hnormalize : normalizeAll groups = groups.map fun g => g.normalize :=
        normalizeAll_eq_map groups
      have hclauses : clausesAll groups = groups.flatMap fun g => g.clauses :=
        clausesAll_eq_flatMap groups
      rw [settle, normalize, clauses, hown, hnested, hnormalize, hclauses, List.map_map,
        List.map_map, List.filterMap_map, List.flatMap_map]
      rfl

end Group

end QueryFilter
