import QueryFilter.Query

/-!
# Rules that survive

A rule survives compiling unless its field or its value is blank, or it asks
for membership in a list of nothing but commas.  `Survives` says so of the rule
as given, and `condition` is what a surviving rule says; the compiler's own test
is then one equation.

The rules of a tree are counted in the order of the text: the rules of a group,
then those of its nested groups, one group after another.

* `Rule.condition?_eq` — exactly the surviving rules have a condition;
* `Group.survivors_node` — the survivors of a group are its own and then those
  of the groups inside it.
-/

namespace QueryFilter

namespace Rule

/-- Whether a rule counts: its field and its value are not blank, and it does
not ask for membership in a list of nothing but commas. -/
def Survives (r : Rule) : Prop :=
  Text.trim r.field.toList ≠ [] ∧ Text.trim r.value.toList ≠ [] ∧
    ¬(r.operator? = some .memberOf ∧
      ∀ c ∈ Text.trim r.value.toList, c = Condition.delimiter)

instance : DecidablePred Survives := fun r =>
  have : Decidable (∀ c ∈ Text.trim r.value.toList, c = Condition.delimiter) :=
    List.decidableBAll _ _
  inferInstanceAs (Decidable (_ ∧ _ ∧ ¬(_ ∧ _)))

/-- A trimmed field is not blank, either. -/
theorem Survives.trim_field_ne_nil {r : Rule} (h : r.Survives) :
    Text.trim (Text.trim r.field.toList) ≠ [] :=
  fun hnil => h.1 (Text.strip_strip_eq_nil_iff.mp hnil)

/-- The text a rule compares with: the members of a list without the commas
around them, and else the trimmed value with the wildcards of the operator. -/
def operand (r : Rule) : List Char :=
  match r.effective with
  | .memberOf => Text.strip (· == Condition.delimiter) (Text.trim r.value.toList)
  | op => op.decorate (Text.trim r.value.toList)

/-- What a rule says if it counts. -/
def condition (r : Rule) : Condition := ⟨Text.trim r.field.toList, r.effective, r.operand⟩

/-- Membership is asked only where it is named. -/
theorem effective_eq_memberOf_iff {r : Rule} :
    r.effective = .memberOf ↔ r.operator? = some .memberOf := by
  unfold effective
  cases r.operator? <;> simp

/-- Every operator but membership leaves something to compare with. -/
theorem operand?_effective {r : Rule} (h : r.effective ≠ .memberOf) :
    r.effective.operand? (Text.trim r.value.toList) = some r.operand := by
  unfold operand
  cases hop : r.effective <;> first | exact absurd hop h | rfl

/-- A list value of nothing but commas leaves nothing to compare with. -/
theorem operand?_memberOf {r : Rule} (h : r.effective = .memberOf) :
    r.effective.operand? (Text.trim r.value.toList) =
      if r.operand = [] then none else some r.operand := by
  simp only [operand, h, Operator.operand?]

/-- Membership leaves nothing exactly if the value is made of delimiters. -/
theorem operand_eq_nil_iff {r : Rule} (h : r.effective = .memberOf) :
    r.operand = [] ↔ ∀ c ∈ Text.trim r.value.toList, c = Condition.delimiter := by
  simp [operand, h, Text.strip_eq_nil_iff]

/-- **Exactly the surviving rules have a condition.** -/
theorem condition?_eq (r : Rule) :
    r.condition? = if r.Survives then some r.condition else none := by
  unfold condition?
  by_cases hb : r.isBlank = true
  · have hdead : ¬r.Survives := by
      rintro ⟨hfield, hvalue, -⟩
      rcases isBlank_eq_true_iff.mp hb with h | h
      · exact hfield h
      · exact hvalue h
    rw [if_pos hb, if_neg hdead]
  · have hfull : Text.trim r.field.toList ≠ [] ∧ Text.trim r.value.toList ≠ [] := by
      rw [isBlank_eq_true_iff] at hb
      exact not_or.mp hb
    rw [if_neg hb]
    by_cases hop : r.effective = .memberOf
    · rw [operand?_memberOf hop]
      have hnil := operand_eq_nil_iff hop
      by_cases hall : ∀ c ∈ Text.trim r.value.toList, c = Condition.delimiter
      · have hdead : ¬r.Survives := fun h =>
          h.2.2 ⟨effective_eq_memberOf_iff.mp hop, hall⟩
        rw [if_pos (hnil.mpr hall), if_neg hdead]
        rfl
      · have hlive : r.Survives := ⟨hfull.1, hfull.2, fun h => hall h.2⟩
        rw [if_neg (mt hnil.mp hall), if_pos hlive]
        rfl
    · have hlive : r.Survives :=
        ⟨hfull.1, hfull.2, fun h => hop (effective_eq_memberOf_iff.mpr h.1)⟩
      rw [operand?_effective hop, if_pos hlive]
      rfl

/-- The conditions of some rules are those of the surviving ones. -/
theorem filterMap_condition? (rs : List Rule) :
    rs.filterMap condition? = (rs.filter fun r => r.Survives).map condition := by
  induction rs with
  | nil => rfl
  | cons r rs ih =>
      rw [List.filterMap_cons, condition?_eq, ih]
      by_cases h : r.Survives
      · simp [h]
      · simp [h]

end Rule

namespace Group

mutual

/-- All rules of a tree, in the order of the text. -/
def everyRule : Group → List Rule
  | ⟨_, rules, groups⟩ => rules ++ everyRuleAll groups

/-- All rules of some trees, one tree after another. -/
def everyRuleAll : List Group → List Rule
  | [] => []
  | g :: gs => g.everyRule ++ everyRuleAll gs

end

/-- The rules of a tree that survive, in the order of the text. -/
def survivors (g : Group) : List Rule := g.everyRule.filter fun r => r.Survives

/-- The surviving rules of a tree are those of its rules that survive. -/
theorem mem_survivors {g : Group} {r : Rule} :
    r ∈ g.survivors ↔ r ∈ g.everyRule ∧ r.Survives := by
  simp [survivors]

/-- The surviving rules of a tree are its own and then those of its nested groups. -/
theorem survivors_node (operate : String) (rules : List Rule) (groups : List Group) :
    survivors ⟨operate, rules, groups⟩ =
      (rules.filter fun r => r.Survives) ++ groups.flatMap survivors := by
  have hall : ∀ gs : List Group,
      (everyRuleAll gs).filter (fun r => r.Survives) = gs.flatMap survivors := by
    intro gs
    induction gs with
    | nil => rfl
    | cons g gs ih => rw [everyRuleAll, List.filter_append, ih, List.flatMap_cons, survivors]
  rw [survivors, everyRule, List.filter_append, hall]

/-- In a tree without nested groups the surviving rules are its own. -/
theorem survivors_of_flat {g : Group} (hflat : g.groups = []) :
    g.survivors = g.rules.filter fun r => r.Survives := by
  obtain ⟨operate, rules, groups⟩ := g
  cases hflat
  rw [survivors_node, List.flatMap_nil, List.append_nil]

/-- One more rule is one more survivor, if it survives. -/
theorem survivors_withRule_of_flat {g : Group} (hflat : g.groups = []) (r : Rule) :
    (g.withRule r).survivors = g.survivors ++ if r.Survives then [r] else [] := by
  have hflat' : (g.withRule r).groups = [] := hflat
  rw [survivors_of_flat hflat', survivors_of_flat hflat, withRule, List.filter_append]
  by_cases h : r.Survives <;> simp [h]

end Group

end QueryFilter
