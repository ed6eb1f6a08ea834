import QueryFilter.Operator

/-!
# Filter groups

A filter is a tree.  A rule compares a field with a value, and a group holds
rules, nested groups, and the text of the combinator that joins the two.  The
texts are kept as they were given: what they mean is decided when a predicate
is made.

Making a predicate has one effect on the tree, `normalize`: a rule that counts
but names no operator of the table is given the operator `equal`.

* `Group.induct` — induction over a group and all groups inside it;
* `Rule.operator?_normalize` — after it, a rule that counts has an operator;
* `Rule.normalize_normalize` — and a second time changes nothing.
-/

namespace QueryFilter

/-- One comparison, as given. -/
structure Rule where
  field : String := ""
  operator : String := ""
  value : String := ""
deriving DecidableEq, Repr, Inhabited

/-- A node of a filter tree, as given. -/
structure Group where
  operate : String := ""
  rules : List Rule := []
  groups : List Group := []
deriving Repr, Inhabited

namespace Rule

/-- The rule that compares `field` by `op` with `value`. -/
def comparing (field : String) (op : Operator) (value : String) : Rule :=
  ⟨field, op.token, value⟩

/-- The operator a rule names. -/
def operator? (r : Rule) : Option Operator := Operator.ofToken? r.operator

/-- The operator a rule is compiled with. -/
def effective (r : Rule) : Operator := r.operator?.getD .equal

/-- A rule with a token asks for its operator. -/
theorem effective_of_token {r : Rule} {op : Operator} (h : r.operator = op.token) :
    r.effective = op := by
  rw [effective, operator?, h, Operator.ofToken?_token, Option.getD_some]

/-- Whether the field or the value of a rule is blank, so that it does not
count. -/
def isBlank (r : Rule) : Bool :=
  (Text.trim r.field.toList).isEmpty || (Text.trim r.value.toList).isEmpty

/-- A rule that counts, with `equal` in the place of an unknown operator. -/
def normalize (r : Rule) : Rule :=
  if r.isBlank || r.operator?.isSome then r
  else { r with operator := Operator.equal.token }

/-- Normalizing leaves the field as it is. -/
@[simp] theorem field_normalize (r : Rule) : r.normalize.field = r.field := by
  unfold normalize
  split <;> rfl

/-- Normalizing leaves the value as it is. -/
@[simp] theorem value_normalize (r : Rule) : r.normalize.value = r.value := by
  unfold normalize
  split <;> rfl

/-- Normalizing makes no rule count that did not. -/
@[simp] theorem isBlank_normalize (r : Rule) : r.normalize.isBlank = r.isBlank := by
  simp [isBlank]

/-- **A rule that counts ends with the operator it is compiled with.** -/
theorem operator?_normalize {r : Rule} (h : r.isBlank = false) :
    r.normalize.operator? = some r.effective := by
  unfold normalize effective
  cases hop : r.operator? with
  | none => simp [h, operator?]
  | some op => simp [hop]

/-- A rule is normalized once and for all. -/
theorem normalize_normalize (r : Rule) : r.normalize.normalize = r.normalize := by
  cases hb : r.isBlank with
  | true => simp [normalize, hb]
  | false =>
      have hop := operator?_normalize hb
      rw [normalize]
      simp [hop]

end Rule

namespace Group

/-- The group joined by `c`, without rules and groups. -/
def joinedBy (c : Combinator) : Group := { operate := c.operator.token }

/-- The group with one more rule. -/
def withRule (g : Group) (r : Rule) : Group := { g with rules := g.rules ++ [r] }

/-- The group with one more nested group. -/
def withGroup (g inner : Group) : Group := { g with groups := g.groups ++ [inner] }

/-- Whether a group has neither rules nor groups. -/
def isEmpty (g : Group) : Bool := g.rules.isEmpty && g.groups.isEmpty

/-- How a group joins its rules with its nested groups. -/
def combinator (g : Group) : Combinator := Combinator.ofText g.operate

/-- **Induction over a tree of groups.** -/
theorem induct {P : Group → Prop}
    (node : ∀ operate rules groups, (∀ g ∈ groups, P g) → P ⟨operate, rules, groups⟩)
    (g : Group) : P g :=
  Group.rec (motive_1 := P) (motive_2 := fun gs => ∀ g ∈ gs, P g)
    (fun operate rules groups ih => node operate rules groups ih)
    (fun _ h => nomatch h)
    (fun _ _ hg hgs h hmem => (List.mem_cons.mp hmem).elim (fun e => e ▸ hg) (hgs h))
    g

mutual

/-- Whether two trees are the same. -/
def decEq : (a b : Group) → Decidable (a = b)
  | ⟨o₁, rs₁, gs₁⟩, ⟨o₂, rs₂, gs₂⟩ =>
      if ho : o₁ = o₂ then
        if hr : rs₁ = rs₂ then
          match decEqAll gs₁ gs₂ with
          | isTrue hg => isTrue (by rw [ho, hr, hg])
          | isFalse hg => isFalse fun h => hg (Group.mk.inj h).2.2
        else isFalse fun h => hr (Group.mk.inj h).2.1
      else isFalse fun h => ho (Group.mk.inj h).1

/-- Whether two lists of trees are the same. -/
def decEqAll : (as bs : List Group) → Decidable (as = bs)
  | [], [] => isTrue rfl
  | [], _ :: _ => isFalse nofun
  | _ :: _, [] => isFalse nofun
  | a :: as, b :: bs =>
      match decEq a b with
      | isTrue ha =>
          match decEqAll as bs with
          | isTrue hs => isTrue (by rw [ha, hs])
          | isFalse hs => isFalse fun h => hs (List.cons.inj h).2
      | isFalse ha => isFalse fun h => ha (List.cons.inj h).1

end

instance : DecidableEq Group := decEq

mutual

/-- The tree with every rule normalized. -/
def normalize : Group → Group
  | ⟨operate, rules, groups⟩ => ⟨operate, rules.map Rule.normalize, normalizeAll groups⟩

/-- The trees with every rule normalized. -/
def normalizeAll : List Group → List Group
  | [] => []
  | g :: gs => g.normalize :: normalizeAll gs

end

@[simp] theorem normalizeAll_eq_map (gs : List Group) :
    normalizeAll gs = gs.map normalize := by
  induction gs with
  | nil => rfl
  | cons g gs ih => simp [normalizeAll, ih]

/-- A second normalization changes nothing. -/
theorem normalize_normalize (g : Group) : g.normalize.normalize = g.normalize := by
  induction g using Group.induct with
  | node operate rules groups ih =>
      have hrules : rules.map (Rule.normalize ∘ Rule.normalize) = rules.map Rule.normalize :=
        List.map_congr_left fun r _ => by rw [Function.comp_apply, r.normalize_normalize]
      have hgroups : groups.map (normalize ∘ normalize) = groups.map normalize :=
        List.map_congr_left fun g hg => by rw [Function.comp_apply, ih g hg]
      simp only [normalize, normalizeAll_eq_map, List.map_map, hrules, hgroups]

end Group

end QueryFilter
