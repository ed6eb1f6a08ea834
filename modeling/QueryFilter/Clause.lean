import QueryFilter.Condition

/-!
# Clauses

What is left of a group, once rules have dropped out, is a list of clauses.  A
group whose own rules all dropped out adds no clause of its own: the clauses
of its nested groups take its place.  So a clause is either the conjunction of
some conditions, or such a conjunction joined with the clauses nested below it.

The clauses of a list are conjoined without parentheses, also behind an `or`:
`and` binds tighter, so the text still means what the tree means.

* `Group.clauses_normalize` — normalizing a tree does not change its clauses.
-/

namespace QueryFilter

/-- A part of a predicate with its own parentheses. -/
inductive Clause where
  /-- The conjunction of the conditions. -/
  | all (own : List Condition)
  /-- The conjunction of the conditions, joined with that of the clauses. -/
  | joined (own : List Condition) (op : Combinator) (nested : List Clause)
deriving Repr

namespace Clause

/-- The clauses of a group with these conditions of its own and these clauses
nested in it. -/
def combine (own : List Condition) (op : Combinator) (nested : List Clause) : List Clause :=
  match own, nested with
  | [], nested => nested
  | own, [] => [all own]
  | own, nested => [joined own op nested]

/-- Texts with `and` between them. -/
def conjoin (texts : List (List Char)) : List Char := " and ".toList.intercalate texts

/-- A text in parentheses. -/
def parens (s : List Char) : List Char := "(".toList ++ s ++ ")".toList

/-- The conjunction of some conditions, each written by `atom`. -/
def ownText (atom : Condition → List Char) (own : List Condition) : List Char :=
  parens (conjoin (own.map atom))

mutual

/-- A clause with each condition written by `atom`. -/
def text (atom : Condition → List Char) : Clause → List Char
  | all own => ownText atom own
  | joined own op nested =>
      parens (ownText atom own ++ " ".toList ++ op.sql.toList ++ " ".toList ++
        conjoin (texts atom nested))

/-- Each clause of a list with its conditions written by `atom`. -/
def texts (atom : Condition → List Char) : List Clause → List (List Char)
  | [] => []
  | c :: cs => text atom c :: texts atom cs

end

@[simp] theorem texts_eq_map (atom : Condition → List Char) (cs : List Clause) :
    texts atom cs = cs.map (text atom) := by
  induction cs with
  | nil => rfl
  | cons c cs ih => simp [texts, ih]

/-- The predicate that a list of clauses makes; there is none without a clause. -/
def predicate? (atom : Condition → List Char) : List Clause → Option (List Char)
  | [] => none
  | cs => some (conjoin (texts atom cs))

/-- There is a predicate if there are clauses, and only then. -/
theorem predicate?_eq_none_iff {atom : Condition → List Char} {cs : List Clause} :
    predicate? atom cs = none ↔ cs = [] := by
  cases cs <;> simp [predicate?]

end Clause

namespace Group

mutual

/-- The clauses a group leaves. -/
def clauses : Group → List Clause
  | ⟨operate, rules, groups⟩ =>
      Clause.combine (rules.filterMap Rule.condition?) (Combinator.ofText operate)
        (clausesAll groups)

/-- The clauses that some groups leave, one group after another. -/
def clausesAll : List Group → List Clause
  | [] => []
  | g :: gs => g.clauses ++ clausesAll gs

end

@[simp] theorem clausesAll_eq_flatMap (gs : List Group) :
    clausesAll gs = gs.flatMap clauses := by
  induction gs with
  | nil => rfl
  | cons g gs ih => simp [clausesAll, ih]

/-- The predicate of a group, with each condition written by `atom`. -/
def predicate? (atom : Condition → List Char) (g : Group) : Option (List Char) :=
  Clause.predicate? atom g.clauses

/-- **Normalizing a tree does not change its clauses.** -/
@[simp] theorem clauses_normalize (g : Group) : g.normalize.clauses = g.clauses := by
  induction g using Group.induct with
  | node operate rules groups ih =>
      have hgroups : clausesAll (normalizeAll groups) = clausesAll groups := by
        induction groups with
        | nil => rfl
        | cons g gs ihs =>
            rw [normalizeAll, clausesAll, clausesAll, ih g List.mem_cons_self,
              ihs fun h hh => ih h (List.mem_cons_of_mem _ hh)]
      rw [normalize, clauses, clauses, List.filterMap_map, Rule.condition?_comp_normalize,
        hgroups]

/-- Normalizing a tree does not change its predicate. -/
@[simp] theorem predicate?_normalize (atom : Condition → List Char) (g : Group) :
    g.normalize.predicate? atom = g.predicate? atom := by
  rw [predicate?, predicate?, clauses_normalize]

end Group

end QueryFilter
