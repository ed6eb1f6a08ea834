import QueryFilter.Proofs.DeadWeight
import QueryFilter.Proofs.Effect

/-!
# Trees in another spelling

A filter is given in texts, and these may come with blanks around them, and the text of a
combinator in any letter case.  `Group.Respelled` says that a tree is another one in such a
spelling: blanks were put around the field and the value of any rule and around the text of any
group's combinator, and letters of that text were put in the other case.  A text that is blank
throughout may get more blanks, too.

Nothing but the trimmed texts is ever looked at.  So a rule in another spelling is still blank or
still counts, and has the same condition; a group has the same combinator; and a tree, from its
innermost groups outwards, leaves the same clauses.  The operator of a rule is no part of the
spelling, and whether it is replaced hangs on nothing that is.

* `Rule.Padded.condition?_eq` — blanks do not change what a rule says;
* `Text.Respelled.ofText_eq` — blanks and letter case do not change a combinator;
* `Group.Respelled.induct` — induction over two trees at once;
* `Group.Respelled.clauses_eq`, `Group.Respelled.normalize` — what is found in a tree is the same,
  and what is left of it is again the other in that spelling;
* `Group.rewritten_normalize_iff` — the rules in which an operator is replaced;
* `Query.alike_of_respelled` — the texts that are made from both are the same, and so are the
  rules in which an operator is replaced.
-/

namespace QueryFilter

/-! ## Texts -/

namespace Text

/-- Whether `t` is `s` with blanks in front of it and behind it. -/
def Padded (s t : String) : Prop :=
  ∃ front back : List Char, (∀ c ∈ front, isBlank c = true) ∧ (∀ c ∈ back, isBlank c = true) ∧
    t.toList = front ++ s.toList ++ back

/-- Whether `t` is `s` with some letters of it in the other case. -/
def Recased (s t : String) : Prop := t.toList.map Char.toLower = s.toList.map Char.toLower

instance (s t : String) : Decidable (Recased s t) := inferInstanceAs (Decidable (_ = _))

/-- Whether `t` is `s` in other letter case and with blanks around it. -/
def Respelled (s t : String) : Prop := ∃ m, Recased s m ∧ Padded m t

variable {s t : String}

/-- Blanks in front and behind pad a text. -/
theorem padded_of_all (front back : List Char) (hfront : front.all isBlank = true)
    (hback : back.all isBlank = true) (h : t.toList = front ++ s.toList ++ back) : Padded s t :=
  ⟨front, back, List.all_eq_true.mp hfront, List.all_eq_true.mp hback, h⟩

/-- A padded text is the same when it is trimmed. -/
theorem Padded.trim_eq (h : Padded s t) : trim t.toList = trim s.toList := by
  obtain ⟨front, back, hfront, hback, ht⟩ := h
  rw [ht, trim_surround hfront hback]

/-- **The combinator is not changed** by blanks and letter case. -/
theorem Respelled.ofText_eq (h : Respelled s t) : Combinator.ofText t = Combinator.ofText s := by
  obtain ⟨m, hcase, hpadded⟩ := h
  have hlower : (trim t.toList).map Char.toLower = (trim s.toList).map Char.toLower := by
    rw [hpadded.trim_eq, ← trim_map_toLower, hcase, trim_map_toLower]
  rw [Combinator.ofText, hlower, Combinator.ofText]

end Text

/-! ## Rules -/

namespace Rule

/-- Whether `r'` is `r` with blanks around its field and its value. -/
structure Padded (r r' : Rule) : Prop where
  field : Text.Padded r.field r'.field
  value : Text.Padded r.value r'.value
  operator : r'.operator = r.operator

variable {r r' : Rule}

/-- A padded rule counts if the rule does. -/
theorem Padded.isBlank_eq (h : r.Padded r') : r'.isBlank = r.isBlank := by
  rw [isBlank, h.field.trim_eq, h.value.trim_eq, isBlank]

/-- A padded rule names the same operator, as its token is not padded. -/
theorem Padded.operator?_eq (h : r.Padded r') : r'.operator? = r.operator? := by
  rw [operator?, h.operator, operator?]

/-- **What a rule says** is not changed by blanks, nor whether it says anything. -/
theorem Padded.condition?_eq (h : r.Padded r') : r'.condition? = r.condition? := by
  have heffective : r'.effective = r.effective := by
    rw [effective, h.operator?_eq, effective]
  rw [condition?, h.isBlank_eq, heffective, h.field.trim_eq, h.value.trim_eq, condition?]

/-- Both rules are given an operator, or none of them is. -/
theorem Padded.normalize (h : r.Padded r') : r.normalize.Padded r'.normalize where
  field := by
    rw [field_normalize, field_normalize]
    exact h.field
  value := by
    rw [value_normalize, value_normalize]
    exact h.value
  operator := by
    unfold Rule.normalize
    rw [h.isBlank_eq, h.operator?_eq]
    split
    · exact h.operator
    · rfl

end Rule

/-! ## Trees -/

section Pairs

variable {ι κ μ : Type*} {R : ι → κ → Prop} {xs : List ι} {ys : List κ}

/-- What is gathered from two lists is the same if it is the same for each pair. -/
theorem flatMap_eq_of_forall₂ {f : ι → List μ} {f' : κ → List μ} (h : List.Forall₂ R xs ys)
    (hf : ∀ x y, R x y → f' y = f x) : ys.flatMap f' = xs.flatMap f := by
  induction h with
  | nil => rfl
  | cons hxy _ ih => rw [List.flatMap_cons, List.flatMap_cons, hf _ _ hxy, ih]

/-- Two lists that are related pairwise are so at every place. -/
theorem getElem?_of_forall₂ (h : List.Forall₂ R xs ys) (i : Nat) :
    Option.Rel R xs[i]? ys[i]? := by
  induction h generalizing i with
  | nil => exact .none
  | cons hxy _ ih =>
      cases i with
      | zero => exact .some hxy
      | succ i => exact ih i

variable {o : Option ι} {o' : Option κ}

/-- Related elements lead on to related ones. -/
theorem bind_of_rel {S : μ → μ → Prop} {f : ι → Option μ} {f' : κ → Option μ}
    (h : Option.Rel R o o') (hf : ∀ x y, R x y → Option.Rel S (f x) (f' y)) :
    Option.Rel S (o.bind f) (o'.bind f') := by
  cases h with
  | none => exact .none
  | some hxy => exact hf _ _ hxy

/-- What is made of related elements is the same if it is so for each pair. -/
theorem map_eq_of_rel {f : ι → μ} {f' : κ → μ} (h : Option.Rel R o o')
    (hf : ∀ x y, R x y → f' y = f x) : o'.map f' = o.map f := by
  cases h with
  | none => rfl
  | some hxy => exact congrArg some (hf _ _ hxy)

end Pairs

namespace Group

/-- Whether the second tree is the first in another spelling: the same rules and groups in the
same order and nesting, with blanks around the texts and any letter case in the combinators. -/
inductive Respelled : Group → Group → Prop where
  | node {operate operate' : String} {rules rules' : List Rule} {groups groups' : List Group}
      (hoperate : Text.Respelled operate operate')
      (hrules : List.Forall₂ Rule.Padded rules rules')
      (hgroups : List.Forall₂ Respelled groups groups') :
      Respelled ⟨operate, rules, groups⟩ ⟨operate', rules', groups'⟩

/-- **Induction over a tree and another spelling of it**: what holds of the nested groups, pair by
pair, is to be carried to the two groups that hold them. -/
theorem Respelled.induct {P : ∀ g g' : Group, g.Respelled g' → Prop}
    (node : ∀ {operate operate' : String} {rules rules' : List Rule} {groups groups' : List Group}
      (hoperate : Text.Respelled operate operate')
      (hrules : List.Forall₂ Rule.Padded rules rules')
      (hgroups : List.Forall₂ Respelled groups groups'),
      List.Forall₂ (fun g g' => ∃ h, P g g' h) groups groups' →
      P ⟨operate, rules, groups⟩ ⟨operate', rules', groups'⟩ (.node hoperate hrules hgroups))
    {g g' : Group} (h : g.Respelled g') : P g g' h :=
  -- the lists of nested groups are the second relation of the recursor
  Respelled.rec (motive_1 := P)
    (motive_2 := fun gs gs' _ => List.Forall₂ (fun g g' => ∃ h, P g g' h) gs gs')
    (fun hoperate hrules hgroups ih => node hoperate hrules hgroups ih)
    .nil (fun h _ ih ihs => .cons ⟨h, ih⟩ ihs) h

variable {g g' : Group}

/-- **The clauses of a tree** are those of any other spelling of it. -/
theorem Respelled.clauses_eq (h : g.Respelled g') : g'.clauses = g.clauses := by
  induction h using Respelled.induct with
  | @node _ _ rules rules' groups groups' hoperate hrules _ ih =>
      have hown : rules'.filterMap Rule.condition? = rules.filterMap Rule.condition? := by
        rw [List.filterMap_eq_flatMap_toList, List.filterMap_eq_flatMap_toList]
        exact flatMap_eq_of_forall₂ hrules fun _ _ hr => congrArg _ hr.condition?_eq
      have hnested : groups'.flatMap clauses = groups.flatMap clauses :=
        flatMap_eq_of_forall₂ ih fun _ _ hg => hg.2
      rw [clauses_node, clauses_node, hown, hoperate.ofText_eq, hnested]

/-- **What is left of a tree** is left of any other spelling of it, in that spelling. -/
theorem Respelled.normalize (h : g.Respelled g') : g.normalize.Respelled g'.normalize := by
  induction h using Respelled.induct with
  | node hoperate hrules _ ih =>
      rw [Group.normalize, Group.normalize, normalizeAll_eq_map, normalizeAll_eq_map]
      refine .node hoperate ?_ ?_
      · rw [List.forall₂_map_left_iff, List.forall₂_map_right_iff]
        exact hrules.imp fun _ _ hr => hr.normalize
      · rw [List.forall₂_map_left_iff, List.forall₂_map_right_iff]
        exact ih.imp fun _ _ hg => hg.2

/-- Both trees have the same places, and the groups there are spelled alike. -/
theorem Respelled.at? (h : g.Respelled g') (path : List Nat) :
    Option.Rel Respelled (g.at? path) (g'.at? path) := by
  induction path generalizing g g' with
  | nil => exact .some h
  | cons i path ih =>
      cases h with
      | node _ _ hgroups => exact bind_of_rel (getElem?_of_forall₂ hgroups i) fun _ _ => ih

/-- The rule at a position in the group at a place. -/
def ruleAt? (g : Group) (path : List Nat) (i : Nat) : Option Rule :=
  (g.at? path).bind fun node => node.rules[i]?

/-- At every place of two such trees stand rules of which one is the other padded. -/
theorem Respelled.ruleAt? (h : g.Respelled g') (path : List Nat) (i : Nat) :
    Option.Rel Rule.Padded (g.ruleAt? path i) (g'.ruleAt? path i) := by
  refine bind_of_rel (h.at? path) fun node node' hnode => ?_
  cases hnode with
  | node _ hrules _ => exact getElem?_of_forall₂ hrules i

/-- Whether the rule there has another operator in `left`, what is left of `g`. -/
def Rewritten (g left : Group) (path : List Nat) (i : Nat) : Prop :=
  (left.ruleAt? path i).map Rule.operator ≠ (g.ruleAt? path i).map Rule.operator

/-- The rule at a place of the normalized tree is the normalized rule. -/
theorem ruleAt?_normalize (g : Group) (path : List Nat) (i : Nat) :
    g.normalize.ruleAt? path i = (g.ruleAt? path i).map Rule.normalize := by
  rw [ruleAt?, ruleAt?, at?_normalize]
  cases g.at? path with
  | none => rfl
  | some node =>
      show node.normalize.rules[i]? = node.rules[i]?.map Rule.normalize
      rw [rules_normalize, List.getElem?_map]

/-- **Exactly the unsettled rules** are left with another operator. -/
theorem rewritten_normalize_iff {path : List Nat} {i : Nat} :
    g.Rewritten g.normalize path i ↔ ∃ r ∈ g.ruleAt? path i, r.Unsettled := by
  rw [Rewritten, ruleAt?_normalize]
  cases g.ruleAt? path i with
  | none => simp
  | some r =>
      have hsettled := r.settled_normalize
      have hoperator : r.normalize.operator ≠ r.operator ↔ r.Unsettled := by
        constructor
        · intro hne
          by_contra hnot
          exact hne (hsettled.kept hnot)
        · intro h
          rw [hsettled.replaced h]
          exact (h.1 .equal).symm
      simpa using hoperator

/-- Operators are no part of the spelling. -/
theorem Respelled.operator_eq (h : g.Respelled g') (path : List Nat) (i : Nat) :
    (g'.ruleAt? path i).map Rule.operator = (g.ruleAt? path i).map Rule.operator :=
  map_eq_of_rel (h.ruleAt? path i) fun _ _ hr => hr.operator

/-- A tree with an unknown operator, a rule with a blank field, and a list between commas. -/
def terse : Group :=
  ⟨"or", [⟨"name", "between", "bob"⟩, ⟨" ", "between", "1"⟩], [⟨"", [⟨"tags", "in", ",a,"⟩], []⟩]⟩

/-- The same tree with blanks around its texts, and with another letter case. -/
def roomy : Group :=
  ⟨"\tOr\u3000", [⟨" name\n", "between", "bob "⟩, ⟨"\u2003 ", "between", "1\r"⟩],
    [⟨" \n", [⟨"tags\t", "in", " ,a, "⟩], []⟩]⟩

/-- The second of the two groups is the first in another spelling. -/
theorem respelled_roomy : terse.Respelled roomy := by
  have hor : Text.Respelled "or" "\tOr\u3000" :=
    ⟨"Or", by decide, Text.padded_of_all ['\t'] ['\u3000'] rfl rfl rfl⟩
  have hnone : Text.Respelled "" " \n" :=
    ⟨"", by decide, Text.padded_of_all [' '] ['\n'] rfl rfl rfl⟩
  have hname : Rule.Padded ⟨"name", "between", "bob"⟩ ⟨" name\n", "between", "bob "⟩ :=
    ⟨Text.padded_of_all [' '] ['\n'] rfl rfl rfl, Text.padded_of_all [] [' '] rfl rfl rfl, rfl⟩
  have hblank : Rule.Padded ⟨" ", "between", "1"⟩ ⟨"\u2003 ", "between", "1\r"⟩ :=
    ⟨Text.padded_of_all ['\u2003'] [] rfl rfl rfl, Text.padded_of_all [] ['\r'] rfl rfl rfl, rfl⟩
  have htags : Rule.Padded ⟨"tags", "in", ",a,"⟩ ⟨"tags\t", "in", " ,a, "⟩ :=
    ⟨Text.padded_of_all [] ['\t'] rfl rfl rfl, Text.padded_of_all [' '] [' '] rfl rfl rfl, rfl⟩
  exact .node hor (.cons hname (.cons hblank .nil))
    (.cons (.node hnone (.cons htags .nil) .nil) .nil)

end Group

namespace Query

/-- **A tree is compiled as in any other spelling.**  For every mapping and mode, the predicate
and the statement are the same for both trees.  The tree left of the one is the tree left of the
other in the same spelling as before, and in both the operator was replaced at the same places:
where the rule of the first tree is unsettled. -/
theorem alike_of_respelled {g g' : Group} (h : g.Respelled g') (q : Query) :
    (q.compile (some g')).1 = (q.compile (some g)).1 ∧
    (q.select (some g')).1 = (q.select (some g)).1 ∧
    ∃ left left', ((q.compile (some g)).2 = some left ∧ (q.select (some g)).2 = some left) ∧
      ((q.compile (some g')).2 = some left' ∧ (q.select (some g')).2 = some left') ∧
      left.Respelled left' ∧
      ∀ path i, (g.Rewritten left path i ↔ ∃ r ∈ g.ruleAt? path i, r.Unsettled) ∧
        (g'.Rewritten left' path i ↔ g.Rewritten left path i) := by
  have hpredicate : q.predicate? (some g') = q.predicate? (some g) :=
    congrArg (Clause.predicate? q.atom) h.clauses_eq
  rw [q.compile_eq, q.compile_eq, q.select_eq, q.select_eq, hpredicate]
  refine ⟨rfl, rfl, g.normalize, g'.normalize, ⟨rfl, rfl⟩, ⟨rfl, rfl⟩, h.normalize, ?_⟩
  refine fun path i => ⟨Group.rewritten_normalize_iff, ?_⟩
  rw [Group.Rewritten, Group.Rewritten, h.operator_eq, h.normalize.operator_eq]

/-- Both groups are written alike, and in both the first rule is rewritten and the blank one is
not. -/
theorem alike_of_respelled_roomy :
    Group.terse.Respelled .roomy ∧
    (∀ q : Query, (q.compile (some .roomy)).1 = (q.compile (some .terse)).1 ∧
      (q.select (some .roomy)).1 = (q.select (some .terse)).1) ∧
    (compile ⟨{}, .escaped⟩ (some .roomy)).1 =
      some "((`name` = 'bob') or (FIND_IN_SET(`tags`,'a')))".toList ∧
    ∃ left left', (compile ⟨{}, .escaped⟩ (some .terse)).2 = some left ∧
      (compile ⟨{}, .escaped⟩ (some .roomy)).2 = some left' ∧
      Group.Rewritten .terse left [] 0 ∧ Group.Rewritten .roomy left' [] 0 ∧
      ¬Group.Rewritten .terse left [] 1 ∧ ¬Group.Rewritten .roomy left' [] 1 := by
  have h := Group.respelled_roomy
  obtain ⟨-, -, left, left', ⟨hleft, -⟩, ⟨hleft', -⟩, -, hplaces⟩ :=
    alike_of_respelled h ⟨{}, .escaped⟩
  obtain ⟨hfirst, hfirst'⟩ := hplaces [] 0
  obtain ⟨hsecond, hsecond'⟩ := hplaces [] 1
  have hbob : Rule.Unsettled ⟨"name", "between", "bob"⟩ :=
    Rule.unsettled_iff.mpr (by decide +kernel)
  have hblank : ¬Rule.Unsettled ⟨" ", "between", "1"⟩ :=
    mt Rule.unsettled_iff.mp (by decide +kernel)
  have hreplaced : Group.Rewritten .terse left [] 0 := hfirst.mpr ⟨_, rfl, hbob⟩
  have hkept : ¬Group.Rewritten .terse left [] 1 := by
    rw [hsecond]
    rintro ⟨r, ⟨rfl⟩, hunsettled⟩
    exact hblank hunsettled
  refine ⟨h, fun q => ?_, by decide +kernel, left, left', hleft, hleft', hreplaced,
    hfirst'.mpr hreplaced, hkept, mt hsecond'.mp hkept⟩
  obtain ⟨hcompile, hselect, -⟩ := alike_of_respelled h q
  exact ⟨hcompile, hselect⟩

end Query

end QueryFilter
