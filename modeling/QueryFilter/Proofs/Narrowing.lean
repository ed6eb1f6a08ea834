import QueryFilter.Proofs.Phrases

/-!
# Appending a rule

The rules of a group are written one after another with `and` between them, so
one more rule should select fewer rows.  It does, unless the rule is written
with `or`: the word stands without parentheses, so it ends the conjunction
before it and begins another one.

The rules are taken up one at a time.  A `Chain` keeps the disjunction of the
conjunctions that have ended, and the conjunction that may still grow.

* `Chain.Writes.push` — a step of the chain reads the tokens of its rule;
* `Chain.holds_of_push` — a rule that is not written with `or` narrows;
* `Chain.EndsWith.run` — where all is false but one string, the rules of a group
  are true only if the last of them is an `or` with that string;
* `Group.withRule_narrows_iff` — so the rules written with `or` are exactly those
  that do not narrow, unless the last rule before is an `or` with the same string.
-/

namespace QueryFilter

open Precedence Sql

/-! ## Reading rule by rule -/

/-- What some rules are read as: the conjunctions that have ended, and the one
that may still grow. -/
structure Chain where
  ended? : Option Formula
  last : Formula

namespace Chain

/-- The whole expression. -/
def expr : Chain → Formula
  | ⟨none, last⟩ => last
  | ⟨some ended, last⟩ => .node .or ended last

variable (m : Mapping)

/-- Takes up a rule whose first operand is joined by `meet` to what may still
grow.  A rule written with `or` ends that conjunction with its column and begins
another with its string. -/
def take (ended? : Option Formula) (meet : Formula → Formula) (r : Rule) : Chain :=
  let column := .leaf (.column (r.path m))
  let string := .leaf (.string r.operand)
  match r.effective with
  | .or => ⟨some (expr ⟨ended?, meet column⟩), string⟩
  | .and => ⟨ended?, .node .and (meet column) string⟩
  | .memberOf => ⟨ended?, meet (.leaf (.memberOf (r.path m) r.operand))⟩
  | op => ⟨ended?, meet (.node op.connective column string)⟩

/-- The chain of one rule. -/
def first (r : Rule) : Chain := take m none id r

/-- The chain with one more rule. -/
def push (c : Chain) (r : Rule) : Chain := take m c.ended? (.node .and c.last) r

/-- The chain of some rules. -/
def run (r : Rule) (rs : List Rule) : Chain := rs.foldl (push m) (first m r)

/-- What the tokens of some rules write. -/
def Writes : Chain → List Phrase → Prop
  | ⟨none, last⟩, ts => Derives Connective.rank 1 last ts
  | ⟨some ended, last⟩, ts => ∃ us vs, Derives Connective.rank 0 ended us ∧
      Derives Connective.rank 1 last vs ∧ ts = us ++ .op .or :: vs

variable {m} {c : Chain} {ts us : List Phrase}

/-- What a chain writes is read as its expression. -/
theorem Writes.derives (h : c.Writes ts) : Derives Connective.rank 0 c.expr ts := by
  obtain ⟨ended?, last⟩ := c
  cases ended? with
  | none => exact Derives.weaken h (Nat.zero_le 1)
  | some ended =>
      obtain ⟨us, vs, hended, hlast, rfl⟩ := h
      exact .node (Nat.le_refl 0) hended hlast

/-- A conjunct may be added behind a conjunction. -/
theorem derives_and {l e : Formula} (hl : Derives Connective.rank 1 l ts)
    (he : Derives Connective.rank 2 e us) :
    Derives Connective.rank 1 (.node .and l e) (ts ++ .op .and :: us) :=
  .node (Nat.le_refl 1) hl he

/-- A comparison of two operands is read as such. -/
theorem derives_compare (sign : List Char) (a b : Sql.Operand) :
    Derives Connective.rank 2 (.node (.compare sign) (.leaf a) (.leaf b))
      ([.leaf a] ++ .op (.compare sign) :: [.leaf b]) :=
  .node (Nat.le_refl 2) (.leaf 2 a) (.leaf 3 b)

/-- Another operand goes into the conjunction that may still grow. -/
theorem Writes.meet {ended? : Option Formula} {last e : Formula}
    (h : Writes ⟨ended?, last⟩ ts) (he : Derives Connective.rank 2 e us) :
    Writes ⟨ended?, .node .and last e⟩ (ts ++ .op .and :: us) := by
  cases ended? with
  | none => exact derives_and h he
  | some ended =>
      obtain ⟨vs, ws, hended, hlast, rfl⟩ := h
      refine ⟨vs, ws ++ .op .and :: us, hended, derives_and hlast he, ?_⟩
      simp

/-- **A rule is taken up with its tokens.** -/
theorem Writes.take (m : Mapping) {ended? : Option Formula} {meet : Formula → Formula}
    (hmeet : ∀ e us, Derives Connective.rank 2 e us → Writes ⟨ended?, meet e⟩ (ts ++ us))
    (r : Rule) : (Chain.take m ended? meet r).Writes (ts ++ r.phrases m) := by
  by_cases hmember : r.effective = .memberOf
  · rw [Chain.take, Rule.phrases, hmember]
    exact hmeet _ _ (.leaf 2 _)
  have hphrases : ts ++ r.phrases m = (ts ++ [.leaf (.column (r.path m))]) ++
      .op r.effective.connective :: [.leaf (.string r.operand)] := by
    rw [Rule.phrases_of_ne hmember, List.append_assoc]
    rfl
  have hcolumn := hmeet _ _ (.leaf 2 (.column (r.path m)))
  have hstring : ∀ p, Derives Connective.rank p (.leaf (Sql.Operand.string r.operand))
      [.leaf (.string r.operand)] := fun p => .leaf p _
  cases hop : r.effective with
  | memberOf => exact absurd hop hmember
  | or =>
      rw [Chain.take, hphrases, hop]
      exact ⟨_, _, hcolumn.derives, hstring 1, rfl⟩
  | and =>
      rw [Chain.take, hphrases, hop]
      exact hcolumn.meet (hstring 2)
  | _ =>
      rw [Chain.take, Rule.phrases, hop]
      exact hmeet _ _ (derives_compare _ _ _)

/-- The first rule of a chain writes its own phrases. -/
theorem Writes.first (m : Mapping) (r : Rule) : (Chain.first m r).Writes (r.phrases m) := by
  have hmeet : ∀ e us, Derives Connective.rank 2 e us → Writes ⟨none, id e⟩ ([] ++ us) :=
    fun e us he => he.weaken (Nat.le_succ 1)
  exact Writes.take m hmeet r

/-- **One step reads the tokens of its rule.** -/
theorem Writes.push (h : c.Writes ts) (r : Rule) :
    (c.push m r).Writes (ts ++ .op .and :: r.phrases m) := by
  have hmeet : ∀ e us, Derives Connective.rank 2 e us →
      Writes ⟨c.ended?, .node .and c.last e⟩ ((ts ++ [.op .and]) ++ us) := by
    intro e us he
    rw [List.append_assoc]
    exact Writes.meet h he
  have htake := Writes.take m hmeet r
  rw [List.append_assoc] at htake
  exact htake

/-- Each further rule of a chain writes an `and` and its own phrases. -/
theorem Writes.foldl (h : c.Writes ts) (rs : List Rule) :
    (rs.foldl (Chain.push m) c).Writes (ts ++ rs.flatMap fun s => .op .and :: s.phrases m) := by
  induction rs generalizing c ts with
  | nil => simpa using h
  | cons s rs ih => simpa using ih (h.push s)

/-- A whole run reads the tokens of its rules. -/
theorem Writes.run (m : Mapping) (r : Rule) (rs : List Rule) :
    (Chain.run m r rs).Writes (r.phrases m ++ rs.flatMap fun s => .op .and :: s.phrases m) :=
  (Writes.first m r).foldl rs

end Chain

namespace Group

/-- The tokens of a group without nested groups. -/
theorem phrases_row_of_flat {m : Mapping} {g : Group} (hflat : g.groups = []) {r : Rule}
    {rs : List Rule} (h : g.survivors = r :: rs) :
    Row.phrases m (g.row 0) =
      .opening :: (r.phrases m ++ rs.flatMap fun s => .op .and :: s.phrases m) ++ [.closing] := by
  obtain ⟨operate, rules, groups⟩ := g
  cases hflat
  rw [survivors_of_flat rfl] at h
  have hrest : (rs.zipIdx 1).flatMap (fun s => Token.op Connective.and :: s.1.phrases m) =
      rs.flatMap fun s => .op .and :: s.phrases m := by
    conv => rhs; rw [← List.zipIdx_map_fst 1 rs, List.flatMap_map]
  have hown : row 0 ⟨operate, rules, []⟩ = Row.own ((r, 0) :: rs.zipIdx 1) := by
    rw [row, h, List.zipIdx_cons, if_neg (List.cons_ne_nil _ _), rows, Row.conjoin_nil, if_pos rfl]
  rw [hown, ← hrest]
  simp [Row.own, Row.enclose, Row.conjoin_cons, Row.phrases, Row.tokenPhrases, List.flatMap_map,
    List.flatMap_assoc, Combinator.operator, Operator.connective]

/-- **A group without nested groups is read rule by rule.** -/
theorem read_compile_of_flat {m : Mapping} (hplain : m.Plain) {g : Group}
    (hflat : g.groups = []) {r : Rule} {rs : List Rule} (h : g.survivors = r :: rs) :
    ∃ text, (Query.compile ⟨m, .escaped⟩ (some g)).1 = some text ∧
      Sql.read text = some (Chain.run m r rs).expr := by
  have hlive : g.survivors ≠ [] := by simp [h]
  obtain ⟨text, htext, hread⟩ := Query.read_compile hplain hlive
  refine ⟨text, htext, ?_⟩
  rw [hread, phrases_row_of_flat hflat h]
  exact parse_eq_some_iff.mpr (.parens 0 (Chain.Writes.run m r rs).derives)

end Group

/-! ## What the rules say -/

/-- The interpretation in which one string is true and all else is false. -/
def Sql.Interpretation.only (v : List Char) : Interpretation (Option Bool) where
  column _ := some false
  string w := some (w = v)
  memberOf _ _ := some false
  compare _ _ _ := some false
  plus _ _ := some false
  truth b := b
  ofTruth b := b
  truth_ofTruth _ := rfl

namespace Chain

variable {V : Type} (I : Interpretation V)

/-- A chain holds if what is ended of it holds or what it ends with does. -/
theorem holds_expr_iff {c : Chain} :
    I.Holds c.expr ↔ (∃ e, c.ended? = some e ∧ I.Holds e) ∨ I.Holds c.last := by
  obtain ⟨ended?, last⟩ := c
  cases ended? with
  | none => simp [expr]
  | some ended => simp [expr, I.holds_or]

/-- A rule that is not written with `or` leaves what has ended as it is, and says
at least what `meet` makes of it. -/
theorem take_of_ne {m : Mapping} {ended? : Option Formula} {meet : Formula → Formula} {r : Rule}
    (h : r.effective ≠ .or) :
    (take m ended? meet r).ended? = ended? ∧
      ∃ e, I.Holds (take m ended? meet r).last → I.Holds (meet e) := by
  cases hop : r.effective with
  | or => exact absurd hop h
  | and =>
      rw [take, hop]
      exact ⟨rfl, _, fun hlast => (I.holds_and.mp hlast).1⟩
  | _ =>
      rw [take, hop]
      exact ⟨rfl, _, id⟩

/-- **A rule that is not written with `or` narrows.** -/
theorem holds_of_push {m : Mapping} {c : Chain} {r : Rule} (h : r.effective ≠ .or)
    (hpush : I.Holds (c.push m r).expr) : I.Holds c.expr := by
  obtain ⟨hended, e, hlast⟩ : (c.push m r).ended? = c.ended? ∧
      ∃ e, I.Holds (c.push m r).last → I.Holds (.node .and c.last e) := take_of_ne I h
  rw [holds_expr_iff, hended] at hpush
  rw [holds_expr_iff]
  rcases hpush with hholds | hholds
  · left
    exact hholds
  · right
    exact (I.holds_and.mp (hlast hholds)).1

/-- What the last rule `s` of a chain tells about it: an `or` has just begun a
conjunction with its string, and after any other rule nothing is true where all
is false but one string. -/
structure EndsWith (c : Chain) (s : Rule) : Prop where
  ended_false : ∀ v e, c.ended? = some e → ¬(Interpretation.only v).Holds e
  last_of_or : s.effective = .or → c.last = .leaf (.string s.operand)
  last_of_ne : s.effective ≠ .or → ∀ v, ¬(Interpretation.only v).Holds c.last

/-- Taking up a rule ends the chain with it. -/
theorem EndsWith.take {m : Mapping} {ended? : Option Formula} {meet : Formula → Formula}
    (hended : ∀ v e, ended? = some e → ¬(Interpretation.only v).Holds e)
    (hmeet : ∀ v e, (Interpretation.only v).Holds (meet e) → (Interpretation.only v).Holds e)
    (r : Rule) : (Chain.take m ended? meet r).EndsWith r := by
  have hcolumn : ∀ v, ¬(Interpretation.only v).Holds (meet (.leaf (.column (r.path m)))) := by
    intro v h
    cases hmeet v _ h
  cases hop : r.effective with
  | or =>
      rw [Chain.take, hop]
      refine ⟨?_, fun _ => rfl, fun h => absurd hop h⟩
      rintro v _ ⟨⟩ hholds
      rcases (holds_expr_iff _).mp hholds with ⟨e, he, h⟩ | h
      · exact hended v e he h
      · exact hcolumn v h
  | and =>
      rw [Chain.take, hop]
      refine ⟨hended, fun h => absurd (hop.symm.trans h) nofun, fun _ v h => ?_⟩
      exact hcolumn v ((Interpretation.only v).holds_and.mp h).1
  | _ =>
      rw [Chain.take, hop]
      refine ⟨hended, fun h => absurd (hop.symm.trans h) nofun, fun _ v h => ?_⟩
      cases hmeet v _ h

/-- **One step ends the chain with its rule.** -/
theorem EndsWith.push {m : Mapping} {c : Chain} {s : Rule} (h : c.EndsWith s) (r : Rule) :
    (c.push m r).EndsWith r :=
  EndsWith.take h.ended_false (fun v _ => fun hboth =>
    ((Interpretation.only v).holds_and.mp hboth).2) r

/-- A chain ends with the rule that was added last. -/
theorem EndsWith.foldl {m : Mapping} {c : Chain} {r : Rule} (h : c.EndsWith r) (rs : List Rule) :
    ∃ s, (r :: rs).getLast? = some s ∧ (rs.foldl (Chain.push m) c).EndsWith s := by
  induction rs generalizing c r with
  | nil => exact ⟨r, rfl, h⟩
  | cons s rs ih => exact ih (h.push s)

/-- A whole run ends with its last rule. -/
theorem EndsWith.run (m : Mapping) (r : Rule) (rs : List Rule) :
    ∃ s, (r :: rs).getLast? = some s ∧ (Chain.run m r rs).EndsWith s := by
  have hnone : ∀ v e, none = some e → ¬(Interpretation.only v).Holds e := nofun
  exact (EndsWith.take hnone (fun _ _ => id) r).foldl rs

/-- After an `or`, what was true before is true only in the company of its column,
and else its string decides. -/
theorem holds_push_of_or {m : Mapping} {c : Chain} {r : Rule} (h : r.effective = .or) :
    I.Holds (c.push m r).expr ↔
      I.Holds (expr ⟨c.ended?, .node .and c.last (.leaf (.column (r.path m)))⟩) ∨
        I.Holds (.leaf (.string r.operand)) := by
  rw [push, take, h]
  exact I.holds_or

/-- **An appended rule narrows a chain** unless it is written with `or`, and then
exactly if the last rule before it is an `or` with the same string. -/
theorem push_narrows_iff {m : Mapping} {c : Chain} {s : Rule} (hs : c.EndsWith s) (r : Rule) :
    (∀ (V : Type) (I : Interpretation V), I.Holds (c.push m r).expr → I.Holds c.expr) ↔
      (r.effective = .or → s.effective = .or ∧ s.operand = r.operand) := by
  constructor
  · intro hnarrows hor
    have hopened : (Interpretation.only r.operand).Holds (c.push m r).expr := by
      rw [holds_push_of_or _ hor]
      exact .inr (congrArg some (decide_eq_true rfl))
    rcases (holds_expr_iff _).mp (hnarrows _ _ hopened) with ⟨e, he, hholds⟩ | hholds
    · exact absurd hholds (hs.ended_false _ e he)
    · by_cases hsor : s.effective = .or
      · rw [hs.last_of_or hsor] at hholds
        exact ⟨hsor, of_decide_eq_true (Option.some.inj hholds)⟩
      · exact absurd hholds (hs.last_of_ne hsor _)
  · intro hsame V I hpush
    by_cases hor : r.effective = .or
    · obtain ⟨hsor, hoperand⟩ := hsame hor
      rw [holds_expr_iff, hs.last_of_or hsor, hoperand]
      rw [holds_push_of_or I hor, holds_expr_iff] at hpush
      rcases hpush with (hended | hlast) | hstring
      · exact .inl hended
      · have hbefore := (I.holds_and.mp hlast).1
        rw [hs.last_of_or hsor, hoperand] at hbefore
        exact .inr hbefore
      · exact .inr hstring
    · exact holds_of_push I hor hpush

end Chain

namespace Group

/-- **What an appended rule does to a group.**  If a rule survives in a group
without nested groups, the predicates before and after are both expressions.
The second is true of fewer rows, whatever columns, strings and comparisons
stand for, exactly if the new rule drops out, or is not written with `or`, or
repeats the string of an `or` that was last before. -/
theorem withRule_narrows_iff {m : Mapping} (hplain : m.Plain) {g : Group}
    (hflat : g.groups = []) (hlive : ∃ s ∈ g.rules, s.Survives) (r : Rule) :
    ∃ text text' e e', (Query.compile ⟨m, .escaped⟩ (some g)).1 = some text ∧
      (Query.compile ⟨m, .escaped⟩ (some (g.withRule r))).1 = some text' ∧
      Sql.read text = some e ∧ Sql.read text' = some e' ∧
      ((∀ (V : Type) (I : Interpretation V), I.Holds e' → I.Holds e) ↔
        (r.Survives → r.effective = .or →
          ∃ s, g.survivors.getLast? = some s ∧ s.effective = .or ∧ s.operand = r.operand)) := by
  have hne : g.survivors ≠ [] := by
    rw [survivors_of_flat hflat]
    simpa using hlive
  obtain ⟨first, rest, hsurvivors⟩ := List.exists_cons_of_ne_nil hne
  obtain ⟨s, hlast, hends⟩ := Chain.EndsWith.run m first rest
  obtain ⟨text, htext, hread⟩ := read_compile_of_flat hplain hflat hsurvivors
  have hwith := survivors_withRule_of_flat hflat r
  have hflat' : (g.withRule r).groups = [] := hflat
  by_cases hr : r.Survives
  · rw [if_pos hr, hsurvivors, List.cons_append] at hwith
    obtain ⟨text', htext', hread'⟩ := read_compile_of_flat hplain hflat' hwith
    rw [Chain.run, List.foldl_append] at hread'
    refine ⟨text, text', _, _, htext, htext', hread, hread', ?_⟩
    refine (Chain.push_narrows_iff hends r).trans ?_
    rw [hsurvivors, hlast]
    simp [hr]
  · rw [if_neg hr, List.append_nil, hsurvivors] at hwith
    obtain ⟨text', htext', hread'⟩ := read_compile_of_flat hplain hflat' hwith
    refine ⟨text, text', _, _, htext, htext', hread, hread', ?_⟩
    exact ⟨fun _ h => absurd h hr, fun _ V I => id⟩

/-- The string of a last `or` may be repeated. -/
theorem withRule_narrows_repeated_or :
    ((Mapping.single "`name`" "`name`").Plain ∧
      ∃ s ∈ [Rule.mk "name" "equal" "bob", Rule.mk "x" "or" "1"], s.Survives) ∧
    ∃ text text' e e',
      (Query.compile ⟨.single "`name`" "`name`", .escaped⟩
        (some { rules := [⟨"name", "equal", "bob"⟩, ⟨"x", "or", "1"⟩] })).1 = some text ∧
      (Query.compile ⟨.single "`name`" "`name`", .escaped⟩
        (some { rules := [⟨"name", "equal", "bob"⟩, ⟨"x", "or", "1"⟩, ⟨"y", "or", " 1 "⟩] })).1 =
          some text' ∧
      Sql.read text = some e ∧ Sql.read text' = some e' ∧
      ∀ (V : Type) (I : Interpretation V), I.Holds e' → I.Holds e := by
  have hplain : (Mapping.single "`name`" "`name`").Plain :=
    Mapping.plain_single _ ⟨"name".toList, by decide, rfl⟩
  have hlive : ∃ s ∈ [Rule.mk "name" "equal" "bob", Rule.mk "x" "or" "1"], s.Survives :=
    ⟨_, List.mem_cons_self, by decide +kernel⟩
  obtain ⟨text, text', e, e', htext, htext', hread, hread', hnarrows⟩ :=
    withRule_narrows_iff hplain
      (g := { rules := [⟨"name", "equal", "bob"⟩, ⟨"x", "or", "1"⟩] }) rfl hlive
      ⟨"y", "or", " 1 "⟩
  refine ⟨⟨hplain, hlive⟩, text, text', e, e', htext, htext', hread, hread', ?_⟩
  refine hnarrows.mpr fun _ _ => ⟨⟨"x", "or", "1"⟩, ?_, ?_, ?_⟩
  · decide +kernel
  · decide +kernel
  · decide +kernel

/-- **A rule that names the operator `or` widens the group it is appended to**: with
a true string it lets in every row. -/
theorem withRule_or_widens :
    (Mapping.single "`name`" "`name`").Plain ∧ (Rule.mk "name" "equal" "bob").Survives ∧
    (Query.compile ⟨.single "`name`" "`name`", .escaped⟩
      (some { rules := [⟨"name", "equal", "bob"⟩] })).1 = some "(`name` = 'bob')".toList ∧
    (Query.compile ⟨.single "`name`" "`name`", .escaped⟩
      (some { rules := [⟨"name", "equal", "bob"⟩, ⟨"x", "or", "1"⟩] })).1 =
        some "(`name` = 'bob' and `x` or '1')".toList ∧
    ∃ e e', Sql.read "(`name` = 'bob')".toList = some e ∧
      Sql.read "(`name` = 'bob' and `x` or '1')".toList = some e' ∧
      ∃ I : Interpretation (Option Bool), I.Holds e' ∧ ¬I.Holds e := by
  refine ⟨Mapping.plain_single _ ⟨"name".toList, by decide, rfl⟩, by decide +kernel,
    by decide +kernel, by decide +kernel, ?_⟩
  -- the second text is read with its `or` above the `and`
  have hbefore : Sql.read "(`name` = 'bob')".toList =
      some (.node (.compare ['=']) (.leaf (.column ["name".toList]))
        (.leaf (.string "bob".toList))) := by decide +kernel
  have hafter : Sql.read "(`name` = 'bob' and `x` or '1')".toList =
      some (.node .or
        (.node .and (.node (.compare ['=']) (.leaf (.column ["name".toList]))
          (.leaf (.string "bob".toList))) (.leaf (.column [['x']])))
        (.leaf (.string ['1']))) := by decide +kernel
  exact ⟨_, _, hbefore, hafter, .only ['1'], rfl, nofun⟩

end Group

end QueryFilter
