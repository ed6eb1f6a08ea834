import QueryFilter.Proofs.Phrases
import QueryFilter.Proofs.Resolution
import QueryFilter.Proofs.Site

/-!
# Computed columns

A column may be computed by an expression.  The expression is written as it is, without
parentheses of its own, in front of the operator of a rule.  So which part of it becomes the left
side of the operator is left to the precedence of what stands in the expression.

Only the connectives outside of all its parentheses count.  Those that bind tighter than the
operator stay on the left side, and so do those of the same rank, since these associate to the
left.  A looser one takes the operator to its own right side.  Hence a comparison has the whole
expression on its left exactly if neither `and` nor `or` stands outside of the parentheses.

* `Sql.outer` — the connectives outside of the parentheses of a text;
* `Operator.read_comparison_iff` — when an operator has a whole text on its left;
* `Row.says_text`, `Query.read_compile_of_says` — a predicate of such comparisons is read as the
  tree with each rule read on its own;
* `Query.computed_compares_iff` — what this means for a rule on a computed column.
-/

namespace QueryFilter

open Precedence Sql

namespace Sql

/-- The connectives of a text that stand outside of all parentheses. -/
def outer (s : List Char) : List Connective :=
  (((lex s).bind phrases?).map (outermost 0)).getD []

/-- Only the two words are looser than a comparison. -/
theorem forall_two_le_rank_iff {os : List Connective} :
    (∀ o ∈ os, 2 ≤ o.rank) ↔ .or ∉ os ∧ .and ∉ os := by
  constructor
  · intro h
    exact ⟨fun hor => absurd (h _ hor) (by decide), fun hand => absurd (h _ hand) (by decide)⟩
  · rintro ⟨hor, hand⟩ o ho
    cases o with
    | or => exact absurd ho hor
    | and => exact absurd ho hand
    | compare sign => exact Nat.le_refl 2
    | plus => exact Nat.le_succ 2

/-- Whether a text makes the tokens `ts`, whatever comes after it. -/
def Makes (s : List Char) (ts : List Phrase) : Prop :=
  ∃ ls, Spells s ls ∧ ∀ ps, ls.foldr Piece.gather ps = ts.map .phrase ++ ps

/-- Whether a text makes the tokens `ts` if an operator comes next. -/
def MakesBefore (s : List Char) (ts : List Phrase) : Prop :=
  ∃ ls, Spells s ls ∧ ∀ o ps, ls.foldr Piece.gather (.phrase (.op o) :: ps) =
    ts.map .phrase ++ .phrase (.op o) :: ps

/-- Whether a text makes tokens that write `e` without a connective of a rank below `p` outside of
parentheses, whatever comes after it. -/
def Says (p : Nat) (s : List Char) (e : Formula) : Prop :=
  ∃ ts, Makes s ts ∧ Derives Connective.rank p e ts

variable {p : Nat} {s t : List Char} {e l r : Formula} {ts us : List Phrase}

/-- The tokens of a text that is read. -/
theorem exists_makesBefore (h : read s = some e) :
    ∃ ts, MakesBefore s ts ∧ Derives Connective.rank 0 e ts ∧ outer s = outermost 0 ts := by
  obtain ⟨ls, hls, h⟩ := Option.bind_eq_some_iff.mp h
  obtain ⟨ts, hts, he⟩ := Option.bind_eq_some_iff.mp h
  refine ⟨ts, ⟨ls, spells_iff_lex.mpr hls, fun o ps => ?_⟩, parse_eq_some_iff.mp he, ?_⟩
  · rw [Piece.foldr_gather_op, phrases?_eq_some_iff.mp hts]
  · rw [outer, hls, Option.bind_some, hts]
    rfl

namespace Makes

/-- A text that makes tokens is read as they are. -/
theorem read (h : Makes s ts) : Sql.read s = parse Connective.rank ts := by
  obtain ⟨ls, hspells, hgather⟩ := h
  have hts := hgather []
  rw [List.append_nil] at hts
  rw [Sql.read, hspells.lex, Option.bind_some, phrases?_eq_some_iff.mpr hts, Option.bind_some]

/-- What makes tokens whatever comes next makes them before an operator. -/
theorem before (h : Makes s ts) : MakesBefore s ts := by
  obtain ⟨ls, hspells, hgather⟩ := h
  exact ⟨ls, hspells, fun o ps => hgather _⟩

/-- A closed literal makes one string. -/
theorem literal (v : List Char) : Makes (Literal.escaped v) [.leaf (.string v)] :=
  ⟨[.string v], spells_string v, fun _ => rfl⟩

/-- A text in parentheses makes its tokens in parentheses. -/
theorem parens (h : Makes s ts) : Makes ('(' :: (s ++ [')'])) (.opening :: ts ++ [.closing]) := by
  obtain ⟨ls, hspells, hgather⟩ := h
  refine ⟨.opening :: (ls ++ [.closing]), hspells.parens, fun ps => ?_⟩
  have hinside : (ls ++ [Lexeme.closing]).foldr Piece.gather ps =
      ts.map .phrase ++ .phrase .closing :: ps := by
    rw [List.foldr_append]
    exact hgather _
  rw [List.foldr_cons, hinside]
  simp [Piece.gather]

/-- **Two texts with an operator between them** make the tokens of both, with the operator
between. -/
theorem operator (hs : MakesBefore s ts) {op : Operator} (hop : op ≠ .memberOf)
    (ht : Makes t us) :
    Makes (s ++ ' ' :: (op.sql.toList ++ ' ' :: t)) (ts ++ .op op.connective :: us) := by
  obtain ⟨ls, hs, hls⟩ := hs
  obtain ⟨ks, ht, hks⟩ := ht
  refine ⟨ls ++ ([op.lexeme] ++ ks), hs.spaced op.spells_sql ht, fun ps => ?_⟩
  have hright : ([op.lexeme] ++ ks).foldr Piece.gather ps =
      .phrase (.op op.connective) :: (us.map .phrase ++ ps) := by
    rw [List.foldr_append, hks]
    exact Operator.gather_lexeme hop _
  rw [List.foldr_append, hright, hls]
  simp

end Makes

namespace Says

/-- A text is read as the expression it says. -/
theorem read (h : Says 0 s e) : Sql.read s = some e := by
  obtain ⟨ts, hmakes, he⟩ := h
  rw [hmakes.read]
  exact parse_of_derives he

/-- A text may be a side of any operator that binds less tightly. -/
theorem weaken {q : Nat} (h : Says p s e) (hq : q ≤ p) : Says q s e := by
  obtain ⟨ts, hmakes, he⟩ := h
  exact ⟨ts, hmakes, he.weaken hq⟩

/-- A text in parentheses may be a side of any operator. -/
theorem parens (h : Says 0 s e) (p : Nat) : Says p ('(' :: (s ++ [')'])) e := by
  obtain ⟨ts, hmakes, he⟩ := h
  exact ⟨_, hmakes.parens, .parens p he⟩

/-- Two sides that bind tightly enough say an operation with the operator between them. -/
theorem operator {op : Operator} (hop : op ≠ .memberOf) (hp : p ≤ op.connective.rank)
    (hl : Says op.connective.rank s l) (hr : Says (op.connective.rank + 1) t r) :
    Says p (s ++ ' ' :: (op.sql.toList ++ ' ' :: t)) (.node op.connective l r) := by
  obtain ⟨ts, hs, hl⟩ := hl
  obtain ⟨us, ht, hr⟩ := hr
  exact ⟨_, Makes.operator hs.before hop ht, .node hp hl hr⟩

end Says

end Sql

namespace Operator

variable {op : Operator} {expr : List Char} {e : Formula} {ts : List Phrase}

/-- All operators but the two words are comparisons. -/
theorem connective_of_ne (hand : op ≠ and) (hor : op ≠ or) :
    op.connective = .compare op.sql.toList := by
  cases op with
  | and => exact absurd rfl hand
  | or => exact absurd rfl hor
  | _ => rfl

/-- The tokens of a text with an operator and a literal behind it. -/
theorem makes_comparison (hop : op ≠ .memberOf) (h : MakesBefore expr ts) (v : List Char) :
    Makes (op.comparison expr (Literal.escaped v))
      (ts ++ [.op op.connective, .leaf (.string v)]) := by
  have htext : op.comparison expr (Literal.escaped v) =
      expr ++ ' ' :: (op.sql.toList ++ ' ' :: Literal.escaped v) := by
    rw [comparison_of_ne hop]
    simp
  rw [htext]
  exact Makes.operator h hop (Makes.literal v)

/-- **When an operator has a whole text on its left:** if no connective outside of the parentheses
of the text is looser than the operator. -/
theorem read_comparison_iff (hop : op ≠ .memberOf) (hread : Sql.read expr = some e)
    (v : List Char) :
    Sql.read (op.comparison expr (Literal.escaped v)) =
        some (.node op.connective e (.leaf (.string v))) ↔
      ∀ o ∈ outer expr, op.connective.rank ≤ o.rank := by
  obtain ⟨ts, hmakes, he, houter⟩ := exists_makesBefore hread
  rw [(makes_comparison hop hmakes v).read, houter]
  exact parse_append_leaf_iff he _ _

/-- Then it is read so wherever it stands. -/
theorem says_comparison (hop : op ≠ .memberOf) (hread : Sql.read expr = some e)
    (houter : ∀ o ∈ outer expr, op.connective.rank ≤ o.rank) (v : List Char) :
    Says op.connective.rank (op.comparison expr (Literal.escaped v))
      (.node op.connective e (.leaf (.string v))) := by
  obtain ⟨ts, hmakes, he, hts⟩ := exists_makesBefore hread
  rw [hts] at houter
  exact ⟨_, makes_comparison hop hmakes v,
    .node (Nat.le_refl _) (he.rank_iff.mpr houter) (.leaf _ _)⟩

end Operator

/-- The comparison of an expression with the string a rule compares with. -/
def Rule.compared (r : Rule) (e : Formula) : Formula :=
  .node (.compare r.effective.sql.toList) e (.leaf (.string r.operand))

/-- A rule on a column that is a quoted name says what its tokens write. -/
theorem Rule.says_of_plain {m : Mapping} {r : Rule} {p : Nat} {e : Formula} (h : r.Survives)
    (hplain : m.PlainAt (Text.trim r.field.toList))
    (he : Derives Connective.rank p e (r.phrases m)) : Says p (r.condition.sql m .escaped) e :=
  ⟨r.phrases m, ⟨r.lexemes m, spells_sql h hplain, gather_lexemes m r⟩, he⟩

/-- A comparison of a plain column says just that, and may be a side of `and` and `or`. -/
theorem Rule.says_compared_of_plain {m : Mapping} {r : Rule} (h : r.Survives)
    (hplain : m.PlainAt (Text.trim r.field.toList))
    (hop : r.effective ≠ .and ∧ r.effective ≠ .or ∧ r.effective ≠ .memberOf) :
    Says 2 (r.condition.sql m .escaped) (r.compared (.leaf (.column (r.path m)))) := by
  obtain ⟨hand, hor, hmember⟩ := hop
  refine says_of_plain h hplain ?_
  rw [phrases_of_ne hmember, Operator.connective_of_ne hand hor]
  have htokens : Derives Connective.rank 2 (r.compared (.leaf (.column (r.path m))))
      ([.leaf (.column (r.path m))] ++ .op (.compare r.effective.sql.toList) ::
        [.leaf (.string r.operand)]) :=
    .node (Nat.le_refl 2) (.leaf 2 _) (.leaf 3 _)
  exact htokens

/-- **A row says its expression** with every rule read on its own, if no rule has a word outside
of parentheses. -/
theorem Row.says_text {atom : Rule → List Char} {sides : Rule → Formula} {p : Nat}
    {e : Expr Occurrence Combinator} {row : Row} (h : Derives Combinator.rank p e row) (hp : p ≤ 2)
    (hatoms : ∀ r ∈ leaves row, Says 2 (atom r.1) (sides r.1)) :
    Says p (text atom row)
      (e.eval (fun r => sides r.1) fun c => .node c.operator.connective) := by
  induction h with
  | leaf p r =>
      have hatom := (hatoms r (by simp)).weaken hp
      simpa [text, spell, Expr.eval] using hatom
  | @parens p e ts h ih =>
      have hinside := ih (Nat.zero_le 2) fun r hr => hatoms r (by simpa using hr)
      have htext : text atom (.opening :: ts ++ [.closing]) = '(' :: (text atom ts ++ [')']) := by
        simp [text, spell]
      rw [htext]
      exact hinside.parens p
  | @node p c l r ts us hc hl hr ihl ihr =>
      have hrank : c.operator.connective.rank = c.rank := by
        cases c <;> rfl
      -- both words are looser than any rule, so a rule may be a side of either
      have hlow : c.rank ≤ 1 := by
        cases c <;> decide
      have hleft := ihl (Nat.le_succ_of_le hlow) fun x hx => hatoms x (by simp [hx])
      have hright := ihr (Nat.succ_le_succ hlow) fun x hx => hatoms x (by simp [hx])
      have hword : c.operator ≠ .memberOf := by
        cases c <;> decide
      have htext : text atom (ts ++ .op c :: us) =
          text atom ts ++ ' ' :: (c.operator.sql.toList ++ ' ' :: text atom us) := by
        simp [text, spell, Combinator.sql]
      rw [htext]
      rw [← hrank] at hleft hright hc
      exact Says.operator hword hc hleft hright

namespace Query

/-- **A predicate is read as its tree,** with every rule read on its own, if no rule has a word
outside of parentheses. -/
theorem read_compile_of_says {m : Mapping} {g : Group} (h : g.survivors ≠ [])
    {sides : Rule → Formula}
    (hsides : ∀ r ∈ g.survivors, Says 2 (Query.atom ⟨m, .escaped⟩ r.condition) (sides r)) :
    ∃ text e, (Query.compile ⟨m, .escaped⟩ (some g)).1 = some text ∧
      parse Combinator.rank (g.row 0) = some e ∧
      Sql.read text =
        some (e.eval (fun r => sides r.1) fun c => .node c.operator.connective) := by
  obtain ⟨e, hparse, -⟩ := Group.parse_row (k := 0) h
  refine ⟨_, e, (compile_eq_row _ g).trans (if_neg h), hparse, ?_⟩
  refine (Row.says_text (parse_eq_some_iff.mp hparse) (Nat.zero_le 2) fun r hr => ?_).read
  rw [Group.leaves_row] at hr
  exact hsides r.1 (List.fst_mem_of_mem_zipIdx hr)

variable {c : Catalog} {name : String} {m : Mapping} {r : Rule} {f : Field} {expr : List Char}
  {e : Formula}

/-- A rule on a computed column is written with the expression as it is. -/
theorem atom_of_computed (hm : Mapping.ofCatalog? c name = some m) (hr : r.Survives)
    (hdot : Name.dot ∉ Text.trim r.field.toList)
    (hf : c.firstStored? name (Text.trim r.field.toList) = some f)
    (hexpr : f.storage.toList = '\x7b' :: (expr ++ ['\x7d'])) :
    Query.atom ⟨m, .escaped⟩ r.condition =
      r.effective.comparison expr (Literal.escaped r.operand) := by
  have hmapped := Mapping.mapped?_eq hm (Text.trim r.field.toList)
  rw [hf, Option.map_some, hexpr, Field.expressionOf_braced] at hmapped
  have hcolumn := Mapping.resolve_mapped hr.trim_field_ne_nil hdot hmapped .escaped
  rw [atom, Condition.sql, Rule.condition, hcolumn]
  rfl

/-- **When a rule compares the whole of a computed column.**  Let the field of a surviving rule be
stored between braces, as an expression that is read as `e`, and let the operator of the rule be a
comparison.  At every site of a tree the rule is written with this expression as it is, in front
of its operator and of one literal, the string it compares with.  This part is read as one
comparison of `e` with that string exactly if neither `or` nor `and` stands outside of the
parentheses of the expression.  If so, the whole predicate is read as the tree with this comparison
in the place of the rule, as long as no other rule has such a word either. -/
theorem computed_compares_iff (hm : Mapping.ofCatalog? c name = some m) (hr : r.Survives)
    (hdot : Name.dot ∉ Text.trim r.field.toList)
    (hf : c.firstStored? name (Text.trim r.field.toList) = some f)
    (hexpr : f.storage.toList = '\x7b' :: (expr ++ ['\x7d'])) (hread : Sql.read expr = some e)
    (hop : r.effective ≠ .and ∧ r.effective ≠ .or ∧ r.effective ≠ .memberOf) :
    ∃ part literal,
      part = expr ++ " ".toList ++ r.effective.sql.toList ++ " ".toList ++ literal ∧
      lex literal = some [.string r.operand] ∧
      (∀ s : Group.Site, ∃ front back,
        (compile ⟨m, .escaped⟩ (some (s.fill r))).1 = some (front ++ (part ++ back))) ∧
      (Sql.read part = some (r.compared e) ↔ .or ∉ outer expr ∧ .and ∉ outer expr) ∧
      (.or ∉ outer expr ∧ .and ∉ outer expr → ∀ (s : Group.Site) (sides : Rule → Formula),
        sides r = r.compared e →
        (∀ r' ∈ (s.fill r).survivors, r' ≠ r →
          Says 2 (Query.atom ⟨m, .escaped⟩ r'.condition) (sides r')) →
        ∃ text tree, (compile ⟨m, .escaped⟩ (some (s.fill r))).1 = some text ∧
          parse Combinator.rank ((s.fill r).row 0) = some tree ∧
          Sql.read text =
            some (tree.eval (fun r => sides r.1) fun c => .node c.operator.connective)) := by
  obtain ⟨hand, hor, hmember⟩ := hop
  have hatom := atom_of_computed hm hr hdot hf hexpr
  have hconnective := Operator.connective_of_ne hand hor
  have houter : (∀ o ∈ outer expr, r.effective.connective.rank ≤ o.rank) ↔
      .or ∉ outer expr ∧ .and ∉ outer expr := by
    rw [hconnective]
    exact forall_two_le_rank_iff
  have hcompared : r.compared e =
      .node r.effective.connective e (.leaf (.string r.operand)) := by
    rw [Rule.compared, hconnective]
  refine ⟨r.effective.comparison expr (Literal.escaped r.operand), Literal.escaped r.operand,
    Operator.comparison_of_ne hmember _ _, (spells_string _).lex, fun s => ?_, ?_, ?_⟩
  · obtain ⟨front, back, htext⟩ := compile_fill ⟨m, .escaped⟩ s
    exact ⟨front, back, hatom ▸ htext r hr⟩
  · rw [hcompared, ← houter]
    exact Operator.read_comparison_iff hmember hread r.operand
  · intro hnone s sides hsides hothers
    have hsays := Operator.says_comparison hmember hread (houter.mpr hnone) r.operand
    rw [← hcompared, ← hsides, ← hatom, hconnective] at hsays
    have hlive : r ∈ (s.fill r).survivors := Group.mem_survivors.mpr ⟨s.mem_everyRule_fill r, hr⟩
    refine read_compile_of_says (List.ne_nil_of_mem hlive) fun r' hr' => ?_
    -- an equal rule elsewhere in the tree is written and read in the same way
    by_cases h : r' = r
    · rw [h]
      exact hsays
    · exact hothers r' hr' h

/-- An entity with two computed columns.  In one of them the word stands in parentheses. -/
def computing : Catalog :=
  .ofList
    [("User",
      { fields := [{ name := "score", column? := some "\x7b(a or b) + c\x7d" },
          { name := "either", column? := some "\x7ba or b\x7d" }] })]

/-- A rule on the first of them. -/
def scoring : Rule := ⟨" score", "startwith", "x"⟩

/-- A rule on the second. -/
def choosing : Rule := ⟨"either", "greater", "1"⟩

/-- A rule on a column that is not computed. -/
def counting : Rule := ⟨"n", "equal", "1"⟩

/-- The column with a name of one character. -/
def letter (c : Char) : Formula := .leaf (.column [[c]])

/-- What the first of the computed columns is. -/
def total : Formula := .node .plus (.node .or (letter 'a') (letter 'b')) (letter 'c')

/-- The rule on the column that is not computed says its comparison. -/
theorem says_counting (hm : Mapping.ofCatalog? computing "User" = some m) :
    Says 2 (Query.atom ⟨m, .escaped⟩ counting.condition) (counting.compared (letter 'n')) := by
  have hunmapped : m.mapped? (Text.trim counting.field.toList) = none := by
    rw [Mapping.mapped?_eq hm]
    decide +kernel
  have hplain : m.PlainAt (Text.trim counting.field.toList) := by
    intro _ column hcolumn
    rw [hunmapped] at hcolumn
    cases hcolumn
  have hpath : counting.path m = [['n']] := by
    rw [Rule.path, Mapping.path, hunmapped]
    decide
  have hsays := Rule.says_compared_of_plain (m := m) (r := counting) (by decide) hplain (by decide)
  rw [hpath] at hsays
  exact hsays

/-- The word in parentheses is kept together, also beside another rule, and the other is torn
apart. -/
theorem computed_compares_iff_computing :
    ∃ m, Mapping.ofCatalog? computing "User" = some m ∧
      (∃ part literal, part = "(a or b) + c like ".toList ++ literal ∧
        lex literal = some [.string "x%".toList] ∧
        Sql.read part = some (scoring.compared total)) ∧
      (∃ text, (compile ⟨m, .escaped⟩
          (some ⟨"or", [counting], [{ rules := [scoring] }]⟩)).1 = some text ∧
        Sql.read text =
          some (.node .or (counting.compared (letter 'n')) (scoring.compared total))) ∧
      ∃ part literal, part = "a or b > ".toList ++ literal ∧
        lex literal = some [.string ['1']] ∧
        Sql.read part ≠ some (choosing.compared (.node .or (letter 'a') (letter 'b'))) := by
  obtain ⟨m, hm⟩ : ∃ m, Mapping.ofCatalog? computing "User" = some m :=
    Option.isSome_iff_exists.mp (by decide +kernel)
  have htotal : Sql.read "(a or b) + c".toList = some total := by decide +kernel
  have heither : Sql.read "a or b".toList = some (.node .or (letter 'a') (letter 'b')) := by
    decide +kernel
  have hscore : computing.firstStored? "User" (Text.trim scoring.field.toList) =
      some { name := "score", column? := some "\x7b(a or b) + c\x7d" } := by decide +kernel
  have hchoice : computing.firstStored? "User" (Text.trim choosing.field.toList) =
      some { name := "either", column? := some "\x7ba or b\x7d" } := by decide +kernel
  obtain ⟨part, literal, hpart, hliteral, -, hwhole, htree⟩ :=
    computed_compares_iff hm (by decide +kernel) (by decide) hscore (by decide) htotal (by decide)
  obtain ⟨part', literal', hpart', hliteral', -, htorn, -⟩ :=
    computed_compares_iff hm (by decide +kernel) (by decide) hchoice (by decide) heither (by decide)
  have hnone : .or ∉ outer "(a or b) + c".toList ∧ .and ∉ outer "(a or b) + c".toList := by
    decide +kernel
  refine ⟨m, hm, ⟨part, literal, hpart, hliteral, hwhole.mpr hnone⟩, ?_,
    part', literal', hpart', hliteral', fun h => absurd (htorn.mp h).1 (by decide +kernel)⟩
  -- beside the rule stands one that is no part of it
  have hothers : ∀ r ∈ ((Group.Site.nested "or" [counting] [] (.own "and" [] [] []) []).fill
      scoring).survivors, r ≠ scoring → r = counting := by decide +kernel
  obtain ⟨text, tree, htext, hrow, hread⟩ := htree hnone
    (.nested "or" [counting] [] (.own "and" [] [] []) [])
    (fun r => if r = counting then counting.compared (letter 'n') else scoring.compared total) rfl
    fun r hr hne => by
      rw [hothers r hr hne]
      exact says_counting hm
  have hshape : tree = .node .or (.leaf (counting, 0)) (.leaf (scoring, 1)) :=
    Option.some.inj (hrow.symm.trans (by decide +kernel))
  refine ⟨text, htext, hread.trans ?_⟩
  rw [hshape]
  decide +kernel

/-- **A rule on a computed column may compare a part of it only.** -/
theorem computed_either_torn :
    computing.firstStored? "User" (Text.trim choosing.field.toList) =
      some { name := "either", column? := some "\x7ba or b\x7d" } ∧
    ((Mapping.ofCatalog? computing "User").map fun m =>
      (compile ⟨m, .escaped⟩ (some { rules := [choosing] })).1) =
        some (some ("(".toList ++ "a or b > '1'".toList ++ ")".toList)) ∧
    Sql.read "a or b".toList = some (.node .or (letter 'a') (letter 'b')) ∧
    Sql.read "a or b > '1'".toList =
      some (.node .or (letter 'a') (choosing.compared (letter 'b'))) ∧
    Sql.read "a or b > '1'".toList ≠
      some (choosing.compared (.node .or (letter 'a') (letter 'b'))) := by
  have htorn : Sql.read "a or b > '1'".toList =
      some (.node .or (letter 'a') (choosing.compared (letter 'b'))) := by decide +kernel
  refine ⟨by decide +kernel, by decide +kernel, by decide +kernel, htorn, ?_⟩
  rw [htorn]
  decide +kernel

end Query

end QueryFilter
