import QueryFilter.Proofs.Expression
import QueryFilter.Proofs.Lexemes

/-!
# Predicates as expressions

A predicate in the escaped mode is an expression of SQL, whose tokens are those
of its tree: the parentheses and words of its row, and for each surviving rule a
membership test, or a column and a string with the operator between them.

The operators of rules include the words `and` and `or`.  These are gathered
into the same connectives as the words between the rules, and nothing tells the
two apart any more.

* `Rule.gather_lexemes` — the lexemes of a rule make its tokens, whatever
  follows;
* `Row.phrases?_lexemes` — and so do those of a row;
* `Query.read_compile` — so a predicate is read as the row of its tree is.
-/

namespace QueryFilter

open Precedence Sql

/-- An operator as a connective. -/
def Operator.connective : Operator → Connective
  | .and => .and
  | .or => .or
  | op => .compare op.sql.toList

/-- Every operator but membership is gathered as a connective. -/
theorem Operator.gather_lexeme {op : Operator} (h : op ≠ .memberOf) (ps : List Piece) :
    Piece.gather op.lexeme ps = .phrase (.op op.connective) :: ps := by
  cases op with
  | memberOf => exact absurd rfl h
  | _ => rfl

/-- A column has a name. -/
theorem Mapping.path_ne_nil (m : Mapping) (field : List Char) : m.path field ≠ [] := by
  unfold path
  split
  · split <;> simp [List.splitOn_ne_nil]
  · simp [List.splitOn_ne_nil]

/-- **The names of a dotted name are gathered into one column.** -/
theorem Sql.gather_dotted {path : List (List Char)} (hpath : path ≠ []) (ps : List Piece)
    (hps : ps.head? ≠ some .dot) :
    (dotted path).foldr Piece.gather ps = .phrase (.leaf (.column path)) :: ps := by
  obtain ⟨n, ns, rfl⟩ := List.exists_cons_of_ne_nil hpath
  clear hpath
  induction ns generalizing n with
  | nil =>
      cases ps with
      | nil => rfl
      | cons p ps =>
          cases p with
          | dot => exact absurd rfl hps
          | comma => rfl
          | phrase p => rfl
  | cons n' ns ih =>
      have hfront : (dotted (n :: n' :: ns)).foldr Piece.gather ps =
          Piece.gatherName n (.dot :: (dotted (n' :: ns)).foldr Piece.gather ps) := rfl
      rw [hfront, ih n']
      rfl

namespace Rule

/-- The tokens of a surviving rule. -/
def phrases (m : Mapping) (r : Rule) : List Phrase :=
  match r.effective with
  | .memberOf => [.leaf (.memberOf (r.path m) r.operand)]
  | op => [.leaf (.column (r.path m)), .op op.connective, .leaf (.string r.operand)]

/-- Every comparison but membership is three phrases. -/
theorem phrases_of_ne {m : Mapping} {r : Rule} (h : r.effective ≠ .memberOf) :
    r.phrases m =
      [.leaf (.column (r.path m)), .op r.effective.connective, .leaf (.string r.operand)] := by
  unfold phrases
  split
  · next hop => exact absurd hop h
  · rfl

/-- **The lexemes of a rule make its tokens**, whatever follows. -/
theorem gather_lexemes (m : Mapping) (r : Rule) (ps : List Piece) :
    (r.lexemes m).foldr Piece.gather ps = (r.phrases m).map .phrase ++ ps := by
  have hpath : r.path m ≠ [] := m.path_ne_nil _
  by_cases hop : r.effective = .memberOf
  · have hcolumn := gather_dotted hpath
      (.comma :: .phrase (.leaf (.string r.operand)) :: .phrase .closing :: ps) (by simp)
    have hlexemes : (r.lexemes m).foldr Piece.gather ps =
        Piece.gatherCall (.phrase .opening :: (dotted (r.path m)).foldr Piece.gather
          (.comma :: .phrase (.leaf (.string r.operand)) :: .phrase .closing :: ps)) := by
      simp only [lexemes, hop, List.foldr_cons, List.foldr_append]
      rfl
    rw [hlexemes, hcolumn, phrases, hop]
    rfl
  · have hcolumn := gather_dotted hpath
      (.phrase (.op r.effective.connective) :: .phrase (.leaf (.string r.operand)) :: ps)
      (by simp)
    have hlexemes : (r.lexemes m).foldr Piece.gather ps =
        (dotted (r.path m)).foldr Piece.gather
          (Piece.gather r.effective.lexeme (.phrase (.leaf (.string r.operand)) :: ps)) := by
      rw [lexemes_of_ne hop, List.foldr_append]
      rfl
    rw [hlexemes, Operator.gather_lexeme hop, hcolumn, phrases_of_ne hop]
    rfl

end Rule

namespace Row

/-- The tokens of one token of a row. -/
def tokenPhrases (m : Mapping) : Token Occurrence Combinator → List Phrase
  | .leaf r => r.1.phrases m
  | .op c => [.op c.operator.connective]
  | .opening => [.opening]
  | .closing => [.closing]

/-- The tokens of a row, as SQL reads it. -/
def phrases (m : Mapping) (row : Row) : List Phrase := row.flatMap (tokenPhrases m)

/-- **The lexemes of a row make its tokens.** -/
theorem phrases?_lexemes (m : Mapping) (row : Row) :
    phrases? (lexemes m row) = some (phrases m row) := by
  have hpieces : (lexemes m row).foldr Piece.gather [] = (phrases m row).map .phrase := by
    induction row with
    | nil => rfl
    | cons t row ih =>
        have hrest : (lexemes m (t :: row)).foldr Piece.gather [] =
            (tokenLexemes m t).foldr Piece.gather ((phrases m row).map .phrase) := by
          rw [lexemes, List.flatMap_cons, List.foldr_append, ← ih]
          rfl
        have hphrases : phrases m (t :: row) = tokenPhrases m t ++ phrases m row :=
          List.flatMap_cons
        rw [hrest, hphrases, List.map_append]
        cases t with
        | leaf r => exact r.1.gather_lexemes m _
        | op c =>
            have hword : c.operator ≠ .memberOf := by
              cases c <;> decide
            exact Operator.gather_lexeme hword _
        | opening => rfl
        | closing => rfl
  exact phrases?_eq_some_iff.mpr hpieces

end Row

/-- **A predicate is read as the row of its tree is**, if the mapped columns are
quoted names. -/
theorem Query.read_compile {m : Mapping} (hplain : m.Plain) {g : Group} (h : g.survivors ≠ []) :
    ∃ text, (Query.compile ⟨m, .escaped⟩ (some g)).1 = some text ∧
      Sql.read text = parse Connective.rank (Row.phrases m (g.row 0)) := by
  have hlex := (Group.spells_row (k := 0) h fun r _ => hplain.plainAt _).lex
  refine ⟨_, (Query.compile_eq_row _ g).trans (if_neg h), ?_⟩
  show (lex (Row.text (fun r => r.condition.sql m .escaped) (g.row 0))).bind _ = _
  rw [hlex, Option.bind_some, Row.phrases?_lexemes, Option.bind_some]

end QueryFilter
