import QueryFilter.Proofs.Lexer
import QueryFilter.Proofs.Quoting
import QueryFilter.Proofs.Structure

/-!
# The lexemes of a predicate

In the escaped mode no text of a rule leaves the quotes it is put in.  A
predicate is cut into exactly the lexemes of its tree: the parentheses and words
of its row, and for each surviving rule the names of its column, its operator
and one string.  The strings and names read back to what the rule says.

A mapped column is written as it is, so it must be a single quoted name.

* `spells_intercalate`, `spells_dotted` — a list is read item by item, and a dotted name part
  by part;
* `Rule.spells_sql` — the atom of a rule is read as the rule's lexemes;
* `Row.spells_text` — and so is every expression made of such atoms;
* `Mapping.lex_compile_escaped` — so the whole text of a tree is read, and as
  nothing but its lexemes.
-/

namespace QueryFilter

open Precedence Sql

namespace Sql

/-- The lexemes of a dotted name. -/
def dotted : List (List Char) → List Lexeme
  | [] => []
  | n :: ns => .name n :: ns.flatMap fun n => [.dot, .name n]

/-- A path is its names with dots between them. -/
theorem dotted_eq_intercalate (names : List (List Char)) :
    dotted names = [Lexeme.dot].intercalate (names.map fun n => [.name n]) := by
  cases names with
  | nil => rfl
  | cons n ns =>
      rw [List.map_cons, Text.intercalate_cons, List.flatMap_map]
      rfl

/-- **A list is read item by item,** if what stands between the items ends the one before it. -/
theorem spells_intercalate {α : Type} {sep : Char} {mark : List Lexeme} {text : α → List Char}
    {lexemes : α → List Lexeme} {xs : List α} (hsep : beginLexeme? sep = some (mark, .between))
    (hbreak : isBreak sep = true) (h : ∀ x ∈ xs, Spells (text x) (lexemes x)) :
    Spells ([sep].intercalate (xs.map text)) (mark.intercalate (xs.map lexemes)) := by
  -- the items after the first each begin with the separator, where the item before ends
  have hrest : ∀ ys : List α, (∀ y ∈ ys, Spells (text y) (lexemes y)) →
      Clear (ys.flatMap fun y => sep :: text y) ∧
        Spells (ys.flatMap fun y => sep :: text y) (ys.flatMap fun y => mark ++ lexemes y) := by
    intro ys hys
    induction ys with
    | nil => exact ⟨clear_nil, spells_nil⟩
    | cons y ys ih =>
        obtain ⟨hy, hys⟩ := List.forall_mem_cons.mp hys
        obtain ⟨hclear, hspells⟩ := ih hys
        refine ⟨clear_cons hbreak _, ?_⟩
        rw [List.flatMap_cons, List.flatMap_cons, List.append_assoc]
        exact (hy.append hspells hclear).cons hsep
  cases xs with
  | nil => exact spells_nil
  | cons x xs =>
      obtain ⟨hx, hxs⟩ := List.forall_mem_cons.mp h
      obtain ⟨hclear, hspells⟩ := hrest xs hxs
      rw [List.map_cons, List.map_cons, Text.intercalate_cons, Text.intercalate_cons,
        List.flatMap_map, List.flatMap_map]
      exact hx.append hspells hclear

/-- **A dotted name is read part by part.** -/
theorem spells_dotted (names : List (List Char)) :
    Spells ([Name.dot].intercalate (names.map Name.quote)) (dotted names) := by
  have hdot : beginLexeme? Name.dot = some ([.dot], .between) := rfl
  rw [dotted_eq_intercalate]
  exact spells_intercalate hdot rfl fun n _ => spells_name n

end Sql

/-- The word or sign of an operator as a lexeme. -/
def Operator.lexeme (op : Operator) : Lexeme :=
  if isWord op.sql.toList then .word op.sql.toList else .sign op.sql.toList

/-- The word or sign of an operator spells its lexeme. -/
theorem Operator.spells_sql (op : Operator) : Spells op.sql.toList [op.lexeme] := by
  have hforms : isWord op.sql.toList = true ∨ op.sql.toList ∈ signs := by
    cases op <;> decide
  unfold lexeme
  by_cases hword : isWord op.sql.toList = true
  · rw [if_pos hword]
    exact spells_word hword
  · rw [if_neg hword]
    exact spells_sign (hforms.resolve_left hword)

namespace Mapping

/-- Whether the column of a token, if it is a mapped one, is a single quoted
name. -/
def PlainAt (m : Mapping) (field : List Char) : Prop :=
  Name.dot ∉ field → ∀ column, m.mapped? field = some column → Name.IsQuoted column

/-- Whether every mapped column is a single quoted name. -/
def Plain (m : Mapping) : Prop := ∀ entry ∈ m.columns.entries, Name.IsQuoted entry.2.toList

/-- The names in the column of a trimmed token: the one it is mapped to, or the
parts of the token, without the pair of backticks around each. -/
def path (m : Mapping) (field : List Char) : List (List Char) :=
  match m.mapped? field with
  | some column =>
      if Name.dot ∈ field then (field.splitOn Name.dot).map Name.bare else [Name.bare column]
  | none => (field.splitOn Name.dot).map Name.bare

variable {m : Mapping} {field : List Char}

/-- A mapping that is plain is so at every token. -/
theorem Plain.plainAt (h : m.Plain) (field : List Char) : m.PlainAt field := by
  intro _ column hcolumn
  obtain ⟨text, htext, rfl⟩ := Option.map_eq_some_iff.mp hcolumn
  obtain ⟨front, back, hentries, -⟩ := List.lookup_eq_some_iff.mp htext
  have hmem : (String.ofList (Name.wrap field), text) ∈ m.columns.entries := by
    simp [hentries]
  exact h _ hmem

/-- A dotted name that is quoted anew spells its parts. -/
theorem spells_quotePath (field : List Char) :
    Spells (Name.quotePath field) (dotted ((field.splitOn Name.dot).map Name.bare)) := by
  have hparts := spells_dotted ((field.splitOn Name.dot).map Name.bare)
  rwa [List.map_map] at hparts

/-- **The column of a token is read as its names.** -/
theorem spells_resolve (hblank : Text.trim field ≠ []) (hplain : m.PlainAt field) :
    Spells (m.resolve .escaped field) (dotted (m.path field)) := by
  unfold path
  by_cases hdot : Name.dot ∈ field
  · rw [resolve, safeColumn, if_neg hblank, if_pos (by simpa [Name.isQualified] using hdot)]
    cases m.mapped? field <;> simpa [hdot] using spells_quotePath field
  · rw [resolve, safeColumn, if_neg hblank, if_neg (by simpa [Name.isQualified] using hdot)]
    cases hm : m.mapped? field with
    | none => exact spells_quotePath field
    | some column =>
        have hquoted := Name.eq_quote_bare_iff.mpr (hplain hdot column hm)
        have hname := spells_dotted [Name.bare column]
        rw [List.map_singleton, List.intercalate_singleton, ← hquoted] at hname
        simpa only [hdot, if_false, Option.getD_some] using hname

end Mapping

namespace Rule

/-- The names in the column of a rule. -/
def path (m : Mapping) (r : Rule) : List (List Char) := m.path (Text.trim r.field.toList)

/-- The lexemes of a surviving rule: its column, its operator and one string. -/
def lexemes (m : Mapping) (r : Rule) : List Lexeme :=
  let column := dotted (r.path m)
  match r.effective with
  | .memberOf =>
      .word memberWord :: .opening :: column ++ [.comma, .string r.operand, .closing]
  | op => column ++ [op.lexeme, .string r.operand]

/-- Every comparison but membership is a path, an operator and a string. -/
theorem lexemes_of_ne {m : Mapping} {r : Rule} (h : r.effective ≠ .memberOf) :
    r.lexemes m = dotted (r.path m) ++ [r.effective.lexeme, .string r.operand] := by
  unfold lexemes
  split
  · next hop => exact absurd hop h
  · rfl

/-- **The atom of a rule is read as its lexemes.** -/
theorem spells_sql {m : Mapping} {r : Rule} (h : r.Survives)
    (hplain : m.PlainAt (Text.trim r.field.toList)) :
    Spells (r.condition.sql m .escaped) (r.lexemes m) := by
  have hblank : Text.trim (Text.trim r.field.toList) ≠ [] := h.trim_field_ne_nil
  have hcolumn : Spells (m.resolve .escaped (Text.trim r.field.toList)) (dotted (r.path m)) :=
    Mapping.spells_resolve hblank hplain
  have hliteral : Spells (Literal.quote .escaped r.operand) [.string r.operand] :=
    spells_string r.operand
  by_cases hop : r.effective = .memberOf
  · have htext : r.condition.sql m .escaped =
        memberWord ++ '(' :: (m.resolve .escaped (Text.trim r.field.toList) ++
          ',' :: Literal.quote .escaped r.operand ++ [')']) := by
      have hopen : "FIND_IN_SET(".toList = memberWord ++ ['('] := rfl
      have hsep : ",".toList = [','] := rfl
      have hclose : ")".toList = [')'] := rfl
      rw [Condition.sql, condition, hop, Operator.comparison_memberOf, hopen, hsep, hclose]
      simp only [List.append_assoc, List.cons_append, List.nil_append]
    have hcomma : beginLexeme? ',' = some ([.comma], .between) := rfl
    have hinside := hcolumn.append (hliteral.cons hcomma) (clear_cons rfl _)
    have hword : Spells memberWord [.word memberWord] := spells_word (by decide +kernel)
    have hcall := hword.append hinside.parens (clear_cons rfl _)
    rw [htext]
    simpa [lexemes, hop] using hcall
  · have htext : r.condition.sql m .escaped =
        m.resolve .escaped (Text.trim r.field.toList) ++
          ' ' :: (r.effective.sql.toList ++ ' ' :: Literal.quote .escaped r.operand) := by
      rw [Condition.sql, condition, Operator.comparison_of_ne hop]
      simp
    have hcomparison := hcolumn.spaced r.effective.spells_sql hliteral
    rw [htext, lexemes_of_ne hop]
    exact hcomparison

end Rule

namespace Row

/-- The lexemes of one token of a row. -/
def tokenLexemes (m : Mapping) : Token Occurrence Combinator → List Lexeme
  | .leaf r => r.1.lexemes m
  | .op c => [c.operator.lexeme]
  | .opening => [.opening]
  | .closing => [.closing]

/-- The lexemes of a row. -/
def lexemes (m : Mapping) (row : Row) : List Lexeme := row.flatMap (tokenLexemes m)

/-- **An expression is read as the lexemes of its row** if its atoms are. -/
theorem spells_text {m : Mapping} {atom : Rule → List Char} {p : Nat}
    {e : Expr Occurrence Combinator} {row : Row} (h : Derives Combinator.rank p e row)
    (hatoms : ∀ r ∈ leaves row, Spells (atom r.1) (r.1.lexemes m)) :
    Spells (text atom row) (lexemes m row) := by
  induction h with
  | leaf p r =>
      have hatom := hatoms r (by simp)
      simpa [text, lexemes, spell, tokenLexemes] using hatom
  | @parens p e ts h ih =>
      have hinside := ih fun r hr => hatoms r (by simpa using hr)
      simpa [text, lexemes, spell, tokenLexemes] using hinside.parens
  | @node p o l r ts us hp hl hr ihl ihr =>
      have hleft := ihl fun x hx => hatoms x (by simp [hx])
      have hright := ihr fun x hx => hatoms x (by simp [hx])
      have hboth := hleft.spaced o.operator.spells_sql hright
      simpa [text, lexemes, spell, tokenLexemes, Combinator.sql] using hboth

end Row

/-- A tree in which a rule survives is read as the lexemes of its row. -/
theorem Group.spells_row {m : Mapping} {g : Group} {k : Nat} (h : g.survivors ≠ [])
    (hplain : ∀ r ∈ g.survivors, m.PlainAt (Text.trim r.field.toList)) :
    Spells (Row.text (fun r => r.condition.sql m .escaped) (g.row k))
      (Row.lexemes m (g.row k)) := by
  obtain ⟨e, hparse, -⟩ := Group.parse_row (k := k) h
  refine Row.spells_text (parse_eq_some_iff.mp hparse) fun r hr => ?_
  rw [Group.leaves_row] at hr
  have hmem : r.1 ∈ g.survivors := List.fst_mem_of_mem_zipIdx hr
  exact Rule.spells_sql (Group.mem_survivors.mp hmem).2 (hplain r.1 hmem)

/-- **Escaped text cannot leave its quotes.**  The predicate of a tree is made of
lexemes from end to end, and they are those of its row: the parentheses and
words between the surviving rules, and for each of these its names, its operator
and its string, in order.  Only the mapped columns that are used have to be
quoted names; fields, operators and values may be any texts. -/
theorem Mapping.lex_compile_escaped (m : Mapping) (g : Group)
    (hplain : ∀ r ∈ g.survivors, m.PlainAt (Text.trim r.field.toList)) :
    ((Query.compile ⟨m, .escaped⟩ (some g)).1 = none ↔ g.survivors = []) ∧
    ∀ text, (Query.compile ⟨m, .escaped⟩ (some g)).1 = some text →
      lex text = some (Row.lexemes m (g.row 0)) ∧
        leaves (g.row 0) = g.survivors.zipIdx := by
  rw [Query.compile_eq_row]
  by_cases hnone : g.survivors = []
  · simp [hnone]
  · rw [if_neg hnone]
    refine ⟨by simp [hnone], ?_⟩
    rintro text ⟨⟩
    exact ⟨(Group.spells_row hnone hplain).lex, Group.leaves_row 0 g⟩

/-- The mapping of one field. -/
def Mapping.single (key column : String) : Mapping := ⟨"", ⟨[(key, column)], by simp⟩⟩

/-- A mapping of one quoted column is plain. -/
theorem Mapping.plain_single (key : String) {column : String}
    (h : Name.IsQuoted column.toList) : (single key column).Plain := by
  intro entry hentry
  rw [List.mem_singleton.mp hentry]
  exact h

/-- A tree whose texts try to leave their quotes: by a quote, a backslash at the
end, a backtick, and a name without characters. -/
def Group.hostile : Group where
  operate := "OR"
  rules := [⟨"name", "equal", "' or 1=1 -- \\"⟩]
  groups := [{ rules := [⟨"a`.`b`.", "in", ",x',y,"⟩] }]

/-- Names and values that try to leave their quotes are read as what they are. -/
theorem Mapping.lex_compile_escaped_hostile :
    (∀ r ∈ Group.hostile.survivors,
      (Mapping.single "`name`" "`user_name`").PlainAt (Text.trim r.field.toList)) ∧
    ∃ text, (Query.compile ⟨.single "`name`" "`user_name`", .escaped⟩ (some .hostile)).1 =
        some text ∧
      lex text = some
        [.opening, .opening, .name "user_name".toList, .sign ['='],
          .string "' or 1=1 -- \\".toList, .closing, .word ['o', 'r'],
          .opening, .word "FIND_IN_SET".toList, .opening,
          .name ['a', '`'], .dot, .name ['b'], .dot, .name [], .comma,
          .string "x',y".toList, .closing, .closing, .closing] := by
  have hplain : (Mapping.single "`name`" "`user_name`").Plain :=
    Mapping.plain_single _ ⟨"user_name".toList, by decide, rfl⟩
  obtain ⟨hnone, hlex⟩ := Mapping.lex_compile_escaped (.single "`name`" "`user_name`") .hostile
    fun r _ => hplain.plainAt _
  refine ⟨fun r _ => hplain.plainAt _, ?_⟩
  cases htext : (Query.compile ⟨.single "`name`" "`user_name`", .escaped⟩ (some .hostile)).1 with
  | none => exact absurd (hnone.mp htext) (by decide +kernel)
  | some text =>
      refine ⟨text, rfl, (hlex text htext).1.trans (congrArg some ?_)⟩
      decide +kernel

end QueryFilter
