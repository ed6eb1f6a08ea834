import QueryFilter.Proofs.Lexer
import QueryFilter.Proofs.Precedence

/-!
# Expressions of SQL

An expression of SQL is read in two steps.  The lexemes are gathered from the
right into operands and operators, where the names of a dotted column and the
pieces of a membership test come together; then the row of tokens is read by
precedence.  An addition binds tighter than a comparison, a comparison tighter
than `and`, and `and` tighter than `or`.

What columns, strings and comparisons stand for is left to an interpretation.
Truth has three values, since a comparison with a missing value is neither true
nor false.

* `Sql.read` — the expression that a text writes;
* `Piece.foldr_gather_op` — no lexeme looks past an operator, so what stands before one is gathered
  on its own;
* `Interpretation.holds_and`, `Interpretation.holds_or` — where truth is
  concerned, the two words mean what they do with two truth values.
-/

namespace QueryFilter.Sql

open Precedence

/-- What an expression is made of. -/
inductive Operand where
  /-- The column with a dotted name. -/
  | column (path : List (List Char))
  | string (v : List Char)
  /-- The test whether a column is a member of a list. -/
  | memberOf (path : List (List Char)) (v : List Char)
deriving DecidableEq, Repr

/-- What stands between two sides. -/
inductive Connective where
  | or
  | and
  | compare (sign : List Char)
  | plus
deriving DecidableEq, Repr

namespace Connective

/-- How tight a connective binds. -/
def rank : Connective → Nat
  | or => 0
  | and => 1
  | compare _ => 2
  | plus => 3

/-- The connective that a word is, in any letter case. -/
def ofWord? (w : List Char) : Option Connective :=
  let word := w.map Char.toLower
  if word = ['o', 'r'] then some or
  else if word = ['a', 'n', 'd'] then some and
  else if word = ['l', 'i', 'k', 'e'] then some (compare word)
  else none

/-- The connective written with signs. -/
def ofSign (s : List Char) : Connective := if s = ['+'] then plus else compare s

end Connective

/-- An expression. -/
abbrev Formula := Expr Operand Connective

/-- A token of a written expression. -/
abbrev Phrase := Token Operand Connective

/-- A token, or a mark that belongs inside of one. -/
inductive Piece where
  | phrase (p : Phrase)
  | comma
  | dot
deriving DecidableEq, Repr

namespace Piece

def phrase? : Piece → Option Phrase
  | phrase p => some p
  | _ => none

/-- A name, at the front of a dotted one if a dot comes next. -/
def gatherName (n : List Char) : List Piece → List Piece
  | dot :: phrase (.leaf (.column path)) :: ps => phrase (.leaf (.column (n :: path))) :: ps
  | ps => phrase (.leaf (.column [n])) :: ps

/-- The word of the membership test, with the column and the list in the
parentheses after it. -/
def gatherCall : List Piece → List Piece
  | phrase .opening :: phrase (.leaf (.column path)) :: comma ::
      phrase (.leaf (.string v)) :: phrase .closing :: ps =>
        phrase (.leaf (.memberOf path v)) :: ps
  | ps => gatherName memberWord ps

/-- Takes one more lexeme in front of what is gathered. -/
def gather : Lexeme → List Piece → List Piece
  | .opening, ps => phrase .opening :: ps
  | .closing, ps => phrase .closing :: ps
  | .comma, ps => comma :: ps
  | .dot, ps => dot :: ps
  | .sign s, ps => phrase (.op (.ofSign s)) :: ps
  | .string v, ps => phrase (.leaf (.string v)) :: ps
  | .name n, ps => gatherName n ps
  | .word w, ps =>
      match Connective.ofWord? w with
      | some o => phrase (.op o) :: ps
      | none => if w = memberWord then gatherCall ps else gatherName w ps

end Piece

/-- The tokens that lexemes make, if no mark is left over. -/
def phrases? (ls : List Lexeme) : Option (List Phrase) :=
  (ls.foldr Piece.gather []).mapM Piece.phrase?

/-- The expression that a text writes. -/
def read (s : List Char) : Option Formula :=
  (lex s).bind fun ls => (phrases? ls).bind (parse Connective.rank)

namespace Piece

/-- What begins with pieces among which there is no operator, begins with them before the first
operator. -/
theorem exists_append_of_op {front rest ps qs : List Piece} {o : Connective}
    (h : ps ++ phrase (.op o) :: qs = front ++ rest) (hfront : phrase (.op o) ∉ front) :
    ∃ ps', ps = front ++ ps' := by
  rcases List.append_eq_append_iff.mp h with ⟨middle, rfl, hmiddle⟩ | ⟨middle, rfl, -⟩
  · cases middle with
    | nil => exact ⟨[], by simp⟩
    | cons p middle =>
        obtain ⟨rfl, -⟩ := List.cons_eq_cons.mp hmiddle
        exact absurd (by simp) hfront
  · exact ⟨middle, rfl⟩

/-- A name is gathered up to the next operator at most. -/
theorem gatherName_append_op (n : List Char) (ps : List Piece) (o : Connective)
    (qs : List Piece) :
    gatherName n (ps ++ phrase (.op o) :: qs) = gatherName n ps ++ phrase (.op o) :: qs := by
  by_cases h : ∃ path ps', ps = [dot, phrase (.leaf (.column path))] ++ ps'
  · obtain ⟨path, ps', rfl⟩ := h
    rfl
  · rw [gatherName, gatherName]
    · rfl
    · rintro path ps' rfl
      exact h ⟨path, ps', rfl⟩
    · intro path rest hrest
      obtain ⟨ps', hps⟩ : ∃ ps', ps = [dot, phrase (.leaf (.column path))] ++ ps' :=
        exists_append_of_op hrest (by simp)
      exact h ⟨path, ps', hps⟩

/-- A call is gathered up to the next operator at most. -/
theorem gatherCall_append_op (ps : List Piece) (o : Connective) (qs : List Piece) :
    gatherCall (ps ++ phrase (.op o) :: qs) = gatherCall ps ++ phrase (.op o) :: qs := by
  by_cases h : ∃ path v ps', ps = [phrase .opening, phrase (.leaf (.column path)), comma,
      phrase (.leaf (.string v)), phrase .closing] ++ ps'
  · obtain ⟨path, v, ps', rfl⟩ := h
    rfl
  · rw [gatherCall, gatherCall, gatherName_append_op]
    · rintro path v ps' rfl
      exact h ⟨path, v, ps', rfl⟩
    · intro path v rest hrest
      obtain ⟨ps', hps⟩ : ∃ ps', ps = [phrase .opening, phrase (.leaf (.column path)), comma,
          phrase (.leaf (.string v)), phrase .closing] ++ ps' :=
        exists_append_of_op hrest (by simp)
      exact h ⟨path, v, ps', hps⟩

/-- **No lexeme looks past an operator.** -/
theorem gather_append_op (l : Lexeme) (ps : List Piece) (o : Connective) (qs : List Piece) :
    gather l (ps ++ phrase (.op o) :: qs) = gather l ps ++ phrase (.op o) :: qs := by
  cases l with
  | name n => exact gatherName_append_op n ps o qs
  | word w =>
      simp only [gather]
      cases Connective.ofWord? w with
      | some o' => rfl
      | none =>
          by_cases hw : w = memberWord
          · simpa only [hw, if_true] using gatherCall_append_op ps o qs
          · simpa only [hw, if_false] using gatherName_append_op w ps o qs
  | _ => rfl

/-- What stands before an operator is gathered by itself. -/
theorem foldr_gather_op (ls : List Lexeme) (o : Connective) (qs : List Piece) :
    ls.foldr gather (phrase (.op o) :: qs) = ls.foldr gather [] ++ phrase (.op o) :: qs := by
  induction ls with
  | nil => rfl
  | cons l ls ih => rw [List.foldr_cons, List.foldr_cons, ih, gather_append_op]

/-- Pieces that are all tokens. -/
theorem mapM_phrase?_eq_some_iff {ps : List Piece} {ts : List Phrase} :
    ps.mapM phrase? = some ts ↔ ps = ts.map .phrase := by
  induction ps generalizing ts with
  | nil => cases ts <;> simp
  | cons p ps ih =>
      rw [List.mapM_cons]
      cases p with
      | phrase p =>
          have hcons : (do let t ← phrase? (phrase p); let us ← ps.mapM phrase?; pure (t :: us)) =
              (ps.mapM phrase?).map (p :: ·) := by
            cases ps.mapM phrase? <;> rfl
          rw [hcons, Option.map_eq_some_iff]
          constructor
          · rintro ⟨us, hus, rfl⟩
            rw [ih.mp hus, List.map_cons]
          · intro hps
            obtain ⟨t, us, rfl, ht, hus⟩ := List.map_eq_cons_iff.mp hps.symm
            cases ht
            exact ⟨us, ih.mpr hus.symm, rfl⟩
      | comma => cases ts <;> simp [phrase?]
      | dot => cases ts <;> simp [phrase?]

end Piece

/-- Lexemes are phrases if nothing is left that is none. -/
theorem phrases?_eq_some_iff {ls : List Lexeme} {ts : List Phrase} :
    phrases? ls = some ts ↔ ls.foldr Piece.gather [] = ts.map .phrase :=
  Piece.mapM_phrase?_eq_some_iff

/-! ## What an expression says -/

/-- A conjunction of two truths, of which either may be unknown. -/
def both : Option Bool → Option Bool → Option Bool
  | some false, _ => some false
  | _, some false => some false
  | some true, some true => some true
  | _, _ => none

/-- A disjunction of two truths, of which either may be unknown. -/
def either : Option Bool → Option Bool → Option Bool
  | some true, _ => some true
  | _, some true => some true
  | some false, some false => some false
  | _, _ => none

/-- A conjunction is true if both of its sides are. -/
theorem both_eq_true_iff {a b : Option Bool} :
    both a b = some true ↔ a = some true ∧ b = some true := by
  rcases a with _ | _ | _ <;> rcases b with _ | _ | _ <;> decide

/-- A disjunction is true if one of its sides is. -/
theorem either_eq_true_iff {a b : Option Bool} :
    either a b = some true ↔ a = some true ∨ b = some true := by
  rcases a with _ | _ | _ <;> rcases b with _ | _ | _ <;> decide

/-- What columns, strings and comparisons stand for in one row of a table.
Every value has a truth, and every truth is that of some value. -/
structure Interpretation (V : Type) where
  column : List (List Char) → V
  string : List Char → V
  memberOf : V → V → V
  compare : List Char → V → V → V
  plus : V → V → V
  truth : V → Option Bool
  ofTruth : Option Bool → V
  truth_ofTruth : ∀ b, truth (ofTruth b) = b

namespace Interpretation

variable {V : Type} (I : Interpretation V)

/-- The value of an operand. -/
def operand : Operand → V
  | .column path => I.column path
  | .string v => I.string v
  | .memberOf path v => I.memberOf (I.column path) (I.string v)

/-- What a connective makes of two values. -/
def connect : Connective → V → V → V
  | .or => fun a b => I.ofTruth (either (I.truth a) (I.truth b))
  | .and => fun a b => I.ofTruth (both (I.truth a) (I.truth b))
  | .compare sign => I.compare sign
  | .plus => I.plus

/-- Whether an expression is true, so that a row with it is selected. -/
def Holds (e : Formula) : Prop := I.truth (e.eval I.operand I.connect) = some true

/-- A row is selected by a conjunction if both of its sides select it. -/
theorem holds_and {l r : Formula} : I.Holds (.node .and l r) ↔ I.Holds l ∧ I.Holds r := by
  have hvalue : I.Holds (.node .and l r) ↔ I.truth (I.ofTruth (both
      (I.truth (l.eval I.operand I.connect)) (I.truth (r.eval I.operand I.connect)))) =
        some true := Iff.rfl
  rw [hvalue, I.truth_ofTruth]
  exact both_eq_true_iff

/-- A row is selected by a disjunction if one of its sides selects it. -/
theorem holds_or {l r : Formula} : I.Holds (.node .or l r) ↔ I.Holds l ∨ I.Holds r := by
  have hvalue : I.Holds (.node .or l r) ↔ I.truth (I.ofTruth (either
      (I.truth (l.eval I.operand I.connect)) (I.truth (r.eval I.operand I.connect)))) =
        some true := Iff.rfl
  rw [hvalue, I.truth_ofTruth]
  exact either_eq_true_iff

end Interpretation

end QueryFilter.Sql
