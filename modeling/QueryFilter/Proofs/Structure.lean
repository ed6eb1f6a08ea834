import QueryFilter.Proofs.Concatenation
import QueryFilter.Proofs.Precedence
import QueryFilter.Proofs.Survivors

/-!
# The structure of a predicate

A predicate is read with `and` binding tighter than `or`.  A tree, on the other
hand, says what it means without any text: the surviving rules of a group are
conjoined, so are its nested groups, and the combinator of the group stands
between the two.  This file proves that the reading of the text is the meaning
of the tree.

Every surviving rule is an atom of its own.  Atoms are numbered in the order of
the text, so two equal rules at two places may be given different truth values.

* `Group.row` — the row of atoms, words and parentheses a tree is written as;
* `Group.meaning` — what a tree says under given truth values of its atoms;
* `Group.operands` — the tree as a list of operands, none with an operator outside
  of its own parentheses: this is the invariant that lets nested texts stand
  beside an `or` without parentheses;
* `Query.compile_reads_as_meaning` — the row is what is compiled, and it reads
  as the meaning.
-/

namespace QueryFilter

open Precedence

namespace Combinator

/-- `and` binds tighter than `or`. -/
def rank : Combinator → Nat
  | or => 0
  | and => 1

/-- What a combinator does to truth values. -/
def apply : Combinator → Bool → Bool → Bool
  | or => Bool.or
  | and => Bool.and

end Combinator

/-- A surviving rule and its number in the order of the text. -/
abbrev Occurrence := Rule × Nat

/-- A row of numbered rules, words and parentheses. -/
abbrev Row := List (Token Occurrence Combinator)

namespace Row

/-- Rows with `and` between them. -/
def conjoin (rows : List Row) : Row := [.op .and].intercalate rows

/-- A row in parentheses. -/
def enclose (row : Row) : Row := .opening :: row ++ [.closing]

/-- The row of a group's own rules. -/
def own (rules : List Occurrence) : Row := enclose (conjoin (rules.map fun r => [.leaf r]))

/-- One token as text, with each rule written by `atom`. -/
def spell (atom : Rule → List Char) : Token Occurrence Combinator → List Char
  | .leaf r => atom r.1
  | .op c => " ".toList ++ c.sql.toList ++ " ".toList
  | .opening => "(".toList
  | .closing => ")".toList

/-- A row as text. -/
def text (atom : Rule → List Char) (row : Row) : List Char := row.flatMap (spell atom)

@[simp] theorem conjoin_nil : conjoin [] = [] := rfl

@[simp] theorem conjoin_singleton (row : Row) : conjoin [row] = row := by simp [conjoin]

/-- A row before others is followed by one word. -/
theorem conjoin_cons_of_ne_nil {rows : List Row} (h : rows ≠ []) (row : Row) :
    conjoin (row :: rows) = row ++ .op .and :: conjoin rows := by
  simp [conjoin, List.intercalate_cons_of_ne_nil h]

/-- Each row but the first has the word in front. -/
theorem conjoin_cons (row : Row) (rows : List Row) :
    conjoin (row :: rows) = row ++ rows.flatMap fun x => .op .and :: x := by
  rw [conjoin, Text.intercalate_cons]
  rfl

/-- A conjunction within a conjunction needs no parentheses. -/
theorem conjoin_append {a b : List Row} (ha : a ≠ []) (hb : b ≠ []) :
    conjoin (a ++ b) = conjoin a ++ .op .and :: conjoin b := by
  obtain ⟨row, a, rfl⟩ := List.exists_cons_of_ne_nil ha
  obtain ⟨x, b, rfl⟩ := List.exists_cons_of_ne_nil hb
  simp [conjoin_cons]

/-- Rows that are not empty are conjoined to the empty row only if there are none. -/
theorem conjoin_eq_nil_iff {rows : List Row} (h : ∀ x ∈ rows, x ≠ []) :
    conjoin rows = [] ↔ rows = [] := by
  cases rows with
  | nil => simp [conjoin]
  | cons x rows =>
      have hx : x ≠ [] := h x List.mem_cons_self
      simp [conjoin_cons, hx]

/-- The text of two rows is that of one behind the other. -/
theorem text_append (atom : Rule → List Char) (a b : Row) :
    text atom (a ++ b) = text atom a ++ text atom b :=
  List.flatMap_append

/-- A row in parentheses is written as its text in parentheses. -/
theorem text_enclose (atom : Rule → List Char) (row : Row) :
    text atom (enclose row) = Clause.parens (text atom row) := by
  simp [text, enclose, spell, Clause.parens]

/-- A conjunction of rows is written as the conjunction of their texts. -/
theorem text_conjoin (atom : Rule → List Char) (rows : List Row) :
    text atom (conjoin rows) = Clause.conjoin (rows.map (text atom)) := by
  induction rows with
  | nil => rfl
  | cons row rows ih =>
      by_cases h : rows = []
      · simp [h, Clause.conjoin]
      · have h' : rows.map (text atom) ≠ [] := by simpa using h
        have hword : ∀ rest, text atom (.op .and :: rest) = " and ".toList ++ text atom rest :=
          fun _ => rfl
        have hclause : Clause.conjoin (text atom row :: rows.map (text atom)) =
            text atom row ++ (" and ".toList ++ Clause.conjoin (rows.map (text atom))) := by
          rw [Clause.conjoin, List.intercalate_cons_of_ne_nil h', List.append_assoc]
          rfl
        rw [conjoin_cons_of_ne_nil h, text_append, hword, ih, List.map_cons, hclause]

/-- The row of a group's own rules is written as their conjunction in parentheses. -/
theorem text_own (atom : Rule → List Char) (rules : List Occurrence) :
    text atom (own rules) = Clause.parens (Clause.conjoin (rules.map fun r => atom r.1)) := by
  rw [own, text_enclose, text_conjoin, List.map_map]
  congr 3
  funext r
  simp [text, spell]

end Row

/-! ## What a tree is written as, and what it says -/

/-- The conjunction of some truth values, if there are any. -/
def conjunction? : List Bool → Option Bool
  | [] => none
  | bs => some (bs.all id)

/-- A combinator between the two sides of a group; a missing side leaves the
other alone. -/
def Combinator.join (c : Combinator) : Option Bool → Option Bool → Option Bool
  | none, nested => nested
  | own, none => own
  | some own, some nested => some (c.apply own nested)

namespace Group

mutual

/-- The row that a group is written as when its first atom is number `k`.  It is
empty if no rule survives. -/
def row (k : Nat) : Group → Row
  | ⟨operate, rules, groups⟩ =>
      let own := (rules.filter fun r => r.Survives).zipIdx k
      let nested := Row.conjoin (rows (k + own.length) groups)
      if own = [] then nested
      else if nested = [] then Row.own own
      else Row.enclose (Row.own own ++ .op (Combinator.ofText operate) :: nested)

/-- The rows of those groups in which a rule survives. -/
def rows (k : Nat) : List Group → List Row
  | [] => []
  | g :: gs =>
      let rest := rows (k + g.survivors.length) gs
      if g.row k = [] then rest else g.row k :: rest

end

mutual

/-- What a group says when its first atom is number `k` and `ρ` gives the truth
of the atoms.  It says nothing if no rule survives. -/
def meaning (ρ : Occurrence → Bool) (k : Nat) : Group → Option Bool
  | ⟨operate, rules, groups⟩ =>
      let own := (rules.filter fun r => r.Survives).zipIdx k
      (Combinator.ofText operate).join (conjunction? (own.map ρ))
        (conjunction? (meanings ρ (k + own.length) groups))

/-- What those groups say that say anything. -/
def meanings (ρ : Occurrence → Bool) (k : Nat) : List Group → List Bool
  | [] => []
  | g :: gs => (g.meaning ρ k).toList ++ meanings ρ (k + g.survivors.length) gs

end

end Group

/-! ## Operands -/

/-- A written expression that is a side of any operator as it stands. -/
structure Operand where
  expr : Expr Occurrence Combinator
  row : Row
  derives : ∀ p, Derives Combinator.rank p expr row

namespace Operand

/-- The rules of a group, one after another, are a conjunction. -/
theorem derives_own (r : Occurrence) (rs : List Occurrence) :
    Derives Combinator.rank 1 (.chain .and (.leaf r) (rs.map .leaf))
      (Row.conjoin ((r :: rs).map fun x => [.leaf x])) := by
  have hfirst : Derives Combinator.rank (Combinator.rank .and) (.leaf r) [.leaf r] := .leaf 1 r
  rw [List.map_cons, Row.conjoin_cons, List.flatMap_map]
  exact hfirst.chain .leaf (fun x => [.leaf x]) rs fun x _ => .leaf 2 x

/-- The operand of a group's own rules. -/
def own (r : Occurrence) (rs : List Occurrence) : Operand where
  expr := .chain .and (.leaf r) (rs.map .leaf)
  row := Row.own (r :: rs)
  derives p := .parens p ((derives_own r rs).weaken (Nat.zero_le 1))

/-- Operands one after another are a conjunction. -/
theorem derives_conjoin (x : Operand) (xs : List Operand) :
    Derives Combinator.rank 1 (.chain .and x.expr (xs.map expr))
      (Row.conjoin ((x :: xs).map row)) := by
  have hfirst : Derives Combinator.rank (Combinator.rank .and) x.expr x.row := x.derives 1
  rw [List.map_cons, Row.conjoin_cons, List.flatMap_map]
  exact hfirst.chain expr row xs fun y _ => y.derives 2

/-- How the two sides of a group are read.  Nested operands go without
parentheses: behind an `or` they are one conjunction, and behind an `and` each
of them is one more conjunct. -/
def joinedExpr (own : Operand) (c : Combinator) (x : Operand) (xs : List Operand) :
    Expr Occurrence Combinator :=
  match c with
  | .and => .chain .and own.expr ((x :: xs).map expr)
  | .or => .node .or own.expr (.chain .and x.expr (xs.map expr))

/-- The row of a group, without its parentheses, is read as its two sides joined. -/
theorem derives_joined (own : Operand) (c : Combinator) (x : Operand) (xs : List Operand) :
    Derives Combinator.rank 0 (joinedExpr own c x xs)
      (own.row ++ .op c :: Row.conjoin ((x :: xs).map row)) := by
  cases c with
  | and =>
      have hchain := derives_conjoin own (x :: xs)
      have hrow : Row.conjoin ((own :: x :: xs).map row) =
          own.row ++ .op .and :: Row.conjoin ((x :: xs).map row) :=
        Row.conjoin_cons_of_ne_nil (by simp) own.row
      rw [hrow] at hchain
      exact hchain.weaken (Nat.zero_le 1)
  | or => exact .node (Nat.le_refl 0) (own.derives 0) (derives_conjoin x xs)

/-- The operand of a group's own rules and its nested operands. -/
def joined (own : Operand) (c : Combinator) (x : Operand) (xs : List Operand) : Operand where
  expr := joinedExpr own c x xs
  row := Row.enclose (own.row ++ .op c :: Row.conjoin ((x :: xs).map row))
  derives p := .parens p (derives_joined own c x xs)

/-- The truth of an operand under given truth values of its atoms. -/
def holds (ρ : Occurrence → Bool) (x : Operand) : Bool := x.expr.eval ρ Combinator.apply

/-- A chain of `and` holds if all of it holds. -/
theorem eval_chain (ρ : Occurrence → Bool) (e : Expr Occurrence Combinator)
    (es : List (Expr Occurrence Combinator)) :
    (Expr.chain .and e es).eval ρ Combinator.apply =
      (e.eval ρ Combinator.apply && es.all fun x => x.eval ρ Combinator.apply) := by
  induction es generalizing e with
  | nil => simp [Expr.chain]
  | cons x es ih =>
      have hfirst : Expr.chain .and e (x :: es) = Expr.chain .and (.node .and e x) es := rfl
      rw [hfirst, ih, List.all_cons, ← Bool.and_assoc]
      rfl

/-- A group's own rules hold if each of them does. -/
theorem holds_own (ρ : Occurrence → Bool) (r : Occurrence) (rs : List Occurrence) :
    holds ρ (own r rs) = ((r :: rs).map ρ).all id := by
  have hchain := eval_chain ρ (.leaf r) (rs.map .leaf)
  rw [holds, own, hchain, List.map_cons, List.all_cons, List.all_map, List.all_map]
  rfl

/-- The operand of a group says what its combinator makes of its two sides. -/
theorem holds_joined (ρ : Occurrence → Bool) (own : Operand) (c : Combinator) (x : Operand)
    (xs : List Operand) :
    holds ρ (joined own c x xs) = c.apply (holds ρ own) ((x :: xs).all (holds ρ)) := by
  have hall : ∀ ys : List Operand,
      ((ys.map expr).all fun e => e.eval ρ Combinator.apply) = ys.all (holds ρ) := by
    intro ys
    rw [List.all_map]
    rfl
  cases c with
  | and =>
      have hchain := eval_chain ρ own.expr ((x :: xs).map expr)
      rw [hall] at hchain
      exact hchain
  | or =>
      have hchain := eval_chain ρ x.expr (xs.map expr)
      rw [hall] at hchain
      exact congrArg (Bool.or (holds ρ own)) hchain

/-- An operand as text, with each condition written by `a`. -/
def text (a : Condition → List Char) (x : Operand) : List Char :=
  Row.text (fun r => a r.condition) x.row

/-- The operand of a group's own rules is written as their clause. -/
theorem text_own (a : Condition → List Char) (r : Occurrence) (rs : List Occurrence) :
    text a (own r rs) = Clause.text a (.all ((r :: rs).map fun x => x.1.condition)) := by
  have hrow : text a (own r rs) = Row.text (fun r => a r.condition) (Row.own (r :: rs)) := rfl
  rw [hrow, Row.text_own, Clause.text, Clause.ownText, List.map_map]
  rfl

/-- The operand of a whole group is written as the clause of its two sides. -/
theorem text_joined (a : Condition → List Char) {own x : Operand} {xs : List Operand}
    (c : Combinator) {conditions : List Condition} {nested : List Clause}
    (hown : text a own = Clause.text a (.all conditions))
    (hnested : (x :: xs).map (text a) = nested.map (Clause.text a)) :
    text a (joined own c x xs) = Clause.text a (.joined conditions c nested) := by
  have hrow : text a (joined own c x xs) = Row.text (fun r => a r.condition)
      (Row.enclose (own.row ++ .op c :: Row.conjoin ((x :: xs).map row))) := rfl
  have hword : ∀ rest, Row.text (fun r => a r.condition) (.op c :: rest) =
      " ".toList ++ c.sql.toList ++ " ".toList ++ Row.text (fun r => a r.condition) rest :=
    fun _ => rfl
  have hside : (((x :: xs).map row).map (Row.text fun r => a r.condition)) =
      (x :: xs).map (text a) := by
    rw [List.map_map]
    rfl
  have hown' : Row.text (fun r => a r.condition) own.row = Clause.ownText a conditions := hown
  rw [hrow, Row.text_enclose, Row.text_append, hword, Row.text_conjoin, hside, hnested, hown',
    Clause.text, Clause.texts_eq_map]
  simp only [List.append_assoc]

end Operand

/-- A truth value and others have a conjunction. -/
theorem conjunction?_cons (b : Bool) (bs : List Bool) :
    conjunction? (b :: bs) = some ((b :: bs).all id) := rfl

/-- A conjunction of truth values within a conjunction. -/
theorem conjunction?_flatten (as : List Bool) {bs cs : List Bool}
    (h : conjunction? bs = conjunction? cs) :
    conjunction? ((conjunction? as).toList ++ bs) = conjunction? (as ++ cs) := by
  cases as with
  | nil => exact h
  | cons a as =>
      have hall : bs.all id = cs.all id := by
        cases bs <;> cases cs <;> simp_all [conjunction?]
      simp [conjunction?, hall, Bool.and_assoc]

namespace Group

mutual

/-- The operands of a group when its first atom is number `k`.  A group without
surviving rules of its own passes on the operands of its nested groups. -/
def operands (k : Nat) : Group → List Operand
  | ⟨operate, rules, groups⟩ =>
      let own := (rules.filter fun r => r.Survives).zipIdx k
      match own, operandsAll (k + own.length) groups with
      | [], nested => nested
      | r :: rs, [] => [.own r rs]
      | r :: rs, x :: xs => [.joined (.own r rs) (Combinator.ofText operate) x xs]

/-- The operands of some groups, one group after another. -/
def operandsAll (k : Nat) : List Group → List Operand
  | [] => []
  | g :: gs => g.operands k ++ operandsAll (k + g.survivors.length) gs

end

/-- Operands are conjoined to the empty row only if there are none. -/
theorem conjoin_operands_eq_nil_iff {xs : List Operand} :
    Row.conjoin (xs.map Operand.row) = [] ↔ xs = [] := by
  have hne : ∀ x ∈ xs.map Operand.row, x ≠ [] := by
    intro x hx
    obtain ⟨y, -, rfl⟩ := List.mem_map.mp hx
    exact (y.derives 0).ne_nil
  rw [Row.conjoin_eq_nil_iff hne, List.map_eq_nil_iff]

/-- No row of a nested group is empty. -/
theorem ne_nil_of_mem_rows {k : Nat} {gs : List Group} {x : Row} (h : x ∈ rows k gs) :
    x ≠ [] := by
  induction gs generalizing k with
  | nil => cases h
  | cons g gs ih =>
      rw [rows] at h
      by_cases hg : g.row k = []
      · exact ih (by simpa [hg] using h)
      · rcases List.mem_cons.mp (by simpa [hg] using h) with rfl | h
        · exact hg
        · exact ih h

mutual

/-- **The row of a group is the conjunction of its operands.** -/
theorem row_eq (k : Nat) : (g : Group) → g.row k = Row.conjoin ((g.operands k).map Operand.row)
  | ⟨operate, rules, groups⟩ => by
      have hnested := conjoin_rows
        (k + ((rules.filter fun r => r.Survives).zipIdx k).length) groups
      rw [row, operands]
      generalize ((rules.filter fun r => r.Survives).zipIdx k) = own at *
      rw [hnested]
      simp only [conjoin_operands_eq_nil_iff]
      cases own with
      | nil => rfl
      | cons r rs =>
          cases operandsAll (k + (r :: rs).length) groups with
          | nil => simp [Operand.own]
          | cons x xs => simp [Operand.own, Operand.joined]

/-- The rows of nested groups are conjoined as their operands are. -/
theorem conjoin_rows (k : Nat) : (gs : List Group) →
    Row.conjoin (rows k gs) = Row.conjoin ((operandsAll k gs).map Operand.row)
  | [] => rfl
  | g :: gs => by
      have hg := row_eq k g
      have hgs := conjoin_rows (k + g.survivors.length) gs
      rw [rows, operandsAll, List.map_append, hg]
      simp only [conjoin_operands_eq_nil_iff]
      have hnil : rows (k + g.survivors.length) gs = [] ↔
          operandsAll (k + g.survivors.length) gs = [] := by
        rw [← Row.conjoin_eq_nil_iff fun x hx => ne_nil_of_mem_rows hx, hgs,
          conjoin_operands_eq_nil_iff]
      by_cases hnone : g.operands k = []
      · rw [if_pos hnone, hgs, hnone]
        rfl
      · rw [if_neg hnone]
        by_cases hlast : operandsAll (k + g.survivors.length) gs = []
        · rw [hnil.mpr hlast, hlast]
          simp
        · have hrest : rows (k + g.survivors.length) gs ≠ [] := fun h => hlast (hnil.mp h)
          rw [Row.conjoin_append (by simpa using hnone) (by simpa using hlast), ← hgs,
            Row.conjoin_cons_of_ne_nil hrest]

end

variable (a : Condition → List Char)

mutual

/-- **The operands of a group are the clauses it is compiled to.** -/
theorem text_operands (k : Nat) : (g : Group) →
    (g.operands k).map (Operand.text a) =
      g.clauses.map (Clause.text a)
  | ⟨operate, rules, groups⟩ => by
      have hnested := text_operandsAll
        (k + ((rules.filter fun r => r.Survives).zipIdx k).length) groups
      have hown : rules.filterMap Rule.condition? =
          ((rules.filter fun r => r.Survives).zipIdx k).map fun r => r.1.condition := by
        have hrules := List.zipIdx_map_fst k (rules.filter fun r => r.Survives)
        rw [Rule.filterMap_condition?, ← congrArg (List.map Rule.condition) hrules, List.map_map]
        rfl
      rw [operands, clauses, hown]
      generalize ((rules.filter fun r => r.Survives).zipIdx k) = own at *
      generalize clausesAll groups = nested at *
      cases own with
      | nil => exact hnested
      | cons r rs =>
          generalize operandsAll (k + (r :: rs).length) groups = xs at *
          cases xs with
          | nil =>
              cases List.map_eq_nil_iff.mp hnested.symm
              exact congrArg (· :: []) (Operand.text_own a r rs)
          | cons x xs =>
              cases nested with
              | nil => cases hnested
              | cons c cs =>
                  exact congrArg (· :: [])
                    (Operand.text_joined a _ (Operand.text_own a r rs) hnested)

/-- The operands of nested groups are written as their clauses. -/
theorem text_operandsAll (k : Nat) : (gs : List Group) →
    (operandsAll k gs).map (Operand.text a) =
      (clausesAll gs).map (Clause.text a)
  | [] => rfl
  | g :: gs => by
      rw [operandsAll, clausesAll, List.map_append, List.map_append, text_operands k g,
        text_operandsAll (k + g.survivors.length) gs]

end

variable (ρ : Occurrence → Bool)

mutual

/-- **The operands of a group say what the group says.** -/
theorem meaning_eq (k : Nat) : (g : Group) →
    g.meaning ρ k = conjunction? ((g.operands k).map (Operand.holds ρ))
  | ⟨operate, rules, groups⟩ => by
      have hnested := meanings_all
        (k + ((rules.filter fun r => r.Survives).zipIdx k).length) groups
      rw [meaning, operands]
      generalize ((rules.filter fun r => r.Survives).zipIdx k) = own at *
      rw [hnested]
      cases own with
      | nil => rfl
      | cons r rs =>
          cases operandsAll (k + (r :: rs).length) groups with
          | nil => simp [conjunction?, Combinator.join, Operand.holds_own]
          | cons x xs =>
              simp [conjunction?, Combinator.join, Operand.holds_own, Operand.holds_joined]

/-- What nested groups mean together is what their operands say together. -/
theorem meanings_all (k : Nat) : (gs : List Group) →
    conjunction? (meanings ρ k gs) = conjunction? ((operandsAll k gs).map (Operand.holds ρ))
  | [] => rfl
  | g :: gs => by
      have hg := meaning_eq k g
      have hgs := meanings_all (k + g.survivors.length) gs
      rw [meanings, operandsAll, List.map_append, hg]
      exact conjunction?_flatten _ hgs

end

/-- The atoms of a conjunction are those of its rows, in their order. -/
theorem leaves_conjoin (rows : List Row) :
    leaves (Row.conjoin rows) = rows.flatMap leaves := by
  induction rows with
  | nil => rfl
  | cons row rows ih =>
      by_cases h : rows = []
      · simp [h]
      · rw [Row.conjoin_cons_of_ne_nil h, leaves_append, leaves_op, ih, List.flatMap_cons]

/-- The atoms of a group's own row are its own rules. -/
theorem leaves_own (rules : List Occurrence) : leaves (Row.own rules) = rules := by
  rw [Row.own, Row.enclose, leaves_append, leaves_opening, leaves_conjoin, List.flatMap_map]
  simp

mutual

/-- The atoms of a row are the surviving rules, numbered in order. -/
theorem leaves_row (k : Nat) : (g : Group) → leaves (g.row k) = g.survivors.zipIdx k
  | ⟨operate, rules, groups⟩ => by
      have hnested := leaves_rows
        (k + ((rules.filter fun r => r.Survives).zipIdx k).length) groups
      rw [survivors_node, List.zipIdx_append, row]
      rw [List.length_zipIdx] at *
      rw [← leaves_conjoin] at hnested
      rw [← hnested]
      generalize Row.conjoin (rows _ groups) = nested
      generalize (rules.filter fun r => r.Survives).zipIdx k = own
      by_cases hown : own = []
      · simp [hown]
      · by_cases hempty : nested = []
        · simp [hown, hempty, leaves_own]
        · simp [hown, hempty, leaves_own, Row.enclose]

/-- The atoms of nested rows are the surviving rules of the groups, numbered on. -/
theorem leaves_rows (k : Nat) : (gs : List Group) →
    (rows k gs).flatMap leaves = (gs.flatMap survivors).zipIdx k
  | [] => rfl
  | g :: gs => by
      have hg := leaves_row k g
      have hgs := leaves_rows (k + g.survivors.length) gs
      rw [rows, List.flatMap_cons, List.zipIdx_append, ← hg, ← hgs]
      by_cases h : g.row k = []
      · simp [h]
      · simp [h]

end

end Group

namespace Group

/-- Something of a group is written exactly when one of its rules survives. -/
theorem operands_eq_nil_iff {k : Nat} {g : Group} : g.operands k = [] ↔ g.survivors = [] := by
  have hleaves := leaves_row k g
  constructor
  · intro h
    rw [row_eq, h] at hleaves
    exact List.zipIdx_eq_nil_iff.mp hleaves.symm
  · intro h
    rw [row_eq, h] at hleaves
    cases hops : g.operands k with
    | nil => rfl
    | cons x xs =>
        rw [hops] at hleaves
        exact absurd hleaves (Operand.derives_conjoin x xs).leaves_ne_nil

/-- A group in which a rule survives reads as what it says. -/
theorem parse_row {k : Nat} {g : Group} (h : g.survivors ≠ []) :
    ∃ e, parse Combinator.rank (g.row k) = some e ∧
      ∀ ρ, g.meaning ρ k = some (e.eval ρ Combinator.apply) := by
  have hops : g.operands k ≠ [] := fun hnone => h (operands_eq_nil_iff.mp hnone)
  obtain ⟨x, xs, hcons⟩ := List.exists_cons_of_ne_nil hops
  refine ⟨.chain .and x.expr (xs.map Operand.expr), ?_, ?_⟩
  · rw [row_eq, hcons]
    exact parse_eq_some_iff.mpr ((Operand.derives_conjoin x xs).weaken (Nat.zero_le 1))
  · intro ρ
    have hall : (xs.map Operand.expr).all (fun e => e.eval ρ Combinator.apply) =
        xs.all (Operand.holds ρ) := by
      rw [List.all_map]
      rfl
    rw [meaning_eq, hcons, Operand.eval_chain, hall, List.map_cons, conjunction?_cons,
      List.all_cons, List.all_map]
    rfl

end Group

namespace Query

/-- **A tree is compiled to its row**, unless no rule of it survives. -/
theorem compile_eq_row (q : Query) (g : Group) :
    (q.compile (some g)).1 =
      if g.survivors = [] then none
      else some (Row.text (fun r => q.atom r.condition) (g.row 0)) := by
  have htexts := Group.text_operands q.atom 0 g
  rw [fst_compile, Group.predicate?]
  by_cases h : g.survivors = []
  · rw [Group.operands_eq_nil_iff.mpr h] at htexts
    rw [if_pos h, Clause.predicate?_eq_none_iff]
    exact List.map_eq_nil_iff.mp htexts.symm
  · have hops : g.operands 0 ≠ [] := fun hnone => h (Group.operands_eq_nil_iff.mp hnone)
    have hclauses : g.clauses ≠ [] := by
      intro hnone
      rw [hnone] at htexts
      exact hops (List.map_eq_nil_iff.mp htexts)
    obtain ⟨c, cs, hcons⟩ := List.exists_cons_of_ne_nil hclauses
    have hside : ((g.operands 0).map Operand.row).map (Row.text fun r => q.atom r.condition) =
        (g.operands 0).map (Operand.text q.atom) := by
      rw [List.map_map]
      rfl
    have hsome : Clause.predicate? q.atom (c :: cs) =
        some (Clause.conjoin (Clause.texts q.atom (c :: cs))) := rfl
    rw [if_neg h, Group.row_eq, Row.text_conjoin, hside, htexts, hcons, hsome,
      Clause.texts_eq_map]

end Query

end QueryFilter
