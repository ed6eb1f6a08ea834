import QueryFilter.Sql.Literal
import QueryFilter.Sql.Name

/-!
# Lexing SQL

A text of SQL is cut into lexemes from left to right.  A string stands between
single quotes; inside, a doubled quote stands for one, and a backslash gives the
next character another meaning.  A name stands between backticks, and a doubled
backtick stands for one.  Words, signs and punctuation stand as they are, and
spaces part them.  No lexeme begins with any other character, so a text that is
read has no number, comment or semicolon outside of its quotes.

The scanner looks at one character at a time.  Since a quote may be the first of
two, a lexeme ends only when the next character is known, so a text is said to
spell its lexemes if it does so before every text that begins with a space or
punctuation, or is empty.

* `scan_ended` — there a lexeme ends, and the rest is scanned on its own;
* `spells_string` and `spells_name` — whatever a closed literal or a closed name
  holds, it is one lexeme and reads back to what it holds;
* `Spells.append` — texts one after another spell their lexemes one after
  another;
* `spells_iff_lex` — a text spells what it is cut into on its own.
-/

namespace QueryFilter.Sql

/-- A piece of SQL.  Names and strings are given by what they stand for. -/
inductive Lexeme where
  | opening
  | closing
  | comma
  | dot
  | sign (s : List Char)
  | word (w : List Char)
  | name (s : List Char)
  | string (s : List Char)
deriving DecidableEq, Repr

/-- What a backslash and the character after it stand for inside of a string.
The two wildcards of patterns keep their backslash. -/
def unescape (c : Char) : List Char :=
  match c with
  | '0' => ['\x00']
  | 'b' => ['\x08']
  | 'n' => ['\n']
  | 'r' => ['\r']
  | 't' => ['\t']
  | 'Z' => ['\x1a']
  | '%' => ['\\', '%']
  | '_' => ['\\', '_']
  | c => [c]

/-- Whether a word may begin with `c`. -/
def isWordStart (c : Char) : Bool := c.isAlpha || c == '_' || c == '$'

/-- Whether a word may go on with `c`. -/
def isWordPart (c : Char) : Bool := isWordStart c || c.isDigit

/-- Whether a text is a word. -/
def isWord : List Char → Bool
  | [] => false
  | c :: w => isWordStart c && w.all isWordPart

/-- Whether a comparison may be written with `c`. -/
def isSignPart (c : Char) : Bool := c == '=' || c == '!' || c == '<' || c == '>'

/-- The comparisons written with signs. -/
def signs : List (List Char) :=
  [['='], ['!', '='], ['<', '>'], ['<'], ['<', '='], ['>'], ['>', '='], ['<', '=', '>']]

/-- The word by which membership in a list is tested. -/
def memberWord : List Char := "FIND_IN_SET".toList

/-- Where the scanner stands, with what it has of the lexeme it is in. -/
inductive Scanner where
  | between
  | inWord (w : List Char)
  | inSign (s : List Char)
  | inName (s : List Char)
  /-- After a backtick that ends the name or is the first of two. -/
  | nameMark (s : List Char)
  | inString (s : List Char)
  /-- After a quote that ends the string or is the first of two. -/
  | stringMark (s : List Char)
  /-- After a backslash. -/
  | inEscape (s : List Char)
  /-- After a word and a quote, as in a hexadecimal literal: not read. -/
  | foreign
deriving DecidableEq, Repr

namespace Scanner

/-- The scanner after one more character of the same lexeme. -/
def goOn? : Scanner → Char → Option Scanner
  | between, _ => none
  | inWord w, c =>
      if isWordPart c then some (inWord (w ++ [c]))
      else if c = Literal.mark then some foreign else none
  | inSign s, c => if isSignPart c then some (inSign (s ++ [c])) else none
  | inName s, c => some (if c = Name.mark then nameMark s else inName (s ++ [c]))
  | nameMark s, c => if c = Name.mark then some (inName (s ++ [c])) else none
  | inString s, c =>
      some (if c = Literal.mark then stringMark s
        else if c = '\\' then inEscape s else inString (s ++ [c]))
  | stringMark s, c => if c = Literal.mark then some (inString (s ++ [c])) else none
  | inEscape s, c => some (inString (s ++ unescape c))
  | foreign, _ => some foreign

/-- The lexeme the scanner is in, if it may end here. -/
def ended? : Scanner → Option (List Lexeme)
  | between => some []
  | inWord w => some [.word w]
  | inSign s => if s ∈ signs then some [.sign s] else none
  | nameMark s => some [.name s]
  | stringMark s => some [.string s]
  | _ => none

end Scanner

/-- What a character begins between two lexemes: a lexeme of one character, or
the inside of a longer one. -/
def beginLexeme? (c : Char) : Option (List Lexeme × Scanner) :=
  if c = ' ' then some ([], .between)
  else if c = '(' then some ([.opening], .between)
  else if c = ')' then some ([.closing], .between)
  else if c = ',' then some ([.comma], .between)
  else if c = Name.dot then some ([.dot], .between)
  else if c = '+' then some ([.sign [c]], .between)
  else if c = Name.mark then some ([], .inName [])
  else if c = Literal.mark then some ([], .inString [])
  else if isWordStart c then some ([], .inWord [c])
  else if isSignPart c then some ([], .inSign [c])
  else none

/-- The lexemes of a text, from where the scanner stands. -/
def scan : Scanner → List Char → Option (List Lexeme)
  | st, [] => st.ended?
  | st, c :: cs =>
      match st.goOn? c with
      | some st' => scan st' cs
      | none =>
          st.ended?.bind fun done =>
            (beginLexeme? c).bind fun next => (scan next.2 cs).map fun ls => done ++ next.1 ++ ls

/-- The lexemes of a text, if it is made of lexemes. -/
def lex (s : List Char) : Option (List Lexeme) := scan .between s

/-- A character that a lexeme goes on with is part of it. -/
theorem scan_goOn {st st' : Scanner} {c : Char} (h : st.goOn? c = some st') (s : List Char) :
    scan st (c :: s) = scan st' s := by
  rw [scan, h]

/-- The first character of a text begins a lexeme. -/
theorem lex_cons (c : Char) (s : List Char) :
    lex (c :: s) =
      (beginLexeme? c).bind fun next => (scan next.2 s).map fun ls => next.1 ++ ls := rfl

/-! ## Where lexemes end -/

/-- Whether no lexeme but a quoted one goes on with `c`. -/
def isBreak (c : Char) : Bool := c == ' ' || c == '(' || c == ')' || c == ',' || c == Name.dot

/-- Whether a text is empty or begins with a break. -/
def Clear (s : List Char) : Prop := ∀ c, s.head? = some c → isBreak c = true

/-- The empty text is clear. -/
theorem clear_nil : Clear [] := fun _ h => nomatch h

/-- A text is clear by its first character. -/
theorem clear_cons {c : Char} (h : isBreak c = true) (s : List Char) : Clear (c :: s) := by
  intro d hd
  cases hd
  exact h

/-- Clear texts one behind the other are clear. -/
theorem Clear.append {s t : List Char} (hs : Clear s) (ht : Clear t) : Clear (s ++ t) := by
  cases s with
  | nil => exact ht
  | cons c s => exact clear_cons (hs c rfl) _

/-- A break does not go on with a lexeme that may end. -/
theorem goOn?_of_isBreak {st : Scanner} {ls : List Lexeme} {c : Char}
    (hc : isBreak c = true) (h : st.ended? = some ls) : st.goOn? c = none := by
  have hcases : c = ' ' ∨ c = '(' ∨ c = ')' ∨ c = ',' ∨ c = Name.dot := by
    simpa [isBreak, or_assoc] using hc
  cases st with
  | between => rfl
  | inWord w => rcases hcases with rfl | rfl | rfl | rfl | rfl <;> rfl
  | inSign s => rcases hcases with rfl | rfl | rfl | rfl | rfl <;> rfl
  | nameMark s => rcases hcases with rfl | rfl | rfl | rfl | rfl <;> rfl
  | stringMark s => rcases hcases with rfl | rfl | rfl | rfl | rfl <;> rfl
  | inName s => cases h
  | inString s => cases h
  | inEscape s => cases h
  | foreign => cases h

/-- **Before a break a lexeme ends**, and the rest is scanned on its own. -/
theorem scan_ended {st : Scanner} {ls : List Lexeme} (h : st.ended? = some ls)
    {rest : List Char} (hrest : Clear rest) :
    scan st rest = (lex rest).map fun more => ls ++ more := by
  cases rest with
  | nil =>
      rw [scan, h, lex, scan]
      simp [Scanner.ended?]
  | cons c cs =>
      rw [scan, goOn?_of_isBreak (hrest c rfl) h, lex_cons, h]
      cases beginLexeme? c with
      | none => rfl
      | some next =>
          simp only [Option.bind_some, Option.map_map]
          congr 1
          funext more
          exact List.append_assoc ..

/-! ## Texts and the lexemes they spell -/

/-- `Spells s ls`: before a break, the text `s` is cut into the lexemes `ls`. -/
def Spells (s : List Char) (ls : List Lexeme) : Prop :=
  ∀ rest, Clear rest → lex (s ++ rest) = (lex rest).map fun more => ls ++ more

/-- What spells lexemes is read as them. -/
theorem Spells.lex {s : List Char} {ls : List Lexeme} (h : Spells s ls) :
    Sql.lex s = some ls := by
  have hend := h [] clear_nil
  rw [List.append_nil] at hend
  rw [hend]
  simp [Sql.lex, scan, Scanner.ended?]

/-- What a text is cut into at its end it is cut into before a break. -/
theorem scan_append {st : Scanner} {s : List Char} {ls : List Lexeme} (h : scan st s = some ls)
    {rest : List Char} (hrest : Clear rest) :
    scan st (s ++ rest) = (lex rest).map fun more => ls ++ more := by
  induction s generalizing st ls with
  | nil => exact scan_ended h hrest
  | cons c s ih =>
      cases hgo : st.goOn? c with
      | some st' =>
          rw [scan_goOn hgo] at h
          rw [List.cons_append, scan_goOn hgo]
          exact ih h
      | none =>
          rw [scan, hgo] at h
          obtain ⟨done, hdone, h⟩ := Option.bind_eq_some_iff.mp h
          obtain ⟨next, hnext, h⟩ := Option.bind_eq_some_iff.mp h
          obtain ⟨more, hmore, rfl⟩ := Option.map_eq_some_iff.mp h
          rw [List.cons_append, scan, hgo]
          simp only [hdone, hnext, Option.bind_some, ih hmore, Option.map_map]
          congr 1
          funext last
          exact (List.append_assoc ..).symm

/-- **A text spells the lexemes it is cut into.** -/
theorem spells_iff_lex {s : List Char} {ls : List Lexeme} : Spells s ls ↔ lex s = some ls :=
  ⟨Spells.lex, fun h _ hrest => scan_append h hrest⟩

/-- The empty text spells no lexeme. -/
theorem spells_nil : Spells [] [] := by
  intro rest _
  simp

/-- **Lexemes one after another.**  The second text begins with a break. -/
theorem Spells.append {s t : List Char} {ls ks : List Lexeme} (hs : Spells s ls)
    (ht : Spells t ks) (hclear : Clear t) : Spells (s ++ t) (ls ++ ks) := by
  intro rest hrest
  rw [List.append_assoc, hs (t ++ rest) (hclear.append hrest), ht rest hrest, Option.map_map]
  congr 1
  funext more
  exact (List.append_assoc ..).symm

/-- A character that is a lexeme of its own, or none. -/
theorem Spells.cons {c : Char} {out : List Lexeme} (hc : beginLexeme? c = some (out, .between))
    {s : List Char} {ls : List Lexeme} (h : Spells s ls) : Spells (c :: s) (out ++ ls) := by
  intro rest hrest
  have hs : scan .between (s ++ rest) = (Sql.lex rest).map fun more => ls ++ more := h rest hrest
  rw [List.cons_append, lex_cons, hc, Option.bind_some, hs, Option.map_map]
  congr 1
  funext more
  exact (List.append_assoc ..).symm

/-- A text that takes the scanner to the end of a lexeme. -/
theorem spells_of_scan {s : List Char} {ls : List Lexeme} (st : Scanner)
    (hscan : ∀ rest, lex (s ++ rest) = scan st rest) (hend : st.ended? = some ls) :
    Spells s ls := by
  intro rest hrest
  rw [hscan, scan_ended hend hrest]

/-- A lexeme between two others, with a space on either side. -/
theorem Spells.spaced {s t u : List Char} {ls ks ms : List Lexeme} (hs : Spells s ls)
    (ht : Spells t ks) (hu : Spells u ms) :
    Spells (s ++ ' ' :: (t ++ ' ' :: u)) (ls ++ (ks ++ ms)) := by
  have hspace : beginLexeme? ' ' = some ([], .between) := rfl
  have hright : Spells (' ' :: u) ms := hu.cons hspace
  have hmiddle : Spells (' ' :: (t ++ ' ' :: u)) (ks ++ ms) :=
    (ht.append hright (clear_cons rfl u)).cons hspace
  exact hs.append hmiddle (clear_cons rfl _)

/-- A text in parentheses. -/
theorem Spells.parens {s : List Char} {ls : List Lexeme} (h : Spells s ls) :
    Spells ('(' :: (s ++ [')'])) (.opening :: (ls ++ [.closing])) := by
  have hclose : Spells [')'] ([.closing] ++ []) := spells_nil.cons rfl
  have hopen : beginLexeme? '(' = some ([.opening], .between) := rfl
  exact (h.append hclose (clear_cons rfl [])).cons hopen

/-- Inside of a lexeme, a text is taken up character by character if each of its
characters is, in the form it is written in. -/
theorem scan_flatMap {inside : List Char → Scanner} {form : Char → List Char} {v : List Char}
    (hstep : ∀ c ∈ v, ∀ acc rest,
      scan (inside acc) (form c ++ rest) = scan (inside (acc ++ [c])) rest)
    (acc rest : List Char) :
    scan (inside acc) (v.flatMap form ++ rest) = scan (inside (acc ++ v)) rest := by
  induction v generalizing acc with
  | nil => simp
  | cons c v ih =>
      have hfirst := hstep c List.mem_cons_self acc (v.flatMap form ++ rest)
      have hrest := ih (fun d hd => hstep d (List.mem_cons_of_mem _ hd)) (acc ++ [c])
      rw [List.flatMap_cons, List.append_assoc, hfirst, hrest, List.append_assoc,
        List.singleton_append]

/-- The same for a text written as it is. -/
theorem scan_run {inside : List Char → Scanner} {v : List Char}
    (hgo : ∀ c ∈ v, ∀ acc, (inside acc).goOn? c = some (inside (acc ++ [c])))
    (acc rest : List Char) : scan (inside acc) (v ++ rest) = scan (inside (acc ++ v)) rest := by
  have hstep : ∀ c ∈ v, ∀ acc rest,
      scan (inside acc) ([c] ++ rest) = scan (inside (acc ++ [c])) rest :=
    fun c hc acc rest => scan_goOn (hgo c hc acc) rest
  have hrun := scan_flatMap hstep acc rest
  rwa [List.flatMap_singleton'] at hrun

/-- A character that words begin with begins one. -/
theorem beginLexeme?_of_isWordStart {c : Char} (h : isWordStart c = true) :
    beginLexeme? c = some ([], .inWord [c]) := by
  have hne : ∀ d, isWordStart d = false → c ≠ d := by
    rintro d hd rfl
    rw [h] at hd
    cases hd
  rw [beginLexeme?, if_neg (hne _ (by decide)), if_neg (hne _ (by decide)),
    if_neg (hne _ (by decide)), if_neg (hne _ (by decide)), if_neg (hne _ (by decide)),
    if_neg (hne _ (by decide)), if_neg (hne _ (by decide)), if_neg (hne _ (by decide)), if_pos h]

/-- **A word** is one lexeme. -/
theorem spells_word {w : List Char} (h : isWord w = true) : Spells w [.word w] := by
  cases w with
  | nil => cases h
  | cons c w =>
      obtain ⟨hc, hw⟩ := Bool.and_eq_true_iff.mp h
      have hgo : ∀ d ∈ w, ∀ acc, (Scanner.inWord acc).goOn? d = some (.inWord (acc ++ [d])) :=
        fun d hd acc => if_pos (List.all_eq_true.mp hw d hd)
      refine spells_of_scan (.inWord (c :: w)) (fun rest => ?_) rfl
      rw [List.cons_append, lex_cons, beginLexeme?_of_isWordStart hc]
      simpa using scan_run hgo [c] rest

/-- A character that signs are made of begins one. -/
theorem beginLexeme?_of_isSignPart {c : Char} (h : isSignPart c = true) :
    beginLexeme? c = some ([], .inSign [c]) := by
  have hcases : c = '=' ∨ c = '!' ∨ c = '<' ∨ c = '>' := by
    simpa [isSignPart, or_assoc] using h
  rcases hcases with rfl | rfl | rfl | rfl <;> decide

/-- **A comparison written with signs** is one lexeme. -/
theorem spells_sign {s : List Char} (h : s ∈ signs) : Spells s [.sign s] := by
  have hparts : ∀ s ∈ signs, s.all isSignPart = true := by decide
  have hpart : ∀ c ∈ s, isSignPart c = true := List.all_eq_true.mp (hparts s h)
  have hgo : ∀ c ∈ s, ∀ acc, (Scanner.inSign acc).goOn? c = some (.inSign (acc ++ [c])) :=
    fun c hc acc => if_pos (hpart c hc)
  refine spells_of_scan (.inSign s) (fun rest => ?_) (if_pos h)
  cases s with
  | nil => simp [signs] at h
  | cons c s =>
      rw [List.cons_append, lex_cons, beginLexeme?_of_isSignPart (hpart c List.mem_cons_self)]
      simpa using scan_run (fun d hd => hgo d (List.mem_cons_of_mem _ hd)) [c] rest

/-- **A closed literal is one string**, whatever it holds. -/
theorem spells_string (v : List Char) : Spells (Literal.escaped v) [.string v] := by
  have hstep : ∀ c ∈ v, ∀ acc rest,
      scan (.inString acc) ((if Literal.isSpecial c then [c, c] else [c]) ++ rest) =
        scan (.inString (acc ++ [c])) rest := by
    intro c _ acc rest
    by_cases hmark : c = Literal.mark
    · subst hmark
      rfl
    by_cases hslash : c = '\\'
    · subst hslash
      rfl
    · have hplain : Literal.isSpecial c = false := by simp [Literal.isSpecial, hmark, hslash]
      have hgo : (Scanner.inString acc).goOn? c = some (.inString (acc ++ [c])) := by
        simp [Scanner.goOn?, hmark, hslash]
      rw [hplain]
      exact scan_goOn hgo rest
  refine spells_of_scan (.stringMark v) (fun rest => ?_) rfl
  calc lex (Literal.escaped v ++ rest)
      = scan (.inString []) (Text.double Literal.isSpecial v ++ [Literal.mark] ++ rest) := by
        rw [Literal.escaped, List.cons_append, List.cons_append, lex_cons]
        simp [beginLexeme?, Literal.mark, Name.mark, Name.dot]
    _ = scan (.inString v) (Literal.mark :: rest) := by
        rw [List.append_assoc]
        exact scan_flatMap hstep [] _
    _ = scan (.stringMark v) rest := scan_goOn rfl rest

/-- **A closed name is one name**, whatever it holds. -/
theorem spells_name (s : List Char) : Spells (Name.quote s) [.name s] := by
  have hstep : ∀ c ∈ s, ∀ acc rest,
      scan (.inName acc) ((if c == Name.mark then [c, c] else [c]) ++ rest) =
        scan (.inName (acc ++ [c])) rest := by
    intro c _ acc rest
    by_cases hmark : c = Name.mark
    · subst hmark
      rfl
    · have hplain : (c == Name.mark) = false := by simpa using hmark
      have hgo : (Scanner.inName acc).goOn? c = some (.inName (acc ++ [c])) := by
        simp [Scanner.goOn?, hmark]
      rw [hplain]
      exact scan_goOn hgo rest
  refine spells_of_scan (.nameMark s) (fun rest => ?_) rfl
  calc lex (Name.quote s ++ rest)
      = scan (.inName []) (Text.double (· == Name.mark) s ++ [Name.mark] ++ rest) := by
        rw [Name.quote, List.cons_append, List.cons_append, lex_cons]
        simp [beginLexeme?, Name.mark, Name.dot]
    _ = scan (.inName s) (Name.mark :: rest) := by
        rw [List.append_assoc]
        exact scan_flatMap hstep [] _
    _ = scan (.nameMark s) rest := scan_goOn rfl rest

example : lex "`a``b` like 'it''s\\\\%'".toList =
    some [.name "a`b".toList, .word "like".toList, .string "it's\\%".toList] := by
  decide +kernel

end QueryFilter.Sql
