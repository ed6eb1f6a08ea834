import Mathlib.Data.List.Forall2
import QueryFilter.Json.Skip

/-!
# The grammar of JSON

What a text of JSON is, said without reading it.  Blanks may stand around every value,
key and colon.  A character of a text may be spelled in several ways, a number has
several parts, and an array or object encloses entries with commas between them.

Nothing here refers to a reader.  The two places where the texts read here differ from
one another are parameters: a text that is kept names whole characters and one that is
skipped need not, and what encloses entries may be either bracket.

* `Quoted` — the spellings of a text;
* `IsNumber` — the numbers;
* `Encloses` — what stands behind an opening bracket, up to the closing one;
* `Keyed` — a value under a key;
* `IsValue` — all values, to any depth.
-/

namespace QueryFilter.Json

/-! ## Blanks and entries -/

/-- Whether a text is made of blanks alone: spaces, tabs, line feeds and carriage
returns. -/
def Blank (s : List Char) : Prop := ∀ c ∈ s, c.isWhitespace = true

/-- Entries with blanks around them and commas between them, up to the closing bracket. -/
inductive Listed (b : Bracket) : List (List Char) → List Char → Prop
  | last {a a' v : List Char} (ha : Blank a) (ha' : Blank a') :
      Listed b [v] (a ++ (v ++ (a' ++ [b.close])))
  | more {a a' v w : List Char} {vs : List (List Char)} (ha : Blank a) (ha' : Blank a')
      (h : Listed b vs w) : Listed b (v :: vs) (a ++ (v ++ (a' ++ ',' :: w)))

/-- What stands behind an opening bracket, up to the closing one: blanks, or entries. -/
inductive Encloses (b : Bracket) : List (List Char) → List Char → Prop
  | none {a : List Char} (ha : Blank a) : Encloses b [] (a ++ [b.close])
  | some {vs : List (List Char)} {w : List Char} (h : Listed b vs w) : Encloses b vs w

/-! ## Texts -/

/-- A character and a way to spell it.  In a text that is skipped a code may be half of a
pair; what it stands for is of no account there. -/
inductive Glyph : Use → Char → List Char → Prop
  | plain {use : Use} {c : Char} (hquote : c ≠ quoteMark) (hescape : c ≠ escapeMark)
      (hcontrol : ¬c < ' ') : Glyph use c [c]
  | short {use : Use} {e c : Char} (h : shortEscapes.lookup e = some c) :
      Glyph use c [escapeMark, e]
  | code {a b c d : Char} {n : Nat} (h : hexNumber? a b c d = some n)
      (hhigh : isHigh n = false) (hlow : isLow n = false) :
      Glyph .kept (Char.ofNat n) [escapeMark, 'u', a, b, c, d]
  | pair {a b c d a' b' c' d' : Char} {n m : Nat} (h : hexNumber? a b c d = some n)
      (hhigh : isHigh n = true) (h' : hexNumber? a' b' c' d' = some m)
      (hlow : isLow m = true) :
      Glyph .kept (Char.ofNat (0x10000 + (n - 0xd800) * 0x400 + (m - 0xdc00)))
        [escapeMark, 'u', a, b, c, d, escapeMark, 'u', a', b', c', d']
  | half {a b c d : Char} {n : Nat} (h : hexNumber? a b c d = some n) :
      Glyph .skipped (Char.ofNat n) [escapeMark, 'u', a, b, c, d]

/-- The inside of a text, character by character. -/
inductive Letters (use : Use) : List Char → List Char → Prop
  | nil : Letters use [] []
  | cons {c : Char} {x g w : List Char} (hc : Glyph use c g) (hx : Letters use x w) :
      Letters use (c :: x) (g ++ w)

/-- The spellings of a text. -/
def Quoted (use : Use) (x w : List Char) : Prop :=
  ∃ v, Letters use x v ∧ w = quoteMark :: (v ++ [quoteMark])

/-! ## Numbers -/

/-- One digit or more. -/
def IsDigits (w : List Char) : Prop := w ≠ [] ∧ ∀ c ∈ w, c.isDigit = true

/-- The whole part of a number: a zero stands alone. -/
def IsWhole (w : List Char) : Prop := IsDigits w ∧ ∀ r, w = '0' :: r → r = []

/-- The part of a number behind its point, with the point. -/
def IsFraction (w : List Char) : Prop := w = [] ∨ ∃ ds, IsDigits ds ∧ w = '.' :: ds

/-- The exponent of a number, with its letter. -/
def IsExponent (w : List Char) : Prop :=
  w = [] ∨ ∃ e s ds, (e = 'e' ∨ e = 'E') ∧ (s = [] ∨ s = ['+'] ∨ s = ['-']) ∧ IsDigits ds ∧
    w = e :: (s ++ ds)

/-- The numbers. -/
def IsNumber (w : List Char) : Prop :=
  ∃ s whole fraction exponent, (s = [] ∨ s = ['-']) ∧ IsWhole whole ∧ IsFraction fraction ∧
    IsExponent exponent ∧ w = s ++ (whole ++ (fraction ++ exponent))

/-! ## Values -/

/-- Whether `w` is the value `v` under the key `x`. -/
def Keyed (use : Use) (x v w : List Char) : Prop :=
  ∃ k a b, Quoted use x k ∧ Blank a ∧ Blank b ∧ w = k ++ (a ++ ':' :: (b ++ v))

/-- The values of JSON, whatever they are nested to. -/
inductive IsValue : List Char → Prop
  | null : IsValue "null".toList
  | yes : IsValue "true".toList
  | no : IsValue "false".toList
  | number {w : List Char} (h : IsNumber w) : IsValue w
  | text {x w : List Char} (h : Quoted .skipped x w) : IsValue w
  | array {vs : List (List Char)} {w : List Char} (hvalues : ∀ v ∈ vs, IsValue v)
      (h : Encloses .array vs w) : IsValue ('[' :: w)
  | object {vs ms : List (List Char)} {w : List Char} (hvalues : ∀ v ∈ vs, IsValue v)
      (hkeys : List.Forall₂ (fun v m => ∃ x, Keyed .skipped x v m) vs ms)
      (h : Encloses .object ms w) : IsValue ('\x7b' :: w)

end QueryFilter.Json
