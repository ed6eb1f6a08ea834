import QueryFilter.Text.Ends

/-!
# Blank characters

A character is blank when Unicode gives it the property `White_Space`.  The
class is larger than the one JSON allows between its tokens, and it does not
hold the joiners and marks of width zero.

* `isBlank_of_visible` — no sign, digit or letter of ASCII is in it;
* `trim_surround` — blanks around a text never matter once it is trimmed;
* `trim_map_toLower` — and a text may be trimmed before or after it is put in lower case.
-/

namespace QueryFilter.Text

/-- The ranges of code points with the property `White_Space`. -/
def blankRanges : List (Nat × Nat) :=
  [(0x09, 0x0d), (0x20, 0x20), (0x85, 0x85), (0xa0, 0xa0), (0x1680, 0x1680),
   (0x2000, 0x200a), (0x2028, 0x2029), (0x202f, 0x202f), (0x205f, 0x205f),
   (0x3000, 0x3000)]

/-- Membership of a code point in a list of inclusive ranges. -/
def inRanges (ranges : List (Nat × Nat)) (n : Nat) : Bool :=
  ranges.any fun r => r.1 ≤ n && n ≤ r.2

/-- Whether `c` has the property `White_Space`. -/
def isBlank (c : Char) : Bool := inRanges blankRanges c.toNat

/-- `s` without the blanks at its two ends. -/
def trim (s : List Char) : List Char := strip isBlank s

/-- No visible character of ASCII is blank. -/
theorem isBlank_of_visible {c : Char} (hlo : 0x20 < c.toNat) (hhi : c.toNat < 0x7f) :
    isBlank c = false := by
  simp only [isBlank, inRanges, blankRanges, List.any_cons, List.any_nil, Bool.or_false,
    Bool.or_eq_false_iff, Bool.and_eq_false_iff, decide_eq_false_iff_not]
  omega

/-- The case of a letter does not make it blank. -/
theorem isBlank_toLower (c : Char) : isBlank c.toLower = isBlank c := by
  unfold Char.toLower
  split
  · next h =>
      have hlo : 0x41 ≤ c.toNat := h.1
      have hhi : c.toNat ≤ 0x5a := h.2
      have hlower : (c.val + ('a'.val - 'A'.val)).toNat = c.toNat + 0x20 := by
        rw [UInt32.toNat_add]
        exact Nat.mod_eq_of_lt (by show c.toNat + 0x20 < 2 ^ 32; omega)
      rw [isBlank_of_visible (c := c) (by omega) (by omega)]
      exact isBlank_of_visible (by show 0x20 < (c.val + _).toNat; omega)
        (by show (c.val + _).toNat < 0x7f; omega)
  · rfl

/-- Blanks around a text are trimmed away. -/
theorem trim_surround {a b : List Char} (ha : ∀ c ∈ a, isBlank c = true)
    (hb : ∀ c ∈ b, isBlank c = true) (s : List Char) :
    trim (a ++ s ++ b) = trim s :=
  strip_append_of_all ha hb s

/-- Lower case may be had before or after trimming. -/
theorem trim_map_toLower (s : List Char) : trim (s.map Char.toLower) = (trim s).map Char.toLower :=
  strip_map isBlank_toLower s

end QueryFilter.Text
