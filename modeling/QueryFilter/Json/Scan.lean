import QueryFilter.Json.Fault

/-!
# The pieces between values

Blanks may stand between the tokens of a text, words and single characters are
expected at certain places, and the entries of an array or object are separated
by commas.  Every piece that is read leaves a shorter text, which is why the
loops over entries end.
-/

namespace QueryFilter.Json

/-- Of two steps in a row the result is good if both are. -/
theorem bind_eq_ok {ε α β : Type} {x : Except ε α} {f : α → Except ε β} {b : β} :
    (x >>= f) = .ok b ↔ ∃ a, x = .ok a ∧ f a = .ok b := by
  cases x <;> simp [bind, Except.bind]

/-- The text from its first character that is not blank. -/
def gap (s : List Char) : List Char := s.dropWhile Char.isWhitespace

/-- Behind blanks there is no more than there was. -/
theorem length_gap_le (s : List Char) : (gap s).length ≤ s.length :=
  (List.dropWhile_suffix _).length_le

/-- The text behind the word that must stand at its front. -/
def expectWord : List Char → List Char → Except Fault (List Char)
  | [], s => .ok s
  | _ :: _, [] => .error .cutOff
  | c :: w, d :: s => if d = c then expectWord w s else .error .malformed

/-- An expected word leaves no more than there was. -/
theorem length_of_expectWord {w s r : List Char} (h : expectWord w s = .ok r) :
    r.length ≤ s.length := by
  induction w generalizing s with
  | nil => cases h; exact Nat.le_refl _
  | cons c w ih =>
      cases s with
      | nil => cases h
      | cons d s =>
          rw [expectWord] at h
          split at h
          · exact Nat.le_succ_of_le (ih h)
          · cases h

/-- The text behind the character that must come next, blanks aside. -/
def expectChar (c : Char) (s : List Char) : Except Fault (List Char) :=
  match gap s with
  | [] => .error .cutOff
  | d :: r => if d = c then .ok r else .error .malformed

/-- An expected character leaves less than there was. -/
theorem length_of_expectChar {c : Char} {s r : List Char} (h : expectChar c s = .ok r) :
    r.length < s.length := by
  have hle := length_gap_le s
  unfold expectChar at h
  split at h
  · cases h
  · next d t hgap =>
      split at h
      · cases h
        rw [hgap] at hle
        exact hle
      · cases h

/-- A place in an array or object: behind its end, or at an entry. -/
inductive Place where
  | closed (rest : List Char)
  | entry (rest : List Char)
deriving DecidableEq, Repr

/-- The text at a place. -/
def Place.rest : Place → List Char
  | closed r => r
  | entry r => r

/-- The first place in an array or object, read behind its opening bracket. -/
def firstPlace (close : Char) (s : List Char) : Except Fault Place :=
  match gap s with
  | [] => .error .cutOff
  | c :: r => .ok (if c = close then .closed r else .entry (c :: r))

/-- The next place in an array or object, read behind an entry: a comma must be
followed by an entry. -/
def nextPlace (close : Char) (s : List Char) : Except Fault Place :=
  match gap s with
  | [] => .error .cutOff
  | c :: r =>
      if c = close then .ok (.closed r)
      else if c = ',' then
        match gap r with
        | [] => .error .cutOff
        | d :: t => if d = close then .error .malformed else .ok (.entry (d :: t))
      else .error .malformed

/-- Behind the opening bracket there is no more than there was. -/
theorem length_of_firstPlace {close : Char} {s : List Char} {p : Place}
    (h : firstPlace close s = .ok p) : p.rest.length ≤ s.length := by
  have hle := length_gap_le s
  unfold firstPlace at h
  split at h
  · cases h
  · next c r hgap =>
      rw [hgap] at hle
      cases h
      split
      · exact Nat.le_of_succ_le hle
      · exact hle

/-- Behind a comma or a closing bracket there is less than there was. -/
theorem length_of_nextPlace {close : Char} {s : List Char} {p : Place}
    (h : nextPlace close s = .ok p) : p.rest.length < s.length := by
  have hle := length_gap_le s
  unfold nextPlace at h
  split at h
  · cases h
  · next c r hgap =>
      rw [hgap] at hle
      have hle' := length_gap_le r
      split at h
      · cases h
        exact hle
      · split at h
        · split at h
          · cases h
          · next d t hgap' =>
              split at h
              · cases h
              · cases h
                rw [hgap'] at hle'
                exact Nat.lt_of_le_of_lt hle' hle
        · cases h

end QueryFilter.Json
