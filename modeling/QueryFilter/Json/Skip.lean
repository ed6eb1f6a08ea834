import QueryFilter.Json.Number
import QueryFilter.Json.Text

/-!
# Skipping a value

The value of an unknown key is skipped: it must be JSON, but nothing is kept of
it.  Brackets may be nested to any depth, so the open ones are kept on a stack.

* `length_of_skipValue` — a skipped value is not empty.
-/

namespace QueryFilter.Json

/-- An open array or object. -/
inductive Bracket where
  | array
  | object
deriving DecidableEq, Repr

/-- The character that closes a bracket. -/
def Bracket.close : Bracket → Char
  | array => ']'
  | object => '\x7d'

/-- Skips a number, which is malformed where it is cut off. -/
def skipNumber (s : List Char) : Except Fault (List Char) :=
  match numeral s with
  | .error _ => .error .malformed
  | .ok (_, r) => .ok r

/-- Skips a value without brackets. -/
def skipLeaf : List Char → Except Fault (List Char)
  | [] => .error .cutOff
  | c :: r =>
      if c = 'n' then expectWord "ull".toList r
      else if c = 't' then expectWord "rue".toList r
      else if c = 'f' then expectWord "alse".toList r
      else if c = '-' ∨ c.isDigit then skipNumber (c :: r)
      else if c = quoteMark then (textFrom .skipped r).map Prod.snd
      else .error .malformed

/-- Skips a key and its colon. -/
def skipKey (s : List Char) : Except Fault (List Char) := do
  let r ← expectChar quoteMark s
  let (_, r) ← textFrom .skipped r
  expectChar ':' r

/-- A value without brackets that is skipped leaves less than there was. -/
theorem length_of_skipLeaf {s r : List Char} (h : skipLeaf s = .ok r) :
    r.length < s.length := by
  cases s with
  | nil => cases h
  | cons c t =>
      simp only [skipLeaf] at h
      split at h
      · exact Nat.lt_succ_of_le (length_of_expectWord h)
      split at h
      · exact Nat.lt_succ_of_le (length_of_expectWord h)
      split at h
      · exact Nat.lt_succ_of_le (length_of_expectWord h)
      split at h
      · unfold skipNumber at h
        split at h
        · cases h
        · next hnum =>
            cases h
            exact length_of_numeral hnum
      split at h
      · cases ht : textFrom .skipped t with
        | error f => rw [ht] at h; cases h
        | ok p =>
            rw [ht] at h
            cases h
            exact Nat.lt_succ_of_lt (length_of_textFrom ht)
      · cases h

/-- A key that is skipped leaves less than there was. -/
theorem length_of_skipKey {s r : List Char} (h : skipKey s = .ok r) :
    r.length < s.length := by
  obtain ⟨t, hquote, h⟩ := bind_eq_ok.mp h
  obtain ⟨⟨x, u⟩, htext, h⟩ := bind_eq_ok.mp h
  have h₁ := length_of_expectChar hquote
  have h₂ := length_of_textFrom htext
  have h₃ := length_of_expectChar h
  omega

/-- What a value begins with: a bracket, which may be closed at once, or
anything else. -/
inductive Opening where
  | empty (rest : List Char)
  | nested (inside : Bracket) (rest : List Char)
  | leaf (rest : List Char)
deriving DecidableEq, Repr

/-- The text at an opening. -/
def Opening.rest : Opening → List Char
  | empty r => r
  | nested _ r => r
  | leaf r => r

/-- Skips a bracket, and the key of the first entry of an object. -/
def openBracket (b : Bracket) (s : List Char) : Except Fault Opening := do
  match ← firstPlace b.close s with
  | .closed r => return .empty r
  | .entry r =>
      match b with
      | .array => return .nested b r
      | .object => return .nested b (← skipKey r)

/-- Skips the beginning of a value. -/
def skipOpening (s : List Char) : Except Fault Opening :=
  match gap s with
  | [] => .error .cutOff
  | c :: r =>
      if c = '[' then openBracket .array r
      else if c = '\x7b' then openBracket .object r
      else (skipLeaf (c :: r)).map .leaf

/-- Behind an opening bracket there is no more than there was. -/
theorem length_of_openBracket {b : Bracket} {s : List Char} {o : Opening}
    (h : openBracket b s = .ok o) : o.rest.length ≤ s.length := by
  obtain ⟨p, hplace, h⟩ := bind_eq_ok.mp h
  have hle := length_of_firstPlace hplace
  cases p with
  | closed r => cases h; exact hle
  | entry r =>
      cases b with
      | array => cases h; exact hle
      | object =>
          obtain ⟨t, hkey, h⟩ := bind_eq_ok.mp h
          cases h
          exact Nat.le_trans (Nat.le_of_lt (length_of_skipKey hkey)) hle

/-- Behind the beginning of a value there is less than there was. -/
theorem length_of_skipOpening {s : List Char} {o : Opening}
    (h : skipOpening s = .ok o) : o.rest.length < s.length := by
  have hle := length_gap_le s
  unfold skipOpening at h
  split at h
  · cases h
  · next c r hgap =>
      rw [hgap] at hle
      split at h
      · exact Nat.lt_of_le_of_lt (length_of_openBracket h) hle
      split at h
      · exact Nat.lt_of_le_of_lt (length_of_openBracket h) hle
      · cases hleaf : skipLeaf (c :: r) with
        | error f => rw [hleaf] at h; cases h
        | ok t =>
            rw [hleaf] at h
            cases h
            exact Nat.lt_of_lt_of_le (length_of_skipLeaf hleaf) hle

mutual

/-- Skips a value and what is left of the open brackets around it. -/
def skipValue (opened : List Bracket) (s : List Char) : Except Fault (List Char) :=
  match _ : skipOpening s with
  | .error f => .error f
  | .ok (.empty r) => skipAfter opened r
  | .ok (.leaf r) => skipAfter opened r
  | .ok (.nested b r) => skipValue (b :: opened) r
termination_by s.length
decreasing_by all_goals exact length_of_skipOpening ‹_›

/-- Skips what is left of the open brackets behind a value. -/
def skipAfter (opened : List Bracket) (s : List Char) : Except Fault (List Char) :=
  match opened with
  | [] => .ok s
  | b :: opened =>
      match _ : nextPlace b.close s with
      | .error f => .error f
      | .ok (.closed r) => skipAfter opened r
      | .ok (.entry r) =>
          match b with
          | .array => skipValue (.array :: opened) r
          | .object =>
              match _ : skipKey r with
              | .error f => .error f
              | .ok t => skipValue (.object :: opened) t
termination_by s.length
decreasing_by
  · exact length_of_nextPlace ‹_›
  · exact length_of_nextPlace ‹_›
  · have hplace : nextPlace b.close s = .ok (.entry r) := ‹_›
    exact Nat.lt_trans (length_of_skipKey ‹skipKey r = _›) (length_of_nextPlace hplace)

end

/-- Skipping leaves no more text than there was, and less if it begins at a
value. -/
theorem length_of_skip (n : Nat) :
    (∀ opened s r, s.length ≤ n → skipValue opened s = .ok r → r.length < s.length) ∧
      ∀ opened s r, s.length ≤ n → skipAfter opened s = .ok r → r.length ≤ s.length := by
  induction n using Nat.strongRecOn with
  | ind n ih =>
      have hvalue : ∀ opened s r, s.length ≤ n → skipValue opened s = .ok r →
          r.length < s.length := by
        intro opened s r hn h
        rw [skipValue] at h
        split at h
        · cases h
        · next t hopen =>
            have hlt : t.length < s.length := length_of_skipOpening hopen
            exact Nat.lt_of_le_of_lt
              ((ih t.length (by omega)).2 opened t r (Nat.le_refl _) h) hlt
        · next t hopen =>
            have hlt : t.length < s.length := length_of_skipOpening hopen
            exact Nat.lt_of_le_of_lt
              ((ih t.length (by omega)).2 opened t r (Nat.le_refl _) h) hlt
        · next b t hopen =>
            have hlt : t.length < s.length := length_of_skipOpening hopen
            exact Nat.lt_trans
              ((ih t.length (by omega)).1 (b :: opened) t r (Nat.le_refl _) h) hlt
      refine ⟨hvalue, ?_⟩
      intro opened s r hn h
      cases opened with
      | nil => rw [skipAfter] at h; cases h; exact Nat.le_refl _
      | cons b opened =>
          rw [skipAfter] at h
          split at h
          · cases h
          · next t hplace =>
              have hlt : t.length < s.length := length_of_nextPlace hplace
              exact Nat.le_trans
                ((ih t.length (by omega)).2 opened t r (Nat.le_refl _) h) (Nat.le_of_lt hlt)
          · next t hplace =>
              have hlt : t.length < s.length := length_of_nextPlace hplace
              split at h
              · exact Nat.le_of_lt (Nat.lt_trans
                  ((ih t.length (by omega)).1 _ t r (Nat.le_refl _) h) hlt)
              · split at h
                · cases h
                · next u hkey =>
                    have hlt' := length_of_skipKey hkey
                    exact Nat.le_of_lt (Nat.lt_trans
                      ((ih u.length (by omega)).1 _ u r (Nat.le_refl _) h)
                      (Nat.lt_trans hlt' hlt))

/-- A value that is skipped leaves less than there was. -/
theorem length_of_skipValue {opened : List Bracket} {s r : List Char}
    (h : skipValue opened s = .ok r) : r.length < s.length :=
  (length_of_skip s.length).1 opened s r (Nat.le_refl _) h

/-- Skips one value. -/
def skip (s : List Char) : Except Fault (List Char) := skipValue [] s

end QueryFilter.Json
