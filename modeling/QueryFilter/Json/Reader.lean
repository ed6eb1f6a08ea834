import QueryFilter.Json.Skip
import QueryFilter.Table

/-!
# Readers

A reader takes a value of one kind from the front of a text.  That it takes at
least one character is part of the type: this is why the loop over the entries
of an array or object, `entries`, ends.

Every reader looks at the first character of the value first.  If a value of
another kind begins there, that is the fault it reports, before it reads on.
-/

namespace QueryFilter.Json

/-- Takes a value from the front of a text, and gives the text behind it. -/
structure Reader (α : Type) where
  run : List Char → Except Fault (α × List Char)
  consumes : ∀ {s a r}, run s = .ok (a, r) → r.length < s.length

/-- Takes the rest of a value whose first character was read already. -/
structure Tail (α : Type) where
  run : List Char → Except Fault (α × List Char)
  consumes : ∀ {s a r}, run s = .ok (a, r) → r.length ≤ s.length

/-- Names the value at the front of a text.  An array or object is named by its
bracket, every other value is read first. -/
def met : List Char → Except Fault Met
  | [] => .error .cutOff
  | c :: r =>
      if c = 'n' then (expectWord "ull".toList r).map fun _ => .null
      else if c = 't' then (expectWord "rue".toList r).map fun _ => .boolean true
      else if c = 'f' then (expectWord "alse".toList r).map fun _ => .boolean false
      else if c = '-' ∨ c.isDigit then do
        let (n, _) ← numeral (c :: r)
        n.met
      else if c = quoteMark then (textFrom .kept r).map fun p => .text p.1
      else if c = '[' then .ok .sequence
      else if c = '\x7b' then .ok .map
      else .error .malformed

/-- The fault of a value that stands where `wanted` should. -/
def misfit (wanted : String) (s : List Char) : Fault :=
  match met s with
  | .ok m => .misfit (.wrongKind m wanted)
  | .error f => f

namespace Tail

/-- The value of `f` at what the tail gives, if that is no fault. -/
def check {α β : Type} (t : Tail α) (f : α → Except Fault β) : Tail β where
  run s := do
    let (a, r) ← t.run s
    return (← f a, r)
  consumes h := by
    obtain ⟨⟨a, r⟩, hrun, h⟩ := bind_eq_ok.mp h
    obtain ⟨b, hf, h⟩ := bind_eq_ok.mp h
    cases h
    exact t.consumes hrun

/-- The tail with `f` applied to its value. -/
def map {α β : Type} (f : α → β) (t : Tail α) : Tail β where
  run s := (t.run s).map fun p => (f p.1, p.2)
  consumes {s b r} h := by
    cases hrun : t.run s with
    | error e => rw [hrun] at h; cases h
    | ok p =>
        rw [hrun] at h
        cases h
        exact t.consumes hrun

/-- The tail that reads nothing and reports a fault. -/
def fail {α : Type} (f : Fault) : Tail α where
  run _ := .error f
  consumes h := by cases h

/-- The rest of a word, standing for `a`. -/
def word {α : Type} (w : String) (a : α) : Tail α where
  run s := (expectWord w.toList s).map fun r => (a, r)
  consumes {s b r} h := by
    cases hword : expectWord w.toList s with
    | error e => rw [hword] at h; cases h
    | ok t =>
        rw [hword] at h
        cases h
        exact length_of_expectWord hword

/-- The rest of a text. -/
def text : Tail (List Char) where
  run := textFrom .kept
  consumes h := Nat.le_of_lt (length_of_textFrom h)

end Tail

namespace Reader

/-- The reader with `f` applied to its value. -/
def map {α β : Type} (f : α → β) (rd : Reader α) : Reader β where
  run s := (rd.run s).map fun p => (f p.1, p.2)
  consumes {s b r} h := by
    cases hrun : rd.run s with
    | error e => rw [hrun] at h; cases h
    | ok p =>
        rw [hrun] at h
        cases h
        exact rd.consumes hrun

/-- The reader that goes on as the first character of the value tells.  Where
there is no way to go on, the value is not the one wanted. -/
def byFirst {α : Type} (wanted : String) (branch : Char → Option (Tail α)) : Reader α where
  run s :=
    match gap s with
    | [] => .error .cutOff
    | c :: r =>
        match branch c with
        | some t => t.run r
        | none => .error (misfit wanted (c :: r))
  consumes {s a r} h := by
    have hle := length_gap_le s
    split at h
    · cases h
    · next c t hgap =>
        rw [hgap] at hle
        split at h
        · next tail htail => exact Nat.lt_of_le_of_lt (tail.consumes h) hle
        · cases h

/-- Reads a text. -/
def text : Reader String :=
  byFirst "a string" fun c => if c = quoteMark then some (Tail.text.map String.ofList) else none

/-- Reads `true` or `false`. -/
def flag : Reader Bool :=
  byFirst "a boolean" fun c =>
    if c = 't' then some (.word "rue" true)
    else if c = 'f' then some (.word "alse" false)
    else none

/-- Reads `null`. -/
def null : Reader Unit :=
  byFirst "unit" fun c => if c = 'n' then some (.word "ull" ()) else none

/-- Reads what `rd` reads, or `null`. -/
def orNull {α : Type} (rd : Reader α) : Reader (Option α) where
  run s :=
    match gap s with
    | [] => .error .cutOff
    | c :: r =>
        if c = 'n' then (Tail.word "ull" none).run r
        else (rd.map some).run s
  consumes {s a r} h := by
    have hle := length_gap_le s
    split at h
    · cases h
    · next c t hgap =>
        rw [hgap] at hle
        split at h
        · exact Nat.lt_of_le_of_lt ((Tail.word "ull" none).consumes h) hle
        · exact (rd.map some).consumes h

/-- Reads a text, and `null` as the empty text. -/
def textOrNull : Reader String := text.orNull.map fun s => s.getD ""

/-- Skips a value, and gives `a`. -/
def skipped {α : Type} (a : α) : Reader α where
  run s := (skip s).map fun r => (a, r)
  consumes {s b r} h := by
    cases hskip : skip s with
    | error e => rw [hskip] at h; cases h
    | ok t =>
        rw [hskip] at h
        cases h
        exact length_of_skipValue hskip

/-- Reads a key, chooses a reader by it, and reads the value behind the colon. -/
def keyed {α : Type} (choose : String → Except Fault (Reader α)) : Reader α where
  run s := do
    let r ← expectChar quoteMark s
    let key ← textFrom .kept r
    let rd ← choose (String.ofList key.1)
    let r ← expectChar ':' key.2
    rd.run r
  consumes {s a r} h := by
    obtain ⟨t, hquote, h⟩ := bind_eq_ok.mp h
    obtain ⟨key, htext, h⟩ := bind_eq_ok.mp h
    obtain ⟨rd, _, h⟩ := bind_eq_ok.mp h
    obtain ⟨v, hcolon, h⟩ := bind_eq_ok.mp h
    have h₁ := length_of_expectChar hquote
    have h₂ := length_of_textFrom htext
    have h₃ := length_of_expectChar hcolon
    have h₄ := rd.consumes h
    omega

/-- Reads the whole of a text. -/
def readAll {α : Type} (rd : Reader α) (s : List Char) : Except Fault α := do
  let (a, r) ← rd.run s
  if gap r = [] then return a else .error .malformed

end Reader

/-- Reads the entries of an array or object up to its end, beginning at an
entry.  Each entry is read in the state that the one before it left. -/
def entries {σ : Type} (close : Char) (entry : σ → Reader σ) (st : σ) (s : List Char) :
    Except Fault (σ × List Char) :=
  match _ : (entry st).run s with
  | .error f => .error f
  | .ok (st, r) =>
      match _ : nextPlace close r with
      | .error f => .error f
      | .ok (.closed r) => .ok (st, r)
      | .ok (.entry r) => entries close entry st r
termination_by s.length
decreasing_by
  exact Nat.lt_trans (length_of_nextPlace ‹_›) ((entry _).consumes ‹_›)

/-- Entries that are read leave less than there was. -/
theorem length_of_entries {σ : Type} {close : Char} {entry : σ → Reader σ} {st st' : σ}
    {s r : List Char} (h : entries close entry st s = .ok (st', r)) : r.length < s.length := by
  fun_induction entries close entry st s with
  | case1 => cases h
  | case2 => cases h
  | case3 st s t u hentry v hplace =>
      cases h
      exact Nat.lt_trans (length_of_nextPlace hplace) ((entry _).consumes hentry)
  | case4 st s t u hentry v hplace ih =>
      have h₁ : v.length < u.length := length_of_nextPlace hplace
      have h₂ := (entry _).consumes hentry
      have h₃ := ih h
      omega

/-- The rest of an array or object behind its opening bracket. -/
def Tail.entries {σ : Type} (close : Char) (entry : σ → Reader σ) (st : σ) : Tail σ where
  run s := do
    match ← firstPlace close s with
    | .closed r => return (st, r)
    | .entry r => Json.entries close entry st r
  consumes {s st' r} h := by
    obtain ⟨p, hplace, h⟩ := bind_eq_ok.mp h
    have hle := length_of_firstPlace hplace
    cases p with
    | closed t => cases h; exact hle
    | entry t => exact Nat.le_trans (Nat.le_of_lt (length_of_entries h)) hle

namespace Reader

/-- Reads an array of values. -/
def list {α : Type} (item : Reader α) : Reader (List α) :=
  byFirst "a sequence" fun c =>
    if c = '[' then
      some ((Tail.entries ']' (fun acc => item.map fun a => a :: acc) []).map List.reverse)
    else none

/-- Reads an object of values under names; the last value of a name counts. -/
def table {α : Type} (item : Reader α) : Reader (Table α) :=
  byFirst "a map" fun c =>
    if c = '\x7b' then
      some (Tail.entries '\x7d' (fun t => keyed fun name => .ok (item.map (t.insert name))) ∅)
    else none

/-- The value known under a name. -/
def pick {α : Type} (known : List (String × α)) (name : List Char) : Except Fault α :=
  match known.lookup (String.ofList name) with
  | some a => .ok a
  | none => .error (.misfit (.unknownChoice name (known.map Prod.fst)))

/-- Reads one of several known names, as a text or as the only key of an object
whose value is `null`. -/
def choice {α : Type} (known : List (String × α)) : Reader α where
  run s :=
    match gap s with
    | [] => .error .cutOff
    | c :: r =>
        if c = quoteMark then (Tail.text.check (pick known)).run r
        else if c = '\x7b' then do
          let r ← expectChar quoteMark r
          let (a, r) ← (Tail.text.check (pick known)).run r
          let r ← expectChar ':' r
          let (_, r) ← null.run r
          let r ← expectChar '\x7d' r
          return (a, r)
        else .error .malformed
  consumes {s a r} h := by
    have hle := length_gap_le s
    split at h
    · cases h
    · next c t hgap =>
        rw [hgap] at hle
        split at h
        · exact Nat.lt_of_le_of_lt ((Tail.text.check (pick known)).consumes h) hle
        split at h
        · obtain ⟨q, hquote, h⟩ := bind_eq_ok.mp h
          obtain ⟨⟨b, u⟩, hname, h⟩ := bind_eq_ok.mp h
          obtain ⟨v, hcolon, h⟩ := bind_eq_ok.mp h
          obtain ⟨⟨_, w⟩, hnull, h⟩ := bind_eq_ok.mp h
          obtain ⟨x, hclose, h⟩ := bind_eq_ok.mp h
          have h₀ := length_of_expectChar hquote
          have h₁ := (Tail.text.check (pick known)).consumes hname
          have h₂ := length_of_expectChar hcolon
          have h₃ := null.consumes hnull
          have h₄ := length_of_expectChar hclose
          cases h
          simp only [List.length_cons] at hle
          omega
        · cases h

end Reader

end QueryFilter.Json
