import QueryFilter.Json.Scan

/-!
# Texts in JSON

A text stands between double quotes.  Written, only the two characters that
would end or bend it and the controls are escaped.  Read, every escape of JSON
is understood.  A text that is kept must name whole characters, so its
surrogates must come in pairs; a text that is skipped need not.

* `read_escape` — a written text is read back, whatever follows it;
* `length_of_textFrom` — reading a text leaves a shorter one.
-/

namespace QueryFilter.Json

/-- What becomes of a text that is read. -/
inductive Use where
  | kept
  | skipped
deriving DecidableEq, Repr

/-- The character around a text. -/
def quoteMark : Char := '\x22'

/-- The character before an escape. -/
def escapeMark : Char := '\\'

/-- The escapes of one letter, with the characters they stand for. -/
def shortEscapes : List (Char × Char) :=
  [('\x22', '\x22'), ('\\', '\\'), ('/', '/'), ('b', '\x08'), ('f', '\x0c'), ('n', '\n'),
   ('r', '\r'), ('t', '\t')]

/-- The value of a hexadecimal digit in either letter case. -/
def hexValue? (c : Char) : Option Nat :=
  if '0' ≤ c ∧ c ≤ '9' then some (c.toNat - '0'.toNat)
  else if 'a' ≤ c ∧ c ≤ 'f' then some (c.toNat - 'a'.toNat + 10)
  else if 'A' ≤ c ∧ c ≤ 'F' then some (c.toNat - 'A'.toNat + 10)
  else none

/-- The number written by four hexadecimal digits. -/
def hexNumber? (a b c d : Char) : Option Nat := do
  let a ← hexValue? a
  let b ← hexValue? b
  let c ← hexValue? c
  let d ← hexValue? d
  return ((a * 16 + b) * 16 + c) * 16 + d

/-- Reads four hexadecimal digits.  They are taken as four bytes, so the text is
cut off only where fewer bytes are left. -/
def hexFour : List Char → Except Fault (Nat × List Char)
  | a :: b :: c :: d :: r =>
      match hexNumber? a b c d with
      | some n => .ok (n, r)
      | none => .error .malformed
  | s => .error (if (String.ofList s).utf8ByteSize < 4 then .cutOff else .malformed)

/-- Whether a code unit begins a pair. -/
def isHigh (n : Nat) : Bool := 0xd800 ≤ n && n < 0xdc00

/-- Whether a code unit ends a pair. -/
def isLow (n : Nat) : Bool := 0xdc00 ≤ n && n < 0xe000

/-- Reads the digits of a numeric escape, and a second escape if the first is
one half of a pair. -/
def unicode (use : Use) (s : List Char) : Except Fault (Char × List Char) := do
  let (n, r) ← hexFour s
  match use with
  | .skipped => return (Char.ofNat n, r)
  | .kept =>
      if isLow n then .error .malformed
      else if isHigh n then
        let r ← expectWord [escapeMark, 'u'] r
        let (m, r) ← hexFour r
        if isLow m then return (Char.ofNat (0x10000 + (n - 0xd800) * 0x400 + (m - 0xdc00)), r)
        else .error .malformed
      else return (Char.ofNat n, r)

/-- Reads an escape behind its mark. -/
def escaped (use : Use) : List Char → Except Fault (Char × List Char)
  | [] => .error .cutOff
  | c :: r =>
      if c = 'u' then unicode use r
      else match shortEscapes.lookup c with
        | some x => .ok (x, r)
        | none => .error .malformed

/-- Four digits that are read leave less than there was. -/
theorem length_of_hexFour {s r : List Char} {n : Nat} (h : hexFour s = .ok (n, r)) :
    r.length < s.length := by
  unfold hexFour at h
  split at h
  · split at h
    · cases h
      simp only [List.length_cons]
      omega
    · cases h
  · cases h

/-- A numeric escape that is read leaves less than there was. -/
theorem length_of_unicode {use : Use} {s r : List Char} {x : Char}
    (h : unicode use s = .ok (x, r)) : r.length < s.length := by
  have hrest : ∀ {y : Char} {t : List Char},
      (pure (y, t) : Except Fault (Char × List Char)) = .ok (x, r) → t = r :=
    fun e => (Prod.mk.inj (Except.ok.inj e)).2
  unfold unicode at h
  obtain ⟨⟨n, t⟩, hfour, h⟩ := bind_eq_ok.mp h
  have hlt := length_of_hexFour hfour
  dsimp only at h
  split at h
  · exact hrest h ▸ hlt
  · split at h
    · cases h
    · split at h
      · obtain ⟨u, hword, h⟩ := bind_eq_ok.mp h
        obtain ⟨⟨m, v⟩, hfour', h⟩ := bind_eq_ok.mp h
        have hle := length_of_expectWord hword
        have hlt' := length_of_hexFour hfour'
        dsimp only at h
        split at h
        · have hv := hrest h
          subst hv
          omega
        · cases h
      · exact hrest h ▸ hlt

/-- An escape that is read leaves less than there was. -/
theorem length_of_escaped {use : Use} {s r : List Char} {x : Char}
    (h : escaped use s = .ok (x, r)) : r.length < s.length := by
  unfold escaped at h
  split at h
  · cases h
  · split at h
    · exact Nat.lt_succ_of_lt (length_of_unicode h)
    · split at h
      · cases h
        exact Nat.lt_succ_self _
      · cases h

/-- A text with one more character in front. -/
def prepend (x : Char) (read : Except Fault (List Char × List Char)) :
    Except Fault (List Char × List Char) :=
  read.map fun p => (x :: p.1, p.2)

/-- Reads a text behind its opening quote. -/
def textFrom (use : Use) (s : List Char) : Except Fault (List Char × List Char) :=
  match s with
  | [] => .error .cutOff
  | c :: r =>
      if c = quoteMark then .ok ([], r)
      else if c = escapeMark then
        match _ : escaped use r with
        | .error f => .error f
        | .ok (x, t) => prepend x (textFrom use t)
      else if c < ' ' then .error .malformed
      else prepend c (textFrom use r)
termination_by s.length
decreasing_by
  · exact Nat.lt_succ_of_lt (length_of_escaped ‹_›)
  · exact Nat.lt_succ_self _

/-- A text that is read leaves less than there was. -/
theorem length_of_textFrom {use : Use} {s r x : List Char}
    (h : textFrom use s = .ok (x, r)) : r.length < s.length := by
  fun_induction textFrom use s generalizing x r with
  | case1 => cases h
  | case2 => cases h; exact Nat.lt_succ_self _
  | case3 => cases h
  | case4 s y t hesc _ ih =>
      cases ht : textFrom use t with
      | error f => rw [ht] at h; cases h
      | ok p =>
          rw [ht] at h
          cases h
          have := ih ht
          have := length_of_escaped hesc
          simp only [List.length_cons]
          omega
  | case5 => cases h
  | case6 c s _ _ _ ih =>
      cases ht : textFrom use s with
      | error f => rw [ht] at h; cases h
      | ok p =>
          rw [ht] at h
          cases h
          exact Nat.lt_succ_of_lt (ih ht)

/-- A quote ends a text. -/
theorem textFrom_quoteMark (use : Use) (s : List Char) :
    textFrom use (quoteMark :: s) = .ok ([], s) := by
  rw [textFrom]
  simp

/-- A character that is neither a mark nor a control stands for itself. -/
theorem textFrom_plain {c : Char} (hq : c ≠ quoteMark) (he : c ≠ escapeMark)
    (hc : ¬c < ' ') (use : Use) (s : List Char) :
    textFrom use (c :: s) = prepend c (textFrom use s) := by
  rw [textFrom]
  simp [hq, he, hc]

/-- An escape stands for the character it is read as. -/
theorem textFrom_escapeMark {use : Use} {s r : List Char} {x : Char}
    (h : escaped use s = .ok (x, r)) :
    textFrom use (escapeMark :: s) = prepend x (textFrom use r) := by
  rw [textFrom]
  split
  · next hq => exact absurd hq (by decide)
  · rw [if_pos rfl]
    split
    · next f hf => rw [h] at hf; cases hf
    · next y t hy =>
        rw [h] at hy
        cases hy
        rfl

/-- A character as it is written inside a text. -/
def escape (c : Char) : List Char :=
  if c = '\x22' then "\\\"".toList
  else if c = '\\' then "\\\\".toList
  else if c = '\x08' then "\\b".toList
  else if c = '\x0c' then "\\f".toList
  else if c = '\n' then "\\n".toList
  else if c = '\r' then "\\r".toList
  else if c = '\t' then "\\t".toList
  else if c < ' ' then
    "\\u00".toList ++ [Nat.digitChar (c.toNat / 16), Nat.digitChar (c.toNat % 16)]
  else [c]

/-- A text as it is written. -/
def quote (s : List Char) : List Char :=
  quoteMark :: s.flatMap escape ++ [quoteMark]

/-- The two digits of a control are read back as its code. -/
theorem hexNumber?_of_control : ∀ n : Fin 32,
    hexNumber? '0' '0' (Nat.digitChar (n / 16)) (Nat.digitChar (n % 16)) = some n.val := by
  decide

/-- A numeric escape of a control is read back as it. -/
theorem unicode_of_control {c : Char} (h : c < ' ') (s : List Char) :
    unicode .kept ('0' :: '0' :: Nat.digitChar (c.toNat / 16) ::
      Nat.digitChar (c.toNat % 16) :: s) = .ok (c, s) := by
  have hn : c.toNat < 32 := h
  have hnum := hexNumber?_of_control ⟨c.toNat, hn⟩
  have hlow : isLow c.toNat = false := by simp [isLow]; omega
  have hhigh : isHigh c.toNat = false := by simp [isHigh]; omega
  simp only [unicode, hexFour, hnum, bind, Except.bind, hlow, hhigh]
  simp [pure, Except.pure, Char.ofNat_toNat]

/-- The written form of a character is read back as it. -/
theorem textFrom_escape (c : Char) (s : List Char) :
    textFrom .kept (escape c ++ s) = prepend c (textFrom .kept s) := by
  unfold escape
  iterate 7
    split
    · next h => subst h; exact textFrom_escapeMark rfl
  split
  · next h => exact textFrom_escapeMark (unicode_of_control h s)
  · next hq he _ _ _ _ _ hc => exact textFrom_plain hq he hc .kept s

/-- **A written text is read back,** whatever follows it. -/
theorem read_escape (x s : List Char) :
    textFrom .kept (x.flatMap escape ++ quoteMark :: s) = .ok (x, s) := by
  induction x with
  | nil => exact textFrom_quoteMark .kept s
  | cons c x ih =>
      rw [List.flatMap_cons, List.append_assoc, textFrom_escape, ih]
      rfl

end QueryFilter.Json
