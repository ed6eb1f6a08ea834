import QueryFilter.Decimal.Shortest
import QueryFilter.Json.Scan

/-!
# Numbers in JSON

No place in the texts read here wants a number, so a number is only ever named
in a message or skipped.  What a message names is a whole number where it fits
sixty-four bits, and otherwise a floating point number.

The floating point number is found by scaling: at most sixty-four bits of the
digits are taken as they come, and the number they make is multiplied or
divided by a power of ten.  This may differ in the last place from the nearest
floating point number.
-/

namespace QueryFilter.Json

/-- The digits and the exponent of a number, as written. -/
structure Numeral where
  negative : Bool
  whole : List Nat
  fraction : List Nat
  exponent? : Option Int
deriving DecidableEq, Repr

/-- Reads the digits that must come next. -/
def digits (s : List Char) : Except Fault (List Nat × List Char) :=
  match s.takeWhile Char.isDigit with
  | [] => .error (if s = [] then .cutOff else .malformed)
  | ds => .ok (ds.map fun c => c.toNat - '0'.toNat, s.dropWhile Char.isDigit)

/-- Reads a minus sign, if there is one. -/
def minus : List Char → Bool × List Char
  | [] => (false, [])
  | c :: r => if c = '-' then (true, r) else (false, c :: r)

/-- Reads a sign, if there is one, and tells whether it is a minus. -/
def sign : List Char → Bool × List Char
  | [] => (false, [])
  | c :: r => if c = '-' then (true, r) else if c = '+' then (false, r) else (false, c :: r)

/-- The number that digits stand for. -/
def numberOf (ds : List Nat) : Nat := ds.foldl (fun n d => n * 10 + d) 0

/-- Reads the whole part of a number, which has no idle zero in front. -/
def wholePart (s : List Char) : Except Fault (List Nat × List Char) := do
  let (ds, r) ← digits s
  match ds with
  | 0 :: _ :: _ => .error .malformed
  | _ => return (ds, r)

/-- Reads the digits behind a point, if there is one. -/
def fractionPart : List Char → Except Fault (List Nat × List Char)
  | [] => .ok ([], [])
  | c :: r => if c = '.' then digits r else .ok ([], c :: r)

/-- Reads an exponent, if there is one. -/
def exponentPart : List Char → Except Fault (Option Int × List Char)
  | [] => .ok (none, [])
  | c :: r =>
      if c = 'e' ∨ c = 'E' then do
        let (negative, r) := sign r
        let (ds, r) ← digits r
        return (some (if negative then -(numberOf ds : Int) else numberOf ds), r)
      else .ok (none, c :: r)

/-- Reads a number. -/
def numeral (s : List Char) : Except Fault (Numeral × List Char) := do
  let (negative, r) := minus s
  let (whole, r) ← wholePart r
  let (fraction, r) ← fractionPart r
  let (exponent?, r) ← exponentPart r
  return (⟨negative, whole, fraction, exponent?⟩, r)

/-- Takes digits into `n` for as long as it stays within sixty-four bits, and
leaves the others. -/
def absorb (n : Nat) : List Nat → Nat × List Nat
  | [] => (n, [])
  | d :: ds => if n * 10 + d < Nat.pow 2 64 then absorb (n * 10 + d) ds else (n, d :: ds)

/-- A power of ten as a floating point number. -/
def powerOfTen (n : Nat) : Float := Float.ofScientific 1 false n

/-- The product of `f` and the power `e` of ten, unless it is too large. -/
def scale (f : Float) (e : Int) : Option Float :=
  if e.natAbs ≤ 308 then
    let g := if 0 ≤ e then f * powerOfTen e.natAbs else f / powerOfTen e.natAbs
    if g.isInf then none else some g
  else if f == 0 then some f
  else if 0 ≤ e then none
  else scale (f / powerOfTen 308) (e + 308)
termination_by (-e).toNat

/-- The whole number that a numeral stands for, if it is written as one and fits
sixty-four bits.  Zero with a minus sign is none. -/
def Numeral.integer? (n : Numeral) : Option Int :=
  let value := numberOf n.whole
  if n.fraction ≠ [] ∨ n.exponent?.isSome then none
  else if n.negative then
    if 0 < value ∧ value ≤ Nat.pow 2 63 then some (-(value : Int)) else none
  else if value < Nat.pow 2 64 then some value else none

/-- The floating point number that a numeral stands for, unless it is too
large. -/
def Numeral.float? (n : Numeral) : Option Float :=
  let (whole, idle) := absorb 0 n.whole
  let (significand, rest) := absorb whole n.fraction
  let power := (idle.length : Int) - (n.fraction.length - rest.length : Nat)
  (scale significand.toUInt64.toFloat (power + n.exponent?.getD 0)).map fun f =>
    if n.negative then -f else f

/-- A number as a message names it. -/
def Numeral.met (n : Numeral) : Except Fault Met :=
  match n.integer? with
  | some i => .ok (.integer i)
  | none =>
      match n.float? with
      | some f => .ok (.decimal (Decimal.ofFloat f))
      | none => .error .malformed

/-- Digits that are read leave less than there was. -/
theorem length_of_digits {s r : List Char} {ds : List Nat} (h : digits s = .ok (ds, r)) :
    r.length < s.length := by
  unfold digits at h
  split at h
  · cases h
  · next cs hne =>
      cases h
      have hsplit := congrArg List.length
        (List.takeWhile_append_dropWhile (p := Char.isDigit) (l := s))
      have hpos : 0 < (s.takeWhile Char.isDigit).length :=
        List.length_pos_iff.mpr fun e => hne e
      simp only [List.length_append] at hsplit
      omega

/-- Behind a minus there is no more than there was. -/
theorem length_minus_le (s : List Char) : (minus s).2.length ≤ s.length := by
  cases s with
  | nil => exact Nat.le_refl _
  | cons c r => simp only [minus]; split <;> simp

/-- Behind a sign there is no more than there was. -/
theorem length_sign_le (s : List Char) : (sign s).2.length ≤ s.length := by
  cases s with
  | nil => exact Nat.le_refl _
  | cons c r =>
      simp only [sign]
      split
      · simp
      · split <;> simp

/-- A whole part that is read leaves less than there was. -/
theorem length_of_wholePart {s r : List Char} {ds : List Nat}
    (h : wholePart s = .ok (ds, r)) : r.length < s.length := by
  obtain ⟨⟨ds', r'⟩, hdigits, h⟩ := bind_eq_ok.mp h
  have hlt := length_of_digits hdigits
  dsimp only at h
  split at h
  · cases h
  · cases h
    exact hlt

/-- A fraction that is read leaves no more than there was. -/
theorem length_of_fractionPart {s r : List Char} {ds : List Nat}
    (h : fractionPart s = .ok (ds, r)) : r.length ≤ s.length := by
  cases s with
  | nil => cases h; exact Nat.le_refl _
  | cons c t =>
      simp only [fractionPart] at h
      split at h
      · exact Nat.le_succ_of_le (Nat.le_of_lt (length_of_digits h))
      · cases h
        exact Nat.le_refl _

/-- An exponent that is read leaves no more than there was. -/
theorem length_of_exponentPart {s r : List Char} {e : Option Int}
    (h : exponentPart s = .ok (e, r)) : r.length ≤ s.length := by
  cases s with
  | nil => cases h; exact Nat.le_refl _
  | cons c t =>
      simp only [exponentPart] at h
      split at h
      · obtain ⟨⟨ds, u⟩, hdigits, h⟩ := bind_eq_ok.mp h
        have hlt := length_of_digits hdigits
        have hle := length_sign_le t
        cases h
        simp only [List.length_cons]
        omega
      · cases h
        exact Nat.le_refl _

/-- A number is not empty. -/
theorem length_of_numeral {s r : List Char} {n : Numeral} (h : numeral s = .ok (n, r)) :
    r.length < s.length := by
  unfold numeral at h
  obtain ⟨⟨whole, t⟩, hwhole, h⟩ := bind_eq_ok.mp h
  obtain ⟨⟨fraction, u⟩, hfraction, h⟩ := bind_eq_ok.mp h
  obtain ⟨⟨exponent?, v⟩, hexponent, h⟩ := bind_eq_ok.mp h
  have h₀ := length_minus_le s
  have h₁ : t.length < (minus s).2.length := length_of_wholePart hwhole
  have h₂ := length_of_fractionPart hfraction
  have h₃ := length_of_exponentPart hexponent
  cases h
  omega

end QueryFilter.Json
