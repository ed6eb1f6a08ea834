/-!
# Doubling

The escape of both quoting forms used in a predicate: inside the quotes,
certain characters are written twice and all others once.

* `double_eq_self_iff` — exactly the texts without such characters are unchanged;
* `length_double` — each of them adds one character;
* `sublist_double` — and nothing is taken away.
-/

namespace QueryFilter.Text

/-- `s` with each `p` character written twice. -/
def double (p : Char → Bool) (s : List Char) : List Char :=
  s.flatMap fun c => if p c then [c, c] else [c]

@[simp] theorem double_cons (p : Char → Bool) (c : Char) (s : List Char) :
    double p (c :: s) = (if p c then [c, c] else [c]) ++ double p s := rfl

/-- A text without such characters stays as it is. -/
theorem double_of_none {p : Char → Bool} {s : List Char}
    (h : ∀ c ∈ s, p c = false) : double p s = s := by
  induction s with
  | nil => rfl
  | cons c s ih =>
      simp [h c List.mem_cons_self, ih fun d hd => h d (List.mem_cons_of_mem _ hd)]

/-- Doubling adds one character for each that it doubles. -/
theorem length_double (p : Char → Bool) (s : List Char) :
    (double p s).length = s.length + s.countP p := by
  induction s with
  | nil => rfl
  | cons c s ih => cases h : p c <;> simp [h, ih] <;> omega

/-- Doubling only adds. -/
theorem sublist_double (p : Char → Bool) (s : List Char) : s.Sublist (double p s) := by
  induction s with
  | nil => exact List.nil_sublist _
  | cons c s ih =>
      cases h : p c
      · simpa [h] using ih
      · simpa [h] using ih.cons c

/-- Exactly the texts without such characters stay as they are. -/
theorem double_eq_self_iff {p : Char → Bool} {s : List Char} :
    double p s = s ↔ ∀ c ∈ s, p c = false := by
  constructor
  · intro h
    have hlength := length_double p s
    have hcount : s.countP p = 0 := by
      rw [h] at hlength
      omega
    simpa using List.countP_eq_zero.mp hcount
  · exact double_of_none

end QueryFilter.Text
