import QueryFilter.Proofs.Grammar
import QueryFilter.Proofs.Reading

/-!
# Scanning by the grammar

The pieces between values, the texts and the numbers are read exactly as the grammar has
them: what is read has the form the grammar gives it, and whatever has that form is read,
before any rest.  A number alone does not tell where it ends, so behind it a break is
needed, `Break`: a blank, a comma or a closing bracket will do.

* `expectChar_eq_ok_iff`, `expectWord_eq_ok_iff` — single characters and words;
* `textFrom_eq_ok_iff` — texts, in all their spellings;
* `numeral_append`, `isNumber_of_numeral` — numbers.
-/

namespace QueryFilter.Json

/-! ## Blanks -/

/-- The empty text is made of blanks. -/
theorem blank_nil : Blank [] := fun _ h => nomatch h

/-- Blanks and blanks make blanks. -/
theorem Blank.append {a b : List Char} (ha : Blank a) (hb : Blank b) : Blank (a ++ b) := by
  intro c hc
  exact (List.mem_append.mp hc).elim (ha c) (hb c)

/-- Blanks in front of a text are skipped. -/
theorem gap_append {a : List Char} (ha : Blank a) (s : List Char) : gap (a ++ s) = gap s :=
  Text.dropWhile_append_of_all ha s

/-- Nothing is left behind blanks exactly if a text is made of them. -/
theorem gap_eq_nil_iff {s : List Char} : gap s = [] ↔ Blank s :=
  Text.dropWhile_eq_nil_iff

/-- The blanks in front of a text, and the rest. -/
theorem exists_gap (s : List Char) : ∃ a, Blank a ∧ s = a ++ gap s :=
  ⟨s.takeWhile Char.isWhitespace, List.all_eq_true.mp List.all_takeWhile,
    List.takeWhile_append_dropWhile.symm⟩

/-! ## Pieces between values -/

/-- A character may be expected across blanks. -/
theorem expectChar_append {c : Char} {a : List Char} (ha : Blank a) (s : List Char) :
    expectChar c (a ++ s) = expectChar c s := by
  rw [expectChar, expectChar, gap_append ha]

/-- What is taken by an expected character is blanks and that character. -/
theorem expectChar_eq_ok_iff {c : Char} (hc : c.isWhitespace = false) {s r : List Char} :
    expectChar c s = .ok r ↔ ∃ a, Blank a ∧ s = a ++ c :: r := by
  constructor
  · intro h
    obtain ⟨a, ha, hs⟩ := exists_gap s
    unfold expectChar at h
    split at h
    · cases h
    · next d t hgap =>
        split at h
        · next hd =>
            cases h
            exact ⟨a, ha, by rw [hs, hgap, hd]⟩
        · cases h
  · rintro ⟨a, ha, rfl⟩
    rw [expectChar_append ha, expectChar_cons hc]

/-- What is taken by an expected word is that word. -/
theorem expectWord_eq_ok_iff {w s r : List Char} : expectWord w s = .ok r ↔ s = w ++ r := by
  constructor
  · intro h
    induction w generalizing s with
    | nil =>
        cases h
        rfl
    | cons c w ih =>
        cases s with
        | nil => cases h
        | cons d s =>
            rw [expectWord] at h
            split at h
            · next hd => rw [hd, ih h, List.cons_append]
            · cases h
  · rintro rfl
    exact expectWord_append w r

section Places

variable {b : Bracket} {a s r : List Char}

/-- Blanks in front of the first place do not matter. -/
theorem firstPlace_append (ha : Blank a) (s : List Char) :
    firstPlace b.close (a ++ s) = firstPlace b.close s := by
  rw [firstPlace, firstPlace, gap_append ha]

/-- Blanks in front of a further place do not matter. -/
theorem nextPlace_append (ha : Blank a) (s : List Char) :
    nextPlace b.close (a ++ s) = nextPlace b.close s := by
  rw [nextPlace, nextPlace, gap_append ha]

/-- A comma and blanks before an entry. -/
theorem nextPlace_entry {w : List Char} (hw : IsEntry w) (ha : Blank a) (s : List Char) :
    nextPlace b.close (',' :: (a ++ (w ++ s))) = .ok (.entry (w ++ s)) := by
  have hskip : nextPlace b.close (',' :: (a ++ (w ++ s))) =
      nextPlace b.close (',' :: (w ++ s)) := by
    have hcomma : ',' ≠ b.close := by cases b <;> decide
    rw [nextPlace, nextPlace, gap_cons (by decide), gap_cons (by decide)]
    simp only [if_neg hcomma, gap_append ha]
  rw [hskip, nextPlace_comma hw]

/-- Behind the opening bracket stands, blanks in front of it, the closing one or an entry. -/
theorem of_firstPlace {place : Place} (h : firstPlace b.close s = .ok place) :
    ∃ a, Blank a ∧ ((∃ r, place = .closed r ∧ s = a ++ b.close :: r) ∨
      ∃ v, place = .entry v ∧ s = a ++ v) := by
  obtain ⟨a, ha, hs⟩ := exists_gap s
  refine ⟨a, ha, ?_⟩
  unfold firstPlace at h
  split at h
  · cases h
  · next c t hgap =>
      cases h
      by_cases hc : c = b.close
      · exact .inl ⟨t, if_pos hc, by rw [hs, hgap, hc]⟩
      · exact .inr ⟨c :: t, if_neg hc, by rw [hs, hgap]⟩

/-- Behind an entry stands, blanks in front of it, the closing bracket or a comma, and behind
the comma a further entry. -/
theorem of_nextPlace {place : Place} (h : nextPlace b.close s = .ok place) :
    ∃ a, Blank a ∧ ((∃ r, place = .closed r ∧ s = a ++ b.close :: r) ∨
      ∃ a' v, Blank a' ∧ place = .entry v ∧ s = a ++ ',' :: (a' ++ v)) := by
  obtain ⟨a, ha, hs⟩ := exists_gap s
  refine ⟨a, ha, ?_⟩
  unfold nextPlace at h
  split at h
  · cases h
  · next c t hgap =>
      split at h
      · next hc =>
          cases h
          exact .inl ⟨t, rfl, by rw [hs, hgap, hc]⟩
      split at h
      · next hc =>
          obtain ⟨a', ha', ht⟩ := exists_gap t
          split at h
          · cases h
          · next d u hgap' =>
              split at h
              · cases h
              · cases h
                exact .inr ⟨a', d :: u, ha', rfl, by rw [hs, hgap, hc, ← hgap', ← ht]⟩
      · cases h

end Places

/-! ## Texts -/

section Texts

variable {use : Use} {c : Char} {s r x w : List Char}

/-- Four hexadecimal digits are read as their number, whatever follows. -/
theorem hexFour_append {a b c d : Char} {n : Nat} (h : hexNumber? a b c d = some n)
    (s : List Char) : hexFour (a :: b :: c :: d :: s) = .ok (n, s) := by
  rw [hexFour, h]

/-- What is read as a number of four digits is four hexadecimal digits. -/
theorem of_hexFour {n : Nat} (h : hexFour s = .ok (n, r)) :
    ∃ a b c d, hexNumber? a b c d = some n ∧ s = a :: b :: c :: d :: r := by
  unfold hexFour at h
  split at h
  · next a b c d t =>
      split at h
      · next hn =>
          cases h
          exact ⟨a, b, c, d, hn, rfl⟩
      · cases h
  · cases h

/-- An escape that begins with `u` is a numeric one. -/
theorem escaped_u (use : Use) (s : List Char) : escaped use ('u' :: s) = unicode use s := by
  rw [escaped, if_pos rfl]

/-- No code is both halves of a pair. -/
theorem isLow_of_isHigh {n : Nat} (h : isHigh n = true) : isLow n = false := by
  simp only [isHigh, isLow, Bool.and_eq_true, decide_eq_true_eq] at h ⊢
  simp only [Bool.and_eq_false_iff, decide_eq_false_iff_not]
  omega

/-- The two halves of a pair make one character. -/
theorem unicode_pair {a b c d a' b' c' d' : Char} {n m : Nat} (hn : hexNumber? a b c d = some n)
    (hhigh : isHigh n = true) (hm : hexNumber? a' b' c' d' = some m) (hlow : isLow m = true)
    (s : List Char) :
    unicode .kept (a :: b :: c :: d :: escapeMark :: 'u' :: a' :: b' :: c' :: d' :: s) =
      .ok (Char.ofNat (0x10000 + (n - 0xd800) * 0x400 + (m - 0xdc00)), s) := by
  have hword : expectWord [escapeMark, 'u'] (escapeMark :: 'u' :: a' :: b' :: c' :: d' :: s) =
      .ok (a' :: b' :: c' :: d' :: s) := expectWord_append [escapeMark, 'u'] _
  simp only [unicode, hexFour_append hn, bind, Except.bind, isLow_of_isHigh hhigh, hhigh, hword,
    hexFour_append hm, hlow]
  rfl

/-- A spelled character is read, whatever follows. -/
theorem textFrom_glyph {g : List Char} (h : Glyph use c g) (s : List Char) :
    textFrom use (g ++ s) = prepend c (textFrom use s) := by
  cases h with
  | plain hquote hescape hcontrol => exact textFrom_plain hquote hescape hcontrol use s
  | @short _ e _ hshort =>
      have hne : e ≠ 'u' := by
        rintro rfl
        cases hshort
      refine textFrom_escapeMark ?_
      show escaped use (e :: s) = _
      rw [escaped, if_neg hne, hshort]
  | @code a b c d n hn hhigh hlow =>
      refine textFrom_escapeMark ?_
      show escaped .kept ('u' :: a :: b :: c :: d :: s) = _
      simp only [escaped_u, unicode, hexFour_append hn, bind, Except.bind, hlow, hhigh]
      rfl
  | pair hn hhigh hm hlow =>
      exact textFrom_escapeMark ((escaped_u _ _).trans (unicode_pair hn hhigh hm hlow s))
  | @half a b c d n hn =>
      refine textFrom_escapeMark ?_
      show escaped .skipped ('u' :: a :: b :: c :: d :: s) = _
      simp only [escaped_u, unicode, hexFour_append hn, bind, Except.bind]
      rfl

/-- A numeric escape that is read is the spelling of a character. -/
theorem of_unicode (h : unicode use s = .ok (c, r)) :
    ∃ g, Glyph use c (escapeMark :: 'u' :: g) ∧ s = g ++ r := by
  rw [unicode] at h
  obtain ⟨⟨n, t⟩, hfour, hchar⟩ := bind_eq_ok.mp h
  obtain ⟨a, b, c, d, hn, rfl⟩ := of_hexFour hfour
  clear h hfour
  cases use with
  | skipped =>
      cases hchar
      exact ⟨[a, b, c, d], .half hn, rfl⟩
  | kept =>
      dsimp only at hchar
      split at hchar
      · cases hchar
      · next hlow =>
          split at hchar
          · next hhigh =>
              obtain ⟨u, hword, hsecond⟩ := bind_eq_ok.mp hchar
              obtain ⟨⟨m, v⟩, hfour, hpair⟩ := bind_eq_ok.mp hsecond
              obtain ⟨a', b', c', d', hm, rfl⟩ := of_hexFour hfour
              rw [expectWord_eq_ok_iff.mp hword]
              dsimp only at hpair
              split at hpair
              · next hlow' =>
                  obtain ⟨rfl, rfl⟩ := Prod.mk.inj (Except.ok.inj hpair)
                  exact ⟨[a, b, c, d, escapeMark, 'u', a', b', c', d'],
                    .pair hn hhigh hm hlow', rfl⟩
              · cases hpair
          · next hhigh =>
              cases hchar
              exact ⟨[a, b, c, d], .code hn (by simpa using hhigh) (by simpa using hlow), rfl⟩

/-- An escape that is read is the spelling of a character. -/
theorem of_escaped (h : escaped use s = .ok (c, r)) :
    ∃ g, Glyph use c (escapeMark :: g) ∧ s = g ++ r := by
  unfold escaped at h
  split at h
  · cases h
  · next e t =>
      split at h
      · next he =>
          obtain ⟨g, hg, rfl⟩ := of_unicode h
          exact ⟨'u' :: g, hg, by rw [he, List.cons_append]⟩
      · split at h
        · next y hshort =>
            cases h
            exact ⟨[e], .short hshort, rfl⟩
        · cases h

/-- A spelled text is read up to the quote that ends it. -/
theorem textFrom_letters (h : Letters use x w) (r : List Char) :
    textFrom use (w ++ quoteMark :: r) = .ok (x, r) := by
  induction h with
  | nil => exact textFrom_quoteMark use r
  | cons hc _ ih =>
      rw [List.append_assoc, textFrom_glyph hc, ih]
      rfl

/-- **Texts are read in all their spellings,** and as nothing else. -/
theorem textFrom_eq_ok_iff :
    textFrom use s = .ok (x, r) ↔ ∃ w, Letters use x w ∧ s = w ++ quoteMark :: r := by
  constructor
  · intro h
    fun_induction textFrom use s generalizing x r with
    | case1 => cases h
    | case2 =>
        cases h
        exact ⟨[], .nil, rfl⟩
    | case3 => cases h
    | case4 s y t hesc _ ih =>
        cases ht : textFrom use t with
        | error f =>
            rw [ht] at h
            cases h
        | ok p =>
            rw [ht] at h
            cases h
            obtain ⟨w, hw, rfl⟩ := ih ht
            obtain ⟨g, hg, rfl⟩ := of_escaped hesc
            exact ⟨(escapeMark :: g) ++ w, .cons hg hw, by simp⟩
    | case5 => cases h
    | case6 c s hquote hescape hcontrol ih =>
        cases hs : textFrom use s with
        | error f =>
            rw [hs] at h
            cases h
        | ok p =>
            rw [hs] at h
            cases h
            obtain ⟨w, hw, rfl⟩ := ih hs
            exact ⟨[c] ++ w, .cons (.plain hquote hescape hcontrol) hw, rfl⟩
  · rintro ⟨w, hw, rfl⟩
    exact textFrom_letters hw r

/-- Whether a character stands for itself in a text. -/
def isPlain (c : Char) : Bool := c != quoteMark && c != escapeMark && !decide (c < ' ')

/-- A text of plain characters is a spelling of itself. -/
theorem quoted_of_plain (h : x.all isPlain = true) :
    Quoted use x (quoteMark :: (x ++ [quoteMark])) := by
  refine ⟨x, ?_, rfl⟩
  induction x with
  | nil => exact .nil
  | cons c x ih =>
      rw [List.all_cons, Bool.and_eq_true] at h
      obtain ⟨hc, hx⟩ := h
      simp only [isPlain, Bool.and_eq_true, bne_iff_ne, Bool.not_eq_true',
        decide_eq_false_iff_not] at hc
      exact .cons (.plain hc.1.1 hc.1.2 hc.2) (ih hx)

/-- A value under a key may be written without blanks. -/
theorem keyed_of_quoted {k v : List Char} (h : Quoted use x k) :
    Keyed use x v (k ++ ':' :: v) :=
  ⟨k, [], [], h, blank_nil, blank_nil, rfl⟩

end Texts

/-! ## Numbers -/

/-- Whether a text does not go on with a number that ends before it. -/
def Break (r : List Char) : Prop :=
  ∀ c, r.head? = some c → c.isDigit = false ∧ c ≠ '.' ∧ c ≠ 'e' ∧ c ≠ 'E'

/-- A text breaks a number off by its first character. -/
theorem break_cons {c : Char} (h : c.isDigit = false ∧ c ≠ '.' ∧ c ≠ 'e' ∧ c ≠ 'E')
    (r : List Char) : Break (c :: r) := by
  intro d hd
  cases hd
  exact h

/-- A closing bracket breaks a number off. -/
theorem break_close (b : Bracket) (r : List Char) : Break (b.close :: r) :=
  break_cons (by cases b <;> decide) r

/-- A comma breaks a number off. -/
theorem break_comma (r : List Char) : Break (',' :: r) := break_cons (by decide) r

/-- Blanks before a break are a break. -/
theorem Break.blank {a r : List Char} (hr : Break r) (ha : Blank a) : Break (a ++ r) := by
  cases a with
  | nil => exact hr
  | cons c a =>
      have hc := ha c List.mem_cons_self
      simp only [Char.isWhitespace, Bool.or_eq_true, decide_eq_true_eq] at hc
      rcases hc with ((rfl | rfl) | rfl) | rfl <;> exact break_cons (by decide) _

section Numbers

variable {s r w : List Char}

/-- Digits are read up to the first character that is none. -/
theorem digits_append (hw : IsDigits w) (hr : ∀ c, r.head? = some c → c.isDigit = false) :
    digits (w ++ r) = .ok (w.map fun c => c.toNat - '0'.toNat, r) := by
  have hnone : r.takeWhile Char.isDigit = [] ∧ r.dropWhile Char.isDigit = r := by
    cases r with
    | nil => exact ⟨rfl, rfl⟩
    | cons c r => simp [hr c rfl]
  rw [digits, List.takeWhile_append_of_pos hw.2, List.dropWhile_append_of_pos hw.2, hnone.1,
    hnone.2, List.append_nil]
  cases w with
  | nil => exact absurd rfl hw.1
  | cons c w => rfl

/-- What is read as digits are digits. -/
theorem of_digits {ds : List Nat} (h : digits s = .ok (ds, r)) :
    ∃ w, IsDigits w ∧ ds = (w.map fun c => c.toNat - '0'.toNat) ∧ s = w ++ r := by
  unfold digits at h
  split at h
  · cases h
  · next hne =>
      cases h
      exact ⟨s.takeWhile Char.isDigit, ⟨hne, List.all_eq_true.mp List.all_takeWhile⟩, rfl,
        List.takeWhile_append_dropWhile.symm⟩

/-- A digit of value zero is a zero. -/
theorem eq_zero_of_isDigit {c : Char} (h : c.isDigit = true) (hc : c.toNat - '0'.toNat = 0) :
    c = '0' := by
  have hlow : '0'.toNat ≤ c.toNat := by
    simp only [Char.isDigit, Bool.and_eq_true, decide_eq_true_eq] at h
    exact h.1
  exact Char.toNat_inj.mp (by omega)

/-- The whole part of a number is read up to the first character that is no digit. -/
theorem wholePart_append (hw : IsWhole w) (hr : ∀ c, r.head? = some c → c.isDigit = false) :
    ∃ ds, wholePart (w ++ r) = .ok (ds, r) := by
  obtain ⟨hdigits, hzero⟩ := hw
  refine ⟨w.map fun c => c.toNat - '0'.toNat, ?_⟩
  rw [wholePart, digits_append hdigits hr]
  simp only [bind, Except.bind]
  split
  · next d ds hds =>
      obtain ⟨c, w', rfl, hc, hrest⟩ := List.map_eq_cons_iff.mp hds
      have hw' := hzero w' (by rw [eq_zero_of_isDigit (hdigits.2 c List.mem_cons_self) hc])
      rw [hw'] at hrest
      cases hrest
  · rfl

/-- What is read as a whole part is one. -/
theorem of_wholePart {ds : List Nat} (h : wholePart s = .ok (ds, r)) :
    ∃ w, IsWhole w ∧ s = w ++ r := by
  obtain ⟨⟨ds', t⟩, hdigits, hzero⟩ := bind_eq_ok.mp h
  obtain ⟨w, hw, rfl, rfl⟩ := of_digits hdigits
  dsimp only at hzero
  split at hzero
  · cases hzero
  · next hno =>
      cases hzero
      refine ⟨w, ⟨hw, ?_⟩, rfl⟩
      rintro w' rfl
      cases w' with
      | nil => rfl
      | cons c w' => exact absurd rfl (hno _ _)

/-- The fraction of a number is read where neither a digit nor a point follows. -/
theorem fractionPart_append (hw : IsFraction w)
    (hr : ∀ c, r.head? = some c → c.isDigit = false ∧ c ≠ '.') :
    ∃ ds, fractionPart (w ++ r) = .ok (ds, r) := by
  rcases hw with rfl | ⟨ds, hds, rfl⟩
  · cases r with
    | nil => exact ⟨[], rfl⟩
    | cons c r => exact ⟨[], by rw [List.nil_append, fractionPart, if_neg (hr c rfl).2]⟩
  · refine ⟨ds.map fun c => c.toNat - '0'.toNat, ?_⟩
    rw [List.cons_append, fractionPart, if_pos rfl, digits_append hds fun c hc => (hr c hc).1]

/-- What is read as a fraction is one, or nothing is. -/
theorem of_fractionPart {ds : List Nat} (h : fractionPart s = .ok (ds, r)) :
    ∃ w, IsFraction w ∧ s = w ++ r := by
  cases s with
  | nil =>
      cases h
      exact ⟨[], .inl rfl, rfl⟩
  | cons c t =>
      rw [fractionPart] at h
      split at h
      · next hc =>
          obtain ⟨w, hw, rfl, rfl⟩ := of_digits h
          exact ⟨'.' :: w, .inr ⟨w, hw, rfl⟩, by rw [hc, List.cons_append]⟩
      · cases h
        exact ⟨[], .inl rfl, rfl⟩

/-- A sign, if there is one, before a digit. -/
theorem sign_append {s w : List Char} (hs : s = [] ∨ s = ['+'] ∨ s = ['-']) (hw : IsDigits w)
    (r : List Char) : (sign (s ++ (w ++ r))).2 = w ++ r := by
  rcases hs with rfl | rfl | rfl
  · obtain ⟨c, w', rfl⟩ := List.exists_cons_of_ne_nil hw.1
    have hc : c.isDigit = true := hw.2 c List.mem_cons_self
    have hminus : c ≠ '-' := by
      rintro rfl
      cases hc
    have hplus : c ≠ '+' := by
      rintro rfl
      cases hc
    rw [List.nil_append, List.cons_append, sign, if_neg hminus, if_neg hplus]
  · rfl
  · rfl

/-- What is taken for a sign is one, or nothing is. -/
theorem of_sign (s : List Char) :
    ∃ w, (w = [] ∨ w = ['+'] ∨ w = ['-']) ∧ s = w ++ (sign s).2 := by
  cases s with
  | nil => exact ⟨[], .inl rfl, rfl⟩
  | cons c t =>
      rw [sign]
      split
      · next hc => exact ⟨['-'], .inr (.inr rfl), by rw [hc]; rfl⟩
      · split
        · next hc => exact ⟨['+'], .inr (.inl rfl), by rw [hc]; rfl⟩
        · exact ⟨[], .inl rfl, rfl⟩

/-- The exponent of a number is read where the number ends. -/
theorem exponentPart_append (hw : IsExponent w) (hr : Break r) :
    ∃ e, exponentPart (w ++ r) = .ok (e, r) := by
  rcases hw with rfl | ⟨e, s, ds, he, hs, hds, rfl⟩
  · cases r with
    | nil => exact ⟨none, rfl⟩
    | cons c r =>
        obtain ⟨-, -, hlower, hupper⟩ := hr c rfl
        exact ⟨none, by rw [List.nil_append, exponentPart, if_neg (not_or.mpr ⟨hlower, hupper⟩)]⟩
  · have hdigits := digits_append hds fun c hc => (hr c hc).1
    rw [List.cons_append, List.append_assoc, exponentPart, if_pos he]
    simp only [sign_append hs hds, hdigits, bind, Except.bind]
    exact ⟨_, rfl⟩

/-- What is read as an exponent is one, or nothing is. -/
theorem of_exponentPart {e : Option Int} (h : exponentPart s = .ok (e, r)) :
    ∃ w, IsExponent w ∧ s = w ++ r := by
  cases s with
  | nil =>
      cases h
      exact ⟨[], .inl rfl, rfl⟩
  | cons c t =>
      rw [exponentPart] at h
      split at h
      · next hc =>
          obtain ⟨⟨ds, u⟩, hdigits, hout⟩ := bind_eq_ok.mp h
          have hr : u = r := (Prod.mk.inj (Except.ok.inj hout)).2
          obtain ⟨w, hw, -, hbehind⟩ := of_digits hdigits
          have hu : (sign t).2 = w ++ u := hbehind
          obtain ⟨v, hv, ht⟩ := of_sign t
          refine ⟨c :: (v ++ w), .inr ⟨c, v, w, hc, hv, hw, rfl⟩, ?_⟩
          rw [List.cons_append, List.append_assoc, ← hr, ← hu, ← ht]
      · cases h
        exact ⟨[], .inl rfl, rfl⟩

/-- A minus, if there is one, is taken off before a digit. -/
theorem minus_append {s w : List Char} (hs : s = [] ∨ s = ['-']) (hw : IsDigits w)
    (r : List Char) : (minus (s ++ (w ++ r))).2 = w ++ r := by
  rcases hs with rfl | rfl
  · obtain ⟨c, w', rfl⟩ := List.exists_cons_of_ne_nil hw.1
    have hminus : c ≠ '-' := by
      rintro rfl
      cases hw.2 '-' List.mem_cons_self
    rw [List.nil_append, List.cons_append, minus, if_neg hminus]
  · rfl

/-- What is taken for a minus is one, or nothing is. -/
theorem of_minus (s : List Char) : ∃ w, (w = [] ∨ w = ['-']) ∧ s = w ++ (minus s).2 := by
  cases s with
  | nil => exact ⟨[], .inl rfl, rfl⟩
  | cons c t =>
      rw [minus]
      split
      · next hc => exact ⟨['-'], .inr rfl, by rw [hc]; rfl⟩
      · exact ⟨[], .inl rfl, rfl⟩

/-- Behind the fraction comes no digit and no point. -/
theorem head_exponent (hw : IsExponent w) (hr : Break r) :
    ∀ c, (w ++ r).head? = some c → c.isDigit = false ∧ c ≠ '.' := by
  intro c hc
  rcases hw with rfl | ⟨e, s, ds, he, -, -, rfl⟩
  · exact ⟨(hr c hc).1, (hr c hc).2.1⟩
  · cases hc
    rcases he with rfl | rfl <;> decide

/-- Behind the whole part comes no digit. -/
theorem head_fraction (hw : IsFraction w) (hr : ∀ c, r.head? = some c → c.isDigit = false) :
    ∀ c, (w ++ r).head? = some c → c.isDigit = false := by
  intro c hc
  rcases hw with rfl | ⟨ds, -, rfl⟩
  · exact hr c hc
  · cases hc
    decide

/-- **A number is read where it ends.** -/
theorem numeral_append (hw : IsNumber w) (hr : Break r) : ∃ n, numeral (w ++ r) = .ok (n, r) := by
  obtain ⟨s, whole, fraction, exponent, hs, hwhole, hfraction, hexponent, rfl⟩ := hw
  have htail := head_exponent hexponent hr
  have hbehind := head_fraction hfraction fun c hc => (htail c hc).1
  have hminus := minus_append hs hwhole.1 (fraction ++ (exponent ++ r))
  obtain ⟨ds, hds⟩ := wholePart_append hwhole hbehind
  obtain ⟨fs, hfs⟩ := fractionPart_append hfraction htail
  obtain ⟨e, he⟩ := exponentPart_append hexponent hr
  refine ⟨⟨(minus (s ++ (whole ++ (fraction ++ (exponent ++ r))))).1, ds, fs, e⟩, ?_⟩
  simp only [List.append_assoc, numeral, hminus, hds, hfs, he, bind, Except.bind]
  rfl

/-- What is read as a number is one. -/
theorem isNumber_of_numeral {n : Numeral} (h : numeral s = .ok (n, r)) :
    ∃ w, IsNumber w ∧ s = w ++ r := by
  rw [numeral] at h
  obtain ⟨⟨ds, t⟩, hwhole, hafter⟩ := bind_eq_ok.mp h
  obtain ⟨⟨fs, u⟩, hfraction, hlast⟩ := bind_eq_ok.mp hafter
  obtain ⟨⟨e, v⟩, hexponent, hout⟩ := bind_eq_ok.mp hlast
  obtain ⟨sgn, hsgn, hs⟩ := of_minus s
  obtain ⟨whole, hw, hbehind⟩ := of_wholePart hwhole
  have ht : (minus s).2 = whole ++ t := hbehind
  obtain ⟨fraction, hf, hu⟩ := of_fractionPart hfraction
  obtain ⟨exponent, he, hv⟩ := of_exponentPart hexponent
  cases hout
  refine ⟨_, ⟨sgn, whole, fraction, exponent, hsgn, hw, hf, he, rfl⟩, ?_⟩
  rw [List.append_assoc, List.append_assoc, List.append_assoc, ← hv, ← hu, ← ht, ← hs]

end Numbers

end QueryFilter.Json
