import QueryFilter.Proofs.Scanning

/-!
# Entries between brackets

Arrays and objects are read in three ways: entry by entry in a state, field by field in
the array form of a record, and with a stack where they are skipped.  All three are a
`Loop`: behind an opening bracket comes the closing one or an entry, and behind an entry
the closing one or a comma and an entry.  What a loop comes to is said here once for all
of them.

An entry takes the loop from one state to another, `Step`.  Entries one after another make
a `Chain` of steps.

* `Loop.first_encloses` — what is enclosed is read to its end;
* `Loop.of_first_enclosed` — what is read to its end is enclosed;
* `Loop.first_upto` — what leads to a further entry is read up to it;
* `Loop.first_torn` — what breaks off before its end is cut off to the loop.
-/

namespace QueryFilter.Json

/-- Steps one after another. -/
inductive Chain {σ ι : Type} (Step : σ → ι → σ → Prop) : σ → List ι → σ → Prop
  | nil {st : σ} : Chain Step st [] st
  | cons {st st' st'' : σ} {v : ι} {vs : List ι} (h : Step st v st')
      (hs : Chain Step st' vs st'') : Chain Step st (v :: vs) st''

/-- What stands behind an opening bracket, up to a further entry. -/
inductive Upto : List (List Char) → List Char → Prop
  | here {a : List Char} (ha : Blank a) : Upto [] a
  | past {a a' v w : List Char} {vs : List (List Char)} (ha : Blank a) (ha' : Blank a')
      (h : Upto vs w) : Upto (v :: vs) (a ++ (v ++ (a' ++ ',' :: w)))

/-- Whether `p` is a text that breaks off before the end of `w`. -/
def Torn (p w : List Char) : Prop := ∃ c r, w = p ++ c :: r

/-! ## Texts that break off -/

section Torn

variable {p u v w : List Char}

/-- The empty text cannot break off. -/
theorem not_torn_nil : ¬Torn p [] := by
  rintro ⟨c, r, h⟩
  cases p <;> cases h

/-- A text breaks off before its first character, or in what is behind it. -/
theorem torn_cons_iff {c : Char} : Torn p (c :: w) ↔ p = [] ∨ ∃ q, p = c :: q ∧ Torn q w := by
  constructor
  · rintro ⟨d, r, h⟩
    cases p with
    | nil => exact .inl rfl
    | cons e q =>
        obtain ⟨rfl, hw⟩ := List.cons.inj h
        exact .inr ⟨q, rfl, d, r, hw⟩
  · rintro (rfl | ⟨q, rfl, d, r, rfl⟩)
    · exact ⟨c, w, rfl⟩
    · exact ⟨d, r, rfl⟩

/-- A text of two parts breaks off in the first one, or in the second. -/
theorem torn_append_iff : Torn p (u ++ v) ↔ Torn p u ∨ ∃ q, p = u ++ q ∧ Torn q v := by
  induction u generalizing p with
  | nil => simp [not_torn_nil]
  | cons c u ih =>
      rw [List.cons_append, torn_cons_iff, torn_cons_iff]
      constructor
      · rintro (rfl | ⟨q, rfl, hq⟩)
        · exact .inl (.inl rfl)
        · rcases ih.mp hq with h | ⟨t, rfl, ht⟩
          · exact .inl (.inr ⟨q, rfl, h⟩)
          · exact .inr ⟨t, rfl, ht⟩
      · rintro ((rfl | ⟨q, rfl, hq⟩) | ⟨q, rfl, hq⟩)
        · exact .inl rfl
        · exact .inr ⟨q, rfl, ih.mpr (.inl hq)⟩
        · exact .inr ⟨u ++ q, rfl, ih.mpr (.inr ⟨q, rfl, hq⟩)⟩

/-- Blanks that break off are blanks. -/
theorem Blank.torn {a : List Char} (ha : Blank a) (hp : Torn p a) : Blank p := by
  obtain ⟨c, r, rfl⟩ := hp
  exact fun d hd => ha d (List.mem_append_left _ hd)

/-- A break that breaks off is a break. -/
theorem Break.torn (hw : Break w) (hp : Torn p w) : Break p := by
  obtain ⟨d, r, rfl⟩ := hp
  intro c hc
  exact hw c (by rw [List.head?_append, hc, Option.some_or])

/-- What is left of an entry that breaks off is an entry, unless nothing is. -/
theorem IsEntry.torn (hv : IsEntry v) (hp : Torn p v) (hne : p ≠ []) : IsEntry p := by
  obtain ⟨c, r, rfl, hc⟩ := hv
  rcases torn_cons_iff.mp hp with rfl | ⟨q, rfl, -⟩
  · exact absurd rfl hne
  · exact ⟨c, q, rfl, hc⟩

end Torn

/-! ## Loops -/

/-- An entry may go on. -/
theorem IsEntry.append {v : List Char} (h : IsEntry v) (s : List Char) : IsEntry (v ++ s) := by
  obtain ⟨c, r, rfl, hc⟩ := h
  exact ⟨c, r ++ s, rfl, hc⟩

/-- No entry is empty. -/
theorem IsEntry.ne_nil {v : List Char} (h : IsEntry v) : v ≠ [] := by
  obtain ⟨c, r, rfl, -⟩ := h
  exact List.cons_ne_nil c r

/-- Blanks may stand in front of a row of entries. -/
theorem Listed.blank {b : Bracket} {vs : List (List Char)} {a w : List Char} (ha : Blank a)
    (h : Listed b vs w) : Listed b vs (a ++ w) := by
  cases h with
  | last h₁ h₂ =>
      rw [← List.append_assoc]
      exact .last (ha.append h₁) h₂
  | more h₁ h₂ h₃ =>
      rw [← List.append_assoc]
      exact .more (ha.append h₁) h₂ h₃

/-- What is read at each place between the brackets `b`. -/
structure Loop (b : Bracket) (σ ρ : Type) where
  /-- Behind the opening bracket. -/
  first : σ → List Char → Except Fault ρ
  /-- At an entry. -/
  entry : σ → List Char → Except Fault ρ
  /-- Behind an entry. -/
  next : σ → List Char → Except Fault ρ
  /-- Behind the closing bracket. -/
  done : σ → List Char → Except Fault ρ
  first_end : ∀ {st a}, Blank a → first st a = .error .cutOff
  first_close : ∀ {st a r}, Blank a → first st (a ++ b.close :: r) = done st r
  first_entry : ∀ {st a v}, Blank a → IsEntry v → first st (a ++ v) = entry st v
  of_first : ∀ {st s out}, first st s = .ok out →
    (∃ a r, Blank a ∧ s = a ++ b.close :: r ∧ done st r = .ok out) ∨
      ∃ a v, Blank a ∧ s = a ++ v ∧ entry st v = .ok out
  next_end : ∀ {st a}, Blank a → next st a = .error .cutOff
  next_close : ∀ {st a r}, Blank a → next st (a ++ b.close :: r) = done st r
  next_entry : ∀ {st a a' v}, Blank a → Blank a' → IsEntry v →
    next st (a ++ ',' :: (a' ++ v)) = entry st v
  of_next : ∀ {st s out}, next st s = .ok out →
    (∃ a r, Blank a ∧ s = a ++ b.close :: r ∧ done st r = .ok out) ∨
      ∃ a a' v, Blank a ∧ Blank a' ∧ s = a ++ ',' :: (a' ++ v) ∧ entry st v = .ok out

namespace Loop

variable {b : Bracket} {σ ρ : Type}

/-- What is read at a place. -/
def atPlace (entry done : σ → List Char → Except Fault ρ) (st : σ) : Place → Except Fault ρ
  | .closed r => done st r
  | .entry r => entry st r

section Places

variable {entry done : σ → List Char → Except Fault ρ} {st : σ} {a s : List Char} {out : ρ}

/-- Behind the opening bracket something must come. -/
theorem first_end_of_places (ha : Blank a) :
    (firstPlace b.close a >>= Loop.atPlace entry done st) = .error .cutOff := by
  rw [firstPlace, gap_eq_nil_iff.mpr ha]
  rfl

/-- Behind the opening bracket an entry is found, blanks in front of it. -/
theorem first_entry_of_places {v : List Char} (ha : Blank a) (hv : IsEntry v) :
    (firstPlace b.close (a ++ v) >>= Loop.atPlace entry done st) = entry st v := by
  have hplace := firstPlace_entry hv b []
  rw [List.append_nil] at hplace
  rw [firstPlace_append ha, hplace]
  rfl

/-- What is read behind the opening bracket is the end, or an entry and the rest. -/
theorem of_first_of_places (h : (firstPlace b.close s >>= Loop.atPlace entry done st) = .ok out) :
    (∃ a r, Blank a ∧ s = a ++ b.close :: r ∧ done st r = .ok out) ∨
      ∃ a v, Blank a ∧ s = a ++ v ∧ entry st v = .ok out := by
  obtain ⟨place, hplace, hout⟩ := bind_eq_ok.mp h
  obtain ⟨a, ha, ⟨r, rfl, hs⟩ | ⟨v, rfl, hs⟩⟩ := of_firstPlace hplace
  · exact .inl ⟨a, r, ha, hs, hout⟩
  · exact .inr ⟨a, v, ha, hs, hout⟩

/-- Behind an entry something must come. -/
theorem next_end_of_places (ha : Blank a) :
    (nextPlace b.close a >>= Loop.atPlace entry done st) = .error .cutOff := by
  rw [nextPlace, gap_eq_nil_iff.mpr ha]
  rfl

/-- Behind a comma an entry must come. -/
theorem comma_end_of_places {a' : List Char} (ha : Blank a) (ha' : Blank a') :
    (nextPlace b.close (a ++ ',' :: a') >>= Loop.atPlace entry done st) = .error .cutOff := by
  have hcomma : ',' ≠ b.close := by cases b <;> decide
  rw [nextPlace_append ha, nextPlace, gap_cons (by decide)]
  simp only [if_neg hcomma, gap_eq_nil_iff.mpr ha']
  rfl

/-- Behind a comma a further entry is found, blanks in front of it. -/
theorem next_entry_of_places {a' v : List Char} (ha : Blank a) (ha' : Blank a')
    (hv : IsEntry v) :
    (nextPlace b.close (a ++ ',' :: (a' ++ v)) >>= Loop.atPlace entry done st) = entry st v := by
  have hplace := nextPlace_entry (b := b) hv ha' []
  rw [List.append_nil] at hplace
  rw [nextPlace_append ha, hplace]
  rfl

/-- What is read behind an entry is the end, or a comma and a further entry. -/
theorem of_next_of_places (h : (nextPlace b.close s >>= Loop.atPlace entry done st) = .ok out) :
    (∃ a r, Blank a ∧ s = a ++ b.close :: r ∧ done st r = .ok out) ∨
      ∃ a a' v, Blank a ∧ Blank a' ∧ s = a ++ ',' :: (a' ++ v) ∧ entry st v = .ok out := by
  obtain ⟨place, hplace, hout⟩ := bind_eq_ok.mp h
  obtain ⟨a, ha, ⟨r, rfl, hs⟩ | ⟨a', v, ha', rfl, hs⟩⟩ := of_nextPlace hplace
  · exact .inl ⟨a, r, ha, hs, hout⟩
  · exact .inr ⟨a, a', v, ha, ha', hs, hout⟩

end Places

/-- The loop that looks for its places in one way in every state. -/
def ofPlaces (b : Bracket) (entry done : σ → List Char → Except Fault ρ) : Loop b σ ρ where
  first st s := firstPlace b.close s >>= Loop.atPlace entry done st
  entry := entry
  next st s := nextPlace b.close s >>= Loop.atPlace entry done st
  done := done
  first_end ha := first_end_of_places ha
  first_close ha := by rw [firstPlace_append ha, firstPlace_close]; rfl
  first_entry ha hv := first_entry_of_places ha hv
  of_first h := of_first_of_places h
  next_end ha := next_end_of_places ha
  next_close ha := by rw [nextPlace_append ha, nextPlace_close]; rfl
  next_entry ha ha' hv := next_entry_of_places ha ha' hv
  of_next h := of_next_of_places h

/-! ## What is enclosed is read -/

/-- Whether a loop takes the entries of `Step` as its steps. -/
structure Follows (L : Loop b σ ρ) (Step : σ → List Char → σ → Prop) : Prop where
  isEntry : ∀ {st v st'}, Step st v st' → IsEntry v
  entry_append : ∀ {st v st' r}, Step st v st' → Break r → L.entry st (v ++ r) = L.next st' r

variable {L : Loop b σ ρ} {Step : σ → List Char → σ → Prop} {st st' : σ}
  {vs : List (List Char)} {w : List Char}

/-- Entries in a row are read from the first one to the end. -/
theorem entry_listed (hL : L.Follows Step) (hw : Listed b vs w) (hvs : Chain Step st vs st')
    (r : List Char) :
    ∃ a v, Blank a ∧ IsEntry v ∧ w = a ++ v ∧ L.entry st (v ++ r) = L.done st' r := by
  induction hw generalizing st with
  | @last a a' v ha ha' =>
      obtain _ | ⟨hstep, ⟨⟩⟩ := hvs
      refine ⟨a, _, ha, (hL.isEntry hstep).append _, rfl, ?_⟩
      rw [List.append_assoc, List.append_assoc, List.singleton_append,
        hL.entry_append hstep ((break_close b r).blank ha'), L.next_close ha']
  | @more a a' v w vs ha ha' _ ih =>
      obtain _ | ⟨hstep, hrest⟩ := hvs
      obtain ⟨a'', u, ha'', hu, rfl, hread⟩ := ih hrest
      refine ⟨a, _, ha, (hL.isEntry hstep).append _, rfl, ?_⟩
      rw [List.append_assoc, List.append_assoc, List.cons_append, List.append_assoc,
        hL.entry_append hstep ((break_comma _).blank ha'), L.next_entry ha' ha'' (hu.append r),
        hread]

/-- **What is enclosed is read to its end,** one step for each entry. -/
theorem first_encloses (hL : L.Follows Step) (hw : Encloses b vs w) (hvs : Chain Step st vs st')
    (r : List Char) : L.first st (w ++ r) = L.done st' r := by
  cases hw with
  | none ha =>
      cases hvs
      rw [List.append_assoc, List.singleton_append, L.first_close ha]
  | some hlist =>
      obtain ⟨a, v, ha, hv, rfl, hread⟩ := entry_listed hL hlist hvs r
      rw [List.append_assoc, L.first_entry ha (hv.append r), hread]

/-- Entries in a row, each with a comma behind it, are read up to the next one. -/
theorem entry_upto (hL : L.Follows Step) (hw : Upto vs w) (hvs : Chain Step st vs st')
    {u : List Char} (hu : IsEntry u) :
    ∃ a v, Blank a ∧ IsEntry v ∧ w ++ u = a ++ v ∧ L.entry st v = L.entry st' u := by
  induction hw generalizing st with
  | here ha =>
      cases hvs
      exact ⟨_, u, ha, hu, rfl, rfl⟩
  | @past a a' v w vs ha ha' _ ih =>
      obtain _ | ⟨hstep, hrest⟩ := hvs
      obtain ⟨a'', t, ha'', ht, htext, hread⟩ := ih hrest
      refine ⟨a, v ++ (a' ++ ',' :: (w ++ u)), ha, (hL.isEntry hstep).append _, by simp, ?_⟩
      rw [hL.entry_append hstep ((break_comma _).blank ha'), htext, L.next_entry ha' ha'' ht, hread]

/-- **What leads to a further entry is read up to it.** -/
theorem first_upto (hL : L.Follows Step) (hw : Upto vs w) (hvs : Chain Step st vs st')
    {u : List Char} (hu : IsEntry u) : L.first st (w ++ u) = L.entry st' u := by
  obtain ⟨a, v, ha, hv, htext, hread⟩ := entry_upto hL hw hvs hu
  rw [htext, L.first_entry ha hv, hread]

/-! ## What is read is enclosed -/

/-- Whether what a loop reads in a text of less than `n` characters is an entry of `Step`. -/
def Shows (L : Loop b σ ρ) (Step : σ → List Char → σ → Prop) (n : Nat) : Prop :=
  ∀ {st s out}, s.length < n → L.entry st s = .ok out →
    ∃ a v st' r, Blank a ∧ IsEntry v ∧ Step st v st' ∧ s = a ++ (v ++ r) ∧
      L.next st' r = .ok out

/-- What is read from an entry on to the end are entries in a row. -/
theorem of_entry_listed {n : Nat} (hL : L.Shows Step n) {s : List Char} {out : ρ}
    (hn : s.length < n) (h : L.entry st s = .ok out) :
    ∃ vs w st' r, Listed b vs w ∧ Chain Step st vs st' ∧ s = w ++ r ∧ L.done st' r = .ok out := by
  induction hlen : s.length using Nat.strongRecOn generalizing st s with
  | ind m ih =>
      obtain ⟨a, v, st', t, ha, hv, hstep, rfl, hnext⟩ := hL hn h
      rcases L.of_next hnext with ⟨a', r, ha', rfl, hdone⟩ | ⟨a', a'', u, ha', ha'', rfl, hentry⟩
      · exact ⟨[v], a ++ (v ++ (a' ++ [b.close])), st', r, .last ha ha', .cons hstep .nil,
          by simp, hdone⟩
      · have hlt : u.length < m := by
          simp only [List.length_append, List.length_cons] at hlen
          omega
        obtain ⟨vs, w, st'', r, hw, hvs, rfl, hdone⟩ := ih u.length hlt (by omega) hentry rfl
        exact ⟨v :: vs, a ++ (v ++ (a' ++ ',' :: (a'' ++ w))), st'', r,
          .more ha ha' (hw.blank ha''), .cons hstep hvs, by simp, hdone⟩

/-- **What is read to its end is enclosed,** one entry for each step. -/
theorem of_first_enclosed {n : Nat} (hL : L.Shows Step n) {s : List Char} {out : ρ}
    (hn : s.length < n) (h : L.first st s = .ok out) :
    ∃ vs w st' r, Encloses b vs w ∧ Chain Step st vs st' ∧ s = w ++ r ∧
      L.done st' r = .ok out := by
  rcases L.of_first h with ⟨a, r, ha, rfl, hdone⟩ | ⟨a, v, ha, rfl, hentry⟩
  · exact ⟨[], a ++ [b.close], st, r, .none ha, .nil, by simp, hdone⟩
  · have hlt : v.length < n := by
      rw [List.length_append] at hn
      omega
    obtain ⟨vs, w, st', r, hw, hvs, rfl, hdone⟩ := of_entry_listed hL hlt hentry
    exact ⟨vs, a ++ w, st', r, .some (hw.blank ha), hvs, by simp, hdone⟩

/-! ## What breaks off is cut off -/

/-- Whether a loop that follows `Step` finds a text cut off wherever it breaks off.  Behind
a comma it does if there may be a further entry. -/
structure Waits (L : Loop b σ ρ) (Step : σ → List Char → σ → Prop) : Prop
    extends L.Follows Step where
  comma_end : ∀ {st v st' a a'}, Step st v st' → Blank a → Blank a' →
    L.next st (a ++ ',' :: a') = .error .cutOff
  entry_torn : ∀ {st v st' p}, Step st v st' → Torn p v → p ≠ [] →
    L.entry st p = .error .cutOff

/-- A text that breaks off at an entry or behind it.  What comes behind the entry does not
matter where the break is before its end. -/
theorem entry_torn_append (hL : L.Waits Step) {a u v p : List Char} (ha : Blank a)
    (hstep : Step st v st') (hu : Break u) (hp : Torn p (a ++ (v ++ u)))
    (hnext : ∀ t, Torn t u → L.next st' t = .error .cutOff) :
    Blank p ∨ ∃ a v, Blank a ∧ IsEntry v ∧ p = a ++ v ∧ L.entry st v = .error .cutOff := by
  rcases torn_append_iff.mp hp with hp | ⟨q, rfl, hq⟩
  · exact .inl (ha.torn hp)
  rcases torn_append_iff.mp hq with hq | ⟨t, rfl, ht⟩
  · by_cases hne : q = []
    · rw [hne, List.append_nil]
      exact .inl ha
    · exact .inr ⟨a, q, ha, (hL.isEntry hstep).torn hq hne, rfl, hL.entry_torn hstep hq hne⟩
  · exact .inr ⟨a, v ++ t, ha, (hL.isEntry hstep).append t, rfl,
      by rw [hL.entry_append hstep (hu.torn ht), hnext t ht]⟩

/-- Entries that break off do so in blanks, or from the first entry on. -/
theorem entry_torn_listed (hL : L.Waits Step) (hw : Listed b vs w) (hvs : Chain Step st vs st')
    {p : List Char} (hp : Torn p w) :
    Blank p ∨ ∃ a v, Blank a ∧ IsEntry v ∧ p = a ++ v ∧ L.entry st v = .error .cutOff := by
  induction hw generalizing st p with
  | @last a a' v ha ha' =>
      obtain _ | ⟨hstep, -⟩ := hvs
      refine entry_torn_append hL ha hstep ((break_close b []).blank ha') hp fun t ht => ?_
      rcases torn_append_iff.mp ht with ht | ⟨q, rfl, hq⟩
      · exact L.next_end (ha'.torn ht)
      rcases torn_cons_iff.mp hq with rfl | ⟨q, -, hq⟩
      · rw [List.append_nil]
        exact L.next_end ha'
      · exact absurd hq not_torn_nil
  | @more a a' v w vs ha ha' hlisted ih =>
      obtain _ | ⟨hstep, hrest⟩ := hvs
      refine entry_torn_append hL ha hstep ((break_comma w).blank ha') hp fun t ht => ?_
      rcases torn_append_iff.mp ht with ht | ⟨q, rfl, hcomma⟩
      · exact L.next_end (ha'.torn ht)
      rcases torn_cons_iff.mp hcomma with rfl | ⟨q, rfl, hq⟩
      · rw [List.append_nil]
        exact L.next_end ha'
      rcases ih hrest hq with hblank | ⟨a'', u, ha'', hu, rfl, hcut⟩
      · cases hlisted with
        | last =>
            obtain _ | ⟨hstep', -⟩ := hrest
            exact hL.comma_end hstep' ha' hblank
        | more =>
            obtain _ | ⟨hstep', -⟩ := hrest
            exact hL.comma_end hstep' ha' hblank
      · rw [L.next_entry ha' ha'' hu, hcut]

/-- **What breaks off before its end is cut off.** -/
theorem first_torn (hL : L.Waits Step) (hw : Encloses b vs w) (hvs : Chain Step st vs st')
    {p : List Char} (hp : Torn p w) : L.first st p = .error .cutOff := by
  cases hw with
  | none ha =>
      rcases torn_append_iff.mp hp with hp | ⟨q, rfl, hq⟩
      · exact L.first_end (ha.torn hp)
      rcases torn_cons_iff.mp hq with rfl | ⟨q, -, hq⟩
      · rw [List.append_nil]
        exact L.first_end ha
      · exact absurd hq not_torn_nil
  | some hlist =>
      rcases entry_torn_listed hL hlist hvs hp with hblank | ⟨a, v, ha, hv, rfl, hcut⟩
      · exact L.first_end hblank
      · rw [L.first_entry ha hv, hcut]

end Loop

end QueryFilter.Json
