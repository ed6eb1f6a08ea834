import QueryFilter.Proofs.Loop

/-!
# Skipping by the grammar

Skipping takes a value of any depth, and it takes nothing else.  The stack of open
brackets says what has to come behind the value, so a value is skipped before the rest
that the stack asks for, and an array or object inside it is a loop over the same stack.

A number alone does not tell where it ends, so behind the value there must be a break.

* `quoted_append`, `of_quoted` — keys and other texts, read behind blanks;
* `skipValue_append` — a value is skipped before what the stack asks for;
* `of_skipValue` — what is skipped is a value.
-/

namespace QueryFilter.Json

variable {opened : List Bracket} {a w r s : List Char} {b : Bracket}

/-! ## Texts behind blanks -/

/-- A text is read behind blanks, whatever follows it. -/
theorem quoted_append {use : Use} {x : List Char} (ha : Blank a) (hw : Quoted use x w)
    (r : List Char) :
    (expectChar quoteMark (a ++ (w ++ r)) >>= textFrom use) = .ok (x, r) := by
  obtain ⟨v, hv, rfl⟩ := hw
  rw [expectChar_append ha, List.cons_append, expectChar_cons (by decide), List.append_assoc]
  exact textFrom_letters hv r

/-- What is read as a text is one, with only blanks in front. -/
theorem of_quoted {use : Use} {x : List Char}
    (h : (expectChar quoteMark s >>= textFrom use) = .ok (x, r)) :
    ∃ a w, Blank a ∧ Quoted use x w ∧ s = a ++ (w ++ r) := by
  obtain ⟨t, hquote, htext⟩ := bind_eq_ok.mp h
  obtain ⟨a, ha, rfl⟩ := (expectChar_eq_ok_iff (by decide)).mp hquote
  obtain ⟨v, hv, rfl⟩ := textFrom_eq_ok_iff.mp htext
  exact ⟨a, quoteMark :: (v ++ [quoteMark]), ha, ⟨v, hv, rfl⟩, by simp⟩

/-- A quoted text is an entry. -/
theorem isEntry_quoted {use : Use} {x : List Char} (hw : Quoted use x w) : IsEntry w := by
  obtain ⟨v, -, rfl⟩ := hw
  exact ⟨quoteMark, _, rfl, by decide, fun b => by cases b <;> decide⟩

/-- A value under a key is an entry. -/
theorem isEntry_keyed {use : Use} {x v : List Char} (hw : Keyed use x v w) : IsEntry w := by
  obtain ⟨k, a, b, hk, -, -, rfl⟩ := hw
  exact (isEntry_quoted hk).append _

/-! ## Values without brackets -/

/-- A number begins with a minus or a digit. -/
theorem IsNumber.head (hw : IsNumber w) : ∃ c t, w = c :: t ∧ (c = '-' ∨ c.isDigit = true) := by
  obtain ⟨s, whole, fraction, exponent, hs, hwhole, -, -, rfl⟩ := hw
  rcases hs with rfl | rfl
  · obtain ⟨c, t, rfl⟩ := List.exists_cons_of_ne_nil hwhole.1.1
    exact ⟨c, _, rfl, .inr (hwhole.1.2 c List.mem_cons_self)⟩
  · exact ⟨'-', _, rfl, .inl rfl⟩

/-- Where a number may begin nothing else does. -/
theorem ne_of_number {c d : Char} (hc : c = '-' ∨ c.isDigit = true) (hd : d ≠ '-')
    (hdigit : d.isDigit = false) : c ≠ d := by
  rintro rfl
  rcases hc with hc | hc
  · exact hd hc
  · rw [hc] at hdigit
    cases hdigit

/-- The values without brackets. -/
inductive IsLeaf : List Char → Prop
  | null : IsLeaf "null".toList
  | yes : IsLeaf "true".toList
  | no : IsLeaf "false".toList
  | number {w : List Char} (h : IsNumber w) : IsLeaf w
  | text {x w : List Char} (h : Quoted .skipped x w) : IsLeaf w

/-- A value without brackets is a value. -/
theorem IsLeaf.isValue (hw : IsLeaf w) : IsValue w := by
  cases hw with
  | null => exact .null
  | yes => exact .yes
  | no => exact .no
  | number h => exact .number h
  | text h => exact .text h

/-- Where a value without brackets begins there is no blank and no bracket. -/
theorem IsLeaf.head (hw : IsLeaf w) :
    ∃ c t, w = c :: t ∧ c.isWhitespace = false ∧ (∀ b : Bracket, c ≠ b.close) ∧ c ≠ '[' ∧
      c ≠ '\x7b' := by
  cases hw with
  | null => exact ⟨'n', _, rfl, by decide, fun b => by cases b <;> decide, by decide⟩
  | yes => exact ⟨'t', _, rfl, by decide, fun b => by cases b <;> decide, by decide⟩
  | no => exact ⟨'f', _, rfl, by decide, fun b => by cases b <;> decide, by decide⟩
  | number h =>
      obtain ⟨c, t, rfl, hc⟩ := h.head
      refine ⟨c, t, rfl, ?_, fun b => ?_, ne_of_number hc (by decide) (by decide),
        ne_of_number hc (by decide) (by decide)⟩
      · rw [← Bool.not_eq_true]
        intro hblank
        simp only [Char.isWhitespace, Bool.or_eq_true, decide_eq_true_eq] at hblank
        rcases hblank with ((rfl | rfl) | rfl) | rfl <;> exact absurd hc (by decide)
      · cases b <;> exact ne_of_number hc (by decide) (by decide)
  | text h =>
      obtain ⟨v, -, rfl⟩ := h
      exact ⟨quoteMark, _, rfl, by decide, fun b => by cases b <;> decide, by decide⟩

/-- A value without brackets is skipped where it ends. -/
theorem skipLeaf_append (hw : IsLeaf w) (hr : Break r) : skipLeaf (w ++ r) = .ok r := by
  cases hw with
  | null => exact expectWord_append "ull".toList r
  | yes => exact expectWord_append "rue".toList r
  | no => exact expectWord_append "alse".toList r
  | number h =>
      obtain ⟨n, hn⟩ := numeral_append h hr
      obtain ⟨c, t, rfl, hc⟩ := h.head
      rw [List.cons_append] at hn ⊢
      rw [skipLeaf, if_neg (ne_of_number hc (by decide) (by decide)),
        if_neg (ne_of_number hc (by decide) (by decide)),
        if_neg (ne_of_number hc (by decide) (by decide)), if_pos hc, skipNumber, hn]
  | text h =>
      obtain ⟨v, hv, rfl⟩ := h
      show (textFrom .skipped (v ++ [quoteMark] ++ r)).map Prod.snd = _
      rw [List.append_assoc]
      exact congrArg (Except.map Prod.snd) (textFrom_letters hv r)

/-- What is skipped without a bracket is a value without brackets. -/
theorem of_skipLeaf (h : skipLeaf s = .ok r) : ∃ w, IsLeaf w ∧ s = w ++ r := by
  cases s with
  | nil => cases h
  | cons c t =>
      rw [skipLeaf] at h
      split at h
      · next hc => exact ⟨_, .null, by rw [hc, expectWord_eq_ok_iff.mp h]; rfl⟩
      split at h
      · next hc => exact ⟨_, .yes, by rw [hc, expectWord_eq_ok_iff.mp h]; rfl⟩
      split at h
      · next hc => exact ⟨_, .no, by rw [hc, expectWord_eq_ok_iff.mp h]; rfl⟩
      split at h
      · unfold skipNumber at h
        split at h
        · cases h
        · next hn =>
            cases h
            obtain ⟨w, hw, hs⟩ := isNumber_of_numeral hn
            exact ⟨w, .number hw, hs⟩
      split at h
      · next hc =>
          cases ht : textFrom .skipped t with
          | error f =>
              rw [ht] at h
              cases h
          | ok p =>
              rw [ht] at h
              cases h
              obtain ⟨v, hv, rfl⟩ := textFrom_eq_ok_iff.mp ht
              exact ⟨quoteMark :: (v ++ [quoteMark]), .text ⟨v, hv, rfl⟩, by simp [hc]⟩
      · cases h

/-- Every value is an entry. -/
theorem IsValue.isEntry (hw : IsValue w) : IsEntry w := by
  have hleaf : ∀ {w}, IsLeaf w → IsEntry w := by
    intro w hw
    obtain ⟨c, t, rfl, hblank, hclose, -⟩ := hw.head
    exact ⟨c, t, rfl, hblank, hclose⟩
  cases hw with
  | null => exact hleaf .null
  | yes => exact hleaf .yes
  | no => exact hleaf .no
  | number h => exact hleaf (.number h)
  | text h => exact hleaf (.text h)
  | array _ _ => exact ⟨'[', _, rfl, by decide, fun b => by cases b <;> decide⟩
  | object _ _ _ => exact ⟨'\x7b', _, rfl, by decide, fun b => by cases b <;> decide⟩

/-! ## The loop over the stack -/

/-- Skips an entry, in an object with its key. -/
def skipEntry (b : Bracket) (opened : List Bracket) (s : List Char) : Except Fault (List Char) :=
  match b with
  | .array => skipValue (.array :: opened) s
  | .object => skipKey s >>= skipValue (.object :: opened)

/-- What is skipped between two brackets, and what the stack asks for behind them. -/
def skipLoop (b : Bracket) : Loop b (List Bracket) (List Char) :=
  .ofPlaces b (skipEntry b) skipAfter

/-- Behind a value the innermost bracket asks for its next entry. -/
theorem skipAfter_cons (b : Bracket) (opened : List Bracket) (s : List Char) :
    skipAfter (b :: opened) s = (skipLoop b).next opened s := by
  rw [skipAfter]
  show _ = (nextPlace b.close s >>= Loop.atPlace (skipEntry b) skipAfter opened)
  split
  · next f hplace => rw [hplace]; rfl
  · next r hplace => rw [hplace]; rfl
  · next r hplace =>
      have hentry : (nextPlace b.close s >>= Loop.atPlace (skipEntry b) skipAfter opened) =
          skipEntry b opened r := by
        rw [hplace]
        rfl
      rw [hentry]
      cases b with
      | array => rfl
      | object =>
          show _ = (skipKey r >>= skipValue (.object :: opened))
          dsimp only
          split
          · next f hkey => rw [hkey]; rfl
          · next t hkey => rw [hkey]; rfl

/-- What comes behind the beginning of a value. -/
def Opening.resume (opened : List Bracket) : Opening → Except Fault (List Char)
  | .empty r => skipAfter opened r
  | .leaf r => skipAfter opened r
  | .nested b r => skipValue (b :: opened) r

/-- A value is skipped by its beginning and what that leaves to be done. -/
theorem skipValue_eq (opened : List Bracket) (s : List Char) :
    skipValue opened s = (skipOpening s >>= Opening.resume opened) := by
  rw [skipValue]
  split <;> next hopen => rw [hopen]; rfl

/-- The character that opens a bracket. -/
def Bracket.start : Bracket → Char
  | array => '['
  | object => '\x7b'

/-- No bracket that opens is a blank. -/
theorem Bracket.isWhitespace_start (b : Bracket) : b.start.isWhitespace = false := by
  cases b <;> decide

/-- An opening bracket leaves the loop over its entries to be done. -/
theorem openBracket_resume (b : Bracket) (opened : List Bracket) (s : List Char) :
    (openBracket b s >>= Opening.resume opened) = (skipLoop b).first opened s := by
  show _ = (firstPlace b.close s >>= Loop.atPlace (skipEntry b) skipAfter opened)
  rw [openBracket]
  cases firstPlace b.close s with
  | error f => rfl
  | ok place =>
      cases place with
      | closed r => rfl
      | entry r =>
          cases b with
          | array => rfl
          | object =>
              show ((skipKey r >>= fun t => .ok (Opening.nested .object t)) >>= _) =
                (skipKey r >>= skipValue (.object :: opened))
              cases skipKey r <;> rfl

/-- An array or object is a loop over the same stack. -/
theorem skipValue_open (b : Bracket) (ha : Blank a) (s : List Char) :
    skipValue opened (a ++ b.start :: s) = (skipLoop b).first opened s := by
  have hopen : skipOpening (a ++ b.start :: s) = openBracket b s := by
    rw [skipOpening, gap_append ha, gap_cons b.isWhitespace_start]
    cases b <;> rfl
  rw [skipValue_eq, hopen, openBracket_resume]

/-- A value without brackets leaves what the stack asks for. -/
theorem skipValue_leaf (ha : Blank a) (hw : IsLeaf w) (hr : Break r) :
    skipValue opened (a ++ (w ++ r)) = skipAfter opened r := by
  have hleaf := skipLeaf_append hw hr
  obtain ⟨c, t, rfl, hblank, -, harray, hobject⟩ := hw.head
  have hopen : skipOpening (a ++ (c :: t ++ r)) = .ok (.leaf r) := by
    rw [skipOpening, gap_append ha, List.cons_append, gap_cons hblank]
    show ite _ _ _ = _
    rw [if_neg harray, if_neg hobject, ← List.cons_append, hleaf]
    rfl
  rw [skipValue_eq, hopen]
  rfl

/-- What is skipped is a value without brackets, or an array or object. -/
theorem of_skipValue_eq (h : skipValue opened s = .ok r) :
    (∃ a w t, Blank a ∧ IsLeaf w ∧ s = a ++ (w ++ t) ∧ skipAfter opened t = .ok r) ∨
      ∃ b a t, Blank a ∧ s = a ++ Bracket.start b :: t ∧ (skipLoop b).first opened t = .ok r := by
  obtain ⟨a, ha, hs⟩ := exists_gap s
  rw [skipValue_eq] at h
  obtain ⟨o, hopen, hresume⟩ := bind_eq_ok.mp h
  unfold skipOpening at hopen
  split at hopen
  · cases hopen
  · next c t hgap =>
      rw [hgap] at hs
      split at hopen
      · next hc =>
          refine .inr ⟨.array, a, t, ha, hs.trans (by rw [hc]; rfl), ?_⟩
          rw [← openBracket_resume, hopen]
          exact hresume
      split at hopen
      · next hc =>
          refine .inr ⟨.object, a, t, ha, hs.trans (by rw [hc]; rfl), ?_⟩
          rw [← openBracket_resume, hopen]
          exact hresume
      · cases hleaf : skipLeaf (c :: t) with
        | error f =>
            rw [hleaf] at hopen
            cases hopen
        | ok u =>
            rw [hleaf] at hopen
            cases hopen
            obtain ⟨w, hw, htext⟩ := of_skipLeaf hleaf
            exact .inl ⟨a, w, u, ha, hw, by rw [hs, htext], hresume⟩

/-! ## Entries that are skipped -/

/-- Steps that leave the state as it is. -/
def Stays {σ : Type} (P : List Char → Prop) (st : σ) (v : List Char) (st' : σ) : Prop :=
  st' = st ∧ P v

/-- Steps that leave the state as it is leave it so together. -/
theorem chain_stays_iff {σ : Type} {P : List Char → Prop} {st st' : σ}
    {vs : List (List Char)} : Chain (Stays P) st vs st' ↔ st' = st ∧ ∀ v ∈ vs, P v := by
  constructor
  · intro h
    induction h with
    | nil => exact ⟨rfl, fun v hv => nomatch hv⟩
    | cons hstep _ ih =>
        obtain ⟨rfl, hv⟩ := hstep
        exact ⟨ih.1, List.forall_mem_cons.mpr ⟨hv, ih.2⟩⟩
  · rintro ⟨rfl, h⟩
    induction vs with
    | nil => exact .nil
    | cons v vs ih =>
        obtain ⟨hv, hvs⟩ := List.forall_mem_cons.mp h
        exact .cons ⟨rfl, hv⟩ (ih hvs)

/-- A key is skipped as a text and its colon. -/
theorem skipKey_eq (s : List Char) :
    skipKey s = ((expectChar quoteMark s >>= textFrom .skipped) >>= fun p =>
      expectChar ':' p.2) := by
  rw [skipKey]
  cases expectChar quoteMark s <;> rfl

/-- A key is skipped in all its spellings, blanks around it. -/
theorem skipKey_append {x k : List Char} (ha : Blank a) (hk : Quoted .skipped x k)
    {a' : List Char} (ha' : Blank a') (r : List Char) :
    skipKey (a ++ (k ++ (a' ++ ':' :: r))) = .ok r := by
  rw [skipKey_eq, quoted_append ha hk]
  exact (expectChar_append ha' _).trans (expectChar_cons (by decide) r)

/-- Nothing is skipped as a key but its spellings, with blanks around it and a colon. -/
theorem of_skipKey (h : skipKey s = .ok r) :
    ∃ a x k a', Blank a ∧ Quoted .skipped x k ∧ Blank a' ∧ s = a ++ (k ++ (a' ++ ':' :: r)) := by
  rw [skipKey_eq] at h
  obtain ⟨⟨x, t⟩, hquote, hcolon⟩ := bind_eq_ok.mp h
  obtain ⟨a, k, ha, hk, rfl⟩ := of_quoted hquote
  obtain ⟨a', ha', ht⟩ := (expectChar_eq_ok_iff (by decide)).mp hcolon
  exact ⟨a, x, k, a', ha, hk, ha', by rw [← ht]⟩

/-- Of two lists that are related pairwise, the second has no element without a partner. -/
theorem exists_of_forall₂ {ι κ : Type*} {R : ι → κ → Prop} {xs : List ι} {ys : List κ}
    (h : List.Forall₂ R xs ys) : ∀ y ∈ ys, ∃ x ∈ xs, R x y := by
  induction h with
  | nil => exact fun y hy => nomatch hy
  | @cons x y _ _ hxy _ ih =>
      refine List.forall_mem_cons.mpr ⟨⟨x, List.mem_cons_self, hxy⟩, fun z hz => ?_⟩
      obtain ⟨w, hw, hwz⟩ := ih z hz
      exact ⟨w, List.mem_cons_of_mem x hw, hwz⟩

/-- **A value is skipped before what the stack asks for.** -/
theorem skipValue_append (hw : IsValue w) :
    ∀ {opened a r}, Blank a → Break r → skipValue opened (a ++ (w ++ r)) = skipAfter opened r := by
  induction hw with
  | null => exact fun ha hr => skipValue_leaf ha .null hr
  | yes => exact fun ha hr => skipValue_leaf ha .yes hr
  | no => exact fun ha hr => skipValue_leaf ha .no hr
  | number h => exact fun ha hr => skipValue_leaf ha (.number h) hr
  | text h => exact fun ha hr => skipValue_leaf ha (.text h) hr
  | @array vs w hvalues hw ih =>
      intro opened a r ha _
      have hfollows : (skipLoop .array).Follows (Stays (· ∈ vs)) :=
        { isEntry := fun hstep => (hvalues _ hstep.2).isEntry
          entry_append := by
            rintro st v _ r ⟨rfl, hv⟩ hr
            exact (ih v hv blank_nil hr).trans (skipAfter_cons .array _ r) }
      exact (skipValue_open .array ha (w ++ r)).trans
        (Loop.first_encloses hfollows hw (chain_stays_iff.mpr ⟨rfl, fun _ hv => hv⟩) r)
  | @object vs ms w hvalues hkeys hw ih =>
      intro opened a r ha _
      have hfollows : (skipLoop .object).Follows (Stays (· ∈ ms)) :=
        { isEntry := by
            rintro st m _ ⟨-, hm⟩
            obtain ⟨v, -, x, hkeyed⟩ := exists_of_forall₂ hkeys m hm
            exact isEntry_keyed hkeyed
          entry_append := by
            rintro st m _ r ⟨rfl, hm⟩ hr
            obtain ⟨v, hv, x, k, a', b', hk, ha', hb', rfl⟩ := exists_of_forall₂ hkeys m hm
            show (skipKey _ >>= _) = _
            have hkey := skipKey_append blank_nil hk ha' (b' ++ (v ++ r))
            simp only [List.nil_append] at hkey
            simp only [List.append_assoc, List.cons_append, hkey]
            exact (ih v hv hb' hr).trans (skipAfter_cons .object _ r) }
      exact (skipValue_open .object ha (w ++ r)).trans
        (Loop.first_encloses hfollows hw (chain_stays_iff.mpr ⟨rfl, fun _ hm => hm⟩) r)

/-- The members of an object that is skipped. -/
def IsMember (m : List Char) : Prop := ∃ v, IsValue v ∧ ∃ x, Keyed .skipped x v m

/-- Members between brackets are an object. -/
theorem isValue_object {ms : List (List Char)} (hms : ∀ m ∈ ms, IsMember m)
    (hw : Encloses .object ms w) : IsValue ('\x7b' :: w) := by
  have hvalues : ∃ vs, (∀ v ∈ vs, IsValue v) ∧
      List.Forall₂ (fun v m => ∃ x, Keyed .skipped x v m) vs ms := by
    clear hw
    induction ms with
    | nil => exact ⟨[], (fun v hv => nomatch hv), .nil⟩
    | cons m ms ih =>
        obtain ⟨⟨v, hv, hkey⟩, hrest⟩ := List.forall_mem_cons.mp hms
        obtain ⟨vs, hvs, hkeys⟩ := ih hrest
        exact ⟨v :: vs, List.forall_mem_cons.mpr ⟨hv, hvs⟩, .cons hkey hkeys⟩
  obtain ⟨vs, hvs, hkeys⟩ := hvalues
  exact .object hvs hkeys hw

/-- **What is skipped is a value,** and the rest is what the stack asks for. -/
theorem of_skipValue (h : skipValue opened s = .ok r) :
    ∃ a w t, Blank a ∧ IsValue w ∧ s = a ++ (w ++ t) ∧ skipAfter opened t = .ok r := by
  induction hn : s.length using Nat.strongRecOn generalizing opened s r with
  | ind n ih =>
      -- entries inside the value are shorter than it
      have harray : (skipLoop .array).Shows (Stays IsValue) n := by
        intro st s out hlt hentry
        obtain ⟨a, w, t, ha, hw, rfl, hafter⟩ := ih s.length hlt hentry rfl
        exact ⟨a, w, st, t, ha, hw.isEntry, ⟨rfl, hw⟩, rfl,
          (skipAfter_cons .array st t).symm.trans hafter⟩
      have hobject : (skipLoop .object).Shows (Stays IsMember) n := by
        intro st s out hlt hentry
        obtain ⟨u, hkey, hvalue⟩ := bind_eq_ok.mp hentry
        have hshort := length_of_skipKey hkey
        obtain ⟨a, x, k, a', ha, hk, ha', rfl⟩ := of_skipKey hkey
        obtain ⟨b', w, t, hb', hw, rfl, hafter⟩ := ih u.length (by omega) hvalue rfl
        have hkeyed : Keyed .skipped x w (k ++ (a' ++ ':' :: (b' ++ w))) :=
          ⟨k, a', b', hk, ha', hb', rfl⟩
        exact ⟨a, _, st, t, ha, isEntry_keyed hkeyed, ⟨rfl, w, hw, x, hkeyed⟩, by simp,
          (skipAfter_cons .object st t).symm.trans hafter⟩
      rcases of_skipValue_eq h with ⟨a, w, t, ha, hw, hs, hafter⟩ | ⟨b, a, t, ha, rfl, hfirst⟩
      · exact ⟨a, w, t, ha, hw.isValue, hs, hafter⟩
      · have hlt : t.length < n := by
          simp only [List.length_append, List.length_cons] at hn
          omega
        cases b with
        | array =>
            obtain ⟨vs, w, st', u, hw, hvs, rfl, hdone⟩ :=
              Loop.of_first_enclosed harray hlt hfirst
            obtain ⟨rfl, hvalues⟩ := chain_stays_iff.mp hvs
            exact ⟨a, '[' :: w, u, ha, .array hvalues hw, rfl, hdone⟩
        | object =>
            obtain ⟨ms, w, st', u, hw, hms, rfl, hdone⟩ :=
              Loop.of_first_enclosed hobject hlt hfirst
            obtain ⟨rfl, hmembers⟩ := chain_stays_iff.mp hms
            exact ⟨a, '\x7b' :: w, u, ha, isValue_object hmembers hw, rfl, hdone⟩

end QueryFilter.Json
