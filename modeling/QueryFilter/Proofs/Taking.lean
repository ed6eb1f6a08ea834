import QueryFilter.Proofs.Presentation
import QueryFilter.Proofs.Skipping

/-!
# Readers and forms

A reader takes a form if it gives the value that a text presents, blanks in front and
whatever behind, and it takes only this form if it gives nothing else.  Both laws pass
from the readers of parts to the readers made of them: to lists and tables by the loop
over their entries, one step for each.

* `Reader.Takes`, `Reader.TakesOnly` — the two laws;
* `Loop.Follows`, `Loop.Shows` for the loops of entries — `follows_entriesLoop`,
  `shows_entriesLoop`;
* `takes_list`, `takesOnly_list` and `takes_table`, `takesOnly_table` — values in
  brackets;
* `readAll_eq_ok_iff` — both laws together say which texts are read as which value.
-/

namespace QueryFilter.Json

variable {α β σ : Type} {a b w r s : List Char}

/-- A result that is mapped is good if it was good before. -/
theorem map_eq_ok {ε : Type} {x : Except ε α} {f : α → β} {y : β} :
    x.map f = .ok y ↔ ∃ z, x = .ok z ∧ f z = y := by
  cases x <;> simp [Except.map]

namespace Reader

/-- Whether a reader takes the texts of a form, whatever comes behind them. -/
structure Takes (rd : Reader α) (F : Form α) : Prop where
  isEntry : ∀ {x w}, F x w → IsEntry w
  run_append : ∀ {x b w}, F x w → Blank b → ∀ r, rd.run (b ++ (w ++ r)) = .ok (x, r)

/-- Whether a reader takes nothing but the texts of a form. -/
def TakesOnly (rd : Reader α) (F : Form α) : Prop :=
  ∀ {s x r}, rd.run s = .ok (x, r) → ∃ b w, Blank b ∧ IsEntry w ∧ F x w ∧ s = b ++ (w ++ r)

/-- The fault of a value is that of what is made of it. -/
theorem run_map_error {rd : Reader α} {f : Fault} (h : rd.run s = .error f) (g : α → β) :
    (rd.map g).run s = .error f := by
  show (rd.run s).map _ = _
  rw [h]
  rfl

/-- Whether a text is read to its end depends on nothing but what it presents. -/
theorem readAll_eq_ok_iff {rd : Reader α} {F : Form α} (htakes : rd.Takes F)
    (honly : rd.TakesOnly F) {x : α} {t : List Char} :
    rd.readAll t = .ok x ↔ Presents F x t := by
  constructor
  · intro h
    obtain ⟨⟨y, r⟩, hrun, hend⟩ := bind_eq_ok.mp h
    obtain ⟨b, w, hb, -, hw, rfl⟩ := honly hrun
    dsimp only at hend
    split at hend
    · next hgap =>
        cases hend
        exact ⟨b, w, r, hb, hw, gap_eq_nil_iff.mp hgap, rfl⟩
    · cases hend
  · rintro ⟨b, w, r, hb, hw, hr, rfl⟩
    rw [readAll, htakes.run_append hw hb]
    exact if_pos (gap_eq_nil_iff.mpr hr)

/-! ## Values that their first character tells -/

section ByFirst

variable {wanted : String} {branch : Char → Option (Tail α)}

/-- Blanks aside, the first character of a value tells what reads the rest. -/
theorem byFirst_run {c : Char} {t : Tail α} (ha : Blank a) (hc : c.isWhitespace = false)
    (hbranch : branch c = some t) (s : List Char) :
    (byFirst wanted branch).run (a ++ c :: s) = t.run s := by
  simp only [byFirst, gap_append ha, gap_cons hc, hbranch]

/-- What is read by its first character has that character, with only blanks in front. -/
theorem of_byFirst {x : α} (h : (byFirst wanted branch).run s = .ok (x, r)) :
    ∃ a c t u, Blank a ∧ branch c = some t ∧ s = a ++ c :: u ∧ t.run u = .ok (x, r) := by
  obtain ⟨a, ha, hs⟩ := exists_gap s
  simp only [byFirst] at h
  split at h
  · cases h
  · next c u hgap =>
      split at h
      · next t ht => exact ⟨a, c, t, u, ha, ht, by rw [hs, hgap], h⟩
      · cases h

end ByFirst

/-- A value begins with its first character, which is neither blank nor closes a bracket. -/
theorem isEntry_cons {c : Char} (hc : c.isWhitespace = false ∧ c ≠ ']' ∧ c ≠ '\x7d')
    (w : List Char) : IsEntry (c :: w) := by
  obtain ⟨hblank, harray, hobject⟩ := hc
  exact ⟨c, w, rfl, hblank, fun
    | .array => harray
    | .object => hobject⟩

/-- A text is taken in all its spellings. -/
theorem takes_text : text.Takes Form.text where
  isEntry := isEntry_quoted
  run_append := by
    rintro x b w ⟨v, hv, rfl⟩ hb r
    have htext : (Tail.text.map String.ofList).run (v ++ quoteMark :: r) = .ok (x, r) := by
      show (textFrom .kept (v ++ quoteMark :: r)).map _ = _
      rw [textFrom_letters hv, Except.map, String.ofList_toList]
    rw [List.cons_append, List.append_assoc]
    exact (byFirst_run hb (by decide) (if_pos rfl) _).trans htext

/-- Nothing is taken for a text but its spellings. -/
theorem takesOnly_text : text.TakesOnly Form.text := by
  intro s x r h
  obtain ⟨a, c, t, u, ha, hbranch, rfl, hrun⟩ := of_byFirst h
  split at hbranch
  · next hc =>
      cases hbranch
      obtain ⟨⟨y, v⟩, htext, hout⟩ := map_eq_ok.mp hrun
      obtain ⟨w, hw, rfl⟩ := textFrom_eq_ok_iff.mp htext
      cases hout
      have hform : Form.text (String.ofList y) (quoteMark :: (w ++ [quoteMark])) := by
        refine ⟨w, ?_, rfl⟩
        rwa [String.toList_ofList]
      exact ⟨a, _, ha, isEntry_quoted hform, hform, by simp [hc]⟩
  · cases hbranch

/-- Both truth values are taken by their words. -/
theorem takes_flag : flag.Takes Form.flag where
  isEntry := by
    rintro (_ | _) w rfl
    · exact isEntry_cons (by decide) "alse".toList
    · exact isEntry_cons (by decide) "rue".toList
  run_append := by
    rintro (_ | _) b w rfl hb r
    · exact (byFirst_run hb (by decide) rfl _).trans (Tail.reads_word "alse" false r)
    · exact (byFirst_run hb (by decide) rfl _).trans (Tail.reads_word "rue" true r)

/-- What is read behind the first character of a word is the rest of it. -/
theorem of_word {v : String} {y x : α} (h : (Tail.word v y).run s = .ok (x, r)) :
    x = y ∧ s = v.toList ++ r := by
  obtain ⟨t, hword, hout⟩ := map_eq_ok.mp h
  cases hout
  exact ⟨rfl, expectWord_eq_ok_iff.mp hword⟩

/-- Nothing is taken for a truth value but its word. -/
theorem takesOnly_flag : flag.TakesOnly Form.flag := by
  intro s x r h
  obtain ⟨a, c, t, u, ha, hbranch, rfl, hrun⟩ := of_byFirst h
  split at hbranch
  · next hc =>
      cases hbranch
      obtain ⟨rfl, rfl⟩ := of_word hrun
      exact ⟨a, _, ha, takes_flag.isEntry (x := true) rfl, rfl, by rw [hc]; rfl⟩
  · split at hbranch
    · next hc =>
        cases hbranch
        obtain ⟨rfl, rfl⟩ := of_word hrun
        exact ⟨a, _, ha, takes_flag.isEntry (x := false) rfl, rfl, by rw [hc]; rfl⟩
    · cases hbranch

/-- A value that does not begin like `null` is left to the reader itself. -/
theorem orNull_run {rd : Reader α} {c : Char} (ha : Blank a) (hblank : c.isWhitespace = false)
    (hc : c ≠ 'n') (s : List Char) :
    rd.orNull.run (a ++ c :: s) = (rd.map some).run (a ++ c :: s) := by
  simp only [orNull, gap_append ha, gap_cons hblank, if_neg hc]

/-- Where nothing may be given, `null` is taken for nothing. -/
theorem orNull_null {rd : Reader α} (ha : Blank a) (r : List Char) :
    rd.orNull.run (a ++ ("null".toList ++ r)) = .ok (none, r) := by
  show rd.orNull.run (a ++ 'n' :: ("ull".toList ++ r)) = _
  simp only [orNull, gap_append ha, gap_cons (show 'n'.isWhitespace = false by decide)]
  exact Tail.reads_word "ull" none r

/-- A text is taken where it may be missing, and `null` is taken for none. -/
theorem takes_optional : text.orNull.Takes Form.optional where
  isEntry := by
    rintro (_ | x) w hw
    · cases hw
      exact isEntry_cons (by decide) "ull".toList
    · exact takes_text.isEntry hw
  run_append := by
    rintro (_ | x) b w hw hb r
    · cases hw
      exact orNull_null hb r
    · have hrun := takes_text.run_append hw hb r
      obtain ⟨v, -, rfl⟩ := hw
      refine (orNull_run hb (by decide) (by decide) _).trans ?_
      exact map_eq_ok.mpr ⟨_, hrun, rfl⟩

/-- Nothing else is taken for a text that may be missing. -/
theorem takesOnly_optional : text.orNull.TakesOnly Form.optional := by
  intro s x r h
  obtain ⟨a, ha, hs⟩ := exists_gap s
  simp only [orNull] at h
  split at h
  · cases h
  · next c u hgap =>
      split at h
      · next hc =>
          obtain ⟨rfl, rfl⟩ := of_word h
          exact ⟨a, _, ha, takes_optional.isEntry (x := none) rfl, rfl, by rw [hs, hgap, hc]; rfl⟩
      · obtain ⟨⟨y, t⟩, hrun, hout⟩ := map_eq_ok.mp h
        cases hout
        exact takesOnly_text hrun

/-- A text is taken where the empty one may be `null`, and so is `null`. -/
theorem takes_textOrNull : textOrNull.Takes Form.textOrNull where
  isEntry := by
    rintro x w (hw | ⟨-, rfl⟩)
    · exact takes_text.isEntry hw
    · exact takes_optional.isEntry (x := none) rfl
  run_append := by
    rintro x b w (hw | ⟨rfl, rfl⟩) hb r
    · exact map_eq_ok.mpr ⟨_, takes_optional.run_append (x := some x) hw hb r, rfl⟩
    · exact map_eq_ok.mpr ⟨_, takes_optional.run_append (x := none) rfl hb r, rfl⟩

/-- Nothing else is taken for a text that may be `null`. -/
theorem takesOnly_textOrNull : textOrNull.TakesOnly Form.textOrNull := by
  intro s x r h
  obtain ⟨⟨y, t⟩, hrun, hout⟩ := map_eq_ok.mp h
  cases hout
  obtain ⟨b, w, hb, hentry, hw, htext⟩ := takesOnly_optional hrun
  cases y with
  | none => exact ⟨b, w, hb, hentry, .inr ⟨rfl, hw⟩, htext⟩
  | some y => exact ⟨b, w, hb, hentry, .inl hw, htext⟩

/-- The reader of an array that may not be opened takes nothing. -/
theorem takes_closedList : (closedList : Reader (List α)).Takes .closed where
  isEntry h := h.elim
  run_append h := h.elim

/-- Nothing is taken for a list that may not be opened. -/
theorem takesOnly_closedList : (closedList : Reader (List α)).TakesOnly .closed := by
  intro s x r h
  obtain ⟨a, c, t, u, -, hbranch, -, hrun⟩ := of_byFirst h
  split at hbranch
  · cases hbranch
    cases hrun
  · cases hbranch

end Reader

/-! ## Entries in a state -/

/-- What is read between two brackets, each entry in the state that the one before left. -/
def entriesLoop (b : Bracket) (entry : σ → Reader σ) : Loop b σ (σ × List Char) :=
  .ofPlaces b (Json.entries b.close entry) fun st r => .ok (st, r)

section Entries

variable {c : Bracket} {entry : σ → Reader σ} {st st' : σ} {Step : σ → List Char → σ → Prop}

/-- Entries are read by the loop over them. -/
theorem run_entries (st : σ) (s : List Char) :
    (Tail.entries c.close entry st).run s = (entriesLoop c entry).first st s := by
  show (firstPlace c.close s >>= _) = (firstPlace c.close s >>= _)
  cases firstPlace c.close s with
  | error f => rfl
  | ok place => cases place <;> rfl

/-- An entry that is read leads to the next place. -/
theorem entry_entriesLoop (h : (entry st).run s = .ok (st', r)) :
    (entriesLoop c entry).entry st s = (entriesLoop c entry).next st' r := by
  refine (Tail.entries_of_ok h).trans ?_
  show _ = (nextPlace c.close r >>= _)
  cases nextPlace c.close r with
  | error f => rfl
  | ok place => cases place <;> rfl

/-- What is read from an entry on is the entry and what is read at the next place. -/
theorem of_entry_entriesLoop {out : σ × List Char}
    (h : (entriesLoop c entry).entry st s = .ok out) :
    ∃ st' r, (entry st).run s = .ok (st', r) ∧ (entriesLoop c entry).next st' r = .ok out := by
  cases hrun : (entry st).run s with
  | error f =>
      have herror : (entriesLoop c entry).entry st s = .error f := Tail.entries_of_error hrun
      rw [herror] at h
      cases h
  | ok p => exact ⟨p.1, p.2, rfl, (entry_entriesLoop hrun).symm.trans h⟩

/-- The loop takes as its steps what the reader of an entry takes. -/
theorem follows_entriesLoop (hentry : ∀ {st v st'}, Step st v st' → IsEntry v)
    (hrun : ∀ {st v st' r}, Step st v st' → Break r → (entry st).run (v ++ r) = .ok (st', r)) :
    (entriesLoop c entry).Follows Step where
  isEntry := hentry
  entry_append hstep hr := entry_entriesLoop (hrun hstep hr)

/-- What the loop reads are entries if the reader of an entry reads nothing else. -/
theorem shows_entriesLoop
    (hrun : ∀ {st s st' r}, (entry st).run s = .ok (st', r) →
      ∃ a v, Blank a ∧ IsEntry v ∧ Step st v st' ∧ s = a ++ (v ++ r)) (n : Nat) :
    (entriesLoop c entry).Shows Step n := by
  intro st s out _ h
  obtain ⟨st', r, hentry, hnext⟩ := of_entry_entriesLoop h
  obtain ⟨a, v, ha, hv, hstep, hs⟩ := hrun hentry
  exact ⟨a, v, st', r, ha, hv, hstep, hs, hnext⟩

/-- What the entries of an array or object come to. -/
theorem run_entries_append (hL : (entriesLoop c entry).Follows Step) {vs : List (List Char)}
    (hw : Encloses c vs w) (hvs : Chain Step st vs st') (r : List Char) :
    (Tail.entries c.close entry st).run (w ++ r) = .ok (st', r) := by
  rw [run_entries]
  exact Loop.first_encloses hL hw hvs r

/-- What is read as entries are entries, one step for each, up to the bracket. -/
theorem of_run_entries (hL : ∀ n, (entriesLoop c entry).Shows Step n)
    (h : (Tail.entries c.close entry st).run s = .ok (st', r)) :
    ∃ vs w, Encloses c vs w ∧ Chain Step st vs st' ∧ s = w ++ r := by
  rw [run_entries] at h
  obtain ⟨vs, w, st'', t, hw, hvs, hs, hdone⟩ :=
    Loop.of_first_enclosed (hL (s.length + 1)) (Nat.lt_succ_self _) h
  cases hdone
  exact ⟨vs, w, hw, hvs, hs⟩

end Entries

/-! ## Values in brackets -/

section Lists

variable {item : Reader α} {F : Form α}

/-- A further value in front of those gathered before. -/
def Gathers (F : Form α) (acc : List α) (v : List Char) (acc' : List α) : Prop :=
  ∃ x, F x v ∧ acc' = x :: acc

/-- Gathering puts the values of a list in front of those gathered before, the last one first. -/
theorem chain_gathers_iff {acc acc' : List α} {vs : List (List Char)} :
    Chain (Gathers F) acc vs acc' ↔ ∃ xs, List.Forall₂ F xs vs ∧ acc' = xs.reverse ++ acc := by
  constructor
  · intro h
    induction h with
    | nil => exact ⟨[], .nil, rfl⟩
    | cons hstep _ ih =>
        obtain ⟨x, hx, rfl⟩ := hstep
        obtain ⟨xs, hxs, rfl⟩ := ih
        exact ⟨x :: xs, .cons hx hxs, by simp⟩
  · rintro ⟨xs, hxs, rfl⟩
    induction hxs generalizing acc with
    | nil => exact .nil
    | @cons x v xs vs hx _ ih =>
        refine .cons ⟨x, hx, rfl⟩ ?_
        rw [List.reverse_cons, List.append_assoc]
        exact ih

/-- The state of a list are its values, the last one in front. -/
def gather (item : Reader α) (acc : List α) : Reader (List α) := item.map fun a => a :: acc

/-- The loop of a list takes the values of its form. -/
theorem follows_gather (hitem : item.Takes F) :
    (entriesLoop .array (gather item)).Follows (Gathers F) := by
  refine follows_entriesLoop (fun ⟨x, hx, _⟩ => hitem.isEntry hx) ?_
  rintro acc v _ r ⟨x, hx, rfl⟩ -
  exact map_eq_ok.mpr ⟨_, hitem.run_append hx blank_nil r, rfl⟩

/-- The loop of a list takes nothing but values of its form. -/
theorem shows_gather (hitem : item.TakesOnly F) (n : Nat) :
    (entriesLoop .array (gather item)).Shows (Gathers F) n := by
  refine shows_entriesLoop (fun {acc s acc' r} h => ?_) n
  obtain ⟨⟨x, t⟩, hrun, hout⟩ := map_eq_ok.mp h
  cases hout
  obtain ⟨a, v, ha, hv, hx, hs⟩ := hitem hrun
  exact ⟨a, v, ha, hv, ⟨x, hx, rfl⟩, hs⟩

namespace Reader

/-- A list is taken if its values are. -/
theorem takes_list (hitem : item.Takes F) : item.list.Takes (.list F) where
  isEntry := by
    rintro xs _ ⟨vs, v, -, -, rfl⟩
    exact isEntry_cons (by decide) v
  run_append := by
    rintro xs b _ ⟨vs, v, hxs, hv, rfl⟩ hb r
    refine (byFirst_run hb (by decide) rfl _).trans (map_eq_ok.mpr ⟨(xs.reverse, r), ?_, ?_⟩)
    · exact run_entries_append (c := .array) (follows_gather hitem) hv
        (chain_gathers_iff.mpr ⟨xs, hxs, (List.append_nil _).symm⟩) r
    · rw [List.reverse_reverse]

/-- Nothing is taken for a list but values between brackets. -/
theorem takesOnly_list (hitem : item.TakesOnly F) : item.list.TakesOnly (.list F) := by
  intro s xs r h
  obtain ⟨a, c, t, u, ha, hbranch, rfl, hrun⟩ := of_byFirst h
  split at hbranch
  · next hc =>
      cases hbranch
      obtain ⟨⟨acc, t⟩, hentries, hout⟩ := map_eq_ok.mp hrun
      cases hout
      obtain ⟨vs, w, hw, hvs, rfl⟩ :=
        of_run_entries (c := .array) (shows_gather hitem) hentries
      obtain ⟨xs, hxs, rfl⟩ := chain_gathers_iff.mp hvs
      have hform : Form.list F (xs.reverse ++ []).reverse ('[' :: w) := by
        refine ⟨vs, w, ?_, hw, rfl⟩
        rwa [List.append_nil, List.reverse_reverse]
      exact ⟨a, _, ha, isEntry_cons (by decide) w, hform,
        by rw [hc]; rfl⟩
  · cases hbranch

/-! ## Values under keys -/

/-- Behind a key the reader is chosen by it, and a colon must come. -/
theorem keyed_run_key {choose : String → Except Fault (Reader α)} {key : String}
    {k : List Char} (ha : Blank a) (hk : Quoted .kept key.toList k) (s : List Char) :
    (keyed choose).run (a ++ (k ++ s)) =
      (choose key >>= fun rd => expectChar ':' s >>= fun r => rd.run r) := by
  obtain ⟨t, hexpect, htext⟩ := bind_eq_ok.mp (quoted_append ha hk s)
  show (expectChar quoteMark _ >>= fun r => _) = _
  rw [hexpect]
  show (textFrom .kept t >>= fun key => _) = _
  rw [htext]
  show (choose (String.ofList key.toList) >>= fun rd => _) = _
  rw [String.ofList_toList]

/-- A key decides which reader reads what stands behind its colon. -/
theorem keyed_run {choose : String → Except Fault (Reader α)} {key : String} {k a' : List Char}
    (ha : Blank a) (hk : Quoted .kept key.toList k) (ha' : Blank a') (s : List Char) :
    (keyed choose).run (a ++ (k ++ (a' ++ ':' :: s))) = (choose key >>= fun rd => rd.run s) := by
  rw [keyed_run_key ha hk, expectChar_append ha', expectChar_cons (by decide)]
  rfl

/-- What is read under a key is a key, a colon and what the reader of the key reads. -/
theorem of_keyed {choose : String → Except Fault (Reader α)} {x : α}
    (h : (keyed choose).run s = .ok (x, r)) :
    ∃ a key k a' rd t, Blank a ∧ Quoted .kept key.toList k ∧ Blank a' ∧ choose key = .ok rd ∧
      s = a ++ (k ++ (a' ++ ':' :: t)) ∧ rd.run t = .ok (x, r) := by
  obtain ⟨u, hexpect, hafter⟩ := bind_eq_ok.mp h
  obtain ⟨⟨key, v⟩, htext, hvalue⟩ := bind_eq_ok.mp hafter
  obtain ⟨rd, hchoose, hlast⟩ := bind_eq_ok.mp hvalue
  obtain ⟨t, hcolon, hrun⟩ := bind_eq_ok.mp hlast
  obtain ⟨a, k, ha, hk, rfl⟩ := of_quoted (bind_eq_ok.mpr ⟨u, hexpect, htext⟩)
  obtain ⟨a', ha', hv⟩ := (expectChar_eq_ok_iff (by decide)).mp hcolon
  refine ⟨a, String.ofList key, k, a', rd, t, ha, ?_, ha', hchoose, by rw [← hv], hrun⟩
  rwa [String.toList_ofList]

end Reader

/-- A further value under a name. -/
def Names (F : Form α) (t : Table α) (m : List Char) (t' : Table α) : Prop :=
  ∃ e : String × α, (∃ u, Keyed .kept e.1.toList u m ∧ F e.2 u) ∧ t' = t.insert e.1 e.2

/-- Naming inserts the values of an object into a table in their order. -/
theorem chain_names_iff {t t' : Table α} {ms : List (List Char)} :
    Chain (Names F) t ms t' ↔
      ∃ es : List (String × α),
        List.Forall₂ (fun e m => ∃ u, Keyed .kept e.1.toList u m ∧ F e.2 u) es ms ∧
          t' = es.foldl (fun t e => t.insert e.1 e.2) t := by
  constructor
  · intro h
    induction h with
    | nil => exact ⟨[], .nil, rfl⟩
    | cons hstep _ ih =>
        obtain ⟨e, he, rfl⟩ := hstep
        obtain ⟨es, hes, rfl⟩ := ih
        exact ⟨e :: es, .cons he hes, rfl⟩
  · rintro ⟨es, hes, rfl⟩
    induction hes generalizing t with
    | nil => exact .nil
    | @cons e m es ms he _ ih => exact .cons ⟨e, he, rfl⟩ ih

/-- The state of a table is the table of the values so far. -/
def nameIn (item : Reader α) (t : Table α) : Reader (Table α) :=
  .keyed fun name => .ok (item.map (t.insert name))

/-- The loop of a table takes the values of its form under their names. -/
theorem follows_nameIn (hitem : item.Takes F) :
    (entriesLoop .object (nameIn item)).Follows (Names F) := by
  refine follows_entriesLoop (fun ⟨_, ⟨_, hm, _⟩, _⟩ => isEntry_keyed hm) ?_
  rintro t _ _ r ⟨⟨name, x⟩, ⟨u, ⟨k, a, b, hk, ha, hb, rfl⟩, hu⟩, rfl⟩ -
  simp only [List.append_assoc, List.cons_append]
  refine (Reader.keyed_run blank_nil hk ha (b ++ (u ++ r))).trans ?_
  exact map_eq_ok.mpr ⟨_, hitem.run_append hu hb r, rfl⟩

/-- The loop of a table takes nothing but values of its form under names. -/
theorem shows_nameIn (hitem : item.TakesOnly F) (n : Nat) :
    (entriesLoop .object (nameIn item)).Shows (Names F) n := by
  refine shows_entriesLoop (fun {t s t' r} h => ?_) n
  obtain ⟨a, name, k, a', rd, v, ha, hk, ha', hchoose, rfl, hrun⟩ := Reader.of_keyed h
  cases hchoose
  obtain ⟨⟨x, u⟩, hvalue, hout⟩ := map_eq_ok.mp hrun
  cases hout
  obtain ⟨b, u, hb, -, hu, rfl⟩ := hitem hvalue
  have hkeyed : Keyed .kept name.toList u (k ++ (a' ++ ':' :: (b ++ u))) :=
    ⟨k, a', b, hk, ha', hb, rfl⟩
  exact ⟨a, _, ha, isEntry_keyed hkeyed, ⟨(name, x), ⟨u, hkeyed, hu⟩, rfl⟩, by simp⟩

namespace Reader

/-- A table is taken if its values are. -/
theorem takes_table (hitem : item.Takes F) : item.table.Takes (.table F) where
  isEntry := by
    rintro t _ ⟨es, ms, v, -, -, rfl, -⟩
    exact isEntry_cons (by decide) v
  run_append := by
    rintro _ b _ ⟨es, ms, v, hes, hv, rfl, rfl⟩ hb r
    refine (byFirst_run hb (by decide) rfl _).trans ?_
    exact run_entries_append (c := .object) (follows_nameIn hitem) hv
      (chain_names_iff.mpr ⟨es, hes, rfl⟩) r

/-- Nothing is taken for a table but values under names. -/
theorem takesOnly_table (hitem : item.TakesOnly F) : item.table.TakesOnly (.table F) := by
  intro s x r h
  obtain ⟨a, c, t, u, ha, hbranch, rfl, hrun⟩ := of_byFirst h
  split at hbranch
  · next hc =>
      cases hbranch
      obtain ⟨ms, w, hw, hms, rfl⟩ :=
        of_run_entries (c := .object) (shows_nameIn hitem) hrun
      obtain ⟨es, hes, htable⟩ := chain_names_iff.mp hms
      exact ⟨a, _, ha, isEntry_cons (by decide) w,
        ⟨es, ms, w, hes, hw, rfl, htable⟩, by rw [hc]; rfl⟩
  · cases hbranch

end Reader

end Lists

end QueryFilter.Json
