import QueryFilter.Catalog.Load
import QueryFilter.Proofs.Acceptance

/-!
# Torn and padded texts

What is accepted ends with a bracket, and behind it only blanks may stand.  So a text that
goes on is malformed, and one that breaks off before its last bracket is not accepted,
because then the whole of it would be a text that goes on.

Why a text that breaks off is not accepted is another question.  A number that is skipped
is malformed where it breaks off.  Where all keys are declared nothing is skipped, and
then every text that breaks off is cut off: no reader ends early because a part may be
left out, and none finds another fault, since all it has read belongs to a presentation.

* `textFrom_torn` — a text breaks off within an escape, or a pair of them;
* `Reader.Awaits` — the law that a reader finds the texts that break off cut off;
* `Reader.awaits_list`, `Reader.awaits_table`, `Reader.awaits_record` — how it is passed
  on;
* `load_torn_or_padded` — catalogs are loaded whole.
-/

namespace QueryFilter.Json

variable {α β : Type} {p w r s : List Char}

/-! ## Words and texts that break off -/

/-- A single character breaks off before it. -/
theorem torn_singleton {c : Char} (h : Torn p [c]) : p = [] := by
  rcases torn_cons_iff.mp h with rfl | ⟨q, -, hq⟩
  · rfl
  · exact absurd hq not_torn_nil

/-- Before the first character every text breaks off. -/
theorem torn_nil (hw : w ≠ []) : Torn [] w := by
  obtain ⟨c, r, rfl⟩ := List.exists_cons_of_ne_nil hw
  exact ⟨c, r, rfl⟩

/-- An expected word is cut off wherever it breaks off. -/
theorem expectWord_torn (h : Torn p w) : expectWord w p = .error .cutOff := by
  induction w generalizing p with
  | nil => exact absurd h not_torn_nil
  | cons c w ih =>
      rcases torn_cons_iff.mp h with rfl | ⟨q, rfl, hq⟩
      · rfl
      · rw [expectWord, if_pos rfl, ih hq]

/-- A hexadecimal digit is one byte. -/
theorem utf8Size_of_hexValue? {c : Char} {n : Nat} (h : hexValue? c = some n) :
    c.utf8Size = 1 := by
  have hle : ∀ {d : Char}, c ≤ d → d.toNat ≤ 127 → c.utf8Size = 1 := by
    intro d hc hd
    rw [Char.utf8Size_eq_one_iff]
    exact UInt32.le_iff_toNat_le.mpr (Nat.le_trans (UInt32.le_iff_toNat_le.mp hc) hd)
  unfold hexValue? at h
  split at h
  · next hc => exact hle hc.2 (by decide)
  split at h
  · next hc => exact hle hc.2 (by decide)
  split at h
  · next hc => exact hle hc.2 (by decide)
  · cases h

/-- Four digits that break off are less than four bytes. -/
theorem hexFour_torn {a b c d : Char} {n : Nat} (h : hexNumber? a b c d = some n)
    (hp : Torn p [a, b, c, d]) : hexFour p = .error .cutOff := by
  obtain ⟨x, ha, h⟩ := Option.bind_eq_some_iff.mp h
  obtain ⟨y, hb, h⟩ := Option.bind_eq_some_iff.mp h
  obtain ⟨z, hc, -⟩ := Option.bind_eq_some_iff.mp h
  rcases torn_cons_iff.mp hp with rfl | ⟨q, rfl, hbcd⟩
  · rfl
  rcases torn_cons_iff.mp hbcd with rfl | ⟨q, rfl, hcd⟩
  · simp [hexFour, utf8Size_of_hexValue? ha]
  rcases torn_cons_iff.mp hcd with rfl | ⟨q, rfl, hd⟩
  · simp [hexFour, utf8Size_of_hexValue? ha, utf8Size_of_hexValue? hb]
  obtain rfl := torn_singleton hd
  simp [hexFour, utf8Size_of_hexValue? ha, utf8Size_of_hexValue? hb, utf8Size_of_hexValue? hc]

/-- A pair of escapes that breaks off does so in the first, between them or in the second. -/
theorem unicode_pair_torn {a b c d a' b' c' d' : Char} {n m : Nat}
    (hn : hexNumber? a b c d = some n) (hhigh : isHigh n = true)
    (hm : hexNumber? a' b' c' d' = some m)
    (hp : Torn p ([a, b, c, d] ++ ([escapeMark, 'u'] ++ [a', b', c', d']))) :
    unicode .kept p = .error .cutOff := by
  rcases torn_append_iff.mp hp with hp | ⟨q, rfl, hq⟩
  · rw [unicode, hexFour_torn hn hp]
    rfl
  have hfirst : unicode .kept ([a, b, c, d] ++ q) =
      (expectWord [escapeMark, 'u'] q >>= fun r => hexFour r >>= fun y =>
        if isLow y.1 then
          .ok (Char.ofNat (0x10000 + (n - 0xd800) * 0x400 + (y.1 - 0xdc00)), y.2)
        else .error .malformed) := by
    show (hexFour (a :: b :: c :: d :: q) >>= _) = _
    rw [hexFour_append hn]
    simp only [bind, Except.bind, isLow_of_isHigh hhigh, hhigh]
    rfl
  rw [hfirst]
  rcases torn_append_iff.mp hq with hq | ⟨t, rfl, ht⟩
  · rw [expectWord_torn hq]
    rfl
  · rw [expectWord_append, bind, Monad.toBind]
    show (hexFour t >>= _) = _
    rw [hexFour_torn hm ht]
    rfl

/-- The fault of an escape is that of the text. -/
theorem textFrom_escapeMark_error {use : Use} {f : Fault} (h : escaped use s = .error f) :
    textFrom use (escapeMark :: s) = .error f := by
  rw [textFrom, if_neg (by decide), if_pos rfl]
  split
  · next g hg =>
      rw [h] at hg
      cases hg
      rfl
  · next hok =>
      rw [h] at hok
      cases hok

/-- A text breaks off within the spelling of a character. -/
theorem textFrom_glyph_torn {c : Char} {g : List Char} (h : Glyph .kept c g) (hp : Torn p g) :
    textFrom .kept p = .error .cutOff := by
  have hnil : textFrom .kept [] = .error .cutOff := by rw [textFrom]
  cases h with
  | plain =>
      obtain rfl := torn_singleton hp
      exact hnil
  | short =>
      rcases torn_cons_iff.mp hp with rfl | ⟨q, rfl, hq⟩
      · exact hnil
      · obtain rfl := torn_singleton hq
        exact textFrom_escapeMark_error rfl
  | code hn =>
      rcases torn_cons_iff.mp hp with rfl | ⟨q, rfl, hq⟩
      · exact hnil
      refine textFrom_escapeMark_error ?_
      rcases torn_cons_iff.mp hq with rfl | ⟨t, rfl, ht⟩
      · rfl
      · rw [escaped_u, unicode, hexFour_torn hn ht]
        rfl
  | pair hn hhigh hm =>
      rcases torn_cons_iff.mp hp with rfl | ⟨q, rfl, hq⟩
      · exact hnil
      refine textFrom_escapeMark_error ?_
      rcases torn_cons_iff.mp hq with rfl | ⟨t, rfl, ht⟩
      · rfl
      · rw [escaped_u]
        exact unicode_pair_torn hn hhigh hm ht

/-- **A text that breaks off is cut off,** wherever it does. -/
theorem textFrom_torn {x : List Char} (h : Letters .kept x w) (hp : Torn p (w ++ [quoteMark])) :
    textFrom .kept p = .error .cutOff := by
  induction h generalizing p with
  | nil =>
      obtain rfl := torn_singleton hp
      rw [textFrom]
  | @cons c x g w hc _ ih =>
      rw [List.append_assoc] at hp
      rcases torn_append_iff.mp hp with hp | ⟨q, rfl, hq⟩
      · exact textFrom_glyph_torn hc hp
      · rw [textFrom_glyph hc, ih hq]
        rfl

/-- A quoted text is cut off before its first quote and behind it. -/
theorem quoted_torn {x : List Char} (hw : Quoted .kept x w) (hp : Torn p w) :
    (expectChar quoteMark p >>= textFrom .kept) = .error .cutOff := by
  obtain ⟨v, hv, rfl⟩ := hw
  rcases torn_cons_iff.mp hp with rfl | ⟨q, rfl, hq⟩
  · rfl
  · rw [expectChar_cons (by decide)]
    exact textFrom_torn hv hq

/-! ## Readers and texts that break off -/

namespace Reader

/-- Whether a reader that takes the texts of a form finds them cut off wherever they break
off. -/
structure Awaits (rd : Reader α) (F : Form α) : Prop extends rd.Takes F where
  run_torn : ∀ {x b p w}, F x w → Torn p w → Blank b → rd.run (b ++ p) = .error .cutOff

section ByFirst

variable {wanted : String} {branch : Char → Option (Tail α)} {b : List Char}

/-- Where there is nothing but blanks, a value is cut off. -/
theorem byFirst_blank (hb : Blank b) : (byFirst wanted branch).run b = .error .cutOff := by
  simp only [byFirst, gap_eq_nil_iff.mpr hb]

/-- A value whose first character tells breaks off before it, or behind it. -/
theorem byFirst_torn {c : Char} {t : Tail α} {v : List Char} (hb : Blank b)
    (hc : c.isWhitespace = false) (hbranch : branch c = some t)
    (ht : ∀ {q}, Torn q v → t.run q = .error .cutOff) (hp : Torn p (c :: v)) :
    (byFirst wanted branch).run (b ++ p) = .error .cutOff := by
  rcases torn_cons_iff.mp hp with rfl | ⟨q, rfl, hq⟩
  · rw [List.append_nil]
    exact byFirst_blank hb
  · rw [byFirst_run hb hc hbranch]
    exact ht hq

end ByFirst

/-- A word that breaks off is cut off. -/
theorem word_torn {v : String} {x : α} (hp : Torn p v.toList) :
    (Tail.word v x).run p = .error .cutOff := by
  show (expectWord v.toList p).map _ = _
  rw [expectWord_torn hp]
  rfl

/-- A text is cut off wherever it breaks off. -/
theorem awaits_text : text.Awaits Form.text where
  toTakes := takes_text
  run_torn := by
    rintro x b p _ ⟨v, hv, rfl⟩ hp hb
    refine byFirst_torn hb (by decide) (if_pos rfl) (fun {q} hq => ?_) hp
    show (textFrom .kept q).map _ = _
    rw [textFrom_torn hv hq]
    rfl

/-- A truth value is cut off wherever its word breaks off. -/
theorem awaits_flag : flag.Awaits Form.flag where
  toTakes := takes_flag
  run_torn := by
    rintro (_ | _) b p _ rfl hp hb
    · have hp : Torn p ('f' :: "alse".toList) := hp
      exact byFirst_torn hb (by decide) rfl word_torn hp
    · have hp : Torn p ('t' :: "rue".toList) := hp
      exact byFirst_torn hb (by decide) rfl word_torn hp

/-- Where there is nothing but blanks, a value that may be `null` is cut off. -/
theorem orNull_blank {rd : Reader α} {b : List Char} (hb : Blank b) :
    rd.orNull.run b = .error .cutOff := by
  simp only [orNull, gap_eq_nil_iff.mpr hb]

/-- A text that may be missing is cut off wherever it breaks off, and `null` is for it. -/
theorem awaits_optional : text.orNull.Awaits Form.optional where
  toTakes := takes_optional
  run_torn := by
    rintro (_ | x) b p w hw hp hb
    · cases hw
      rcases torn_cons_iff.mp (hp : Torn p ('n' :: "ull".toList)) with rfl | ⟨q, rfl, hq⟩
      · rw [List.append_nil]
        exact orNull_blank hb
      · simp only [orNull, gap_append hb]
        exact word_torn hq
    · have hrun := awaits_text.run_torn hw hp hb
      obtain ⟨v, -, rfl⟩ := hw
      rcases torn_cons_iff.mp hp with rfl | ⟨q, rfl, hq⟩
      · rw [List.append_nil]
        exact orNull_blank hb
      · rw [orNull_run hb (by decide) (by decide)]
        exact run_map_error hrun some

/-- The same holds where `null` stands for the empty text. -/
theorem awaits_textOrNull : textOrNull.Awaits Form.textOrNull where
  toTakes := takes_textOrNull
  run_torn := by
    rintro x b p w (hw | ⟨-, rfl⟩) hp hb
    · exact run_map_error (awaits_optional.run_torn (x := some x) hw hp hb) _
    · exact run_map_error (awaits_optional.run_torn (x := none) rfl hp hb) _

/-- A list that may not be opened has no texts that could break off. -/
theorem awaits_closedList : (closedList : Reader (List α)).Awaits .closed where
  toTakes := takes_closedList
  run_torn h := h.elim

end Reader

/-! ## Entries that break off -/

section Entries

variable {σ : Type} {c : Bracket} {entry : σ → Reader σ} {Step : σ → List Char → σ → Prop}
  {st st' : σ} {vs : List (List Char)}

/-- The loop over entries finds them cut off if the reader of an entry does. -/
theorem waits_entriesLoop (hL : (entriesLoop c entry).Follows Step)
    (htorn : ∀ {st v st' p}, Step st v st' → Torn p v → (entry st).run p = .error .cutOff) :
    (entriesLoop c entry).Waits Step where
  toFollows := hL
  comma_end _ ha ha' := Loop.comma_end_of_places ha ha'
  entry_torn hstep hp _ := Tail.entries_of_error (htorn hstep hp)

/-- Entries are cut off wherever they break off. -/
theorem run_entries_torn (hL : (entriesLoop c entry).Waits Step) (hw : Encloses c vs w)
    (hvs : Chain Step st vs st') (hp : Torn p w) :
    (Tail.entries c.close entry st).run p = .error .cutOff := by
  rw [run_entries]
  exact Loop.first_torn hL hw hvs hp

namespace Reader

variable {item : Reader α} {F : Form α}

/-- A list is cut off wherever it breaks off, if its values are. -/
theorem awaits_list (hitem : item.Awaits F) : item.list.Awaits (.list F) where
  toTakes := takes_list hitem.toTakes
  run_torn := by
    rintro xs b p _ ⟨vs, v, hxs, hv, rfl⟩ hp hb
    refine byFirst_torn hb (by decide) rfl (fun {q} hq => ?_) hp
    have hloop : (entriesLoop .array (gather item)).Waits (Gathers F) :=
      waits_entriesLoop (follows_gather hitem.toTakes) fun ⟨_, hx, _⟩ hp =>
        run_map_error (hitem.run_torn hx hp blank_nil) _
    show ((Tail.entries ']' (gather item) []).run q).map _ = _
    exact congrArg (Except.map _) (run_entries_torn (c := .array) hloop hv
      (chain_gathers_iff.mpr ⟨xs, hxs, rfl⟩) hq)

/-- A value under its key breaks off in the key, before the colon, or behind it. -/
theorem keyed_torn {choose : String → Except Fault (Reader α)} {key : String} {rd : Reader α}
    {u m : List Char} (hm : Keyed .kept key.toList u m) (hchoose : choose key = .ok rd)
    (hu : u ≠ []) (hrd : ∀ {b q}, Blank b → Torn q u → rd.run (b ++ q) = .error .cutOff)
    (hp : Torn p m) : (keyed choose).run p = .error .cutOff := by
  obtain ⟨k, a, b, hk, ha, hb, rfl⟩ := hm
  rcases torn_append_iff.mp hp with hp | ⟨q, rfl, hq⟩
  · have hcut := quoted_torn hk hp
    show (expectChar quoteMark p >>= fun r => _) = _
    cases hexpect : expectChar quoteMark p with
    | error f =>
        rw [hexpect] at hcut
        obtain rfl : f = .cutOff := Except.error.inj hcut
        rfl
    | ok t =>
        rw [hexpect] at hcut
        show (textFrom .kept t >>= fun key => _) = _
        rw [show textFrom .kept t = .error .cutOff from hcut]
        rfl
  refine (keyed_run_key blank_nil hk q).trans ?_
  rw [hchoose]
  show (expectChar ':' q >>= fun r => rd.run r) = _
  rcases torn_append_iff.mp hq with hblank | ⟨t, rfl, hcolon⟩
  · rw [expectChar, gap_eq_nil_iff.mpr (ha.torn hblank)]
    rfl
  rcases torn_cons_iff.mp hcolon with rfl | ⟨t, rfl, hvalue⟩
  · rw [List.append_nil, expectChar, gap_eq_nil_iff.mpr ha]
    rfl
  rw [expectChar_append ha, expectChar_cons (by decide)]
  show rd.run t = _
  rcases torn_append_iff.mp hvalue with hblank | ⟨v, rfl, hv⟩
  · have hnone := hrd (hb.torn hblank) (torn_nil hu)
    rwa [List.append_nil] at hnone
  · exact hrd hb hv

/-- A table is cut off wherever it breaks off, if its values are. -/
theorem awaits_table (hitem : item.Awaits F) : item.table.Awaits (.table F) where
  toTakes := takes_table hitem.toTakes
  run_torn := by
    rintro _ b p _ ⟨es, ms, v, hes, hv, rfl, rfl⟩ hp hb
    refine byFirst_torn hb (by decide) rfl (fun {q} hq => ?_) hp
    have hloop : (entriesLoop .object (nameIn item)).Waits (Names F) := by
      refine waits_entriesLoop (follows_nameIn hitem.toTakes) ?_
      rintro t m _ p ⟨e, ⟨u, hm, hu⟩, rfl⟩ hp
      exact keyed_torn hm rfl (hitem.isEntry hu).ne_nil
        (fun hb hq => run_map_error (hitem.run_torn hu hq hb) _) hp
    exact run_entries_torn (c := .object) hloop hv (chain_names_iff.mpr ⟨es, hes, rfl⟩) hq

end Reader

end Entries

/-! ## Records that break off -/

section Records

variable {L : Layout α} {slots : List (Slot α)} {title : String}

/-- The law for a part whose reader finds it cut off where it breaks off. -/
def Part.Awaited (part : Part α) (rd : Reader part.β) : Prop := rd.Awaits part.form

/-- A reader that finds a part cut off takes its form. -/
theorem Layout.ReadBy.taken (hL : L.ReadBy Part.Awaited slots) : L.ReadBy Part.Taken slots :=
  hL.imp fun _ _ h => h.toTakes

/-- No value at all is a value. -/
theorem NoValue.isValue {u : List Char} (h : NoValue u) : IsValue u := h.elim

/-- A member of an object is cut off in its key, in its value or between them. -/
theorem waits_member (hL : L.ReadBy Part.Awaited slots) :
    (entriesLoop .object (Filling.member slots)).Waits (L.FillStep NoValue) := by
  refine waits_entriesLoop (follows_member hL.taken NoValue.isValue) ?_
  rintro f m f' p ⟨part?, hfills⟩ hp
  cases hfills with
  | @part part x u _ hpart hnew hm hu =>
      obtain ⟨key, hkey, hkeyed⟩ := hm
      obtain ⟨slot, hfind, rd, hrd, rfl⟩ := hL.choose_part hpart hkey
      refine Reader.keyed_torn hkeyed (by rw [Filling.choose, hfind]; exact if_neg hnew)
        (hrd.isEntry hu).ne_nil (fun hb hq => ?_) hp
      exact Reader.run_map_error (Reader.run_map_error (hrd.run_torn hu hq hb) _) _
  | other _ _ hu => exact hu.elim

/-- A value in the array form of a record is cut off wherever it breaks off. -/
theorem waits_places (hL : L.ReadBy Part.Awaited slots) :
    (placesLoop title slots).Waits L.PlaceStep where
  toFollows := follows_places hL.taken
  comma_end := by
    rintro ⟨n, x⟩ v st' a a' ⟨part, hpart, -⟩ ha ha'
    obtain ⟨slot, hslot, -⟩ := hL.getElem? hpart
    rw [next_placesLoop hslot]
    exact Loop.comma_end_of_places (b := .array) ha ha'
  entry_torn := by
    rintro ⟨n, x⟩ v st' p ⟨part, hpart, b, hv, rfl⟩ hp -
    obtain ⟨slot, hslot, rd, hrd, rfl⟩ := hL.getElem? hpart
    have hread : (rd.map part.store).run p = .error .cutOff :=
      Reader.run_map_error (hrd.run_torn hv hp blank_nil) _
    show placeEntry title slots (n, x) p = _
    rw [placeEntry, hslot]
    dsimp only
    rw [hread]
    rfl

/-- **A record that breaks off is cut off,** where only declared keys are used. -/
theorem Reader.awaits_record (hL : L.ReadBy Part.Awaited slots) (hparts : L.parts ≠ []) :
    (record title slots L.blank).Awaits (L.form NoValue) where
  toTakes := takes_record hL.taken hparts NoValue.isValue
  run_torn := by
    rintro x b p _ (⟨given, ms, v, hmembers, honce, -, hv, rfl⟩ | ⟨vs, v, hshows, -, hv, rfl⟩) hp hb
    · obtain ⟨f, hchain, -⟩ := Layout.exists_chain_fills hmembers honce
        (f := ⟨[], L.blank⟩) fun _ _ => List.not_mem_nil
      refine byFirst_torn hb (by decide) rfl (fun {q} hq => ?_) hp
      show (Tail.entries '\x7d' (Filling.member slots) ⟨[], L.blank⟩).run q >>= _ = _
      exact congrArg (· >>= _) (run_entries_torn (c := .object) (waits_member hL) hv hchain hq)
    · obtain ⟨y, hchain⟩ := Layout.exists_chain_places (n := 0) (x := L.blank) hshows
      refine byFirst_torn hb (by decide) rfl (fun {q} hq => ?_) hp
      show (Tail.positional title slots L.blank).run q = _
      rw [run_positional (hL.slots_ne_nil hparts)]
      exact Loop.first_torn (waits_places hL) hv hchain hq

/-- A record that may not be opened has no texts that could break off. -/
theorem Reader.awaits_closedRecord : (closedRecord title : Reader α).Awaits .closed where
  toTakes := takes_closedRecord
  run_torn h := h.elim

end Records

/-! ## Whole texts -/

namespace Reader

variable {rd : Reader α} {F F' : Form α} {x : α}

/-- Behind an accepted text only blanks may stand. -/
theorem readAll_append (htakes : rd.Takes F) (honly : rd.TakesOnly F) (h : rd.readAll r = .ok x)
    (s : List Char) :
    (Blank s → rd.readAll (r ++ s) = .ok x) ∧
      (¬Blank s → rd.readAll (r ++ s) = .error .malformed) := by
  obtain ⟨b, w, b', hb, hw, hb', rfl⟩ := (readAll_eq_ok_iff htakes honly).mp h
  have hrun : rd.readAll (b ++ (w ++ b') ++ s) =
      if gap (b' ++ s) = [] then .ok x else .error .malformed := by
    rw [readAll, List.append_assoc, List.append_assoc, htakes.run_append hw hb]
    rfl
  rw [hrun, gap_append hb']
  exact ⟨fun hs => if_pos (gap_eq_nil_iff.mpr hs), fun hs => if_neg (mt gap_eq_nil_iff.mp hs)⟩

/-- A text that goes on with more than blanks to an accepted one is not accepted. -/
theorem exists_fault_of_append (htakes : rd.Takes F) (honly : rd.TakesOnly F)
    (h : rd.readAll (p ++ s) = .ok x) (hs : ¬Blank s) : ∃ f, rd.readAll p = .error f := by
  cases hp : rd.readAll p with
  | error f => exact ⟨f, rfl⟩
  | ok y =>
      have hmalformed := (readAll_append htakes honly hp s).2 hs
      rw [h] at hmalformed
      cases hmalformed

/-- A text that breaks off before the end of its value is cut off. -/
theorem readAll_torn (hrd : rd.Awaits F) (h : Presents F x (p ++ s)) (hs : ¬Blank s) :
    rd.readAll p = .error .cutOff := by
  obtain ⟨b, w, b', hb, hw, hb', htext⟩ := h
  have htorn : Torn p (b ++ w) := by
    rw [← List.append_assoc] at htext
    rcases List.append_eq_append_iff.mp htext with ⟨c, hp, hsplit⟩ | ⟨c, -, hblank⟩
    · cases c with
      | nil =>
          rw [hsplit, List.nil_append] at hs
          exact absurd hb' hs
      | cons d c => exact ⟨d, c, hp⟩
    · have hs' : Blank s := fun d hd => hb' d (by rw [hblank]; exact List.mem_append_right c hd)
      exact absurd hs' hs
  have hrun : rd.run p = .error .cutOff := by
    rcases torn_append_iff.mp htorn with hp | ⟨q, rfl, hq⟩
    · have hnone := hrd.run_torn hw (torn_nil (hrd.isEntry hw).ne_nil) (hb.torn hp)
      rwa [List.append_nil] at hnone
    · exact hrd.run_torn hw hq hb
  rw [readAll, hrun]
  rfl

end Reader

end QueryFilter.Json

namespace QueryFilter

open Json (Blank Bracket Fault IsValue NoValue Presents)

/-! ## Forms with declared keys only -/

/-- A rule is cut off wherever it breaks off. -/
theorem Rule.awaits_form (room : Nat) : (Rule.read room).Awaits (Rule.form NoValue room) := by
  cases room with
  | zero => exact Json.Reader.awaits_closedRecord
  | succ room =>
      exact Json.Reader.awaits_record
        (readBy Json.Reader.Awaits Json.Reader.awaits_textOrNull) (List.cons_ne_nil _ _)

/-- A group is cut off wherever it breaks off, at any depth. -/
theorem Group.awaits_form : ∀ room, (Group.read room).Awaits (Group.form NoValue room)
  | 0 => Json.Reader.awaits_closedRecord
  | 1 =>
      Json.Reader.awaits_record
        (readBy Json.Reader.Awaits Json.Reader.awaits_textOrNull Json.Reader.awaits_closedList
          Json.Reader.awaits_closedList)
        (List.cons_ne_nil _ _)
  | room + 2 =>
      Json.Reader.awaits_record
        (readBy Json.Reader.Awaits Json.Reader.awaits_textOrNull
          (Json.Reader.awaits_list (Rule.awaits_form room))
          (Json.Reader.awaits_list (awaits_form room)))
        (List.cons_ne_nil _ _)

/-- A field is cut off wherever it breaks off. -/
theorem Field.awaits_form : Field.read.Awaits (Field.layout.form NoValue) :=
  Json.Reader.awaits_record
    (readBy Json.Reader.Awaits Json.Reader.awaits_text Json.Reader.awaits_flag
      Json.Reader.awaits_optional)
    (List.cons_ne_nil _ _)

/-- An entity is cut off wherever it breaks off, its fields included. -/
theorem Entity.awaits_form : Entity.read.Awaits ((Entity.layout NoValue).form NoValue) :=
  Json.Reader.awaits_record
    (readBy Json.Reader.Awaits Json.Reader.awaits_optional
      (Json.Reader.awaits_list Field.awaits_form))
    (List.cons_ne_nil _ _)

/-- A catalog is cut off wherever it breaks off, its entities included. -/
theorem Catalog.awaits_form : Catalog.read.Awaits (Catalog.form NoValue) :=
  Json.Reader.awaits_record
    (readBy Json.Reader.Awaits (Json.Reader.awaits_table Entity.awaits_form))
    (List.cons_ne_nil _ _)

/-! ## Loading a text -/

/-- A text as what stands at a path. -/
def Catalog.Content.text (t : List Char) : Content := .bytes (String.ofList t).toUTF8

/-- The bytes of a text are read back as the text. -/
theorem fromUTF8?_toUTF8 (s : String) : String.fromUTF8? s.toUTF8 = some s := by
  rw [String.fromUTF8?]
  exact dif_pos s.isValidUTF8

/-- What is loaded from a text is what the text presents, its faults named with the path. -/
theorem Catalog.load_text (path : String) (t : List Char) :
    load path (.text t) = (ofJson t).mapError (.invalid path) := by
  rw [load, Content.text, Content.read, fromUTF8?_toUTF8]
  show (ofJson (String.ofList t).toList).mapError _ = _
  rw [String.toList_ofList]

/-! ## Torn and padded texts -/

/-- Whether what `read` accepts is accepted whole.  Behind it only blanks may stand, and
what breaks off before its last bracket is a fault: that it is cut off, if `F` presents
it. -/
def TakesWhole {α ε : Type} (read : List Char → Except ε α) (fault : Fault → ε)
    (F : Json.Form α) : Prop :=
  ∀ t x, read t = .ok x →
    (∀ s, Blank s → read (t ++ s) = .ok x) ∧
    (∀ s, ¬Blank s → read (t ++ s) = .error (fault .malformed)) ∧
    ∀ p s, t = p ++ s → (∃ b : Bracket, b.close ∈ s) →
      (∃ f, read p = .error (fault f)) ∧ (Presents F x t → read p = .error (fault .cutOff))

/-- A reader that takes one form only, and finds another cut off, accepts whole texts only. -/
theorem takesWhole_readAll {α : Type} {rd : Json.Reader α} {F F' : Json.Form α}
    (htakes : rd.Takes F) (honly : rd.TakesOnly F) (hawaits : rd.Awaits F') :
    TakesWhole rd.readAll id F' := by
  intro t x h
  refine ⟨fun s => (Json.Reader.readAll_append htakes honly h s).1,
    fun s => (Json.Reader.readAll_append htakes honly h s).2, ?_⟩
  rintro p s rfl ⟨b, hb⟩
  have hs : ¬Blank s := fun hblank => by
    have hclose := hblank _ hb
    rw [Json.isWhitespace_close] at hclose
    cases hclose
  exact ⟨Json.Reader.exists_fault_of_append htakes honly h hs,
    fun hpresents => Json.Reader.readAll_torn hawaits hpresents hs⟩

/-- What is accepted whole is so under any name for its faults. -/
theorem TakesWhole.mapError {α ε : Type} {read : List Char → Except Fault α} {F : Json.Form α}
    (h : TakesWhole read id F) (fault : Fault → ε) :
    TakesWhole (fun t => (read t).mapError fault) fault F := by
  have hok : ∀ {t x}, read t = .ok x → (read t).mapError fault = .ok x := fun h => by
    rw [h]
    rfl
  have herror : ∀ {t f}, read t = .error f → (read t).mapError fault = .error (fault f) :=
    fun h => by
      rw [h]
      rfl
  intro t x ht
  have ht : (read t).mapError fault = .ok x := ht
  have hread : read t = .ok x := by
    cases hcase : read t with
    | error f =>
        rw [herror hcase] at ht
        cases ht
    | ok y =>
        rw [hok hcase] at ht
        cases ht
        rfl
  obtain ⟨hblank, hmore, htorn⟩ := h t x hread
  refine ⟨fun s hs => hok (hblank s hs), fun s hs => herror (hmore s hs), fun p s hp hb => ?_⟩
  obtain ⟨⟨f, hf⟩, hcut⟩ := htorn p s hp hb
  exact ⟨⟨f, herror hf⟩, fun hpresents => herror (hcut hpresents)⟩

/-- **A torn or padded text is never taken for something else.**  A catalog is loaded as a
whole or not at all, and so is a group. -/
theorem load_torn_or_padded :
    (∀ path, TakesWhole (fun t => Catalog.load path (.text t)) (.invalid path)
      (Catalog.form NoValue)) ∧
    TakesWhole Group.ofJson id (Group.form NoValue Json.depthLimit) := by
  have hcatalog : TakesWhole Catalog.ofJson id (Catalog.form NoValue) :=
    takesWhole_readAll (Catalog.takes_form id) Catalog.takesOnly_form Catalog.awaits_form
  refine ⟨fun path => ?_, takesWhole_readAll (Group.takes_form id Json.depthLimit)
    (Group.takesOnly_form Json.depthLimit) (Group.awaits_form Json.depthLimit)⟩
  simp only [Catalog.load_text]
  exact hcatalog.mapError (Catalog.LoadError.invalid path)

/-- A record may be written as an object of one part, if it may lack all others. -/
theorem Json.Layout.form_single {α : Type} {L : Json.Layout α} {Other : List Char → Prop}
    {a : α} {part : Json.Part α} {k u : List Char} (hpart : part ∈ L.parts)
    (hk : Json.Quoted .kept part.name.toList k) (hu : part.Shows a u)
    (hlack : ∀ other ∈ L.parts, other.name ≠ part.name → other.MayLack a) :
    L.form Other a ('\x7b' :: (k ++ ':' :: u ++ ['\x7d'])) := by
  have hgives : part.Gives u _ := ⟨part.name, List.mem_cons_self, Json.keyed_of_quoted hk⟩
  refine .inl ⟨[some part], [_], _, .cons (.part hpart hgives hu) .nil, List.nodup_singleton _,
    fun other hother hne => ?_, .some (.last Json.blank_nil Json.blank_nil), rfl⟩
  exact hlack other hother (mt List.mem_singleton.mpr hne)

/-- A catalog of one entity, whose name is a character outside of the first plane. -/
def Catalog.grinning : Catalog := .ofList [("😀", { source? := some "t" })]

/-- Its text, in which the name is spelled by a pair of escapes. -/
def Catalog.grinningText : List Char :=
  "\x7b\"entities\":\x7b\"\\ud83d\\ude00\":\x7b\"source\":\"t\"\x7d\x7d\x7d".toList

/-- The text presents the catalog, by declared keys only. -/
theorem Catalog.presents_grinningText (Other : List Char → Prop) :
    Presents (form Other) grinning grinningText := by
  have hsource : (Entity.layout Other).form Other { source? := some "t" } _ :=
    Json.Layout.form_single List.mem_cons_self
      (Json.quoted_of_plain (x := "source".toList) (by decide))
      (Json.quoted_of_plain (x := "t".toList) (by decide))
      (by simp [Entity.layout, Json.Part.MayLack])
  have hname : Json.Quoted .kept "😀".toList "\"\\ud83d\\ude00\"".toList :=
    ⟨_, .cons (.pair (n := 0xd83d) (m := 0xde00) rfl rfl rfl rfl) .nil, rfl⟩
  have hentities : Json.Form.table ((Entity.layout Other).form Other) grinning.entities _ :=
    ⟨[("😀", _)], [_], _, .cons ⟨_, Json.keyed_of_quoted hname, hsource⟩ .nil,
      .some (.last Json.blank_nil Json.blank_nil), rfl, rfl⟩
  have hform : form Other grinning _ :=
    Json.Layout.form_single List.mem_cons_self
      (Json.quoted_of_plain (x := "entities".toList) (by decide)) hentities (by simp [layout])
  exact ⟨[], _, [], Json.blank_nil, hform, Json.blank_nil, rfl⟩

/-- A group of one rule, which asks for nothing yet. -/
def Group.ruled : Group := { rules := [{ field := "x" }] }

/-- Its text, in which its other parts are left out. -/
def Group.ruledText : List Char := "\x7b\"rules\":[\x7b\"field\":\"x\"\x7d]\x7d".toList

/-- The text presents the group, by declared keys only. -/
theorem Group.presents_ruledText (Other : List Char → Prop) :
    Presents (form Other Json.depthLimit) ruled ruledText := by
  have hrule : Rule.layout.form Other { field := "x" } _ :=
    Json.Layout.form_single List.mem_cons_self
      (Json.quoted_of_plain (x := "field".toList) (by decide))
      (.inl (Json.quoted_of_plain (x := "x".toList) (by decide)))
      (by simp [Rule.layout, Json.Part.MayLack])
  have hrules : Json.Form.list (Rule.form Other 125) ruled.rules _ :=
    ⟨[_], _, .cons hrule .nil, .some (.last Json.blank_nil Json.blank_nil), rfl⟩
  have hform : form Other Json.depthLimit ruled _ :=
    Json.Layout.form_single (List.mem_cons_of_mem _ List.mem_cons_self)
      (Json.quoted_of_plain (x := "rules".toList) (by decide)) hrules
      (by simp [layout, Json.Part.MayLack, ruled])
  exact ⟨[], _, [], Json.blank_nil, hform, Json.blank_nil, rfl⟩

/-- A catalog of one entity and a group of one rule.  Blanks may follow them and a bracket may
not; the catalog breaks off in the second escape of a pair, within the name of its entity, and
the group breaks off within a key. -/
theorem load_torn_entities :
    (Catalog.load "catalog.json" (.text Catalog.grinningText) = .ok Catalog.grinning ∧
      Catalog.load "catalog.json" (.text (Catalog.grinningText ++ " \n".toList)) =
        .ok Catalog.grinning ∧
      Catalog.load "catalog.json" (.text (Catalog.grinningText ++ " \x7d".toList)) =
        .error (.invalid "catalog.json" .malformed) ∧
      Catalog.load "catalog.json" (.text "\x7b\"entities\":\x7b\"\\ud83d\\ud".toList) =
        .error (.invalid "catalog.json" .cutOff)) ∧
    Group.ofJson Group.ruledText = .ok Group.ruled ∧
      Group.ofJson (Group.ruledText ++ " \n".toList) = .ok Group.ruled ∧
      Group.ofJson (Group.ruledText ++ " \x7d".toList) = .error .malformed ∧
      Group.ofJson "\x7b\"rules\":[\x7b\"fi".toList = .error .cutOff := by
  have hblank : Blank " \n".toList := List.all_eq_true.mp rfl
  have hbracket : ¬Blank " \x7d".toList := fun h => absurd (h '\x7d' (by decide)) (by decide)
  have hcatalog : Catalog.load "catalog.json" (.text Catalog.grinningText) =
      .ok Catalog.grinning := by
    rw [Catalog.load_text, Catalog.ofJson, (Json.Reader.readAll_eq_ok_iff (Catalog.takes_form id)
      Catalog.takesOnly_form).mpr (Catalog.presents_grinningText IsValue)]
    rfl
  have hgroup : Group.ofJson Group.ruledText = .ok Group.ruled :=
    (Json.Reader.readAll_eq_ok_iff (Group.takes_form id Json.depthLimit)
      (Group.takesOnly_form Json.depthLimit)).mpr (Group.presents_ruledText IsValue)
  obtain ⟨hpadded, hmore, htorn⟩ := load_torn_or_padded.1 "catalog.json" _ _ hcatalog
  obtain ⟨hpadded', hmore', htorn'⟩ := load_torn_or_padded.2 _ _ hgroup
  refine ⟨⟨hcatalog, hpadded _ hblank, hmore _ hbracket, ?_⟩,
    hgroup, hpadded' _ hblank, hmore' _ hbracket, ?_⟩
  · exact (htorn _ "e00\":\x7b\"source\":\"t\"\x7d\x7d\x7d".toList rfl
      ⟨.object, by decide⟩).2 (Catalog.presents_grinningText NoValue)
  · exact (htorn' _ "eld\":\"x\"\x7d]\x7d".toList rfl ⟨.object, by decide⟩).2
      (Group.presents_ruledText NoValue)

end QueryFilter
