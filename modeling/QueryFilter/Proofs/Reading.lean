import QueryFilter.Json.Record
import QueryFilter.Json.Writer
import QueryFilter.Proofs.Concatenation

/-!
# What is written and read back

A written value may be followed by anything: a comma, the end of what it stands in,
or more text.  So a reader is said to *come to* something on a text, `Reader.Reads`,
if it does so whatever follows, and leaves what follows unread.  What it comes to
may be a fault.  Nothing behind it is looked at then, which is why a fault within a
list or a record is the fault of the whole.

Arrays and objects are read by one loop.  Each entry is read in the state that those
before it left, so what the loop comes to is what the entries make of the first
state, one after another.  Lists, tables and records are three choices of a state.

* `Tail.reads_entries` — the entries of an array or object, one after another;
* `Reader.reads_list`, `Reader.reads_list_back` — values in an array;
* `Reader.reads_table` — values under names, where the last of a name counts;
* `Reader.reads_record` — the fields of a record under their keys.
-/

namespace QueryFilter.Json

variable {α β : Type}

/-- Whether a reader comes to `out` on the text `w`, whatever follows it. -/
def Reader.Reads (rd : Reader α) (w : List Char) (out : Except Fault α) : Prop :=
  ∀ rest, rd.run (w ++ rest) = out.map fun a => (a, rest)

/-- Whether the rest of a reader comes to `out` on the text `w`, whatever follows it. -/
def Tail.Reads (t : Tail α) (w : List Char) (out : Except Fault α) : Prop :=
  ∀ rest, t.run (w ++ rest) = out.map fun a => (a, rest)

/-- Whether a text begins with neither a blank nor the end of an array or object, so that
an entry is found where it stands. -/
def IsEntry (w : List Char) : Prop :=
  ∃ c r, w = c :: r ∧ c.isWhitespace = false ∧ ∀ b : Bracket, c ≠ b.close

/-- A written object is an entry. -/
theorem isEntry_object (es : List (String × List Char)) : IsEntry (Write.object es) :=
  ⟨'\x7b', _, rfl, by decide, fun b => by cases b <;> decide⟩

/-- A written member of an object is an entry. -/
theorem isEntry_member (e : String × List Char) : IsEntry (Write.member e) :=
  ⟨quoteMark, _, rfl, by decide, fun b => by cases b <;> decide⟩

/-- A written object is its members between brackets. -/
theorem object_map (f : α → String × List Char) (xs : List α) :
    Write.object (xs.map f) =
      '\x7b' :: (Write.commas (xs.map fun x => Write.member (f x)) ++ ['\x7d']) := by
  rw [Write.object, List.map_map]
  rfl

/-! ## Where entries stand -/

/-- A text that does not begin with a blank is left as it is. -/
theorem gap_cons {c : Char} (h : c.isWhitespace = false) (s : List Char) :
    gap (c :: s) = c :: s :=
  List.dropWhile_cons_of_neg (by simp [h])

/-- An expected character is taken where it stands. -/
theorem expectChar_cons {c : Char} (h : c.isWhitespace = false) (s : List Char) :
    expectChar c (c :: s) = .ok s := by
  rw [expectChar, gap_cons h]
  exact if_pos rfl

/-- An expected word is taken where it stands. -/
theorem expectWord_append (w s : List Char) : expectWord w (w ++ s) = .ok s := by
  induction w with
  | nil => rfl
  | cons c w ih => rw [List.cons_append, expectWord, if_pos rfl, ih]

/-- No bracket is a blank. -/
theorem isWhitespace_close (b : Bracket) : b.close.isWhitespace = false := by
  cases b <;> decide

/-- Behind the opening bracket the closing one is found where it stands. -/
theorem firstPlace_close (b : Bracket) (s : List Char) :
    firstPlace b.close (b.close :: s) = .ok (.closed s) := by
  rw [firstPlace, gap_cons (isWhitespace_close b)]
  exact congrArg Except.ok (if_pos rfl)

/-- Behind the opening bracket an entry is found where it stands. -/
theorem firstPlace_entry {w : List Char} (h : IsEntry w) (b : Bracket) (s : List Char) :
    firstPlace b.close (w ++ s) = .ok (.entry (w ++ s)) := by
  obtain ⟨c, r, rfl, hblank, hclose⟩ := h
  rw [List.cons_append, firstPlace, gap_cons hblank]
  exact congrArg Except.ok (if_neg (hclose b))

/-- Behind an entry the closing bracket is found where it stands. -/
theorem nextPlace_close (b : Bracket) (s : List Char) :
    nextPlace b.close (b.close :: s) = .ok (.closed s) := by
  rw [nextPlace, gap_cons (isWhitespace_close b)]
  exact if_pos rfl

/-- Behind an entry and a comma a further entry is found where it stands. -/
theorem nextPlace_comma {w : List Char} (h : IsEntry w) (b : Bracket) (s : List Char) :
    nextPlace b.close (',' :: (w ++ s)) = .ok (.entry (w ++ s)) := by
  obtain ⟨c, r, rfl, hblank, hclose⟩ := h
  have hcomma : ',' ≠ b.close := by cases b <;> decide
  simp only [List.cons_append, nextPlace, gap_cons (show ','.isWhitespace = false by decide),
    if_neg hcomma, gap_cons hblank, if_neg (hclose b)]
  rfl

/-! ## Readers that are made of others -/

namespace Reader.Reads

variable {rd : Reader α} {w : List Char} {out : Except Fault α}

/-- What a reader comes to may be mapped. -/
theorem map (h : rd.Reads w out) (f : α → β) : (rd.map f).Reads w (out.map f) := by
  intro rest
  show (rd.run (w ++ rest)).map _ = _
  rw [h rest]
  cases out <;> rfl

/-- On a whole text a reader comes to the same. -/
theorem readAll (h : rd.Reads w out) : rd.readAll w = out := by
  have hrun := h []
  rw [List.append_nil] at hrun
  rw [Reader.readAll, hrun]
  cases out <;> rfl

end Reader.Reads

namespace Tail

namespace Reads

variable {t : Tail α} {w : List Char} {out : Except Fault α}

/-- What the rest of a reader comes to may be mapped. -/
theorem map (h : t.Reads w out) (f : α → β) : (t.map f).Reads w (out.map f) := by
  intro rest
  show (t.run (w ++ rest)).map _ = _
  rw [h rest]
  cases out <;> rfl

/-- A value whose first character tells how to go on. -/
theorem byFirst {wanted : String} {branch : Char → Option (Tail α)} {c : Char}
    (h : t.Reads w out) (hblank : c.isWhitespace = false) (hbranch : branch c = some t) :
    (Reader.byFirst wanted branch).Reads (c :: w) out := by
  intro rest
  rw [List.cons_append, Reader.byFirst]
  simp only [gap_cons hblank, hbranch]
  exact h rest

/-- What the rest of a reader comes to may be checked. -/
theorem check (h : t.Reads w out) (f : α → Except Fault β) :
    (t.check f).Reads w (out.bind f) := by
  intro rest
  show (t.run (w ++ rest) >>= _) = _
  rw [h rest]
  cases out with
  | error e => rfl
  | ok a =>
      show (f a >>= fun b => .ok (b, rest)) = (f a).map _
      cases f a <;> rfl

end Reads

/-- A word is read as what it stands for. -/
theorem reads_word (w : String) (a : α) : (word w a).Reads w.toList (.ok a) := by
  intro rest
  show (expectWord w.toList (w.toList ++ rest)).map _ = _
  rw [expectWord_append]
  rfl

/-- A written text is read back behind its first quote. -/
theorem reads_text (s : List Char) :
    text.Reads (s.flatMap escape ++ [quoteMark]) (.ok s) := by
  intro rest
  rw [List.append_assoc]
  exact read_escape s rest

/-! ## Entries of an array or object -/

section Entries

variable {σ : Type} {close : Char} {entry : σ → Reader σ} {st st' : σ} {s r : List Char}

/-- The fault of an entry is the fault of all entries. -/
theorem entries_of_error {f : Fault} (h : (entry st).run s = .error f) :
    Json.entries close entry st s = .error f := by
  rw [Json.entries]
  split
  · next g hg =>
      rw [h] at hg
      cases hg
      rfl
  · next hok =>
      rw [h] at hok
      cases hok

/-- Behind an entry that is read, the place decides whether there is a further one. -/
theorem entries_of_ok (h : (entry st).run s = .ok (st', r)) :
    Json.entries close entry st s =
      match nextPlace close r with
      | .error f => .error f
      | .ok (.closed r) => .ok (st', r)
      | .ok (.entry r) => Json.entries close entry st' r := by
  rw [Json.entries]
  split
  · next g hg =>
      rw [h] at hg
      cases hg
  · next hok =>
      rw [h] at hok
      cases hok
      split <;> next hplace => rw [hplace]

/-- After one entry the place behind it tells whether there is another. -/
theorem entries_append {w : List Char} {out : Except Fault σ} (h : (entry st).Reads w out) :
    Json.entries close entry st (w ++ s) = out.bind fun st =>
      match nextPlace close s with
      | .error f => .error f
      | .ok (.closed r) => .ok (st, r)
      | .ok (.entry r) => Json.entries close entry st r := by
  cases out with
  | error f => exact entries_of_error (h s)
  | ok st' => exact entries_of_ok (h s)

end Entries

/-- What the entries of an array or object come to, the first being `x`.  Each is read in
the state that those before it left. -/
theorem run_entries {σ ι : Type} (b : Bracket) {entry : σ → Reader σ} {write : ι → List Char}
    {step : σ → ι → Except Fault σ} {x : ι} {xs : List ι}
    (hentry : ∀ y ∈ xs, IsEntry (write y))
    (hread : ∀ y ∈ x :: xs, ∀ st, (entry st).Reads (write y) (step st y)) (st : σ)
    (rest : List Char) :
    Json.entries b.close entry st
        (write x ++ ((xs.flatMap fun y => ',' :: write y) ++ b.close :: rest)) =
      ((x :: xs).foldlM step st).map fun st => (st, rest) := by
  induction xs generalizing x st with
  | nil =>
      rw [List.foldlM_cons, List.flatMap_nil, List.nil_append,
        entries_append (hread x List.mem_cons_self st), nextPlace_close]
      cases step st x <;> rfl
  | cons y ys ih =>
      rw [List.foldlM_cons, List.flatMap_cons, List.append_assoc, List.cons_append,
        entries_append (hread x List.mem_cons_self st),
        nextPlace_comma (hentry y List.mem_cons_self)]
      cases step st x with
      | error f => rfl
      | ok st' =>
          exact ih (fun z hz => hentry z (List.mem_cons_of_mem y hz))
            (fun z hz => hread z (List.mem_cons_of_mem x hz)) st'

/-- The rest of an array or object, up to its end. -/
theorem reads_entries {σ ι : Type} (b : Bracket) {entry : σ → Reader σ} {write : ι → List Char}
    {step : σ → ι → Except Fault σ} {xs : List ι} (hentry : ∀ x ∈ xs, IsEntry (write x))
    (hread : ∀ x ∈ xs, ∀ st, (entry st).Reads (write x) (step st x)) (st : σ) :
    (Tail.entries b.close entry st).Reads (Write.commas (xs.map write) ++ [b.close])
      (xs.foldlM step st) := by
  intro rest
  cases xs with
  | nil =>
      show (firstPlace b.close (b.close :: rest) >>= _) = _
      rw [firstPlace_close]
      rfl
  | cons x xs =>
      have htext : Write.commas ((x :: xs).map write) ++ [b.close] ++ rest =
          write x ++ ((xs.flatMap fun y => ',' :: write y) ++ b.close :: rest) := by
        rw [Write.commas, List.map_cons, Text.intercalate_cons, List.flatMap_map]
        simp only [List.append_assoc]
        rfl
      rw [htext]
      show (firstPlace b.close (write x ++ _) >>= _) = _
      rw [firstPlace_entry (hentry x List.mem_cons_self)]
      exact run_entries b (fun y hy => hentry y (List.mem_cons_of_mem x hy)) hread st rest

end Tail

/-! ## Values -/

namespace Reader

/-- A written text is read back. -/
theorem reads_text (s : String) : text.Reads (Write.text s) (.ok s) := by
  have htext := (Tail.reads_text s.toList).map String.ofList
  rw [Except.map, String.ofList_toList] at htext
  exact htext.byFirst (by decide) (if_pos rfl)

/-- A written truth value is read back. -/
theorem reads_flag (b : Bool) : flag.Reads (Write.flag b) (.ok b) := by
  cases b with
  | true => exact (Tail.reads_word "rue" true).byFirst (by decide) rfl
  | false => exact (Tail.reads_word "alse" false).byFirst (by decide) rfl

/-- A written text that may be missing is read back. -/
theorem reads_optional (s? : Option String) :
    text.orNull.Reads (Write.optional s?) (.ok s?) := by
  cases s? with
  | none => exact fun rest => Tail.reads_word "ull" none rest
  | some s => exact fun rest => (reads_text s).map some rest

/-- A written text is read back where `null` could stand for the empty one. -/
theorem reads_textOrNull (s : String) : textOrNull.Reads (Write.text s) (.ok s) :=
  (reads_optional (some s)).map fun s => s.getD ""

/-- A value under its key is read as the key chooses, if it is read at all. -/
theorem run_keyed (choose : String → Except Fault (Reader α)) (key : String)
    (w rest : List Char) :
    (keyed choose).run (Write.member (key, w) ++ rest) =
      (choose key).bind fun rd => rd.run (w ++ rest) := by
  have htext : Write.member (key, w) ++ rest =
      quoteMark :: (key.toList.flatMap escape ++ quoteMark :: ':' :: (w ++ rest)) := by
    simp [Write.member, Write.text, quote]
  show (expectChar quoteMark _ >>= _) = _
  rw [htext, expectChar_cons (by decide)]
  show (textFrom .kept _ >>= _) = _
  rw [read_escape]
  show (choose (String.ofList key.toList) >>= _) = _
  rw [String.ofList_toList]
  cases choose key with
  | error f => rfl
  | ok rd =>
      show (expectChar ':' (':' :: (w ++ rest)) >>= fun r => rd.run r) = _
      rw [expectChar_cons (by decide)]
      rfl

section

variable {choose : String → Except Fault (Reader α)} {key : String} {w : List Char}

/-- A member is read by the reader that its key chooses. -/
theorem reads_keyed {rd : Reader α} {out : Except Fault α} (hchoose : choose key = .ok rd)
    (h : rd.Reads w out) : (keyed choose).Reads (Write.member (key, w)) out := by
  intro rest
  rw [run_keyed, hchoose]
  exact h rest

/-- Where the key of a member chooses no reader, that is the fault. -/
theorem reads_keyed_of_error {f : Fault} (hchoose : choose key = .error f) :
    (keyed choose).Reads (Write.member (key, w)) (.error f) := by
  intro rest
  rw [run_keyed, hchoose]
  rfl

end

/-- No array is opened where none may be. -/
theorem reads_closedList (items : List (List Char)) :
    (closedList : Reader (List α)).Reads (Write.array items) (.error .malformed) :=
  Tail.Reads.byFirst (fun _ => rfl : (Tail.fail .malformed).Reads _ _) (by decide) rfl

/-- Values gathered one by one, the last in front. -/
theorem foldlM_gather {ι : Type} (out : ι → Except Fault α) (xs : List ι) (acc : List α) :
    (xs.foldlM (fun acc x => (out x).map fun a => a :: acc) acc).map List.reverse =
      (xs.mapM out).map fun as => acc.reverse ++ as := by
  induction xs generalizing acc with
  | nil => simp [Except.map, pure, Except.pure]
  | cons x xs ih =>
      rw [List.foldlM_cons, List.mapM_cons]
      cases out x with
      | error f => rfl
      | ok a =>
          refine (ih (a :: acc)).trans ?_
          show _ = (xs.mapM out >>= fun as => .ok (a :: as)).map _
          cases xs.mapM out with
          | error f => rfl
          | ok as => simp [Except.map, bind, Except.bind]

/-- An array of values comes to the list of what they come to, or to the first fault among
them. -/
theorem reads_list {ι : Type} {item : Reader α} {write : ι → List Char}
    {out : ι → Except Fault α} {xs : List ι} (hentry : ∀ x ∈ xs, IsEntry (write x))
    (hread : ∀ x ∈ xs, item.Reads (write x) (out x)) :
    item.list.Reads (Write.array (xs.map write)) (xs.mapM out) := by
  have hitems := (Tail.reads_entries .array hentry
    (fun x hx acc => (hread x hx).map fun a => a :: acc) []).map List.reverse
  have hout : ((xs.mapM out).map fun as => [].reverse ++ as) = xs.mapM out := by
    cases xs.mapM out <;> rfl
  rw [foldlM_gather, hout] at hitems
  exact hitems.byFirst (by decide) rfl

/-- An array of values each of which is read back is read back. -/
theorem reads_list_back {item : Reader α} {write : α → List Char} {xs : List α}
    (hentry : ∀ x ∈ xs, IsEntry (write x)) (hread : ∀ x ∈ xs, item.Reads (write x) (.ok x)) :
    item.list.Reads (Write.array (xs.map write)) (.ok xs) := by
  have hlist := reads_list hentry hread
  rwa [show xs.mapM (.ok : α → Except Fault α) = .ok (xs.map id) from List.mapM_pure,
    List.map_id] at hlist

/-- An object of values under names comes to the table of them. -/
theorem reads_table {item : Reader α} {write : α → List Char} {es : List (String × α)}
    (hread : ∀ e ∈ es, item.Reads (write e.2) (.ok e.2)) :
    item.table.Reads (Write.object (es.map fun e => (e.1, write e.2))) (.ok (Table.ofList es)) := by
  have hmembers : (Tail.entries '\x7d' (fun t : Table α => keyed fun name =>
      .ok (item.map (t.insert name))) ∅).Reads
        (Write.commas (es.map fun e => Write.member (e.1, write e.2)) ++ ['\x7d'])
        (es.foldlM (fun t e => .ok (t.insert e.1 e.2)) ∅) := by
    refine Tail.reads_entries .object (fun e _ => isEntry_member _) (fun e he t => ?_) ∅
    exact reads_keyed rfl ((hread e he).map (t.insert e.1))
  have hout : es.foldlM (fun (t : Table α) e => (.ok (t.insert e.1 e.2) : Except Fault _)) ∅ =
      .ok (Table.ofList es) := List.foldlM_pure
  rw [hout] at hmembers
  rw [object_map]
  exact hmembers.byFirst (by decide) rfl

end Reader

/-- Values that pass a test, and a fault if any does not. -/
theorem mapM_guard {p : α → Prop} [DecidablePred p] (f : Fault) (xs : List α) :
    (xs.mapM fun x => if p x then .ok x else .error f : Except Fault (List α)) =
      if ∀ x ∈ xs, p x then .ok xs else .error f := by
  induction xs with
  | nil => rfl
  | cons x xs ih =>
      rw [List.mapM_cons, ih]
      by_cases hx : p x
      · by_cases hxs : ∀ y ∈ xs, p y
        · rw [if_pos hx, if_pos hxs, if_pos (List.forall_mem_cons.mpr ⟨hx, hxs⟩)]
          rfl
        · rw [if_pos hx, if_neg hxs, if_neg fun h => hxs (List.forall_mem_cons.mp h).2]
          rfl
      · rw [if_neg hx, if_neg fun h => hx (List.forall_mem_cons.mp h).1]
        rfl

/-! ## Records -/

/-- A field of a record as it is written, and what its value is read as, whatever
follows. -/
structure Member (α : Type) where
  slot : Slot α
  text : List Char
  out : Except Fault (α → α)
  reads : slot.read.Reads text out

/-- A written value as that of a field. -/
def Reader.Reads.member {rd : Reader β} {w : List Char} {out : Except Fault β}
    (h : rd.Reads w out) (name : String) (store : β → α → α) : Member α :=
  ⟨rd.slot name store, w, out.map store, h.map store⟩

namespace Member

/-- The field with a second spelling of its key, written under the first. -/
def orKey (m : Member α) (key : String) : Member α := { m with slot := m.slot.orKey key }

/-- The field as one that must be given. -/
def demanded (m : Member α) : Member α := { m with slot := m.slot.demanded }

/-- The value under the key of the field. -/
def entry (m : Member α) : String × List Char := (m.slot.name, m.text)

/-- The record with the value of the field. -/
def apply (a : α) (m : Member α) : Except Fault α := m.out.map fun change => change a

/-- The record in the course of reading, with the value of the field unless it was given
before. -/
def fill (f : Filling α) (m : Member α) : Except Fault (Filling α) :=
  if m.slot.name ∈ f.given then .error (.misfit (.duplicateField m.slot.name))
  else m.out.map fun change => ⟨m.slot.name :: f.given, change f.value⟩

/-- Fields of different names fill a record one after another. -/
theorem foldlM_fill (ms : List (Member α)) (f : Filling α)
    (hnew : ∀ m ∈ ms, m.slot.name ∉ f.given) (honce : (ms.map fun m => m.slot.name).Nodup) :
    ms.foldlM fill f = (ms.foldlM apply f.value).map fun a =>
      ⟨(ms.map fun m => m.slot.name).reverse ++ f.given, a⟩ := by
  induction ms generalizing f with
  | nil => rfl
  | cons m ms ih =>
      obtain ⟨hfirst, honce⟩ := List.nodup_cons.mp honce
      rw [List.foldlM_cons, List.foldlM_cons, fill, if_neg (hnew m List.mem_cons_self), apply]
      cases m.out with
      | error e => rfl
      | ok change =>
          refine (ih ⟨m.slot.name :: f.given, change f.value⟩ ?_ honce).trans ?_
          · intro n hn hmem
            rcases List.mem_cons.mp hmem with hname | hmem
            · exact hfirst (List.mem_map.mpr ⟨n, hn, hname⟩)
            · exact hnew n (List.mem_cons_of_mem m hn) hmem
          · simp only [List.map_cons, List.reverse_cons, List.append_assoc, List.singleton_append]
            rfl

/-- Behind the key of a field its value is read. -/
theorem reads_entry {slots : List (Slot α)} {m : Member α}
    (hslot : (slots.find? fun slot => slot.answers m.slot.name) = some m.slot)
    (f : Filling α) :
    (Reader.keyed (Filling.choose slots f)).Reads (Write.member m.entry) (fill f m) := by
  by_cases hgiven : m.slot.name ∈ f.given
  · rw [fill, if_pos hgiven]
    exact Reader.reads_keyed_of_error (by rw [Filling.choose, hslot]; exact if_pos hgiven)
  · rw [fill, if_neg hgiven]
    exact Reader.reads_keyed (by rw [Filling.choose, hslot]; exact if_neg hgiven) (m.reads.map _)

end Member

/-- The keys that a field answers to. -/
def Slot.keys (slot : Slot α) : List String := slot.name :: slot.other?.toList

/-- A slot answers to its own keys. -/
theorem Slot.answers_iff {slot : Slot α} {key : String} :
    slot.answers key = true ↔ key ∈ slot.keys := by
  rw [answers, keys, Bool.or_eq_true, beq_iff_eq, beq_iff_eq, List.mem_cons, Option.mem_toList]

/-- The names of slots are among their keys. -/
theorem Slot.map_name_sublist (slots : List (Slot α)) :
    (slots.map Slot.name).Sublist (slots.flatMap Slot.keys) := by
  rw [List.map_eq_flatMap]
  exact Text.flatMap_sublist fun slot _ => List.singleton_sublist.mpr List.mem_cons_self

/-- Where no two fields share a key, each is found by its own name. -/
theorem Slot.find?_answers {slots : List (Slot α)} (h : (slots.flatMap Slot.keys).Nodup)
    {slot : Slot α} (hslot : slot ∈ slots) :
    (slots.find? fun other => other.answers slot.name) = some slot := by
  induction slots with
  | nil => cases hslot
  | cons other slots ih =>
      rw [List.flatMap_cons, List.nodup_append] at h
      obtain ⟨-, hrest, hdisjoint⟩ := h
      rcases List.mem_cons.mp hslot with rfl | hmem
      · exact List.find?_cons_of_pos (answers_iff.mpr List.mem_cons_self)
      · rw [List.find?_cons_of_neg]
        · exact ih hrest hmem
        · intro hanswers
          have hname : slot.name ∈ slots.flatMap Slot.keys :=
            List.mem_flatMap.mpr ⟨slot, hmem, List.mem_cons_self⟩
          exact hdisjoint _ (answers_iff.mp hanswers) _ hname rfl

/-- A record is finished if all is given that must be. -/
theorem Filling.finish_of_given {slots : List (Slot α)} {f : Filling α}
    (h : ∀ slot ∈ slots, slot.required = true → slot.name ∈ f.given) :
    f.finish slots = .ok f.value := by
  have hnone : (slots.find? fun slot => slot.required && slot.name ∉ f.given) = none := by
    rw [List.find?_eq_none]
    intro slot hslot
    cases hrequired : slot.required with
    | false => simp
    | true => simpa using h slot hslot hrequired
  rw [finish, hnone]

/-- **A record in the object form,** where no two fields share a key.  If some fields are
given in their order, among them all that must be given, it comes to what their values make
of the blank record, or to the first fault among them. -/
theorem Reader.reads_record {slots : List (Slot α)} (hkeys : (slots.flatMap Slot.keys).Nodup)
    (ms : List (Member α)) (hms : (ms.map Member.slot).Sublist slots)
    (hrequired : ∀ slot ∈ slots, slot.required = true → slot ∈ ms.map Member.slot)
    (title : String) (blank : α) :
    (Reader.record title slots blank).Reads (Write.object (ms.map Member.entry))
      (ms.foldlM Member.apply blank) := by
  have honce : (ms.map fun m => m.slot.name).Nodup := by
    have hnames := hms.map Slot.name
    rw [List.map_map] at hnames
    exact hkeys.sublist (hnames.trans (Slot.map_name_sublist slots))
  have hmembers : (Tail.members slots blank).Reads
      (Write.commas (ms.map fun m => Write.member m.entry) ++ ['\x7d'])
      ((ms.foldlM Member.fill ⟨[], blank⟩).bind (Filling.finish slots)) := by
    refine Tail.Reads.check (Tail.reads_entries .object (fun m _ => isEntry_member _)
      (fun m hm f => Member.reads_entry ?_ f) _) _
    exact Slot.find?_answers hkeys (hms.subset (List.mem_map_of_mem hm))
  have hfinish : ((ms.foldlM Member.fill ⟨[], blank⟩).bind (Filling.finish slots)) =
      ms.foldlM Member.apply blank := by
    rw [Member.foldlM_fill ms _ (fun _ _ => List.not_mem_nil) honce]
    cases ms.foldlM Member.apply blank with
    | error e => rfl
    | ok a =>
        refine Filling.finish_of_given fun slot hslot hreq => ?_
        obtain ⟨m, hm, rfl⟩ := List.mem_map.mp (hrequired slot hslot hreq)
        simpa using ⟨m, hm, rfl⟩
  rw [hfinish] at hmembers
  rw [object_map]
  exact hmembers.byFirst (by decide) rfl

end QueryFilter.Json
