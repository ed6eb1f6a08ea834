import Mathlib.Data.List.Pairwise
import Mathlib.Data.List.Nodup
import QueryFilter.Proofs.Taking

/-!
# Records by their layout

A record is read as an object or as an array, and each of the two is a loop.  In the
object form the state is what has been filled in so far.  A member fills in a part that
is not given yet, or it is skipped.  In the array form the state is the number of parts
that came before, and the record so far.

What a row of steps comes to is said once for each form, in both directions: the parts
given have in the end what they were given, because no later step changes them, and the
others have what they had.

* `Layout.ReadBy` — which slots read the parts of a layout;
* `Layout.chain_fills_iff`, `Layout.chain_places_iff` — rows of steps in the two forms;
* `Reader.takes_record`, `Reader.takesOnly_record` — records are read by their layout.
-/

namespace QueryFilter.Json

variable {α β : Type}

/-! ## Parts and slots -/

/-- Whether a slot reads a part, by a reader that follows a law. -/
def Part.ReadBy (Law : (part : Part α) → Reader part.β → Prop) (part : Part α)
    (slot : Slot α) : Prop :=
  ∃ rd, Law part rd ∧ slot = ⟨part.name, part.other?, part.default?.isNone, rd.map part.store⟩

/-- Whether slots read the parts of a layout, one by one. -/
def Layout.ReadBy (Law : (part : Part α) → Reader part.β → Prop) (L : Layout α)
    (slots : List (Slot α)) : Prop :=
  List.Forall₂ (Part.ReadBy Law) L.parts slots

/-- The law that a reader takes the form of a part. -/
def Part.Taken (part : Part α) (rd : Reader part.β) : Prop := rd.Takes part.form

/-- The law that a reader takes nothing but the form of a part. -/
def Part.OnlyTaken (part : Part α) (rd : Reader part.β) : Prop := rd.TakesOnly part.form

section Slots

variable {Law : (part : Part α) → Reader part.β → Prop} {L : Layout α} {part other : Part α}
  {slot : Slot α} {slots : List (Slot α)} {key : String}

/-- A slot answers to the keys of the part it reads. -/
theorem Part.ReadBy.answers_iff (h : part.ReadBy Law slot) :
    slot.answers key = true ↔ key ∈ part.keys := by
  obtain ⟨rd, -, rfl⟩ := h
  exact Slot.answers_iff

/-- A slot must be given exactly if the part it reads has no default. -/
theorem Part.ReadBy.required_iff (h : part.ReadBy Law slot) :
    slot.required = true ↔ part.default? = none := by
  obtain ⟨rd, -, rfl⟩ := h
  exact Option.isNone_iff_eq_none

/-- A key is looked up: it names no part, or it names one, which the slot found reads. -/
theorem find?_answers_of_readBy {parts : List (Part α)}
    (h : List.Forall₂ (Part.ReadBy Law) parts slots) (key : String) :
    (slots.find? (fun slot => slot.answers key) = none ∧ ∀ part ∈ parts, key ∉ part.keys) ∨
      ∃ part ∈ parts, ∃ slot, slots.find? (fun slot => slot.answers key) = some slot ∧
        part.ReadBy Law slot ∧ key ∈ part.keys := by
  induction h with
  | nil => exact .inl ⟨rfl, fun part hpart => nomatch hpart⟩
  | @cons part slot parts slots hread _ ih =>
      by_cases hkey : key ∈ part.keys
      · exact .inr ⟨part, List.mem_cons_self, slot,
          List.find?_cons_of_pos (hread.answers_iff.mpr hkey), hread, hkey⟩
      · rw [List.find?_cons_of_neg (p := fun slot : Slot α => slot.answers key)
          (mt hread.answers_iff.mp hkey)]
        rcases ih with ⟨hnone, hkeys⟩ | ⟨other, hother, hfound⟩
        · exact .inl ⟨hnone, List.forall_mem_cons.mpr ⟨hkey, hkeys⟩⟩
        · exact .inr ⟨other, List.mem_cons_of_mem part hother, hfound⟩

namespace Layout

/-- A key names one part at most. -/
theorem part_unique (hpart : part ∈ L.parts) (hother : other ∈ L.parts)
    (hkey : key ∈ part.keys) (hkey' : key ∈ other.keys) : part = other := by
  have hsymm : Std.Symm (Function.onFun List.Disjoint (Part.keys (α := α))) :=
    ⟨fun _ _ h _ hkey hkey' => h hkey' hkey⟩
  by_contra hne
  exact (List.nodup_flatMap.mp L.nodup).2.forall hpart hother hne hkey hkey'

/-- A name names one part at most. -/
theorem part_eq_of_name (hpart : part ∈ L.parts) (hother : other ∈ L.parts)
    (h : part.name = other.name) : part = other :=
  part_unique hpart hother List.mem_cons_self (h ▸ List.mem_cons_self)

/-- No part of a layout stands in it twice. -/
theorem nodup_parts (L : Layout α) : L.parts.Nodup := by
  refine (List.nodup_flatMap.mp L.nodup).2.imp ?_
  rintro part _ hdisjoint rfl
  exact hdisjoint List.mem_cons_self List.mem_cons_self

namespace ReadBy

/-- Slots that read parts by one law read them by every weaker one. -/
theorem imp {Law' : (part : Part α) → Reader part.β → Prop}
    (h : L.ReadBy Law slots) (himp : ∀ part rd, Law part rd → Law' part rd) :
    L.ReadBy Law' slots :=
  List.Forall₂.imp (fun part _ ⟨rd, hrd, hslot⟩ => ⟨rd, himp part rd hrd, hslot⟩) h

/-- What stands under a key is read by the part it names. -/
theorem choose_part (h : L.ReadBy Law slots) (hpart : part ∈ L.parts) (hkey : key ∈ part.keys) :
    ∃ slot, slots.find? (fun slot => slot.answers key) = some slot ∧ part.ReadBy Law slot := by
  rcases find?_answers_of_readBy h key with ⟨-, hnone⟩ | ⟨other, hother, slot, hfind, hread, hmem⟩
  · exact absurd hkey (hnone part hpart)
  · rw [part_unique hpart hother hkey hmem]
    exact ⟨slot, hfind, hread⟩

/-- A key that names no part is answered by no slot. -/
theorem choose_other (h : L.ReadBy Law slots) (hkey : ∀ part ∈ L.parts, key ∉ part.keys) :
    slots.find? (fun slot => slot.answers key) = none := by
  rcases find?_answers_of_readBy h key with ⟨hnone, -⟩ | ⟨part, hpart, -, -, -, hmem⟩
  · exact hnone
  · exact absurd hmem (hkey part hpart)

/-- Every part is read by a slot. -/
theorem exists_slot (h : L.ReadBy Law slots) :
    ∀ part ∈ L.parts, ∃ slot ∈ slots, part.ReadBy Law slot := by
  have hflip : List.Forall₂ (flip (Part.ReadBy Law)) slots L.parts := List.Forall₂.flip h
  exact exists_of_forall₂ hflip

/-- A record is finished where every part that must be given is. -/
theorem finish_eq_ok_iff (h : L.ReadBy Law slots) {f : Filling α} {x : α} :
    f.finish slots = .ok x ↔
      (∀ part ∈ L.parts, part.name ∉ f.given → part.default? ≠ none) ∧ f.value = x := by
  have hgiven : (∀ slot ∈ slots, ¬(slot.required && decide (slot.name ∉ f.given)) = true) ↔
      ∀ part ∈ L.parts, part.name ∉ f.given → part.default? ≠ none := by
    simp only [Bool.and_eq_true, decide_eq_true_eq, not_and, not_not]
    constructor
    · intro hslots part hpart hnew hnone
      obtain ⟨slot, hslot, hread⟩ := exists_slot h part hpart
      have hrequired := hread.required_iff.mpr hnone
      obtain ⟨rd, -, rfl⟩ := hread
      exact hnew (hslots _ hslot hrequired)
    · intro hparts slot hslot hrequired
      obtain ⟨part, hpart, hread⟩ := exists_of_forall₂ h slot hslot
      have hnone := hread.required_iff.mp hrequired
      obtain ⟨rd, -, rfl⟩ := hread
      by_contra hnew
      exact hparts part hpart hnew hnone
  rw [← hgiven, ← List.find?_eq_none, Filling.finish]
  split
  · next slot hfind => simp only [hfind, reduceCtorEq, false_and]
  · next hnone => simp only [hnone, true_and, Except.ok.injEq]

end ReadBy

end Layout

end Slots

/-! ## The object form -/

/-- One member of an object is filled in, or skipped. -/
inductive Layout.Fills (L : Layout α) (Other : List Char → Prop) (f : Filling α) :
    Option (Part α) → List Char → Filling α → Prop
  | part {part : Part α} {x : part.β} {u m : List Char} (hpart : part ∈ L.parts)
      (hnew : part.name ∉ f.given) (hm : part.Gives u m) (hu : part.form x u) :
      Fills L Other f (some part) m ⟨part.name :: f.given, part.store x f.value⟩
  | other {key : String} {u m : List Char} (hkey : ∀ part ∈ L.parts, key ∉ part.keys)
      (hm : Keyed .kept key.toList u m) (hu : Other u) : Fills L Other f none m f

/-- A step over a member of an object. -/
def Layout.FillStep (L : Layout α) (Other : List Char → Prop) (f : Filling α) (m : List Char)
    (f' : Filling α) : Prop := ∃ part?, L.Fills Other f part? m f'

section Object

variable {L : Layout α} {Other : List Char → Prop} {f f' : Filling α} {ms : List (List Char)}

/-- **A row of members** gives parts that are new, each once.  These are in the end what
the members present, and the others are what they were. -/
theorem Layout.chain_fills_iff : Chain (L.FillStep Other) f ms f' ↔
    ∃ given, List.Forall₂ (L.Member Other f'.value) given ms ∧ (names given).Nodup ∧
      (∀ name ∈ names given, name ∉ f.given) ∧ f'.given = (names given).reverse ++ f.given ∧
      ∀ part ∈ L.parts, part.name ∉ names given →
        part.value f'.value = part.value f.value := by
  constructor
  · intro h
    induction h with
    | nil => exact ⟨[], .nil, .nil, (fun _ h => nomatch h), rfl, fun _ _ _ => rfl⟩
    | @cons f f₁ f' m ms hstep _ ih =>
        obtain ⟨given, hmembers, honce, hnew, hgiven, hrest⟩ := ih
        obtain ⟨part?, hfills⟩ := hstep
        cases hfills with
        | @part part x u _ hpart hpartNew hm hu =>
            have hlast : part.name ∉ names given := fun hname =>
              hnew _ hname List.mem_cons_self
            have hvalue : part.value f'.value = x :=
              (hrest part hpart hlast).trans (part.value_store x f.value)
            have hshows : part.Shows f'.value u := by
              rw [Part.Shows, hvalue]
              exact hu
            refine ⟨some part :: given, .cons (.part hpart hm hshows) hmembers,
              List.nodup_cons.mpr ⟨hlast, honce⟩, ?_, ?_, ?_⟩
            · exact List.forall_mem_cons.mpr
                ⟨hpartNew, fun name hname hold => hnew name hname (List.mem_cons_of_mem _ hold)⟩
            · rw [hgiven, ← List.singleton_append, ← List.append_assoc]
              exact congrArg (· ++ f.given) List.reverse_cons.symm
            · intro other hother hname
              obtain ⟨hne, hlate⟩ := not_or.mp (mt List.mem_cons.mpr hname)
              exact (hrest other hother hlate).trans
                (L.frame other hother part hpart hne x f.value)
        | @other key u _ hkey hm hu =>
            exact ⟨none :: given, .cons (.other hkey hm hu) hmembers, honce, hnew, hgiven, hrest⟩
  · rintro ⟨given, hmembers, honce, hnew, hgiven, hrest⟩
    induction hmembers generalizing f with
    | nil =>
        have hf : f' = f := by
          cases f
          cases f'
          exact congr (congrArg Filling.mk hgiven)
            (L.ext _ _ fun part hpart => hrest part hpart List.not_mem_nil)
        rw [hf]
        exact .nil
    | @cons part? m given ms hmember _ ih =>
        cases hmember with
        | @part part u _ hpart hm hu =>
            obtain ⟨hlast, honce⟩ := List.nodup_cons.mp honce
            obtain ⟨hpartNew, hnew⟩ := List.forall_mem_cons.mp hnew
            refine .cons ⟨some part, .part hpart hpartNew hm hu⟩ (ih honce ?_ ?_ ?_)
            · intro name hname hold
              rcases List.mem_cons.mp hold with rfl | hold
              · exact hlast hname
              · exact hnew name hname hold
            · rw [hgiven, ← List.singleton_append (l := f.given), ← List.append_assoc]
              exact congrArg (· ++ f.given) List.reverse_cons
            · intro other hother hlate
              by_cases hname : other.name = part.name
              · obtain rfl := part_eq_of_name hother hpart hname
                exact (other.value_store _ _).symm
              · rw [L.frame other hother part hpart hname]
                exact hrest other hother (mt List.mem_cons.mp (not_or.mpr ⟨hname, hlate⟩))
        | @other key u _ hkey hm hu =>
            exact .cons ⟨none, .other hkey hm hu⟩ (ih honce hnew hgiven hrest)

/-- Members that do not give a part twice are filled in. -/
theorem Layout.exists_chain_fills {a : α} {given : List (Option (Part α))}
    {ms : List (List Char)} (hmembers : List.Forall₂ (L.Member Other a) given ms)
    (honce : (names given).Nodup) (hnew : ∀ name ∈ names given, name ∉ f.given) :
    ∃ f', Chain (L.FillStep Other) f ms f' ∧ f'.given = (names given).reverse ++ f.given := by
  induction hmembers generalizing f with
  | nil => exact ⟨f, .nil, rfl⟩
  | @cons part? m given ms hmember _ ih =>
      cases hmember with
      | @part part u _ hpart hm hu =>
          obtain ⟨hlast, honce⟩ := List.nodup_cons.mp honce
          obtain ⟨hpartNew, hnew⟩ := List.forall_mem_cons.mp hnew
          obtain ⟨f', hchain, hgiven⟩ :=
            ih honce (f := ⟨part.name :: f.given, part.store (part.value a) f.value⟩) (by
              intro name hname hold
              rcases List.mem_cons.mp hold with rfl | hold
              · exact hlast hname
              · exact hnew name hname hold)
          refine ⟨f', .cons ⟨some part, .part hpart hpartNew hm hu⟩ hchain, ?_⟩
          rw [hgiven, ← List.singleton_append, ← List.append_assoc]
          exact congrArg (· ++ f.given) List.reverse_cons.symm
      | @other key u _ hkey hm hu =>
          obtain ⟨f', hchain, hgiven⟩ := ih honce hnew
          exact ⟨f', .cons ⟨none, .other hkey hm hu⟩ hchain, hgiven⟩

/-- Reads a member of an object. -/
def Filling.member (slots : List (Slot α)) (f : Filling α) : Reader (Filling α) :=
  .keyed (f.choose slots)

variable {slots : List (Slot α)}

/-- The loop over members takes those that present a record. -/
theorem follows_member (hL : L.ReadBy Part.Taken slots) (hOther : ∀ {u}, Other u → IsValue u) :
    (entriesLoop .object (Filling.member slots)).Follows (L.FillStep Other) := by
  refine follows_entriesLoop ?_ ?_
  · rintro f m f' ⟨part?, hfills⟩
    cases hfills with
    | part _ _ hm _ =>
        obtain ⟨key, -, hkeyed⟩ := hm
        exact isEntry_keyed hkeyed
    | other _ hm _ => exact isEntry_keyed hm
  · rintro f m f' r ⟨part?, hfills⟩ hr
    cases hfills with
    | @part part x u _ hpart hnew hm hu =>
        obtain ⟨key, hkey, k, a, b, hk, ha, hb, rfl⟩ := hm
        obtain ⟨slot, hfind, rd, hrd, rfl⟩ := hL.choose_part hpart hkey
        simp only [List.append_assoc, List.cons_append]
        refine (Reader.keyed_run blank_nil hk ha (b ++ (u ++ r))).trans ?_
        rw [Filling.choose, hfind]
        dsimp only
        rw [if_neg hnew]
        exact map_eq_ok.mpr ⟨_, map_eq_ok.mpr ⟨_, hrd.run_append hu hb r, rfl⟩, rfl⟩
    | @other key u _ hkey hm hu =>
        obtain ⟨k, a, b, hk, ha, hb, rfl⟩ := hm
        simp only [List.append_assoc, List.cons_append]
        refine (Reader.keyed_run blank_nil hk ha (b ++ (u ++ r))).trans ?_
        rw [Filling.choose, hL.choose_other hkey]
        have hskip : skip (b ++ (u ++ r)) = .ok r := by
          rw [skip, skipValue_append (hOther hu) hb hr, skipAfter]
        exact map_eq_ok.mpr ⟨_, hskip, rfl⟩

/-- The loop over members takes nothing but what presents parts or is skipped. -/
theorem shows_member (hL : L.ReadBy Part.OnlyTaken slots) (n : Nat) :
    (entriesLoop .object (Filling.member slots)).Shows (L.FillStep IsValue) n := by
  refine shows_entriesLoop (fun {f s f' r} h => ?_) n
  obtain ⟨a, key, k, a', rd, t, ha, hk, ha', hchoose, rfl, hrun⟩ := Reader.of_keyed h
  have hkeyed : ∀ {b u}, Blank b → Keyed .kept key.toList u (k ++ (a' ++ ':' :: (b ++ u))) :=
    fun hb => ⟨k, a', _, hk, ha', hb, rfl⟩
  rcases find?_answers_of_readBy hL key with
    ⟨hnone, hkey⟩ | ⟨part, hpart, slot, hfind, ⟨item, hitem, rfl⟩, hkey⟩
  · rw [Filling.choose, hnone] at hchoose
    cases hchoose
    obtain ⟨u, hskip, hout⟩ := map_eq_ok.mp hrun
    cases hout
    obtain ⟨b, u, t, hb, hu, rfl, hafter⟩ := of_skipValue hskip
    rw [skipAfter] at hafter
    cases hafter
    exact ⟨a, _, ha, isEntry_keyed (hkeyed hb), ⟨none, .other hkey (hkeyed hb) hu⟩, by simp⟩
  · rw [Filling.choose, hfind] at hchoose
    dsimp only at hchoose
    split at hchoose
    · cases hchoose
    · next hnew =>
        cases hchoose
        obtain ⟨⟨change, v⟩, hchange, hout⟩ := map_eq_ok.mp hrun
        cases hout
        obtain ⟨⟨x, v⟩, hvalue, hout⟩ := map_eq_ok.mp hchange
        cases hout
        obtain ⟨b, u, hb, -, hu, rfl⟩ := hitem hvalue
        exact ⟨a, _, ha, isEntry_keyed (hkeyed hb),
          ⟨some part, .part hpart hnew ⟨key, hkey, hkeyed hb⟩ hu⟩, by simp⟩

/-- **A record in the object form** is read as what it presents. -/
theorem members_append (hL : L.ReadBy Part.Taken slots) (hOther : ∀ {u}, Other u → IsValue u)
    {x : α} {w : List Char} (hw : L.object Other x ('\x7b' :: w)) (r : List Char) :
    (Tail.members slots L.blank).run (w ++ r) = .ok (x, r) := by
  obtain ⟨given, ms, v, hmembers, honce, hlack, hv, hw⟩ := hw
  cases hw
  have hchain : Chain (L.FillStep Other) ⟨[], L.blank⟩ ms
      ⟨(Layout.names given).reverse ++ [], x⟩ := by
    refine Layout.chain_fills_iff.mpr
      ⟨given, hmembers, honce, (fun _ _ => List.not_mem_nil), rfl, fun part hpart hname => ?_⟩
    exact (L.value_blank part hpart _ (hlack part hpart hname)).symm
  have hfinish : Filling.finish slots ⟨(Layout.names given).reverse ++ [], x⟩ = .ok x := by
    refine hL.finish_eq_ok_iff.mpr ⟨fun part hpart hname hnone => ?_, rfl⟩
    have hdefault : part.default? = some (part.value x) :=
      hlack part hpart (by simpa using hname)
    rw [hnone] at hdefault
    cases hdefault
  refine bind_eq_ok.mpr
    ⟨_, run_entries_append (c := .object) (follows_member hL hOther) hv hchain r, ?_⟩
  exact bind_eq_ok.mpr ⟨x, hfinish, rfl⟩

/-- What is read as the object form of a record is one. -/
theorem of_members (hL : L.ReadBy Part.OnlyTaken slots) {x : α} {s r : List Char}
    (h : (Tail.members slots L.blank).run s = .ok (x, r)) :
    ∃ w, L.object IsValue x ('\x7b' :: w) ∧ s = w ++ r := by
  obtain ⟨⟨f, t⟩, hentries, hcheck⟩ := bind_eq_ok.mp h
  obtain ⟨y, hfinish, hout⟩ := bind_eq_ok.mp hcheck
  cases hout
  obtain ⟨ms, w, hw, hchain, rfl⟩ := of_run_entries (c := .object) (shows_member hL) hentries
  obtain ⟨given, hmembers, honce, -, hgiven, hrest⟩ := Layout.chain_fills_iff.mp hchain
  obtain ⟨hrequired, rfl⟩ := hL.finish_eq_ok_iff.mp hfinish
  refine ⟨w, ⟨given, ms, w, hmembers, honce, fun part hpart hname => ?_, hw, rfl⟩, rfl⟩
  obtain ⟨b, hb⟩ := Option.ne_none_iff_exists'.mp
    (hrequired part hpart (by rw [hgiven]; simpa using hname))
  rw [Part.MayLack, hb, hrest part hpart hname, L.value_blank part hpart b hb]

end Object

/-! ## The array form -/

/-- A step over a value of an array: it is that of the next part. -/
def Layout.PlaceStep (L : Layout α) (st : Nat × α) (v : List Char) (st' : Nat × α) : Prop :=
  ∃ part, L.parts[st.1]? = some part ∧
    ∃ b, part.form b v ∧ st' = (st.1 + 1, part.store b st.2)

/-- Reads the value of the field at the place `st.1`, and then what is left of the array. -/
def placeEntry (title : String) (slots : List (Slot α)) (st : Nat × α) (s : List Char) :
    Except Fault (α × List Char) :=
  match slots[st.1]? with
  | none => .error .malformed
  | some slot => do
      let (change, r) ← slot.read.run s
      positional title slots.length (slots.drop (st.1 + 1)) (change st.2) r

/-- The record at the end of an array. -/
def placeDone (title : String) (slots : List (Slot α)) (st : Nat × α) (r : List Char) :
    Except Fault (α × List Char) :=
  match (slots.drop st.1).findIdx? Slot.required with
  | some i => .error (.misfit (.tooShort (st.1 + i) title slots.length))
  | none => .ok (st.2, r)

/-- Behind the first `n` elements come the next one and what is behind it. -/
theorem drop_of_getElem? {ι : Type*} {xs : List ι} {n : Nat} {x : ι} (h : xs[n]? = some x) :
    xs.drop n = x :: xs.drop (n + 1) := by
  obtain ⟨hn, rfl⟩ := List.getElem?_eq_some_iff.mp h
  exact List.drop_eq_getElem_cons hn

/-- Where there is no next element, nothing comes behind the first `n`. -/
theorem drop_of_getElem?_none {ι : Type*} {xs : List ι} {n : Nat} (h : xs[n]? = none) :
    xs.drop n = [] :=
  List.drop_of_length_le (List.getElem?_eq_none_iff.mp h)

/-- The values of an array.  Behind the last field the array must end. -/
def placesLoop (title : String) (slots : List (Slot α)) :
    Loop .array (Nat × α) (α × List Char) where
  first st s := firstPlace Bracket.array.close s >>= Loop.atPlace (placeEntry title slots)
    (placeDone title slots) st
  entry := placeEntry title slots
  next st s :=
    match slots[st.1]? with
    | none => expectChar ']' s >>= fun r => .ok (st.2, r)
    | some _ => nextPlace Bracket.array.close s >>= Loop.atPlace (placeEntry title slots)
        (placeDone title slots) st
  done := placeDone title slots
  first_end ha := Loop.first_end_of_places (b := .array) ha
  first_close ha := by
    rw [firstPlace_append ha]
    exact congrArg (· >>= _) (firstPlace_close .array _)
  first_entry ha hv := Loop.first_entry_of_places (b := .array) ha hv
  of_first h := Loop.of_first_of_places (b := .array) h
  next_end ha := by
    split
    · rw [expectChar, gap_eq_nil_iff.mpr ha]
      rfl
    · exact Loop.next_end_of_places (b := .array) ha
  next_close {st a r} ha := by
    split
    · next hnone =>
        have hexpect : expectChar ']' (a ++ ']' :: r) = .ok r := by
          rw [expectChar_append ha, expectChar_cons (by decide)]
        rw [placeDone, drop_of_getElem?_none hnone]
        exact congrArg (· >>= _) hexpect
    · rw [nextPlace_append ha]
      exact congrArg (· >>= _) (nextPlace_close .array _)
  next_entry {st a a' v} ha ha' hv := by
    split
    · next hnone =>
        have hexpect : expectChar ']' (a ++ ',' :: (a' ++ v)) = .error .malformed := by
          rw [expectChar_append ha, expectChar, gap_cons (by decide)]
          rfl
        rw [placeEntry, hnone, hexpect]
        rfl
    · exact Loop.next_entry_of_places (b := .array) ha ha' hv
  of_next {st s out} h := by
    split at h
    · next hnone =>
        obtain ⟨r, hexpect, hout⟩ := bind_eq_ok.mp h
        obtain ⟨a, ha, rfl⟩ := (expectChar_eq_ok_iff (by decide)).mp hexpect
        refine .inl ⟨a, r, ha, rfl, ?_⟩
        rw [placeDone, drop_of_getElem?_none hnone]
        exact hout
    · exact Loop.of_next_of_places (b := .array) h

section Array

variable {L : Layout α} {slots : List (Slot α)} {title : String} {n : Nat} {x y : α}

/-- The places of an array, from one field on. -/
theorem positional_drop {slot : Slot α} (hslot : slots[n]? = some slot) (x : α) (s : List Char) :
    positional title slots.length (slots.drop n) x s =
      (placeAt n ']' s >>=
        Loop.atPlace (placeEntry title slots) (placeDone title slots) (n, x)) := by
  have hdrop := drop_of_getElem? hslot
  have hindex : slots.length - ((slots.drop (n + 1)).length + 1) = n := by
    have hlength := congrArg List.length hdrop
    have hn := (List.getElem?_eq_some_iff.mp hslot).1
    rw [List.length_drop]
    omega
  rw [hdrop, positional, hindex]
  refine congrArg (placeAt n ']' s >>= ·) (funext fun place => ?_)
  cases place with
  | closed r =>
      show _ = placeDone title slots (n, x) r
      rw [placeDone, hdrop]
      cases (slot :: slots.drop (n + 1)).findIdx? Slot.required <;> rfl
  | entry r =>
      show _ = placeEntry title slots (n, x) r
      rw [placeEntry, hslot]

/-- Behind a value there may be a further one, if there is a field left for it. -/
theorem next_placesLoop {slot : Slot α} (hslot : slots[n]? = some slot) (x : α) (s : List Char) :
    (placesLoop title slots).next (n, x) s =
      (nextPlace Bracket.array.close s >>=
        Loop.atPlace (placeEntry title slots) (placeDone title slots) (n, x)) := by
  simp only [placesLoop, hslot]

/-- The rest of an array goes on at the next place. -/
theorem positional_next (n : Nat) (x : α) (s : List Char) :
    positional title slots.length (slots.drop (n + 1)) x s =
      (placesLoop title slots).next (n + 1, x) s := by
  cases hslot : slots[n + 1]? with
  | none =>
      rw [drop_of_getElem?_none hslot, positional]
      simp only [placesLoop, hslot]
      rfl
  | some slot =>
      rw [positional_drop hslot, next_placesLoop hslot, placeAt, if_neg (Nat.succ_ne_zero n)]
      rfl

/-- The array form of a record is read by the loop over its places. -/
theorem run_positional (hslots : slots ≠ []) (s : List Char) :
    (Tail.positional title slots x).run s = (placesLoop title slots).first (0, x) s := by
  obtain ⟨slot, rest, rfl⟩ := List.exists_cons_of_ne_nil hslots
  exact positional_drop (n := 0) rfl x s

/-- **A row of values** gives the next parts in their order. -/
theorem Layout.chain_places_iff {m : Nat} {vs : List (List Char)} :
    Chain L.PlaceStep (n, x) vs (m, y) ↔
      m = n + vs.length ∧
        List.Forall₂ (fun part v => part.Shows y v) ((L.parts.drop n).take vs.length) vs ∧
        ∀ part ∈ L.parts, part ∉ (L.parts.drop n).take vs.length →
          part.value y = part.value x := by
  constructor
  · generalize hst : (n, x) = st
    generalize hst' : (m, y) = st'
    intro h
    induction h generalizing n x with
    | nil =>
        subst hst'
        cases hst
        exact ⟨rfl, .nil, fun _ _ _ => rfl⟩
    | @cons st st₁ st' v vs hstep _ ih =>
        subst hst hst'
        obtain ⟨part, hpart, b, hv, rfl⟩ := hstep
        obtain ⟨rfl, hshows, hrest⟩ := ih rfl rfl
        have hdrop := drop_of_getElem? hpart
        have htake : (L.parts.drop n).take (v :: vs).length =
            part :: (L.parts.drop (n + 1)).take vs.length := by
          rw [hdrop]
          rfl
        have hmem : part ∈ L.parts := List.mem_of_getElem? hpart
        have hlast : part ∉ (L.parts.drop (n + 1)).take vs.length := by
          have honce := L.nodup_parts.sublist (List.drop_sublist n L.parts)
          rw [hdrop] at honce
          exact fun h => (List.nodup_cons.mp honce).1 (List.mem_of_mem_take h)
        have hvalue : part.value y = b :=
          (hrest part hmem hlast).trans (part.value_store b x)
        have hhead : part.Shows y v := by
          rw [Part.Shows, hvalue]
          exact hv
        refine ⟨by simp only [List.length_cons]; omega, ?_, fun other hother hnot => ?_⟩
        · rw [htake]
          exact .cons hhead hshows
        · rw [htake] at hnot
          obtain ⟨hne, hlate⟩ := not_or.mp (mt List.mem_cons.mpr hnot)
          refine (hrest other hother hlate).trans (L.frame other hother part hmem ?_ b x)
          exact fun hname => hne (part_eq_of_name hother hmem hname)
  · rintro ⟨rfl, hshows, hrest⟩
    induction vs generalizing n x with
    | nil =>
        have hx : y = x := L.ext y x fun part hpart => hrest part hpart List.not_mem_nil
        rw [hx]
        exact .nil
    | cons v vs ih =>
        cases hpart : L.parts[n]? with
        | none =>
            rw [drop_of_getElem?_none hpart] at hshows
            cases hshows
        | some part =>
            have hdrop := drop_of_getElem? hpart
            have hmem : part ∈ L.parts := List.mem_of_getElem? hpart
            rw [hdrop] at hshows hrest
            obtain _ | ⟨hhead, htail⟩ := hshows
            have hnext := ih (n := n + 1) (x := part.store (part.value y) x) htail ?_
            · rw [Nat.add_right_comm, Nat.add_assoc] at hnext
              exact .cons ⟨part, hpart, part.value y, hhead, rfl⟩ hnext
            · intro other hother hlate
              by_cases hname : other.name = part.name
              · obtain rfl := part_eq_of_name hother hmem hname
                exact (other.value_store _ _).symm
              · rw [L.frame other hother part hmem hname]
                refine hrest other hother (mt List.mem_cons.mp (not_or.mpr ⟨?_, hlate⟩))
                exact fun h => hname (congrArg Part.name h)

/-- The first values of an array are put in their places. -/
theorem Layout.exists_chain_places {a : α} {vs : List (List Char)}
    (hshows : List.Forall₂ (fun part u => part.Shows a u) ((L.parts.drop n).take vs.length) vs) :
    ∃ y, Chain L.PlaceStep (n, x) vs (n + vs.length, y) := by
  induction vs generalizing n x with
  | nil => exact ⟨x, .nil⟩
  | cons v vs ih =>
      cases hpart : L.parts[n]? with
      | none =>
          rw [drop_of_getElem?_none hpart] at hshows
          cases hshows
      | some part =>
          rw [drop_of_getElem? hpart] at hshows
          obtain _ | ⟨hhead, htail⟩ := hshows
          obtain ⟨y, hchain⟩ := ih (x := part.store (part.value a) x) htail
          rw [Nat.add_right_comm] at hchain
          exact ⟨y, .cons ⟨part, hpart, part.value a, hhead, rfl⟩ hchain⟩

/-- A record with parts has slots. -/
theorem Layout.ReadBy.slots_ne_nil {Law : (part : Part α) → Reader part.β → Prop}
    (hL : L.ReadBy Law slots) (hparts : L.parts ≠ []) : slots ≠ [] := by
  rintro rfl
  exact hparts (List.forall₂_nil_right_iff.mp hL)

/-- The slot at the place of a part reads it. -/
theorem Layout.ReadBy.getElem? {Law : (part : Part α) → Reader part.β → Prop} {part : Part α}
    (hL : L.ReadBy Law slots) (h : L.parts[n]? = some part) :
    ∃ slot, slots[n]? = some slot ∧ part.ReadBy Law slot := by
  have hdrop := List.forall₂_drop n hL
  rw [drop_of_getElem? h] at hdrop
  generalize hrest : slots.drop n = rest at hdrop
  obtain _ | ⟨hread, -⟩ := hdrop
  exact ⟨_, by rw [← List.head?_drop, hrest]; rfl, hread⟩

/-- The loop over places takes the values of the parts in their order. -/
theorem follows_places (hL : L.ReadBy Part.Taken slots) :
    (placesLoop title slots).Follows L.PlaceStep where
  isEntry := by
    rintro st v _ ⟨part, hpart, b, hv, rfl⟩
    obtain ⟨slot, -, rd, hrd, -⟩ := hL.getElem? hpart
    exact hrd.isEntry hv
  entry_append := by
    rintro ⟨n, x⟩ v _ r ⟨part, hpart, b, hv, rfl⟩ -
    obtain ⟨slot, hslot, rd, hrd, rfl⟩ := hL.getElem? hpart
    have hread : (rd.map part.store).run (v ++ r) = .ok (part.store b, r) :=
      map_eq_ok.mpr ⟨_, hrd.run_append hv blank_nil r, rfl⟩
    show placeEntry title slots (n, x) (v ++ r) = _
    rw [placeEntry, hslot]
    dsimp only
    rw [hread]
    exact positional_next n (part.store b x) r

/-- The loop over places takes nothing but values of the parts in their order. -/
theorem shows_places (hL : L.ReadBy Part.OnlyTaken slots) (k : Nat) :
    (placesLoop title slots).Shows L.PlaceStep k := by
  rintro ⟨n, x⟩ s out - h
  have hentry : placeEntry title slots (n, x) s = .ok out := h
  rw [placeEntry] at hentry
  split at hentry
  · cases hentry
  · next slot hslot =>
      obtain ⟨⟨change, r⟩, hread, hout⟩ := bind_eq_ok.mp hentry
      have hn : n < L.parts.length := by
        rw [List.Forall₂.length_eq hL]
        exact (List.getElem?_eq_some_iff.mp hslot).1
      have hpart := List.getElem?_eq_getElem hn
      generalize L.parts[n] = part at hpart
      obtain ⟨slot', hslot', rd, hrd, rfl⟩ := hL.getElem? hpart
      obtain rfl := Option.some.inj (hslot.symm.trans hslot')
      obtain ⟨⟨b, t⟩, hvalue, hchange⟩ := map_eq_ok.mp hread
      cases hchange
      obtain ⟨a, v, ha, hv, hform, hs⟩ := hrd hvalue
      exact ⟨a, v, (n + 1, part.store b x), t, ha, hv, ⟨part, hpart, b, hform, rfl⟩, hs,
        (positional_next n (part.store b x) t).symm.trans hout⟩

/-- An array may end where no part that must be given is left. -/
theorem placeDone_eq_ok_iff {Law : (part : Part α) → Reader part.β → Prop}
    (hL : L.ReadBy Law slots) {r : List Char} {out : α × List Char} :
    placeDone title slots (n, x) r = .ok out ↔
      (∀ part ∈ L.parts.drop n, part.default? ≠ none) ∧ out = (x, r) := by
  have hdrop : List.Forall₂ (Part.ReadBy Law) (L.parts.drop n) (slots.drop n) :=
    List.forall₂_drop n hL
  have hlack : (slots.drop n).findIdx? Slot.required = none ↔
      ∀ part ∈ L.parts.drop n, part.default? ≠ none := by
    rw [List.findIdx?_eq_none_iff]
    constructor
    · intro hslots part hpart hnone
      have hflip : List.Forall₂ (flip (Part.ReadBy Law)) (slots.drop n) (L.parts.drop n) :=
        List.Forall₂.flip hdrop
      obtain ⟨slot, hslot, hread⟩ := exists_of_forall₂ hflip part hpart
      exact absurd (hread.required_iff.mpr hnone) (by simp [hslots slot hslot])
    · intro hparts slot hslot
      obtain ⟨part, hpart, hread⟩ := exists_of_forall₂ hdrop slot hslot
      exact Bool.eq_false_iff.mpr (mt hread.required_iff.mp (hparts part hpart))
  rw [← hlack, placeDone]
  split
  · next i hfind => simp only [hfind, reduceCtorEq, false_and]
  · next hnone => simp only [hnone, true_and, Except.ok.injEq, eq_comm]

/-- **A record in the array form** is read as what it presents. -/
theorem positional_append (hL : L.ReadBy Part.Taken slots) (hparts : L.parts ≠ [])
    {w : List Char} (hw : L.array x ('[' :: w)) (r : List Char) :
    (Tail.positional title slots L.blank).run (w ++ r) = .ok (x, r) := by
  obtain ⟨vs, v, hshows, hlack, hv, hw⟩ := hw
  cases hw
  have hchain : Chain L.PlaceStep (0, L.blank) vs (vs.length, x) := by
    refine Layout.chain_places_iff.mpr ⟨(Nat.zero_add _).symm, hshows, fun part hpart hnot => ?_⟩
    have hleft : part ∈ L.parts.drop vs.length := by
      rw [← List.take_append_drop vs.length L.parts] at hpart
      exact (List.mem_append.mp hpart).resolve_left hnot
    exact (L.value_blank part hpart _ (hlack part hleft)).symm
  have hdone : placeDone title slots (vs.length, x) r = .ok (x, r) := by
    refine (placeDone_eq_ok_iff hL).mpr ⟨fun part hpart hnone => ?_, rfl⟩
    have hdefault : part.default? = some (part.value x) := hlack part hpart
    rw [hnone] at hdefault
    cases hdefault
  rw [run_positional (hL.slots_ne_nil hparts), Loop.first_encloses (follows_places hL) hv hchain]
  exact hdone

/-- What is read as the array form of a record is one. -/
theorem of_positional (hL : L.ReadBy Part.OnlyTaken slots) (hparts : L.parts ≠ [])
    {s r : List Char} (h : (Tail.positional title slots L.blank).run s = .ok (x, r)) :
    ∃ w, L.array x ('[' :: w) ∧ s = w ++ r := by
  rw [run_positional (hL.slots_ne_nil hparts)] at h
  obtain ⟨vs, w, ⟨m, y⟩, t, hw, hchain, rfl, hdone⟩ :=
    Loop.of_first_enclosed (shows_places hL _) (Nat.lt_succ_self _) h
  obtain ⟨hrequired, hout⟩ := (placeDone_eq_ok_iff hL).mp hdone
  cases hout
  obtain ⟨rfl, hshows, hrest⟩ := Layout.chain_places_iff.mp hchain
  rw [Nat.zero_add] at hrequired
  refine ⟨w, ⟨vs, w, hshows, fun part hpart => ?_, hw, rfl⟩, rfl⟩
  have hmem : part ∈ L.parts := List.mem_of_mem_drop hpart
  have hnot : part ∉ L.parts.take vs.length := fun htake =>
    List.disjoint_take_drop L.nodup_parts (Nat.le_refl _) htake hpart
  obtain ⟨b, hb⟩ := Option.ne_none_iff_exists'.mp (hrequired part hpart)
  rw [Part.MayLack, hb, hrest part hmem hnot, L.value_blank part hmem b hb]

end Array

/-! ## Records -/

namespace Reader

variable {L : Layout α} {slots : List (Slot α)} {title : String} {Other : List Char → Prop}

/-- **A record is read as what it presents,** in either form. -/
theorem takes_record (hL : L.ReadBy Part.Taken slots) (hparts : L.parts ≠ [])
    (hOther : ∀ {u}, Other u → IsValue u) :
    (record title slots L.blank).Takes (L.form Other) where
  isEntry := by
    rintro x _ (⟨_, _, v, _, _, _, _, rfl⟩ | ⟨_, v, _, _, _, rfl⟩)
    · exact isEntry_cons (by decide) v
    · exact isEntry_cons (by decide) v
  run_append := by
    rintro x b w (hw | hw) hb r
    · obtain ⟨_, _, v, _, _, _, _, rfl⟩ := id hw
      exact (byFirst_run hb (by decide) rfl _).trans (members_append hL hOther hw r)
    · obtain ⟨_, v, _, _, _, rfl⟩ := id hw
      exact (byFirst_run hb (by decide) rfl _).trans (positional_append hL hparts hw r)

/-- **What is read as a record presents it.** -/
theorem takesOnly_record (hL : L.ReadBy Part.OnlyTaken slots) (hparts : L.parts ≠ []) :
    (record title slots L.blank).TakesOnly (L.form IsValue) := by
  intro s x r h
  obtain ⟨a, c, t, u, ha, hbranch, rfl, hrun⟩ := of_byFirst h
  split at hbranch
  · next hc =>
      cases hbranch
      obtain ⟨w, hw, rfl⟩ := of_members hL hrun
      exact ⟨a, _, ha, isEntry_cons (by decide) w, .inl hw,
        by rw [hc]; rfl⟩
  · split at hbranch
    · next hc =>
        cases hbranch
        obtain ⟨w, hw, rfl⟩ := of_positional hL hparts hrun
        exact ⟨a, _, ha, isEntry_cons (by decide) w, .inr hw,
          by rw [hc]; rfl⟩
    · cases hbranch

/-- A record that may not be opened has no form that could be missed. -/
theorem takes_closedRecord : (closedRecord title : Reader α).Takes .closed where
  isEntry h := h.elim
  run_append h := h.elim

/-- Nothing is taken for a record that may not be opened. -/
theorem takesOnly_closedRecord : (closedRecord title : Reader α).TakesOnly .closed := by
  intro s x r h
  obtain ⟨a, c, t, u, -, hbranch, -, hrun⟩ := of_byFirst h
  split at hbranch
  · cases hbranch
    cases hrun
  · cases hbranch

end Reader

end QueryFilter.Json
