import QueryFilter.Proofs.Acceptance

/-!
# A second key for a field

A text is read from its front, so a fault is reported where it is met, whatever comes
behind it.  A second key for a field that was given is such a fault, and the key alone is
enough: neither a colon nor a value need follow.

A `Way` is what leads into a presentation, from its beginning up to some place.  The ways
followed here end behind a second key, in any record of a tree, and they are made along
the forms: past the members or values in front, and into the next one.  A reader stops at
the end of such a way, and so do the readers made of it.

* `Layout.Leads` — the ways to a second key in a record, or in a part of it;
* `Reader.Stops` — the law that a reader reports a fault at the end of a way;
* `Reader.stops_list`, `Reader.stops_table`, `Reader.stops_record` — how it is passed on;
* `ofJson_second_key` — no text with a second key for a field is accepted.
-/

namespace QueryFilter.Json

/-- What leads into the presentations of a value, up to some place in them. -/
abbrev Way := List Char → Prop

variable {α : Type}

/-- Into a value of an array. -/
def Way.list (F : Form α) (W : Way) : Way := fun p =>
  ∃ xs vs v q, List.Forall₂ F xs vs ∧ Upto vs v ∧ W q ∧ p = '[' :: (v ++ q)

/-- Into a value under a name. -/
def Way.table (F : Form α) (W : Way) : Way := fun p =>
  ∃ (es : List (String × α)) (ms : List (List Char)) (v : List Char) (name : String)
    (q m : List Char),
    List.Forall₂ (fun e m => ∃ u, Keyed .kept e.1.toList u m ∧ F e.2 u) es ms ∧ Upto ms v ∧
      W q ∧ Keyed .kept name.toList q m ∧ p = '\x7b' :: (v ++ m)

/-- Through a record up to a second key for `field`, and over this key.  The record itself
may have the key, or the way goes on into one of its parts, by one of the ways given for
the name of this part. -/
inductive Layout.Leads (L : Layout α) (Other : List Char → Prop) (field : String)
    (ways : List (String × Way)) : Way
  | second {a : α} {given : List (Option (Part α))} {ms : List (List Char)} {v k : List Char}
      {part : Part α} {key : String} (hmembers : List.Forall₂ (L.Member Other a) given ms)
      (honce : (names given).Nodup) (hv : Upto ms v) (hpart : part ∈ L.parts)
      (hfield : part.name = field) (hgiven : field ∈ names given) (hkey : key ∈ part.keys)
      (hk : Quoted .kept key.toList k) : Leads L Other field ways ('\x7b' :: (v ++ k))
  | member {a : α} {given : List (Option (Part α))} {ms : List (List Char)}
      {v q m : List Char} {part : Part α} {W : Way}
      (hmembers : List.Forall₂ (L.Member Other a) given ms) (honce : (names given).Nodup)
      (hv : Upto ms v) (hpart : part ∈ L.parts) (hnew : part.name ∉ names given)
      (hm : part.Gives q m) (hway : (part.name, W) ∈ ways) (hq : W q) :
      Leads L Other field ways ('\x7b' :: (v ++ m))
  | value {a : α} {vs : List (List Char)} {v q : List Char} {part : Part α} {W : Way}
      (hshows : List.Forall₂ (fun part u => part.Shows a u) (L.parts.take vs.length) vs)
      (hv : Upto vs v) (hpart : L.parts[vs.length]? = some part)
      (hway : (part.name, W) ∈ ways) (hq : W q) : Leads L Other field ways ('[' :: (v ++ q))

/-- Whether a reader reports the fault `f` at the end of a way, whatever comes behind. -/
structure Reader.Stops (rd : Reader α) (W : Way) (f : Fault) : Prop where
  isEntry : ∀ {p}, W p → IsEntry p
  run_append : ∀ {b p}, W p → Blank b → ∀ s, rd.run (b ++ (p ++ s)) = .error f

variable {f : Fault} {W : Way} {b s w : List Char}

/-! ## Ways through brackets -/

section Brackets

variable {σ : Type} {c : Bracket} {entry : σ → Reader σ} {st st' : σ}
  {Step : σ → List Char → σ → Prop} {vs : List (List Char)}

/-- The fault at an entry is that of the array or object. -/
theorem run_entries_upto (hL : (entriesLoop c entry).Follows Step) (hw : Upto vs w)
    (hvs : Chain Step st vs st') {u : List Char} (hu : IsEntry u)
    (h : (entry st').run u = .error f) :
    (Tail.entries c.close entry st).run (w ++ u) = .error f := by
  rw [run_entries, Loop.first_upto hL hw hvs hu]
  exact Tail.entries_of_error h

variable {item : Reader α} {F : Form α}

namespace Reader

/-- A list stops where one of its values does. -/
theorem stops_list (hitem : item.Takes F) (hstops : item.Stops W f) :
    item.list.Stops (.list F W) f where
  isEntry := by
    rintro _ ⟨xs, vs, v, q, -, -, -, rfl⟩
    exact isEntry_cons (by decide) (v ++ q)
  run_append := by
    rintro b _ ⟨xs, vs, v, q, hxs, hv, hq, rfl⟩ hb s
    have hentry : (gather item (xs.reverse ++ [])).run (q ++ s) = .error f :=
      run_map_error (hstops.run_append hq blank_nil s) _
    have hrun := run_entries_upto (c := .array) (follows_gather hitem) hv
      (chain_gathers_iff.mpr ⟨xs, hxs, rfl⟩) ((hstops.isEntry hq).append s) hentry
    rw [List.cons_append, List.append_assoc, list, byFirst_run hb (by decide) rfl]
    show ((Tail.entries ']' (gather item) []).run (v ++ (q ++ s))).map _ = _
    exact congrArg (Except.map _) hrun

/-- The fault of the value under a key is that of the member. -/
theorem keyed_stops {choose : String → Except Fault (Reader α)} {key : String} {rd : Reader α}
    {q m : List Char} (hm : Keyed .kept key.toList q m) (hchoose : choose key = .ok rd)
    (h : ∀ {b}, Blank b → rd.run (b ++ (q ++ s)) = .error f) :
    (keyed choose).run (m ++ s) = .error f := by
  obtain ⟨k, a, b, hk, ha, hb, rfl⟩ := hm
  simp only [List.append_assoc, List.cons_append]
  refine (keyed_run blank_nil hk ha (b ++ (q ++ s))).trans ?_
  rw [hchoose]
  exact h hb

/-- A key that may not stand is the fault of the member, before its colon. -/
theorem keyed_stops_at_key {choose : String → Except Fault (Reader α)} {key : String}
    {k : List Char} (hk : Quoted .kept key.toList k) (hchoose : choose key = .error f)
    (s : List Char) : (keyed choose).run (k ++ s) = .error f := by
  refine (keyed_run_key blank_nil hk s).trans ?_
  rw [hchoose]
  rfl

/-- A table stops where one of its values does. -/
theorem stops_table (hitem : item.Takes F) (hstops : item.Stops W f) :
    item.table.Stops (.table F W) f where
  isEntry := by
    rintro _ ⟨es, ms, v, name, q, m, -, -, -, -, rfl⟩
    exact isEntry_cons (by decide) (v ++ m)
  run_append := by
    rintro b _ ⟨es, ms, v, name, q, m, hes, hv, hq, hm, rfl⟩ hb s
    have hentry : ∀ t, (nameIn item t).run (m ++ s) = .error f := fun t =>
      keyed_stops hm rfl fun hb => run_map_error (hstops.run_append hq hb s) _
    rw [List.cons_append, List.append_assoc, table, byFirst_run hb (by decide) rfl]
    exact run_entries_upto (c := .object) (follows_nameIn hitem) hv
      (chain_names_iff.mpr ⟨es, hes, rfl⟩) ((isEntry_keyed hm).append s) (hentry _)

end Reader

end Brackets

/-! ## Ways through records -/

section Records

variable {L : Layout α} {slots : List (Slot α)} {Other : List Char → Prop}

/-- The law for a part whose reader stops at the end of the ways into it. -/
def Part.Stopping (ways : List (String × Way)) (f : Fault) (part : Part α)
    (rd : Reader part.β) : Prop :=
  part.Taken rd ∧ ∀ W, (part.name, W) ∈ ways → rd.Stops W f

variable {field : String} {ways : List (String × Way)}

/-- At a second key for a field the object stops. -/
theorem member_second (hL : L.ReadBy Part.Taken slots) {part : Part α} {key : String}
    {k : List Char} (hpart : part ∈ L.parts) (hkey : key ∈ part.keys)
    (hk : Quoted .kept key.toList k) {x : Filling α} (hgiven : part.name ∈ x.given)
    (s : List Char) :
    (x.member slots).run (k ++ s) = .error (.misfit (.duplicateField part.name)) := by
  obtain ⟨slot, hfind, rd, -, rfl⟩ := hL.choose_part hpart hkey
  refine Reader.keyed_stops_at_key hk ?_ s
  rw [Filling.choose, hfind]
  exact if_pos hgiven

/-- In the value of a part the object stops where the value does. -/
theorem member_inside (hL : L.ReadBy (Part.Stopping ways f) slots) {part : Part α}
    {q m : List Char} (hpart : part ∈ L.parts) (hm : part.Gives q m) (hq : W q)
    (hway : (part.name, W) ∈ ways) {x : Filling α} (hnew : part.name ∉ x.given)
    (s : List Char) : (x.member slots).run (m ++ s) = .error f := by
  obtain ⟨key, hkey, hkeyed⟩ := hm
  obtain ⟨slot, hfind, rd, ⟨-, hstops⟩, rfl⟩ := hL.choose_part hpart hkey
  refine Reader.keyed_stops hkeyed (by rw [Filling.choose, hfind]; exact if_neg hnew) fun hb => ?_
  exact Reader.run_map_error (Reader.run_map_error ((hstops W hway).run_append hq hb s) _) _

/-- In a value of an array the record stops where the value does. -/
theorem place_inside (hL : L.ReadBy (Part.Stopping ways f) slots) {title : String}
    {part : Part α} {n : Nat} {x : α} {q : List Char} (hpart : L.parts[n]? = some part)
    (hq : W q) (hway : (part.name, W) ∈ ways) (s : List Char) :
    placeEntry title slots (n, x) (q ++ s) = .error f := by
  obtain ⟨slot, hslot, rd, ⟨-, hstops⟩, rfl⟩ := hL.getElem? hpart
  have hread : (rd.map part.store).run (q ++ s) = .error f :=
    Reader.run_map_error ((hstops W hway).run_append hq blank_nil s) _
  rw [placeEntry, hslot]
  dsimp only
  rw [hread]
  rfl

/-- **A record stops at a second key for a field,** its own or that of a part. -/
theorem Reader.stops_record {title : String}
    (hL : L.ReadBy (Part.Stopping ways (.misfit (.duplicateField field))) slots)
    (hparts : L.parts ≠ []) (hOther : ∀ {u}, Other u → IsValue u) :
    (record title slots L.blank).Stops (L.Leads Other field ways)
      (.misfit (.duplicateField field)) := by
  have htaken : L.ReadBy Part.Taken slots := hL.imp fun _ _ h => h.1
  -- the fault at a member is that of the object
  have hobject : ∀ {a : α} {given : List (Option (Part α))} {ms : List (List Char)}
      {v u : List Char}, List.Forall₂ (L.Member Other a) given ms →
      (Layout.names given).Nodup → Upto ms v → IsEntry u →
      (∀ x : Filling α, x.given = (Layout.names given).reverse ++ [] →
        (x.member slots).run u = .error (.misfit (.duplicateField field))) →
      (Tail.members slots L.blank).run (v ++ u) = .error (.misfit (.duplicateField field)) := by
    intro a given ms v u hmembers honce hv hu hrun
    obtain ⟨x, hchain, hgiven⟩ := Layout.exists_chain_fills hmembers honce
      (f := ⟨[], L.blank⟩) fun _ _ => List.not_mem_nil
    have hentries := run_entries_upto (c := .object) (follows_member htaken hOther) hv hchain hu
      (hrun x hgiven)
    show (Tail.entries '\x7d' (Filling.member slots) ⟨[], L.blank⟩).run (v ++ u) >>= _ = _
    exact congrArg (· >>= _) hentries
  constructor
  · rintro _ (_ | _ | _) <;>
      exact isEntry_cons (by decide) _
  · rintro b _ hp hb s
    cases hp with
    | @second a given ms v k part key hmembers honce hv hpart hfield hgiven hkey hk =>
        subst hfield
        rw [List.cons_append, List.append_assoc, record, byFirst_run hb (by decide) rfl]
        refine hobject hmembers honce hv ((isEntry_quoted hk).append s) fun x hx => ?_
        exact member_second htaken hpart hkey hk (by simpa [hx] using hgiven) s
    | @member a given ms v q m part W hmembers honce hv hpart hnew hm hway hq =>
        rw [List.cons_append, List.append_assoc, record, byFirst_run hb (by decide) rfl]
        have hentry : IsEntry m := by
          obtain ⟨key, -, hkeyed⟩ := id hm
          exact isEntry_keyed hkeyed
        refine hobject hmembers honce hv (hentry.append s) fun x hx => ?_
        exact member_inside hL hpart hm hq hway (by simpa [hx] using hnew) s
    | @value a vs v q part W hshows hv hpart hway hq =>
        obtain ⟨y, hchain⟩ := Layout.exists_chain_places (n := 0) (x := L.blank) hshows
        rw [Nat.zero_add] at hchain
        obtain ⟨slot, -, rd, ⟨-, hstops⟩, -⟩ := hL.getElem? hpart
        rw [List.cons_append, List.append_assoc, record, byFirst_run hb (by decide) rfl]
        show (Tail.positional title slots L.blank).run (v ++ (q ++ s)) = _
        rw [run_positional (hL.slots_ne_nil hparts),
          Loop.first_upto (follows_places htaken) hv hchain
            (((hstops W hway).isEntry hq).append s)]
        exact place_inside hL hpart hq hway s

end Records

end QueryFilter.Json

namespace QueryFilter

open Json (IsValue Way)

variable (Other : List Char → Prop) (field : String)

/-! ## Ways to a second key -/

/-- Through a rule, where `room` brackets may be opened. -/
def Rule.leads : Nat → Way
  | 0 => fun _ => False
  | _ + 1 => Rule.layout.Leads Other field []

/-- Through a group, where `room` brackets may be opened. -/
def Group.leads : Nat → Way
  | 0 => fun _ => False
  | 1 => (Group.layout .closed .closed).Leads Other field []
  | room + 2 =>
      (Group.layout (.list (Rule.form Other room)) (.list (Group.form Other room))).Leads Other
        field
        [("rules", .list (Rule.form Other room) (Rule.leads Other field room)),
         ("groups", .list (Group.form Other room) (Group.leads room))]

/-- Through a field. -/
def Field.leads : Way := Field.layout.Leads Other field []

/-- Through an entity. -/
def Entity.leads : Way :=
  (Entity.layout Other).Leads Other field
    [("fields", .list (Field.layout.form Other) (Field.leads Other field))]

/-- Through a catalog. -/
def Catalog.leads : Way :=
  (Catalog.layout Other).Leads Other field
    [("entities", .table ((Entity.layout Other).form Other) (Entity.leads Other field))]

/-! ## Where they end -/

section Stops

variable {Other} (hOther : ∀ {u}, Other u → IsValue u)

/-- Into a part without a way there is nothing to show. -/
theorem stopping_of_takes {α : Type} {part : Json.Part α} {rd : Json.Reader part.β}
    {f : Json.Fault} {ways : List (String × Way)} (htakes : rd.Takes part.form)
    (hnone : part.name ∉ ways.map Prod.fst) : part.Stopping ways f rd :=
  ⟨htakes, fun _ hway => absurd (List.mem_map_of_mem hway) hnone⟩

/-- Into a part there is one way, since no two are given for one name. -/
theorem stopping_of_stops {α : Type} {part : Json.Part α} {rd : Json.Reader part.β}
    {f : Json.Fault} {ways : List (String × Way)} {W : Way} (htakes : rd.Takes part.form)
    (hstops : rd.Stops W f) (hway : ∀ W', (part.name, W') ∈ ways → W' = W) :
    part.Stopping ways f rd :=
  ⟨htakes, fun W' h => (hway W' h).symm ▸ hstops⟩

include hOther

/-- A rule stops at its second key for a field. -/
theorem Rule.stops_leads (room : Nat) :
    (Rule.read room).Stops (Rule.leads Other field room) (.misfit (.duplicateField field)) := by
  cases room with
  | zero => exact ⟨fun h => h.elim, fun h => h.elim⟩
  | succ room =>
      exact Json.Reader.stops_record
        ((readBy Json.Reader.Takes Json.Reader.takes_textOrNull).imp fun _ _ h =>
          stopping_of_takes h List.not_mem_nil)
        (List.cons_ne_nil _ _) hOther

/-- A group stops at its own second key, or at that of a rule or group in it. -/
theorem Group.stops_leads : ∀ room,
    (Group.read room).Stops (Group.leads Other field room) (.misfit (.duplicateField field))
  | 0 => ⟨fun h => h.elim, fun h => h.elim⟩
  | 1 =>
      Json.Reader.stops_record
        ((readBy Json.Reader.Takes Json.Reader.takes_textOrNull Json.Reader.takes_closedList
          Json.Reader.takes_closedList).imp fun _ _ h => stopping_of_takes h List.not_mem_nil)
        (List.cons_ne_nil _ _) hOther
  | room + 2 => by
      have hrule := Rule.takes_form hOther room
      have hgroup := takes_form hOther room
      refine Json.Reader.stops_record (L := Group.layout _ _) ?_ (List.cons_ne_nil _ _) hOther
      exact .cons ⟨_, stopping_of_takes Json.Reader.takes_textOrNull (by simp), rfl⟩
        (.cons ⟨_, stopping_of_stops (Json.Reader.takes_list hrule)
          (Json.Reader.stops_list hrule (Rule.stops_leads field hOther room)) (by simp), rfl⟩
        (.cons ⟨_, stopping_of_stops (Json.Reader.takes_list hgroup)
          (Json.Reader.stops_list hgroup (stops_leads room)) (by simp), rfl⟩ .nil))

/-- A field stops at its second key for a part. -/
theorem Field.stops_leads :
    Field.read.Stops (Field.leads Other field) (.misfit (.duplicateField field)) :=
  Json.Reader.stops_record
    ((readBy Json.Reader.Takes Json.Reader.takes_text Json.Reader.takes_flag
      Json.Reader.takes_optional).imp fun _ _ h => stopping_of_takes h List.not_mem_nil)
    (List.cons_ne_nil _ _) hOther

/-- An entity stops at its own second key, or at that of a field in it. -/
theorem Entity.stops_leads :
    Entity.read.Stops (Entity.leads Other field) (.misfit (.duplicateField field)) := by
  have hfield := Field.takes_form hOther
  refine Json.Reader.stops_record (L := Entity.layout Other) ?_ (List.cons_ne_nil _ _) hOther
  exact .cons ⟨_, stopping_of_takes Json.Reader.takes_optional (by simp), rfl⟩
    (.cons ⟨_, stopping_of_takes Json.Reader.takes_optional (by simp), rfl⟩
    (.cons ⟨_, stopping_of_stops (Json.Reader.takes_list hfield)
      (Json.Reader.stops_list hfield (Field.stops_leads field hOther)) (by simp), rfl⟩ .nil))

/-- A catalog stops at its own second key, or at that of an entity in it. -/
theorem Catalog.stops_leads :
    Catalog.read.Stops (Catalog.leads Other field) (.misfit (.duplicateField field)) := by
  have hentity := Entity.takes_form hOther
  refine Json.Reader.stops_record (L := Catalog.layout Other) ?_ (List.cons_ne_nil _ _) hOther
  exact .cons ⟨_, stopping_of_stops (Json.Reader.takes_table hentity)
    (Json.Reader.stops_table hentity (Entity.stops_leads field hOther)) (by simp), rfl⟩ .nil

end Stops

/-! ## Whole texts -/

/-- **A second key for a field is a fault,** in either of its spellings, in any record of a
group or a catalog, and whatever comes behind the key.  The message has the name under
which the field is declared. -/
theorem ofJson_second_key (field : String) {b p : List Char} (hb : Json.Blank b)
    (s : List Char) :
    (Group.leads IsValue field Json.depthLimit p →
      Group.ofJson (b ++ (p ++ s)) = .error (.misfit (.duplicateField field))) ∧
    (Catalog.leads IsValue field p →
      Catalog.ofJson (b ++ (p ++ s)) = .error (.misfit (.duplicateField field))) ∧
    (Json.Fault.misfit (.duplicateField field)).message = "duplicate field `" ++ field ++ "`" := by
  refine ⟨fun hp => ?_, fun hp => ?_, ?_⟩
  · rw [Group.ofJson, Json.Reader.readAll,
      (Group.stops_leads field id Json.depthLimit).run_append hp hb]
    rfl
  · rw [Catalog.ofJson, Json.Reader.readAll, (Catalog.stops_leads field id).run_append hp hb]
    rfl
  · show "duplicate field " ++ ("`" ++ field ++ "`") = _
    rw [← String.append_assoc, ← String.append_assoc]
    rfl

/-- The operator of a rule, and whether a field is persisted, under both of their keys. -/
theorem ofJson_second_key_nested :
    Group.ofJson "\x7b\"rules\":[\x7b\"operate\":null,\"operator\"]".toList =
      .error (.misfit (.duplicateField "operator")) ∧
    Catalog.ofJson "[\x7b\"A\":[null,null,[\x7b\"exist\":true,\"persisted\"".toList =
      .error (.misfit (.duplicateField "persisted")) := by
  have hkeyed : ∀ {x v : List Char}, x.all Json.isPlain = true →
      Json.Keyed .kept x v ((Json.quoteMark :: (x ++ [Json.quoteMark])) ++ ':' :: v) :=
    fun h => Json.keyed_of_quoted (Json.quoted_of_plain h)
  have hfirst : ∀ {m : List Char}, Json.Upto [m] ([] ++ (m ++ ([] ++ ',' :: []))) :=
    .past Json.blank_nil Json.blank_nil (.here Json.blank_nil)
  have hoperate : List.Forall₂ (Rule.layout.Member IsValue {}) [some Rule.layout.parts[1]] [_] :=
    .cons (.part (List.getElem_mem _)
      ⟨"operate", by decide, hkeyed (x := "operate".toList) (by decide)⟩ (.inr ⟨rfl, rfl⟩)) .nil
  have hrule : Rule.leads IsValue "operator" 125 _ :=
    .second hoperate (by decide) hfirst
      (List.getElem_mem (l := Rule.layout.parts) (n := 1) (by decide)) rfl (by decide)
      List.mem_cons_self (Json.quoted_of_plain (x := "operator".toList) (by decide))
  have hgroup : Group.leads IsValue "operator" Json.depthLimit _ :=
    .member (a := {}) .nil .nil (.here Json.blank_nil) (List.mem_cons_of_mem _ List.mem_cons_self)
      List.not_mem_nil ⟨"rules", List.mem_cons_self, hkeyed (x := "rules".toList) (by decide)⟩
      List.mem_cons_self ⟨[], [], [], _, .nil, .here Json.blank_nil, hrule, rfl⟩
  have hexist : List.Forall₂ (Field.layout.Member IsValue { name := "" })
      [some Field.layout.parts[1]] [_] :=
    .cons (.part (List.getElem_mem _)
      ⟨"exist", by decide, hkeyed (x := "exist".toList) (by decide)⟩ rfl) .nil
  have hfield : Field.leads IsValue "persisted" _ :=
    .second hexist (by decide) hfirst
      (List.getElem_mem (l := Field.layout.parts) (n := 1) (by decide)) rfl (by decide)
      List.mem_cons_self (Json.quoted_of_plain (x := "persisted".toList) (by decide))
  have hnull : List.Forall₂ (fun part u => Json.Part.Shows part ({} : Entity) u)
      ((Entity.layout IsValue).parts.take 2) ["null".toList, "null".toList] :=
    .cons rfl (.cons rfl .nil)
  have hentity : Entity.leads IsValue "persisted" _ :=
    .value hnull (.past Json.blank_nil Json.blank_nil hfirst) rfl
      List.mem_cons_self ⟨[], [], [], _, .nil, .here Json.blank_nil, hfield, rfl⟩
  have hcatalog : Catalog.leads IsValue "persisted" _ :=
    .value (a := {}) .nil (.here Json.blank_nil) rfl List.mem_cons_self
      ⟨[], [], [], "A", _, _, .nil, .here Json.blank_nil, hentity,
        hkeyed (x := "A".toList) (by decide), rfl⟩
  have hrules := (ofJson_second_key "operator" Json.blank_nil "]".toList).1 hgroup
  have hentities := (ofJson_second_key "persisted" Json.blank_nil []).2.1 hcatalog
  exact ⟨(congrArg Group.ofJson (by decide +kernel)).trans hrules,
    (congrArg Catalog.ofJson (by decide +kernel)).trans hentities⟩

end QueryFilter
