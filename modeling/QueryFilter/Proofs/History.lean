import Mathlib.Data.List.Induction
import Mathlib.Data.Set.Card
import QueryFilter.Mapping.Cache

/-!
# The history of a cache

A cache is used for long: names are asked for, the catalog changes in between, and
now and then the cache is cleared.  What it holds at some moment depends on all that
came before.  A name was *found* at an earlier point if it was asked for there, was
known there, from the cache or from the catalog, and the cache has not been cleared
since.  The first point at which a name was found decides what is held under it.

The invariant is `Holds`: nothing is held under a name that was not found, and
otherwise what the catalog gave at the first point.  Asking for the name is the only
event that can turn the one case into the other, and it cannot turn it back.

* `found_concat` — what one more event adds to the points at which a name was found;
* `Holds.skip`, `Holds.ask` — one event keeps the invariant;
* `holds_after` — so it holds after every history;
* `history_decides` — and the history decides what is held and answered.
-/

namespace QueryFilter.Mapping.Cache

/-- What can happen while a cache is in use. -/
inductive Event where
  | ask (name : String)
  | clear
  | change (edit : Catalog → Catalog)

/-- The change of a catalog by inserting an entity. -/
def Event.insert (name : String) (e : Entity) : Event := .change fun c => c.insert name e

/-- A cache, and the catalog it is asked with. -/
structure Moment where
  cache : Cache
  catalog : Catalog

namespace Moment

/-- The mapping that is answered for a name. -/
def answer (m : Moment) (name : String) : Option Mapping := (m.cache.get m.catalog name).1

/-- The moment after an event. -/
def next (m : Moment) : Event → Moment
  | .ask name => ⟨(m.cache.get m.catalog name).2, m.catalog⟩
  | .clear => ⟨m.cache.clear, m.catalog⟩
  | .change edit => ⟨m.cache, edit m.catalog⟩

/-- The moment after a history that began with the catalog `c` and the empty cache. -/
def after (c : Catalog) (history : List Event) : Moment := history.foldl next ⟨{}, c⟩

/-- Whether a name is cached, or in the catalog. -/
def Knows (m : Moment) (name : String) : Prop :=
  name ∈ m.cache.entries.names ∨ name ∈ m.catalog.names

/-- What a history comes to is what its last event makes of what was before. -/
theorem after_concat (c : Catalog) (history : List Event) (event : Event) :
    after c (history ++ [event]) = (after c history).next event := by
  rw [after, List.foldl_append]
  rfl

/-- Only a name that is not known is answered by nothing. -/
theorem answer_eq_none_iff {m : Moment} {name : String} :
    m.answer name = none ↔ ¬m.Knows name := by
  rw [answer, get_fst, Option.or_eq_none_iff, Table.find?_eq_none_iff, ofCatalog?_eq_none_iff,
    Knows, not_or]

/-- Asking for such a name changes nothing. -/
theorem next_ask_of_not_knows {m : Moment} {name : String} (h : ¬m.Knows name) :
    m.next (.ask name) = m := by
  obtain ⟨hcache, hcatalog⟩ := not_or.mp h
  rw [next, get_of_unknown (Table.find?_eq_none_iff.mpr hcache)
    (ofCatalog?_eq_none_iff.mpr hcatalog)]

end Moment

open Moment

/-- Whether a name was found in a history, right after the part `past` of it: it was
asked for and known there, and the cache has not been cleared since. -/
structure Found (c : Catalog) (history past : List Event) (name : String) : Prop where
  asked : ∃ since, history = past ++ .ask name :: since ∧ .clear ∉ since
  known : (after c past).Knows name

/-- Whether a name was found there for the first time. -/
structure FirstFound (c : Catalog) (history past : List Event) (name : String) : Prop
    extends Found c history past name where
  first : ∀ other, Found c history other name → past <+: other

variable {c : Catalog} {history past : List Event} {name : String} {event : Event}

/-! ## Points at which a name was found -/

/-- Nothing is found before the first event. -/
theorem not_found_nil : ¬Found c [] past name := by
  rintro ⟨⟨since, h, -⟩, -⟩
  simp at h

/-- What one more event adds to the points at which a name was found. -/
theorem found_concat :
    Found c (history ++ [event]) past name ↔
      event ≠ .clear ∧ (Found c history past name ∨
        event = .ask name ∧ past = history ∧ (after c history).Knows name) := by
  constructor
  · rintro ⟨⟨since, hsplit, hclear⟩, hknown⟩
    rcases List.eq_nil_or_concat' since with rfl | ⟨since, last, rfl⟩
    · obtain ⟨rfl, hlast⟩ := List.append_inj' hsplit rfl
      cases hlast
      exact ⟨nofun, .inr ⟨rfl, rfl, hknown⟩⟩
    · rw [← List.cons_append, ← List.append_assoc] at hsplit
      obtain ⟨rfl, hlast⟩ := List.append_inj' hsplit rfl
      cases hlast
      rw [List.mem_append, not_or, List.mem_singleton] at hclear
      exact ⟨Ne.symm hclear.2, .inl ⟨⟨since, rfl, hclear.1⟩, hknown⟩⟩
  · rintro ⟨hevent, ⟨⟨since, rfl, hclear⟩, hknown⟩ | ⟨rfl, rfl, hknown⟩⟩
    · refine ⟨⟨since ++ [event], by simp, ?_⟩, hknown⟩
      rw [List.mem_append, not_or, List.mem_singleton]
      exact ⟨hclear, Ne.symm hevent⟩
    · exact ⟨⟨[], rfl, List.not_mem_nil⟩, hknown⟩

namespace FirstFound

/-- There is only one first point. -/
theorem unique {other : List Event} (h : FirstFound c history past name)
    (h' : FirstFound c history other name) : past = other := by
  have hle := h.first other h'.toFound
  exact hle.eq_of_length_le (h'.first past h.toFound).length_le

/-- The first point stays the first until the cache is cleared. -/
theorem concat (h : FirstFound c history past name) (hevent : event ≠ .clear) :
    FirstFound c (history ++ [event]) past name where
  toFound := found_concat.mpr ⟨hevent, .inl h.toFound⟩
  first other hother := by
    rcases (found_concat.mp hother).2 with hother | ⟨-, rfl, -⟩
    · exact h.first other hother
    · obtain ⟨since, rfl, -⟩ := h.asked
      exact List.prefix_append past _

/-- What was found first stays so until the next time all is cleared. -/
theorem append (h : FirstFound c history past name) {since : List Event}
    (hsince : .clear ∉ since) : FirstFound c (history ++ since) past name := by
  induction since using List.reverseRecOn with
  | nil => rwa [List.append_nil]
  | append_singleton since event ih =>
      rw [List.mem_append, not_or, List.mem_singleton] at hsince
      rw [← List.append_assoc]
      exact (ih hsince.1).concat (Ne.symm hsince.2)

end FirstFound

/-! ## What is held -/

/-- What is held under a name: nothing if it was not found, and else what the catalog
gave where it was first found. -/
inductive Holds (c : Catalog) (history : List Event) (name : String) : Option Mapping → Prop where
  | nothing (h : ∀ past, ¬Found c history past name) : Holds c history name none
  | first {past : List Event} {m : Mapping} (h : FirstFound c history past name)
      (hm : ofCatalog? (after c past).catalog name = some m) : Holds c history name (some m)

/-- An event that is no clearing, and does not ask for the name, keeps what is held under
it. -/
theorem Holds.skip {held : Option Mapping} (h : Holds c history name held)
    (hclear : event ≠ .clear) (hask : event ≠ .ask name) :
    Holds c (history ++ [event]) name held := by
  cases h with
  | nothing h =>
      refine .nothing fun past hfound => ?_
      rcases (found_concat.mp hfound).2 with hfound | ⟨rfl, -⟩
      · exact h past hfound
      · exact hask rfl
  | first h hm => exact .first (h.concat hclear) hm

/-- Asking for a name keeps what is held under it, or else takes what the catalog
gives. -/
theorem Holds.ask {held : Option Mapping} (h : Holds c history name held)
    (hheld : (after c history).cache.entries.find? name = held) :
    Holds c (history ++ [.ask name]) name
      (held.or (ofCatalog? (after c history).catalog name)) := by
  cases h with
  | first h hm => exact .first (h.concat nofun) hm
  | nothing h =>
      have hcached : name ∉ (after c history).cache.entries.names :=
        Table.find?_eq_none_iff.mp hheld
      rw [Option.none_or]
      cases hbuilt : ofCatalog? (after c history).catalog name with
      | none =>
          have hknown : ¬(after c history).Knows name :=
            not_or.mpr ⟨hcached, ofCatalog?_eq_none_iff.mp hbuilt⟩
          refine .nothing fun past hfound => ?_
          rcases (found_concat.mp hfound).2 with hfound | ⟨-, -, hnow⟩
          · exact h past hfound
          · exact hknown hnow
      | some m =>
          -- the name was not found before, so this is the first point
          have hknown : name ∈ (after c history).catalog.names := by
            by_contra hunknown
            rw [ofCatalog?_eq_none_iff.mpr hunknown] at hbuilt
            cases hbuilt
          refine .first ⟨found_concat.mpr ⟨nofun, .inr ⟨rfl, rfl, .inr hknown⟩⟩, ?_⟩ hbuilt
          intro other hfound
          rcases (found_concat.mp hfound).2 with hfound | ⟨-, rfl, -⟩
          · exact absurd hfound (h other)
          · exact List.prefix_refl _

/-- **A cache holds what was first found,** after every history. -/
theorem holds_after (c : Catalog) (history : List Event) (name : String) :
    Holds c history name ((after c history).cache.entries.find? name) := by
  induction history using List.reverseRecOn with
  | nil => exact .nothing fun _ => not_found_nil
  | append_singleton history event ih =>
      rw [after_concat]
      cases event with
      | clear => exact .nothing fun past h => (found_concat.mp h).1 rfl
      | change edit => exact ih.skip nofun nofun
      | ask key =>
          rw [next, find?_get_snd, get_fst]
          split
          · next h =>
              cases h
              exact ih.ask rfl
          · next h => exact ih.skip nofun fun e => h (Event.ask.inj e).symm

/-- A name is held exactly if it was found since all was last cleared. -/
theorem Holds.isSome_iff {held : Option Mapping} (h : Holds c history name held) :
    held.isSome ↔ ∃ past, Found c history past name := by
  cases h with
  | nothing h => simpa using h
  | first h hm => exact iff_of_true rfl ⟨_, h.toFound⟩

/-- What is held of a name is what was found first. -/
theorem Holds.eq_some_iff {held : Option Mapping} (h : Holds c history name held) {m : Mapping} :
    held = some m ↔ ∃ past, FirstFound c history past name ∧
      ofCatalog? (after c past).catalog name = some m := by
  cases h with
  | nothing h =>
      refine iff_of_false nofun ?_
      rintro ⟨past, hfirst, -⟩
      exact h past hfirst.toFound
  | first h hheld =>
      constructor
      · rintro ⟨⟩
        exact ⟨_, h, hheld⟩
      · rintro ⟨past, hfirst, hm⟩
        cases h.unique hfirst
        exact hheld.symm.trans hm

/-- The names that are held are those that were found. -/
theorem mem_names_after :
    name ∈ (after c history).cache.entries.names ↔ ∃ past, Found c history past name :=
  Table.find?_isSome_iff.symm.trans (holds_after c history name).isSome_iff

/-- What is held under a name is what the catalog gave where it was first found. -/
theorem find?_after_eq_some_iff {m : Mapping} :
    (after c history).cache.entries.find? name = some m ↔
      ∃ past, FirstFound c history past name ∧
        ofCatalog? (after c past).catalog name = some m :=
  (holds_after c history name).eq_some_iff

/-- There are as many entries as names that were found. -/
theorem size_after (c : Catalog) (history : List Event) :
    ((after c history).cache.size : ℕ∞) = {n | ∃ past, Found c history past n}.encard := by
  have hnames : {n | ∃ past, Found c history past n} =
      ↑(after c history).cache.entries.names.toFinset := by
    ext n
    simp [mem_names_after]
  have hnodup : (after c history).cache.entries.names.Nodup :=
    (after c history).cache.entries.nodup
  rw [hnames, Set.encard_coe_eq_coe_finsetCard, List.toFinset_card_of_nodup hnodup, Table.names,
    List.length_map]
  rfl

/-- Without changes the catalog stays the one that the history began with. -/
theorem catalog_after (h : ∀ edit, .change edit ∉ history) : (after c history).catalog = c := by
  induction history using List.reverseRecOn with
  | nil => rfl
  | append_singleton history event ih =>
      have hrest : ∀ edit, .change edit ∉ history := fun edit hmem =>
        h edit (List.mem_append_left _ hmem)
      rw [after_concat]
      cases event with
      | change edit => exact absurd (by simp) (h edit)
      | ask key => exact ih hrest
      | clear => exact ih hrest

/-- Without changes every answer is the mapping of the catalog. -/
theorem answer_after (h : ∀ edit, .change edit ∉ history) :
    (after c history).answer name = ofCatalog? c name := by
  rw [answer, get_fst, catalog_after h]
  cases hfind : (after c history).cache.entries.find? name with
  | none => rw [Option.none_or]
  | some m =>
      obtain ⟨past, hfirst, hm⟩ := find?_after_eq_some_iff.mp hfind
      obtain ⟨since, rfl, -⟩ := hfirst.asked
      rw [catalog_after fun edit hmem => h edit (List.mem_append_left _ hmem)] at hm
      rw [hm, Option.some_or]

/-- **The history decides.**  A name is held if it was found since the cache was last
cleared; what is held is the mapping that the catalog gave where it was first found,
and this is answered until the cache is cleared, whatever becomes of the catalog.
Only a name that is neither held nor in the catalog is answered by nothing, and
asking for it changes nothing.  The size is the number of names found.  Where the
catalog does not change, every answer is the mapping of the catalog. -/
theorem history_decides (c : Catalog) (history : List Event) (name : String) :
    (name ∈ (after c history).cache.entries.names ↔ ∃ past, Found c history past name) ∧
    (∀ m, (after c history).cache.entries.find? name = some m ↔
      ∃ past, FirstFound c history past name ∧
        ofCatalog? (after c past).catalog name = some m) ∧
    (∀ m, (after c history).cache.entries.find? name = some m →
      ∀ since, .clear ∉ since → (after c (history ++ since)).answer name = some m) ∧
    ((after c history).answer name = none ↔ ¬(after c history).Knows name) ∧
    (¬(after c history).Knows name →
      (after c history).next (.ask name) = after c history) ∧
    ((after c history).cache.size : ℕ∞) = {n | ∃ past, Found c history past n}.encard ∧
    ((∀ edit, .change edit ∉ history) →
      (after c history).answer name = ofCatalog? c name) := by
  refine ⟨mem_names_after, fun m => find?_after_eq_some_iff, ?_, answer_eq_none_iff,
    next_ask_of_not_knows, size_after c history, answer_after⟩
  intro m hheld since hsince
  obtain ⟨past, hfirst, hm⟩ := find?_after_eq_some_iff.mp hheld
  have hlater := find?_after_eq_some_iff.mpr ⟨past, hfirst.append hsince, hm⟩
  rw [answer, get_fst, hlater, Option.some_or]

/-- The answer is the mapping that was first built, though the entity has changed. -/
example :
    (after {} [.ask "A", .insert "A" { fields := [{ name := "old" }] }, .ask "A",
        .insert "A" { fields := [{ name := "new" }] }]).answer "A" =
      ofCatalog? (.ofList [("A", { fields := [{ name := "old" }] })]) "A" := by
  decide +kernel

end QueryFilter.Mapping.Cache
