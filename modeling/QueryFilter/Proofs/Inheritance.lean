import Mathlib.Data.List.Chain
import Mathlib.Data.List.Perm.Subperm
import Mathlib.Logic.Relation
import QueryFilter.Mapping

/-!
# Inheritance

A mapping is built along a walk from an entity through its parents.  Nothing is
assumed of the parents: they may be missing from the catalog, and they may form
a ring, which the walk may begin on or be led into.

`IsWalk` says what the walk is without saying how it is found.  There is only one
walk from each entity of a catalog, since a name has at most one parent: of two
walks one would be the beginning of the other, and could have gone on.

* `IsClimb.comparable`, `IsWalk.unique` — the walk is determined;
* `IsWalk.mem_iff` — it meets what can be reached from the entity, all of it;
* `IsWalk.length_le` — it takes no more steps than there are entities;
* `isWalk_lineage` — the lineage is the walk;
* `Mapping.built_from_walk` — a mapping has the columns of the walk, the first of
  each key, and the source of the entity alone.
-/

namespace QueryFilter

namespace Catalog

variable {c : Catalog} {met : List String} {name : String}

/-- Whether the entity `name` has the parent `parent`, and the catalog knows
both. -/
def Inherits (c : Catalog) (name parent : String) : Prop :=
  ∃ e, c.find? name = some e ∧ e.parent? = some parent ∧ parent ∈ c.names

/-- Whether `way` leads upward: through entries of the catalog, each the parent of
the one before it. -/
structure IsClimb (c : Catalog) (way : List (String × Entity)) : Prop where
  known : ∀ p ∈ way, c.find? p.1 = some p.2
  climbs : way.IsChain fun p q => p.2.parent? = some q.1

/-- Whether `walk` is the walk from the entity `name` upward.  It meets no name
twice, and ends at the first that has no parent, or an unknown one, or one that
was met. -/
structure IsWalk (c : Catalog) (name : String) (walk : List (String × Entity)) : Prop
    extends c.IsClimb walk where
  start : (walk.map Prod.fst).head? = some name
  once : (walk.map Prod.fst).Nodup
  ends : ∀ p ∈ walk.getLast?, ∀ parent, p.2.parent? = some parent →
    parent ∉ c.names ∨ parent ∈ walk.map Prod.fst

/-! ## Walks -/

namespace IsClimb

variable {way other : List (String × Entity)}

/-- The first step of a way, and the rest of it. -/
theorem uncons {p : String × Entity} (h : c.IsClimb (p :: way)) :
    c.find? p.1 = some p.2 ∧ (∀ q ∈ way.head?, p.2.parent? = some q.1) ∧ c.IsClimb way :=
  have hsteps := List.isChain_cons.mp h.climbs
  ⟨h.known p List.mem_cons_self, hsteps.1,
    fun q hq => h.known q (List.mem_cons_of_mem p hq), hsteps.2⟩

/-- Of two ways up that begin with the same name, one is the beginning of the
other. -/
theorem comparable (h : c.IsClimb way) (h' : c.IsClimb other)
    (hstart : ∀ p ∈ way.head?, ∀ q ∈ other.head?, p.1 = q.1) :
    way <+: other ∨ other <+: way := by
  induction way generalizing other with
  | nil => exact .inl List.nil_prefix
  | cons p way ih =>
      cases other with
      | nil => exact .inr List.nil_prefix
      | cons q other =>
          obtain ⟨hp, hparent, hrest⟩ := h.uncons
          obtain ⟨hq, hparent', hrest'⟩ := h'.uncons
          have hname : p.1 = q.1 := hstart p rfl q rfl
          have hentity : p.2 = q.2 := by
            rw [hname, hq] at hp
            exact (Option.some.inj hp).symm
          obtain rfl : p = q := Prod.ext hname hentity
          rw [List.prefix_cons_inj, List.prefix_cons_inj]
          refine ih hrest hrest' fun a ha b hb => ?_
          exact Option.some.inj ((hparent a ha).symm.trans (hparent' b hb))

end IsClimb

namespace IsWalk

variable {walk other : List (String × Entity)}

/-- A walk has a beginning. -/
theorem ne_nil (h : c.IsWalk name walk) : walk ≠ [] := by
  rintro rfl
  cases h.start

/-- A walk begins at its name. -/
theorem fst_of_head? (h : c.IsWalk name walk) {p : String × Entity} (hp : p ∈ walk.head?) :
    p.1 = name := by
  have hstart := h.start
  rw [List.head?_map, hp] at hstart
  exact Option.some.inj hstart

/-- A walk cannot go on. -/
theorem eq_of_begins (h : c.IsWalk name walk) (h' : c.IsWalk name other)
    (hbegins : walk <+: other) : walk = other := by
  obtain ⟨rest, rfl⟩ := hbegins
  cases rest with
  | nil => rw [List.append_nil]
  | cons q rest =>
      -- `q` is the parent of the last entry of `walk`, known, and new to it
      exfalso
      have hlast := List.getLast?_eq_some_getLast h.ne_nil
      have hparent : (walk.getLast h.ne_nil).2.parent? = some q.1 :=
        (List.isChain_append.mp h'.climbs).2.2 _ hlast q rfl
      rcases h.ends _ hlast q.1 hparent with hunknown | hmet
      · exact hunknown (mem_names_of_find? (h'.known q (by simp)))
      · have honce := h'.once
        rw [List.map_append, List.nodup_append] at honce
        exact honce.2.2 _ hmet _ List.mem_cons_self rfl

/-- **There is only one walk.** -/
theorem unique (h : c.IsWalk name walk) (h' : c.IsWalk name other) : walk = other := by
  have hstart : ∀ p ∈ walk.head?, ∀ q ∈ other.head?, p.1 = q.1 := fun p hp q hq =>
    (h.fst_of_head? hp).trans (h'.fst_of_head? hq).symm
  rcases h.comparable h'.toIsClimb hstart with hbegins | hbegins
  · exact h.eq_of_begins h' hbegins
  · exact (h'.eq_of_begins h hbegins).symm

/-- A walk meets the parents of all that it meets. -/
theorem mem_of_inherits (h : c.IsWalk name walk) {n parent : String}
    (hn : n ∈ walk.map Prod.fst) (hparent : c.Inherits n parent) :
    parent ∈ walk.map Prod.fst := by
  obtain ⟨p, hp, rfl⟩ := List.mem_map.mp hn
  obtain ⟨e, he, hup, hknown⟩ := hparent
  obtain rfl : p.2 = e := Option.some.inj ((h.known p hp).symm.trans he)
  obtain ⟨before, after, rfl⟩ := List.append_of_mem hp
  cases after with
  | nil => exact (h.ends p (by simp) parent hup).resolve_left fun hnew => hnew hknown
  | cons q after =>
      have hnext : p.2.parent? = some q.1 := (List.isChain_append_cons_cons.mp h.climbs).2.1
      rw [hup] at hnext
      cases hnext
      simp

/-- **A walk meets exactly what can be reached** by following parents. -/
theorem mem_iff (h : c.IsWalk name walk) (n : String) :
    n ∈ walk.map Prod.fst ↔ Relation.ReflTransGen c.Inherits name n := by
  constructor
  · intro hn
    obtain ⟨p, hp, rfl⟩ := List.mem_map.mp hn
    have hsteps : walk.IsChain fun p q => c.Inherits p.1 q.1 :=
      List.IsChain.imp_of_mem_imp (fun a b ha hb hup =>
        ⟨a.2, h.known a ha, hup, mem_names_of_find? (h.known b hb)⟩) h.climbs
    refine List.IsChain.induction (fun p => Relation.ReflTransGen c.Inherits name p.1) walk
      hsteps (fun _ _ hup hreach => hreach.tail hup) (fun hne => ?_) p hp
    rw [h.fst_of_head? (List.head?_eq_some_head hne)]
  · intro hreach
    induction hreach with
    | refl => exact List.mem_of_head? h.start
    | tail _ hup ih => exact h.mem_of_inherits ih hup

/-- A walk takes no more steps than the catalog has entities. -/
theorem length_le (h : c.IsWalk name walk) : walk.length ≤ c.size := by
  have hsubset : walk.map Prod.fst ⊆ c.names := by
    intro n hn
    obtain ⟨p, hp, rfl⟩ := List.mem_map.mp hn
    exact mem_names_of_find? (h.known p hp)
  have hlength := h.once.length_le_of_subset hsubset
  rw [List.length_map] at hlength
  exact hlength.trans_eq (List.length_map _)

end IsWalk

/-! ## The lineage is the walk -/

/-- The walk begins with the name it is taken from. -/
theorem fst_of_head?_lineageFrom {p : String × Entity}
    (hp : p ∈ (c.lineageFrom met name).head?) : p.1 = name := by
  fun_cases lineageFrom c met name with
  | case1 hmet =>
      rw [lineageFrom_of_mem hmet] at hp
      cases hp
  | case2 _ hunknown =>
      rw [lineageFrom_of_unknown hunknown] at hp
      cases hp
  | case3 hmet e hfound =>
      rw [lineageFrom_of_known hmet hfound] at hp
      cases hp
      rfl

/-- Each entry is the parent of the one before it. -/
theorem isChain_lineageFrom :
    (c.lineageFrom met name).IsChain fun p q => p.2.parent? = some q.1 := by
  fun_induction lineageFrom c met name with
  | case1 => exact .nil
  | case2 => exact .nil
  | case3 met name hmet e hfound ih =>
      cases hparent : e.parent? with
      | none => exact .singleton _
      | some parent =>
          refine List.isChain_cons.mpr ⟨fun q hq => ?_, ih parent⟩
          rw [fst_of_head?_lineageFrom hq, hparent]

/-- The walk ends where there is no parent, or an unknown one, or one that was
met, before the walk or on it. -/
theorem ends_lineageFrom : ∀ p ∈ (c.lineageFrom met name).getLast?, ∀ parent,
    p.2.parent? = some parent →
      parent ∉ c.names ∨ parent ∈ met ∨ parent ∈ (c.lineageFrom met name).map Prod.fst := by
  fun_induction lineageFrom c met name with
  | case1 => simp
  | case2 => simp
  | case3 met name hmet e hfound ih =>
      intro p hp parent hup
      cases hparent : e.parent? with
      | none =>
          simp only [hparent] at hp
          cases hp
          cases hparent.symm.trans hup
      | some above =>
          simp only [hparent] at hp ⊢
          -- the last entry is this one if nothing follows, and else that of the rest
          have hends : parent ∉ c.names ∨ parent ∈ name :: met ∨
              parent ∈ (c.lineageFrom (name :: met) above).map Prod.fst := by
            cases hrest : c.lineageFrom (name :: met) above with
            | nil =>
                rw [hrest] at hp
                cases hp
                obtain rfl : above = parent := Option.some.inj (hparent.symm.trans hup)
                rcases lineageFrom_eq_nil_iff.mp hrest with hseen | hunknown
                · exact .inr (.inl hseen)
                · exact .inl (Table.find?_eq_none_iff.mp hunknown)
            | cons q rest =>
                rw [hrest, List.getLast?_cons_cons, ← hrest] at hp
                rw [← hrest]
                exact ih above p hp parent hup
          rw [List.map_cons, List.mem_cons]
          rw [List.mem_cons] at hends
          tauto

/-- **The lineage of a known entity is its walk.** -/
theorem isWalk_lineage {e : Entity} (h : c.find? name = some e) :
    c.IsWalk name (c.lineage name) where
  known p hp := (lineageFrom_find? p hp).1
  start := by
    rw [lineage, lineageFrom_of_known List.not_mem_nil h]
    rfl
  climbs := isChain_lineageFrom
  once := c.nodup_lineage name
  ends p hp parent hup := by
    rcases ends_lineageFrom p hp parent hup with hunknown | hmet | hwalked
    · exact .inl hunknown
    · cases hmet
    · exact .inr hwalked

end Catalog

namespace Mapping

/-- **How a mapping is built.**  There is one for every entity of the catalog and
for no other name.  The lineage is the one walk from the entity; it meets all
that can be reached by following parents, and takes no more steps than there are
entities.  The columns are those of the persisted fields on the walk, in order,
without the entries whose key came before; the projection lists them; and the
source is the entity's own. -/
theorem built_from_walk (c : Catalog) (name : String) :
    (ofCatalog? c name = none ↔ name ∉ c.names) ∧
    ∀ m, ofCatalog? c name = some m →
      (c.IsWalk name (c.lineage name) ∧
        ∀ walk, c.IsWalk name walk → walk = c.lineage name) ∧
      (∀ n, n ∈ (c.lineage name).map Prod.fst ↔ Relation.ReflTransGen c.Inherits name n) ∧
      (c.lineage name).length ≤ c.size ∧
      m.columns.entries =
        ((c.lineage name).flatMap fun p =>
          (p.2.fields.filter Field.persisted).map fun f => (f.key, f.expression)).eraseDupsBy
            (fun later first => later.1 == first.1) ∧
      m.projection = [','].intercalate (m.columns.entries.map fun entry =>
        entry.2.toList ++ " AS ".toList ++ entry.1.toList) ∧
      ∃ e, c.find? name = some e ∧ m.source = e.source?.getD "" := by
  refine ⟨ofCatalog?_eq_none_iff, fun m hm => ?_⟩
  obtain ⟨e, he, rfl⟩ := Option.map_eq_some_iff.mp hm
  have hwalk := Catalog.isWalk_lineage he
  refine ⟨⟨hwalk, fun walk h => h.unique hwalk⟩, hwalk.mem_iff, hwalk.length_le,
    Table.entries_firsts _, rfl, e, he, rfl⟩

end Mapping

end QueryFilter
