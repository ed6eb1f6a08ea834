import QueryFilter.Proofs.Inheritance

/-!
# The mapping over that of the parent

The walk from an entity and the walk from its parent meet the same entries behind
the entity itself, and may still end in different places.  The first ends where it
would come back to the entity, which it has met.  The second has not, so it takes
the entity as one more entry; there it ends too, since the parent of the entity is
where it began.  This happens on a ring through the entity and nowhere else: a ring
that either walk is led into further up ends both at the same entry.

In the mapping the difference is lost.  What the second walk finds at its end are
the entity's own fields, and their keys are taken by the entity in any case.

* `Catalog.IsWalk.of_parent` — the walk from the parent;
* `Table.filter_firsts` — leaving out names, before or after the first of each is
  kept;
* `Mapping.columns_composed` — so a mapping is made of the entity's own columns and
  those of the parent's mapping.
-/

namespace QueryFilter

namespace Catalog

variable {c : Catalog} {name parent : String} {e : Entity}

/-- **The walk from the parent** is the rest of the walk.  If the walk is a ring, so
that the entity is itself the parent of the last entry, then the entity comes behind
the rest as a new last entry. -/
theorem IsWalk.of_parent {rest : List (String × Entity)} (h : c.IsWalk name ((name, e) :: rest))
    (hparent : e.parent? = some parent) (hknown : parent ∈ c.names) :
    c.IsWalk parent rest ∨ c.IsWalk parent (rest ++ [(name, e)]) := by
  obtain ⟨-, hsecond, hrest⟩ := h.toIsClimb.uncons
  have hhead : ∀ q ∈ rest.head?, q.1 = parent := fun q hq =>
    Option.some.inj ((hsecond q hq).symm.trans hparent)
  by_cases hring : ∃ last ∈ ((name, e) :: rest).getLast?, last.2.parent? = some name
  · right
    obtain ⟨last, hlast, hclosed⟩ := hring
    have hstart : ((rest ++ [(name, e)]).map Prod.fst).head? = some parent := by
      cases rest with
      | nil =>
          cases hlast
          exact hclosed.symm.trans hparent
      | cons q rest => exact congrArg some (hhead q rfl)
    have hclimbs : (rest ++ [(name, e)]).IsChain fun p q => p.2.parent? = some q.1 := by
      refine List.isChain_append.mpr ⟨hrest.climbs, .singleton _, fun p hp q hq => ?_⟩
      cases hq
      cases rest with
      | nil => cases hp
      | cons _ rest =>
          rw [List.getLast?_cons_cons] at hlast
          cases hlast.symm.trans hp
          exact hclosed
    have honce : ((rest ++ [(name, e)]).map Prod.fst).Nodup := by
      rw [List.map_append]
      exact List.perm_append_comm.nodup_iff.mp h.once
    refine ⟨⟨fun p hp => h.known p (List.perm_append_comm.mem_iff.mp hp), hclimbs⟩,
      hstart, honce, ?_⟩
    intro p hp above hup
    rw [List.getLast?_concat] at hp
    cases hp
    cases hparent.symm.trans hup
    exact .inr (List.mem_of_head? hstart)
  · left
    -- the walk does not end at the entity, so it ends where its rest does
    have hends : ∀ p ∈ ((name, e) :: rest).getLast?, ∀ above, p.2.parent? = some above →
        above ∉ c.names ∨ above ∈ rest.map Prod.fst := by
      intro p hp above hup
      rcases h.ends p hp above hup with hunknown | hmet
      · exact .inl hunknown
      · rcases List.mem_cons.mp hmet with rfl | hmet
        · exact absurd ⟨p, hp, hup⟩ hring
        · exact .inr hmet
    cases rest with
    | nil => exact (hends (name, e) rfl parent hparent).elim (absurd hknown) nofun
    | cons q rest =>
        exact ⟨hrest, congrArg some (hhead q rfl), (List.nodup_cons.mp h.once).2, hends⟩

/-- The lineage of an entity with a parent. -/
theorem lineage_of_parent (hname : c.find? name = some e) (hparent : e.parent? = some parent) :
    c.lineage name = (name, e) :: c.lineageFrom [name] parent := by
  rw [lineage, lineageFrom_of_known List.not_mem_nil hname, hparent]
  rfl

/-- The lineage of the parent: the entity itself may come last. -/
theorem lineage_parent (hname : c.find? name = some e) (hparent : e.parent? = some parent)
    (hknown : parent ∈ c.names) :
    c.lineage parent = c.lineageFrom [name] parent ∨
      c.lineage parent = c.lineageFrom [name] parent ++ [(name, e)] := by
  obtain ⟨above, habove⟩ := Option.isSome_iff_exists.mp (Table.find?_isSome_iff.mpr hknown)
  have hwalk := isWalk_lineage hname
  rw [lineage_of_parent hname hparent] at hwalk
  exact (hwalk.of_parent hparent hknown).imp (isWalk_lineage habove).unique
    (isWalk_lineage habove).unique

end Catalog

/-- The columns of an entity whose parent has the columns `above`: its own, the first
of each key, and behind them those of the parent under all other keys. -/
def Entity.columnsOver (e : Entity) (above : List (String × String)) :
    List (String × String) :=
  e.columns.eraseDupsBy (fun later first => later.1 == first.1) ++
    above.filter fun entry => entry.1 ∉ e.columns.map Prod.fst

namespace Mapping

variable {c : Catalog} {name parent : String} {e : Entity}

/-- Under the keys that an entity leaves free, the walk from its parent gives what its
own walk goes on to give. -/
theorem filter_columns_lineage (hname : c.find? name = some e)
    (hparent : e.parent? = some parent) (hknown : parent ∈ c.names) :
    (((c.lineage parent).flatMap fun p => p.2.columns).filter fun entry =>
        entry.1 ∉ e.columns.map Prod.fst) =
      ((c.lineageFrom [name] parent).flatMap fun p => p.2.columns).filter fun entry =>
        entry.1 ∉ e.columns.map Prod.fst := by
  have hown : (e.columns.filter fun entry => entry.1 ∉ e.columns.map Prod.fst) = [] := by
    rw [List.filter_eq_nil_iff]
    intro entry hentry
    simpa using ⟨entry.2, hentry⟩
  rcases Catalog.lineage_parent hname hparent hknown with hrest | hring
  · rw [hrest]
  · rw [hring, List.flatMap_append, List.flatMap_singleton, List.filter_append, hown,
      List.append_nil]

/-- **Inheritance is compositional.**  A mapping has the columns of the entity over
those of its parent's mapping, in the parent's order, whatever the parents above
are: a ring may go through the entity, the parent may lead into one, and the entity
may be its own parent. -/
theorem columns_composed (hname : c.find? name = some e) (hparent : e.parent? = some parent)
    (hknown : parent ∈ c.names) :
    ∃ own above, ofCatalog? c name = some own ∧ ofCatalog? c parent = some above ∧
      own.columns.entries = e.columnsOver above.columns.entries := by
  obtain ⟨p, hp⟩ := Option.isSome_iff_exists.mp (Table.find?_isSome_iff.mpr hknown)
  refine ⟨ofLineage (e.source?.getD "") (c.lineage name),
    ofLineage (p.source?.getD "") (c.lineage parent), congrArg (Option.map _) hname,
    congrArg (Option.map _) hp, ?_⟩
  rw [Entity.columnsOver, ofLineage, ofLineage,
    Table.filter_firsts fun key => key ∉ e.columns.map Prod.fst,
    filter_columns_lineage hname hparent hknown, Catalog.lineage_of_parent hname hparent,
    List.flatMap_cons, Table.entries_firsts_append, Table.entries_firsts]

/-- An entity on a ring. -/
def onRing : Entity :=
  { parent? := some "B"
    fields := [{ name := "id", column? := some "a_id" }, { name := "name", persisted := false }] }

/-- An entity that is its own parent. -/
def ownParent : Entity :=
  { parent? := some "self", fields := [{ name := "x" }, { name := "x`" }] }

/-- Three entities in a ring with keys in common, one that leads into the ring, and one
that is its own parent. -/
def rings : Catalog :=
  .ofList
    [("A", onRing),
     ("B", { parent? := some "C", fields := [{ name := "name" }, { name := "`id" }] }),
     ("C", { parent? := some "A", fields := [{ name := "name", column? := some "c" }] }),
     ("below", { parent? := some "B", fields := [{ name := "name", column? := some "n" }] }),
     ("self", ownParent)]

/-- An entity whose parents go round and one that is its own parent are composed as all others are.
-/
theorem columns_composed_rings :
    (rings.find? "A" = some onRing ∧ onRing.parent? = some "B" ∧ "B" ∈ rings.names ∧
      ∃ own above, ofCatalog? rings "A" = some own ∧ ofCatalog? rings "B" = some above ∧
        own.columns.entries = onRing.columnsOver above.columns.entries) ∧
    (rings.find? "self" = some ownParent ∧ ownParent.parent? = some "self" ∧
      "self" ∈ rings.names ∧
      ∃ own above, ofCatalog? rings "self" = some own ∧ ofCatalog? rings "self" = some above ∧
        own.columns.entries = ownParent.columnsOver above.columns.entries) ∧
    (ofCatalog? rings "A").map (fun m => m.columns.entries) =
      some [("`id`", "`a_id`"), ("`name`", "`name`")] :=
  have hring : rings.find? "A" = some onRing := by decide +kernel
  have hself : rings.find? "self" = some ownParent := by decide +kernel
  ⟨⟨hring, rfl, by decide +kernel, columns_composed hring rfl (by decide +kernel)⟩,
    ⟨hself, rfl, by decide +kernel, columns_composed hself rfl (by decide +kernel)⟩,
    by decide +kernel⟩

end Mapping

end QueryFilter
