import QueryFilter.Proofs.Inheritance

/-!
# What a mapping reads of a catalog

A mapping is built from the walk from its entity and from nothing else.  Where the walk goes is
decided by its links, the names on it with the names of their parents; so in another catalog
with the same links the walk is the same, if it also ends in the same place.  For this a parent
that was missing at the end must still be missing, or the walk would go on.

Of what is declared on the walk, not all counts.  The source is that of the entity itself.  A
field is idle if it is not stored, or if a field nearer to the entity is stored under its key.
`Unseen` lists the differences between two catalogs that this leaves, one at a time.

* `Catalog.IsWalk.of_links` — the same links make the same walk in another catalog;
* `Field.firsts_entries_of_idle` — idle fields add nothing to the columns;
* `Catalog.Unseen.ofCatalog?_eq` — one difference that is not seen;
* `Mapping.ofCatalog?_local` — so a mapping depends on what its walk reads alone.
-/

namespace QueryFilter

/-- Whether a field gives nothing to a mapping behind the fields `fs`: it is not stored, or one
of them is stored under its key. -/
def Field.IdleBehind (f : Field) (fs : List Field) : Prop :=
  f.persisted = true → ∃ g ∈ fs, g.persisted = true ∧ g.key = f.key

instance (f : Field) (fs : List Field) : Decidable (f.IdleBehind fs) :=
  inferInstanceAs (Decidable (f.persisted = true → ∃ g ∈ fs, g.persisted = true ∧ g.key = f.key))

/-- **Idle fields may as well be left out.** -/
theorem Field.firsts_entries_of_idle {fs gs hs : List Field} (h : ∀ f ∈ gs, f.IdleBehind fs) :
    Table.firsts (entries (fs ++ (gs ++ hs))) = Table.firsts (entries (fs ++ hs)) := by
  rw [entries_append, entries_append gs, entries_append fs hs]
  apply Table.firsts_append_of_taken
  intro entry hentry
  obtain ⟨f, hf, rfl⟩ := List.mem_map.mp hentry
  obtain ⟨hmem, hstored⟩ := List.mem_filter.mp hf
  obtain ⟨g, hg, hgstored, hkey⟩ := h f hmem hstored
  refine List.mem_map.mpr ⟨(g.key, g.expression), ?_, hkey⟩
  exact List.mem_map_of_mem (List.mem_filter.mpr ⟨hg, hgstored⟩)

namespace Catalog

variable {c c' : Catalog} {name : String}

/-! ## Walks in two catalogs -/

/-- What decides where a walk goes from an entry: its name, and its parent's. -/
def link (p : String × Entity) : String × Option String := (p.1, p.2.parent?)

/-- Walks with the same links have the same names. -/
theorem map_fst_eq_of_links {walk walk' : List (String × Entity)}
    (h : walk'.map link = walk.map link) : walk'.map Prod.fst = walk.map Prod.fst := by
  have hnames : ∀ w : List (String × Entity), w.map Prod.fst = (w.map link).map Prod.fst := by
    intro w
    rw [List.map_map]
    rfl
  rw [hnames walk', hnames walk, h]

/-- **The same links make the same walk**, if the other catalog has its entries, and misses the
parent at its end if that was missing. -/
theorem IsWalk.of_links {walk walk' : List (String × Entity)} (h : c.IsWalk name walk)
    (hlinks : walk'.map link = walk.map link) (hknown : ∀ p ∈ walk', c'.find? p.1 = some p.2)
    (hends : ∀ p ∈ walk.getLast?, ∀ parent, p.2.parent? = some parent →
      parent ∉ c.names → parent ∉ c'.names) : c'.IsWalk name walk' := by
  have hnames := map_fst_eq_of_links hlinks
  have hclimbs : (walk.map link).IsChain fun a b => a.2 = some b.1 :=
    (List.isChain_map link).mpr h.climbs
  refine ⟨⟨hknown, ?_⟩, by rw [hnames, h.start], by rw [hnames]; exact h.once, ?_⟩
  · rw [← hlinks] at hclimbs
    exact (List.isChain_map link).mp hclimbs
  · intro p hp parent hup
    -- the last entries of the two walks have the same link
    have hlast : (walk.map link).getLast? = some (link p) := by
      rw [← hlinks, List.getLast?_map, hp]
      rfl
    rw [List.getLast?_map] at hlast
    obtain ⟨q, hq, hlink⟩ := Option.map_eq_some_iff.mp hlast
    have hup' : q.2.parent? = some parent := (congrArg Prod.snd hlink).trans hup
    rw [hnames]
    exact (h.ends q hq parent hup').imp_left fun hmissing => hends q hq parent hup' hmissing

/-- A lineage is that of another catalog if its links are kept and it ends where it did. -/
theorem lineage_eq_of_links {walk' : List (String × Entity)} (hname : name ∈ c.names)
    (hlinks : walk'.map link = (c.lineage name).map link)
    (hknown : ∀ p ∈ walk', c'.find? p.1 = some p.2)
    (hends : ∀ p ∈ (c.lineage name).getLast?, ∀ parent, p.2.parent? = some parent →
      parent ∉ c.names → parent ∉ c'.names) : c'.lineage name = walk' := by
  obtain ⟨e, he⟩ := Option.isSome_iff_exists.mp (Table.find?_isSome_iff.mpr hname)
  have hwalk : c'.IsWalk name walk' := (isWalk_lineage he).of_links hlinks hknown hends
  obtain ⟨p, hp⟩ := Option.isSome_iff_exists.mp (List.isSome_head?.mpr hwalk.ne_nil)
  have hfound : c'.find? name = some p.2 := by
    rw [← hwalk.fst_of_head? hp]
    exact hwalk.known p (List.mem_of_mem_head? hp)
  exact (isWalk_lineage hfound).unique hwalk

/-- An entity on the walk may be replaced by one with the same parent. -/
theorem lineage_insert {below above : List (String × Entity)} {n : String} {e e' : Entity}
    (hwalk : c.lineage name = below ++ (n, e) :: above) (hparent : e'.parent? = e.parent?) :
    (c.insert n e').lineage name = below ++ (n, e') :: above := by
  have hmem : (n, e) ∈ c.lineage name := by simp [hwalk]
  have hn : n ∈ c.names := mem_names_of_find? (lineageFrom_find? _ hmem).1
  have hname : name ∈ c.names := by
    by_contra hunknown
    rw [lineage_eq_nil_iff.mpr (Table.find?_eq_none_iff.mpr hunknown)] at hmem
    cases hmem
  have hnames : (c.insert n e').names = c.names :=
    (Table.names_insert c.entities n e').trans (if_pos hn)
  -- `n` is on the walk once, so the other entries are found as before
  have honce : n ∉ (below ++ above).map Prod.fst := by
    have hnodup := c.nodup_lineage name
    rw [hwalk, (List.perm_middle.map Prod.fst).nodup_iff, List.map_cons,
      List.nodup_cons] at hnodup
    exact hnodup.1
  refine lineage_eq_of_links hname ?_ ?_ fun p _ parent _ hmissing => hnames ▸ hmissing
  · rw [hwalk, List.map_append, List.map_append, List.map_cons, List.map_cons, link, link,
      hparent]
  · intro p hp
    rw [find?_insert]
    rcases List.mem_cons.mp (List.perm_middle.mem_iff.mp hp) with rfl | hother
    · rw [if_pos rfl]
    · have hold : p ∈ c.lineage name := by
        rw [hwalk, List.perm_middle.mem_iff]
        exact List.mem_cons_of_mem _ hother
      have hne : p.1 ≠ n := fun hpn => honce (hpn ▸ List.mem_map_of_mem hother)
      rw [if_neg hne]
      exact (lineageFrom_find? p hold).1

/-! ## Differences that are not seen -/

/-- One difference between two catalogs that the mapping of `name` does not show. -/
inductive Unseen (name : String) : Catalog → Catalog → Prop where
  /-- The entities on the walk are the same, and a parent that is missing at its end is
  missing from both catalogs. -/
  | elsewhere {c c' : Catalog} (known : name ∈ c.names)
      (walk : ∀ p ∈ c.lineage name, c'.find? p.1 = some p.2)
      (ending : ∀ p ∈ (c.lineage name).getLast?, ∀ parent, p.2.parent? = some parent →
        parent ∉ c.names → parent ∉ c'.names) :
      Unseen name c c'
  /-- An ancestor has another source. -/
  | source {c : Catalog} {below above : List (String × Entity)} {n : String} {e : Entity}
      (source? : Option String) (walk : c.lineage name = below ++ (n, e) :: above)
      (ancestor : below ≠ []) :
      Unseen name c (c.insert n { e with source? := source? })
  /-- An entity on the walk has some idle fields in the place of others: they may be put in,
  taken out, or altered. -/
  | fields {c : Catalog} {below above : List (String × Entity)} {n : String} {e : Entity}
      {before old after : List Field} (new : List Field)
      (walk : c.lineage name = below ++ (n, e) :: above)
      (declared : e.fields = before ++ (old ++ after))
      (idle : ∀ f ∈ old ++ new, f.IdleBehind ((below.flatMap fun p => p.2.fields) ++ before)) :
      Unseen name c (c.insert n { e with fields := before ++ (new ++ after) })

end Catalog

namespace Mapping

variable {c c' : Catalog} {name : String}

/-- A mapping in terms of the lineage alone. -/
theorem ofCatalog?_eq_of_head? (c : Catalog) (name : String) :
    ofCatalog? c name =
      (c.lineage name).head?.map fun p => ofLineage (p.2.source?.getD "") (c.lineage name) := by
  unfold ofCatalog?
  cases hfind : c.find? name with
  | none => rw [Catalog.lineage_eq_nil_iff.mpr hfind]; rfl
  | some e =>
      have hhead : (c.lineage name).head? = some (name, e) := by
        rw [Catalog.lineage, Catalog.lineageFrom_of_known List.not_mem_nil hfind]
        rfl
      rw [hhead]
      rfl

/-- Two walks give the same mapping if they have the same source and columns. -/
theorem ofCatalog?_congr
    (hsource : (c'.lineage name).head?.map (fun p => p.2.source?) =
      (c.lineage name).head?.map fun p => p.2.source?)
    (hcolumns : Table.firsts (Field.entries (c'.declared name)) =
      Table.firsts (Field.entries (c.declared name))) :
    ofCatalog? c' name = ofCatalog? c name := by
  have hparts : ∀ d : Catalog, ofCatalog? d name =
      ((d.lineage name).head?.map fun p => p.2.source?).map fun source? =>
        ⟨source?.getD "", Table.firsts (Field.entries (d.declared name))⟩ := by
    intro d
    rw [ofCatalog?_eq_of_head?, Option.map_map]
    congr 1
    funext p
    rw [Function.comp_apply, Catalog.declared, ← columns_ofLineage (p.2.source?.getD "")]
    rfl
  rw [hparts c', hparts c, hsource, hcolumns]

end Mapping

namespace Catalog

variable {c c' : Catalog} {name : String}

/-- **A difference that is not seen** leaves the mapping. -/
theorem Unseen.ofCatalog?_eq (h : Unseen name c c') :
    Mapping.ofCatalog? c' name = Mapping.ofCatalog? c name := by
  cases h with
  | elsewhere known walk ending =>
      have hlineage : c'.lineage name = c.lineage name :=
        lineage_eq_of_links known rfl walk ending
      rw [Mapping.ofCatalog?_eq_of_head?, Mapping.ofCatalog?_eq_of_head?, hlineage]
  | @source below above n e source? walk ancestor =>
      have hlineage : (c.insert n { e with source? := source? }).lineage name =
          below ++ (n, { e with source? := source? }) :: above := lineage_insert walk rfl
      obtain ⟨p, below, rfl⟩ := List.exists_cons_of_ne_nil ancestor
      apply Mapping.ofCatalog?_congr
      · rw [hlineage, walk]
        rfl
      · rw [declared, declared, hlineage, walk, List.flatMap_append, List.flatMap_append]
        rfl
  | @fields below above n e before old after new walk hdeclared idle =>
      have hlineage : (c.insert n { e with fields := before ++ (new ++ after) }).lineage name =
          below ++ (n, { e with fields := before ++ (new ++ after) }) :: above :=
        lineage_insert walk rfl
      apply Mapping.ofCatalog?_congr
      · rw [hlineage, walk]
        cases below <;> rfl
      · -- on both sides the idle fields stand behind the same ones and may be left out
        have hout : ∀ gs : List Field,
            (∀ f ∈ gs, f.IdleBehind ((below.flatMap fun p => p.2.fields) ++ before)) →
            Table.firsts (Field.entries ((below.flatMap fun p => p.2.fields) ++
              ((before ++ (gs ++ after)) ++ above.flatMap fun p => p.2.fields))) =
            Table.firsts (Field.entries (((below.flatMap fun p => p.2.fields) ++ before) ++
              (after ++ above.flatMap fun p => p.2.fields))) := by
          intro gs hgs
          rw [List.append_assoc, List.append_assoc, ← List.append_assoc (below.flatMap _)]
          exact Field.firsts_entries_of_idle hgs
        rw [declared, declared, hlineage, walk, List.flatMap_append, List.flatMap_append,
          List.flatMap_cons, List.flatMap_cons, hdeclared,
          hout new fun f hf => idle f (List.mem_append_right old hf),
          hout old fun f hf => idle f (List.mem_append_left new hf)]

/-- Inserting an entity is not seen if its name is neither on the walk nor missing at its end. -/
theorem unseen_insert {n : String} (e : Entity) (hname : name ∈ c.names)
    (hoff : n ∉ (c.lineage name).map Prod.fst)
    (hend : ∀ p ∈ (c.lineage name).getLast?, p.2.parent? ≠ some n) :
    Unseen name c (c.insert n e) := by
  apply Unseen.elsewhere hname
  · intro p hp
    have hne : p.1 ≠ n := fun heq => hoff (heq ▸ List.mem_map_of_mem hp)
    rw [find?_insert, if_neg hne]
    exact (lineageFrom_find? p hp).1
  · intro p hp parent hup hmissing hmem
    have hne : parent ≠ n := fun heq => hend p hp (heq ▸ hup)
    obtain ⟨e', he'⟩ := Option.isSome_iff_exists.mp (Table.find?_isSome_iff.mpr hmem)
    have hfound : c.find? parent = some e' := by
      rw [← he', ← find?, find?_insert, if_neg hne]
    exact hmissing (mem_names_of_find? hfound)

/-- The order of the entities is not seen. -/
theorem unseen_of_perm (hname : name ∈ c.names)
    (hperm : c'.entities.entries.Perm c.entities.entries) : Unseen name c c' := by
  apply Unseen.elsewhere hname
  · intro p hp
    have hfound := Table.find?_eq_some_iff.mp (lineageFrom_find? p hp).1
    exact Table.find?_eq_some_iff.mpr (hperm.mem_iff.mpr hfound)
  · intro p _ parent _ hmissing hmem
    exact hmissing ((hperm.map Prod.fst).mem_iff.mp hmem)

end Catalog

namespace Mapping

/-- Changes that an entity does not see leave its mapping as it is. -/
theorem ofCatalog?_eq_of_eqvGen (h : Relation.EqvGen (Catalog.Unseen name) c c') :
    ofCatalog? c' name = ofCatalog? c name := by
  induction h with
  | rel _ _ hstep => exact hstep.ofCatalog?_eq
  | refl => rfl
  | symm _ _ _ ih => exact ih.symm
  | trans _ _ _ _ _ ihleft ihright => exact ihright.trans ihleft

/-- **A mapping depends on what its walk reads alone.**  It is the same in every catalog that
can be reached by differences that are not seen, in whatever number and order.  So it is the
same after an entity was inserted or replaced off the walk, if this was not the parent missing
at its end, and after the entities were put in another order. -/
theorem ofCatalog?_local (c : Catalog) (name : String) (hname : name ∈ c.names) :
    (∀ c', Relation.EqvGen (Catalog.Unseen name) c c' →
      ofCatalog? c' name = ofCatalog? c name) ∧
    (∀ n e, n ∉ (c.lineage name).map Prod.fst →
      (∀ p ∈ (c.lineage name).getLast?, p.2.parent? ≠ some n) →
      ofCatalog? (c.insert n e) name = ofCatalog? c name) ∧
    ∀ c' : Catalog, c'.entities.entries.Perm c.entities.entries →
      ofCatalog? c' name = ofCatalog? c name := by
  refine ⟨?_, ?_, ?_⟩
  · intro c' h
    exact ofCatalog?_eq_of_eqvGen h
  · intro n e hoff hend
    exact (Catalog.unseen_insert e hname hoff hend).ofCatalog?_eq
  · intro c' hperm
    exact (Catalog.unseen_of_perm hname hperm).ofCatalog?_eq

/-- A parent with a source, a field its child has already and a field that is not stored. -/
def remembered : Catalog :=
  .ofList
    [("User", { parent? := some "Base", fields := [{ name := "id" }] }),
     ("Base",
      { source? := some "t_base"
        parent? := some "Gone"
        fields := [{ name := "`id`", column? := some "base_id" },
          { name := "pin", persisted := false }, { name := "age" }] })]

/-- The same with another entity in front, where the parent has lost its source and the field
that was not stored, and has the other field in another column. -/
def retold : Catalog :=
  .ofList
    [("Log", { fields := [{ name := "line" }] }),
     ("Base",
      { parent? := some "Gone"
        fields := [{ name := "`id`", column? := some "old_id" }, { name := "age" }] }),
     ("User", { parent? := some "Base", fields := [{ name := "id" }] })]

/-- An entity does not see that a catalog is retold, but it sees the missing end of its walk put
in. -/
theorem ofCatalog?_local_retold :
    "User" ∈ remembered.names ∧
    Relation.EqvGen (Catalog.Unseen "User") remembered retold ∧
    ofCatalog? retold "User" = ofCatalog? remembered "User" ∧
    ofCatalog? (remembered.insert "Gone" { fields := [{ name := "sum" }] }) "User" ≠
      ofCatalog? remembered "User" := by
  have hname : "User" ∈ remembered.names := by decide
  have hsteps : Relation.EqvGen (Catalog.Unseen "User") remembered retold := by
    let child : Entity := { parent? := some "Base", fields := [{ name := "id" }] }
    let pin : Field := { name := "pin", persisted := false }
    let id : Field := { name := "`id`", column? := some "base_id" }
    let moved : Field := { name := "`id`", column? := some "old_id" }
    let age : Field := { name := "age" }
    let base : Entity :=
      { source? := some "t_base", parent? := some "Gone", fields := [id, pin, age] }
    let bare : Entity := { base with source? := none }
    have hwalk : remembered.lineage "User" = [("User", child)] ++ ("Base", base) :: [] := by
      decide +kernel
    have hbare : (remembered.insert "Base" bare).lineage "User" =
        [("User", child)] ++ ("Base", bare) :: [] := by
      decide +kernel
    have hfields : bare.fields = [] ++ ([id, pin] ++ [age]) := rfl
    have hsource := Catalog.Unseen.source none hwalk (List.cons_ne_nil _ [])
    have hidle := Catalog.Unseen.fields [moved] hbare hfields (by decide)
    have horder : Catalog.Unseen "User" ((remembered.insert "Base" bare).insert "Base"
        { bare with fields := [] ++ ([moved] ++ [age]) }) retold := by
      apply Catalog.Unseen.elsewhere (by decide) (by decide +kernel)
      intro p hp parent hup _
      obtain rfl : p = ("Base", { bare with fields := [moved, age] }) :=
        Option.some.inj (hp.symm.trans (by decide +kernel))
      obtain rfl := Option.some.inj hup
      decide
    exact .trans _ _ _ (.rel _ _ hsource) (.trans _ _ _ (.rel _ _ hidle) (.rel _ _ horder))
  exact ⟨hname, hsteps, (ofCatalog?_local remembered "User" hname).1 retold hsteps,
    by decide +kernel⟩

end Mapping

end QueryFilter
