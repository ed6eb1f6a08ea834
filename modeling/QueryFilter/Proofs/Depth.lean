import QueryFilter.Group.Json
import QueryFilter.Proofs.Reading

/-!
# How deep a tree is read back

A tree is written with all its lists, the empty ones too.  Read back, each group on
the way down opens two brackets, its own and that of the list of nested groups, and
the lists of the last group take one more, even where they hold nothing.  So a tree
of height `k` needs room for `2 * k + 1` brackets; with room for fewer, the first
group that is too deep is a fault, which stands for the whole tree.  The fault is
`malformed`, as for every bracket that may not be opened; the text is JSON all the same.

The room is always odd when a group of a written tree is met, if it was odd at the
root, and so it is in `reads_json`, which follows the tree and the room at once.

* `reads_object` — a group is read field by field;
* `reads_json` — a tree is read back where there is room for it, and malformed where
  there is not;
* `reads_nestText` — a text that leaves out the empty lists needs less room;
* `ofJson_json` — the bound for a whole text.
-/

namespace QueryFilter

namespace Rule

theorem nodup_keys : (slots.flatMap Json.Slot.keys).Nodup := by decide

/-- The fields of a rule as they are written. -/
def members (r : Rule) : List (Json.Member Rule) :=
  [(Json.Reader.reads_textOrNull r.field).member "field" fun s r => { r with field := s },
   ((Json.Reader.reads_textOrNull r.operator).member "operator"
      fun s r => { r with operator := s }).orKey "operate",
   (Json.Reader.reads_textOrNull r.value).member "value" fun s r => { r with value := s }]

/-- A rule is read back where one more object may be opened. -/
theorem reads_json (room : Nat) (r : Rule) : (read (room + 1)).Reads r.json (.ok r) :=
  Json.Reader.reads_record nodup_keys r.members (.refl _) (fun _ hslot _ => hslot) "FilterRule" {}

end Rule

namespace Group

/-! ## Height -/

mutual

/-- How many groups there are on the longest path from the root to a leaf. -/
def height : Group → Nat
  | ⟨_, _, groups⟩ => heightAll groups + 1

/-- The height of the highest of some trees. -/
def heightAll : List Group → Nat
  | [] => 0
  | g :: gs => max g.height (heightAll gs)

end

/-- Some trees are no higher than a bound if each of them is not. -/
theorem heightAll_le_iff {gs : List Group} {n : Nat} :
    heightAll gs ≤ n ↔ ∀ g ∈ gs, g.height ≤ n := by
  induction gs with
  | nil => simp [heightAll]
  | cons g gs ih => rw [heightAll, Nat.max_le, ih, List.forall_mem_cons]

/-! ## Trees as they are written -/

section

variable {readRules : Json.Reader (List Rule)} {readGroups : Json.Reader (List Group)}

theorem nodup_keys : ((slots readRules readGroups).flatMap Json.Slot.keys).Nodup :=
  show ["operate", "rules", "groups"].Nodup by decide

/-- A group may be written with any of its fields, in their order. -/
theorem reads_fields (ms : List (Json.Member Group))
    (hms : (ms.map Json.Member.slot).Sublist (slots readRules readGroups)) :
    (Json.Reader.record "FilterGroup" (slots readRules readGroups) {}).Reads
      (Json.Write.object (ms.map Json.Member.entry)) (ms.foldlM Json.Member.apply {}) :=
  Json.Reader.reads_record nodup_keys ms hms (by simp [slots, Json.Reader.slot]) "FilterGroup" {}

variable {rulesText groupsText : List Char} {rules : Except Json.Fault (List Rule)}
  {groups : Except Json.Fault (List Group)}

/-- The fields of a group as they are written, whatever its lists are read as. -/
def members (operate : String) (hrules : readRules.Reads rulesText rules)
    (hgroups : readGroups.Reads groupsText groups) : List (Json.Member Group) :=
  [(Json.Reader.reads_textOrNull operate).member "operate" fun s g => { g with operate := s },
   hrules.member "rules" fun rs g => { g with rules := rs },
   hgroups.member "groups" fun gs g => { g with groups := gs }]

/-- **A group is read field by field.** -/
theorem reads_object (operate : String) (hrules : readRules.Reads rulesText rules)
    (hgroups : readGroups.Reads groupsText groups) :
    (Json.Reader.record "FilterGroup" (slots readRules readGroups) {}).Reads
      (Json.Write.object [("operate", Json.Write.text operate), ("rules", rulesText),
        ("groups", groupsText)])
      (rules.bind fun rs => groups.map fun gs => ⟨operate, rs, gs⟩) := by
  have hout : (members operate hrules hgroups).foldlM Json.Member.apply {} =
      rules.bind fun rs => groups.map fun gs => ⟨operate, rs, gs⟩ := by
    cases rules with
    | error f => rfl
    | ok rs => cases groups <;> rfl
  rw [← hout]
  exact reads_fields (members operate hrules hgroups) (.refl _)

end

/-- A written group is an entry. -/
theorem isEntry_json (g : Group) : Json.IsEntry g.json := by
  cases g
  exact Json.isEntry_object _

/-- **A tree is read back where there is room for it,** and malformed where there is
not, the bracket that is one too many being malformed by the limit alone.  It makes no
difference whether its deepest group has rules. -/
theorem reads_json (g : Group) (k : Nat) :
    (read (2 * k + 1)).Reads g.json (if g.height ≤ k then .ok g else .error .malformed) := by
  induction g using Group.induct generalizing k with
  | node operate rules groups ih =>
      rw [json, jsonAll_eq_map]
      cases k with
      | zero =>
          exact reads_object operate (Json.Reader.reads_closedList _)
            (Json.Reader.reads_closedList _)
      | succ k =>
          have hrules : (Rule.read (2 * k + 1)).list.Reads
              (Json.Write.array (rules.map Rule.json)) (.ok rules) :=
            Json.Reader.reads_list_back (fun r _ => Json.isEntry_object _)
              fun r _ => r.reads_json (2 * k)
          have hgroups : (read (2 * k + 1)).list.Reads (Json.Write.array (groups.map json))
              (if ∀ g ∈ groups, g.height ≤ k then .ok groups else .error .malformed) := by
            rw [← Json.mapM_guard]
            exact Json.Reader.reads_list (fun g _ => g.isEntry_json) fun g hg => ih g hg k
          have hnode := reads_object operate hrules hgroups
          simp only [height, Nat.add_le_add_iff_right, heightAll_le_iff]
          split at hnode
          · next hfits => rwa [if_pos hfits]
          · next hfits => rwa [if_neg hfits]

/-! ## Trees written without their empty lists -/

/-- Groups one inside another, `n` of them inside the outermost. -/
def nest : Nat → Group
  | 0 => {}
  | n + 1 => { groups := [nest n] }

/-- A text that presents the same with nothing said that may be left out. -/
def nestText : Nat → List Char
  | 0 => Json.Write.object []
  | n + 1 => Json.Write.object [("groups", Json.Write.array [nestText n])]

/-- The groups one inside another are all on one path. -/
theorem height_nest (n : Nat) : (nest n).height = n + 1 := by
  induction n with
  | zero => rfl
  | succ n ih => rw [nest, height, heightAll, ih, heightAll, Nat.max_zero]

/-- A text of them is an entry. -/
theorem isEntry_nestText (n : Nat) : Json.IsEntry (nestText n) := by
  cases n <;> exact Json.isEntry_object _

/-- The innermost group of such a text opens no list. -/
theorem reads_nestText (n : Nat) : (read (2 * n + 1)).Reads (nestText n) (.ok (nest n)) := by
  induction n with
  | zero => exact reads_fields [] (List.nil_sublist (slots .closedList .closedList))
  | succ n ih =>
      have hgroups : (read (2 * n + 1)).list.Reads
          (Json.Write.array ([nest n].map fun _ => nestText n)) (.ok [nest n]) := by
        refine Json.Reader.reads_list_back (fun _ _ => isEntry_nestText n) fun g hg => ?_
        rw [List.mem_singleton.mp hg]
        exact ih
      have hlast :
          [(read (2 * n + 1)).list.slot "groups" fun gs g => { g with groups := gs }].Sublist
            (slots (Rule.read (2 * n + 1)).list (read (2 * n + 1)).list) :=
        .cons _ (.cons _ (.refl _))
      exact reads_fields [hgroups.member "groups" fun gs g => { g with groups := gs }] hlast

/-- Such a text is shorter than the one in which the tree is written. -/
theorem length_nestText_lt (n : Nat) : (nestText n).length < (nest n).json.length := by
  induction n with
  | zero => decide
  | succ n ih =>
      simp only [nestText, nest, json, jsonAll, Json.Write.object, Json.Write.array,
        Json.Write.commas, Json.Write.member, List.map_cons, List.map_nil, List.length_append,
        List.intercalate_singleton, List.intercalate_cons_cons]
      omega

/-- **A written tree of up to 63 groups on a path is read back,** and a higher one is
malformed by the limit on open brackets, its text being JSON nested too deep.  So is a tree
of 64 that was itself read from a text, a shorter one. -/
theorem ofJson_json :
    (∀ g : Group, (g.height ≤ 63 → ofJson g.json = .ok g) ∧
      (64 ≤ g.height → ofJson g.json = .error .malformed)) ∧
    ∃ (deep : Group) (text : List Char), deep.height = 64 ∧ text.length < deep.json.length ∧
      ofJson text = .ok deep ∧ ofJson deep.json = .error .malformed := by
  have hread : ∀ g : Group,
      ofJson g.json = if g.height ≤ 63 then .ok g else .error .malformed := fun g =>
    (g.reads_json 63).readAll
  refine ⟨fun g => ⟨fun h => ?_, fun h => ?_⟩, nest 63, nestText 63, height_nest 63,
    length_nestText_lt 63, (reads_nestText 63).readAll, ?_⟩
  · rw [hread, if_pos h]
  · rw [hread, if_neg (by omega)]
  · rw [hread, if_neg (by rw [height_nest]; omega)]

end Group

end QueryFilter
