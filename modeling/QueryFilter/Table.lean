/-!
# Ordered tables

A table keeps one value per name, in the order in which the names first came.
There are two ways to write: `insert` replaces the value of a known name and
keeps its place, `add` leaves a known name alone.  That the names are distinct
is part of the type.

* `find?_insert`, `find?_add` — what each way of writing does to look-up;
* `names_insert`, `names_add` — and what it does to the order of names;
* `entries_firsts`, `find?_firsts` — adding entries one by one drops those whose name came before;
* `eraseDupsBy_map`, `lookup_map` — the names and values may be taken of other elements;
* `filter_firsts`, `entries_firsts_append` — which of them are kept when some are left
  out by name, or come behind others;
* `names_ofList`, `find?_ofList` — inserting entries one by one keeps the first place
  of each name and the last value under it.
-/

namespace QueryFilter

/-- Named values in order of first appearance. -/
structure Table (α : Type) where
  entries : List (String × α)
  nodup : (entries.map Prod.fst).Nodup
deriving DecidableEq, Repr

namespace Table

variable {α : Type}

/-- The table without entries. -/
def empty : Table α := ⟨[], List.nodup_nil⟩

instance : EmptyCollection (Table α) := ⟨empty⟩

/-- A table is its entries. -/
@[ext] theorem ext {s t : Table α} (h : s.entries = t.entries) : s = t := by
  cases s
  cases t
  cases h
  rfl

/-- The names, in order. -/
def names (t : Table α) : List String := t.entries.map Prod.fst

/-- How many names there are. -/
def size (t : Table α) : Nat := t.entries.length

/-- The value of `name`. -/
def find? (t : Table α) (name : String) : Option α := t.entries.lookup name

/-- The entries with the value of `name` replaced, or with a new entry for it
at the end. -/
def put (name : String) (value : α) : List (String × α) → List (String × α)
  | [] => [(name, value)]
  | (n, v) :: rest =>
      if n = name then (n, value) :: rest else (n, v) :: put name value rest

/-- Putting a value under a new name adds the name at the end, and moves none. -/
theorem map_fst_put (name : String) (value : α) (es : List (String × α)) :
    (put name value es).map Prod.fst =
      if name ∈ es.map Prod.fst then es.map Prod.fst else es.map Prod.fst ++ [name] := by
  induction es with
  | nil => simp [put]
  | cons e es ih =>
      obtain ⟨n, v⟩ := e
      by_cases h : n = name
      · simp [put, h]
      · have h' : ¬name = n := fun e => h e.symm
        simp only [put, h, if_false, List.map_cons, ih, List.mem_cons, h', false_or]
        split <;> simp

/-- Putting a value under a name keeps names distinct. -/
theorem nodup_put (name : String) (value : α) {es : List (String × α)}
    (h : (es.map Prod.fst).Nodup) : ((put name value es).map Prod.fst).Nodup := by
  rw [map_fst_put]
  split
  · exact h
  · next hn =>
      refine List.nodup_append.mpr ⟨h, by simp, ?_⟩
      rintro a ha b hb rfl
      exact hn (List.mem_singleton.mp hb ▸ ha)

/-- The value put under a name is the one found there, and no other is changed. -/
theorem lookup_put (name : String) (value : α) (es : List (String × α)) (key : String) :
    (put name value es).lookup key =
      if key = name then some value else es.lookup key := by
  induction es with
  | nil => grind [put]
  | cons e es ih => grind [put]

/-- What is put under a new name comes last. -/
theorem put_of_new {name : String} (value : α) {es : List (String × α)}
    (h : name ∉ es.map Prod.fst) : put name value es = es ++ [(name, value)] := by
  induction es with
  | nil => rfl
  | cons e es ih =>
      obtain ⟨hne, hrest⟩ := not_or.mp (mt List.mem_cons.mpr h)
      rw [put, if_neg (Ne.symm hne), ih hrest]
      rfl

/-- Sets the value of `name`; a known name keeps its place. -/
def insert (t : Table α) (name : String) (value : α) : Table α :=
  ⟨put name value t.entries, nodup_put name value t.nodup⟩

/-- Gives `name` a value unless it has one. -/
def add (t : Table α) (name : String) (value : α) : Table α :=
  if (t.find? name).isSome then t else t.insert name value

/-- The table made by inserting the entries in order. -/
def ofList (es : List (String × α)) : Table α :=
  es.foldl (fun t e => t.insert e.1 e.2) ∅

/-- The table that keeps the first value of each name. -/
def firsts (es : List (String × α)) : Table α :=
  es.foldl (fun t e => t.add e.1 e.2) ∅

@[simp] theorem find?_empty (key : String) : (∅ : Table α).find? key = none := rfl

@[simp] theorem names_empty : (∅ : Table α).names = [] := rfl

/-- The last value inserted under a name is the one found. -/
theorem find?_insert (t : Table α) (name : String) (value : α) (key : String) :
    (t.insert name value).find? key = if key = name then some value else t.find? key :=
  lookup_put name value t.entries key

/-- Inserting puts a new name last and moves no name. -/
theorem names_insert (t : Table α) (name : String) (value : α) :
    (t.insert name value).names = if name ∈ t.names then t.names else t.names ++ [name] :=
  map_fst_put name value t.entries

/-- A name is known exactly when it is found. -/
theorem find?_isSome_iff {t : Table α} {name : String} :
    (t.find? name).isSome ↔ name ∈ t.names := by
  obtain ⟨es, h⟩ := t
  simp only [find?, names]
  clear h
  induction es with
  | nil => simp
  | cons e es ih => grind

/-- What is not among the names is not found, and nothing else. -/
theorem find?_eq_none_iff {t : Table α} {name : String} :
    t.find? name = none ↔ name ∉ t.names := by
  rw [← find?_isSome_iff]
  cases t.find? name <;> simp

/-- What is found under a name is the one entry for it. -/
theorem find?_eq_some_iff {t : Table α} {name : String} {value : α} :
    t.find? name = some value ↔ (name, value) ∈ t.entries := by
  constructor
  · intro h
    obtain ⟨front, back, hentries, -⟩ := List.lookup_eq_some_iff.mp h
    simp [hentries]
  · intro h
    obtain ⟨front, back, hentries⟩ := List.append_of_mem h
    refine List.lookup_eq_some_iff.mpr ⟨front, back, hentries, ?_⟩
    have hnodup := t.nodup
    rw [hentries, List.map_append, List.nodup_append] at hnodup
    intro entry hentry
    have hne : entry.1 ≠ name :=
      hnodup.2.2 entry.1 (List.mem_map_of_mem hentry) name List.mem_cons_self
    simpa using Ne.symm hne

/-- The first value added under a name is the one found. -/
theorem find?_add (t : Table α) (name : String) (value : α) (key : String) :
    (t.add name value).find? key =
      if key = name then some ((t.find? name).getD value) else t.find? key := by
  unfold add
  cases h : t.find? name with
  | none =>
      simp [find?_insert]
  | some v =>
      by_cases hk : key = name
      · simp [hk, h]
      · simp [hk]

/-- Adding puts a new name last and moves no name. -/
theorem names_add (t : Table α) (name : String) (value : α) :
    (t.add name value).names = if name ∈ t.names then t.names else t.names ++ [name] := by
  unfold add
  split
  · next h => rw [if_pos (find?_isSome_iff.mp h)]
  · exact names_insert t name value

/-- An entry is added at the end, or not at all. -/
theorem entries_add (t : Table α) (name : String) (value : α) :
    (t.add name value).entries =
      if name ∈ t.names then t.entries else t.entries ++ [(name, value)] := by
  unfold add
  split
  · next h => rw [if_pos (find?_isSome_iff.mp h)]
  · next h =>
      have hnew : name ∉ t.names := fun hname => h (find?_isSome_iff.mpr hname)
      rw [if_neg hnew]
      exact put_of_new value hnew

/-- Adding entries to a table: those are left out whose name is in the table, and
those whose name came before. -/
theorem entries_foldl_add (t : Table α) (es : List (String × α)) :
    (es.foldl (fun t e => t.add e.1 e.2) t).entries =
      t.entries ++ (es.filter fun e => e.1 ∉ t.names).eraseDupsBy
        fun later first => later.1 == first.1 := by
  induction es generalizing t with
  | nil => simp
  | cons e es ih =>
      rw [List.foldl_cons, ih, entries_add, names_add]
      by_cases h : e.1 ∈ t.names
      · simp [h]
      · have hrest : (es.filter fun x => x.1 ∉ t.names ++ [e.1]) =
            (es.filter fun x => x.1 ∉ t.names).filter fun x => (x.1 == e.1) = false := by
          rw [List.filter_filter]
          congr 1
          funext x
          by_cases hx : x.1 = e.1 <;> simp [hx]
        rw [if_neg h, if_neg h, hrest, List.filter_cons_of_pos (by simpa using h),
          List.eraseDupsBy_cons, List.append_assoc]
        rfl

/-- **The first value of each name is kept**, in the order of the entries. -/
theorem entries_firsts (es : List (String × α)) :
    (firsts es).entries = es.eraseDupsBy fun later first => later.1 == first.1 := by
  have hfold := entries_foldl_add (∅ : Table α) es
  have hall : (es.filter fun e => e.1 ∉ (∅ : Table α).names) = es := by simp
  rw [hall] at hfold
  exact hfold

/-- The first of each kind among some images are the images of the first. -/
theorem eraseDupsBy_map {β γ : Type} (f : β → γ) (r : γ → γ → Bool) :
    ∀ xs : List β,
      (xs.map f).eraseDupsBy r = (xs.eraseDupsBy fun x y => r (f x) (f y)).map f
  | [] => rfl
  | x :: xs => by
      rw [List.map_cons, List.eraseDupsBy_cons, List.eraseDupsBy_cons, List.map_cons,
        List.filter_map, eraseDupsBy_map f r]
      rfl
termination_by xs => xs.length
decreasing_by exact Nat.lt_succ_of_le (List.length_filter_le _ _)

/-- Which are the first of each kind is decided by how the elements compare. -/
theorem eraseDupsBy_congr {β : Type} {r r' : β → β → Bool} :
    ∀ {xs : List β}, (∀ x ∈ xs, ∀ y ∈ xs, r x y = r' x y) →
      xs.eraseDupsBy r = xs.eraseDupsBy r'
  | [], _ => rfl
  | x :: xs, h => by
      have hfilter : (xs.filter fun y => r y x = false) = xs.filter fun y => r' y x = false := by
        apply List.filter_congr
        intro y hy
        rw [h y (List.mem_cons_of_mem _ hy) x List.mem_cons_self]
      have hrest : ∀ y ∈ xs.filter fun y => r' y x = false, y ∈ x :: xs := fun y hy =>
        List.mem_cons_of_mem _ (List.mem_filter.mp hy).1
      rw [List.eraseDupsBy_cons, List.eraseDupsBy_cons, hfilter,
        eraseDupsBy_congr fun y hy z hz => h y (hrest y hy) z (hrest z hz)]
termination_by xs => xs.length
decreasing_by exact Nat.lt_succ_of_le (List.length_filter_le _ _)

/-- The first of each kind stand in the order of the list. -/
theorem eraseDupsBy_sublist {β : Type} (r : β → β → Bool) :
    ∀ xs : List β, (xs.eraseDupsBy r).Sublist xs
  | [] => List.nil_sublist _
  | x :: xs => by
      rw [List.eraseDupsBy_cons]
      have hrest := eraseDupsBy_sublist r (xs.filter fun y => r y x = false)
      exact (hrest.trans List.filter_sublist).cons_cons x
termination_by xs => xs.length
decreasing_by exact Nat.lt_succ_of_le (List.length_filter_le _ _)

/-- Looking up a name among the values of some elements is a search among the elements. -/
theorem lookup_map {β : Type} (key : β → String) (value : β → α) (xs : List β) (name : String) :
    (xs.map fun x => (key x, value x)).lookup name =
      (xs.find? fun x => key x == name).map value := by
  induction xs with
  | nil => rfl
  | cons x xs ih =>
      by_cases hkey : key x = name
      · have hfound : (x :: xs).find? (fun x => key x == name) = some x :=
          List.find?_cons_of_pos (beq_iff_eq.mpr hkey)
        rw [List.map_cons, hkey, List.lookup_cons_self, hfound]
        rfl
      · have hne : (name == key x) = false := beq_eq_false_iff_ne.mpr (Ne.symm hkey)
        have hrest : (x :: xs).find? (fun x => key x == name) = xs.find? fun x => key x == name :=
          List.find?_cons_of_neg (by simpa using hkey)
        rw [List.map_cons, List.lookup_cons, hne, hrest]
        exact ih

/-- Of the values added under a name, the first is found. -/
theorem find?_foldl_add (t : Table α) (es : List (String × α)) (name : String) :
    (es.foldl (fun t e => t.add e.1 e.2) t).find? name =
      (t.find? name).or (es.lookup name) := by
  induction es generalizing t with
  | nil => simp
  | cons e es ih =>
      obtain ⟨key, value⟩ := e
      rw [List.foldl_cons, ih, find?_add]
      by_cases h : name = key
      · subst h
        rw [if_pos rfl, List.lookup_cons_self]
        cases t.find? name <;> rfl
      · have hne : (name == key) = false := beq_eq_false_iff_ne.mpr h
        rw [if_neg h, List.lookup_cons, hne]

/-- **The first value under a name is the one found.** -/
theorem find?_firsts (es : List (String × α)) (name : String) :
    (firsts es).find? name = es.lookup name := by
  rw [firsts, find?_foldl_add]
  rfl

/-- Whether entries are left out by their names before the first of each name is kept
or after it, comes to the same. -/
theorem filter_foldl_add (p : String → Bool) {t u : Table α}
    (h : u.entries = t.entries.filter fun e => p e.1) (es : List (String × α)) :
    ((es.foldl (fun t e => t.add e.1 e.2) t).entries.filter fun e => p e.1) =
      ((es.filter fun e => p e.1).foldl (fun t e => t.add e.1 e.2) u).entries := by
  induction es generalizing t u with
  | nil => exact h.symm
  | cons e es ih =>
      have hnames : ∀ n, p n = true → (n ∈ u.names ↔ n ∈ t.names) := by
        intro n hn
        simp only [names, h, List.mem_map, List.mem_filter]
        constructor
        · rintro ⟨x, ⟨hx, -⟩, rfl⟩
          exact ⟨x, hx, rfl⟩
        · rintro ⟨x, hx, rfl⟩
          exact ⟨x, ⟨hx, hn⟩, rfl⟩
      rw [List.foldl_cons]
      cases hp : p e.1 with
      | false =>
          rw [List.filter_cons_of_neg (by simp [hp])]
          refine ih ?_
          rw [entries_add]
          split <;> simp [h, hp]
      | true =>
          rw [List.filter_cons_of_pos (by simpa using hp), List.foldl_cons]
          refine ih ?_
          rw [entries_add, entries_add]
          by_cases hmem : e.1 ∈ t.names
          · rw [if_pos hmem, if_pos ((hnames _ hp).mpr hmem), h]
          · rw [if_neg hmem, if_neg (mt (hnames _ hp).mp hmem), h]
            simp [hp]

/-- The first values of some of the names are the same with the others left out before. -/
theorem filter_firsts (p : String → Bool) (es : List (String × α)) :
    ((firsts es).entries.filter fun e => p e.1) =
      (firsts (es.filter fun e => p e.1)).entries :=
  filter_foldl_add p rfl es

/-- Adding entries one by one gives all their names. -/
theorem mem_names_foldl_add (t : Table α) (es : List (String × α)) (name : String) :
    name ∈ (es.foldl (fun t e => t.add e.1 e.2) t).names ↔
      name ∈ t.names ∨ name ∈ es.map Prod.fst := by
  induction es generalizing t with
  | nil => simp
  | cons e es ih =>
      rw [List.foldl_cons, ih, names_add, List.map_cons, List.mem_cons]
      split
      · next h =>
          constructor
          · exact Or.imp_right Or.inr
          · rintro (hknown | rfl | hrest)
            · exact .inl hknown
            · exact .inl h
            · exact .inr hrest
      · rw [List.mem_append, List.mem_singleton, or_assoc]

/-- The names of a table of first values are those of the entries. -/
theorem mem_names_firsts {es : List (String × α)} {name : String} :
    name ∈ (firsts es).names ↔ name ∈ es.map Prod.fst := by
  rw [firsts, mem_names_foldl_add]
  simp

/-- Of entries behind others, those are left out whose name came before. -/
theorem entries_firsts_append (es fs : List (String × α)) :
    (firsts (es ++ fs)).entries =
      (firsts es).entries ++ (firsts (fs.filter fun e => e.1 ∉ es.map Prod.fst)).entries := by
  have hfold := entries_foldl_add (firsts es) fs
  simp only [mem_names_firsts] at hfold
  rw [firsts, List.foldl_append, entries_firsts (fs.filter _)]
  exact hfold

/-- Entries whose names all came before may as well be left out. -/
theorem firsts_append_of_taken {es fs gs : List (String × α)}
    (h : ∀ e ∈ fs, e.1 ∈ es.map Prod.fst) : firsts (es ++ (fs ++ gs)) = firsts (es ++ gs) := by
  have hnone : (fs.filter fun e => e.1 ∉ es.map Prod.fst) = [] :=
    List.filter_eq_nil_iff.mpr fun e he => by simpa using h e he
  apply ext
  rw [entries_firsts_append, entries_firsts_append, List.filter_append, hnone, List.nil_append]

/-- The names of a table after some insertions: the new ones come last, each where it came
first. -/
theorem names_foldl_insert (t : Table α) (es : List (String × α)) :
    (es.foldl (fun t e => t.insert e.1 e.2) t).names =
      t.names ++ ((es.map Prod.fst).filter fun n => n ∉ t.names).eraseDups := by
  induction es generalizing t with
  | nil => simp
  | cons e es ih =>
      rw [List.foldl_cons, ih, names_insert, List.map_cons]
      by_cases h : e.1 ∈ t.names
      · rw [if_pos h, List.filter_cons_of_neg (by simpa using h)]
      · have hrest : ((es.map Prod.fst).filter fun n => n ∉ t.names ++ [e.1]) =
            ((es.map Prod.fst).filter fun n => n ∉ t.names).filter fun n => !n == e.1 := by
          rw [List.filter_filter]
          congr 1
          funext n
          by_cases hn : n = e.1 <;> simp [hn]
        rw [if_neg h, hrest, List.filter_cons_of_pos (by simpa using h), List.eraseDups_cons,
          List.append_assoc]
        rfl

/-- Of the values inserted under a name, the last is found. -/
theorem find?_foldl_insert (t : Table α) (es : List (String × α)) (name : String) :
    (es.foldl (fun t e => t.insert e.1 e.2) t).find? name =
      (es.reverse.lookup name).or (t.find? name) := by
  induction es generalizing t with
  | nil => simp
  | cons e es ih =>
      obtain ⟨key, value⟩ := e
      rw [List.foldl_cons, ih, find?_insert, List.reverse_cons, List.lookup_append, Option.or_assoc]
      by_cases h : name = key
      · subst h
        rw [if_pos rfl, List.lookup_cons_self, Option.some_or]
      · have hne : (name == key) = false := beq_eq_false_iff_ne.mpr h
        rw [if_neg h, List.lookup_cons, hne, List.lookup_nil, Option.none_or]

/-- Entries under new names are inserted as they are. -/
theorem entries_foldl_insert (t : Table α) (es : List (String × α))
    (h : ((t.entries ++ es).map Prod.fst).Nodup) :
    (es.foldl (fun t e => t.insert e.1 e.2) t).entries = t.entries ++ es := by
  induction es generalizing t with
  | nil => simp
  | cons e es ih =>
      have hnew : e.1 ∉ t.entries.map Prod.fst := by
        rw [List.map_append, List.nodup_append] at h
        intro hmem
        exact h.2.2 _ hmem _ List.mem_cons_self rfl
      have hinsert : (t.insert e.1 e.2).entries = t.entries ++ [e] := put_of_new e.2 hnew
      rw [List.foldl_cons, ih, hinsert, List.append_assoc]
      · rfl
      · rwa [hinsert, List.append_assoc]

/-- **Inserted names stand where they came first.** -/
theorem names_ofList (es : List (String × α)) :
    (ofList es).names = (es.map Prod.fst).eraseDups := by
  have hfold := names_foldl_insert (∅ : Table α) es
  have hall : ((es.map Prod.fst).filter fun n => n ∉ (∅ : Table α).names) = es.map Prod.fst :=
    List.filter_eq_self.mpr (by simp)
  rw [hall] at hfold
  exact hfold

/-- **The last value inserted under a name counts.** -/
theorem find?_ofList (es : List (String × α)) (name : String) :
    (ofList es).find? name = es.reverse.lookup name := by
  rw [ofList, find?_foldl_insert]
  simp

/-- The entries of a table make the table. -/
theorem ofList_entries (t : Table α) : ofList t.entries = t := by
  apply ext
  rw [ofList, entries_foldl_insert]
  · rfl
  · exact t.nodup

end Table

end QueryFilter
